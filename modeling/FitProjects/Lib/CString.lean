import Mathlib.Data.List.TakeWhile

/-! # Strings ended by NUL

The string at the start of a buffer is what comes before its first NUL byte. -/

/-- `isspace` in the C locale. -/
def isspace (c : UInt8) : Bool := (9 ≤ c && c ≤ 13) || c == 32

theorem isspace_eq_false {c : UInt8} (h : 33 ≤ c.toNat) : isspace c = false := by
  rw [Bool.eq_false_iff]
  intro hspace
  simp only [isspace, Bool.or_eq_true, Bool.and_eq_true, decide_eq_true_eq, beq_iff_eq] at hspace
  rcases hspace with ⟨-, hle⟩ | rfl
  · have hle' := UInt8.le_iff_toNat_le.mp hle
    change c.toNat ≤ 13 at hle'
    omega
  · exact absurd h (by decide)

/-- A text that does not begin with white space stays. -/
theorem dropWhile_isspace_cons {c : UInt8} (h : isspace c = false) (s : List UInt8) :
    (c :: s).dropWhile isspace = c :: s := List.dropWhile_cons_of_neg (by simp [h])

/-- The string at the start of a buffer. -/
def cstring (buffer : List UInt8) : List UInt8 := buffer.takeWhile (· ≠ 0)

theorem cstring_eq_self {buffer : List UInt8} (h : 0 ∉ buffer) : cstring buffer = buffer := by
  rw [cstring, List.takeWhile_eq_self_iff]
  intro c hc
  have hne : c ≠ 0 := fun h0 => h (h0 ▸ hc)
  simpa using hne

theorem zero_notMem_cstring (buffer : List UInt8) : 0 ∉ cstring buffer := by
  intro h
  simpa using List.mem_takeWhile_imp h

/-- The beginning of a string is a string. -/
theorem cstring_isPrefix {text buffer : List UInt8} (h : text <+: cstring buffer) :
    cstring text = text :=
  cstring_eq_self fun h0 => zero_notMem_cstring buffer (h.subset h0)

/-- A string is read up to its NUL. -/
theorem cstring_append_zero {s buffer : List UInt8} (h : 0 ∉ s) :
    cstring (s ++ 0 :: buffer) = s := by
  have hs : ∀ c ∈ s, decide (c ≠ 0) = true := by
    intro c hc
    have hne : c ≠ 0 := fun h0 => h (h0 ▸ hc)
    simpa using hne
  rw [cstring, List.takeWhile_append_of_pos hs]
  simp

/-- What follows a beginning of the string is the string of the rest of the buffer. -/
theorem cstring_eq_append {text buffer : List UInt8} (h : text <+: cstring buffer) :
    cstring buffer = text ++ cstring (buffer.drop text.length) := by
  induction text generalizing buffer with
  | nil => rfl
  | cons c text ih =>
    cases buffer with
    | nil => simp [cstring] at h
    | cons b buffer =>
      by_cases hb : b = 0
      · simp [cstring, hb] at h
      · have hcons : cstring (b :: buffer) = b :: cstring buffer := by simp [cstring, hb]
        rw [hcons] at h ⊢
        obtain ⟨rfl, htext⟩ := List.cons_prefix_cons.mp h
        simp [ih htext]

/-- The string ends at the first NUL and at the end of the buffer. -/
theorem eq_cstring_of_end {text buffer : List UInt8} (h : text <+: cstring buffer)
    (hend : ∀ c, (buffer.drop text.length).head? = some c → c = 0) : text = cstring buffer := by
  rw [cstring_eq_append h]
  cases hd : buffer.drop text.length with
  | nil => simp [cstring]
  | cons c rest => simp [cstring, hend c (by simp [hd])]

/-- A byte that is not NUL goes on with the string. -/
theorem append_prefix_cstring {text buffer : List UInt8} (h : text <+: cstring buffer)
    (hc : (buffer.drop text.length).head? = some c) (h0 : c ≠ 0) :
    text ++ [c] <+: cstring buffer := by
  rw [cstring_eq_append h]
  cases hd : buffer.drop text.length with
  | nil => simp [hd] at hc
  | cons b rest =>
    obtain rfl : b = c := by simpa [hd] using hc
    simp [cstring, h0]

/-- The bytes of a string literal. -/
def literal (s : String) : List UInt8 := s.toList.map fun c => UInt8.ofNat c.toNat
