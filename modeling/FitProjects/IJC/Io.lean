import FitProjects.Lib.CString

/-! # Reading words

`fgetw` of `IJC/proj2/io.c` on the bytes that are still to be read. `words` are the maximal runs
of bytes that are not white space, each truncated to `max` bytes; `fgetw_spec` says that `fgetw`
splits off a line end or the next word, or finds no more words. The warning about a truncated word
is left out. -/

namespace Io

/-- `EOF`. -/
def eof : Int := -1

/-- `while ((c=fgetc(f))!=EOF && isspace(c));`: the last byte read, if any, and what is left. -/
def skipSpaces : List UInt8 → Option UInt8 × List UInt8
  | [] => (none, [])
  | c :: f => if isspace c then skipSpaces f else (some c, f)

/-- `while ((c=fgetc(f))!=EOF && !isspace(c));`: what is left. -/
def skipWord : List UInt8 → List UInt8
  | [] => []
  | c :: f => if isspace c then f else skipWord f

/-- The `for` loop of `fgetw` after `s` was stored: the whole of `s`, and what is left. -/
def readWord (max : Nat) (s : List UInt8) : List UInt8 → List UInt8 × List UInt8
  | [] => (s, [])
  | c :: f =>
    if isspace c then (s, f)
    else if max ≤ s.length then (s, skipWord f)
    else readWord max (s ++ [c]) f

/-- `fgetw`: the result, the bytes in the buffer before the final NUL, and what is left. The buffer
`s` is not touched unless there is a word. -/
def fgetw (s : List UInt8) (max : Nat) (f : List UInt8) : Int × List UInt8 × List UInt8 :=
  match f with
  | 10 :: f => (0, s, f)
  | f =>
    match skipSpaces f with
    | (none, f) => (eof, s, f)
    | (some c, f) =>
      let (s, f) := readWord max [c] f
      (s.length, s, f)

/-- The maximal runs of bytes that are not white space, truncated to `max` bytes. -/
def words (max : Nat) (f : List UInt8) : List (List UInt8) :=
  ((f.splitOnP isspace).filter (· ≠ [])).map (·.take max)

variable {s f rest w : List UInt8} {max : Nat} {c : UInt8}

/-- A byte that does not go on with a word: white space, or the end. -/
def Ends (f : List UInt8) : Prop := ∀ c ∈ f.head?, isspace c

theorem words_cons_of_isspace (hc : isspace c) : words max (c :: f) = words max f := by
  rw [words, words, List.splitOnP_cons_eq_if_modifyHead, if_pos hc,
    List.filter_cons_of_neg (by simp)]

theorem words_of_forall_isspace (h : ∀ c ∈ f, isspace c) : words max f = [] := by
  induction f with
  | nil => rfl
  | cons c f ih =>
    rw [List.forall_mem_cons] at h
    rw [words_cons_of_isspace h.1, ih h.2]

/-- A run that is followed by white space or the end is the next word. -/
theorem words_append (hne : w ≠ []) (hw : ∀ c ∈ w, isspace c = false) (hrest : Ends rest) :
    words max (w ++ rest) = w.take max :: words max rest.tail := by
  cases rest with
  | nil => simp [words, List.splitOnP_eq_singleton hw, hne]
  | cons c f =>
    have hc : isspace c := hrest c rfl
    simp [words, List.splitOnP_append_cons_of_forall_mem hw c hc, hne]

/-- What skipping white space leaves. -/
theorem skipSpaces_cases (f : List UInt8) :
    (∀ c ∈ f, isspace c) ∧ skipSpaces f = (none, []) ∨
      ∃ sp c rest, f = sp ++ c :: rest ∧ (∀ c ∈ sp, isspace c) ∧ isspace c = false ∧
        skipSpaces f = (some c, rest) := by
  induction f with
  | nil => exact .inl ⟨by simp, rfl⟩
  | cons c f ih =>
    cases hc : isspace c with
    | false => exact .inr ⟨[], c, f, rfl, by simp, hc, by simp [skipSpaces, hc]⟩
    | true =>
      rcases ih with ⟨hall, hskip⟩ | ⟨sp, c', rest, rfl, hsp, hc', hskip⟩
      · exact .inl ⟨by simpa [hc] using hall, by simp [skipSpaces, hc, hskip]⟩
      · exact .inr ⟨c :: sp, c', rest, rfl, by simpa [hc] using hsp, hc',
          by simp [skipSpaces, hc, hskip]⟩

/-- The run that the rest of a stream starts with. -/
theorem exists_run (f : List UInt8) :
    ∃ w rest, f = w ++ rest ∧ (∀ c ∈ w, isspace c = false) ∧ Ends rest := by
  induction f with
  | nil => exact ⟨[], [], rfl, by simp, by simp [Ends]⟩
  | cons c f ih =>
    cases hc : isspace c with
    | true => exact ⟨[], c :: f, rfl, by simp, by simp [Ends, hc]⟩
    | false =>
      obtain ⟨w, rest, rfl, hw, hrest⟩ := ih
      exact ⟨c :: w, rest, rfl, by simpa [hc] using hw, hrest⟩

theorem skipWord_append (hw : ∀ c ∈ w, isspace c = false) (hrest : Ends rest) :
    skipWord (w ++ rest) = rest.tail := by
  induction w with
  | nil =>
    cases rest with
    | nil => rfl
    | cons c f => simp [skipWord, hrest c rfl]
  | cons c w ih =>
    rw [List.forall_mem_cons] at hw
    simp [skipWord, hw.1, ih hw.2]

/-- The loop stores the run up to the limit and leaves what is behind the byte after it. -/
theorem readWord_append (hs : s.length ≤ m) (hw : ∀ c ∈ w, isspace c = false)
    (hrest : Ends rest) : readWord m s (w ++ rest) = ((s ++ w).take m, rest.tail) := by
  induction w generalizing s with
  | nil =>
    rw [List.append_nil, List.take_of_length_le hs]
    cases rest with
    | nil => rfl
    | cons c f => simp [readWord, hrest c rfl]
  | cons c w ih =>
    rw [List.forall_mem_cons] at hw
    rw [List.cons_append, readWord, if_neg (by simp [hw.1])]
    by_cases hmax : m ≤ s.length
    · rw [if_pos hmax, skipWord_append hw.2 hrest, List.take_append_of_le_length hmax,
        List.take_of_length_le hs]
    · rw [if_neg hmax, ih (by simp; omega) hw.2, List.append_assoc, List.singleton_append]

theorem words_append_of_forall_isspace (h : ∀ c ∈ w, isspace c) :
    words max (w ++ f) = words max f := by
  induction w with
  | nil => rfl
  | cons c w ih =>
    rw [List.forall_mem_cons] at h
    rw [List.cons_append, words_cons_of_isspace h.1, ih h.2]

/-- One call takes a line end, or the next word and the byte behind it, or finds no more words. -/
theorem fgetw_spec (s : List UInt8) (hmax : 1 ≤ max) (f : List UInt8) :
    (∃ f', fgetw s max f = (0, s, f') ∧ f'.length < f.length ∧ words max f = words max f') ∨
    (fgetw s max f = (eof, s, []) ∧ words max f = []) ∨
    ∃ w f', fgetw s max f = (w.length, w, f') ∧ w ≠ [] ∧ f'.length < f.length ∧
      words max f = w :: words max f' := by
  unfold fgetw
  split
  · rename_i f
    exact .inl ⟨f, rfl, by simp, words_cons_of_isspace rfl⟩
  · rcases skipSpaces_cases f with ⟨hall, hskip⟩ | ⟨sp, c, rest, rfl, hsp, hc, hskip⟩
    · exact .inr (.inl ⟨by rw [hskip], words_of_forall_isspace hall⟩)
    · obtain ⟨w, rest, rfl, hw, hrest⟩ := exists_run rest
      have hrun : ∀ b ∈ c :: w, isspace b = false := List.forall_mem_cons.mpr ⟨hc, hw⟩
      have hread := readWord_append (s := [c]) (m := max) (by simpa using hmax) hw hrest
      refine .inr (.inr ⟨(c :: w).take max, rest.tail, ?_, ?_, ?_, ?_⟩)
      · rw [hskip]
        simp only [hread, List.singleton_append]
      · cases max with
        | zero => omega
        | succ max => simp
      · simp only [List.length_append, List.length_cons, List.length_tail]
        omega
      · rw [words_append_of_forall_isspace hsp, ← List.cons_append,
          words_append (List.cons_ne_nil c w) hrun hrest]

/-- A call that does not find the end takes something. -/
theorem length_fgetw_lt (hmax : 1 ≤ max) (h : (fgetw s max f).1 ≠ eof) :
    (fgetw s max f).2.2.length < f.length := by
  rcases fgetw_spec s hmax f with ⟨f', hget, hlt, -⟩ | ⟨hget, -⟩ | ⟨w, f', hget, -, hlt, -⟩
  · rw [hget]
    exact hlt
  · rw [hget] at h
    exact absurd rfl h
  · rw [hget]
    exact hlt

theorem skipSpaces_append (hsp : ∀ b ∈ w, isspace b) (hc : isspace c = false) :
    skipSpaces (w ++ c :: f) = (some c, f) := by
  induction w with
  | nil => simp [skipSpaces, hc]
  | cons b w ih =>
    rw [List.forall_mem_cons] at hsp
    rw [List.cons_append, skipSpaces, if_pos hsp.1, ih hsp.2]

theorem skipSpaces_eq_none (h : ∀ b ∈ w, isspace b) : skipSpaces w = (none, []) := by
  induction w with
  | nil => rfl
  | cons b w ih =>
    rw [List.forall_mem_cons] at h
    rw [skipSpaces, if_pos h.1, ih h.2]

theorem fgetw_end (hf : ∀ c ∈ f, isspace c) (hne : ∀ f', f ≠ 10 :: f') :
    fgetw s max f = (eof, s, []) := by
  rw [fgetw.eq_def]
  split
  next f' => exact absurd rfl (hne f')
  next => rw [skipSpaces_eq_none hf]

/-- White space that does not start with a line end, and a word. -/
theorem fgetw_word {sp : List UInt8} (hmax : 1 ≤ max) (hsp : ∀ c ∈ sp, isspace c)
    (hc : isspace c = false) (hw : ∀ b ∈ w, isspace b = false) (hrest : Ends rest)
    (hne : ∀ f', sp ++ c :: (w ++ rest) ≠ 10 :: f') : fgetw s max (sp ++ c :: (w ++ rest)) =
      ((((c :: w).take max).length : Int), (c :: w).take max, rest.tail) := by
  have hread := readWord_append (s := [c]) (m := max) (by simpa using hmax) hw hrest
  rw [fgetw.eq_def]
  split
  next f' heq => exact absurd heq (hne f')
  next =>
    rw [skipSpaces_append hsp hc]
    simp only [hread, List.singleton_append]

theorem mem_of_mem_splitOnP {p : UInt8 → Bool} (hw : w ∈ f.splitOnP p) (hc : c ∈ w) : c ∈ f := by
  induction f generalizing w with
  | nil =>
    rw [List.splitOnP_nil, List.mem_singleton] at hw
    exact hw ▸ hc
  | cons b f ih =>
    rw [List.splitOnP_cons_eq_if_modifyHead] at hw
    split at hw
    · rcases List.mem_cons.mp hw with rfl | hw
      · cases hc
      · exact List.mem_cons_of_mem b (ih hw hc)
    · obtain ⟨v, vs, hsplit⟩ := List.exists_cons_of_ne_nil (List.splitOnP_ne_nil p f)
      rw [hsplit, List.modifyHead_cons] at hw
      rw [hsplit] at ih
      rcases List.mem_cons.mp hw with rfl | hw
      · rcases List.mem_cons.mp hc with rfl | hc
        · exact List.mem_cons_self
        · exact List.mem_cons_of_mem b (ih List.mem_cons_self hc)
      · exact List.mem_cons_of_mem b (ih (List.mem_cons_of_mem v hw) hc)

/-- The bytes of the words come from the stream. -/
theorem mem_of_mem_words (hw : w ∈ words max f) (hc : c ∈ w) : c ∈ f := by
  obtain ⟨v, hv, rfl⟩ := List.mem_map.mp hw
  exact mem_of_mem_splitOnP (List.mem_filter.mp hv).1 (List.mem_of_mem_take hc)

end Io
