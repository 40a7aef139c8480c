import Mathlib.Data.List.Basic
import Mathlib.Data.List.Flatten

/-! # Nondeterministic parsers

The parsers of `Text.ParserCombinators.ReadP` as lists of successes: a parser takes the input to all
its parses, each with what is left of the input. `Reads p print P` says what the parses are, and
`Unambiguous p L` that at most one of them is followed by an input in `L`. -/

/-- A parser: all values read from the start of the input, with the rest. -/
def ReadP (α : Type u) := List Char → List (α × List Char)

namespace ReadP

instance : Monad ReadP where
  pure a s := [(a, s)]
  bind p f s := (p s).flatMap fun r => f r.1 r.2

def get : ReadP Char
  | [] => []
  | c :: s => [(c, s)]

def eof : ReadP Unit
  | [] => [((), [])]
  | _ :: _ => []

def pfail : ReadP α := fun _ => []

def satisfy (p : Char → Bool) : ReadP Char := do
  let c ← get
  if p c then return c else pfail

def char (c : Char) : ReadP Char := satisfy (c == ·)

/-- The symmetric choice `+++`. -/
def choice (p q : ReadP α) : ReadP α := fun s => p s ++ q s

/-- `many`, with at most `n` repetitions. -/
def manyUpTo (p : ReadP α) : Nat → ReadP (List α)
  | 0 => return []
  | n + 1 => choice (return []) do
    let x ← p
    let xs ← manyUpTo p n
    return x :: xs

/-- `many`. A parser that consumes something is repeated at most once for each character. -/
def many (p : ReadP α) : ReadP (List α) := fun s => manyUpTo p s.length s

def many1 (p : ReadP α) : ReadP (List α) := do
  let x ← p
  let xs ← many p
  return x :: xs

def sepBy1 (p : ReadP α) (sep : ReadP β) : ReadP (List α) := do
  let x ← p
  let xs ← many do
    let _ ← sep
    p
  return x :: xs

variable {α β γ : Type} {p : ReadP α} {f : α → ReadP β} {s r : List Char}

@[simp] theorem mem_pure {a b : α} : (b, r) ∈ (pure a : ReadP α) s ↔ b = a ∧ r = s := by
  rw [← Prod.mk.injEq]
  exact List.mem_singleton

@[simp] theorem mem_bind {b : β} :
    (b, r) ∈ (p >>= f) s ↔ ∃ a s', (a, s') ∈ p s ∧ (b, r) ∈ f a s' := by
  constructor
  · intro h
    obtain ⟨⟨a, s'⟩, ha, hb⟩ := List.mem_flatMap.mp h
    exact ⟨a, s', ha, hb⟩
  · rintro ⟨a, s', ha, hb⟩
    exact List.mem_flatMap.mpr ⟨(a, s'), ha, hb⟩

theorem mem_choice {q : ReadP α} {a : α} :
    (a, r) ∈ choice p q s ↔ (a, r) ∈ p s ∨ (a, r) ∈ q s := List.mem_append

/-! ## What a parser reads -/

/-- The parser reads the values in `P`, each printed by `print`, with any rest. -/
def Reads (p : ReadP α) (print : α → List Char) (P : α → Prop) : Prop :=
  ∀ a s r, (a, r) ∈ p s ↔ P a ∧ s = print a ++ r

section
variable {print : α → List Char} {P : α → Prop}

theorem reads_get : Reads get (fun c => [c]) fun _ => True := by
  intro c s r
  cases s with
  | nil => simp [get]
  | cons b s => simp [get, eq_comm]

theorem reads_satisfy (p : Char → Bool) : Reads (satisfy p) (fun c => [c]) fun c => p c := by
  intro c s r
  rw [satisfy, mem_bind]
  simp only [reads_get _ _ _, true_and]
  constructor
  · rintro ⟨a, s', rfl, h⟩
    split at h
    · rename_i ha
      obtain ⟨rfl, rfl⟩ := mem_pure.mp h
      exact ⟨ha, rfl⟩
    · exact absurd h List.not_mem_nil
  · rintro ⟨hc, rfl⟩
    exact ⟨c, r, rfl, by rw [if_pos hc, mem_pure]; exact ⟨rfl, rfl⟩⟩

theorem reads_char (c : Char) : Reads (char c) (fun c => [c]) (· = c) := by
  intro a s r
  rw [char, reads_satisfy]
  exact and_congr_left' (beq_iff_eq.trans eq_comm)

/-- Reading one value and going on. -/
theorem Reads.mem_bind (hp : Reads p print P) {b : β} :
    (b, r) ∈ (p >>= f) s ↔ ∃ a s', P a ∧ s = print a ++ s' ∧ (b, r) ∈ f a s' := by
  simp only [ReadP.mem_bind, hp _ _ _, and_assoc]

theorem mem_char_bind {c : Char} {f : Char → ReadP β} {b : β} :
    (b, r) ∈ (char c >>= f) s ↔ ∃ s', s = c :: s' ∧ (b, r) ∈ f c s' := by
  rw [(reads_char c).mem_bind]
  constructor
  · rintro ⟨a, s', rfl, rfl, hb⟩
    exact ⟨s', rfl, hb⟩
  · rintro ⟨s', rfl, hb⟩
    exact ⟨c, s', rfl, rfl, hb⟩

theorem mem_get_bind {f : Char → ReadP β} {b : β} :
    (b, r) ∈ (get >>= f) s ↔ ∃ c s', s = c :: s' ∧ (b, r) ∈ f c s' := by
  simp only [reads_get.mem_bind, true_and, List.singleton_append]

theorem mem_eof_bind {f : Unit → ReadP β} {b : β} :
    (b, r) ∈ (eof >>= f) s ↔ s = [] ∧ (b, r) ∈ f () [] := by
  rw [mem_bind]
  constructor
  · rintro ⟨_, s', h, hb⟩
    cases s with
    | nil =>
      obtain ⟨rfl, rfl⟩ := Prod.mk.inj (List.mem_singleton.mp h)
      exact ⟨rfl, hb⟩
    | cons c s => exact absurd h List.not_mem_nil
  · rintro ⟨rfl, hb⟩
    exact ⟨(), [], List.mem_singleton_self _, hb⟩

theorem Reads.manyUpTo (hp : Reads p print P) {as : List α} :
    (as, r) ∈ manyUpTo p n s ↔ as.length ≤ n ∧ (∀ a ∈ as, P a) ∧ s = as.flatMap print ++ r := by
  induction n generalizing as s r with
  | zero =>
    rw [ReadP.manyUpTo, mem_pure]
    cases as <;> simp [eq_comm]
  | succ n ih =>
    simp only [ReadP.manyUpTo, mem_choice, mem_pure, hp.mem_bind, ReadP.mem_bind, ih]
    cases as with
    | nil => simp [eq_comm]
    | cons a as =>
      rw [List.forall_mem_cons, List.flatMap_cons, List.length_cons, Nat.add_le_add_iff_right]
      constructor
      · rintro (⟨h, -⟩ | ⟨a', s', ha, rfl, as', s'', ⟨hlen, has, rfl⟩, heq, rfl⟩)
        · cases h
        · obtain ⟨rfl, rfl⟩ := List.cons.inj heq
          exact ⟨hlen, ⟨ha, has⟩, (List.append_assoc _ _ _).symm⟩
      · rintro ⟨hlen, ⟨ha, has⟩, rfl⟩
        exact .inr ⟨a, as.flatMap print ++ r, ha, List.append_assoc _ _ _, as, r,
          ⟨hlen, has, rfl⟩, rfl, rfl⟩

/-- Repetition reads lists, of any length if every value has a character. -/
theorem Reads.many (hp : Reads p print P) (hprint : ∀ a, print a ≠ []) :
    Reads (many p) (List.flatMap print) fun as => ∀ a ∈ as, P a := by
  intro as s r
  rw [ReadP.many, hp.manyUpTo, and_iff_right_iff_imp]
  rintro ⟨-, rfl⟩
  induction as with
  | nil => exact Nat.zero_le _
  | cons a as ih =>
    have hlen := List.length_pos_iff.mpr (hprint a)
    rw [List.flatMap_cons, List.append_assoc, List.length_append, List.length_cons]
    omega

theorem Reads.many1 (hp : Reads p print P) (hprint : ∀ a, print a ≠ []) :
    Reads (many1 p) (List.flatMap print) fun as => as ≠ [] ∧ ∀ a ∈ as, P a := by
  intro as s r
  simp only [ReadP.many1, hp.mem_bind, (hp.many hprint).mem_bind, mem_pure]
  constructor
  · rintro ⟨a, s', ha, rfl, as', s'', has, rfl, rfl, rfl⟩
    exact ⟨⟨List.cons_ne_nil a as', List.forall_mem_cons.mpr ⟨ha, has⟩⟩, by simp⟩
  · rintro ⟨⟨hne, has⟩, rfl⟩
    obtain ⟨a, as, rfl⟩ := List.exists_cons_of_ne_nil hne
    rw [List.forall_mem_cons] at has
    exact ⟨a, as.flatMap print ++ r, has.1, by simp, as, r, has.2, rfl, rfl, rfl⟩

/-- A separated list is printed with `intercalate`. -/
theorem Reads.sepBy1 (hp : Reads p print P) (c : Char) :
    Reads (sepBy1 p (char c)) (fun as => [c].intercalate (as.map print))
      fun as => as ≠ [] ∧ ∀ a ∈ as, P a := by
  have hmany : Reads (ReadP.many do
      let _ ← char c
      p) (List.flatMap fun a => c :: print a) fun as => ∀ a ∈ as, P a := by
    refine Reads.many (fun a s r => ?_) fun a => List.cons_ne_nil c (print a)
    simp only [mem_char_bind, hp _ _ _]
    constructor
    · rintro ⟨s', rfl, ha, rfl⟩
      exact ⟨ha, rfl⟩
    · rintro ⟨ha, rfl⟩
      exact ⟨print a ++ r, rfl, ha, rfl⟩
  have hprint (a : α) (as : List α) : [c].intercalate ((a :: as).map print) =
      print a ++ as.flatMap fun a => c :: print a := by
    induction as generalizing a with
    | nil => simp
    | cons b as ih =>
      rw [List.map_cons, List.map_cons, List.intercalate_cons_cons, ← List.map_cons, ih]
      simp
  intro as s r
  simp only [ReadP.sepBy1, hp.mem_bind, hmany.mem_bind, mem_pure]
  constructor
  · rintro ⟨a, s', ha, rfl, as', s'', has, rfl, rfl, rfl⟩
    refine ⟨⟨List.cons_ne_nil a as', List.forall_mem_cons.mpr ⟨ha, has⟩⟩, ?_⟩
    rw [hprint, List.append_assoc]
  · rintro ⟨⟨hne, has⟩, rfl⟩
    obtain ⟨a, as, rfl⟩ := List.exists_cons_of_ne_nil hne
    rw [List.forall_mem_cons] at has
    rw [hprint, List.append_assoc]
    exact ⟨a, _, has.1, rfl, as, r, has.2, rfl, rfl, rfl⟩

end

theorem Reads.eq_nil {print : α → List Char} {P : α → Prop} (hp : Reads p print P)
    (hprint : ∀ a, print a ≠ []) : p [] = [] := by
  rw [List.eq_nil_iff_forall_not_mem]
  rintro ⟨a, r⟩ ha
  obtain ⟨-, hnil⟩ := (hp a [] r).mp ha
  exact hprint a (List.append_eq_nil_iff.mp hnil.symm).1

theorem satisfy_eq_nil {p : Char → Bool} (h : ∀ c ∈ s.head?, p c = false) : satisfy p s = [] := by
  rw [List.eq_nil_iff_forall_not_mem]
  rintro ⟨c, r⟩ ha
  obtain ⟨hc, rfl⟩ := (reads_satisfy p c s r).mp ha
  exact Bool.noConfusion (hc.symm.trans (h c rfl))

theorem char_ne_nil {c : Char} (h : char c s ≠ []) : ∃ s', s = c :: s' := by
  obtain ⟨⟨a, s'⟩, ha⟩ := List.exists_mem_of_ne_nil _ h
  obtain ⟨rfl, rfl⟩ := (reads_char c _ _ _).mp ha
  exact ⟨s', rfl⟩

/-! ## Ambiguity -/

/-- At most one parse is followed by a rest in `L`. -/
def Unambiguous (p : ReadP α) (L : List Char → Prop) : Prop :=
  ∀ s, (p s).Pairwise fun a b => ¬(L a.2 ∧ L b.2)

namespace Unambiguous

variable {L M : List Char → Prop}

theorem mono (hp : Unambiguous p L) (h : ∀ s, M s → L s) : Unambiguous p M :=
  fun s => (hp s).imp fun hab hM => hab ⟨h _ hM.1, h _ hM.2⟩

theorem pure (a : α) : Unambiguous (pure a) L := fun _ => List.pairwise_singleton ..

/-- The next parser decides between the parses of the first one. -/
theorem bind (hp : Unambiguous p M) (hf : ∀ a, Unambiguous (f a) L)
    (hM : ∀ a s, ∀ b ∈ f a s, L b.2 → M s) : Unambiguous (p >>= f) L := by
  intro s
  refine List.pairwise_flatMap.mpr ⟨fun a _ => hf a.1 a.2, (hp s).imp fun hab b hb b' hb' hL => ?_⟩
  exact hab ⟨hM _ _ b hb hL.1, hM _ _ b' hb' hL.2⟩

theorem bind_pure (hp : Unambiguous p L) (g : α → β) :
    Unambiguous (p >>= fun a => Pure.pure (g a)) L := by
  refine bind hp (fun a => pure (g a)) fun a s b hb hL => ?_
  obtain ⟨-, rfl⟩ := mem_pure.mp hb
  exact hL

theorem get : Unambiguous get L
  | [] => List.Pairwise.nil
  | _ :: _ => List.pairwise_singleton ..

theorem eof : Unambiguous eof L
  | [] => List.pairwise_singleton ..
  | _ :: _ => List.Pairwise.nil

theorem satisfy (p : Char → Bool) : Unambiguous (satisfy p) L := by
  refine bind (M := L) get (fun c s => ?_) fun c s b hb hL => ?_
  · split
    · exact List.pairwise_singleton ..
    · exact List.Pairwise.nil
  · split at hb
    · obtain ⟨-, rfl⟩ := mem_pure.mp hb
      exact hL
    · exact absurd hb List.not_mem_nil

/-- A character ends what is read before it. -/
theorem bind_char {c : Char} (hp : Unambiguous p fun s => ∃ s', s = c :: s')
    (hf : ∀ a, Unambiguous (f a) L) :
    Unambiguous (p >>= fun a => char c >>= fun _ => f a) L := by
  refine bind hp (fun a => ?_) fun a s b hb _ => ?_
  · exact bind (M := fun _ => True) (satisfy _) (fun _ => hf a) fun _ _ _ _ _ => trivial
  · obtain ⟨s', rfl, -⟩ := mem_char_bind.mp hb
    exact ⟨s', rfl⟩

/-- A repetition that is followed by `L` starts in `L` or with what is repeated. -/
theorem start_of_mem_manyUpTo {b : List α × List Char} (hb : b ∈ manyUpTo p n s) (hLb : L b.2) :
    L s ∨ p s ≠ [] := by
  cases n with
  | zero =>
    obtain rfl := List.mem_singleton.mp hb
    exact .inl hLb
  | succ n =>
    rcases List.mem_cons.mp hb with rfl | hb
    · exact .inl hLb
    · obtain ⟨a, ha, -⟩ := List.mem_flatMap.mp hb
      exact .inr (List.ne_nil_of_mem ha)

/-- A repetition is unambiguous if it cannot go on where it may stop. -/
theorem many (hp : Unambiguous p fun s => L s ∨ p s ≠ []) (hL : ∀ s, L s → p s = []) :
    Unambiguous (many p) L := by
  suffices h : ∀ n, Unambiguous (manyUpTo p n) L from fun s => h s.length s
  intro n
  induction n with
  | zero => exact pure []
  | succ n ih =>
    intro s
    refine List.pairwise_cons.mpr ⟨fun b hb hLb => ?_, ?_⟩
    · obtain ⟨a, ha, -⟩ := List.mem_flatMap.mp hb
      exact List.ne_nil_of_mem ha (hL s hLb.1)
    · refine bind hp (fun a => ih.bind_pure (a :: ·)) (fun a s b hb hLb => ?_) s
      obtain ⟨as, s', has, hb⟩ := mem_bind.mp hb
      obtain ⟨-, rfl⟩ := mem_pure.mp hb
      exact start_of_mem_manyUpTo has hLb

/-- The same with a parser in front. -/
theorem cons_many {q : ReadP α} (hp : Unambiguous p fun s => L s ∨ q s ≠ [])
    (hq : Unambiguous q fun s => L s ∨ q s ≠ []) (hL : ∀ s, L s → q s = []) :
    Unambiguous (do
      let x ← p
      let xs ← ReadP.many q
      return x :: xs) L := by
  refine bind hp (fun a => (many hq hL).bind_pure (a :: ·)) fun a s b hb hLb => ?_
  · obtain ⟨as, s', has, hb⟩ := mem_bind.mp hb
    obtain ⟨-, rfl⟩ := mem_pure.mp hb
    exact start_of_mem_manyUpTo has hLb

theorem many1 (hp : Unambiguous p fun s => L s ∨ p s ≠ []) (hL : ∀ s, L s → p s = []) :
    Unambiguous (many1 p) L := cons_many hp hp hL

theorem sepBy1 {sep : ReadP β} (hp : Unambiguous p fun s => L s ∨ sep s ≠ [])
    (hsep : Unambiguous sep fun _ => True) (hL : ∀ s, L s → sep s = []) :
    Unambiguous (sepBy1 p sep) L := by
  have hstart (s : List Char) (h : (sep >>= fun _ => p) s ≠ []) : sep s ≠ [] := by
    intro hnil
    exact h (congrArg (List.flatMap _) hnil)
  have hnext (s : List Char) (h : L s ∨ (sep >>= fun _ => p) s ≠ []) : L s ∨ sep s ≠ [] :=
    h.imp_right (hstart s)
  refine cons_many (hp.mono hnext) ?_ fun s hLs => ?_
  · exact (bind hsep (fun _ => hp) fun _ _ _ _ _ => trivial).mono hnext
  · exact Classical.byContradiction fun h => hstart s h (hL s hLs)

theorem length_le_one (hp : Unambiguous p fun _ => True) (s : List Char) : (p s).length ≤ 1 := by
  have h := hp s
  cases hs : p s with
  | nil => exact Nat.zero_le 1
  | cons a l =>
    cases l with
    | nil => exact Nat.le_refl 1
    | cons b l =>
      rw [hs, List.pairwise_cons] at h
      exact absurd ⟨trivial, trivial⟩ (h.1 b List.mem_cons_self)

end Unambiguous

end ReadP
