import Mathlib.Order.Basic

/-! # The best of the longest runs

Places are `(line, position)`, and lines are scanned one after the other. `Tail` counts the places
that meet `one` directly before the next one; `Best` is the best of the longest segments that have
been seen, as an order `before` of their lines and starts decides between equally long ones. -/

/-- A loop whose every pass keeps the invariant does not fail and keeps it. -/
theorem List.foldlM_range_some {σ : Type u} {P : Nat → σ → Prop} {f : σ → Nat → Option σ}
    {n : Nat} {s : σ} (h0 : P 0 s)
    (hstep : ∀ j < n, ∀ s, P j s → ∃ s', f s j = some s' ∧ P (j + 1) s') :
    ∃ s', (List.range n).foldlM f s = some s' ∧ P n s' := by
  induction n with
  | zero => exact ⟨s, rfl, h0⟩
  | succ n ih =>
    obtain ⟨s', hs', hP⟩ := ih fun j hj => hstep j (Nat.lt_succ_of_lt hj)
    obtain ⟨t, ht, hPt⟩ := hstep n (Nat.lt_succ_self n) s' hP
    refine ⟨t, ?_, hPt⟩
    rw [List.range_succ, List.foldlM_append, hs']
    simp [ht]

@[ext] structure Segment where
  line : Nat
  start : Nat
  stop : Nat

namespace Segment

/-- All places of the segment meet `one`. -/
structure In (one : Nat → Nat → Prop) (s : Segment) : Prop where
  le : s.start ≤ s.stop
  all : ∀ p, s.start ≤ p → p ≤ s.stop → one s.line p

/-- A segment that cannot be made longer. -/
structure IsRun (one : Nat → Nat → Prop) (s : Segment) : Prop extends In one s where
  left : ∀ p, p + 1 = s.start → ¬one s.line p
  right : ¬one s.line (s.stop + 1)

/-- The segment ends before position `j` of line `i`. -/
def Seen (i j : Nat) (s : Segment) : Prop := s.line < i ∨ s.line = i ∧ s.stop < j

def length (s : Segment) : Nat := s.stop - s.start + 1

end Segment

/-- `n` places directly before position `j` of line `i` meet `one`, and not one more. -/
structure Tail (one : Nat → Nat → Prop) (i j n : Nat) : Prop where
  le : n ≤ j
  all : ∀ p, j ≤ p + n → p < j → one i p
  maximal : ∀ p, p + n + 1 = j → ¬one i p

/-- The best segment seen so far, which has `max + 1` places, if there is one with two places. -/
structure Best (one : Nat → Nat → Prop) (before : Segment → Segment → Prop) (i j max : Nat)
    (best : Segment) : Prop where
  isIn : 0 < max → best.In one ∧ best.Seen i j ∧ best.stop = best.start + max
  le : ∀ s : Segment, s.In one → s.Seen i j → s.stop ≤ s.start + max
  first : 0 < max → ∀ s : Segment, s.In one → s.Seen i j → s.stop = s.start + max → before best s

variable {one : Nat → Nat → Prop} {before : Segment → Segment → Prop} {i j n max len : Nat}
  {best s : Segment}

/-! ### The run that is being read -/

theorem Tail.start (one : Nat → Nat → Prop) (i : Nat) : Tail one i 0 0 where
  le := Nat.le_refl 0
  all := fun _ _ h => absurd h (Nat.not_lt_zero _)
  maximal := fun _ h => absurd h (Nat.succ_ne_zero _)

theorem Tail.zero (h : ¬one i j) : Tail one i (j + 1) 0 where
  le := Nat.zero_le _
  all := fun _ hle hlt => by omega
  maximal := fun p hp => by
    obtain rfl : p = j := by omega
    exact h

theorem Tail.succ (h : Tail one i j n) (hone : one i j) : Tail one i (j + 1) (n + 1) where
  le := Nat.succ_le_succ h.le
  all := fun p hle hlt => by
    rcases Nat.eq_or_lt_of_le (Nat.le_of_lt_succ hlt) with rfl | hlt
    · exact hone
    · exact h.all p (by omega) hlt
  maximal := fun p hp => h.maximal p (by omega)

/-- The run that is being read, with the next place. -/
theorem Tail.isIn (h : Tail one i j n) (hone : one i j) : Segment.In one ⟨i, j - n, j⟩ where
  le := Nat.sub_le j n
  all := fun p hle hlt => by
    dsimp only at hle hlt
    rcases Nat.eq_or_lt_of_le hlt with rfl | hlt
    · exact hone
    · exact h.all p (by omega) hlt

/-- No segment that ends at the next place is longer than the run that is being read. -/
theorem Tail.start_le (h : Tail one i j n) (hs : s.In one) (hline : s.line = i)
    (hstop : s.stop = j) : j - n ≤ s.start := by
  refine Nat.not_lt.mp fun hlt => ?_
  have hle := h.le
  have hone := hs.all (j - n - 1) (by omega) (by omega)
  rw [hline] at hone
  exact h.maximal (j - n - 1) (by omega) hone

/-! ### The best segment -/

/-- What a place adds to the segments that have been seen. -/
theorem Segment.Seen.succ (h : s.Seen i (j + 1)) : s.Seen i j ∨ s.line = i ∧ s.stop = j := by
  rcases h with h | ⟨hline, hstop⟩
  · exact .inl (.inl h)
  · rcases Nat.eq_or_lt_of_le (Nat.le_of_lt_succ hstop) with hstop | hstop
    · exact .inr ⟨hline, hstop⟩
    · exact .inl (.inr ⟨hline, hstop⟩)

theorem Segment.Seen.mono (h : s.Seen i j) : s.Seen i (j + 1) := by
  rcases h with h | ⟨hline, hstop⟩
  · exact .inl h
  · exact .inr ⟨hline, Nat.lt_succ_of_lt hstop⟩

theorem Best.start (one : Nat → Nat → Prop) (before : Segment → Segment → Prop) (best : Segment) :
    Best one before 0 0 0 best where
  isIn := fun h => absurd h (Nat.lt_irrefl 0)
  le := fun s _ h => by
    rcases h with h | ⟨-, h⟩
    · exact absurd h (Nat.not_lt_zero _)
    · exact absurd h (Nat.not_lt_zero _)
  first := fun h => absurd h (Nat.lt_irrefl 0)

/-- The end of a line. -/
theorem Best.next (h : Best one before i len max best) (hlen : ∀ i p, one i p → p < len) :
    Best one before (i + 1) 0 max best := by
  have hseen : ∀ s : Segment, s.In one → s.Seen (i + 1) 0 → s.Seen i len := by
    intro s hs hseen
    rcases hseen with hlt | ⟨-, hlt⟩
    · rcases Nat.eq_or_lt_of_le (Nat.le_of_lt_succ hlt) with hline | hline
      · exact .inr ⟨hline, hlen _ _ (hs.all s.stop hs.le (Nat.le_refl _))⟩
      · exact .inl hline
    · exact absurd hlt (Nat.not_lt_zero _)
  refine ⟨fun hmax => ?_, fun s hs hs' => h.le s hs (hseen s hs hs'),
    fun hmax s hs hs' => h.first hmax s hs (hseen s hs hs')⟩
  obtain ⟨hin, hs, hstop⟩ := h.isIn hmax
  refine ⟨hin, .inl ?_, hstop⟩
  rcases hs with hline | ⟨hline, -⟩
  · exact Nat.lt_succ_of_lt hline
  · exact Nat.lt_succ_of_le (Nat.le_of_eq hline)

/-- A place that ends no segment. -/
theorem Best.skip (h : Best one before i j max best) (hone : ¬one i j) :
    Best one before i (j + 1) max best := by
  have hseen : ∀ s : Segment, s.In one → s.Seen i (j + 1) → s.Seen i j := by
    intro s hs hseen
    rcases hseen.succ with hseen | ⟨hline, hstop⟩
    · exact hseen
    · exact absurd (hline ▸ hstop ▸ hs.all s.stop hs.le (Nat.le_refl _)) hone
  refine ⟨fun hmax => ?_, fun s hs hs' => h.le s hs (hseen s hs hs'),
    fun hmax s hs hs' => h.first hmax s hs (hseen s hs hs')⟩
  obtain ⟨hin, hs, hstop⟩ := h.isIn hmax
  exact ⟨hin, hs.mono, hstop⟩

/-- The run that is being read is longer than all segments before. -/
theorem Best.longer (hrefl : ∀ s, before s s) (h : Best one before i j max best)
    (htail : Tail one i j n) (hone : one i j) (hmax : max < n) :
    Best one before i (j + 1) n ⟨i, j - n, j⟩ := by
  have hle := htail.le
  refine ⟨fun _ => ⟨htail.isIn hone, .inr ⟨rfl, Nat.lt_succ_self j⟩, ?_⟩, fun s hs hseen => ?_,
    fun _ s hs hseen hlength => ?_⟩
  · dsimp only
    omega
  · rcases hseen.succ with hseen | ⟨hline, hstop⟩
    · have hs' := h.le s hs hseen
      omega
    · have hs' := htail.start_le hs hline hstop
      omega
  · rcases hseen.succ with hseen | ⟨hline, hstop⟩
    · have hs' := h.le s hs hseen
      omega
    · obtain rfl : s = ⟨i, j - n, j⟩ :=
        Segment.ext hline (show s.start = j - n by omega) hstop
      exact hrefl _

/-- The run that is being read is not better. -/
theorem Best.keep (h : Best one before i j max best) (htail : Tail one i j n) (hmax : n ≤ max)
    (htie : n = max → 0 < max → before best ⟨i, j - n, j⟩) :
    Best one before i (j + 1) max best := by
  have hle := htail.le
  refine ⟨fun hpos => ?_, fun s hs hseen => ?_, fun hpos s hs hseen hlength => ?_⟩
  · obtain ⟨hin, hs, hstop⟩ := h.isIn hpos
    exact ⟨hin, hs.mono, hstop⟩
  · rcases hseen.succ with hseen | ⟨hline, hstop⟩
    · exact h.le s hs hseen
    · have hs' := htail.start_le hs hline hstop
      omega
  · rcases hseen.succ with hseen | ⟨hline, hstop⟩
    · exact h.first hpos s hs hseen hlength
    · have hs' := htail.start_le hs hline hstop
      obtain rfl : s = ⟨i, j - n, j⟩ :=
        Segment.ext hline (show s.start = j - n by omega) hstop
      exact htie (by dsimp only at hlength; omega) hpos

/-- The run that is being read is as long as the best segment, and better. -/
theorem Best.replace (hrefl : ∀ s, before s s)
    (htrans : ∀ {s t u}, before s t → before t u → before s u)
    (h : Best one before i j max best) (htail : Tail one i j max) (hone : one i j)
    (hbefore : before ⟨i, j - max, j⟩ best) : Best one before i (j + 1) max ⟨i, j - max, j⟩ := by
  have hle := htail.le
  refine ⟨fun _ => ⟨htail.isIn hone, .inr ⟨rfl, Nat.lt_succ_self j⟩, ?_⟩, fun s hs hseen => ?_,
    fun hpos s hs hseen hlength => ?_⟩
  · dsimp only
    omega
  · rcases hseen.succ with hseen | ⟨hline, hstop⟩
    · exact h.le s hs hseen
    · have hs' := htail.start_le hs hline hstop
      omega
  · rcases hseen.succ with hseen | ⟨hline, hstop⟩
    · exact htrans hbefore (h.first hpos s hs hseen hlength)
    · have hs' := htail.start_le hs hline hstop
      obtain rfl : s = ⟨i, j - max, j⟩ :=
        Segment.ext hline (show s.start = j - max by omega) hstop
      exact hrefl _

/-! ### When all has been seen -/

/-- The best segment is a run. -/
theorem Best.isRun (h : Best one before i 0 max best) (hlines : ∀ k p, one k p → k < i)
    (hmax : 0 < max) : best.IsRun one := by
  obtain ⟨hin, -, hstop⟩ := h.isIn hmax
  have hle : ∀ s : Segment, s.In one → s.stop ≤ s.start + max := fun s hs =>
    h.le s hs (.inl (hlines _ _ (hs.all s.start (Nat.le_refl _) hs.le)))
  refine { hin with
    left := fun p hp hone => ?_
    right := fun hone => ?_ }
  · have hlonger := hle ⟨best.line, p, best.stop⟩ ⟨by dsimp only; omega, fun q hpq hq => ?_⟩
    · dsimp only at hlonger
      omega
    · dsimp only at hpq hq ⊢
      rcases Nat.eq_or_lt_of_le hpq with rfl | hlt
      · exact hone
      · exact hin.all q (by omega) hq
  · have hlonger := hle ⟨best.line, best.start, best.stop + 1⟩
      ⟨by dsimp only; omega, fun q hpq hq => ?_⟩
    · dsimp only at hlonger
      omega
    · dsimp only at hpq hq ⊢
      rcases Nat.eq_or_lt_of_le hq with rfl | hlt
      · exact hone
      · exact hin.all q hpq (by omega)

/-- The first among the longest runs, which have two places or more. -/
structure Segment.IsLongest (one : Nat → Nat → Prop) (before : Segment → Segment → Prop)
    (s : Segment) : Prop extends s.IsRun one where
  two_le : 2 ≤ s.length
  length_le : ∀ t : Segment, t.IsRun one → t.length ≤ s.length
  first : ∀ t : Segment, t.IsRun one → t.length = s.length → before s t

theorem Best.isLongest (h : Best one before i 0 max best) (hlines : ∀ k p, one k p → k < i)
    (hmax : 0 < max) : best.IsLongest one before := by
  obtain ⟨-, -, hstop⟩ := h.isIn hmax
  have hseen : ∀ s : Segment, s.In one → s.Seen i 0 := fun s hs =>
    .inl (hlines _ _ (hs.all s.start (Nat.le_refl _) hs.le))
  refine { h.isRun hlines hmax with
    two_le := ?_
    length_le := fun t ht => ?_
    first := fun t ht hlength => h.first hmax t ht.toIn (hseen t ht.toIn) ?_ }
  · rw [Segment.length]
    omega
  · have hle := h.le t ht.toIn (hseen t ht.toIn)
    rw [Segment.length, Segment.length]
    omega
  · have hle := ht.le
    rw [Segment.length, Segment.length] at hlength
    omega

theorem Best.length_lt_two (h : Best one before i 0 0 best) (hlines : ∀ k p, one k p → k < i)
    (hs : s.IsRun one) : s.length < 2 := by
  have hle := h.le s hs.toIn (.inl (hlines _ _ (hs.all s.start (Nat.le_refl _) hs.le)))
  rw [Segment.length]
  omega
