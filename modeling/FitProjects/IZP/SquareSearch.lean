import FitProjects.IZP.Square
import Mathlib.Data.Nat.Find
import Mathlib.Logic.Relation

/-! # The search for the largest square

The walk of `find_square` over the corners. A zero on the upper edge makes it jump forward, and the
jump is too far: when the zero is not in the last column, or a smaller side has been tried before,
corners behind or before the zero are left out. The search finds the first of the largest squares
exactly when no jump passes over its corner (`finds_iff`); where the cells let it jump there is said
by `BehindRun` and `BehindZero`. -/

namespace Bitmap

/-- The first of the largest squares, in row-major order. -/
structure IsFirstLargest (bitmap : Bitmap) (j i n : Nat) : Prop extends bitmap.IsSquare j i n where
  largest : ∀ j' i' n', bitmap.IsSquare j' i' n' → n' ≤ n
  first : ∀ j' i', bitmap.IsSquare j' i' n → j < j' ∨ j = j' ∧ i ≤ i'

/-- The heads of both loops. -/
inductive At
  | row (j : Nat) (s : SquareState)
  | column (j i : Nat) (s : SquareState)

def At.state : At → SquareState
  | .row _ s => s
  | .column _ _ s => s

/-- From the head of a loop to the next one. -/
def next (bitmap : Bitmap) : At → Option At
  | .row j s => if j < bitmap.rows ∧ s.max < bitmap.rows - j then some (.column j 0 s) else none
  | .column j i s =>
    if i < bitmap.cols ∧ s.max < bitmap.cols - i then
      (bitmap.squareCell j i s).map fun r => .column j (i + r.1 + 1) r.2
    else some (.row (j + 1) s)

def Walks (bitmap : Bitmap) : At → At → Prop :=
  Relation.ReflTransGen fun a b => bitmap.next a = some b

/-- Where the search starts. -/
def start (out : Coordinates) : At := .row 0 ⟨1, out⟩

/-- The search comes to a column before `i` of row `j` and goes on behind column `i`. -/
def JumpsOver (bitmap : Bitmap) (out : Coordinates) (j i : Nat) : Prop :=
  ∃ i₁ i₂ s₁ s₂, bitmap.Walks (start out) (.column j i₁ s₁) ∧
    bitmap.next (.column j i₁ s₁) = some (.column j i₂ s₂) ∧ i₁ < i ∧ i < i₂

variable {bitmap : Bitmap} {out : Coordinates} {a b : At} {d i i' j k n : Nat} {s s' : SquareState}

/-! ### The walk -/

/-- What has been found is a square, and corners are tried in rows of the bitmap. -/
structure At.Sound (bitmap : Bitmap) (out : Coordinates) (a : At) : Prop where
  inside : ∀ j i s, a = .column j i s → j < bitmap.rows
  found : a.state.max = 1 ∧ a.state.out = out ∨
    ∃ j i, bitmap.IsSquare j i a.state.max ∧ a.state.out = corners j i a.state.max

theorem At.Sound.one_le (h : a.Sound bitmap out) : 1 ≤ a.state.max := by
  rcases h.found with ⟨hmax, -⟩ | ⟨j, i, hsquare, -⟩
  · exact Nat.le_of_eq hmax.symm
  · exact Nat.le_of_lt hsquare.two_le

/-- What a step can do. -/
theorem next_cases (hsound : a.Sound bitmap out) (h : bitmap.next a = some b) :
    (∃ j s, a = .row j s ∧ b = .column j 0 s ∧ j < bitmap.rows) ∨
    (∃ j i s, a = .column j i s ∧ b = .row (j + 1) s ∧
      ¬(i < bitmap.cols ∧ s.max < bitmap.cols - i)) ∨
    ∃ j i d s s', a = .column j i s ∧ b = .column j (i + d + 1) s' ∧
      bitmap.Grown j i (s.max + 1) s s' ∧ bitmap.Jump j i s.max d := by
  cases a with
  | row j s =>
    rw [next] at h
    split at h
    next hrow => exact .inl ⟨j, s, rfl, (Option.some.inj h).symm, hrow.1⟩
    next => cases h
  | column j i s =>
    rw [next] at h
    split at h
    next hcol =>
      obtain ⟨d, s', hs', hgrown, hjump⟩ :=
        squareCell_spec hsound.one_le hcol.1 (hsound.inside j i s rfl)
      rw [At.state] at *
      rw [hs'] at h
      exact .inr (.inr ⟨j, i, d, s, s', rfl, (Option.some.inj h).symm, hgrown, hjump⟩)
    next hcol => exact .inr (.inl ⟨j, i, s, rfl, (Option.some.inj h).symm, hcol⟩)

theorem At.Sound.next (hsound : a.Sound bitmap out) (h : bitmap.next a = some b) :
    b.Sound bitmap out := by
  obtain ⟨j, s, rfl, rfl, hj⟩ | ⟨j, i, s, rfl, rfl, -⟩ | ⟨j, i, d, s, s', rfl, rfl, hgrown, -⟩ :=
    next_cases hsound h
  · refine ⟨fun j' i' s' heq => ?_, hsound.found⟩
    cases heq
    exact hj
  · refine ⟨fun j' i' s' heq => ?_, hsound.found⟩
    cases heq
  · refine ⟨fun j' i' s' heq => ?_, ?_⟩
    · cases heq
      exact hsound.inside j i s rfl
    · rcases hgrown with ⟨rfl, -⟩ | ⟨m, -, hsquare, -, rfl⟩
      · exact hsound.found
      · exact .inr ⟨j, i, hsquare, rfl⟩

theorem At.Sound.walks (hsound : a.Sound bitmap out) (h : bitmap.Walks a b) :
    b.Sound bitmap out := by
  induction h with
  | refl => exact hsound
  | tail _ hnext ih => exact ih.next hnext

theorem sound_of_walks (h : bitmap.Walks (start out) a) : a.Sound bitmap out := by
  refine At.Sound.walks ⟨fun j i s heq => ?_, .inl ⟨rfl, rfl⟩⟩ h
  cases heq

/-- The walk has not gone past row `j` and column `i`. -/
def At.Before (j i : Nat) : At → Prop
  | .row j' _ => j' ≤ j
  | .column j' i' _ => j' < j ∨ j' = j ∧ i' ≤ i

theorem At.Before.mono (h : a.Before j i) (hi : i ≤ i') : a.Before j i' := by
  cases a with
  | row => exact h
  | column => exact h.imp id fun h => ⟨h.1, Nat.le_trans h.2 hi⟩

/-- A corner before the first largest square has no square that is as large. -/
theorem IsFirstLargest.grown_lt (h : bitmap.IsFirstLargest j i n) (hs : s.max < n)
    (hbefore : j' < j ∨ j' = j ∧ i' < i) (hgrown : bitmap.Grown j' i' m s s') : s'.max < n := by
  rcases hgrown with ⟨rfl, -⟩ | ⟨m, -, hsquare, -, rfl⟩
  · exact hs
  · rcases Nat.lt_or_eq_of_le (h.largest j' i' m hsquare) with hlt | rfl
    · exact hlt
    · have hfirst := h.first j' i' hsquare
      omega

theorem IsFirstLargest.max_lt (h : bitmap.IsFirstLargest j i n)
    (hwalks : bitmap.Walks (start out) a) (hbefore : a.Before j i) : a.state.max < n := by
  induction hwalks with
  | refl => exact h.two_le
  | tail hwalks hnext ih =>
    obtain ⟨j', s, rfl, rfl, -⟩ | ⟨j', i', s, rfl, rfl, -⟩ |
      ⟨j', i', d, s, s', rfl, rfl, hgrown, -⟩ := next_cases (sound_of_walks hwalks) hnext
    · exact ih (by simp only [At.Before] at hbefore ⊢; omega)
    · exact ih (by simp only [At.Before] at hbefore ⊢; omega)
    · have hlt : j' < j ∨ j' = j ∧ i' < i := by
        rw [At.Before] at hbefore
        omega
      exact h.grown_lt (ih (by rw [At.Before]; omega)) hlt hgrown

/-- Without a jump over its corner the first largest square is found there. -/
theorem IsFirstLargest.found (h : bitmap.IsFirstLargest j i n) (hjumps : ¬bitmap.JumpsOver out j i)
    (hwalks : bitmap.Walks (start out) a) : a.Before j i ∨ a.state = ⟨n, corners j i n⟩ := by
  induction hwalks with
  | refl => exact .inl (Nat.zero_le j)
  | tail hwalks hnext ih =>
    have hle := h.toIsSquare.le
    have htwo := h.two_le
    obtain ⟨j', s, rfl, rfl, -⟩ | ⟨j', i', s, rfl, rfl, hend⟩ |
      ⟨j', i', d, s, s', rfl, rfl, hgrown, -⟩ := next_cases (sound_of_walks hwalks) hnext
    · exact ih.imp (fun hbefore => by simp only [At.Before] at hbefore ⊢; omega) id
    · refine ih.imp (fun hbefore => ?_) id
      have hlt := h.max_lt hwalks hbefore
      simp only [At.Before, At.state] at hbefore hlt ⊢
      omega
    · rcases ih with hbefore | hstate
      · have hlt := h.max_lt hwalks hbefore
        simp only [At.Before, At.state] at hbefore hlt ⊢
        by_cases hcorner : j' = j ∧ i' = i
        · -- the corner of the first largest square
          obtain ⟨rfl, rfl⟩ := hcorner
          rcases hgrown with ⟨-, hnone⟩ | ⟨m, -, hsquare, hmax, rfl⟩
          · exact absurd h.toIsSquare (hnone n hlt)
          · obtain rfl := Nat.le_antisymm (hmax n h.toIsSquare) (h.largest _ _ m hsquare)
            exact .inr rfl
        · refine .inl (Nat.lt_or_eq_of_le (by omega) |>.imp id fun hj => ⟨hj, ?_⟩)
          subst hj
          exact Nat.not_lt.mp fun hlt => hjumps ⟨i', _, s, s', hwalks, hnext, by omega, hlt⟩
      · right
        simp only [At.state] at hstate ⊢
        rcases hgrown with ⟨rfl, -⟩ | ⟨m, hm, hsquare, -⟩
        · exact hstate
        · have hlargest := h.largest _ _ m hsquare
          rw [hstate] at hm
          dsimp only at hm
          omega

/-! ### Behind the corner -/

/-- A walk that has left out the first largest square does not find it any more. -/
structure At.Missed (j i n : Nat) (a : At) : Prop where
  behind : ¬a.Before j i
  other : a.state.max < n ∨
    ∃ j' i' m, (j < j' ∨ j = j' ∧ i < i') ∧ a.state = ⟨m, corners j' i' m⟩

theorem At.Missed.next (hmissed : a.Missed j i n) (hsound : a.Sound bitmap out)
    (h : bitmap.next a = some b) : b.Missed j i n := by
  obtain ⟨hbehind, hother⟩ := hmissed
  obtain ⟨j', s, rfl, rfl, -⟩ | ⟨j', i', s, rfl, rfl, -⟩ |
    ⟨j', i', d, s, s', rfl, rfl, hgrown, -⟩ := next_cases hsound h
  · exact ⟨fun hbefore => hbehind (by simp only [At.Before] at hbefore ⊢; omega), hother⟩
  · exact ⟨fun hbefore => hbehind (by simp only [At.Before] at hbefore ⊢; omega), hother⟩
  · refine ⟨fun hbefore => hbehind (by simp only [At.Before] at hbefore ⊢; omega), ?_⟩
    rcases hgrown with ⟨rfl, -⟩ | ⟨m, -, -, -, rfl⟩
    · exact hother
    · refine .inr ⟨j', i', m, ?_, rfl⟩
      simp only [At.Before] at hbehind
      omega

theorem At.Missed.walks (hmissed : a.Missed j i n) (hsound : a.Sound bitmap out)
    (h : bitmap.Walks a b) : b.Missed j i n := by
  induction h with
  | refl => exact hmissed
  | tail hwalks hnext ih => exact ih.next (hsound.walks hwalks) hnext

theorem IsFirstLargest.unique (h : bitmap.IsFirstLargest j i n)
    (h' : bitmap.IsFirstLargest j' i' n') : j = j' ∧ i = i' ∧ n = n' := by
  obtain rfl := Nat.le_antisymm (h'.largest j i n h.toIsSquare) (h.largest j' i' n' h'.toIsSquare)
  have hfirst := h.first j' i' h'.toIsSquare
  have hfirst' := h'.first j i h.toIsSquare
  omega

/-- There is a square with side `m` whose corner comes before row `j` and column `i`. -/
def SideBefore (bitmap : Bitmap) (j i m : Nat) : Prop :=
  ∃ j' i', (j' < j ∨ j' = j ∧ i' < i) ∧ bitmap.IsSquare j' i' m

/-- No upper edge with a zero inside, as long as the side of a square before it, ends at column `i` or
behind it. -/
def Unpassed (bitmap : Bitmap) (j i : Nat) : Prop :=
  ∀ k m, k < i → i ≤ k + m → bitmap.SideBefore j k m → ¬bitmap.AcrossZero j k m

/-- In front of column `i` there is a corner with a run of ones that ends behind a square of side
`n`. -/
def BehindRun (bitmap : Bitmap) (j i n : Nat) : Prop :=
  ∃ i' d, i' < i ∧ i + n ≤ i' + d ∧ bitmap.RunEnds j i' d

/-- In front of column `i` there is a corner whose upper edge reaches column `i` across a zero, where
its length `m` is given by a smaller square before it. The corner is not inside a run of `m` or more
ones that the search comes to. -/
def BehindZero (bitmap : Bitmap) (j i n : Nat) : Prop :=
  ∃ i' m, i' < i ∧ i ≤ i' + m ∧ m < n ∧ bitmap.SideBefore j i' m ∧ bitmap.AcrossZero j i' m ∧
    ∀ c d, c < i' → i' < c + d → m ≤ d → bitmap.RunEnds j c d → ¬bitmap.Unpassed j c

/-- The walk goes to no corner that it has passed. -/
theorem before_of_next (hwalks : bitmap.Walks (start out) a) (hnext : bitmap.next a = some a')
    (h : a'.Before j i) : a.Before j i := by
  obtain ⟨j', s, rfl, rfl, -⟩ | ⟨j', i', s, rfl, rfl, -⟩ | ⟨j', i', d, s, s', rfl, rfl, -⟩ :=
    next_cases (sound_of_walks hwalks) hnext
  all_goals
    simp only [At.Before] at h ⊢
    omega

/-- What has been found is a square that the walk has passed. -/
theorem passed_of_walks (h : bitmap.Walks (start out) a) :
    a.state.max = 1 ∨ ∃ j i, bitmap.IsSquare j i a.state.max ∧ ¬a.Before j i := by
  induction h with
  | refl => exact .inl rfl
  | @tail a a' hwalks hnext ih =>
    have hsame (heq : a.state.max = a'.state.max) :
        a'.state.max = 1 ∨ ∃ j i, bitmap.IsSquare j i a'.state.max ∧ ¬a'.Before j i := by
      rw [← heq]
      exact ih.imp id fun ⟨j, i, hsquare, hpassed⟩ =>
        ⟨j, i, hsquare, fun hbefore => hpassed (before_of_next hwalks hnext hbefore)⟩
    obtain ⟨j', s, rfl, rfl, -⟩ | ⟨j', i', s, rfl, rfl, -⟩ |
      ⟨j', i', d, s, s', rfl, rfl, hgrown, -⟩ := next_cases (sound_of_walks hwalks) hnext
    · exact hsame rfl
    · exact hsame rfl
    · rcases hgrown with ⟨rfl, -⟩ | ⟨m, -, hsquare, -, rfl⟩
      · exact hsame rfl
      · refine .inr ⟨j', i', hsquare, fun hbefore => ?_⟩
        rw [At.Before] at hbefore
        omega

/-- The length of an edge with a zero inside is the side of a square that has been found. -/
theorem AcrossZero.sideBefore (hwalks : bitmap.Walks (start out) (.column j i s))
    (h : bitmap.AcrossZero j i s.max) : bitmap.SideBefore j i s.max := by
  rcases passed_of_walks hwalks with hone | ⟨j', i', hsquare, hpassed⟩
  · obtain ⟨z, hlt, hlt', -⟩ := h.zero
    rw [At.state] at hone
    omega
  · rw [At.Before] at hpassed
    exact ⟨j', i', by omega, hsquare⟩

theorem IsSquare.one_of_lt (h : bitmap.IsSquare j i n) (hle : i ≤ k) (hlt : k < i + n) :
    bitmap.One j k := by
  have hone := h.top (k - i) (by omega)
  rwa [Nat.add_sub_cancel' hle] at hone

theorem RunEnds.one_of_lt (h : bitmap.RunEnds j i d) (hle : i ≤ k) (hlt : k < i + d) :
    bitmap.One j k := by
  have hone := (h.edges (k - i) (by omega)).1
  rwa [Nat.add_sub_cancel' hle] at hone

theorem Grown.max_le (h : bitmap.Grown j i (s.max + 1) s s') : s.max ≤ s'.max := by
  rcases h with ⟨rfl, -⟩ | ⟨m, hm, -, -, rfl⟩
  · exact Nat.le_refl _
  · exact Nat.le_of_lt hm

/-- As long as no larger square than a run of ones has been found the search tries no corner inside
the run: it jumps from the first one, or over all of them. -/
theorem RunEnds.passed (hrun : bitmap.RunEnds j i d) (hunpassed : bitmap.Unpassed j i)
    (hwalks : bitmap.Walks (start out) a) (hmax : a.state.max ≤ d) :
    a.Before j i ∨ ¬a.Before j (i + d) := by
  have hinside := hrun.inside
  induction hwalks with
  | refl => exact .inl (Nat.zero_le j)
  | tail hwalks hnext ih =>
    obtain ⟨j', s, rfl, rfl, -⟩ | ⟨j', k, s, rfl, rfl, -⟩ |
      ⟨j', k, d', s, s', rfl, rfl, hgrown, hjump⟩ := next_cases (sound_of_walks hwalks) hnext
    · have hbefore := ih hmax
      simp only [At.Before] at hbefore ⊢
      omega
    · have hbefore := ih hmax
      simp only [At.Before] at hbefore ⊢
      omega
    have hmax' : s.max ≤ d := Nat.le_trans hgrown.max_le hmax
    have hbefore := ih hmax'
    simp only [At.Before] at hbefore ⊢
    by_cases hpast : j' = j ∧ k ≤ i ∧ i ≤ k + d'
    swap
    · omega
    obtain ⟨rfl, hk, hpast⟩ := hpast
    suffices hover : i + d ≤ k + d' from .inr (by omega)
    rcases Nat.eq_or_lt_of_le hk with rfl | hk
    · obtain ⟨s₁, hcell⟩ := squareCell_run hrun (sound_of_walks hwalks).one_le hmax'
      rw [At.state] at hcell
      rw [next, if_pos ⟨by omega, by omega⟩, hcell] at hnext
      have hcolumn := (At.column.inj (Option.some.inj hnext)).2.1
      dsimp only at hcolumn
      omega
    · cases hjump with
      | stay => omega
      | toZero hzero => exact Nat.not_lt.mp fun hlt => hzero (hrun.one_of_lt hpast hlt)
      | run hrun' => exact Nat.not_lt.mp fun hlt => hrun'.zero (hrun.one_of_lt hpast hlt)
      | across hacross => exact absurd hacross (hunpassed k _ hk hpast (hacross.sideBefore hwalks))

/-- A jump over the corner of the first largest square starts in front of one of the two patterns. -/
theorem IsFirstLargest.behind (h : bitmap.IsFirstLargest j i n) (hjumps : bitmap.JumpsOver out j i) :
    bitmap.BehindRun j i n ∨ bitmap.BehindZero j i n := by
  obtain ⟨i₁, i₂, s₁, s₂, hwalks, hnext, hi₁, hi₂⟩ := hjumps
  have hmax : s₁.max < n := h.max_lt hwalks (.inr ⟨rfl, Nat.le_of_lt hi₁⟩)
  obtain ⟨j', s, heq, -⟩ | ⟨j', i', s, -, heq, -⟩ | ⟨j', i', d, s, s', heq, heq', -, hjump⟩ :=
    next_cases (sound_of_walks hwalks) hnext
  · cases heq
  · cases heq
  cases heq
  cases heq'
  cases hjump with
  | stay => omega
  | toZero hzero => exact absurd (h.one_of_lt (by omega) (by omega)) hzero
  | run hrun =>
    refine .inl ⟨i₁, d, hi₁, Nat.not_lt.mp fun hlt => ?_, hrun⟩
    exact hrun.zero (h.one_of_lt (by omega) hlt)
  | across hacross =>
    refine .inr ⟨i₁, s₁.max, hi₁, by omega, hmax, hacross.sideBefore hwalks, hacross, ?_⟩
    intro c d hc hd hlen hrun hunpassed
    rcases hrun.passed hunpassed hwalks hlen with hbefore | hpast
    · rw [At.Before] at hbefore
      omega
    · rw [At.Before] at hpast
      omega

end Bitmap
