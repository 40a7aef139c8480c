import Mathlib.Data.Fintype.Pigeonhole
import Mathlib.Logic.Function.Iterate

/-! # While loops

`loop guard body` is a loop that is given a number of tests of its guard, and fails when it needs
more of them. Whether it ends at all is often decided by a small part `control s` of the state: a
function `next` says what a pass makes of it, and the loop ends if an iterate of `next` fails the
test. Where the part has finitely many values, the loop ends within as many passes or never. -/

/-- `while (guard s) s = body s`, as far as `fuel` tests of the guard. -/
def loop (guard : σ → Bool) (body : σ → Option σ) : Nat → σ → Option σ
  | 0, _ => none
  | fuel + 1, s => if guard s then (body s).bind (loop guard body fuel) else some s

/-- Enough fuel gives a result. -/
def Terminates (f : Nat → Option α) : Prop := ∃ fuel, (f fuel).isSome

theorem Terminates.map_iff {f : Nat → Option α} {g : α → β} :
    Terminates (fun fuel => (f fuel).map g) ↔ Terminates f := by
  simp only [Terminates, Option.isSome_map]

namespace loop

variable {σ : Type u} {τ : Type v} {guard : σ → Bool} {body : σ → Option σ} {s : σ} {x : τ}
  {fuel n : Nat}

theorem of_false (h : guard s = false) : loop guard body (fuel + 1) s = some s := by
  rw [loop, h]
  rfl

theorem of_true (h : guard s = true) :
    loop guard body (fuel + 1) s = (body s).bind (loop guard body fuel) := if_pos h

section
variable (control : σ → τ) (test : τ → Bool) (next : τ → τ)

/-- A loop that has ended has failed the test. -/
theorem exists_of_isSome (hguard : ∀ s, guard s = test (control s))
    (hbody : ∀ s s', body s = some s' → control s' = next (control s))
    (h : (loop guard body fuel s).isSome) : ∃ n, test (next^[n] (control s)) = false := by
  induction fuel generalizing s with
  | zero => contradiction
  | succ fuel ih =>
    cases hg : guard s with
    | false => exact ⟨0, (hguard s).symm.trans hg⟩
    | true =>
      rw [of_true hg] at h
      cases hs : body s with
      | none =>
        rw [hs] at h
        contradiction
      | some s' =>
        rw [hs] at h
        obtain ⟨n, hn⟩ := ih h
        rw [hbody s s' hs] at hn
        exact ⟨n + 1, hn⟩

/-- A loop ends when the test fails, if every pass before succeeds. -/
theorem isSome_of_test (hguard : ∀ s, guard s = test (control s))
    (hbody : ∀ s, guard s → ∃ s', body s = some s' ∧ control s' = next (control s))
    (h : test (next^[n] (control s)) = false) (hfuel : n < fuel) :
    (loop guard body fuel s).isSome := by
  induction fuel generalizing s n with
  | zero => contradiction
  | succ fuel ih =>
    cases hg : guard s with
    | false =>
      rw [of_false hg]
      rfl
    | true =>
      obtain ⟨s', hs, hcontrol⟩ := hbody s hg
      rw [of_true hg, hs]
      cases n with
      | zero => exact absurd ((hguard s).trans h) (by rw [hg]; exact Bool.noConfusion)
      | succ n => exact ih (by rwa [hcontrol]) (Nat.lt_of_succ_lt_succ hfuel)

/-- A loop whose passes all succeed. -/
theorem terminates_iff (hguard : ∀ s, guard s = test (control s))
    (hbody : ∀ s, ∃ s', body s = some s' ∧ control s' = next (control s)) :
    Terminates (loop guard body · s) ↔ ∃ n, test (next^[n] (control s)) = false := by
  refine ⟨fun ⟨_, h⟩ => exists_of_isSome control test next hguard (fun s s' hs => ?_) h,
    fun ⟨n, hn⟩ => ?_⟩
  · obtain ⟨t, ht, hcontrol⟩ := hbody s
    obtain rfl := Option.some.inj (ht.symm.trans hs)
    exact hcontrol
  · exact ⟨n + 1,
      isSome_of_test control test next hguard (fun s _ => hbody s) hn (Nat.lt_succ_self n)⟩

/-- Over finitely many values, told apart by `code`, the test fails within as many passes or
never. -/
theorem exists_test_iff {κ : Type w} [Fintype κ] {code : τ → κ} (hcode : code.Injective) :
    (∃ n, test (next^[n] x) = false) ↔ ∃ n < Fintype.card κ, test (next^[n] x) = false := by
  classical
  refine ⟨fun h => ⟨Nat.find h, ?_, Nat.find_spec h⟩, fun ⟨n, _, hn⟩ => ⟨n, hn⟩⟩
  by_contra hcard
  -- two of the passes up to the first failed test start from one value
  obtain ⟨i, j, hij, heq⟩ := Fintype.exists_ne_map_eq_of_card_lt
    (fun k : Fin (Nat.find h + 1) => code (next^[k] x)) (by rw [Fintype.card_fin]; omega)
  replace heq := hcode heq
  obtain ⟨i, j, hlt, hj, heq⟩ : ∃ i j, i < j ∧ j ≤ Nat.find h ∧ next^[i] x = next^[j] x := by
    rcases Nat.lt_or_gt_of_ne (Fin.val_ne_of_ne hij) with hlt | hlt
    · exact ⟨i, j, hlt, Nat.le_of_lt_succ j.isLt, heq⟩
    · exact ⟨j, i, hlt, Nat.le_of_lt_succ i.isLt, heq.symm⟩
  refine Nat.find_min h (m := Nat.find h - j + i) (by omega) ?_
  rw [Function.iterate_add_apply, heq, ← Function.iterate_add_apply, Nat.sub_add_cancel hj]
  exact Nat.find_spec h

end

/-- A loop whose passes succeed and make a measure smaller. -/
theorem isSome_of_measure (m : σ → Nat)
    (hbody : ∀ s, guard s → ∃ s', body s = some s' ∧ m s' < m s) (hfuel : m s < fuel) :
    (loop guard body fuel s).isSome := by
  induction fuel generalizing s with
  | zero => contradiction
  | succ fuel ih =>
    cases hg : guard s with
    | false =>
      rw [of_false hg]
      rfl
    | true =>
      obtain ⟨s', hs, hm⟩ := hbody s hg
      rw [of_true hg, hs]
      exact ih (Nat.lt_of_lt_of_le hm (Nat.le_of_lt_succ hfuel))

/-- A loop whose passes all succeed ends with the first iterate that fails the guard. -/
theorem exists_iff {f : σ → σ} {P : σ → Prop} :
    (∃ fuel s', loop guard (fun s => some (f s)) fuel s = some s' ∧ P s') ↔
      ∃ n, (∀ k < n, guard (f^[k] s) = true) ∧ guard (f^[n] s) = false ∧ P (f^[n] s) := by
  constructor
  · rintro ⟨fuel, s', h, hs'⟩
    induction fuel generalizing s with
    | zero => contradiction
    | succ fuel ih =>
      cases hg : guard s with
      | false =>
        rw [of_false hg] at h
        obtain rfl := Option.some.inj h
        exact ⟨0, fun _ hk => absurd hk (Nat.not_lt_zero _), hg, hs'⟩
      | true =>
        rw [of_true hg] at h
        obtain ⟨n, hbefore, hn⟩ := ih h
        refine ⟨n + 1, fun k hk => ?_, hn⟩
        cases k with
        | zero => exact hg
        | succ k => exact hbefore k (Nat.lt_of_succ_lt_succ hk)
  · rintro ⟨n, hbefore, hg, hs'⟩
    induction n generalizing s with
    | zero => exact ⟨1, s, of_false hg, hs'⟩
    | succ n ih =>
      obtain ⟨fuel, s', h, hP⟩ := ih (s := f s) (fun k hk => hbefore (k + 1) (Nat.succ_lt_succ hk))
        hg hs'
      have hfirst : guard s = true := hbefore 0 (Nat.succ_pos n)
      exact ⟨fuel + 1, s', by rwa [of_true hfirst], hP⟩

end loop
