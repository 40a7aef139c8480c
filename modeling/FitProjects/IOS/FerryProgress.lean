import FitProjects.IOS.FerryLog
import Mathlib.Algebra.BigOperators.Ring.Finset
import Mathlib.Algebra.Group.Action.Defs
import Mathlib.Algebra.Group.Even
import Mathlib.Data.Fintype.BigOperators

/-! # The ferry never gets stuck

If nobody can take a step then everybody has left, provided that the number of persons of each kind
is even: the persons left on the pier at the end are even in number, too, and form a group. -/

namespace RiverCrossing.Ferry

variable {p : Nat} {g : Group} {a : Ferry p} {i : Pid p}

/-- A person waits for a token that is not there, or has left. -/
def Blocked (a : Ferry p) (i : Pid p) : Prop :=
  match (a.person i).stage with
  | .queueing => a.molo = 0
  | .onPier => a.boat i.1 = 0
  | .boarded => a.boarding = 0
  | .named => a.landing = 0
  | .sailing 0 => a.captain = 0
  | .counted => a.finish = 0
  | .left => True
  | _ => False

section
variable (ha : a.Counts) (hb : ∀ i, a.Blocked i)
include hb

/-- A weight that only persons with something to do have is nowhere. -/
theorem total_of_blocked (w : Kind → Person → Nat)
    (hw : ∀ i, a.Blocked i → w i.1 (a.person i) = 0) : a.total w = 0 :=
  census_zero fun i => hw i (hb i)

theorem muster_of_blocked :
    a.muster.entering = 0 ∧ (∀ K, a.muster.arrived K = 0) ∧ (∀ K, a.muster.aboard K = 0) ∧
      a.muster.called = 0 ∧ a.muster.disembarking = 0 := by
  refine ⟨?_, fun K => ?_, fun K => ?_, ?_, ?_⟩ <;> refine total_of_blocked hb _ fun i hi => ?_ <;>
    unfold Blocked at hi <;> simp only [here, hereOf] <;> split at hi <;> simp_all

/-- Where tokens are left, nobody waits for them. -/
theorem token_of_blocked :
    (a.molo ≠ 0 → ∀ i, (a.person i).stage ≠ .queueing) ∧
      (∀ K, a.boat K ≠ 0 → a.muster.onPier K = 0) ∧
      (a.boarding ≠ 0 → ∀ K, a.muster.boarded K = 0) ∧
      (a.landing ≠ 0 → a.muster.named = 0) ∧
      (a.captain ≠ 0 → a.muster.sailing = 0) := by
  refine ⟨fun ht i hi => ?_, fun K ht => ?_, fun ht K => ?_, fun ht => ?_, fun ht => ?_⟩
  case refine_1 => simpa [Blocked, hi, ht] using hb i
  all_goals
    refine total_of_blocked hb _ fun i hi => ?_
    unfold Blocked at hi
    simp only [here, hereOf]
    split at hi <;> simp_all [Stage.isSailing]
  rintro rfl
  exact ht hi

theorem unposted_of_blocked (hn : a.muster.named = 0) : a.muster.unposted = 0 := by
  refine total_of_blocked hb _ fun i hi => ?_
  have hle : here (· = .named) i.1 (a.person i) ≤ a.muster.named := le_total a i _
  unfold Blocked at hi
  simp only [here, hn] at hle
  simp only [unposted]
  split at hi <;> simp_all

include ha

/-- No group is under way. -/
theorem Counts.idle_of_blocked : a.phase = .idle := by
  obtain ⟨_, harrived, haboard, hcalled, hdis⟩ := muster_of_blocked hb
  obtain ⟨_, hboat, hboarding, hlanding, hcaptain⟩ := token_of_blocked hb
  have hpier := ha.pier
  cases hp : a.phase with
  | idle => rfl
  | boarding g =>
    -- Everybody of the group has boarded, but only three have been counted.
    have hc : a.Boarding g a.muster := by simpa [Crew, CrewOf, hp] using ha.crew
    have h (K : Kind) : a.boat K = 0 := by
      by_contra h
      have := hboat K h
      have := harrived K
      have := hpier K
      omega
    have h1 := hc.boat .hacker
    have h2 := hc.boat .serf
    rw [h, haboard] at h1 h2
    have := hc.waiting
    have := hc.waiting_lt
    have := g.size_add
    omega
  | naming g =>
    -- Everybody has printed a role, but only three have been counted.
    have hc := ha.naming hp
    have hz : a.boarding = 0 := by
      by_contra h
      have := hboarding h
      have := hc.boarding
      simp_all
    have := hc.called
    have := hc.waiting
    have := hc.waiting_lt
    omega
  | sailing g =>
    -- The captain has given out all tokens, and somebody who waits for one is left.
    have hc := ha.sailing hp
    have hn : a.muster.named = 0 := by
      by_contra h
      have := hlanding (by rw [hc.landing]; exact h)
      exact h this
    have hu := unposted_of_blocked hb hn
    have := hc.sailing
    have := hc.waiting_lt
    have := hc.captain
    have := hcaptain (by omega)
    omega

/-- Everybody has entered the pier. -/
theorem Counts.entered_of_blocked (i : Pid p) : ¬((a.person i).stage = .ashore ∨
    (a.person i).stage = .queueing ∨ (a.person i).stage = .entering) := by
  have hp := ha.idle_of_blocked hb
  obtain ⟨hentering, harrived, _, _, _⟩ := muster_of_blocked hb
  have hmolo := (token_of_blocked hb).1
  have hgate := ha.gate
  simp only [hp, hentering, harrived, Phase.busy] at hgate
  have hi := hb i
  have := hmolo (by omega) i
  unfold Blocked at hi
  split at hi <;> simp_all

theorem Counts.come_of_blocked (K : Kind) : a.muster.come K = p := by
  have hone (i : Pid p) : hereOf K (fun x => ¬(x = .ashore ∨ x = .queueing ∨ x = .entering)) i.1
      (a.person i) = if i.1 = K then 1 else 0 := by
    simp only [hereOf, ha.entered_of_blocked hb i, not_false_eq_true, and_true]
  calc a.muster.come K = ∑ i : Pid p, if i.1 = K then 1 else 0 := by
        simp only [muster, total, census, hone]
    _ = ∑ k : Kind, ∑ _j : Fin p, if k = K then 1 else 0 := Fintype.sum_prod_type _
    _ = p := by simp

/-- An even number of each kind leaves nobody on the pier. -/
theorem Counts.pier_of_blocked (he : Even p) (K : Kind) : a.pier K = 0 := by
  have hcome := ha.come_of_blocked hb
  obtain ⟨_, harrived, _, _, _⟩ := muster_of_blocked hb
  have hu := ha.ungroupable
  simp only [harrived, Nat.sub_zero, Ungroupable] at hu
  have h1 := ha.even .hacker
  have h2 := ha.even .serf
  have h3 := ha.fours
  simp only [hcome] at h1 h2 h3
  obtain ⟨q, rfl⟩ := he
  cases K <;> omega

/-- Everybody has left. -/
theorem Counts.all_left (he : Even p) (i : Pid p) : (a.person i).stage = .left := by
  have hp := ha.idle_of_blocked hb
  have hidle := ha.idle hp
  have hdone (j : Pid p) : (a.person j).stage = .counted ∨ (a.person j).stage = .left := by
    have hj := hb j
    have hr := ha.rank_of_idle hp j
    have hin := ha.entered_of_blocked hb j
    have hon : hereOf j.1 (· = .onPier) j.1 (a.person j) ≤ a.muster.onPier j.1 := le_total a j _
    have hpier := ha.pier j.1
    rw [ha.pier_of_blocked hb he, hidle.boat] at hpier
    unfold Blocked at hj
    cases hst : (a.person j).stage <;> simp_all [Stage.rank, hereOf]
    omega
  refine (hdone i).resolve_left fun hi => ?_
  have hcounted : a.muster.counted = 2 * p := by
    have hone (j : Pid p) :
        here (fun x => x = .counted ∨ x = .leaving ∨ x = .left) j.1 (a.person j) = 1 := by
      rcases hdone j with h | h <;> simp [here, h]
    simp [muster, total, census, hone, Fintype.card_prod, show Fintype.card Kind = 2 from rfl]
  have hleaving := census_lt_card (f := a.person) (i := i)
    (w := fun i => here (fun x => x = .leaving ∨ x = .left) i.1)
    (fun j => by simp only [here]; split_ifs <;> omega) (by simp [here, hi])
  rw [Fintype.card_prod, Fintype.card_fin] at hleaving
  have hfinish := ha.finish
  rw [if_pos (ha.toFinish.trans hcounted)] at hfinish
  have hzero : a.finish = 0 := by simpa [Blocked, hi] using hb i
  exact absurd (hzero ▸ hfinish) (by rw [Nat.zero_add]; exact Nat.ne_of_lt hleaving)

end

end RiverCrossing.Ferry
