import FitProjects.IOS.FerryCrew

/-! # Head counts on the pier

The token of `MOLO` is where nobody crosses and nobody arrives, the persons left on the pier form no
group, and as many of each kind have left it as groups of an even number make up. With the head
counts of the crossing these are the invariant `Counts`. -/

namespace RiverCrossing.Ferry

variable {p : Nat} {a a' : Ferry p} {i : Pid p} {m m' : Muster}

/-- These numbers make up no group, whoever comes next makes four at most. -/
def Ungroupable (hackers serfs : Nat) : Prop :=
  hackers ≤ 3 ∧ serfs ≤ 3 ∧ ¬(2 ≤ hackers ∧ 2 ≤ serfs)

/-- The head counts of a state. -/
structure Counts (a : Ferry p) : Prop where
  crew : a.Crew
  gate : a.molo + a.muster.entering + a.muster.arrived .hacker + a.muster.arrived .serf +
    a.phase.busy = 1
  pier K : a.pier K + a.boat K = a.muster.onPier K + a.muster.arrived K
  ungroupable : Ungroupable (a.pier .hacker - a.muster.arrived .hacker)
    (a.pier .serf - a.muster.arrived .serf)
  even K : a.muster.come K % 2 = a.pier K % 2
  fours : (a.muster.come .hacker + a.muster.come .serf) % 4 = (a.pier .hacker + a.pier .serf) % 4
  /-- Nobody is a captain before the test for a group. -/
  early i : (a.person i).isCaptain = true → 4 ≤ (a.person i).stage.rank
  /-- A captain is the last of the kind on the pier. -/
  captain i : (a.person i).isCaptain = true → (a.person i).stage = .onPier → a.pier i.1 = 0
  toFinish : a.toFinish = a.muster.counted
  finish : a.finish + a.muster.leaving = if a.toFinish = 2 * p then 2 * p else 0

section
attribute [local simp] hereOf here goto say advance Kind.forall Phase.busy Stage.rank

theorem Step.gate (hs : Step a i a') (ha : a.Counts) :
    a'.molo + a'.muster.entering + a'.muster.arrived .hacker + a'.muster.arrived .serf +
      a'.phase.busy = 1 := by
  have entering := hs.moved.entering
  have arrived := hs.moved.arrived
  have hb := ha.crew.boarding_of_aboard (i := i)
  have hn := ha.crew.naming_of_called (i := i)
  have hl := ha.crew.sailing_of_disembarking (i := i)
  have hg := ha.gate
  generalize a.muster = m at *
  generalize a'.muster = m' at *
  obtain ⟨K, j⟩ := i
  cases hp : a.phase <;> cases K <;> cases hs <;> simp_all <;> omega

theorem Step.pier (hs : Step a i a') (ha : a.Counts) (K : Kind) :
    a'.pier K + a'.boat K = a'.muster.onPier K + a'.muster.arrived K := by
  have arrived := hs.moved.arrived
  have onPier := hs.moved.onPier
  have hp := ha.pier
  generalize a.muster = m at *
  generalize a'.muster = m' at *
  obtain ⟨k, j⟩ := i
  cases hs
  case form hg h =>
    have := findGroup_eq_some hg
    cases k <;> cases K <;> simp_all <;> omega
  all_goals cases k <;> cases K <;> simp_all <;> omega

theorem Step.ungroupable (hs : Step a i a') (ha : a.Counts) :
    Ungroupable (a'.pier .hacker - a'.muster.arrived .hacker)
      (a'.pier .serf - a'.muster.arrived .serf) := by
  have arrived := hs.moved.arrived
  have hu := ha.ungroupable
  have hg := ha.gate
  generalize a.muster = m at *
  generalize a'.muster = m' at *
  obtain ⟨k, j⟩ := i
  unfold Ungroupable at *
  cases hs
  case form hg h =>
    obtain ⟨_, _, ⟨rfl, _⟩ | ⟨rfl, _⟩ | rfl⟩ := findGroup_eq_some hg <;>
      cases k <;> simp_all [Group.size] <;> omega
  case pass hg h =>
    rw [findGroup_eq_none] at hg
    cases k <;> simp_all <;> omega
  all_goals cases k <;> simp_all

theorem Step.even (hs : Step a i a') (ha : a.Counts) (K : Kind) :
    a'.muster.come K % 2 = a'.pier K % 2 := by
  have come := hs.moved.come
  have he := ha.even
  generalize a.muster = m at *
  generalize a'.muster = m' at *
  obtain ⟨k, j⟩ := i
  cases hs
  case form g _ _ hg h =>
    have := findGroup_eq_some hg
    have := g.size_even K
    cases k <;> cases K <;> simp_all <;> omega
  all_goals cases k <;> cases K <;> simp_all <;> omega

theorem Step.fours (hs : Step a i a') (ha : a.Counts) :
    (a'.muster.come .hacker + a'.muster.come .serf) % 4 = (a'.pier .hacker + a'.pier .serf) % 4 := by
  have come := hs.moved.come
  have hf := ha.fours
  generalize a.muster = m at *
  generalize a'.muster = m' at *
  obtain ⟨k, j⟩ := i
  cases hs
  case form g _ _ hg h =>
    have := findGroup_eq_some hg
    have := g.size_add
    cases k <;> simp_all <;> omega
  all_goals cases k <;> simp_all <;> omega

theorem Step.early (hs : Step a i a') (ha : a.Counts) (j : Pid p)
    (hj : (a'.person j).isCaptain = true) : 4 ≤ (a'.person j).stage.rank := by
  have he := ha.early j
  by_cases hij : j = i
  · subst hij
    cases hs <;> simp_all
  · rw [hs.person_ne hij] at *
    exact he hj

theorem Counts.idle_of_entering (ha : a.Counts) (h : (a.person i).stage = .entering) :
    a.phase = .idle := by
  have hle : here (· = .entering) i.1 (a.person i) ≤ a.muster.entering := le_total a i _
  have hg := ha.gate
  cases hp : a.phase <;> simp_all

theorem Counts.idle_of_arrived (ha : a.Counts) (h : (a.person i).stage = .arrived) :
    a.phase = .idle := by
  have hle : hereOf i.1 (· = .arrived) i.1 (a.person i) ≤ a.muster.arrived i.1 := le_total a i _
  have hg := ha.gate
  cases hp : a.phase <;> cases hk : i.1 <;> simp_all

theorem Counts.idle (ha : a.Counts) (hp : a.phase = .idle) : a.Idle a.muster := by
  simpa [Crew, CrewOf, hp] using ha.crew

theorem Counts.captain_of_idle (ha : a.Counts) (hp : a.phase = .idle)
    (hi : (a.person i).isCaptain = true) : (a.person i).stage ≠ .onPier := by
  intro h
  have hle : fresh i.1 (a.person i) ≤ a.muster.fresh := le_total a i _
  rw [(ha.idle hp).fresh] at hle
  simp [fresh, hi, h] at hle

theorem Step.captain (hs : Step a i a') (ha : a.Counts) (j : Pid p)
    (hj : (a'.person j).isCaptain = true) (hst : (a'.person j).stage = .onPier) :
    a'.pier j.1 = 0 := by
  have hc := ha.captain j
  have he := ha.early i
  have hn := fun hp => ha.captain_of_idle (i := j) hp
  by_cases hij : j = i
  · subst hij
    have arrived := hs.moved.arrived
    have hu := ha.ungroupable
    have hgate := ha.gate
    have hp := ha.pier
    generalize a.muster = m at *
    generalize a'.muster = m' at *
    obtain ⟨k, j⟩ := j
    unfold Ungroupable at *
    cases hs
    case form hg h =>
      -- Before `j` arrived there was no group, so that none of this kind is left over.
      obtain ⟨_, _, ⟨rfl, _⟩ | ⟨rfl, _⟩ | rfl⟩ := findGroup_eq_some hg <;>
        cases k <;> simp_all [Group.size] <;> omega
    all_goals simp_all
  · rw [hs.person_ne hij] at *
    cases hs
    case arrive h => exact absurd hst (hn (ha.idle_of_entering h) hj)
    case form hg h => exact absurd hst (hn (ha.idle_of_arrived h) hj)
    all_goals simp_all

/-- While nobody boards, a captain who has not printed `captain` is about to do so. -/
theorem fresh_le (hpier : ∀ K, a.pier K + a.boat K = a.muster.onPier K + a.muster.arrived K)
    (hcap : ∀ i, (a.person i).isCaptain = true → (a.person i).stage = .onPier → a.pier i.1 = 0)
    (hboat : ∀ K, a.boat K = 0) (haboard : ∀ K, a.muster.aboard K = 0) :
    a.muster.fresh ≤ a.muster.boarded .hacker + a.muster.boarded .serf + a.muster.called := by
  have hle : a.total fresh ≤ a.total fun k x => hereOf .hacker (· = .boarded) k x +
      hereOf .serf (· = .boarded) k x + here (· = .called) k x := by
    refine census_mono fun i => ?_
    have hon : hereOf i.1 (· = .onPier) i.1 (a.person i) ≤ a.muster.onPier i.1 := le_total a i _
    have hab : hereOf i.1 (· = .aboard) i.1 (a.person i) ≤ a.muster.aboard i.1 := le_total a i _
    have hp := hpier i.1
    have hb := hboat i.1
    rw [haboard] at hab
    have hc := hcap i
    cases hk : i.1 <;> simp only [fresh, hereOf, here, hk] at * <;> grind
  simpa only [muster, total, census_add] using hle

theorem Step.toFinish (hs : Step a i a') (ha : a.Counts) : a'.toFinish = a'.muster.counted := by
  have counted := hs.moved.counted
  have hf := ha.toFinish
  cases hs <;> simp_all

theorem counted_lt (a : Ferry p) (h : (a.person i).stage = .landed) :
    a.muster.counted < 2 * p := by
  have hlt := census_lt_card (f := a.person) (i := i)
    (w := fun i => here (fun x => x = .counted ∨ x = .leaving ∨ x = .left) i.1)
    (fun j => by simp only [here]; split_ifs <;> omega) (by simp [here, h])
  simpa [muster, total, Fintype.card_prod, show Fintype.card Kind = 2 from rfl] using hlt

theorem Step.finish_add (hs : Step a i a') (ha : a.Counts) :
    a'.finish + a'.muster.leaving = if a'.toFinish = 2 * p then 2 * p else 0 := by
  have leaving := hs.moved.leaving
  have hf := ha.finish
  have ht := ha.toFinish
  have hlt := counted_lt a (i := i)
  generalize a.muster = m at *
  generalize a'.muster = m' at *
  cases hs <;> simp_all <;> grind

theorem Step.crew (hs : Step a i a') (ha : a.Counts) : a'.Crew := by
  have hc := ha.crew
  have hi := ha.idle_of_arrived (i := i)
  unfold Crew CrewOf at hc
  cases hp : a.phase <;> simp only [hp, reduceCtorEq, imp_false] at hc hi
  case idle =>
    refine hs.crew_of_idle hp hc fun h => ?_
    have := ha.early i
    simp_all
  case boarding g => exact hs.crew_of_boarding hp hc hi
  case naming g => exact hs.crew_of_naming hp hc hi (fresh_le (hs.pier ha) (hs.captain ha))
  case sailing g => exact hs.crew_of_sailing hp hc hi

end

theorem Counts.init (p : Nat) : (Ferry.init p).Counts := by
  have h (w : Kind → Person → Nat) (hw : ∀ k, w k ⟨.ashore, false⟩ = 0) :
      (Ferry.init p).total w = 0 := census_zero fun i => hw i.1
  have hm : (Ferry.init p).muster =
      ⟨0, 0, 0, 0, 0, 0, 0, 0, 0, 0, 0, 0, 0, 0⟩ := by
    simp only [muster, Muster.mk.injEq, funext_iff, Pi.zero_apply]
    refine ⟨?_, fun K => ?_, fun K => ?_, fun K => ?_, fun K => ?_, fun K => ?_, ?_, ?_, ?_, ?_,
      ?_, ?_, ?_, ?_⟩ <;> exact h _ fun k => by simp [hereOf, here, fresh, unposted, Stage.isSailing]
  have hi : (Ferry.init p).Idle (Ferry.init p).muster := by
    rw [hm]
    constructor <;> intros <;> rfl
  constructor
  case crew => exact hi
  case finish =>
    rw [hm]
    change 0 + 0 = if 0 = 2 * p then 2 * p else 0
    split_ifs <;> omega
  case early => simp [Ferry.init]
  case captain => simp [Ferry.init]
  all_goals rw [hm]
  all_goals simp [Ferry.init, Ungroupable, Phase.busy]

theorem Counts.step (ha : a.Counts) (hs : Step a i a') : a'.Counts where
  crew := hs.crew ha
  gate := hs.gate ha
  pier := hs.pier ha
  ungroupable := hs.ungroupable ha
  even := hs.even ha
  fours := hs.fours ha
  early := hs.early ha
  captain := hs.captain ha
  toFinish := hs.toFinish ha
  finish := hs.finish_add ha

end RiverCrossing.Ferry
