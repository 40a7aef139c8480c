import FitProjects.IOS.Ferry
import Mathlib.Tactic.MkIffOfInductiveProp
import Mathlib.Tactic.Common

/-! # Head counts of a crossing

Where the persons and the tokens of a crossing are in each of its phases. The numbers of persons at
the stages and the numbers of tokens determine each other, and both are tied to what the log says
of the crossing. -/

namespace RiverCrossing.Ferry

variable {p : Nat} {g : Group} {a a' : Ferry p} {i : Pid p} {m m' : Muster}

/-- Nobody crosses. -/
@[mk_iff] structure Idle (a : Ferry p) (m : Muster) : Prop where
  boat K : a.boat K = 0
  aboard K : m.aboard K = 0
  boarded K : m.boarded K = 0
  boarding : a.boarding = 0
  called : m.called = 0
  named : m.named = 0
  landing : a.landing = 0
  sailing : m.sailing = 0
  captain : a.captain = 0
  disembarking : m.disembarking = 0
  waiting : a.waiting = 0
  fresh : m.fresh = 0
  unposted : m.unposted = 0

/-- The group boards: every member holds a token of `HACKER` or `SERF`, or has taken one. -/
@[mk_iff] structure Boarding (g : Group) (a : Ferry p) (m : Muster) : Prop where
  boat K : a.boat K + m.aboard K + m.boarded K = g.size K
  boarding : a.boarding = 0
  called : m.called = 0
  named : m.named = 0
  landing : a.landing = 0
  sailing : m.sailing = 0
  captain : a.captain = 0
  disembarking : m.disembarking = 0
  waiting : a.waiting = m.boarded .hacker + m.boarded .serf
  waiting_lt : a.waiting < 4
  fresh : m.fresh = 1
  unposted : m.unposted = 0
  logBoarded K : heads K (who .boarding (current a.log)) = m.boarded K
  logAssigned : (assigned (current a.log)).length = 0
  logCaptain : (who .captain (current a.log)).length = 0
  logLanded : (who .landing (current a.log)).length = 0
  logPosted : (who .posted (current a.log)).length = 0

/-- All four have boarded, and print their roles. -/
@[mk_iff] structure Naming (g : Group) (a : Ferry p) (m : Muster) : Prop where
  boat K : a.boat K = 0
  aboard K : m.aboard K = 0
  boarding : a.boarding = m.boarded .hacker + m.boarded .serf
  called : a.boarding + m.called + m.named = 4
  landing : a.landing = 0
  sailing : m.sailing = 0
  captain : a.captain = 0
  disembarking : m.disembarking = 0
  waiting : a.waiting = m.named
  waiting_lt : a.waiting < 4
  fresh : (who .captain (current a.log)).length + m.fresh = 1
  unposted : m.unposted = 4 * (who .captain (current a.log)).length
  logBoarded K : heads K (who .boarding (current a.log)) = g.size K
  logAssigned : (assigned (current a.log)).length = m.named
  logLanded : (who .landing (current a.log)).length = 0
  logPosted : (who .posted (current a.log)).length = 0

/-- All four have printed their roles, and sail and land. -/
@[mk_iff] structure Sailing (g : Group) (a : Ferry p) (m : Muster) : Prop where
  boat K : a.boat K = 0
  aboard K : m.aboard K = 0
  boarded K : m.boarded K = 0
  boarding : a.boarding = 0
  called : m.called = 0
  landing : a.landing = m.named
  sailing : m.named + m.sailing + m.disembarking + a.waiting = 4
  captain : a.captain + m.unposted = m.named + m.sailing
  waiting_lt : a.waiting < 4
  fresh : m.fresh = 0
  logBoarded K : heads K (who .boarding (current a.log)) = g.size K
  logAssigned : (assigned (current a.log)).length = 4
  logCaptain : (who .captain (current a.log)).length = 1
  logLanded : (who .landing (current a.log)).length = a.waiting
  logPosted : (who .posted (current a.log)).length + m.unposted = 4

/-- The head counts of the phase. -/
def CrewOf (a : Ferry p) (m : Muster) : Prop :=
  match a.phase with
  | .idle => a.Idle m
  | .boarding g => a.Boarding g m
  | .naming g => a.Naming g m
  | .sailing g => a.Sailing g m

@[inherit_doc CrewOf] def Crew (a : Ferry p) : Prop := a.CrewOf a.muster

section
attribute [local simp] CrewOf hereOf here Ferry.fresh Ferry.unposted goto say advance Stage.isSailing
  idle_iff boarding_iff naming_iff sailing_iff Kind.forall
attribute [-simp] List.length_eq_zero_iff

-- In each phase the steps of the other phases are impossible: the person who would take one is
-- counted in a number that the phase says is zero.

/-- Only a new group ends the idle phase. -/
theorem Step.crew_of_idle (hs : Step a i a') (hp : a.phase = .idle) (hc : a.Idle a.muster)
    (hi : (a.person i).stage = .arrived → (a.person i).isCaptain = false) : a'.Crew := by
  obtain ⟨-, -, -, -, aboard, boarded, called, named, sailing, dis, fresh, unposted, -, -⟩ :=
    hs.moved
  unfold Crew
  generalize a.muster = m at *
  generalize a'.muster = m' at *
  obtain ⟨K, j⟩ := i
  cases K <;> cases hs <;> simp_all <;> omega

/-- The fourth to board ends the phase. -/
theorem Step.crew_of_boarding (hs : Step a i a') (hp : a.phase = .boarding g)
    (hc : a.Boarding g a.muster) (ha : (a.person i).stage ≠ .arrived) : a'.Crew := by
  obtain ⟨-, -, -, -, aboard, boarded, called, named, sailing, dis, fresh, unposted, -, -⟩ :=
    hs.moved
  unfold Crew
  generalize a.muster = m at *
  generalize a'.muster = m' at *
  have hg := g.size_add
  cases hc
  obtain ⟨K, j⟩ := i
  cases K <;> cases hs <;> simp_all <;> omega

/-- A captain goes on while the roles are printed. -/
theorem Step.crew_of_naming_captain (hs : Step a i a') (hp : a.phase = .naming g)
    (hc : a.Naming g a.muster) (ha : (a.person i).stage ≠ .arrived)
    (hcap : (a.person i).isCaptain = true) : a'.Crew := by
  obtain ⟨-, -, -, -, aboard, boarded, called, named, sailing, dis, fresh, unposted, -, -⟩ :=
    hs.moved
  have hsail : here (·.isSailing) i.1 (a.person i) ≤ a.muster.sailing := le_total a i _
  unfold Crew
  generalize a.muster = m at *
  generalize a'.muster = m' at *
  cases hc
  obtain ⟨K, j⟩ := i
  cases K <;> cases hs <;> simp_all <;> omega

/-- The fourth to print a role ends the phase. -/
theorem Step.crew_of_naming (hs : Step a i a') (hp : a.phase = .naming g)
    (hc : a.Naming g a.muster) (ha : (a.person i).stage ≠ .arrived)
    (hf : (∀ K, a'.boat K = 0) → (∀ K, a'.muster.aboard K = 0) →
      a'.muster.fresh ≤ a'.muster.boarded .hacker + a'.muster.boarded .serf + a'.muster.called) :
    a'.Crew := by
  cases hcap : (a.person i).isCaptain with
  | true => exact hs.crew_of_naming_captain hp hc ha hcap
  | false =>
    obtain ⟨-, -, -, -, aboard, boarded, called, named, sailing, dis, fresh, unposted, -, -⟩ :=
      hs.moved
    have hsail : here (·.isSailing) i.1 (a.person i) ≤ a.muster.sailing := le_total a i _
    unfold Crew
    generalize a.muster = m at *
    generalize a'.muster = m' at *
    cases hc
    obtain ⟨K, j⟩ := i
    cases K <;> cases hs <;> simp_all <;> omega

/-- The fourth to land ends the phase. -/
theorem Step.crew_of_sailing (hs : Step a i a') (hp : a.phase = .sailing g)
    (hc : a.Sailing g a.muster) (ha : (a.person i).stage ≠ .arrived) : a'.Crew := by
  obtain ⟨-, -, -, -, aboard, boarded, called, named, sailing, dis, fresh, unposted, -, -⟩ :=
    hs.moved
  unfold Crew
  generalize a.muster = m at *
  generalize a'.muster = m' at *
  cases hc
  obtain ⟨K, j⟩ := i
  cases K <;> cases hs <;> simp_all <;> omega

end

/-! ## The phase that a stage belongs to -/

theorem Crew.boarding_of_aboard (hc : a.Crew) (h : (a.person i).stage = .aboard) :
    ∃ g, a.phase = .boarding g := by
  have hle : hereOf i.1 (· = .aboard) i.1 (a.person i) ≤ a.muster.aboard i.1 := le_total a i _
  simp only [hereOf, h, and_self, if_true] at hle
  unfold Crew CrewOf at hc
  cases hp : a.phase <;> simp only [hp] at hc
  case idle => have := hc.aboard i.1; omega
  case boarding g => exact ⟨g, rfl⟩
  case naming g => have := hc.aboard i.1; omega
  case sailing g => have := hc.aboard i.1; omega

theorem Crew.naming_of_called (hc : a.Crew) (h : (a.person i).stage = .called) :
    ∃ g, a.phase = .naming g := by
  have hle : here (· = .called) i.1 (a.person i) ≤ a.muster.called := le_total a i _
  simp only [here, h, if_true] at hle
  unfold Crew CrewOf at hc
  cases hp : a.phase <;> simp only [hp] at hc
  case idle => have := hc.called; omega
  case boarding g => have := hc.called; omega
  case naming g => exact ⟨g, rfl⟩
  case sailing g => have := hc.called; omega

theorem Crew.sailing_of_disembarking (hc : a.Crew) (h : (a.person i).stage = .disembarking) :
    ∃ g, a.phase = .sailing g := by
  have hle : here (· = .disembarking) i.1 (a.person i) ≤ a.muster.disembarking := le_total a i _
  simp only [here, h, if_true] at hle
  unfold Crew CrewOf at hc
  cases hp : a.phase <;> simp only [hp] at hc
  case idle => have := hc.disembarking; omega
  case boarding g => have := hc.disembarking; omega
  case naming g => have := hc.disembarking; omega
  case sailing g => exact ⟨g, rfl⟩

end RiverCrossing.Ferry
