import FitProjects.IOS.FerryCount

/-! # The log of the ferry

What the stages of the persons and the head counts say about the log, and from it that the log of
every run is as it must be. -/

namespace RiverCrossing

/-- The least rank of a person who has done this. -/
def Action.rank : Action → Nat
  | started => 1
  | waiting => 3
  | formed => 4
  | boarding => 6
  | captain => 8
  | member => 8
  | posted => 9
  | landing => 11
  | finished => 14

namespace Ferry

variable {p : Nat} {a a' : Ferry p} {i : Pid p}

/-- The crossing `c` is over, as the head counts tell it. -/
def Over (c : List (Event p)) : Prop :=
  ∃ g : Group, (∀ K, heads K (who .boarding c) = g.size K) ∧ (assigned c).length = 4 ∧
    (who .captain c).length = 1 ∧ (who .landing c).length = 4

/-- Who has printed what. -/
structure Logged (a : Ferry p) : Prop where
  rank e (he : e ∈ a.log) : e.what.rank ≤ (a.person e.who).stage.rank
  boarding_nodup : (who .boarding a.log).Nodup
  assigned_nodup : (assigned a.log).Nodup
  landing_nodup : (who .landing a.log).Nodup
  boarded i : 6 ≤ (a.person i).stage.rank → (a.person i).stage.rank ≤ 10 →
    i ∈ who .boarding (current a.log)
  assigned i : 8 ≤ (a.person i).stage.rank → (a.person i).stage.rank ≤ 10 →
    i ∈ assigned (current a.log)
  captain i : (a.person i).isCaptain = true → 8 ≤ (a.person i).stage.rank →
    (a.person i).stage.rank ≤ 10 → i ∈ who .captain (current a.log)
  sailing i n : (a.person i).stage = .sailing (n + 1) → (a.person i).isCaptain = true
  landed i : 11 ≤ (a.person i).stage.rank → i ∈ who .landing a.log
  assigned_sub : RiverCrossing.assigned (current a.log) ⊆ who .boarding (current a.log)
  landed_sub : who .landing (current a.log) ⊆ RiverCrossing.assigned (current a.log)
  posted_sub : who .posted (current a.log) ⊆ who .captain (current a.log)
  begun : a.phase ≠ .idle → Begun a.log
  ended : a.phase = .idle → Begun a.log → Over (current a.log)

theorem Logged.rank_of_who (hl : a.Logged) (h : i ∈ who x a.log) :
    x.rank ≤ (a.person i).stage.rank := by
  simp only [who, List.mem_map, List.mem_filter, decide_eq_true_eq] at h
  obtain ⟨e, ⟨he, rfl⟩, rfl⟩ := h
  exact hl.rank e he

theorem Logged.rank_of_assigned (hl : a.Logged) (h : i ∈ RiverCrossing.assigned a.log) :
    8 ≤ (a.person i).stage.rank := by
  simp only [RiverCrossing.assigned, List.mem_map, List.mem_filter, decide_eq_true_eq] at h
  obtain ⟨e, ⟨he, hx⟩, rfl⟩ := h
  have := hl.rank e he
  rcases hx with hx | hx <;> simpa [hx, Action.rank] using this

/-- While nobody crosses, nobody is at the stages of a crossing. -/
theorem Counts.rank_of_idle (ha : a.Counts) (hp : a.phase = .idle) (i : Pid p) :
    (a.person i).stage.rank < 5 ∨ 10 < (a.person i).stage.rank := by
  have hi := ha.idle hp
  have h1 : hereOf i.1 (· = .aboard) i.1 (a.person i) ≤ a.muster.aboard i.1 := le_total a i _
  have h2 : hereOf i.1 (· = .boarded) i.1 (a.person i) ≤ a.muster.boarded i.1 := le_total a i _
  have h3 : here (· = .called) i.1 (a.person i) ≤ a.muster.called := le_total a i _
  have h4 : here (· = .named) i.1 (a.person i) ≤ a.muster.named := le_total a i _
  have h5 : here (·.isSailing) i.1 (a.person i) ≤ a.muster.sailing := le_total a i _
  have h6 : here (· = .disembarking) i.1 (a.person i) ≤ a.muster.disembarking := le_total a i _
  simp only [hi.aboard, hi.boarded, hi.called, hi.named, hi.sailing, hi.disembarking, hereOf,
    here] at h1 h2 h3 h4 h5 h6
  cases hst : (a.person i).stage <;> simp_all [Stage.rank, Stage.isSailing]

section
attribute [local simp] goto say Stage.rank Action.rank

theorem Step.rank_le (hs : Step a i a') (j : Pid p) :
    (a.person j).stage.rank ≤ (a'.person j).stage.rank := by
  by_cases hij : j = i
  · subst hij
    cases hs <;> simp_all
  · rw [hs.person_ne hij]

theorem Step.rank (hs : Step a i a') (hl : a.Logged) (e : Event p) (he : e ∈ a'.log) :
    e.what.rank ≤ (a'.person e.who).stage.rank := by
  by_cases hold : e ∈ a.log
  · exact (hl.rank e hold).trans (hs.rank_le e.who)
  · cases hc : (a.person i).isCaptain <;> cases hs <;> simp_all

theorem Step.nodup (hs : Step a i a') (hl : a.Logged) :
    (who .boarding a'.log).Nodup ∧ (RiverCrossing.assigned a'.log).Nodup ∧
      (who .landing a'.log).Nodup := by
  have hb := hl.rank_of_who (i := i) (x := .boarding)
  have hn := hl.rank_of_who (i := i) (x := .landing)
  have ha := hl.rank_of_assigned (i := i)
  have := hl.boarding_nodup
  have := hl.assigned_nodup
  have := hl.landing_nodup
  cases hs <;> simp_all <;> grind

/-- Nobody who is in a crossing is there when a new one begins. -/
theorem Counts.not_formed (ha : a.Counts) (h : (a.person i).stage = .arrived) (j : Pid p)
    (h1 : 6 ≤ (a.person j).stage.rank) (h2 : (a.person j).stage.rank ≤ 10) : False := by
  have := ha.rank_of_idle (ha.idle_of_arrived h) j
  omega

theorem Step.boarded (hs : Step a i a') (ha : a.Counts) (hl : a.Logged) (j : Pid p)
    (h1 : 6 ≤ (a'.person j).stage.rank) (h2 : (a'.person j).stage.rank ≤ 10) :
    j ∈ who .boarding (current a'.log) := by
  have hb := hl.boarded j
  have hf := fun h => ha.not_formed (i := i) h j
  by_cases hij : j = i
  · subst hij
    cases hc : (a.person j).isCaptain <;> cases hs <;> simp_all
  · rw [hs.person_ne hij] at h1 h2
    cases hc : (a.person i).isCaptain <;> cases hs
    case false.form h | true.form h => exact (hf h h1 h2).elim
    all_goals simp_all

theorem Step.assigned (hs : Step a i a') (ha : a.Counts) (hl : a.Logged) (j : Pid p)
    (h1 : 8 ≤ (a'.person j).stage.rank) (h2 : (a'.person j).stage.rank ≤ 10) :
    j ∈ RiverCrossing.assigned (current a'.log) := by
  have hb := hl.assigned j
  have hf := fun h => ha.not_formed (i := i) h j
  by_cases hij : j = i
  · subst hij
    cases hc : (a.person j).isCaptain <;> cases hs <;> simp_all
  · rw [hs.person_ne hij] at h1 h2
    cases hc : (a.person i).isCaptain <;> cases hs
    case false.form h | true.form h => exact (hf h (by omega) h2).elim
    all_goals simp_all

theorem Step.hasCaptain (hs : Step a i a') (ha : a.Counts) (hl : a.Logged) (j : Pid p)
    (hj : (a'.person j).isCaptain = true) (h1 : 8 ≤ (a'.person j).stage.rank)
    (h2 : (a'.person j).stage.rank ≤ 10) : j ∈ who .captain (current a'.log) := by
  have hb := hl.captain j
  have hf := fun h => ha.not_formed (i := i) h j
  by_cases hij : j = i
  · subst hij
    cases hc : (a.person j).isCaptain <;> cases hs <;> simp_all
  · rw [hs.person_ne hij] at hj h1 h2
    cases hc : (a.person i).isCaptain <;> cases hs
    case false.form h | true.form h => exact (hf h (by omega) h2).elim
    all_goals simp_all

theorem Step.sailing (hs : Step a i a') (hl : a.Logged) (j : Pid p) (n : Nat)
    (hj : (a'.person j).stage = .sailing (n + 1)) : (a'.person j).isCaptain = true := by
  have hb := hl.sailing j
  by_cases hij : j = i
  · subst hij
    cases hc : (a.person j).isCaptain <;> cases hs <;> simp_all
  · rw [hs.person_ne hij] at *
    exact hb n hj

theorem Step.landed (hs : Step a i a') (hl : a.Logged) (j : Pid p)
    (h1 : 11 ≤ (a'.person j).stage.rank) : j ∈ who .landing a'.log := by
  have hb := hl.landed j
  by_cases hij : j = i
  · subst hij
    cases hc : (a.person j).isCaptain <;> cases hs <;> simp_all
  · rw [hs.person_ne hij] at h1
    cases hc : (a.person i).isCaptain <;> cases hs <;> simp_all

theorem Step.subs (hs : Step a i a') (hl : a.Logged) :
    RiverCrossing.assigned (current a'.log) ⊆ who .boarding (current a'.log) ∧
      who .landing (current a'.log) ⊆ RiverCrossing.assigned (current a'.log) ∧
      who .posted (current a'.log) ⊆ who .captain (current a'.log) := by
  have hb := hl.boarded i
  have ha := hl.assigned i
  have hc := hl.captain i
  have hn := hl.sailing i
  obtain ⟨h1, h2, h3⟩ := And.intro hl.assigned_sub (And.intro hl.landed_sub hl.posted_sub)
  simp only [List.subset_def] at *
  cases hc : (a.person i).isCaptain <;> cases hs <;> simp_all

theorem Step.begun (hs : Step a i a') (hl : a.Logged) (hp : a'.phase ≠ .idle) :
    Begun a'.log := by
  have hb := hl.begun
  have hadv : a.advance ≠ .idle → a.phase ≠ .idle := fun h hp => h (by simp [advance, hp])
  cases hs <;> simp_all

theorem Step.ended (hs : Step a i a') (ha : a.Counts) (hl : a.Logged) (hp' : a'.phase = .idle)
    (hb : Begun a'.log) : Over (current a'.log) := by
  have hl' := ha.crew.sailing_of_disembarking (i := i)
  have hadv : a.advance = .idle → a.phase = .idle ∨ ∃ g, a.phase = .sailing g := by
    unfold advance; split <;> simp_all
  have hk := ha.crew.boarding_of_aboard (i := i)
  have hn := ha.crew.naming_of_called (i := i)
  cases hp : a.phase with
  | idle =>
    have hr := ha.rank_of_idle hp i
    have ho := hl.ended hp
    unfold Over at *
    cases hs <;> simp_all
  | boarding g => cases hs <;> simp_all
  | naming g => cases hs <;> simp_all
  | sailing g =>
    have hc : a.Sailing g a.muster := by simpa [Crew, CrewOf, hp] using ha.crew
    cases hs <;> simp_all
    exact ⟨g, hc.logBoarded, hc.logAssigned, hc.logCaptain, by have := hc.logLanded; simp_all⟩

end

theorem Logged.init (p : Nat) : (Ferry.init p).Logged := by
  constructor <;> simp [Ferry.init, Stage.rank]

theorem Logged.step (hl : a.Logged) (ha : a.Counts) (hs : Step a i a') : a'.Logged where
  rank := hs.rank hl
  boarding_nodup := (hs.nodup hl).1
  assigned_nodup := (hs.nodup hl).2.1
  landing_nodup := (hs.nodup hl).2.2
  boarded := hs.boarded ha hl
  assigned := hs.assigned ha hl
  captain := hs.hasCaptain ha hl
  sailing := hs.sailing hl
  landed := hs.landed hl
  assigned_sub := (hs.subs hl).1
  landed_sub := (hs.subs hl).2.1
  posted_sub := (hs.subs hl).2.2
  begun := hs.begun hl
  ended := hs.ended ha hl

/-! ## The log is as it must be -/

theorem Over.complete (h : Over (current a.log)) : Complete (current a.log) := by
  obtain ⟨g, hb, ha, hc, hl⟩ := h
  exact ⟨by rw [length_eq_heads, hb, hb, g.size_add], ha, hc, hl⟩

theorem Counts.crossingOk (ha : a.Counts) (hl : a.Logged) (hb : Begun a.log) :
    CrossingOk (current a.log) := by
  have hsub : (current a.log).Sublist a.log := List.takeWhile_sublist _
  have hlen := length_eq_heads (who .boarding (current a.log))
  have hsize (g : Group) : g.size .hacker = 4 ∨ g.size .serf = 4 ∨
      g.size .hacker = 2 ∧ g.size .serf = 2 := by cases g <;> simp [Group.size]
  have hadd := Group.size_add
  have hnum : (who .boarding (current a.log)).length ≤ 4 ∧
      ((who .boarding (current a.log)).length = 4 → ∃ g : Group,
        ∀ K, heads K (who .boarding (current a.log)) = g.size K) ∧
      (who .captain (current a.log)).length ≤ 1 ∧
      ((assigned (current a.log)).length = 4 → (who .captain (current a.log)).length = 1) := by
    have hc := ha.crew
    unfold Crew CrewOf at hc
    cases hp : a.phase <;> simp only [hp] at hc
    case idle =>
      obtain ⟨g, h, _, _, _⟩ := hl.ended hp hb
      exact ⟨by rw [hlen, h, h, hadd], fun _ => ⟨g, h⟩, by omega, by omega⟩
    case boarding g =>
      obtain ⟨_, _, _, _, _, _, _, _, _, _, _, _, h, _, _, _, _⟩ := hc
      have := h .hacker
      have := h .serf
      exact ⟨by omega, by omega, by omega, by omega⟩
    case naming g =>
      obtain ⟨_, _, _, _, _, _, _, _, _, _, _, _, h, _, _, _⟩ := hc
      exact ⟨by rw [hlen, h, h, hadd], fun _ => ⟨g, h⟩, by omega, by omega⟩
    case sailing g =>
      obtain ⟨_, _, _, _, _, _, _, _, _, _, h, _, _, _, _⟩ := hc
      exact ⟨by rw [hlen, h, h, hadd], fun _ => ⟨g, h⟩, by omega, by omega⟩
  obtain ⟨hle, hgroup, hcap, hone⟩ := hnum
  refine ⟨hl.boarding_nodup.sublist ((hsub.filter _).map _), hle, fun h => ?_,
    hl.assigned_nodup.sublist ((hsub.filter _).map _), hl.assigned_sub, hcap, hone,
    hl.landing_nodup.sublist ((hsub.filter _).map _), hl.landed_sub⟩
  obtain ⟨g, hg⟩ := hgroup h
  simpa only [hg] using hsize g

theorem Counts.naming (ha : a.Counts) (hp : a.phase = .naming g) : a.Naming g a.muster := by
  simpa [Crew, CrewOf, hp] using ha.crew

theorem Counts.sailing (ha : a.Counts) (hp : a.phase = .sailing g) : a.Sailing g a.muster := by
  simpa [Crew, CrewOf, hp] using ha.crew

/-- Once somebody may finish, everybody has landed. -/
theorem Counts.rank_of_leaving (ha : a.Counts) (h : (a.person i).stage = .leaving) (j : Pid p) :
    12 ≤ (a.person j).stage.rank := by
  have hle : here (fun x => x = .leaving ∨ x = .left) i.1 (a.person i) ≤ a.muster.leaving :=
    le_total a i _
  simp only [here, h, true_or, if_true] at hle
  have hf := ha.finish
  have ht := ha.toFinish
  have hcount : a.muster.counted = 2 * p := by split_ifs at hf <;> omega
  by_contra hj
  have hlt := census_lt_card (f := a.person) (i := j)
    (w := fun i => here (fun x => x = .counted ∨ x = .leaving ∨ x = .left) i.1)
    (fun j => by simp only [here]; split_ifs <;> omega)
    (by cases hst : (a.person j).stage <;> simp_all [here, Stage.rank])
  rw [Fintype.card_prod, Fintype.card_fin] at hlt
  exact absurd hcount (Nat.ne_of_lt hlt)

/-- Then no group is under way: every phase but the idle one has somebody in it. -/
theorem Counts.idle_of_leaving (ha : a.Counts) (h : (a.person i).stage = .leaving) :
    a.phase = .idle := by
  have hr := ha.rank_of_leaving h
  have hz (P : Stage → Prop) [DecidablePred P] (hP : ∀ x, P x → x.rank < 12) :
      (∀ K, a.total (hereOf K P) = 0) ∧ a.total (here P) = 0 := by
    have hn (j : Pid p) : ¬P (a.person j).stage := fun hj => absurd (hP _ hj) (by have := hr j; omega)
    exact ⟨fun K => census_zero fun j => by simp [hereOf, hn j],
      census_zero fun j => by simp [here, hn j]⟩
  have hpier := ha.pier
  have honPier (K : Kind) : a.muster.onPier K = 0 := (hz (· = .onPier) (by simp [Stage.rank])).1 K
  have harrived (K : Kind) : a.muster.arrived K = 0 := (hz (· = .arrived) (by simp [Stage.rank])).1 K
  have haboard (K : Kind) : a.muster.aboard K = 0 := (hz (· = .aboard) (by simp [Stage.rank])).1 K
  have hboarded (K : Kind) : a.muster.boarded K = 0 := (hz (· = .boarded) (by simp [Stage.rank])).1 K
  have hcalled : a.muster.called = 0 := (hz (· = .called) (by simp [Stage.rank])).2
  have hnamed : a.muster.named = 0 := (hz (· = .named) (by simp [Stage.rank])).2
  have hdis : a.muster.disembarking = 0 := (hz (· = .disembarking) (by simp [Stage.rank])).2
  have hsailing : a.muster.sailing = 0 :=
    (hz (·.isSailing) fun x => by cases x <;> simp [Stage.rank, Stage.isSailing]).2
  have hc := ha.crew
  unfold Crew CrewOf at hc
  cases hp : a.phase with
  | idle => rfl
  | boarding g =>
    simp only [hp] at hc
    have h1 := hc.boat .hacker
    have h2 := hc.boat .serf
    have := hpier .hacker
    have := hpier .serf
    have := g.size_add
    simp only [honPier, harrived, haboard, hboarded] at *
    omega
  | naming g =>
    have hc := ha.naming hp
    have := hc.boarding
    have := hc.called
    simp only [hboarded] at *
    omega
  | sailing g =>
    have hc := ha.sailing hp
    have := hc.sailing
    have := hc.waiting_lt
    omega

/-- All four have boarded when somebody prints a role. -/
theorem Counts.all_boarded (ha : a.Counts) (hl : a.Logged) (h : (a.person i).stage = .called) :
    Begun a.log ∧ (who .boarding (current a.log)).length = 4 := by
  obtain ⟨g, hp⟩ := ha.crew.naming_of_called h
  have hc := (ha.naming hp).logBoarded
  exact ⟨hl.begun (by simp [hp]), by rw [length_eq_heads, hc, hc, g.size_add]⟩

/-- All four have printed their roles, and the captain has posted, when somebody lands. -/
theorem Counts.all_assigned (ha : a.Counts) (hl : a.Logged)
    (h : (a.person i).stage = .disembarking) :
    Begun a.log ∧ (assigned (current a.log)).length = 4 ∧
      ∃ i ∈ who .captain (current a.log), i ∈ who .posted (current a.log) := by
  obtain ⟨g, hp⟩ := ha.crew.sailing_of_disembarking h
  obtain ⟨_, _, _, _, _, _, _, _, _, _, _, hall, _, _, hposted⟩ := ha.sailing hp
  have hle : here (· = .disembarking) i.1 (a.person i) ≤ a.muster.disembarking := le_total a i _
  simp only [here, h, if_true] at hle
  obtain ⟨j, hj⟩ := List.exists_mem_of_length_pos (l := who .posted (current a.log)) (by omega)
  exact ⟨hl.begun (by simp [hp]), hall, j, hl.posted_sub hj, hj⟩

theorem Step.logOk (hs : Step a i a') (ha : a.Counts) (hl : a.Logged) (ha' : a'.Counts)
    (hl' : a'.Logged) (h : LogOk a.log) : LogOk a'.log := by
  have hc := ha'.crossingOk hl'
  have hidle (hp : a.phase = .idle) (hb : Begun a.log) := (hl.ended hp hb).complete
  cases hs with
  | enter | pass | embark | call | sail | disembark | count | countLast | leave => exact h
  | start => exact h.cons trivial hc
  | arrive hst => exact h.cons (hidle (ha.idle_of_entering hst)) hc
  | form hst => exact h.cons (hidle (ha.idle_of_arrived hst)) hc
  | board hst | boardLast hst =>
    obtain ⟨g, hp⟩ := ha.crew.boarding_of_aboard hst
    exact h.cons (hl.begun (by simp [hp])) hc
  | name hst _ hx | nameLast hst _ hx =>
    refine h.cons ?_ hc
    have := ha.all_boarded hl hst
    cases hcap : (a.person i).isCaptain <;> simpa [hx, hcap, EventOk] using this
  | signal hst =>
    refine h.cons (hl.captain i (hl.sailing i _ hst) ?_ ?_) hc <;> simp [hst, Stage.rank]
  | land hst | landLast hst => exact h.cons (ha.all_assigned hl hst) hc
  | finish hst =>
    exact h.cons ⟨fun j => hl.landed j (le_trans (by omega) (ha.rank_of_leaving hst j)),
      hidle (ha.idle_of_leaving hst)⟩ hc

/-- Everything that is kept by the steps. -/
theorem Reachable.inv (h : a.Reachable) : a.Counts ∧ a.Logged ∧ LogOk a.log := by
  induction h with
  | refl => exact ⟨.init p, .init p, .nil⟩
  | tail _ hs ih =>
    obtain ⟨i, hs⟩ := hs
    obtain ⟨ha, hl, h⟩ := ih
    have ha' := ha.step hs
    have hl' := hl.step ha hs
    exact ⟨ha', hl', hs.logOk ha hl ha' hl' h⟩

end Ferry

end RiverCrossing
