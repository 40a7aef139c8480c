import FitProjects.IMS.CellularAutomaton
import Mathlib.Tactic.Linarith
import Mathlib.Tactic.NormNum
import Mathlib.Algebra.BigOperators.Group.Finset.Basic

/-! # The accounting of the cellular automaton

What one call of `gen` writes, what the loops over the lattice make of it, and what holds after every
number of steps, whatever is drawn at random, as long as an `int` can count the cells and the
steps. -/

namespace CellularAutomaton

open Torus

variable {m : ℕ} {rand : Random} {ca ca' : CA m} {p : Place m} {cell : Cell}

/-! ## The neighbours -/

theorem Lattice.at?_val (cells : Lattice m) (a b : Fin m) :
    cells.at? a.val b.val = some (cells (a, b)) := by
  have ha := a.isLt
  have hb := b.isLt
  rw [Lattice.at?, dif_pos (by omega)]
  rfl

theorem wrap_val (x : Fin m) : wrap m x.val = x.val := by
  have hx := x.isLt
  rw [wrap, if_neg (by omega), if_neg (by omega)]

theorem wrap_sub_one (x : Fin m) : wrap m (x.val - 1) = (pred x).val := by
  have hx := x.isLt
  rw [wrap, pred_val]
  split
  case isTrue h => rw [if_pos (by omega)]; omega
  case isFalse h => rw [if_neg (by omega), if_neg (by omega)]; omega

theorem wrap_add_one (x : Fin m) : wrap m (x.val + 1) = (succ x).val := by
  have hx := x.isLt
  rw [wrap, succ_val, if_neg (by omega)]
  split
  case isTrue h => rw [if_pos (by omega)]; rfl
  case isFalse h => rw [if_neg (by omega)]; rfl

/-- The loop adds up the two kinds of infected cells. -/
theorem foldl_tally (l : List Cell) (infected : InfectedCells) :
    l.foldl InfectedCells.tally infected =
      ⟨infected.R + l.countP (fun c => c.state = .infectedR),
        infected.S + l.countP (fun c => c.state = .infectedS)⟩ := by
  induction l generalizing infected with
  | nil => simp
  | cons c l ih =>
    rw [List.foldl_cons, ih, InfectedCells.tally]
    cases hc : c.state <;> simp [hc] <;> omega

/-- The infected cells of one kind among the neighbours. -/
def infectedAround (cells : Lattice m) (p : Place m) (s : State) : ℕ :=
  (Finset.univ.filter fun q => Neighbour p q ∧ (cells q).state = s).card

theorem countInfectedNeighbors_eq (hm : 3 ≤ m) (cells : Lattice m) (p : Place m) :
    countInfectedNeighbors cells p.1.val p.2.val =
      some ⟨infectedAround cells p .infectedR, infectedAround cells p .infectedS⟩ := by
  obtain ⟨x, y⟩ := p
  have hx := x.isLt
  have hy := y.isLt
  have hloop : countInfectedNeighbors cells x.val y.val =
      some (((neighbours (x, y)).map cells).foldl InfectedCells.tally ⟨0, 0⟩) := by
    rw [countInfectedNeighbors, if_neg (by omega)]
    simp [neighbours, wrap_val, wrap_sub_one, wrap_add_one, Lattice.at?_val]
  rw [hloop, foldl_tally, List.countP_map, List.countP_map]
  simp only [Function.comp_def, countP_neighbours hm, infectedAround, Int.zero_add]

theorem infectedAround_le (hm : 3 ≤ m) (cells : Lattice m) (p : Place m) :
    infectedAround cells p .infectedR + infectedAround cells p .infectedS ≤ 8 := by
  rw [← card_neighbours hm p, infectedAround, infectedAround, ← Finset.card_union_of_disjoint]
  · refine Finset.card_le_card fun q hq => ?_
    simp only [Finset.mem_union, Finset.mem_filter] at hq ⊢
    exact ⟨Finset.mem_univ q, hq.elim (·.2.1) (·.2.1)⟩
  · rw [Finset.disjoint_filter]
    intro q _ hr hs
    rw [hr.2] at hs
    cases hs.2

/-! ## Counting with an `int` -/

theorem int_of_range {n : ℤ} (hlow : -2 ^ 31 ≤ n) (hhigh : n < 2 ^ 31) : int n = n :=
  Int.bmod_eq_of_le (by omega) (by omega)

theorem int_zero : int 0 = 0 := rfl

theorem int_int_add (a b : ℤ) : int (int a + b) = int (a + b) := Int.bmod_add_bmod

/-- Counting on a map keeps the exact numbers up to the wrap around. -/
theorem add_int (exact : State → ℤ) (s : State) (n : ℤ) :
    add (fun s => int (exact s)) s n = fun s' => int (exact s' + if s = s' then n else 0) := by
  funext s'
  by_cases h : s = s'
  · rw [if_pos h, ← h, add, Function.update_self, int_int_add]
  · rw [if_neg h, add, Function.update_of_ne (Ne.symm h), add_zero]

/-- In step `k + 1` the statistics of the step before are there. -/
theorem previous?_isSome {k : ℕ} (hstep : ca.step = k + 1) (hk : k + 1 < 2 ^ 31)
    (hlen : k < ca.statistics.length) : ca.previous?.isSome := by
  have hprev : int (ca.step - 1) = k := by
    rw [hstep, add_sub_cancel_right]
    exact int_of_range (by omega) (by omega)
  rw [CA.previous?, hprev, if_pos (Int.natCast_nonneg k), Int.toNat_natCast,
    List.getElem?_eq_getElem hlen]
  rfl

/-! ## One cell -/

/-- The cell has not reached the lifespan of its state. -/
def Cell.Young (c : Cell) : Prop := ∀ n, lifespan c.state = some n → c.lifeTime < n

/-- From `ca` to `ca'` a cell was written to `p` in the next lattice. -/
structure Writes (p : Place m) (ca ca' : CA m) : Prop where
  next : ∃ c : Cell, ca'.nextCells = Function.update ca.nextCells p c ∧ c.Young
  statistics : ca'.statistics = ca.statistics
  step : ca'.step = ca.step

theorem young_of_state (s : State) : (⟨s, 0⟩ : Cell).Young := by
  intro n hn
  cases s <;> cases hn <;> decide

theorem checkProbability_eq (ca : CA m) (rand : Random) {chance : ℚ} (h0 : 0 ≤ chance)
    (h1 : chance ≤ 1) :
    ca.checkProbability rand chance =
      some (decide (rand.distribution ca.drawn ≤ chance), { ca with drawn := ca.drawn + 1 }) :=
  if_pos ⟨h0, h1⟩

theorem writes_setNext {c : Cell} (hc : c.Young) (hnext : ca'.nextCells = ca.nextCells)
    (hstat : ca'.statistics = ca.statistics) (hstep : ca'.step = ca.step) :
    Writes p ca (ca'.setNext p c) :=
  ⟨⟨c, by rw [CA.setNext, hnext], hc⟩, hstat, hstep⟩

theorem genHealthy_writes (rand : Random) (hm : 3 ≤ m) (hcell : cell.Young)
    (hstate : cell.state = .healthyR ∨ cell.state = .healthyS) :
    ∃ ca', ca.genHealthy rand p cell = some ca' ∧ Writes p ca ca' := by
  have hle := infectedAround_le hm ca.actualCells p
  generalize hR : infectedAround ca.actualCells p .infectedR = R at hle
  generalize hS : infectedAround ca.actualCells p .infectedS = S at hle
  have hle' : (R : ℚ) + S ≤ 8 := by exact_mod_cast hle
  have hR0 : (0 : ℚ) ≤ R := Nat.cast_nonneg R
  have hS0 : (0 : ℚ) ≤ S := Nat.cast_nonneg S
  have hchance : 0 ≤ infectRateR * ((R : ℤ) / 8) + infectRateS * ((S : ℤ) / 8) ∧
      infectRateR * ((R : ℤ) / 8) + infectRateS * ((S : ℤ) / 8) ≤ 1 := by
    rw [infectRateR, infectRateS]
    push_cast
    constructor <;> linarith
  have hprob := checkProbability_eq ca rand hchance.1 hchance.2
  rw [CA.genHealthy, countInfectedNeighbors_eq hm, hR, hS]
  simp only [Option.bind_eq_bind, Option.bind_some, hprob]
  split
  · rcases hstate with hs | hs
    · rw [hs]
      exact ⟨_, rfl, writes_setNext (young_of_state _) rfl rfl rfl⟩
    · rw [hs]
      exact ⟨_, rfl, writes_setNext (young_of_state _) rfl rfl rfl⟩
  · exact ⟨_, rfl, writes_setNext hcell rfl rfl rfl⟩

theorem genInfected_writes (rand : Random) (hcell : cell.Young)
    (hstate : cell.state = .infectedR ∨ cell.state = .infectedS) :
    ∃ ca', ca.genInfected rand p cell = some ca' ∧ Writes p ca ca' := by
  have hrate₁ : 0 ≤ inverseRate1 ∧ inverseRate1 ≤ 1 := by norm_num [inverseRate1]
  have hrate₂ : 0 ≤ inverseRate2 ∧ inverseRate2 ≤ 1 := by norm_num [inverseRate2]
  simp only [CA.genInfected, checkProbability_eq _ _ hrate₁.1 hrate₁.2,
    checkProbability_eq _ _ hrate₂.1 hrate₂.2, Option.bind_eq_bind, Option.bind_some]
  split
  · rcases hstate with hs | hs
    · rw [hs]
      exact ⟨_, rfl, writes_setNext (young_of_state _) rfl rfl rfl⟩
    · rw [hs]
      exact ⟨_, rfl, writes_setNext (young_of_state _) rfl rfl rfl⟩
  · split
    · exact ⟨_, rfl, writes_setNext (young_of_state _) rfl rfl rfl⟩
    · exact ⟨_, rfl, writes_setNext hcell rfl rfl rfl⟩

theorem genDead_writes (rand : Random) (hcell : cell.Young) :
    ∃ ca', ca.genDead rand p cell = some ca' ∧ Writes p ca ca' := by
  have hrate₁ : 0 ≤ replenishment ∧ replenishment ≤ 1 := by norm_num [replenishment]
  have hrate₂ : 0 ≤ infection ∧ infection ≤ 1 := by norm_num [infection]
  simp only [CA.genDead, checkProbability_eq _ _ hrate₁.1 hrate₁.2,
    checkProbability_eq _ _ hrate₂.1 hrate₂.2, Option.bind_eq_bind, Option.bind_some]
  split
  · exact ⟨_, rfl, writes_setNext (young_of_state _) rfl rfl rfl⟩
  · exact ⟨_, rfl, writes_setNext hcell rfl rfl rfl⟩

/-- A cell that passes the check of its life is young. -/
theorem young_of_check (h : ¬(cell.state ≠ .dead ∧ checkCellLife cell.state cell.lifeTime = false)) :
    cell.Young := by
  intro n hn
  have hne : cell.state ≠ .dead := by
    intro heq
    rw [heq] at hn
    cases hn
  have hcheck : checkCellLife cell.state cell.lifeTime = true := by
    simpa [hne] using h
  rw [checkCellLife, hn] at hcheck
  exact of_decide_eq_true hcheck

/-- On each of its exits `gen` writes one young cell. -/
theorem gen_writes (rand : Random) (hm : 3 ≤ m) (hstat : ca.previous?.isSome) (p : Place m) :
    ∃ ca', ca.gen rand p = some ca' ∧ Writes p ca ca' := by
  obtain ⟨map, hmap⟩ := Option.isSome_iff_exists.mp hstat
  rw [CA.gen, hmap, Option.bind_eq_bind, Option.bind_some]
  generalize hcell :
    ({ ca.actualCells p with lifeTime := int ((ca.actualCells p).lifeTime + 1) } : Cell) = cell
  -- ageing the cell leaves the next lattice alone
  have haged : ∀ {ca'},
      Writes p { ca with actualCells := Function.update ca.actualCells p cell } ca' →
        Writes p ca ca' := fun h => ⟨h.next, h.statistics, h.step⟩
  dsimp only
  split
  case isTrue => exact ⟨_, rfl, writes_setNext (young_of_state _) rfl rfl rfl⟩
  case isFalse hlife =>
    have hyoung := young_of_check hlife
    cases hs : cell.state with
    | healthyR =>
      dsimp only
      split
      · refine ⟨_, rfl, writes_setNext (fun n hn => hyoung n ?_) rfl rfl rfl⟩
        rw [hs]
        exact hn
      · obtain ⟨ca', hgen, hwrites⟩ := genHealthy_writes rand hm hyoung (.inl hs)
        exact ⟨ca', hgen, haged hwrites⟩
    | healthyS =>
      obtain ⟨ca', hgen, hwrites⟩ := genHealthy_writes rand hm hyoung (.inr hs)
      exact ⟨ca', hgen, haged hwrites⟩
    | infectedR =>
      obtain ⟨ca', hgen, hwrites⟩ := genInfected_writes rand hyoung (.inl hs)
      exact ⟨ca', hgen, haged hwrites⟩
    | infectedS =>
      obtain ⟨ca', hgen, hwrites⟩ := genInfected_writes rand hyoung (.inr hs)
      exact ⟨ca', hgen, haged hwrites⟩
    | defInfected => exact ⟨_, rfl, writes_setNext hyoung rfl rfl rfl⟩
    | dead =>
      obtain ⟨ca', hgen, hwrites⟩ := genDead_writes rand hyoung
      exact ⟨ca', hgen, haged hwrites⟩

/-! ## Whole lattices -/

/-- How many cells are in state `s`. -/
def censusOf (cells : Lattice m) (s : State) : ℤ :=
  (Finset.univ.filter fun p => (cells p).state = s).card

theorem countP_places (cells : Lattice m) (s : State) :
    ((places m).countP fun p => (cells p).state = s) = censusOf cells s := by
  have heq : (Finset.univ.filter fun p => (cells p).state = s) =
      ((places m).filter fun p => (cells p).state = s).toFinset := by
    ext p
    simp [mem_places]
  rw [censusOf, heq, List.toFinset_card_of_nodup ((nodup_places m).filter _),
    List.countP_eq_length_filter]

/-- The states of all cells are counted. -/
theorem sum_censusOf (cells : Lattice m) :
    (State.all.map (censusOf cells)).sum = m * m := by
  have hfiber : ∑ s ∈ State.all.toFinset, (Finset.univ.filter fun p => (cells p).state = s).card =
      Fintype.card (Place m) := by
    refine (Finset.card_eq_sum_card_fiberwise fun p _ => ?_).symm
    cases (cells p).state <;> decide
  rw [List.sum_toFinset _ (by decide), Fintype.card_prod, Fintype.card_fin] at hfiber
  have hcast := congrArg (Nat.cast : ℕ → ℤ) hfiber
  simpa [State.all, censusOf] using hcast

theorem censusOf_nonneg (cells : Lattice m) (s : State) : 0 ≤ censusOf cells s :=
  Int.natCast_nonneg _

theorem censusOf_le (cells : Lattice m) (s : State) : censusOf cells s ≤ m * m := by
  have hle := Finset.card_le_univ (Finset.univ.filter fun p => (cells p).state = s)
  rw [Fintype.card_prod, Fintype.card_fin] at hle
  rw [censusOf]
  exact_mod_cast hle

/-- An `int` that can count all cells can count those of one state. -/
theorem int_censusOf (hcells : m * m < 2 ^ 31) (cells : Lattice m) (s : State) :
    int (censusOf cells s) = censusOf cells s := by
  have hle := censusOf_le cells s
  have hcells' : (m * m : ℤ) < 2 ^ 31 := by exact_mod_cast hcells
  exact int_of_range (le_trans (by norm_num) (censusOf_nonneg cells s)) (lt_of_le_of_lt hle hcells')

/-- A loop over the cells writes young cells to the next lattice and counts their states. -/
theorem foldlM_nextCell (rand : Random) (hm : 3 ≤ m) (l : List (Place m)) (hl : l.Nodup)
    (hstat : ca.previous?.isSome) (exact : State → ℤ) :
    ∃ ca', l.foldlM (CA.nextCell rand) (ca, fun s => int (exact s)) =
        some (ca', fun s => int (exact s + l.countP fun p => (ca'.nextCells p).state = s)) ∧
      ca'.statistics = ca.statistics ∧ ca'.step = ca.step ∧
      (∀ p ∉ l, ca'.nextCells p = ca.nextCells p) ∧ ∀ p ∈ l, (ca'.nextCells p).Young := by
  induction l generalizing ca exact with
  | nil => exact ⟨ca, by simp, rfl, rfl, fun _ _ => rfl, nofun⟩
  | cons p l ih =>
    obtain ⟨hp, hl⟩ := List.nodup_cons.mp hl
    obtain ⟨ca₁, hgen, ⟨c, hnext, hyoung⟩, hstat₁, hstep₁⟩ := gen_writes rand hm hstat p
    have hcell : ca₁.nextCells p = c := by rw [hnext, Function.update_self]
    obtain ⟨ca₂, hfold, hstat₂, hstep₂, hkeep, hall⟩ :=
      ih hl (by rwa [CA.previous?, hstep₁, hstat₁]) fun s => exact s + if c.state = s then 1 else 0
    have hcell₂ : ca₂.nextCells p = c := (hkeep p hp).trans hcell
    refine ⟨ca₂, ?_, hstat₂.trans hstat₁, hstep₂.trans hstep₁, ?_, ?_⟩
    · have hstep : CA.nextCell rand (ca, fun s => int (exact s)) p =
          some (ca₁, fun s => int (exact s + if c.state = s then 1 else 0)) := by
        rw [CA.nextCell, hgen, Option.bind_eq_bind, Option.bind_some, hcell, add_int]
      rw [List.foldlM_cons, hstep, Option.bind_eq_bind, Option.bind_some, hfold]
      refine congrArg some (congrArg (Prod.mk ca₂) (funext fun s => congrArg int ?_))
      rw [List.countP_cons, hcell₂, add_assoc]
      by_cases hs : c.state = s <;> simp [hs, add_comm]
    · intro q hq
      rw [List.mem_cons, not_or] at hq
      rw [hkeep q hq.2, hnext, Function.update_of_ne hq.1]
    · intro q hq
      rcases List.mem_cons.mp hq with rfl | hq
      · rwa [hcell₂]
      · exact hall q hq

/-- Step `k + 1`: the new lattice is young, and its census is recorded. -/
theorem nextStep_spec (rand : Random) (hm : 3 ≤ m) {k : ℕ} (hstep : ca.step = k)
    (hk : k + 1 < 2 ^ 31) (hlen : ca.statistics.length = k + 1) :
    ∃ ca', ca.nextStep rand = some ca' ∧
      ca'.statistics = ca.statistics ++ [fun s => int (censusOf ca'.actualCells s)] ∧
      ca'.step = (k + 1 : ℕ) ∧ ∀ p, (ca'.actualCells p).Young := by
  have hnew : int (ca.step + 1) = k + 1 := by
    rw [hstep]
    exact int_of_range (by omega) (by omega)
  have hprevious :
      ({ ca with step := int (ca.step + 1), counter := fun _ => 0 } : CA m).previous?.isSome :=
    previous?_isSome hnew hk (by rw [hlen]; exact Nat.lt_succ_self k)
  obtain ⟨ca₁, hfold, hstat₁, hstep₁, -, hyoung⟩ :=
    foldlM_nextCell rand hm (places m) (nodup_places m) hprevious fun _ => 0
  simp only [zero_add, countP_places, int_zero] at hfold
  refine ⟨{ ca₁ with
    actualCells := ca₁.nextCells
    nextCells := ca₁.actualCells
    statistics := ca₁.statistics ++ [fun s => int (censusOf ca₁.nextCells s)] },
    ?_, ?_, hstep₁.trans hnew, fun p => hyoung p (mem_places p)⟩
  · rw [CA.nextStep, hfold]
    rfl
  · change ca₁.statistics ++ _ = _
    rw [hstat₁]

/-- The state that `generateLattice` gives to a cell when the draws start with number `drawn`. -/
def generated (rand : Random) (rRate : ℚ) (drawn : ℕ) : State :=
  if rand.distribution drawn ≤ rRate then
    if rand.distribution (drawn + 1) ≤ hbv then .infectedR else .healthyR
  else if rand.distribution (drawn + 1) ≤ hbv then .infectedS else .healthyS

/-- A loop of `generateLattice` writes the cells and counts their states. -/
theorem foldlM_generateCell (rand : Random) {rRate : ℚ} (h0 : 0 ≤ rRate) (h1 : rRate ≤ 1)
    (l : List (Place m)) (hl : l.Nodup) (ca : CA m) (exact : State → ℤ) :
    ∃ ca', l.foldlM (CA.generateCell rand rRate) (ca, fun s => int (exact s)) =
        some (ca', fun s => int (exact s + l.countP fun p => (ca'.actualCells p).state = s)) ∧
      ca'.statistics = ca.statistics ∧ ca'.step = ca.step ∧
      (∀ p ∉ l, ca'.actualCells p = ca.actualCells p) ∧
      ∀ p ∈ l, ∃ drawn, (ca'.actualCells p).state = generated rand rRate drawn := by
  have hhbv : 0 ≤ hbv ∧ hbv ≤ 1 := by norm_num [hbv]
  induction l generalizing ca exact with
  | nil => exact ⟨ca, by simp, rfl, rfl, fun _ _ => rfl, nofun⟩
  | cons p l ih =>
    obtain ⟨hp, hl⟩ := List.nodup_cons.mp hl
    obtain ⟨c, drawn, hgen, hstate⟩ : ∃ c drawn,
        CA.generateCell rand rRate (ca, fun s => int (exact s)) p =
          some ({ ca with actualCells := Function.update ca.actualCells p c, drawn },
            add (fun s => int (exact s)) c.state 1) ∧
        c.state = generated rand rRate ca.drawn := by
      simp only [CA.generateCell, checkProbability_eq _ _ h0 h1,
        checkProbability_eq _ _ hhbv.1 hhbv.2, Option.bind_eq_bind, Option.bind_some]
      refine ⟨⟨_, _⟩, _, rfl, ?_⟩
      simp only [generated, decide_eq_true_eq]
    obtain ⟨ca₂, hfold, hstat₂, hstep₂, hkeep, hall⟩ := ih hl
      { ca with actualCells := Function.update ca.actualCells p c, drawn }
      fun s => exact s + if c.state = s then 1 else 0
    have hcell₂ : ca₂.actualCells p = c := (hkeep p hp).trans (Function.update_self ..)
    refine ⟨ca₂, ?_, hstat₂, hstep₂, ?_, ?_⟩
    · rw [List.foldlM_cons, hgen, add_int, Option.bind_eq_bind, Option.bind_some, hfold]
      refine congrArg some (congrArg (Prod.mk ca₂) (funext fun s => congrArg int ?_))
      rw [List.countP_cons, hcell₂, add_assoc]
      by_cases hs : c.state = s <;> simp [hs, add_comm]
    · intro q hq
      rw [List.mem_cons, not_or] at hq
      exact (hkeep q hq.2).trans (Function.update_of_ne hq.1 ..)
    · intro q hq
      rcases List.mem_cons.mp hq with rfl | hq
      · exact ⟨ca.drawn, by rw [hcell₂, hstate]⟩
      · exact hall q hq

theorem generateLattice_spec (m : ℕ) (rand : Random) {rRate : ℚ} (h0 : 0 ≤ rRate)
    (h1 : rRate ≤ 1) :
    ∃ ca', (CA.new m).generateLattice rand rRate = some ca' ∧
      ca'.statistics = [fun s => int (censusOf ca'.actualCells s)] ∧ ca'.step = 0 ∧
      ∀ p, ∃ drawn, (ca'.actualCells p).state = generated rand rRate drawn := by
  obtain ⟨ca₁, hfold, hstat₁, hstep₁, -, hall⟩ :=
    foldlM_generateCell rand h0 h1 (places m) (nodup_places m) (CA.new m) fun _ => 0
  simp only [zero_add, countP_places, int_zero] at hfold
  refine ⟨{ ca₁ with
    statistics := ca₁.statistics ++ [fun s => int (censusOf ca₁.actualCells s)] },
    ?_, ?_, hstep₁, fun p => hall p (mem_places p)⟩
  · rw [CA.generateLattice, hfold]
    rfl
  · change ca₁.statistics ++ _ = _
    rw [hstat₁]
    rfl

/-! ## Runs -/

/-- After `n` steps the records are the censuses of the lattices so far, as an `int` has them. -/
theorem run_spec (rand : Random) (hm : 3 ≤ m) {rRate : ℚ} (h0 : 0 ≤ rRate) (h1 : rRate ≤ 1)
    {n : ℕ} (hn : n < 2 ^ 31) :
    ∃ ca, CA.run rand m rRate n = some ca ∧ ca.step = n ∧ ca.statistics.length = n + 1 ∧
      (0 < n → ∀ p, (ca.actualCells p).Young) ∧
      ∀ k ≤ n, ∃ ca', CA.run rand m rRate k = some ca' ∧
        ca.statistics[k]? = some fun s => int (censusOf ca'.actualCells s) := by
  induction n with
  | zero =>
    obtain ⟨ca, hrun, hstat, hstep, -⟩ := generateLattice_spec m rand h0 h1
    refine ⟨ca, hrun, hstep, by rw [hstat]; rfl, fun hn => absurd hn (Nat.lt_irrefl 0), ?_⟩
    intro k hk
    obtain rfl := Nat.le_zero.mp hk
    exact ⟨ca, hrun, by rw [hstat]; rfl⟩
  | succ n ih =>
    obtain ⟨ca, hrun, hstep, hlen, -, hrecords⟩ := ih (Nat.lt_of_succ_lt hn)
    obtain ⟨ca', hnext, hstat', hstep', hyoung⟩ := nextStep_spec rand hm hstep hn hlen
    have hrun' : CA.run rand m rRate (n + 1) = some ca' := by
      rw [CA.run, hrun]
      exact hnext
    refine ⟨ca', hrun', hstep', by rw [hstat', List.length_append, hlen]; rfl,
      fun _ => hyoung, fun k hk => ?_⟩
    rcases Nat.lt_or_eq_of_le hk with hlt | rfl
    · obtain ⟨ca'', hrun'', hrecord⟩ := hrecords k (Nat.le_of_lt_succ hlt)
      exact ⟨ca'', hrun'', by rw [hstat', List.getElem?_append_left (by omega), hrecord]⟩
    · refine ⟨ca', hrun', ?_⟩
      rw [hstat', List.getElem?_append_right (by omega), hlen, Nat.sub_self]
      rfl

/-- Whatever is drawn, on a lattice of side 3 or more whose cells an `int` can count, and in any
number of steps that an `int` can count: no assertion fails; every record is the census of the
lattice at its step, and counts all cells; after the first step no cell is as old as the lifespan of
its state; the infected neighbours of a place are those among the eight places around it. -/
theorem run_accounts (m : ℕ) (hm : 3 ≤ m) (hcells : m * m < 2 ^ 31) (rRate : ℚ) (h0 : 0 ≤ rRate)
    (h1 : rRate ≤ 1) (rand : Random) (n : ℕ) (hn : n < 2 ^ 31) :
    ∃ ca, CA.run rand m rRate n = some ca ∧ ca.statistics.length = n + 1 ∧
      (∀ k ≤ n, ∃ ca' map, CA.run rand m rRate k = some ca' ∧ ca.statistics[k]? = some map ∧
        (∀ s, map s = (Finset.univ.filter fun p => (ca'.actualCells p).state = s).card) ∧
        (State.all.map map).sum = m * m) ∧
      (0 < n → ∀ p, (ca.actualCells p).state ≠ .dead →
        ∃ age, lifespan (ca.actualCells p).state = some age ∧ (ca.actualCells p).lifeTime < age) ∧
      ∀ (cells : Lattice m) (p : Place m), (Finset.univ.filter (Neighbour p)).card = 8 ∧
        countInfectedNeighbors cells p.1.val p.2.val = some
          ⟨(Finset.univ.filter fun q => Neighbour p q ∧ (cells q).state = .infectedR).card,
            (Finset.univ.filter fun q => Neighbour p q ∧ (cells q).state = .infectedS).card⟩ := by
  obtain ⟨ca, hrun, -, hlen, hyoung, hrecords⟩ := run_spec rand hm h0 h1 hn
  refine ⟨ca, hrun, hlen, fun k hk => ?_, fun hn p hdead => ?_, fun cells p =>
    ⟨card_neighbours hm p, countInfectedNeighbors_eq hm cells p⟩⟩
  · obtain ⟨ca', hrun', hrecord⟩ := hrecords k hk
    simp only [int_censusOf hcells] at hrecord
    exact ⟨ca', _, hrun', hrecord, fun s => rfl, sum_censusOf ca'.actualCells⟩
  · cases hage : lifespan (ca.actualCells p).state with
    | some age => exact ⟨age, rfl, hyoung hn p age hage⟩
    | none =>
      refine absurd ?_ hdead
      cases hs : (ca.actualCells p).state <;> rw [hs] at hage <;> first | rfl | cases hage

/-- A lattice of three times three cells, half of them resistant, when every draw is 1/100. -/
theorem run_accounts_three :
    ∃ ca, CA.run ⟨fun _ => 1 / 100, fun _ => 7, fun _ r s => s < r⟩ 3 (1 / 2) 2 = some ca ∧
      ca.statistics.length = 2 + 1 ∧
      (∀ k ≤ 2, ∃ ca' map,
        CA.run ⟨fun _ => 1 / 100, fun _ => 7, fun _ r s => s < r⟩ 3 (1 / 2) k = some ca' ∧
        ca.statistics[k]? = some map ∧
        (∀ s, map s = (Finset.univ.filter fun p => (ca'.actualCells p).state = s).card) ∧
        (State.all.map map).sum = (3 : ℕ) * (3 : ℕ)) ∧
      (0 < 2 → ∀ p, (ca.actualCells p).state ≠ .dead →
        ∃ age, lifespan (ca.actualCells p).state = some age ∧ (ca.actualCells p).lifeTime < age) ∧
      ∀ (cells : Lattice 3) (p : Place 3), (Finset.univ.filter (Neighbour p)).card = 8 ∧
        countInfectedNeighbors cells p.1.val p.2.val = some
          ⟨(Finset.univ.filter fun q => Neighbour p q ∧ (cells q).state = .infectedR).card,
            (Finset.univ.filter fun q => Neighbour p q ∧ (cells q).state = .infectedS).card⟩ :=
  run_accounts 3 (by decide) (by decide) (1 / 2) (by norm_num) (by norm_num) _ 2 (by decide)

/-- All cells of a lattice of side 50000 are resistant and healthy when every draw is 1: there are
more of them than an `int` can count, and the record is a negative number. -/
theorem generateLattice_miscounts :
    ∃ ca map, CA.run ⟨fun _ => 1, fun _ => 0, fun _ _ _ => false⟩ 50000 1 0 = some ca ∧
      ca.statistics[0]? = some map ∧ map .healthyR = -1794967296 ∧
      (Finset.univ.filter fun p => (ca.actualCells p).state = .healthyR).card = 2500000000 := by
  obtain ⟨ca, hrun, hstat, -, hall⟩ := generateLattice_spec 50000
    ⟨fun _ => 1, fun _ => 0, fun _ _ _ => false⟩ zero_le_one (le_refl 1)
  have hhealthy : ∀ p, (ca.actualCells p).state = .healthyR := fun p => by
    obtain ⟨drawn, hstate⟩ := hall p
    rw [hstate, generated, if_pos (le_refl 1), if_neg (by norm_num [hbv])]
  have hcard : (Finset.univ.filter fun p => (ca.actualCells p).state = .healthyR).card =
      2500000000 := by
    rw [Finset.filter_true_of_mem fun p _ => hhealthy p, Finset.card_univ, Fintype.card_prod,
      Fintype.card_fin]
  refine ⟨ca, _, hrun, by rw [hstat]; rfl, ?_, hcard⟩
  rw [censusOf, hcard]
  decide

end CellularAutomaton
