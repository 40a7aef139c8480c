import FitProjects.INC.Fsm
import Mathlib.Data.List.Induction

/-! # Which codes the access terminal accepts

`Phase` is the terminal without its verdict: it takes keys up to the confirming key 15, prints a
message, and waits for key 15 to begin again. `code1` and `code2` are the codes of the door. The
machine follows the phases (`Follows`), and the state it is in while keys are taken is a function
of the keys (`codeState`), so that its verdict is a matter of the language of the accepting state
(`codeState_finishOk_iff`): beside the two codes it holds those that read `code1` with other keys
slipped in before the last two, the words of `Misread`. -/

namespace AccessTerminal

def code1 : List (Fin 16) := [8, 4, 3, 2, 1, 5, 7, 5, 5]

def code2 : List (Fin 16) := [1, 5, 1, 7, 7, 8, 8, 3, 6, 0, 0]

/-- What the terminal is doing. -/
inductive Phase
  | entering (keys : List (Fin 16))
  | printing
  | finished
  deriving DecidableEq

/-- One clock of the terminal, whatever it prints. -/
def Phase.next : Phase → Clock → Phase
  | entering ks, c =>
    match c.press with
    | none => entering ks
    | some k => if k = 15 then printing else entering (ks ++ [k])
  | printing, c => if c.cntOf then finished else printing
  | finished, c => if c.press = some 15 then entering [] else finished

/-- What the terminal is doing after a sequence of clocks. -/
def phase (cs : List Clock) : Phase := cs.foldl Phase.next (.entering [])

theorem phase_concat : phase (cs ++ [c]) = (phase cs).next c := by
  simp [phase]

/-- The states in which a code is being entered. -/
def State.entering : State → Bool
  | test1_9 | printMessageOk | printMessageFail | finish => false
  | _ => true

/-- Key 15 confirms a code. -/
def Config.confirms (m : Config) (c : Clock) : Prop := m.state.entering ∧ c.press = some 15

/-- The terminal's promise for a sequence of clocks: a confirmed code is let through exactly when
it is one of the two, and the message of success is printed for no other reason. -/
def Correct (cs : List Clock) : Prop :=
  ∀ pre c post, cs = pre ++ c :: post →
    ((run pre).confirms c →
      ((run (pre ++ [c])).state = .printMessageOk ↔
        (run pre).keys = code1 ∨ (run pre).keys = code2) ∧
      (¬ ((run pre).keys = code1 ∨ (run pre).keys = code2) →
        (run (pre ++ [c])).state = .printMessageFail)) ∧
    ((run pre).state ≠ .printMessageOk → (run (pre ++ [c])).state = .printMessageOk →
      (run pre).confirms c)

/-- The first code with keys other than 5 slipped in before its last two. -/
def Misread (ks : List (Fin 16)) : Prop :=
  ∃ ws, ws ≠ [] ∧ 5 ∉ ws ∧ ks = [8, 4, 3, 2, 1, 5, 7] ++ ws ++ [5, 5]

/-! ### The states of a code -/

/-- A pressed key while a code is being entered. -/
def press (s : State) (k : Fin 16) : State := nextState s (keyVector (some k)) false

/-- The state that the keys of a code lead to. -/
def codeState (ks : List (Fin 16)) : State := ks.foldl press .test

theorem codeState_concat : codeState (ks ++ [k]) = press (codeState ks) k := by
  simp [codeState]

theorem nextState_some (h : s.entering) :
    nextState s (keyVector (some k)) cntOf = press s k := by
  cases s <;> first | rfl | cases h

theorem nextState_none (h : s.entering) : nextState s (keyVector none) cntOf = s := by
  cases s <;> first | exact testKey_none | rfl | cases h

theorem press_entering (h : s.entering) : ∀ k ≠ 15, (press s k).entering := by
  cases s <;> first | decide | cases h

theorem press_ne_test (h : s.entering) : ∀ k, press s k ≠ .test := by
  cases s <;> first | decide | cases h

/-- The confirming key. -/
theorem press_confirm (h : s.entering) :
    press s 15 = if s = .finishOk then .printMessageOk else .printMessageFail := by
  cases s <;> first | rfl | cases h

/-- The keys that lead to a state. -/
def Reads (ks : List (Fin 16)) : State → Prop
  | .test => ks = []
  | .test1_1 => ks = [8]
  | .test1_2 => ks = [8, 4]
  | .test1_3 => ks = [8, 4, 3]
  | .test1_4 => ks = [8, 4, 3, 2]
  | .test1_5 => ks = [8, 4, 3, 2, 1]
  | .test1_6 => ks = [8, 4, 3, 2, 1, 5]
  | .test1_7 => ∃ ws, 5 ∉ ws ∧ ks = [8, 4, 3, 2, 1, 5, 7] ++ ws
  | .test1_8 => ∃ ws, 5 ∉ ws ∧ ks = [8, 4, 3, 2, 1, 5, 7] ++ ws ++ [5]
  | .test2_1 => ks = [1]
  | .test2_2 => ks = [1, 5]
  | .test2_3 => ks = [1, 5, 1]
  | .test2_4 => ks = [1, 5, 1, 7]
  | .test2_5 => ks = [1, 5, 1, 7, 7]
  | .test2_6 => ks = [1, 5, 1, 7, 7, 8]
  | .test2_7 => ks = [1, 5, 1, 7, 7, 8, 8]
  | .test2_8 => ks = [1, 5, 1, 7, 7, 8, 8, 3]
  | .test2_9 => ks = [1, 5, 1, 7, 7, 8, 8, 3, 6]
  | .test2_10 => ks = [1, 5, 1, 7, 7, 8, 8, 3, 6, 0]
  | .finishOk => (∃ ws, 5 ∉ ws ∧ ks = [8, 4, 3, 2, 1, 5, 7] ++ ws ++ [5, 5]) ∨ ks = code2
  | _ => True

theorem press_test : ∀ k ≠ 15, press .test k =
    if k = 8 then .test1_1 else if k = 1 then .test2_1 else .finishFail := by
  decide

theorem press_test1_7 : ∀ k ≠ 15, press .test1_7 k = if k = 5 then .test1_8 else .test1_7 := by
  decide

theorem press_finishOk : ∀ k ≠ 15, press .finishOk k = .finishFail := by
  decide

theorem press_finishFail : ∀ k ≠ 15, press .finishFail k = .finishFail := by
  decide

/-- One more key. -/
theorem Reads.concat (h : Reads ks s) (hs : s.entering) (hk : k ≠ 15) :
    Reads (ks ++ [k]) (press s k) := by
  cases s with
  | test =>
    cases h
    rw [press_test k hk]
    split
    · simpa [Reads]
    · split
      · simpa [Reads]
      · trivial
  | test1_7 =>
    obtain ⟨ws, hws, rfl⟩ := h
    rw [press_test1_7 k hk]
    split
    next hk5 => exact ⟨ws, hws, by rw [hk5]⟩
    next hk5 => exact ⟨ws ++ [k], by simp [hws, Ne.symm hk5], List.append_assoc ..⟩
  | test1_8 =>
    obtain ⟨ws, hws, rfl⟩ := h
    simp (disch := decide) only [press, nextState, testKey_some, if_neg hk]
    split
    next hk5 => exact .inl ⟨ws, hws, by simp [hk5]⟩
    next => trivial
  | finishOk => rw [press_finishOk k hk]; trivial
  | finishFail => rw [press_finishFail k hk]; trivial
  | test1_9 | printMessageOk | printMessageFail | finish => cases hs
  | _ =>
    cases h
    simp (disch := decide) only [press, nextState, testKey_some, if_neg hk]
    split
    · simpa [Reads, code2]
    · trivial

theorem codeState_entering (h : 15 ∉ ks) : (codeState ks).entering := by
  induction ks using List.reverseRecOn with
  | nil => rfl
  | append_singleton ks k ih =>
    rw [List.mem_append, List.mem_singleton, not_or] at h
    rw [codeState_concat]
    exact press_entering (ih h.1) k (Ne.symm h.2)

theorem reads_codeState (h : 15 ∉ ks) : Reads ks (codeState ks) := by
  induction ks using List.reverseRecOn with
  | nil => rfl
  | append_singleton ks k ih =>
    rw [List.mem_append, List.mem_singleton, not_or] at h
    rw [codeState_concat]
    exact (ih h.1).concat (codeState_entering h.1) (Ne.symm h.2)

/-- In `TEST1_7` the machine waits for a 5, and lets every other key pass. -/
theorem foldl_press_test1_7 {ws : List (Fin 16)} (h5 : 5 ∉ ws) (h15 : 15 ∉ ws) :
    ws.foldl press .test1_7 = .test1_7 := by
  induction ws with
  | nil => rfl
  | cons k ws ih =>
    rw [List.mem_cons, not_or] at h5 h15
    rw [List.foldl_cons, press_test1_7 k (Ne.symm h15.1), if_neg (Ne.symm h5.1)]
    exact ih h5.2 h15.2

/-- The language of the accepting state. -/
theorem codeState_finishOk_iff (h : 15 ∉ ks) :
    codeState ks = .finishOk ↔ (ks = code1 ∨ ks = code2) ∨ Misread ks := by
  constructor
  · intro hs
    have hr := reads_codeState h
    rw [hs] at hr
    rcases hr with ⟨ws, hws, rfl⟩ | rfl
    · by_cases hn : ws = []
      · exact .inl (.inl (by simp [hn, code1]))
      · exact .inr ⟨ws, hn, hws, rfl⟩
    · exact .inl (.inr rfl)
  · rintro ((rfl | rfl) | ⟨ws, hn, h5, rfl⟩)
    · decide
    · decide
    · have h15 : 15 ∉ ws := fun hw => h (by simp [hw])
      rw [codeState, List.foldl_append, List.foldl_append,
        show List.foldl press .test [8, 4, 3, 2, 1, 5, 7] = .test1_7 by decide,
        foldl_press_test1_7 h5 h15]
      decide

theorem Misread.ne_code (h : Misread ks) : ¬ (ks = code1 ∨ ks = code2) := by
  obtain ⟨ws, hn, h5, rfl⟩ := h
  rintro (h | h)
  · have hpos := List.length_pos_iff.mpr hn
    have hlen := congrArg List.length h
    simp only [code1, List.length_append, List.length_cons, List.length_nil] at hlen
    omega
  · simp [code2] at h

/-! ### The phases of the machine -/

/-- The machine does what the terminal does. -/
def Follows (m : Config) : Phase → Prop
  | .entering ks => m.keys = ks ∧ 15 ∉ ks ∧ m.state = codeState ks
  | .printing => m.state = .printMessageOk ∨ m.state = .printMessageFail
  | .finished => m.state = .finish

theorem Config.clock_state (m : Config) (c : Clock) :
    (m.clock c).state = nextState m.state (keyVector c.press) c.cntOf := rfl

theorem Follows.clock (h : Follows m p) : Follows (m.clock c) (p.next c) := by
  cases p with
  | entering ks =>
    obtain ⟨rfl, h15, hs⟩ := h
    have he := codeState_entering h15
    rw [← hs] at he
    obtain ⟨press, cntOf⟩ := c
    cases press with
    | none =>
      have hnext : nextState m.state (keyVector none) cntOf = m.state := nextState_none he
      refine ⟨?_, h15, ?_⟩
      · simp [Config.clock, hnext, syncLogic, Clock.digits]
      · rw [Config.clock_state, hnext, hs]
    | some k =>
      have hnext : nextState m.state (keyVector (some k)) cntOf = press m.state k :=
        nextState_some he
      by_cases hk : k = 15
      · subst hk
        simp only [Phase.next, if_true, Follows, Config.clock_state, hnext, press_confirm he]
        split
        · exact .inl rfl
        · exact .inr rfl
      · simp only [Phase.next, if_neg hk]
        refine ⟨?_, ?_, ?_⟩
        · simp [Config.clock, hnext, syncLogic, Clock.digits, press_ne_test he, hk]
        · simp [h15, Ne.symm hk]
        · rw [Config.clock_state, hnext, codeState_concat, hs]
  | printing =>
    cases hc : c.cntOf <;> rcases h with h | h <;>
      simp [Phase.next, Follows, Config.clock_state, h, hc, nextState]
  | finished =>
    have hs : m.state = .finish := h
    by_cases hc : c.press = some 15
    · have hnext : (m.clock c).state = .test := by
        rw [Config.clock_state, hs, hc]
        rfl
      rw [Phase.next, if_pos hc]
      refine ⟨?_, List.not_mem_nil, hnext⟩
      exact if_pos ⟨hnext, by simp [hs]⟩
    · rw [Phase.next, if_neg hc, Follows, Config.clock_state, hs]
      have hkey : (keyVector c.press).getLsbD 15 = false := by
        rw [keyVector_confirm, decide_eq_false hc]
      simp only [nextState, hkey, Bool.false_eq_true, if_false]

/-- The machine is always in the phase of the terminal. -/
theorem follows_run (cs : List Clock) : Follows (run cs) (phase cs) := by
  induction cs using List.reverseRecOn with
  | nil => exact ⟨rfl, List.not_mem_nil, rfl⟩
  | append_singleton cs c ih =>
    rw [run_concat, phase_concat]
    exact ih.clock

theorem Follows.entering_of_confirms (h : Follows m p) (hc : m.confirms c) :
    p = .entering m.keys := by
  have he := hc.1
  cases p with
  | entering ks => rw [h.1]
  | printing => rcases h with h | h <;> (rw [h] at he; cases he)
  | finished => rw [show m.state = .finish from h] at he; cases he

/-- A confirmed code is let through exactly when it leads to the accepting state. -/
theorem clock_confirms (h : Follows m p) (hc : m.confirms c) :
    (m.clock c).state = .printMessageOk ∧ codeState m.keys = .finishOk ∨
      (m.clock c).state = .printMessageFail ∧ codeState m.keys ≠ .finishOk := by
  obtain rfl := h.entering_of_confirms hc
  rw [Config.clock_state, hc.2, nextState_some hc.1, press_confirm hc.1, h.2.2]
  split
  next hs => exact .inl ⟨rfl, hs⟩
  next hs => exact .inr ⟨rfl, hs⟩

/-- The message of success is entered by a confirmation only. -/
theorem clock_printMessageOk (m : Config) (c : Clock) (hm : m.state ≠ .printMessageOk)
    (hok : (m.clock c).state = .printMessageOk) : m.confirms c := by
  obtain ⟨hs, hkey⟩ := nextState_printMessageOk hm hok
  rw [keyVector_confirm, decide_eq_true_eq] at hkey
  exact ⟨by rw [hs]; rfl, hkey⟩

/-- A terminal that keeps its promise is not shown a misread code. -/
theorem Correct.not_misread (h : Correct cs) (pre : List Clock) (c : Clock) (post : List Clock)
    (hcs : cs = pre ++ c :: post) (hphase : phase pre = .entering ks) (hpress : c.press = some 15) :
    ¬ Misread ks := by
  intro hmis
  obtain ⟨hkeys, h15, hs⟩ : Follows (run pre) (.entering ks) := hphase ▸ follows_run pre
  have hconfirm : (run pre).confirms c := ⟨by rw [hs]; exact codeState_entering h15, hpress⟩
  have hfin : codeState (run pre).keys = .finishOk :=
    hkeys ▸ (codeState_finishOk_iff h15).mpr (.inr hmis)
  have hok : (run (pre ++ [c])).state = .printMessageOk := by
    rw [run_concat]
    rcases clock_confirms (follows_run pre) hconfirm with ⟨hst, _⟩ | ⟨_, hne⟩
    · exact hst
    · exact absurd hfin hne
  have hcode := ((h pre c post hcs).1 hconfirm).1.mp hok
  rw [hkeys] at hcode
  exact hmis.ne_code hcode

/-- What is confirmed when no code is misread. -/
theorem correct_of_not_misread (h : ∀ pre c post ks, cs = pre ++ c :: post →
    phase pre = .entering ks → c.press = some 15 → ¬ Misread ks) : Correct cs := by
  intro pre c post hcs
  rw [run_concat]
  refine ⟨fun hconfirm => ?_, clock_printMessageOk _ _⟩
  have hphase := (follows_run pre).entering_of_confirms hconfirm
  obtain ⟨_, h15, _⟩ : Follows (run pre) (.entering (run pre).keys) := hphase ▸ follows_run pre
  have hlang := codeState_finishOk_iff h15
  have hmis := h pre c post _ hcs hphase hconfirm.2
  rcases clock_confirms (follows_run pre) hconfirm with ⟨hst, hfin⟩ | ⟨hst, hfin⟩
  · have hcode := (hlang.mp hfin).resolve_right hmis
    exact ⟨by simp [hst, hcode], fun hn => absurd hcode hn⟩
  · have hcode : ¬ ((run pre).keys = code1 ∨ (run pre).keys = code2) :=
      fun hcode => hfin (hlang.mpr (.inl hcode))
    exact ⟨by simp [hst, hcode], fun _ => hst⟩

/-- The terminal keeps its promise exactly on the sequences in which no misread code is
confirmed. -/
theorem correct_iff (cs : List Clock) : Correct cs ↔
    ∀ pre c post ks, cs = pre ++ c :: post → phase pre = .entering ks → c.press = some 15 →
      ¬ Misread ks :=
  ⟨fun h pre c post _ => h.not_misread pre c post, correct_of_not_misread⟩

/-- Keys pressed for one clock each, with a clock in between. -/
def presses (ks : List (Fin 16)) : List Clock :=
  ks.flatMap fun k => [⟨some k, false⟩, ⟨none, false⟩]

/-- The code 8, 4, 3, 2, 1, 5, 7, 0, 5, 5 opens the door. -/
theorem misread_opens : ¬ Correct (presses [8, 4, 3, 2, 1, 5, 7, 0, 5, 5, 15]) := by
  intro h
  have hmis : Misread [8, 4, 3, 2, 1, 5, 7, 0, 5, 5] := ⟨[0], by decide, by decide, rfl⟩
  refine h.not_misread (presses [8, 4, 3, 2, 1, 5, 7, 0, 5, 5]) ⟨some 15, false⟩
    [⟨none, false⟩] rfl ?_ rfl hmis
  decide

end AccessTerminal
