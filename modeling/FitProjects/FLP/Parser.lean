import FitProjects.Lib.ReadP
import FitProjects.Lib.DataList
import FitProjects.FLP.FSM
import Mathlib.Data.List.Sort

/-! # The parser

`FLP/Parser/FSM.hs`. The text of a machine is the line of its states, the line of its initial state,
the line of its final states and a line for each transition. The parser is unambiguous: a name ends
where a comma or a line end comes, a symbol is one character, whichever it is. So it accepts exactly
the texts of machines. -/

namespace FLP

open ReadP

/-- `newLine`. -/
def newLine : ReadP Char := char '\n'

/-- `comma`. -/
def comma : ReadP Char := char ','

/-- A character of a name. -/
def isNameChar (ch : Char) : Bool := ch ≠ ',' && ch ≠ '\n'

def parseState : ReadP State := many1 (satisfy isNameChar)

def parseStates : ReadP (List State) := sepBy1 parseState comma

def parseTransition : ReadP Transition := do
  let fromState ← parseState
  let _ ← comma
  let symbol ← get
  let _ ← comma
  let toState ← parseState
  return ⟨fromState, symbol, toState⟩

def parseTransitions : ReadP (List Transition) := many1 do
  let t ← parseTransition
  let _ ← newLine
  return t

/-- `sort $ nub $ foldr (\x acc -> symbol x : acc) [] trans`. -/
def getAlphabet (trans : List Transition) : List Symbol :=
  DataList.sort (trans.foldr (fun x acc => x.symbol :: acc) []).eraseDups

def fsmParser : ReadP FSM := do
  let states ← parseStates
  let _ ← newLine
  let initialState ← parseState
  let _ ← newLine
  let finalStates ← parseStates
  let _ ← newLine
  let trans ← parseTransitions
  let _ ← eof
  return ⟨getAlphabet trans, states, initialState, finalStates, trans⟩

/-- `parseFSM`: there must be one parse. -/
def parseFSM (s : List Char) : Except String FSM :=
  match fsmParser s with
  | [(fsm, _)] => .ok fsm
  | _ => .error "Parser error"

/-! ## The grammar -/

/-- A name: not empty, without commas and line ends. -/
def IsName (q : State) : Prop := q ≠ [] ∧ ∀ c ∈ q, c ≠ ',' ∧ c ≠ '\n'

/-- `name,c,name` and a line end. -/
def Transition.line (t : Transition) : List Char :=
  t.fromState ++ ',' :: t.symbol :: ',' :: t.toState ++ ['\n']

/-- A comma-separated list. -/
def commaSeparated (names : List State) : List Char := [','].intercalate names

namespace FSM

/-- The text of a machine. -/
def text (f : FSM) : List Char :=
  commaSeparated f.states ++ '\n' :: f.initialState ++ '\n' :: commaSeparated f.finalStates ++
    '\n' :: f.transitions.flatMap Transition.line

/-- The machines that have a text: there are states, final states and transitions, all names are
names, and the alphabet is the sorted list of the symbols. -/
structure Textual (f : FSM) : Prop where
  states : f.states ≠ [] ∧ ∀ q ∈ f.states, IsName q
  initialState : IsName f.initialState
  finalStates : f.finalStates ≠ [] ∧ ∀ q ∈ f.finalStates, IsName q
  transitions : f.transitions ≠ [] ∧ ∀ t ∈ f.transitions, IsName t.fromState ∧ IsName t.toState
  sorted : f.alphabet.Pairwise (· < ·)
  mem_alphabet : ∀ a, a ∈ f.alphabet ↔ ∃ t ∈ f.transitions, t.symbol = a

end FSM

variable {s r : List Char} {f : FSM} {trans : List Transition}

theorem mem_getAlphabet {a : Symbol} : a ∈ getAlphabet trans ↔ ∃ t ∈ trans, t.symbol = a := by
  have hfold : trans.foldr (fun x acc => x.symbol :: acc) [] = trans.map Transition.symbol := by
    induction trans with
    | nil => rfl
    | cons t trans ih => rw [List.foldr_cons, ih, List.map_cons]
  rw [getAlphabet, DataList.mem_sort, List.mem_eraseDups, hfold, List.mem_map]

theorem pairwise_getAlphabet (trans : List Transition) :
    (getAlphabet trans).Pairwise (· < ·) := by
  have hnodup : (getAlphabet trans).Nodup :=
    (DataList.sortOn_perm id _).nodup_iff.mpr (DataList.nodup_eraseDups _)
  exact ((DataList.sortOn_pairwise id _).and hnodup).imp fun h => lt_of_le_of_ne h.1 h.2

/-- A sorted list without repetitions is determined by its elements. -/
theorem eq_getAlphabet {alphabet : List Symbol} : alphabet = getAlphabet trans ↔
    alphabet.Pairwise (· < ·) ∧ ∀ a, a ∈ alphabet ↔ ∃ t ∈ trans, t.symbol = a := by
  constructor
  · rintro rfl
    exact ⟨pairwise_getAlphabet trans, fun a => mem_getAlphabet⟩
  · rintro ⟨hsorted, hmem⟩
    have hperm : alphabet.Perm (getAlphabet trans) := by
      rw [List.perm_ext_iff_of_nodup hsorted.nodup (pairwise_getAlphabet trans).nodup]
      exact fun a => (hmem a).trans mem_getAlphabet.symm
    exact hperm.eq_of_pairwise' hsorted (pairwise_getAlphabet trans)

/-! ## What the parsers read -/

theorem reads_parseState : Reads parseState id IsName := by
  intro q s r
  rw [parseState, (reads_satisfy isNameChar).many1 fun c => List.cons_ne_nil c []]
  simp [IsName, isNameChar]

theorem reads_parseStates :
    Reads parseStates commaSeparated fun names => names ≠ [] ∧ ∀ q ∈ names, IsName q := by
  intro names s r
  rw [parseStates, comma, Reads.sepBy1 reads_parseState]
  simp only [List.map_id, commaSeparated]

theorem reads_parseTransition : Reads parseTransition
    (fun t => t.fromState ++ ',' :: t.symbol :: ',' :: t.toState)
    fun t => IsName t.fromState ∧ IsName t.toState := by
  intro t s r
  simp only [parseTransition, comma, Reads.mem_bind reads_parseState, mem_char_bind, mem_get_bind,
    mem_pure]
  constructor
  · rintro ⟨q, _, hq, rfl, _, rfl, a, _, rfl, _, rfl, q', _, hq', rfl, rfl, rfl⟩
    exact ⟨⟨hq, hq'⟩, by simp⟩
  · rintro ⟨⟨hq, hq'⟩, rfl⟩
    exact ⟨t.fromState, _, hq, List.append_assoc _ _ _, _, rfl, t.symbol, _, rfl, _, rfl,
      t.toState, r, hq', rfl, rfl, rfl⟩

theorem reads_parseTransitions : Reads parseTransitions (List.flatMap Transition.line)
    fun trans => trans ≠ [] ∧ ∀ t ∈ trans, IsName t.fromState ∧ IsName t.toState := by
  refine Reads.many1 (fun t s r => ?_) fun t => by simp [Transition.line]
  simp only [newLine, Reads.mem_bind reads_parseTransition, mem_char_bind, mem_pure]
  constructor
  · rintro ⟨t, _, ht, rfl, _, rfl, rfl, rfl⟩
    exact ⟨ht, by simp [Transition.line]⟩
  · rintro ⟨ht, rfl⟩
    exact ⟨t, '\n' :: r, ht, by simp [Transition.line], r, rfl, rfl, rfl⟩

/-- The parses of the whole input. -/
theorem mem_fsmParser : (f, r) ∈ fsmParser s ↔ (f.Textual ∧ s = f.text) ∧ r = [] := by
  simp only [fsmParser, newLine, Reads.mem_bind reads_parseStates, Reads.mem_bind reads_parseState,
    mem_char_bind, Reads.mem_bind reads_parseTransitions, mem_eof_bind, mem_pure]
  constructor
  · rintro ⟨states, _, hstates, rfl, _, rfl, initialState, _, hinit, rfl, _, rfl, finalStates, _,
      hfinal, rfl, _, rfl, trans, _, htrans, rfl, rfl, rfl, rfl⟩
    obtain ⟨hsorted, hmem⟩ := eq_getAlphabet.mp (Eq.refl (getAlphabet trans))
    exact ⟨⟨⟨hstates, hinit, hfinal, htrans, hsorted, hmem⟩, by simp [FSM.text]⟩, rfl⟩
  · rintro ⟨⟨h, rfl⟩, rfl⟩
    have halphabet := eq_getAlphabet.mpr ⟨h.sorted, h.mem_alphabet⟩
    refine ⟨f.states, '\n' :: (f.initialState ++ '\n' :: (commaSeparated f.finalStates ++
      '\n' :: f.transitions.flatMap Transition.line)), h.states, ?_, _, rfl, f.initialState, _,
      h.initialState, rfl, _, rfl, f.finalStates, _, h.finalStates, rfl, _, rfl, f.transitions, [],
      h.transitions, (List.append_nil _).symm, rfl, ?_, rfl⟩
    · simp [FSM.text]
    · rw [← halphabet]

/-! ## Unambiguity -/

/-- A rest that does not go on with a name. -/
def EndsName (s : List Char) : Prop := ∀ c ∈ s.head?, isNameChar c = false

theorem unambiguous_parseState : Unambiguous parseState EndsName :=
  (Unambiguous.satisfy isNameChar).many1 fun _ => satisfy_eq_nil

theorem endsName_of_char {c : Char} (hc : isNameChar c = false) (h : ∃ s', s = c :: s') :
    EndsName s := by
  obtain ⟨s', rfl⟩ := h
  intro b hb
  obtain rfl := Option.some.inj hb
  exact hc

theorem unambiguous_parseStates : Unambiguous parseStates fun s => ∃ s', s = '\n' :: s' := by
  refine (Unambiguous.mono unambiguous_parseState fun s h => ?_).sepBy1 (.satisfy _) ?_
  · rcases h with h | h
    · exact endsName_of_char (by decide) h
    · exact endsName_of_char (by decide) (char_ne_nil h)
  · rintro _ ⟨s, rfl⟩
    exact satisfy_eq_nil fun c hc => by
      obtain rfl := Option.some.inj hc
      rfl

/-- A name before a character that is in no name. -/
theorem unambiguous_name {c : Char} (hc : isNameChar c = false) :
    Unambiguous parseState fun s => ∃ s', s = c :: s' :=
  Unambiguous.mono unambiguous_parseState fun _ => endsName_of_char hc

theorem unambiguous_parseTransition :
    Unambiguous parseTransition fun s => ∃ s', s = '\n' :: s' := by
  have hcomma : Unambiguous parseState fun s => ∃ s', s = ',' :: s' := unambiguous_name (by decide)
  have hline : Unambiguous parseState fun s => ∃ s', s = '\n' :: s' := unambiguous_name (by decide)
  exact hcomma.bind_char fun q => Unambiguous.get.bind_char fun a =>
    hline.bind_pure fun q' => Transition.mk q a q'

theorem unambiguous_parseTransitions : Unambiguous parseTransitions (· = []) := by
  refine .many1 (Unambiguous.bind_char unambiguous_parseTransition fun t => .pure t) ?_
  rintro _ rfl
  have hnil : parseTransition [] = [] := Reads.eq_nil reads_parseTransition fun t => by simp
  exact congrArg (List.flatMap _) hnil

/-- No input has two parses. -/
theorem length_fsmParser_le_one (s : List Char) : (fsmParser s).length ≤ 1 := by
  have hline : Unambiguous parseState fun s => ∃ s', s = '\n' :: s' := unambiguous_name (by decide)
  refine Unambiguous.length_le_one ?_ s
  refine Unambiguous.bind_char unambiguous_parseStates fun states =>
    hline.bind_char fun initialState => Unambiguous.bind_char unambiguous_parseStates
      fun finalStates => Unambiguous.bind unambiguous_parseTransitions (fun trans => ?_) ?_
  · exact Unambiguous.eof.bind_pure fun _ => FSM.mk (getAlphabet trans) states initialState
      finalStates trans
  · intro trans s a ha _
    exact (mem_eof_bind.mp ha).1

/-- The parser accepts exactly the texts of machines. -/
theorem parseFSM_eq_ok : parseFSM s = .ok f ↔ f.Textual ∧ s = f.text := by
  have hmem : (f, []) ∈ fsmParser s ↔ f.Textual ∧ s = f.text := by
    rw [mem_fsmParser, and_iff_left rfl]
  have hlen := length_fsmParser_le_one s
  rw [← hmem, parseFSM]
  cases hs : fsmParser s with
  | nil => simp
  | cons a l =>
    rw [hs, List.length_cons] at hlen
    obtain rfl := List.eq_nil_of_length_eq_zero (Nat.le_zero.mp (Nat.le_of_succ_le_succ hlen))
    obtain ⟨f', r⟩ := a
    obtain ⟨-, rfl⟩ := mem_fsmParser.mp (hs ▸ List.mem_singleton_self (f', r))
    simp [eq_comm]

/-- The texts of machines are accepted with the machine and nothing else is accepted; a text
belongs to one machine and has one parse. -/
theorem parseFSM_accepts_texts (s : List Char) :
    (∀ f, parseFSM s = .ok f ↔ f.Textual ∧ s = f.text) ∧
      {f : FSM | f.Textual ∧ s = f.text}.Subsingleton ∧ (fsmParser s).length ≤ 1 := by
  refine ⟨fun f => parseFSM_eq_ok, fun f hf f' hf' => ?_, length_fsmParser_le_one s⟩
  have hparse := parseFSM_eq_ok.mpr hf
  rw [parseFSM_eq_ok.mpr hf'] at hparse
  exact (Except.ok.inj hparse).symm

end FLP
