import FitProjects.Lib.Show
import FitProjects.FLP.Parser

/-! # The printed machine

The `Show` instances of `FLP/Type/FSM.hs`. The states are printed raw, the transitions through
`show` and without quotes, so the printed machine is its text exactly when `show` escapes nothing
and no quotes are lost. -/

namespace FLP

open Show

/-- `ch /= '"' && ch /= '\''`. -/
def notQuote (ch : Char) : Bool := ch ≠ '\x22' && ch ≠ '\x27'

/-- `show` on transitions. -/
def Transition.show (t : Transition) : List Char :=
  (showString t.fromState ++ ',' :: showChar t.symbol ++ ',' ::
    showString t.toState).filter notQuote

/-- `show` on machines. -/
def FSM.show (f : FSM) : List Char :=
  commaSeparated f.states ++ '\n' :: f.initialState ++ '\n' :: commaSeparated f.finalStates ++
    f.transitions.foldl (fun acc x => acc ++ '\n' :: x.show) []

/-- A character that is printed as it is. -/
def Plain (c : Char) : Prop := Literal c ∧ notQuote c

/-- A transition that is printed as it is. -/
def Transition.AllPlain (t : Transition) : Prop :=
  (∀ c ∈ t.fromState, Plain c) ∧ Plain t.symbol ∧ ∀ c ∈ t.toState, Plain c

variable {c : Char} {cs s : List Char} {t : Transition} {f : FSM}

/-! ## Characters and strings -/

theorem notQuote_of_isAlphanum (hc : c.isAlphanum) : notQuote c := by
  rw [notQuote, Bool.and_eq_true, decide_eq_true_eq, decide_eq_true_eq]
  constructor
  · rintro rfl
    exact absurd hc (by decide)
  · rintro rfl
    exact absurd hc (by decide)

/-- An escaped character is printed as two characters or more. -/
theorem length_filter_showLitChar (hc : ¬Literal c) (s : List Char) :
    (s.filter notQuote).length + 2 ≤ ((showLitChar c s).filter notQuote).length := by
  obtain ⟨d, e, hd, heq⟩ := escaped_showLitChar hc s
  have hquote : notQuote d := by
    rcases hd with hd | rfl
    · exact notQuote_of_isAlphanum hd
    · decide
  rw [heq, List.filter_cons_of_pos (by decide), List.filter_cons_of_pos hquote, List.filter_append]
  simp only [List.length_cons, List.length_append]
  omega

theorem filter_showLitString (hcs : ∀ c ∈ cs, Plain c) :
    (showLitString cs s).filter notQuote = cs ++ s.filter notQuote := by
  induction cs with
  | nil => rfl
  | cons c cs ih =>
    rw [List.forall_mem_cons] at hcs
    obtain ⟨⟨hlit, hquote⟩, hcs⟩ := hcs
    have hne : c ≠ '\x22' := by
      rintro rfl
      exact absurd hquote (by decide)
    rw [showLitString, if_neg hne, showLitChar_of_literal hlit, List.filter_cons_of_pos hquote,
      ih hcs, List.cons_append]

/-- A string without quotes is printed as it is, or longer. -/
theorem length_filter_showLitString (hcs : ∀ c ∈ cs, notQuote c) (s : List Char) :
    cs.length + (s.filter notQuote).length ≤ ((showLitString cs s).filter notQuote).length ∧
      (((showLitString cs s).filter notQuote).length = cs.length + (s.filter notQuote).length →
        ∀ c ∈ cs, Plain c) := by
  induction cs with
  | nil => simp [showLitString]
  | cons c cs ih =>
    rw [List.forall_mem_cons] at hcs ⊢
    obtain ⟨hquote, hcs⟩ := hcs
    obtain ⟨hle, heq⟩ := ih hcs
    have hne : c ≠ '\x22' := by
      rintro rfl
      exact absurd hquote (by decide)
    rw [showLitString, if_neg hne, List.length_cons]
    by_cases hlit : Literal c
    · rw [showLitChar_of_literal hlit, List.filter_cons_of_pos hquote, List.length_cons]
      exact ⟨by omega, fun h => ⟨⟨hlit, hquote⟩, heq (by omega)⟩⟩
    · have hlen := length_filter_showLitChar hlit (showLitString cs s)
      exact ⟨by omega, fun h => by omega⟩

/-! ## Transitions -/

/-- The printed parts of a transition. -/
theorem Transition.show_eq (t : Transition) : t.show =
    (showLitString t.fromState ['\x22']).filter notQuote ++
      ',' :: (showChar t.symbol).filter notQuote ++
      ',' :: (showLitString t.toState ['\x22']).filter notQuote := by
  simp only [Transition.show, showString, List.filter_append, List.filter_cons]
  rfl

theorem filter_showChar (hc : notQuote c) :
    (showChar c).filter notQuote = (showLitString [c] ['\x27']).filter notQuote := by
  have hne : c ≠ '\x27' := by
    rintro rfl
    exact absurd hc (by decide)
  have hne' : c ≠ '\x22' := by
    rintro rfl
    exact absurd hc (by decide)
  rw [showChar, if_neg hne, showLitString, if_neg hne', List.filter_cons_of_neg (by decide)]
  rfl

theorem Transition.show_of_allPlain (h : t.AllPlain) : t.show ++ ['\n'] = t.line := by
  obtain ⟨hfrom, hsymbol, hto⟩ := h
  rw [Transition.show_eq, filter_showChar hsymbol.2, filter_showLitString hfrom,
    filter_showLitString (List.forall_mem_singleton.mpr hsymbol), filter_showLitString hto]
  simp [Transition.line, notQuote]

/-- A transition without quotes is printed as it is, or longer. -/
theorem Transition.length_line_le (h : ∀ c ∈ t.line, notQuote c) :
    t.line.length ≤ (t.show ++ ['\n']).length ∧
      ((t.show ++ ['\n']).length = t.line.length → t.AllPlain) := by
  simp only [Transition.line, List.forall_mem_append, List.forall_mem_cons] at h
  obtain ⟨⟨hfrom, -, hsymbol, -, hto⟩, -⟩ := h
  obtain ⟨hle₁, heq₁⟩ := length_filter_showLitString hfrom ['\x22']
  obtain ⟨hle₂, heq₂⟩ :=
    length_filter_showLitString (List.forall_mem_singleton.mpr hsymbol) ['\x27']
  obtain ⟨hle₃, heq₃⟩ := length_filter_showLitString hto ['\x22']
  have hnil : ['\x22'].filter notQuote = [] ∧ ['\x27'].filter notQuote = [] := ⟨rfl, rfl⟩
  rw [hnil.1] at hle₁ heq₁ hle₃ heq₃
  rw [hnil.2] at hle₂ heq₂
  rw [Transition.show_eq, filter_showChar hsymbol]
  simp only [Transition.line, List.length_append, List.length_cons, List.length_nil] at *
  refine ⟨by omega, fun h => ⟨heq₁ (by omega), ?_, heq₃ (by omega)⟩⟩
  exact heq₂ (by omega) t.symbol List.mem_cons_self

/-! ## Machines -/

theorem FSM.show_append (f : FSM) : f.show ++ ['\n'] =
    commaSeparated f.states ++ '\n' :: f.initialState ++ '\n' :: commaSeparated f.finalStates ++
      '\n' :: f.transitions.flatMap fun t => t.show ++ ['\n'] := by
  have hfold (acc : List Char) (trans : List Transition) :
      trans.foldl (fun acc x => acc ++ '\n' :: x.show) acc ++ ['\n'] =
        acc ++ '\n' :: trans.flatMap fun t => t.show ++ ['\n'] := by
    induction trans generalizing acc with
    | nil => simp
    | cons t trans ih => rw [List.foldl_cons, ih]; simp
  rw [FSM.show, List.append_assoc, hfold, List.nil_append]

theorem show_append_eq_text : f.show ++ ['\n'] = f.text ↔
    (f.transitions.flatMap fun t => t.show ++ ['\n']) = f.transitions.flatMap Transition.line := by
  rw [FSM.show_append, FSM.text, List.append_cancel_left_eq, List.cons_inj_right]

/-- Transitions without quotes are printed as they are, or longer. -/
theorem length_flatMap_line_le {trans : List Transition}
    (h : ∀ t ∈ trans, ∀ c ∈ t.line, notQuote c) :
    (trans.flatMap Transition.line).length ≤
        (trans.flatMap fun t => t.show ++ ['\n']).length ∧
      ((trans.flatMap fun t => t.show ++ ['\n']).length =
        (trans.flatMap Transition.line).length → ∀ t ∈ trans, t.AllPlain) := by
  induction trans with
  | nil => simp
  | cons t trans ih =>
    rw [List.forall_mem_cons] at h ⊢
    obtain ⟨hle, heq⟩ := Transition.length_line_le h.1
    obtain ⟨hle', heq'⟩ := ih h.2
    rw [List.flatMap_cons, List.flatMap_cons, @List.length_append _ t.line,
      @List.length_append _ (t.show ++ ['\n'])]
    exact ⟨by omega, fun h => ⟨heq (by omega), heq' (by omega)⟩⟩

/-- The transitions are printed as they are if and only if all their characters are plain. -/
theorem flatMap_show_eq {trans : List Transition} :
    (trans.flatMap fun t => t.show ++ ['\n']) = trans.flatMap Transition.line ↔
      ∀ t ∈ trans, t.AllPlain := by
  constructor
  · intro h
    -- What is printed has no quotes.
    have hquote : ∀ t ∈ trans, ∀ c ∈ t.line, notQuote c := by
      intro t ht c hc
      have hmem := List.mem_flatMap_of_mem ht hc
      rw [← h, List.mem_flatMap] at hmem
      obtain ⟨t', -, hmem⟩ := hmem
      rcases List.mem_append.mp hmem with hmem | hmem
      · exact (List.mem_filter.mp hmem).2
      · obtain rfl := List.mem_singleton.mp hmem
        decide
    exact (length_flatMap_line_le hquote).2 (congrArg List.length h)
  · intro h
    exact List.flatMap_congr fun t ht => Transition.show_of_allPlain (h t ht)

/-- A parsed machine is read back from its print if and only if all characters of its transitions
are printable ASCII characters other than quotes and backslashes. -/
theorem parseFSM_show (h : parseFSM s = .ok f) :
    parseFSM (f.show ++ ['\n']) = .ok f ↔ ∀ t ∈ f.transitions, t.AllPlain := by
  obtain ⟨htextual, -⟩ := parseFSM_eq_ok.mp h
  rw [parseFSM_eq_ok, and_iff_right htextual, show_append_eq_text, flatMap_show_eq]

/-- The machine with one state `a` and one transition. -/
def loopMachine (c : Symbol) : FSM := ⟨[c], [['a']], ['a'], [['a']], [⟨['a'], c, ['a']⟩]⟩

theorem parseFSM_loopMachine (c : Symbol) :
    parseFSM (loopMachine c).text = .ok (loopMachine c) := by
  have hname : IsName ['a'] := ⟨List.cons_ne_nil _ _, by simp⟩
  refine parseFSM_eq_ok.mpr ⟨⟨?_, hname, ?_, ?_, ?_, ?_⟩, rfl⟩
  · exact ⟨List.cons_ne_nil _ _, List.forall_mem_singleton.mpr hname⟩
  · exact ⟨List.cons_ne_nil _ _, List.forall_mem_singleton.mpr hname⟩
  · exact ⟨List.cons_ne_nil _ _, List.forall_mem_singleton.mpr ⟨hname, hname⟩⟩
  · exact List.pairwise_singleton ..
  · simp [loopMachine, eq_comm]

theorem parseFSM_show_loopMachine :
    parseFSM ((loopMachine 'b').show ++ ['\n']) = .ok (loopMachine 'b') ↔
      ∀ t ∈ (loopMachine 'b').transitions, t.AllPlain :=
  parseFSM_show (parseFSM_loopMachine 'b')

/-- The symbol `"` is printed as nothing. -/
theorem show_loses_quote :
    parseFSM "a\na\na\na,\x22,a\n".toList = .ok (loopMachine '\x22') ∧
      parseFSM ((loopMachine '\x22').show ++ ['\n']) ≠ .ok (loopMachine '\x22') := by
  have htext : "a\na\na\na,\x22,a\n".toList = (loopMachine '\x22').text := by decide
  refine ⟨htext ▸ parseFSM_loopMachine '\x22', fun h => ?_⟩
  have hshow := (parseFSM_eq_ok.mp h).2
  revert hshow
  decide

end FLP
