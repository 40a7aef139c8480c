import FitProjects.Lib.Runs
import Mathlib.Algebra.Group.Nat.Defs

/-! # Words with a symbol

`readAndCount` of `IZP/proj1.c` on the bytes of the input. A word is a maximal run of bytes that
`checkCharInput` accepts; one pass counts the words that have the symbol at the position and prints
all words (`Pass`). Bytes from 128 on are negative as `char`; no comparison accepts them either
way. -/

namespace SymbolCount

/-- `DEBUG_MAXLEN` -/
def debugMaxLen : UInt32 := 80

/-- `TParams` -/
structure Params where
  symbol : UInt8
  index : UInt32
  debug : Bool

def checkDigit (c : UInt8) : Bool := 48 ≤ c && c ≤ 57

def checkUpperCase (c : UInt8) : Bool := 65 ≤ c && c ≤ 90

def checkLowerCase (c : UInt8) : Bool := 97 ≤ c && c ≤ 122

/-- `checkCharInput`: digits, letters, `-` and `_`. -/
def checkCharInput (c : UInt8) : Bool :=
  checkDigit c || checkUpperCase c || checkLowerCase c || c == 45 || c == 95

/-- `checkChar`: `:` is any digit, `^` any capital letter and `.` any character. -/
def checkChar (c symbol : UInt8) : Bool :=
  if symbol = 58 then checkDigit c
  else if symbol = 94 then checkUpperCase c
  else symbol = 46 || symbol = c

/-- The variables of `readAndCount`, and what has been printed. -/
structure Reader where
  wordFound : Bool
  newWord : Bool
  position : UInt32
  wordsCount : UInt32
  out : List UInt8

/-- The body of the loop. -/
def readChar (params : Params) (s : Reader) (c : UInt8) : Reader :=
  if !checkCharInput c then
    { s with
      out := if params.debug && !s.newWord then s.out ++ [10] else s.out
      wordFound := false
      newWord := true
      position := 0 }
  else
    let position := s.position + 1
    let found := !s.wordFound && checkChar c params.symbol &&
      (params.index == 0 || params.index == position)
    { wordFound := s.wordFound || found
      newWord := false
      position
      wordsCount := if found then s.wordsCount + 1 else s.wordsCount
      out := if params.debug && s.position < debugMaxLen then s.out ++ [c] else s.out }

/-- `readAndCount`: the result and what is printed. -/
def readAndCount (params : Params) (f : List UInt8) : Int32 × List UInt8 :=
  let s := f.foldl (readChar params) ⟨false, true, 0, 0, []⟩
  (s.wordsCount.toInt32, s.out)

/-! ### Words -/

/-- The words of a text. -/
def words (f : List UInt8) : List (List UInt8) := runs checkCharInput f

/-- The word has the symbol at the position, or at any position when that is 0. -/
def hasSymbol (params : Params) (w : List UInt8) : Bool :=
  if params.index = 0 then w.any (checkChar · params.symbol)
  else (w[params.index.toNat - 1]?).any (checkChar · params.symbol)

/-- What is printed of a word. -/
def cut (w : List UInt8) : List UInt8 := w.take debugMaxLen.toNat

/-- All words of a text, each on a line. The last line is not ended when the text ends in a word. -/
def listing (f : List UInt8) : List UInt8 :=
  if f.getLast?.any checkCharInput then List.intercalate [10] ((words f).map cut)
  else (words f).flatMap fun w => cut w ++ [10]

variable {params : Params} {f h w : List UInt8} {c : UInt8} {s : Reader}

theorem hasSymbol_nil : hasSymbol params [] = false := by
  rw [hasSymbol]
  split
  · rfl
  · rfl

/-- One more character. -/
theorem hasSymbol_concat (params : Params) (c : UInt8) (hlength : w.length + 1 < 2 ^ 32) :
    hasSymbol params (w ++ [c]) = (hasSymbol params w || checkChar c params.symbol &&
      (params.index == 0 || params.index == UInt32.ofNat w.length + 1)) := by
  have hposition : (UInt32.ofNat w.length + 1).toNat = w.length + 1 := by
    rw [← UInt32.ofNat_one, ← UInt32.ofNat_add, UInt32.toNat_ofNat_of_lt' hlength]
  rw [hasSymbol, hasSymbol]
  by_cases hzero : params.index = 0
  · simp [hzero]
  · have hpos : 0 < params.index.toNat := Nat.pos_of_ne_zero fun h => hzero (UInt32.toNat_inj.mp h)
    rw [if_neg hzero, if_neg hzero]
    rcases Nat.lt_trichotomy (params.index.toNat - 1) w.length with hlt | heq | hlt
    · have hne : params.index ≠ UInt32.ofNat w.length + 1 := fun h => by
        rw [h, hposition] at hlt
        omega
      simp [List.getElem?_append_left hlt, hzero, hne]
    · have hindex : params.index = UInt32.ofNat w.length + 1 := by
        rw [← UInt32.toNat_inj, hposition]
        omega
      simp [heq, ← hindex]
    · have hne : params.index ≠ UInt32.ofNat w.length + 1 := fun h => by
        rw [h, hposition] at hlt
        omega
      have hnone : w[params.index.toNat - 1]? = none := List.getElem?_eq_none (by omega)
      have hnone' : (w ++ [c])[params.index.toNat - 1]? = none :=
        List.getElem?_eq_none (by rw [List.length_append, List.length_singleton]; omega)
      simp [hnone, hnone', hzero, hne]

/-- The state behind `h`, which does not end in a word, and the word `w`. -/
structure Pass (params : Params) (h w : List UInt8) (s : Reader) : Prop where
  black : ∀ c ∈ w, checkCharInput c
  ended : h.getLast?.any checkCharInput = false
  wordFound : s.wordFound = hasSymbol params w
  newWord : s.newWord = true ↔ w = []
  position : s.position = UInt32.ofNat w.length
  wordsCount : s.wordsCount =
    UInt32.ofNat ((words h).countP (hasSymbol params) + if hasSymbol params w then 1 else 0)
  out : s.out = if params.debug then ((words h).flatMap fun w => cut w ++ [10]) ++ cut w else []

theorem Pass.start (params : Params) : Pass params [] [] ⟨false, true, 0, 0, []⟩ where
  black := List.forall_mem_nil _
  ended := rfl
  wordFound := hasSymbol_nil.symm
  newWord := by simp
  position := rfl
  wordsCount := by simp [words, hasSymbol_nil]
  out := by simp [words, cut]

/-- A word that is followed by `l`. -/
theorem words_append (hended : h.getLast?.any checkCharInput = false) (l : List UInt8) :
    words (h ++ l) = words h ++ words l := by
  rcases h.eq_nil_or_concat with rfl | ⟨h, c, rfl⟩
  · rfl
  · have hc : checkCharInput c = false := by simpa using hended
    rw [List.concat_eq_append, List.append_assoc, List.singleton_append, words, words,
      runs.append_cons hc, runs.append_cons hc]
    simp [words]

theorem words_of_forall (hblack : ∀ c ∈ w, checkCharInput c) :
    words w = if w = [] then [] else [w] := by
  split
  next hnil => rw [hnil]; rfl
  next hne => exact runs.of_forall hne hblack

/-- A separator. -/
theorem Pass.separator (hpass : Pass params h w s) (hc : checkCharInput c = false) :
    Pass params (h ++ w ++ [c]) [] (readChar params s c) := by
  have hwords : words (h ++ w ++ [c]) = words h ++ if w = [] then [] else [w] := by
    rw [← words_of_forall hpass.black, ← words_append hpass.ended, words,
      runs.append_end fun b hb => List.mem_singleton.mp hb ▸ hc]
    rfl
  have hread : readChar params s c = { s with
      out := if params.debug && !s.newWord then s.out ++ [10] else s.out
      wordFound := false
      newWord := true
      position := 0 } := by
    rw [readChar, hc]
    rfl
  rw [hread]
  refine {
    black := List.forall_mem_nil _
    ended := by simpa using hc
    wordFound := hasSymbol_nil.symm
    newWord := by simp
    position := rfl
    wordsCount := ?_
    out := ?_ }
  · rw [hpass.wordsCount, hwords, hasSymbol_nil, List.countP_append]
    by_cases hnil : w = []
    · simp [hnil, hasSymbol_nil]
    · simp [hnil, List.countP_singleton]
  · rw [hpass.out, hwords]
    by_cases hnil : w = []
    · simp [hpass.newWord.mpr hnil, hnil]
    · have hnewWord : s.newWord = false := Bool.eq_false_iff.mpr fun h => hnil (hpass.newWord.mp h)
      cases params.debug with
      | false => rfl
      | true => simp [hnewWord, hnil, cut]

/-- A character of a word. -/
theorem Pass.char (hpass : Pass params h w s) (hc : checkCharInput c)
    (hlength : w.length + 1 < 2 ^ 32) : Pass params h (w ++ [c]) (readChar params s c) := by
  have hconcat := hasSymbol_concat params c hlength
  rw [← hpass.position, ← hpass.wordFound] at hconcat
  have hposition : s.position + 1 = UInt32.ofNat (w ++ [c]).length := by
    rw [hpass.position, List.length_append, UInt32.ofNat_add]
    rfl
  have hread : readChar params s c = {
      wordFound := hasSymbol params (w ++ [c])
      newWord := false
      position := s.position + 1
      wordsCount := if !s.wordFound && hasSymbol params (w ++ [c]) then s.wordsCount + 1
        else s.wordsCount
      out := if params.debug && s.position < debugMaxLen then s.out ++ [c] else s.out } := by
    rw [readChar, hc, hconcat]
    cases s.wordFound with
    | true => rfl
    | false => simp
  rw [hread]
  refine {
    black := ?_
    ended := hpass.ended
    wordFound := rfl
    newWord := by simp
    position := hposition
    wordsCount := ?_
    out := ?_ }
  · intro b hb
    rcases List.mem_append.mp hb with hb | hb
    · exact hpass.black b hb
    · exact List.mem_singleton.mp hb ▸ hc
  · rw [hpass.wordsCount, hpass.wordFound, hconcat, hpass.wordFound]
    cases hasSymbol params w with
    | true => simp
    | false =>
      rw [Bool.not_false, Bool.true_and, Bool.false_or]
      split
      next => exact (UInt32.ofNat_add _ 1).symm
      next => rfl
  · have hlt : s.position < debugMaxLen ↔ w.length < debugMaxLen.toNat := by
      rw [UInt32.lt_iff_toNat_lt, hpass.position,
        UInt32.toNat_ofNat_of_lt' (Nat.lt_of_succ_lt hlength)]
    rw [hpass.out]
    cases params.debug with
    | false => rfl
    | true =>
      by_cases hcut : w.length < debugMaxLen.toNat
      · have hmore : cut (w ++ [c]) = cut w ++ [c] := by
          rw [cut, cut, List.take_of_length_le (Nat.le_of_lt hcut),
            List.take_of_length_le (by rwa [List.length_append])]
        simp [hlt.mpr hcut, hmore]
      · have hsame : cut (w ++ [c]) = cut w := List.take_append_of_le_length (Nat.not_lt.mp hcut)
        simp [mt hlt.mp hcut, hsame]

/-- The rest of the text. -/
theorem Pass.read (hpass : Pass params h w s)
    (hlength : ∀ v ∈ words (w ++ f), v.length < 2 ^ 32) :
    ∃ h' w', h ++ w ++ f = h' ++ w' ∧ Pass params h' w' (f.foldl (readChar params) s) := by
  induction f generalizing h w s with
  | nil => exact ⟨h, w, List.append_nil _, hpass⟩
  | cons c f ih =>
    rw [List.foldl_cons]
    cases hc : checkCharInput c with
    | false =>
      have hrest : ∀ v ∈ words ([] ++ f), v.length < 2 ^ 32 := fun v hv => hlength v (by
        rw [words, runs.append_cons hc]
        exact List.mem_append_right _ hv)
      obtain ⟨h', w', heq, hpass'⟩ := ih (hpass.separator hc) hrest
      exact ⟨h', w', by rw [← heq]; simp, hpass'⟩
    | true =>
      have hblack : ∀ b ∈ w ++ [c], checkCharInput b := by
        intro b hb
        rcases List.mem_append.mp hb with hb | hb
        · exact hpass.black b hb
        · exact List.mem_singleton.mp hb ▸ hc
      rw [← List.singleton_append, ← List.append_assoc] at hlength
      obtain ⟨v, hv, hle⟩ := runs.exists_longer (by simp) hblack f
      have hlt := hlength v hv
      rw [List.length_append, List.length_singleton] at hle
      obtain ⟨h', w', heq, hpass'⟩ := ih (hpass.char hc (Nat.lt_of_le_of_lt hle hlt)) hlength
      exact ⟨h', w', by rw [← heq]; simp, hpass'⟩

theorem intercalate_concat (l : List (List UInt8)) (a : List UInt8) :
    List.intercalate [10] (l ++ [a]) = l.flatMap (· ++ [10]) ++ a := by
  induction l with
  | nil => simp
  | cons b l ih =>
    rw [List.cons_append, List.intercalate_cons_of_ne_nil (by simp), ih]
    simp

/-- The state behind the whole text has all words. -/
theorem Pass.listing_eq (hpass : Pass params h w s) : listing (h ++ w) =
    ((words h).flatMap fun w => cut w ++ [10]) ++ cut w := by
  rw [listing, words_append hpass.ended, words_of_forall hpass.black]
  by_cases hnil : w = []
  · subst hnil
    rw [List.append_nil, hpass.ended]
    simp [cut]
  · have hlast : (h ++ w).getLast?.any checkCharInput := by
      rw [List.getLast?_append, List.getLast?_eq_some_getLast hnil]
      exact hpass.black _ (List.getLast_mem hnil)
    rw [if_pos hlast, if_neg hnil, List.map_append, List.map_singleton, intercalate_concat]
    simp [List.flatMap_map]

/-- The number of words with the symbol is returned, and with `debug` all words are printed. -/
theorem readAndCount_spec (params : Params) (f : List UInt8) (hcount : (words f).length < 2 ^ 31)
    (hlength : ∀ w ∈ words f, w.length < 2 ^ 32) :
    (readAndCount params f).1.toInt = (words f).countP (hasSymbol params) ∧
      (readAndCount params f).2 = if params.debug then listing f else [] := by
  obtain ⟨h, w, heq, hpass⟩ := (Pass.start params).read (f := f) hlength
  obtain rfl : f = h ++ w := heq
  have hle : (words (h ++ w)).countP (hasSymbol params) < 2 ^ 31 :=
    Nat.lt_of_le_of_lt List.countP_le_length hcount
  have htotal : (words (h ++ w)).countP (hasSymbol params) =
      (words h).countP (hasSymbol params) + if hasSymbol params w then 1 else 0 := by
    rw [words_append hpass.ended, words_of_forall hpass.black, List.countP_append]
    by_cases hnil : w = []
    · simp [hnil, hasSymbol_nil]
    · simp [hnil, List.countP_singleton]
  rw [readAndCount]
  refine ⟨?_, ?_⟩
  · have hvalue : (UInt32.ofNat ((words (h ++ w)).countP (hasSymbol params))).toBitVec.toNat =
        (words (h ++ w)).countP (hasSymbol params) :=
      UInt32.toNat_ofNat_of_lt' (Nat.lt_trans hle (by decide))
    dsimp only
    rw [hpass.wordsCount, ← htotal, ← Int32.toInt_toBitVec, UInt32.toBitVec_toInt32,
      BitVec.toInt_eq_toNat_of_lt (by rw [hvalue]; omega), hvalue]
  · dsimp only
    rw [hpass.out, hpass.listing_eq]

/-- Two words with `b` at position 2 in debug mode. -/
theorem readAndCount_spec_two : (readAndCount ⟨98, 2, true⟩ [97, 98, 32, 98, 10, 98, 98]).1.toInt =
      (words [97, 98, 32, 98, 10, 98, 98]).countP (hasSymbol ⟨98, 2, true⟩) ∧
    (readAndCount ⟨98, 2, true⟩ [97, 98, 32, 98, 10, 98, 98]).2 =
      listing [97, 98, 32, 98, 10, 98, 98] :=
  readAndCount_spec ⟨98, 2, true⟩ [97, 98, 32, 98, 10, 98, 98] (by decide) (by decide)

end SymbolCount
