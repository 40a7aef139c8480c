import Mathlib.Data.List.Infix

/-! # Searching a pattern

The first place where a pattern stands in a list, and reading a stream piece by piece until the
pattern stands in what has been read. -/

namespace Search

variable {α : Type u} {pat data : List α} {pieces : List (List α)}

variable [DecidableEq α]

/-- The first index where the pattern stands. -/
def find (pat : List α) : List α → Option Nat
  | [] => if pat = [] then some 0 else none
  | c :: data => if pat <+: c :: data then some 0 else (find pat data).map (· + 1)

theorem isSome_find : (find pat data).isSome ↔ pat <:+: data := by
  induction data with
  | nil =>
    rw [find, List.infix_nil]
    split
    next h => simp [h]
    next h => simp [h]
  | cons c data ih =>
    rw [find, List.infix_cons_iff]
    split
    next h => simp [h]
    next h => simp [h, ih]

/-- Read pieces until the pattern stands in all that has been read. -/
def readUntil (pat : List α) : List α → List (List α) → Option (List α)
  | data, [] => if pat <:+: data then some data else none
  | data, piece :: pieces =>
    if pat <:+: data then some data else readUntil pat (data ++ piece) pieces

/-- Read pieces until a test holds: what has been read, and the pieces that are left. -/
def fill (test : List α → Bool) : List α → List (List α) → Option (List α × List (List α))
  | data, [] => if test data then some (data, []) else none
  | data, piece :: pieces =>
    if test data then some (data, piece :: pieces) else fill test (data ++ piece) pieces

omit [DecidableEq α] in
/-- A test that holds of the whole stream stops the reading. -/
theorem exists_fill (test : List α → Bool) (data : List α) (pieces : List (List α))
    (h : test (data ++ pieces.flatten) = true) :
    ∃ read rest, fill test data pieces = some (read, rest) ∧ test read = true ∧
      read ++ rest.flatten = data ++ pieces.flatten := by
  induction pieces generalizing data with
  | nil =>
    rw [List.flatten_nil, List.append_nil] at h
    exact ⟨data, [], if_pos h, h, rfl⟩
  | cons piece pieces ih =>
    rw [fill]
    split
    next hdata => exact ⟨data, piece :: pieces, rfl, hdata, rfl⟩
    next hdata =>
      rw [List.flatten_cons, ← List.append_assoc] at h ⊢
      exact ih _ h

end Search
