import Mathlib.Data.List.Basic

/-! # Lists with a cursor

A finite sequence one of whose elements may be marked by a cursor. An active list is kept as the
elements before the cursor, the element under it and the elements after it, so the cursor cannot
point outside the sequence. Every operation commutes with `map`. -/

/-- A sequence without a cursor, or one split at its cursor. -/
inductive CursorList (α : Type u)
  | inactive (elems : List α)
  | active (before : List α) (cur : α) (after : List α)

namespace CursorList

variable {α : Type u} {β : Type v}

def toList : CursorList α → List α
  | inactive xs => xs
  | active before cur after => before ++ cur :: after

/-- The element under the cursor. -/
def current? : CursorList α → Option α
  | inactive _ => none
  | active _ cur _ => some cur

def map (f : α → β) : CursorList α → CursorList β
  | inactive xs => inactive (xs.map f)
  | active before cur after => active (before.map f) (f cur) (after.map f)

@[simp] theorem toList_inactive (xs : List α) : (inactive xs).toList = xs := rfl

@[simp] theorem toList_active (before : List α) (cur : α) (after : List α) :
    (active before cur after).toList = before ++ cur :: after := rfl

@[simp] theorem current?_inactive (xs : List α) : (inactive xs).current? = none := rfl

@[simp] theorem current?_active (before : List α) (cur : α) (after : List α) :
    (active before cur after).current? = some cur := rfl

/-- The cursor on the first element, if there is one. -/
def atFirst : List α → CursorList α
  | [] => inactive []
  | x :: xs => active [] x xs

/-- The cursor on the last of the elements `before` and then `after`, if there is one. -/
def atLast (before : List α) : CursorList α :=
  match before.getLast? with
  | none => inactive []
  | some x => active before.dropLast x []

def insertFirst (v : α) : CursorList α → CursorList α
  | inactive xs => inactive (v :: xs)
  | active before cur after => active (v :: before) cur after

def insertLast (v : α) : CursorList α → CursorList α
  | inactive xs => inactive (xs ++ [v])
  | active before cur after => active before cur (after ++ [v])

def first (l : CursorList α) : CursorList α := atFirst l.toList

def last (l : CursorList α) : CursorList α := atLast l.toList

/-- Delete the first element; a cursor on it is lost. -/
def deleteFirst : CursorList α → CursorList α
  | inactive xs => inactive xs.tail
  | active [] _ after => inactive after
  | active (_ :: before) cur after => active before cur after

/-- Delete the last element; a cursor on it is lost. -/
def deleteLast : CursorList α → CursorList α
  | inactive xs => inactive xs.dropLast
  | active before _ [] => inactive before
  | active before cur after => active before cur after.dropLast

/-- Delete the element after the cursor. -/
def postDelete : CursorList α → CursorList α
  | inactive xs => inactive xs
  | active before cur after => active before cur after.tail

/-- Delete the element before the cursor. -/
def preDelete : CursorList α → CursorList α
  | inactive xs => inactive xs
  | active before cur after => active before.dropLast cur after

def postInsert (v : α) : CursorList α → CursorList α
  | inactive xs => inactive xs
  | active before cur after => active before cur (v :: after)

def preInsert (v : α) : CursorList α → CursorList α
  | inactive xs => inactive xs
  | active before cur after => active (before ++ [v]) cur after

/-- Change the element under the cursor. -/
def actualize (f : α → α) : CursorList α → CursorList α
  | inactive xs => inactive xs
  | active before cur after => active before (f cur) after

/-- Move the cursor to the next element; after the last one it is lost. -/
def succ : CursorList α → CursorList α
  | inactive xs => inactive xs
  | active before cur [] => inactive (before ++ [cur])
  | active before cur (x :: after) => active (before ++ [cur]) x after

/-- Move the cursor to the previous element; before the first one it is lost. -/
def pred : CursorList α → CursorList α
  | inactive xs => inactive xs
  | active before cur after =>
    match before.getLast? with
    | none => inactive (cur :: after)
    | some x => active before.dropLast x (cur :: after)

section
variable (l : CursorList α)

@[simp] theorem toList_insertFirst : (l.insertFirst v).toList = v :: l.toList := by
  cases l <;> rfl

@[simp] theorem current?_insertFirst : (l.insertFirst v).current? = l.current? := by
  cases l <;> rfl

@[simp] theorem toList_insertLast : (l.insertLast v).toList = l.toList ++ [v] := by
  cases l <;> simp [insertLast]

@[simp] theorem current?_insertLast : (l.insertLast v).current? = l.current? := by
  cases l <;> rfl

@[simp] theorem toList_first : l.first.toList = l.toList := by
  cases h : l.toList <;> simp [first, atFirst, h]

@[simp] theorem current?_first : l.first.current? = l.toList.head? := by
  cases h : l.toList <;> simp [first, atFirst, h]

@[simp] theorem toList_last : l.last.toList = l.toList := by
  rcases List.eq_nil_or_concat l.toList with h | ⟨xs, x, h⟩ <;> simp [last, atLast, h]

@[simp] theorem current?_last : l.last.current? = l.toList.getLast? := by
  rcases List.eq_nil_or_concat l.toList with h | ⟨xs, x, h⟩ <;> simp [last, atLast, h]

@[simp] theorem toList_deleteFirst : l.deleteFirst.toList = l.toList.tail := by
  cases l with
  | inactive xs => rfl
  | active before cur after => cases before <;> rfl

@[simp] theorem toList_deleteLast : l.deleteLast.toList = l.toList.dropLast := by
  cases l with
  | inactive xs => rfl
  | active before cur after => cases after <;> simp [deleteLast]

/-- The cursor is lost when it is on the first element. -/
theorem current?_deleteFirst [DecidableEq α] (h : l.toList.Nodup) :
    l.deleteFirst.current? = if l.current? = l.toList.head? then none else l.current? := by
  cases l with
  | inactive xs => exact (ite_self none).symm
  | active before cur after =>
    cases before with
    | nil => simp [deleteFirst]
    | cons x before =>
      have hne : cur ≠ x := by
        rintro rfl
        simp at h
      simp [deleteFirst, hne]

/-- The cursor is lost when it is on the last element. -/
theorem current?_deleteLast [DecidableEq α] (h : l.toList.Nodup) :
    l.deleteLast.current? = if l.current? = l.toList.getLast? then none else l.current? := by
  cases l with
  | inactive xs => exact (ite_self none).symm
  | active before cur after =>
    rcases List.eq_nil_or_concat after with rfl | ⟨after, x, rfl⟩
    · simp [deleteLast]
    · have hne : cur ≠ x := by
        rintro rfl
        simp [List.nodup_append] at h
      have hlast : (active before cur (after.concat x)).toList.getLast? = some x := by
        have happ : before ++ cur :: after.concat x = before ++ cur :: after ++ [x] := by simp
        rw [toList_active, happ, List.getLast?_concat]
      rw [hlast]
      cases after <;> simp [deleteLast, hne]

end

section
variable (f : α → β) (l : CursorList α)

@[simp] theorem toList_map : (l.map f).toList = l.toList.map f := by
  cases l <;> simp [toList, map]

@[simp] theorem current?_map : (l.map f).current? = l.current?.map f := by
  cases l <;> rfl

@[simp] theorem map_insertFirst : (l.insertFirst v).map f = (l.map f).insertFirst (f v) := by
  cases l <;> simp [insertFirst, map]

@[simp] theorem map_insertLast : (l.insertLast v).map f = (l.map f).insertLast (f v) := by
  cases l <;> simp [insertLast, map]

theorem map_atFirst (xs : List α) : (atFirst xs).map f = atFirst (xs.map f) := by
  cases xs <;> rfl

theorem map_atLast (xs : List α) : (atLast xs).map f = atLast (xs.map f) := by
  simp only [atLast, List.getLast?_map, ← List.map_dropLast]
  cases xs.getLast? <;> simp [map]

@[simp] theorem map_first : l.first.map f = (l.map f).first := by
  simp [first, map_atFirst]

@[simp] theorem map_last : l.last.map f = (l.map f).last := by
  simp [last, map_atLast]

@[simp] theorem map_deleteFirst : l.deleteFirst.map f = (l.map f).deleteFirst := by
  cases l with
  | inactive xs => simp [deleteFirst, map]
  | active before cur after => cases before <;> rfl

@[simp] theorem map_deleteLast : l.deleteLast.map f = (l.map f).deleteLast := by
  cases l with
  | inactive xs => simp [deleteLast, map]
  | active before cur after => cases after <;> simp [deleteLast, map]

theorem map_actualize {g : α → α} {g' : β → β} (h : ∀ x, f (g x) = g' (f x)) :
    (l.actualize g).map f = (l.map f).actualize g' := by
  cases l <;> simp [actualize, map, h]

@[simp] theorem map_succ : l.succ.map f = (l.map f).succ := by
  cases l with
  | inactive xs => rfl
  | active before cur after => cases after <;> simp [succ, map]

@[simp] theorem map_pred : l.pred.map f = (l.map f).pred := by
  cases l with
  | inactive xs => rfl
  | active before cur after =>
    simp only [pred, map, List.getLast?_map, ← List.map_dropLast]
    cases before.getLast? <;> simp

end

end CursorList
