import FitProjects.IOS.RiverCrossing
import Mathlib.Data.List.Nodup
import Mathlib.Tactic.Common

/-! # Crossings in the log

A crossing is what the log tells since the last group was formed. This file says what a log must
look like: `CrossingOk` about the crossing so far, `EventOk` about an entry and the log before it.
Logs are read from the newest entry back. -/

namespace RiverCrossing

/-- The entries since a group was formed. -/
def current (l : List (Event p)) : List (Event p) := l.takeWhile (·.what ≠ .formed)

/-- A group has been formed. -/
def Begun (l : List (Event p)) : Prop := ∃ e ∈ l, e.what = .formed

/-- The persons who printed `x`. -/
def who (x : Action) (l : List (Event p)) : List (Pid p) := (l.filter (·.what = x)).map (·.who)

/-- The persons who printed `captain` or `member`. -/
def assigned (l : List (Event p)) : List (Pid p) :=
  (l.filter fun e => e.what = .captain ∨ e.what = .member).map (·.who)

/-- The number of persons of a kind. -/
def heads (K : Kind) (l : List (Pid p)) : Nat := l.countP (·.1 = K)

/-- The members of a crossing that is under way or over: at most four, and when they are four they
are a group; the assigned are among them, at most one of them the captain, and exactly one when all
four are assigned; the landed are among the assigned. Nobody does anything twice. -/
structure CrossingOk (c : List (Event p)) : Prop where
  boarded : (who .boarding c).Nodup
  boarded_le : (who .boarding c).length ≤ 4
  group : (who .boarding c).length = 4 →
    heads .hacker (who .boarding c) = 4 ∨ heads .serf (who .boarding c) = 4 ∨
      heads .hacker (who .boarding c) = 2 ∧ heads .serf (who .boarding c) = 2
  assigned : (assigned c).Nodup
  assigned_sub : RiverCrossing.assigned c ⊆ who .boarding c
  captain_le : (who .captain c).length ≤ 1
  captain : (RiverCrossing.assigned c).length = 4 → (who .captain c).length = 1
  landed : (who .landing c).Nodup
  landed_sub : who .landing c ⊆ RiverCrossing.assigned c

/-- The crossing is over. -/
structure Complete (c : List (Event p)) : Prop where
  boarded : (who .boarding c).length = 4
  assigned : (assigned c).length = 4
  captain : (who .captain c).length = 1
  landed : (who .landing c).length = 4

/-- What must have been logged before an entry. -/
def EventOk (e : Event p) (l : List (Event p)) : Prop :=
  match e.what with
  | .started => True
  | .waiting | .formed => Begun l → Complete (current l)
  | .boarding => Begun l
  | .captain | .member => Begun l ∧ (who .boarding (current l)).length = 4
  | .posted => e.who ∈ who .captain (current l)
  | .landing => Begun l ∧ (assigned (current l)).length = 4 ∧
      ∃ i ∈ who .captain (current l), i ∈ who .posted (current l)
  | .finished => (∀ i, i ∈ who .landing l) ∧ (Begun l → Complete (current l))

/-- The whole log is as it must be: each entry, and each crossing at each moment. -/
def LogOk (l : List (Event p)) : Prop :=
  ∀ e l', e :: l' <:+ l → EventOk e l' ∧ (Begun (e :: l') → CrossingOk (current (e :: l')))

section
variable {p : Nat} {l : List (Event p)} {i : Pid p} {x : Action} {n : Nat}
  {q : Option (Nat × Nat)} {K : Kind}

theorem LogOk.nil : LogOk ([] : List (Event p)) := fun e l' h => by simp at h

theorem LogOk.cons (h : LogOk l) (he : EventOk e l)
    (hc : Begun (e :: l) → CrossingOk (current (e :: l))) : LogOk (e :: l) := by
  intro e' l' hs
  rcases List.suffix_cons_iff.mp hs with heq | hs
  · cases heq
    exact ⟨he, hc⟩
  · exact h e' l' hs

@[simp] theorem current_nil : current ([] : List (Event p)) = [] := rfl

@[simp] theorem current_cons :
    current (⟨n, i, x, q⟩ :: l) = if x = .formed then [] else ⟨n, i, x, q⟩ :: current l := by
  by_cases h : x = .formed <;> simp [current, h]

@[simp] theorem begun_nil : ¬Begun ([] : List (Event p)) := by simp [Begun]

@[simp] theorem begun_cons : Begun (⟨n, i, x, q⟩ :: l) ↔ x = .formed ∨ Begun l := by simp [Begun]

@[simp] theorem who_nil : who x ([] : List (Event p)) = [] := rfl

@[simp] theorem who_cons {y : Action} :
    who y (⟨n, i, x, q⟩ :: l) = if x = y then i :: who y l else who y l := by
  by_cases h : x = y <;> simp [who, h]

@[simp] theorem assigned_nil : assigned ([] : List (Event p)) = [] := rfl

@[simp] theorem assigned_cons :
    assigned (⟨n, i, x, q⟩ :: l) =
      if x = .captain ∨ x = .member then i :: assigned l else assigned l := by
  by_cases h : x = .captain ∨ x = .member <;> simp [assigned, h]

@[simp] theorem heads_nil : heads K ([] : List (Pid p)) = 0 := rfl

@[simp] theorem heads_cons {is : List (Pid p)} :
    heads K (i :: is) = heads K is + if i.1 = K then 1 else 0 := by
  by_cases h : i.1 = K <;> simp [heads, h]

theorem length_eq_heads (is : List (Pid p)) : is.length = heads .hacker is + heads .serf is := by
  induction is with
  | nil => rfl
  | cons i is ih =>
    obtain ⟨K, i⟩ := i
    cases K <;> simp [ih] <;> omega

end

end RiverCrossing
