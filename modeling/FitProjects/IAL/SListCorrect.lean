import FitProjects.IAL.SList
import Mathlib.Data.List.Nodup

/-! # The singly linked list implements the list with a cursor -/

namespace SList

open Heap (Segment addrs headPtr addrs_cons headPtr_nil headPtr_none segment_erase)

/-- The fields of an element, whatever comes before it. -/
def cell (_ : Ptr) (val : Int) (n : Ptr) : Elem := ⟨val, n⟩

attribute [local simp] cell

variable {h : Heap Elem} {p n : Ptr} {a : Addr} {xs : List (Addr × Int)}

@[simp] theorem segment_some :
    Segment cell h (some a) n xs ↔ Segment cell h none n xs := by
  cases xs <;> rfl

/-- What memory the list `l` of addresses and values takes. -/
structure Rep (s : State) (l : CursorList (Addr × Int)) : Prop where
  nodup : (addrs l.toList).Nodup
  segment : Segment cell s.heap none none l.toList
  first : s.first = headPtr l.toList none
  act : s.act = l.current?.map Prod.fst

namespace Rep

variable {s s' : State} {l : CursorList (Addr × Int)} {b : List (Addr × Int)} {c : Addr × Int}
  {val : Int} {item : Addr} {fresh : Elem}

open State

attribute [local simp] alloc setPtr setData assign deref State.free

theorem error (h : Rep s l) : Rep s.error l := ⟨h.nodup, h.segment, h.first, h.act⟩

theorem initList (s : State) : Rep s.initList (.inactive []) := ⟨by simp, by simp, rfl, rfl⟩

theorem disposeLoop {k : Nat} (hs : Segment cell s.heap p none xs) (hxs : (addrs xs).Nodup)
    (hk : xs.length ≤ k) : ∃ heap, s.disposeLoop k (headPtr xs none) = some { s with heap } := by
  induction xs generalizing s p k with
  | nil => exact ⟨s.heap, by cases k <;> rfl⟩
  | cons x xs ih =>
    cases k with
    | zero => simp at hk
    | succ k =>
      rw [addrs_cons, List.nodup_cons] at hxs
      have hrest : Segment cell (s.heap.erase x.1) (some x.1) none xs :=
        (segment_erase hxs.1).mpr hs.2
      obtain ⟨heap, hloop⟩ := ih (s := { s with heap := s.heap.erase x.1 }) hrest hxs.2
        (by simpa using hk)
      exact ⟨heap, by simpa [State.disposeLoop, hs.1] using hloop⟩

theorem disposeList (h : Rep s l) :
    ∃ s', s.disposeList = some s' ∧ s'.err = s.err ∧ Rep s' (.inactive []) := by
  obtain ⟨heap, hloop⟩ := disposeLoop h.segment h.nodup (h.segment.length_le h.nodup)
  have hs : s.disposeList = some { s with heap, act := none, first := none } := by
    simp [State.disposeList, h.first, hloop]
  exact ⟨_, hs, rfl, by simp, by simp, rfl, rfl⟩

theorem insertFirst (h : Rep s l) (hitem : s.heap.get? item = none) :
    ∃ s', s.insertFirst val (some (item, fresh)) = some s' ∧ s'.err = s.err ∧
      Rep s' (l.insertFirst (item, val)) := by
  have hn := h.segment.notMem hitem
  obtain ⟨nodup, segment, first, act⟩ := h
  have hs : s.insertFirst val (some (item, fresh)) = some { s with
      heap := s.heap.insert item ⟨val, s.first⟩, first := item } := by
    cases hfirst : s.first <;> simp [State.insertFirst, hfirst]
  exact ⟨_, hs, rfl, by simp [hn, nodup], by simp [hn, segment, first], by simp, by simp [act]⟩

theorem toFirst (h : Rep s l) : Rep s.toFirst l.first where
  nodup := by simpa using h.nodup
  segment := by simpa [State.toFirst] using h.segment
  first := by simpa [State.toFirst] using h.first
  act := by simp [State.toFirst, h.first, headPtr_none, addrs]

theorem copyFirst (h : Rep s l) :
    s.copyFirst = some (match l.toList.head? with
      | none => (s.error, none)
      | some x => (s, some x.2)) := by
  have first := h.first
  have segment := h.segment
  cases hxs : l.toList with
  | nil => simp [State.copyFirst, first, hxs]
  | cons x xs =>
    simp [hxs] at segment
    simp [State.copyFirst, first, hxs, segment]

theorem deleteFirst (h : Rep s l) :
    ∃ s', s.deleteFirst = some s' ∧ s'.err = s.err ∧ Rep s' l.deleteFirst := by
  have ⟨nodup, segment, first, act⟩ := h
  have hact : l.deleteFirst.current?.map Prod.fst = if s.act = s.first then none else s.act := by
    have hcur := (l.map Prod.fst).current?_deleteFirst (by simpa [addrs] using nodup)
    rw [← CursorList.map_deleteFirst, CursorList.current?_map, CursorList.current?_map] at hcur
    rw [hcur, act, first, headPtr_none, CursorList.toList_map, addrs]
  cases hxs : l.toList with
  | nil =>
    simp [hxs] at first
    have hs : s.deleteFirst = some s := by simp [State.deleteFirst, first]
    exact ⟨s, hs, rfl, by simp [hxs], by simp [hxs], by simp [hxs, first],
      by rw [hact, first]; split <;> simp_all⟩
  | cons x xs =>
    simp [hxs] at first segment nodup
    have hs : s.deleteFirst = some { s with
        heap := s.heap.erase x.1, first := headPtr xs none
        act := if s.act = s.first then none else s.act } := by
      simp [State.deleteFirst, first, segment]
    exact ⟨_, hs, rfl, by simp [hxs, nodup], by simp [hxs, segment, nodup], by simp [hxs],
      hact.symm⟩

theorem postDelete (h : Rep s (.active b c xs)) :
    ∃ s', s.postDelete = some s' ∧ s'.err = s.err ∧ Rep s' (.active b c xs.tail) := by
  have ⟨nodup, segment, first, act⟩ := h
  cases xs with
  | nil =>
    simp at segment
    have hs : s.postDelete = some s := by simp [State.postDelete, act, segment]
    exact ⟨s, hs, rfl, h⟩
  | cons x xs =>
    simp [List.nodup_middle] at nodup segment first
    have hxc := Ne.symm nodup.1.2.1
    have hs : s.postDelete = some { s with
        heap := (s.heap.insert c.1 ⟨c.2, headPtr xs none⟩).erase x.1 } := by
      cases hnext : headPtr xs none <;> simp [State.postDelete, act, segment, hnext, hxc]
    exact ⟨_, hs, rfl, by simp [List.nodup_middle, nodup], by simp [segment, nodup],
      by simp [first], by simp [act]⟩

theorem postInsert (h : Rep s (.active b c xs)) (hitem : s.heap.get? item = none) :
    ∃ s', s.postInsert val (some (item, fresh)) = some s' ∧ s'.err = s.err ∧
      Rep s' (.active b c ((item, val) :: xs)) := by
  have hn := h.segment.notMem hitem
  obtain ⟨nodup, segment, first, act⟩ := h
  simp [List.nodup_middle] at nodup segment hn first
  have hne := Ne.symm hn.2.1
  cases hnext : headPtr xs none with
  | none =>
    rw [hnext] at segment
    have hs : s.postInsert val (some (item, fresh)) = some { s with
        heap := ((s.heap.insert item ⟨val, fresh.ptr⟩).insert c.1 ⟨c.2, some item⟩).insert item
          ⟨val, none⟩ } := by
      simp [State.postInsert, act, segment, hn, hne]
    exact ⟨_, hs, rfl, by simp [List.nodup_middle, hn, hne, nodup],
      by simp [hn, hne, segment, nodup, hnext], by simp [first], by simp [act]⟩
  | some p =>
    rw [hnext] at segment
    have hs : s.postInsert val (some (item, fresh)) = some { s with
        heap := (s.heap.insert item ⟨val, some p⟩).insert c.1 ⟨c.2, some item⟩ } := by
      simp [State.postInsert, act, segment, hne]
    exact ⟨_, hs, rfl, by simp [List.nodup_middle, hn, hne, nodup],
      by simp [hn, segment, nodup, hnext], by simp [first], by simp [act]⟩

theorem copy (h : Rep s l) :
    s.copy = some (match l.current? with
      | none => (s.error, none)
      | some x => (s, some x.2)) := by
  have act := h.act
  have segment := h.segment
  cases l with
  | inactive xs => simp [State.copy, act]
  | active b c xs =>
    simp at segment
    simp [State.copy, act, segment]

theorem actualize (h : Rep s l) :
    ∃ s', s.actualize val = some s' ∧ s'.err = s.err ∧
      Rep s' (l.actualize fun x => (x.1, val)) := by
  have ⟨nodup, segment, first, act⟩ := h
  cases l with
  | inactive xs => exact ⟨s, by simp [State.actualize, act], rfl, h⟩
  | active b c xs =>
    simp [List.nodup_middle] at nodup segment first
    have hs : s.actualize val = some { s with
        heap := s.heap.insert c.1 ⟨val, headPtr xs none⟩ } := by
      simp [State.actualize, act, segment]
    exact ⟨_, hs, rfl, by simp [CursorList.actualize, List.nodup_middle, nodup],
      by simp [CursorList.actualize, segment, nodup], by simp [CursorList.actualize, first],
      by simp [CursorList.actualize, act]⟩

theorem succ (h : Rep s l) : ∃ s', s.succ = some s' ∧ s'.err = s.err ∧ Rep s' l.succ := by
  have ⟨nodup, segment, first, act⟩ := h
  cases l with
  | inactive xs => exact ⟨s, by simp [State.succ, act], rfl, h⟩
  | active b c xs =>
    have hlist : (CursorList.active b c xs).succ.toList = b ++ c :: xs := by
      cases xs <;> simp [CursorList.succ]
    have hs : s.succ = some { s with act := headPtr xs none } := by
      simp at segment
      simp [State.succ, act, segment]
    exact ⟨_, hs, rfl, by simpa [hlist] using nodup, by simpa [hlist] using segment,
      by simpa [hlist] using first, by cases xs <;> simp [CursorList.succ]⟩

end Rep

/-! ## Calls and runs -/

/-- The memory holds the abstract list and the error states agree. -/
def Simulates : State → CursorList.State → Prop := module.Simulates Rep

open ListModule

/-- Every shared call succeeds, gives the reply of the abstract list and keeps to it. -/
theorem Simulates.call {s : State} {t : CursorList.State} {c : ListCall Malloc}
    (h : Simulates s t) (hshared : c.Shared) (hc : module.allocates s c) :
    ∃ s', module.call s c = some (s', (t.call (c.map Option.isSome)).2) ∧
      Simulates s' (t.call (c.map Option.isSome)).1 := by
  obtain ⟨l, hrep, rfl⟩ := h
  cases c with
  | initList =>
    exact simulates_update (M := module) (o := some s.initList) ⟨_, rfl, rfl, .initList s⟩ rfl
  | disposeList => exact simulates_update (M := module) hrep.disposeList rfl
  | insertFirst val m =>
    cases m with
    | none => exact simulates_raise (M := module) (t := ⟨_, s.err⟩) hrep.error rfl rfl
    | some m =>
      exact simulates_update (M := module) (hrep.insertFirst (Option.isNone_iff_eq_none.mp hc))
        (by simp)
  | first =>
    exact simulates_update (M := module) (o := some s.toFirst) ⟨_, rfl, rfl, hrep.toFirst⟩ (by simp)
  | copyFirst => exact simulates_store (M := module) hrep hrep.error rfl hrep.copyFirst (by simp)
  | deleteFirst => exact simulates_update (M := module) hrep.deleteFirst (by simp)
  | postDelete =>
    cases l with
    | inactive xs =>
      exact simulates_update (M := module) ⟨s, by simp [State.postDelete, hrep.act], rfl, hrep⟩ rfl
    | active b x xs =>
      exact simulates_update (M := module) hrep.postDelete (by simp [CursorList.map]; rfl)
  | postInsert val m =>
    cases l with
    | inactive xs =>
      exact simulates_update (M := module) (l := .inactive xs)
        ⟨s, by simp [State.postInsert, hrep.act], rfl, hrep⟩ rfl
    | active b x xs =>
      cases m with
      | none =>
        have hs : s.postInsert val none = some s.error := by simp [State.postInsert, hrep.act]
        simp only [module, State.call, hs]
        exact simulates_raise (M := module) (t := ⟨_, s.err⟩) hrep.error rfl rfl
      | some m =>
        exact simulates_update (M := module) (hrep.postInsert (Option.isNone_iff_eq_none.mp hc)) rfl
  | copy => exact simulates_store (M := module) hrep hrep.error rfl hrep.copy (by simp)
  | actualize val =>
    exact simulates_update (M := module) hrep.actualize (CursorList.map_actualize _ _ fun _ => rfl)
  | succ => exact simulates_update (M := module) hrep.succ (by simp)
  | active =>
    refine ⟨s, ?_, l, hrep, rfl⟩
    simp [module, State.call, State.active, hrep.act, CursorList.State.call, ListCall.map]
  | insertLast | last | copyLast | deleteLast | preDelete | preInsert | pred => exact hshared.elim

end SList
