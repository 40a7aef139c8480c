import FitProjects.IAL.DList
import Mathlib.Data.List.Nodup
import Mathlib.Data.List.Induction

/-! # The doubly linked list implements the list with a cursor -/

namespace DList

open Heap (Segment addrs headPtr lastPtr addrs_cons headPtr_nil headPtr_none lastPtr_nil
  lastPtr_cons lastPtr_append lastPtr_eq_or ne_headPtr ne_lastPtr segment_cons segment_append
  segment_erase)

/-- The fields of an element between two others. -/
def cell (p : Ptr) (val : Int) (n : Ptr) : Elem := ⟨val, p, n⟩

attribute [local simp] cell

variable {h : Heap Elem} {p n : Ptr} {xs : List (Addr × Int)}

/-- What memory the list `l` of addresses and values takes. -/
structure Rep (s : State) (l : CursorList (Addr × Int)) : Prop where
  nodup : (addrs l.toList).Nodup
  segment : Segment cell s.heap none none l.toList
  first : s.first = headPtr l.toList none
  last : s.last = lastPtr none l.toList
  act : s.act = l.current?.map Prod.fst

namespace Rep

variable {s s' : State} {l : CursorList (Addr × Int)} {b : List (Addr × Int)} {c : Addr × Int}
  {val : Int} {item : Addr} {fresh : Elem}

open State

attribute [local simp] alloc setLptr setRptr setData assign deref State.free

theorem insertFirst (h : Rep s l) (hitem : s.heap.get? item = none) :
    ∃ s', s.insertFirst val (some (item, fresh)) = some s' ∧ s'.err = s.err ∧
      Rep s' (l.insertFirst (item, val)) := by
  have hn := h.segment.notMem hitem
  obtain ⟨nodup, segment, first, last, act⟩ := h
  cases hxs : l.toList with
  | nil =>
    simp only [hxs, headPtr_nil] at first
    have hs : s.insertFirst val (some (item, fresh)) = some { s with
        heap := s.heap.insert item ⟨val, none, none⟩, first := item, last := item } := by
      simp [State.insertFirst, first]
    exact ⟨_, hs, rfl, by simp [hxs], by simp [hxs], by simp, by simp [hxs], by simp [act]⟩
  | cons x xs =>
    simp [hxs] at first last segment hn nodup
    have hne := Ne.symm hn.1
    have hs : s.insertFirst val (some (item, fresh)) = some { s with
        heap := ((s.heap.insert item ⟨fresh.data, none, some x.1⟩).insert x.1
          ⟨x.2, some item, headPtr xs none⟩).insert item ⟨val, none, some x.1⟩
        first := item } := by
      simp [State.insertFirst, first, segment, hn, hne]
    exact ⟨_, hs, rfl, by simp [hxs, hn, nodup], by simp [hxs, hne, hn, nodup, segment], by simp,
      by simp [hxs, last], by simp [act]⟩

theorem insertLast (h : Rep s l) (hitem : s.heap.get? item = none) :
    ∃ s', s.insertLast val (some (item, fresh)) = some s' ∧ s'.err = s.err ∧
      Rep s' (l.insertLast (item, val)) := by
  have hn := h.segment.notMem hitem
  obtain ⟨nodup, segment, first, last, act⟩ := h
  rcases List.eq_nil_or_concat l.toList with hxs | ⟨xs, x, hxs⟩
  · simp only [hxs, lastPtr_nil] at last
    have hs : s.insertLast val (some (item, fresh)) = some { s with
        heap := s.heap.insert item ⟨val, none, none⟩, first := item, last := item } := by
      simp [State.insertLast, last]
    exact ⟨_, hs, rfl, by simp [hxs], by simp [hxs], by simp [hxs], by simp, by simp [act]⟩
  · simp [hxs, List.nodup_middle] at first last segment hn nodup
    have hne := Ne.symm hn.2
    have hs : s.insertLast val (some (item, fresh)) = some { s with
        heap := ((s.heap.insert item ⟨fresh.data, some x.1, none⟩).insert x.1
          ⟨x.2, lastPtr none xs, some item⟩).insert item ⟨val, some x.1, none⟩
        last := item } := by
      simp [State.insertLast, last, segment, hn, hne]
    exact ⟨_, hs, rfl, by simp [hxs, List.nodup_middle, hn, hne, nodup],
      by simp [hxs, hne, hn, nodup, segment], by simp [hxs, first], by simp, by simp [act]⟩

theorem postInsert (h : Rep s (.active b c xs)) (hitem : s.heap.get? item = none) :
    ∃ s', s.postInsert val (some (item, fresh)) = some s' ∧ s'.err = s.err ∧
      Rep s' (.active b c ((item, val) :: xs)) := by
  have hn := h.segment.notMem hitem
  obtain ⟨nodup, segment, first, last, act⟩ := h
  cases xs with
  | nil =>
    simp [List.nodup_middle] at nodup segment hn first last
    have hne := Ne.symm hn.2
    have hs : s.postInsert val (some (item, fresh)) = some { s with
        heap := ((s.heap.insert item ⟨fresh.data, some c.1, none⟩).insert c.1
          ⟨c.2, lastPtr none b, some item⟩).insert item ⟨val, some c.1, none⟩
        last := item } := by
      simp [State.postInsert, act, segment, hn, hne]
    exact ⟨_, hs, rfl, by simp [List.nodup_middle, hn, hne, nodup],
      by simp [hn, hne, segment, nodup], by simp [first], by simp, by simp [act]⟩
  | cons x xs =>
    simp [List.nodup_middle] at nodup segment hn first last
    have hne := Ne.symm hn.2.1
    have hne' := Ne.symm hn.2.2.1
    have hcx := Ne.symm nodup.1.2.1
    have hs : s.postInsert val (some (item, fresh)) = some { s with
        heap := (((s.heap.insert item ⟨fresh.data, some c.1, some x.1⟩).insert c.1
          ⟨c.2, lastPtr none b, some item⟩).insert x.1 ⟨x.2, some item, headPtr xs none⟩).insert item
            ⟨val, some c.1, some x.1⟩ } := by
      simp [State.postInsert, act, segment, hn, hne, hne', hcx]
    exact ⟨_, hs, rfl, by simp [List.nodup_middle, hn, hne, nodup],
      by simp [hn, hne, hne', segment, nodup], by simp [first], by simp [last], by simp [act]⟩

theorem preInsert (h : Rep s (.active b c xs)) (hitem : s.heap.get? item = none) :
    ∃ s', s.preInsert val (some (item, fresh)) = some s' ∧ s'.err = s.err ∧
      Rep s' (.active (b ++ [(item, val)]) c xs) := by
  have hn := h.segment.notMem hitem
  obtain ⟨nodup, segment, first, last, act⟩ := h
  rcases List.eq_nil_or_concat b with rfl | ⟨b, x, rfl⟩
  · simp at nodup segment hn first last
    have hne := Ne.symm hn.1
    have hs : s.preInsert val (some (item, fresh)) = some { s with
        heap := ((s.heap.insert item ⟨fresh.data, none, some c.1⟩).insert c.1
          ⟨c.2, some item, headPtr xs none⟩).insert item ⟨val, none, some c.1⟩
        first := item } := by
      simp [State.preInsert, act, segment, hn, hne]
    exact ⟨_, hs, rfl, by simp [hn, nodup], by simp [hn, hne, segment, nodup], by simp,
      by simp [last], by simp [act]⟩
  · simp [List.nodup_middle] at nodup segment hn first last
    have hne := Ne.symm hn.2.1
    have hne' := Ne.symm hn.2.2.1
    have hxc := Ne.symm nodup.1.2.1
    have hs : s.preInsert val (some (item, fresh)) = some { s with
        heap := (((s.heap.insert item ⟨fresh.data, some x.1, some c.1⟩).insert c.1
          ⟨c.2, some item, headPtr xs none⟩).insert x.1 ⟨x.2, lastPtr none b, some item⟩).insert
            item ⟨val, some x.1, some c.1⟩ } := by
      simp [State.preInsert, act, segment, hn, hne, hne', nodup]
    exact ⟨_, hs, rfl, by simp [List.nodup_middle, hn, hne, nodup],
      by simp [hn, hne, hne', hxc, segment, nodup], by simp [first], by simp [last], by simp [act]⟩

theorem deleteFirst (h : Rep s l) :
    ∃ s', s.deleteFirst = some s' ∧ s'.err = s.err ∧ Rep s' l.deleteFirst := by
  have ⟨nodup, segment, first, last, act⟩ := h
  have hact : l.deleteFirst.current?.map Prod.fst = if s.first = s.act then none else s.act := by
    have hcur := (l.map Prod.fst).current?_deleteFirst (by simpa [addrs] using nodup)
    rw [← CursorList.map_deleteFirst, CursorList.current?_map, CursorList.current?_map] at hcur
    rw [hcur, act, first, headPtr_none, CursorList.toList_map, addrs]
    simp only [eq_comm]
  cases hxs : l.toList with
  | nil =>
    simp [hxs] at first
    have hs : s.deleteFirst = some s := by simp [State.deleteFirst, first]
    exact ⟨s, hs, rfl, by simp [hxs], by simp [hxs], by simp [hxs, first], by simp [hxs, last],
      by rw [hact, first]; split <;> simp [*]⟩
  | cons x xs =>
    cases xs with
    | nil =>
      simp [hxs] at first last segment
      have hs : s.deleteFirst = some { s with
          heap := s.heap.erase x.1, first := none, last := none
          act := if s.first = s.act then none else s.act } := by
        simp [State.deleteFirst, first, last, segment]
      exact ⟨_, hs, rfl, by simp [hxs], by simp [hxs], by simp [hxs], by simp [hxs], hact.symm⟩
    | cons y ys =>
      simp [hxs] at first last segment nodup
      have hne := Ne.symm nodup.1.1
      have hlast := ne_lastPtr nodup.1.1 nodup.1.2
      have hs : s.deleteFirst = some { s with
          heap := (s.heap.insert y.1 ⟨y.2, none, headPtr ys none⟩).erase x.1, first := y.1
          act := if s.first = s.act then none else s.act } := by
        simp [State.deleteFirst, first, last, segment, hlast, nodup]
      exact ⟨_, hs, rfl, by simp [hxs, nodup], by simp [hxs, segment, nodup, hne], by simp [hxs],
        by simp [hxs, last], hact.symm⟩

theorem deleteLast (h : Rep s l) :
    ∃ s', s.deleteLast = some s' ∧ s'.err = s.err ∧ Rep s' l.deleteLast := by
  have ⟨nodup, segment, first, last, act⟩ := h
  have hact : l.deleteLast.current?.map Prod.fst = if s.last = s.act then none else s.act := by
    have hcur := (l.map Prod.fst).current?_deleteLast (by simpa [addrs] using nodup)
    rw [← CursorList.map_deleteLast, CursorList.current?_map, CursorList.current?_map] at hcur
    rw [hcur, act, last, lastPtr_eq_or, Option.or_none, CursorList.toList_map, addrs]
    simp only [eq_comm]
  rcases List.eq_nil_or_concat l.toList with hxs | ⟨xs, x, hxs⟩
  · simp [hxs] at last
    have hs : s.deleteLast = some s := by simp [State.deleteLast, last]
    exact ⟨s, hs, rfl, by simp [hxs], by simp [hxs], by simp [hxs, first], by simp [hxs, last],
      by rw [hact, last]; split <;> simp [*]⟩
  · rcases List.eq_nil_or_concat xs with rfl | ⟨ys, y, rfl⟩
    · simp [hxs] at first last segment
      have hs : s.deleteLast = some { s with
          heap := s.heap.erase x.1, first := none, last := none
          act := if s.last = s.act then none else s.act } := by
        simp [State.deleteLast, last, segment]
      exact ⟨_, hs, rfl, by simp [hxs], by simp [hxs], by simp [hxs], by simp [hxs], hact.symm⟩
    · simp [hxs, List.nodup_middle] at first last segment nodup
      have hne := Ne.symm nodup.1.2
      have hs : s.deleteLast = some { s with
          heap := (s.heap.insert y.1 ⟨y.2, lastPtr none ys, none⟩).erase x.1, last := y.1
          act := if s.last = s.act then none else s.act } := by
        simp [State.deleteLast, last, segment, hne]
      exact ⟨_, hs, rfl, by simp [hxs, List.nodup_middle, nodup],
        by simp [hxs, segment, nodup], by simp [hxs, first], by simp [hxs], hact.symm⟩

theorem postDelete (h : Rep s (.active b c xs)) :
    ∃ s', s.postDelete = some s' ∧ s'.err = s.err ∧ Rep s' (.active b c xs.tail) := by
  have ⟨nodup, segment, first, last, act⟩ := h
  cases xs with
  | nil =>
    simp at last
    have hs : s.postDelete = some s := by simp [State.postDelete, act, last]
    exact ⟨s, hs, rfl, h⟩
  | cons x xs =>
    cases xs with
    | nil =>
      simp [List.nodup_middle] at nodup segment first last
      have hne := Ne.symm nodup.1.2
      have hs : s.postDelete = some { s with
          heap := (s.heap.insert c.1 ⟨c.2, lastPtr none b, none⟩).erase x.1
          last := c.1 } := by
        simp [State.postDelete, act, last, segment, nodup, hne]
      exact ⟨_, hs, rfl, by simp [List.nodup_middle, nodup],
        by simp [segment, nodup], by simp [first], by simp, by simp [act]⟩
    | cons y ys =>
      simp [List.nodup_middle] at nodup segment first last
      have hxc := Ne.symm nodup.1.2.1
      have hyc := Ne.symm nodup.1.2.2.1
      have hyx := Ne.symm nodup.2.1.2.1
      have hlast := ne_lastPtr nodup.1.2.2.1 nodup.1.2.2.2
      have hs : s.postDelete = some { s with
          heap := ((s.heap.insert c.1 ⟨c.2, lastPtr none b, some y.1⟩).insert y.1
            ⟨y.2, some c.1, headPtr ys none⟩).erase x.1 } := by
        simp [State.postDelete, act, last, segment, nodup, hlast, hxc, hyc]
      exact ⟨_, hs, rfl, by simp [List.nodup_middle, nodup],
        by simp [segment, nodup, hyx], by simp [first], by simp [last], by simp [act]⟩

theorem preDelete (h : Rep s (.active b c xs)) :
    ∃ s', s.preDelete = some s' ∧ s'.err = s.err ∧ Rep s' (.active b.dropLast c xs) := by
  have ⟨nodup, segment, first, last, act⟩ := h
  rcases List.eq_nil_or_concat b with rfl | ⟨b, x, rfl⟩
  · simp at first
    have hs : s.preDelete = some s := by simp [State.preDelete, act, first]
    exact ⟨s, hs, rfl, h⟩
  · rcases List.eq_nil_or_concat b with rfl | ⟨ys, y, rfl⟩
    · simp at nodup segment first last
      have hne := Ne.symm nodup.1.1
      have hs : s.preDelete = some { s with
          heap := (s.heap.insert c.1 ⟨c.2, none, headPtr xs none⟩).erase x.1
          first := c.1 } := by
        simp [State.preDelete, act, first, segment, nodup, hne]
      exact ⟨_, hs, rfl, by simp [nodup], by simp [segment, nodup, hne], by simp, by simp [last],
        by simp [act]⟩
    · simp [List.nodup_middle] at nodup segment first last
      have hcy := Ne.symm nodup.1.2.2.1
      have hxy := Ne.symm nodup.1.2.1
      have hcx := Ne.symm nodup.2.1.2.1
      have hfirst : some c.1 ≠ headPtr ys (some y.1) := ne_headPtr hcy nodup.2.2.1.1
      have hs : s.preDelete = some { s with
          heap := ((s.heap.insert c.1 ⟨c.2, some y.1, headPtr xs none⟩).insert y.1
            ⟨y.2, lastPtr none ys, some c.1⟩).erase x.1 } := by
        simp [State.preDelete, act, first, segment, nodup, hfirst, hxy]
      exact ⟨_, hs, rfl, by simp [List.nodup_middle, nodup],
        by simp [segment, nodup, hcx, hcy], by simp [first], by simp [last], by simp [act]⟩

theorem initList (s : State) : Rep s.initList (.inactive []) :=
  ⟨by simp, by simp, rfl, rfl, rfl⟩

theorem disposeLoop {k : Nat} (hs : Segment cell s.heap p none xs) (hxs : (addrs xs).Nodup)
    (hk : xs.length ≤ k) : ∃ heap, s.disposeLoop k (headPtr xs none) = some { s with heap } := by
  induction xs generalizing s p k with
  | nil => exact ⟨s.heap, by cases k <;> rfl⟩
  | cons x xs ih =>
    cases k with
    | zero => simp at hk
    | succ k =>
      rw [addrs_cons, List.nodup_cons] at hxs
      have hrest : Segment cell (s.heap.erase x.1) (some x.1) none xs :=
        (segment_erase hxs.1).mpr hs.2
      obtain ⟨heap, hloop⟩ := ih (s := { s with heap := s.heap.erase x.1 }) hrest hxs.2
        (by simpa using hk)
      exact ⟨heap, by simpa [State.disposeLoop, hs.1] using hloop⟩

theorem disposeList (h : Rep s l) :
    ∃ s', s.disposeList = some s' ∧ s'.err = s.err ∧ Rep s' (.inactive []) := by
  obtain ⟨heap, hloop⟩ := disposeLoop h.segment h.nodup (h.segment.length_le h.nodup)
  have hs : s.disposeList = some { s with heap, act := none, first := none, last := none } := by
    simp [State.disposeList, h.first, hloop]
  exact ⟨_, hs, rfl, by simp, by simp, rfl, rfl, rfl⟩

theorem toFirst (h : Rep s l) : Rep s.toFirst l.first where
  nodup := by simpa using h.nodup
  segment := by simpa [State.toFirst] using h.segment
  first := by simpa [State.toFirst] using h.first
  last := by simpa [State.toFirst] using h.last
  act := by simp [State.toFirst, h.first, headPtr_none, addrs]

theorem toLast (h : Rep s l) : Rep s.toLast l.last where
  nodup := by simpa using h.nodup
  segment := by simpa [State.toLast] using h.segment
  first := by simpa [State.toLast] using h.first
  last := by simpa [State.toLast] using h.last
  act := by simp [State.toLast, h.last, lastPtr_eq_or, addrs]

theorem copyFirst (h : Rep s l) :
    s.copyFirst = some (match l.toList.head? with
      | none => (s.error, none)
      | some x => (s, some x.2)) := by
  have first := h.first
  have segment := h.segment
  cases hxs : l.toList with
  | nil => simp [State.copyFirst, first, hxs]
  | cons x xs =>
    simp [hxs] at segment
    simp [State.copyFirst, first, hxs, segment]

theorem copyLast (h : Rep s l) :
    s.copyLast = some (match l.toList.getLast? with
      | none => (s.error, none)
      | some x => (s, some x.2)) := by
  have last := h.last
  have segment := h.segment
  rcases List.eq_nil_or_concat l.toList with hxs | ⟨xs, x, hxs⟩
  · simp [State.copyLast, last, hxs]
  · simp [hxs] at segment
    simp [State.copyLast, last, hxs, segment]

theorem copy (h : Rep s l) :
    s.copy = some (match l.current? with
      | none => (s.error, none)
      | some x => (s, some x.2)) := by
  have act := h.act
  have segment := h.segment
  cases l with
  | inactive xs => simp [State.copy, act]
  | active b c xs =>
    simp at segment
    simp [State.copy, act, segment]

theorem actualize (h : Rep s l) :
    ∃ s', s.actualize val = some s' ∧ s'.err = s.err ∧
      Rep s' (l.actualize fun x => (x.1, val)) := by
  have ⟨nodup, segment, first, last, act⟩ := h
  cases l with
  | inactive xs => exact ⟨s, by simp [State.actualize, act], rfl, h⟩
  | active b c xs =>
    simp [List.nodup_middle] at nodup segment first last
    have hs : s.actualize val = some { s with
        heap := s.heap.insert c.1 ⟨val, lastPtr none b, headPtr xs none⟩ } := by
      simp [State.actualize, act, segment]
    exact ⟨_, hs, rfl, by simp [CursorList.actualize, List.nodup_middle, nodup],
      by simp [CursorList.actualize, segment, nodup], by simp [CursorList.actualize, first],
      by simp [CursorList.actualize, last], by simp [CursorList.actualize, act]⟩

theorem succ (h : Rep s l) :
    ∃ s', s.succ = some s' ∧ s'.err = s.err ∧ Rep s' l.succ := by
  have ⟨nodup, segment, first, last, act⟩ := h
  cases l with
  | inactive xs => exact ⟨s, by simp [State.succ, act], rfl, h⟩
  | active b c xs =>
    have hlist : (CursorList.active b c xs).succ.toList = b ++ c :: xs := by
      cases xs <;> simp [CursorList.succ]
    have hs : s.succ = some { s with act := headPtr xs none } := by
      simp at segment
      simp [State.succ, act, segment]
    exact ⟨_, hs, rfl, by simpa [hlist] using nodup, by simpa [hlist] using segment,
      by simpa [hlist] using first, by simpa [hlist] using last,
      by cases xs <;> simp [CursorList.succ]⟩

theorem pred (h : Rep s l) :
    ∃ s', s.pred = some s' ∧ s'.err = s.err ∧ Rep s' l.pred := by
  have ⟨nodup, segment, first, last, act⟩ := h
  cases l with
  | inactive xs => exact ⟨s, by simp [State.pred, act], rfl, h⟩
  | active b c xs =>
    have hs : s.pred = some { s with act := lastPtr none b } := by
      simp at segment
      simp [State.pred, act, segment]
    rcases List.eq_nil_or_concat b with rfl | ⟨b, x, rfl⟩
    · exact ⟨_, hs, rfl, by simpa [CursorList.pred] using nodup,
        by simpa [CursorList.pred] using segment, by simpa [CursorList.pred] using first,
        by simpa [CursorList.pred] using last, by simp [CursorList.pred]⟩
    · exact ⟨_, hs, rfl, by simpa [CursorList.pred] using nodup,
        by simpa [CursorList.pred] using segment, by simpa [CursorList.pred] using first,
        by simpa [CursorList.pred] using last, by simp [CursorList.pred]⟩

theorem error (h : Rep s l) : Rep s.error l := ⟨h.nodup, h.segment, h.first, h.last, h.act⟩

/-- A call whose `malloc` fails leaves the memory alone. -/
theorem call_of_malloc_none {c : ListCall Malloc} (hc : c.malloc? = some none)
    (hs : s.call c = some (s', r)) : s' = s ∨ s' = s.error := by
  cases c with
  | insertFirst val m | insertLast val m =>
    obtain rfl : m = none := by simpa [ListCall.malloc?] using hc
    cases hs
    exact .inr rfl
  | postInsert val m =>
    obtain rfl : m = none := by simpa [ListCall.malloc?] using hc
    cases hact : s.act <;> simp [State.call, State.postInsert, hact, reply] at hs <;> simp [← hs]
  | preInsert val m =>
    obtain rfl : m = none := by simpa [ListCall.malloc?] using hc
    cases hact : s.act <;> simp [State.call, State.preInsert, hact, reply] at hs <;> simp [← hs]
  | _ => simp [ListCall.malloc?] at hc

end Rep

/-! ## Calls and runs -/

/-- The memory holds the abstract list and the error states agree. -/
def Simulates : State → CursorList.State → Prop := module.Simulates Rep

open ListModule

/-- Every call succeeds, gives the reply of the abstract list and keeps to it. -/
theorem Simulates.call {s : State} {t : CursorList.State} {c : ListCall Malloc}
    (h : Simulates s t) (hc : module.allocates s c) :
    ∃ s', module.call s c = some (s', (t.call (c.map Option.isSome)).2) ∧
      Simulates s' (t.call (c.map Option.isSome)).1 := by
  obtain ⟨l, hrep, rfl⟩ := h
  cases c with
  | initList =>
    exact simulates_update (M := module) (o := some s.initList) ⟨_, rfl, rfl, .initList s⟩ rfl
  | disposeList => exact simulates_update (M := module) hrep.disposeList rfl
  | insertFirst val m =>
    cases m with
    | none => exact simulates_raise (M := module) (t := ⟨_, s.err⟩) hrep.error rfl rfl
    | some m =>
      exact simulates_update (M := module) (hrep.insertFirst (Option.isNone_iff_eq_none.mp hc))
        (by simp)
  | insertLast val m =>
    cases m with
    | none => exact simulates_raise (M := module) (t := ⟨_, s.err⟩) hrep.error rfl rfl
    | some m =>
      exact simulates_update (M := module) (hrep.insertLast (Option.isNone_iff_eq_none.mp hc))
        (by simp)
  | first =>
    exact simulates_update (M := module) (o := some s.toFirst) ⟨_, rfl, rfl, hrep.toFirst⟩ (by simp)
  | last =>
    exact simulates_update (M := module) (o := some s.toLast) ⟨_, rfl, rfl, hrep.toLast⟩ (by simp)
  | copyFirst => exact simulates_store (M := module) hrep hrep.error rfl hrep.copyFirst (by simp)
  | copyLast => exact simulates_store (M := module) hrep hrep.error rfl hrep.copyLast (by simp)
  | deleteFirst => exact simulates_update (M := module) hrep.deleteFirst (by simp)
  | deleteLast => exact simulates_update (M := module) hrep.deleteLast (by simp)
  | postDelete =>
    cases l with
    | inactive xs =>
      exact simulates_update (M := module) ⟨s, by simp [State.postDelete, hrep.act], rfl, hrep⟩ rfl
    | active b x xs =>
      exact simulates_update (M := module) hrep.postDelete (by simp [CursorList.map]; rfl)
  | preDelete =>
    cases l with
    | inactive xs =>
      exact simulates_update (M := module) ⟨s, by simp [State.preDelete, hrep.act], rfl, hrep⟩ rfl
    | active b x xs =>
      exact simulates_update (M := module) hrep.preDelete (by simp [CursorList.map]; rfl)
  | postInsert val m =>
    cases l with
    | inactive xs =>
      exact simulates_update (M := module) (l := .inactive xs)
        ⟨s, by simp [State.postInsert, hrep.act], rfl, hrep⟩ rfl
    | active b x xs =>
      cases m with
      | none =>
        have hs : s.postInsert val none = some s.error := by simp [State.postInsert, hrep.act]
        simp only [module, State.call, hs]
        exact simulates_raise (M := module) (t := ⟨_, s.err⟩) hrep.error rfl rfl
      | some m =>
        exact simulates_update (M := module) (hrep.postInsert (Option.isNone_iff_eq_none.mp hc)) rfl
  | preInsert val m =>
    cases l with
    | inactive xs =>
      exact simulates_update (M := module) (l := .inactive xs)
        ⟨s, by simp [State.preInsert, hrep.act], rfl, hrep⟩ rfl
    | active b x xs =>
      cases m with
      | none =>
        have hs : s.preInsert val none = some s.error := by simp [State.preInsert, hrep.act]
        simp only [module, State.call, hs]
        exact simulates_raise (M := module) (t := ⟨_, s.err⟩) hrep.error rfl rfl
      | some m =>
        exact simulates_update (M := module) (hrep.preInsert (Option.isNone_iff_eq_none.mp hc))
          (by simp [CursorList.map]; rfl)
  | copy => exact simulates_store (M := module) hrep hrep.error rfl hrep.copy (by simp)
  | actualize val =>
    exact simulates_update (M := module) hrep.actualize (CursorList.map_actualize _ _ fun _ => rfl)
  | succ => exact simulates_update (M := module) hrep.succ (by simp)
  | pred => exact simulates_update (M := module) hrep.pred (by simp)
  | active =>
    refine ⟨s, ?_, l, hrep, rfl⟩
    simp [module, State.call, State.active, hrep.act, CursorList.State.call, ListCall.map]

/-! ## Well-formed lists -/

/-- The elements are linked from `First` to `Last` and back. -/
structure WellFormed (s : State) (nodes : List Addr) : Prop where
  nodup : nodes.Nodup
  forward : s.heap.Path (·.rptr) s.first nodes
  backward : s.heap.Path (·.lptr) s.last nodes.reverse
  first : s.first = nodes.head?
  last : s.last = nodes.getLast?
  act : ∀ a, s.act = some a → a ∈ nodes

theorem path_forward (hs : Segment cell h p none xs) :
    h.Path (·.rptr) (headPtr xs none) (addrs xs) := by
  induction xs generalizing p with
  | nil => rfl
  | cons x xs ih => exact ⟨rfl, _, hs.1, ih hs.2⟩

theorem path_backward (hs : Segment cell h none n xs) :
    h.Path (·.lptr) (lastPtr none xs) (addrs xs).reverse := by
  induction xs using List.reverseRecOn generalizing n with
  | nil => rfl
  | append_singleton xs x ih =>
    simp only [segment_append, segment_cons] at hs
    simp only [lastPtr_append, lastPtr_cons, lastPtr_nil, Heap.addrs_append, addrs_cons,
      Heap.addrs_nil, List.reverse_append, List.reverse_singleton, List.singleton_append]
    exact ⟨rfl, _, hs.2.1, ih hs.1⟩

theorem Rep.wellFormed {s : State} {l : CursorList (Addr × Int)} (h : Rep s l) :
    WellFormed s (addrs l.toList) where
  nodup := h.nodup
  forward := h.first ▸ path_forward h.segment
  backward := h.last ▸ path_backward h.segment
  first := h.first.trans headPtr_none
  last := by rw [h.last, lastPtr_eq_or, Option.or_none]
  act a ha := by
    cases l with
    | inactive xs => simp [h.act] at ha
    | active b c xs =>
      obtain rfl : c.1 = a := by simpa [h.act] using ha
      simp

/-- From `DLInitList` every sequence of calls succeeds: no null or dangling pointer is used, the
replies are those of the abstract list, which the memory holds afterwards as a well-formed doubly
linked list, and a call whose `malloc` fails then changes the error state at most. -/
theorem run_refines (s₀ : State) (calls : List (ListCall Malloc))
    (h : module.allocatesAll s₀.initList calls) :
    ∃ s t rs, module.run s₀.initList calls = some (s, rs) ∧
      CursorList.State.run ⟨.inactive [], s₀.err⟩ (calls.map (·.map Option.isSome)) = (t, rs) ∧
      Simulates s t ∧ (∃ nodes, WellFormed s nodes) ∧
      ∀ c s' r, c.malloc? = some none → s.call c = some (s', r) → s' = s ∨ s' = s.error := by
  have hinit : Simulates s₀.initList ⟨.inactive [], s₀.err⟩ := ⟨_, Rep.initList s₀, rfl⟩
  obtain ⟨s, hrun, hsim⟩ := run_of_simulates (P := fun _ => True)
    (fun hs _ => Simulates.call hs) hinit (by simp) h
  have ⟨l, hrep, _⟩ := hsim
  exact ⟨s, _, _, hrun, rfl, hsim, ⟨_, hrep.wellFormed⟩, fun _ _ _ => Rep.call_of_malloc_none⟩

/-- Memory that holds an empty list. -/
def emptyState : State := ⟨.empty, none, none, none, ⟨false, 0⟩⟩

/-- Calls that insert on both sides of the cursor, fail once to allocate, and delete. -/
def someCalls : List (ListCall Malloc) :=
  [.insertFirst 1 (some (10, ⟨0, none, none⟩)), .first, .postInsert 2 (some (20, ⟨0, none, none⟩)),
    .preInsert 3 none, .deleteFirst]

theorem run_refines_someCalls :
    ∃ s t rs, module.run emptyState.initList someCalls = some (s, rs) ∧
      CursorList.State.run ⟨.inactive [], ⟨false, 0⟩⟩ (someCalls.map (·.map Option.isSome)) =
        (t, rs) ∧
      Simulates s t ∧ (∃ nodes, WellFormed s nodes) ∧
      ∀ c s' r, c.malloc? = some none → s.call c = some (s', r) → s' = s ∨ s' = s.error :=
  run_refines emptyState someCalls (by decide)

end DList
