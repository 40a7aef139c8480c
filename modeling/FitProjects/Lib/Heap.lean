import Mathlib.Data.List.Perm.Subperm

/-! # Heaps

A finite heap of cells of one type. Reading, writing and freeing through a pointer fail (`none`) when
the pointer does not point to a live cell, so a program that never fails never dereferences a null
or dangling pointer. `insert` and `erase` are the total functions that the successful operations
come down to. -/

/-- Addresses of cells. -/
abbrev Addr := Nat

/-- Pointers; `none` is the null pointer. -/
abbrev Ptr := Option Addr

/-- The live cells with their addresses. -/
structure Heap (α : Type u) where
  cells : List (Addr × α)

namespace Heap

variable {α : Type u} {β : Type v} {h : Heap α} {a b : Addr} {v w : α} {p n : Ptr}
  {x : Addr × β} {xs ys : List (Addr × β)}

def empty : Heap α := ⟨[]⟩

/-- The cell at an address. -/
def get? (h : Heap α) (a : Addr) : Option α := h.cells.lookup a

def erase (h : Heap α) (a : Addr) : Heap α := ⟨h.cells.filter fun c => c.1 != a⟩

def insert (h : Heap α) (a : Addr) (v : α) : Heap α := ⟨(a, v) :: (h.erase a).cells⟩

/-- Read the cell that a pointer points to. -/
def read (h : Heap α) (p : Ptr) : Option α := p.bind h.get?

/-- Change the cell that a pointer points to. -/
def modify (h : Heap α) (p : Ptr) (f : α → α) : Option (Heap α) :=
  p.bind fun a => (h.get? a).map fun v => h.insert a (f v)

/-- `free`: the null pointer is ignored. -/
def free (h : Heap α) : Ptr → Option (Heap α)
  | none => some h
  | some a => (h.get? a).map fun _ => h.erase a

@[simp] theorem get?_empty : (empty : Heap α).get? a = none := rfl

@[simp] theorem get?_erase_self : (h.erase a).get? a = none := by
  rw [get?, List.lookup_eq_none_iff]
  intro c hc
  have hne : c.1 ≠ a := by simpa using (List.mem_filter.mp hc).2
  simpa using hne.symm

@[simp] theorem get?_erase_of_ne (hab : b ≠ a) : (h.erase a).get? b = h.get? b := by
  simp only [get?, erase]
  induction h.cells with
  | nil => rfl
  | cons c cells ih =>
    obtain ⟨x, v⟩ := c
    by_cases hc : x = a
    · have hb : (b == x) = false := by simpa [hc] using hab
      simp [List.lookup_cons, hc ▸ hb, hc, ih]
    · simp [List.lookup_cons, hc, ih]

@[simp] theorem get?_insert_self : (h.insert a v).get? a = some v := by
  simp [get?, insert]

@[simp] theorem get?_insert_of_ne (hab : b ≠ a) : (h.insert a v).get? b = h.get? b := by
  have hb : (b == a) = false := by simpa using hab
  calc (h.insert a v).get? b = (h.erase a).get? b := by simp [get?, insert, List.lookup_cons, hb]
    _ = h.get? b := get?_erase_of_ne hab

@[simp] theorem insert_insert : (h.insert a v).insert a w = h.insert a w := by
  simp [insert, erase, List.filter_filter]

@[simp] theorem read_none : h.read none = none := rfl

@[simp] theorem read_some : h.read (some a) = h.get? a := rfl

@[simp] theorem modify_some {f : α → α} :
    h.modify (some a) f = (h.get? a).map fun v => h.insert a (f v) := rfl

@[simp] theorem free_some : h.free (some a) = (h.get? a).map fun _ => h.erase a := rfl

theorem mem_cells_of_get? (hv : h.get? a = some v) : (a, v) ∈ h.cells := by
  obtain ⟨l₁, l₂, hcells, -⟩ := List.lookup_eq_some_iff.mp hv
  simp [hcells]

/-- Distinct live addresses are at most as many as there are cells. -/
theorem length_le_of_live {l : List Addr} (hl : l.Nodup) (hlive : ∀ a ∈ l, (h.get? a).isSome) :
    l.length ≤ h.cells.length := by
  have hsub : l ⊆ h.cells.map Prod.fst := by
    intro a ha
    obtain ⟨v, hv⟩ := Option.isSome_iff_exists.mp (hlive a ha)
    exact List.mem_map_of_mem (f := Prod.fst) (mem_cells_of_get? hv)
  simpa using (hl.subperm hsub).length_le

/-! ## Chains -/

/-- The addresses of elements that are given with their values. -/
def addrs (xs : List (Addr × β)) : List Addr := xs.map Prod.fst

@[simp] theorem addrs_nil : addrs ([] : List (Addr × β)) = [] := rfl

@[simp] theorem addrs_cons : addrs (x :: xs) = x.1 :: addrs xs := rfl

@[simp] theorem addrs_append : addrs (xs ++ ys) = addrs xs ++ addrs ys := by
  simp [addrs]

/-- The address of the first element, or `n` if there is none. -/
def headPtr (xs : List (Addr × β)) (n : Ptr) : Ptr :=
  match xs with
  | [] => n
  | x :: _ => some x.1

@[simp] theorem headPtr_nil : headPtr ([] : List (Addr × β)) n = n := rfl

@[simp] theorem headPtr_cons : headPtr (x :: xs) n = some x.1 := rfl

@[simp] theorem headPtr_append : headPtr (xs ++ ys) n = headPtr xs (headPtr ys n) := by
  cases xs <;> rfl

theorem headPtr_none : headPtr xs none = (addrs xs).head? := by
  cases xs <;> rfl

/-- The address of the last element, or `p` if there is none. -/
def lastPtr (p : Ptr) : List (Addr × β) → Ptr
  | [] => p
  | x :: xs => lastPtr (some x.1) xs

@[simp] theorem lastPtr_nil : lastPtr p ([] : List (Addr × β)) = p := rfl

@[simp] theorem lastPtr_cons : lastPtr p (x :: xs) = lastPtr (some x.1) xs := rfl

@[simp] theorem lastPtr_append : lastPtr p (xs ++ ys) = lastPtr (lastPtr p xs) ys := by
  induction xs generalizing p with
  | nil => rfl
  | cons x xs ih => exact ih

theorem lastPtr_eq_or : lastPtr p xs = (addrs xs).getLast?.or p := by
  induction xs generalizing p with
  | nil => rfl
  | cons x xs ih =>
    rw [lastPtr_cons, ih, addrs_cons, List.getLast?_cons]
    cases (addrs xs).getLast? <;> rfl

theorem ne_headPtr (ha : b ≠ a) (hxs : b ∉ addrs xs) : some b ≠ headPtr xs (some a) := by
  cases xs with
  | nil => simpa using ha
  | cons x xs =>
    rw [addrs_cons, List.mem_cons, not_or] at hxs
    simpa using hxs.1

theorem ne_lastPtr (ha : b ≠ a) (hxs : b ∉ addrs xs) : some b ≠ lastPtr (some a) xs := by
  induction xs generalizing a with
  | nil => simpa using ha
  | cons x xs ih =>
    rw [addrs_cons, List.mem_cons, not_or] at hxs
    exact ih hxs.1 hxs.2

/-- The elements `xs` lie in the heap one after the other, `p` before the first one and `n` after
the last one; `cell` makes a cell of the pointer to the element before, the value and the pointer
to the element after. -/
def Segment (cell : Ptr → β → Ptr → α) (h : Heap α) (p n : Ptr) : List (Addr × β) → Prop
  | [] => True
  | x :: xs => h.get? x.1 = some (cell p x.2 (headPtr xs n)) ∧ Segment cell h (some x.1) n xs

section Segment
variable {cell : Ptr → β → Ptr → α}

@[simp] theorem segment_nil : Segment cell h p n [] := trivial

@[simp] theorem segment_cons : Segment cell h p n (x :: xs) ↔
    h.get? x.1 = some (cell p x.2 (headPtr xs n)) ∧ Segment cell h (some x.1) n xs := .rfl

@[simp] theorem segment_append : Segment cell h p n (xs ++ ys) ↔
    Segment cell h p (headPtr ys n) xs ∧ Segment cell h (lastPtr p xs) n ys := by
  induction xs generalizing p with
  | nil => simp
  | cons x xs ih => simp [ih, and_assoc]

/-- Elements elsewhere do not matter. -/
theorem Segment.congr {h' : Heap α} (hs : Segment cell h p n xs)
    (heq : ∀ x ∈ xs, h'.get? x.1 = h.get? x.1) : Segment cell h' p n xs := by
  induction xs generalizing p with
  | nil => trivial
  | cons x xs ih =>
    exact ⟨(heq x (by simp)).trans hs.1, ih hs.2 fun y hy => heq y (by simp [hy])⟩

@[simp] theorem segment_insert (ha : a ∉ addrs xs) :
    Segment cell (h.insert a v) p n xs ↔ Segment cell h p n xs := by
  have heq : ∀ x ∈ xs, (h.insert a v).get? x.1 = h.get? x.1 := fun _ hx =>
    get?_insert_of_ne fun hxa => ha (hxa ▸ List.mem_map_of_mem hx)
  exact ⟨fun hs => hs.congr fun x hx => (heq x hx).symm, fun hs => hs.congr heq⟩

@[simp] theorem segment_erase (ha : a ∉ addrs xs) :
    Segment cell (h.erase a) p n xs ↔ Segment cell h p n xs := by
  have heq : ∀ x ∈ xs, (h.erase a).get? x.1 = h.get? x.1 := fun _ hx =>
    get?_erase_of_ne fun hxa => ha (hxa ▸ List.mem_map_of_mem hx)
  exact ⟨fun hs => hs.congr fun x hx => (heq x hx).symm, fun hs => hs.congr heq⟩

theorem Segment.isSome (hs : Segment cell h p n xs) (ha : a ∈ addrs xs) :
    (h.get? a).isSome := by
  induction xs generalizing p with
  | nil => simp at ha
  | cons x xs ih =>
    rw [addrs_cons, List.mem_cons] at ha
    rcases ha with rfl | ha
    · simp [hs.1]
    · exact ih hs.2 ha

theorem Segment.notMem (hs : Segment cell h p n xs) (ha : h.get? a = none) : a ∉ addrs xs := by
  intro hmem
  have := hs.isSome hmem
  simp [ha] at this

/-- A segment of distinct elements has no more elements than the heap has cells. -/
theorem Segment.length_le (hs : Segment cell h p n xs) (hxs : (addrs xs).Nodup) :
    xs.length ≤ h.cells.length := by
  simpa [addrs] using length_le_of_live hxs fun _ ha => hs.isSome ha

end Segment

/-- Following `next` from `p` visits exactly the live cells at `as`, then reaches the null
pointer. -/
def Path (h : Heap α) (next : α → Ptr) (p : Ptr) : List Addr → Prop
  | [] => p = none
  | a :: as => p = some a ∧ ∃ v, h.get? a = some v ∧ h.Path next (next v) as

end Heap
