import Mathlib.Data.Nat.ModEq

/-! # Ring buffers

A list in an array of `n` places, from the place `f` on and around its end, and the bounded queue
that such a list is used for: `History` keeps all elements that were ever put in, so that the order
in which they come out is part of what it is. -/

namespace Ring

variable {α : Type u} {arr l : List α} {n f : Nat} {x : α}

/-- The elements of `l` stand in the array from the place `f` on. -/
def Window (arr : List α) (n f : Nat) (l : List α) : Prop :=
  ∀ k x, l[k]? = some x → arr[(f + k) % n]? = some x

/-- Less than a round apart, places are different. -/
theorem mod_ne (h : k < m) (hm : m < k + n) : (f + k) % n ≠ (f + m) % n := by
  intro heq
  have hdvd := (Nat.modEq_iff_dvd' h.le).mp (Nat.ModEq.add_left_cancel' f heq)
  exact absurd (Nat.le_of_dvd (by omega) hdvd) (by omega)

/-- The place behind a list that is shorter than the array is its start if the list is empty. -/
theorem place_eq_iff (hf : f < n) (hl : m < n) : (f + m) % n = f ↔ m = 0 := by
  constructor
  · intro heq
    by_contra hne
    refine mod_ne (n := n) (f := f) (Nat.pos_of_ne_zero hne) (by omega) ?_
    rw [heq, Nat.add_zero, Nat.mod_eq_of_lt hf]
  · rintro rfl
    exact Nat.mod_eq_of_lt hf

/-- The next place is the start if the list leaves one place free. -/
theorem next_eq_iff (hf : f < n) (hl : m < n) : ((f + m) % n + 1) % n = f ↔ m + 1 = n := by
  rw [Nat.mod_add_mod, Nat.add_assoc]
  rcases Nat.lt_or_eq_of_le (Nat.succ_le_of_lt hl) with hlt | heq
  · rw [place_eq_iff hf hlt]
    omega
  · rw [show m + 1 = n from heq, Nat.add_mod_right, Nat.mod_eq_of_lt hf]
    exact ⟨fun _ => rfl, fun _ => rfl⟩

theorem Window.nil (arr : List α) (n f : Nat) : Window arr n f [] := by
  intro k x h
  simp at h

theorem Window.head (h : Window arr n f (x :: l)) (hf : f < n) : arr[f]? = some x := by
  have hget := h 0 x rfl
  rwa [Nat.add_zero, Nat.mod_eq_of_lt hf] at hget

theorem Window.tail (h : Window arr n f (x :: l)) : Window arr n ((f + 1) % n) l := by
  intro k y hy
  rw [Nat.mod_add_mod, Nat.add_assoc, Nat.add_comm 1 k]
  exact h (k + 1) y hy

/-- An element is put behind the list. -/
theorem Window.push (h : Window arr n f l) (hn : n ≤ arr.length) (hl : l.length < n) (x : α) :
    Window (arr.set ((f + l.length) % n) x) n f (l ++ [x]) := by
  intro k y hy
  rcases Nat.lt_or_ge k l.length with hlt | hge
  · rw [List.getElem?_append_left hlt] at hy
    rw [List.getElem?_set_ne (mod_ne hlt (by omega)).symm]
    exact h k y hy
  · obtain rfl : k = l.length := by
      have hk := (List.getElem?_eq_some_iff.mp hy).1
      rw [List.length_append, List.length_singleton] at hk
      omega
    rw [List.getElem?_concat_length] at hy
    have hlt : (f + l.length) % n < arr.length := (Nat.mod_lt _ (by omega)).trans_le hn
    rw [List.getElem?_set_self hlt, hy]

/-! ## Bounded queues -/

/-- All elements that were put into a queue, and how many of them have been taken out. -/
structure History (α : Type u) where
  inserted : List α
  taken : Nat
  taken_le : taken ≤ inserted.length

namespace History

variable {h : History α}

/-- The first element that has not been taken out. -/
def next? (h : History α) : Option α := h.inserted[h.taken]?

/-- The elements in the queue. -/
def contents (h : History α) : List α := h.inserted.drop h.taken

def empty : History α := ⟨[], 0, Nat.le_refl 0⟩

/-- Put an element in. -/
def insert (h : History α) (x : α) : History α where
  inserted := h.inserted ++ [x]
  taken := h.taken
  taken_le := by
    have := h.taken_le
    rw [List.length_append]
    omega

/-- Take the first element out, if there is one. -/
def take (h : History α) : History α where
  inserted := h.inserted
  taken := min (h.taken + 1) h.inserted.length
  taken_le := Nat.min_le_right ..

@[simp] theorem contents_empty : (empty : History α).contents = [] := rfl

@[simp] theorem contents_insert : (h.insert x).contents = h.contents ++ [x] :=
  List.drop_append_of_le_length h.taken_le

theorem contents_take : h.take.contents = h.contents.tail := by
  change h.inserted.drop (min (h.taken + 1) h.inserted.length) = (h.inserted.drop h.taken).tail
  rw [List.tail_drop]
  rcases Nat.lt_or_ge h.taken h.inserted.length with hlt | hge
  · rw [Nat.min_eq_left hlt]
  · rw [Nat.min_eq_right (by omega), List.drop_length, List.drop_eq_nil_of_le (by omega)]

/-- The queue is first in, first out. -/
theorem next?_eq : h.next? = h.contents.head? := List.head?_drop.symm

end History

end Ring
