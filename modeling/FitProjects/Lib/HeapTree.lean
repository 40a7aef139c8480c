import FitProjects.Lib.Heap
import Mathlib.Data.Tree.Basic

/-! # Binary trees in a heap

The three orders in which the nodes of a tree are visited, and the heaps that hold a tree whose
nodes are given with their addresses. -/

namespace HeapTree

open Heap

variable {α : Type u} {β : Type v} {h h' : Heap α} {x : Addr × β} {l r t : BinaryTree (Addr × β)}
  {a : Addr}

/-- The node, the left subtree, the right subtree. -/
def preorder : BinaryTree α → List α
  | .nil => []
  | .node x l r => x :: (preorder l ++ preorder r)

/-- The left subtree, the node, the right subtree. -/
def inorder : BinaryTree α → List α
  | .nil => []
  | .node x l r => inorder l ++ x :: inorder r

/-- The left subtree, the right subtree, the node. -/
def postorder : BinaryTree α → List α
  | .nil => []
  | .node x l r => postorder l ++ postorder r ++ [x]

/-- The pointer to the root. -/
def rootPtr : BinaryTree (Addr × β) → Ptr
  | .nil => none
  | .node x _ _ => some x.1

/-- The nodes of the tree lie in the heap; `cell` makes a cell of the value and the pointers to both
children. -/
def InHeap (cell : β → Ptr → Ptr → α) (h : Heap α) : BinaryTree (Addr × β) → Prop
  | .nil => True
  | .node x l r =>
    h.get? x.1 = some (cell x.2 (rootPtr l) (rootPtr r)) ∧ InHeap cell h l ∧ InHeap cell h r

@[simp] theorem preorder_node (x : α) (l r : BinaryTree α) :
    preorder (.node x l r) = x :: (preorder l ++ preorder r) := rfl

variable {cell : β → Ptr → Ptr → α}

/-- Cells elsewhere do not matter. -/
theorem InHeap.congr (ht : InHeap cell h t)
    (heq : ∀ a ∈ addrs (preorder t), h'.get? a = h.get? a) : InHeap cell h' t := by
  induction t with
  | nil => trivial
  | node x l r ihl ihr =>
    simp only [preorder_node, addrs_cons, addrs_append, List.mem_cons, List.mem_append] at heq
    exact ⟨(heq x.1 (.inl rfl)).trans ht.1, ihl ht.2.1 fun a ha => heq a (.inr (.inl ha)),
      ihr ht.2.2 fun a ha => heq a (.inr (.inr ha))⟩

theorem InHeap.isSome (ht : InHeap cell h t) (ha : a ∈ addrs (preorder t)) :
    (h.get? a).isSome := by
  induction t with
  | nil => cases ha
  | node x l r ihl ihr =>
    simp only [preorder_node, addrs_cons, addrs_append, List.mem_cons, List.mem_append] at ha
    rcases ha with rfl | ha | ha
    · rw [ht.1]
      rfl
    · exact ihl ht.2.1 ha
    · exact ihr ht.2.2 ha

theorem InHeap.notMem (ht : InHeap cell h t) (ha : h.get? a = none) :
    a ∉ addrs (preorder t) := by
  intro hmem
  have := ht.isSome hmem
  rw [ha] at this
  cases this

end HeapTree
