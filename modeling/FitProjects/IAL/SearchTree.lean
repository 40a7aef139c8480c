import Mathlib.Order.Defs.LinearOrder
import Mathlib.Order.Lattice
import Mathlib.Data.List.Pairwise
import Mathlib.Logic.Function.Basic

/-! # The binary search tree

The recursive functions of `IAL/c401.c` without the prefix `BST`. A tree is a value here, so a
function that gets a pointer to the root pointer returns the new tree, and allocations succeed. Keys
are of C type `char` in the source; any linear order does. The main result is `run_refines_map`: every
run keeps the search order and refines a finite map. -/

namespace SearchTree

/-- `struct tBSTNode`, with the fields `LPtr`, `Key`, `BSTNodeCont` and `RPtr`. -/
inductive Tree (κ : Type)
  | nil
  | node (left : Tree κ) (key : κ) (cont : Int) (right : Tree κ)

variable {κ : Type} [LinearOrder κ] {t l r : Tree κ} {k K : κ} {c : Int}

/-- `BSTInit`. -/
def init : Tree κ := .nil

/-- `BSTSearch`: the content for `*Content` when the result is `TRUE`. -/
def search : Tree κ → κ → Option Int
  | .nil, _ => none
  | .node left key cont right, K =>
    if key = K then some cont
    else if key < K then search right K
    else search left K

/-- `BSTInsert`. -/
def insert : Tree κ → κ → Int → Tree κ
  | .nil, K, content => .node .nil K content .nil
  | .node left key cont right, K, content =>
    if key = K then .node left key content right
    else if key < K then .node left key cont (insert right K content)
    else .node (insert left K content) key cont right

/-- `ReplaceByRightmost` on a tree with the root `left`, `key`, `cont`, `right`: the key and the
content that are moved, and the tree without their node. -/
def replaceByRightmost (left : Tree κ) (key : κ) (cont : Int) : Tree κ → κ × Int × Tree κ
  | .nil => (key, cont, left)
  | .node left' key' cont' right' =>
    let (k, c, right) := replaceByRightmost left' key' cont' right'
    (k, c, .node left key cont right)

/-- `BSTDelete`. -/
def delete : Tree κ → κ → Tree κ
  | .nil, _ => .nil
  | .node left key cont right, K =>
    if K < key then .node (delete left K) key cont right
    else if key < K then .node left key cont (delete right K)
    else match left, right with
      | .nil, right => right
      | left, .nil => left
      | .node left' key' cont' right', right =>
        let (k, c, left) := replaceByRightmost left' key' cont' right'
        .node left k c right

theorem search_node : search (.node l k c r) K =
    if k = K then some c else if k < K then search r K else search l K := rfl

theorem insert_node {content : Int} : insert (.node l k c r) K content =
    if k = K then .node l k content r
    else if k < K then .node l k c (insert r K content)
    else .node (insert l K content) k c r := rfl

/-! ## The search order -/

/-- The keys and contents from left to right. -/
def entries : Tree κ → List (κ × Int)
  | .nil => []
  | .node left key cont right => entries left ++ (key, cont) :: entries right

/-- All keys to the left of a node are smaller, all keys to the right are larger. -/
def Ordered : Tree κ → Prop
  | .nil => True
  | .node left key _ right =>
    (∀ e ∈ entries left, e.1 < key) ∧ (∀ e ∈ entries right, key < e.1) ∧ Ordered left ∧
      Ordered right

omit [LinearOrder κ] in
theorem entries_nil : entries (.nil : Tree κ) = [] := rfl

omit [LinearOrder κ] in
theorem entries_node : entries (.node l k c r) = entries l ++ (k, c) :: entries r := rfl

theorem ordered_iff_pairwise : Ordered t ↔ (entries t).Pairwise fun a b => a.1 < b.1 := by
  induction t with
  | nil => simp [Ordered, entries_nil]
  | node left key cont right ihl ihr =>
    simp only [Ordered, entries_node, ihl, ihr, List.pairwise_append, List.pairwise_cons,
      List.mem_cons, forall_eq_or_imp]
    constructor
    · rintro ⟨hl, hr, hpl, hpr⟩
      exact ⟨hpl, ⟨hr, hpr⟩, fun a ha => ⟨hl a ha, fun b hb => (hl a ha).trans (hr b hb)⟩⟩
    · rintro ⟨hpl, ⟨hr, hpr⟩, h⟩
      exact ⟨fun a ha => (h a ha).1, hr, hpl, hpr⟩

/-- No key occurs twice. -/
theorem Ordered.nodup (h : Ordered t) : ((entries t).map Prod.fst).Nodup := by
  rw [ordered_iff_pairwise] at h
  exact List.pairwise_map.mpr (h.imp ne_of_lt)

/-- A search in an ordered tree finds what lies in it. -/
theorem Ordered.search_eq_some (h : Ordered t) : search t K = some c ↔ (K, c) ∈ entries t := by
  induction t with
  | nil => exact iff_of_false nofun List.not_mem_nil
  | node left key cont right ihl ihr =>
    obtain ⟨hl, hr, hol, hor⟩ := h
    simp only [entries_node, List.mem_append, List.mem_cons, Prod.mk.injEq]
    have hleft : (K, c) ∈ entries left → K < key := hl _
    have hright : (K, c) ∈ entries right → key < K := hr _
    rcases lt_trichotomy key K with hlt | rfl | hgt
    · rw [search_node, if_neg hlt.ne, if_pos hlt, ihr hor]
      constructor
      · exact fun hmem => .inr (.inr hmem)
      · rintro (hmem | ⟨rfl, -⟩ | hmem)
        · exact absurd (hleft hmem) hlt.asymm
        · exact absurd hlt (lt_irrefl _)
        · exact hmem
    · rw [search_node, if_pos rfl, Option.some.injEq]
      constructor
      · rintro rfl
        exact .inr (.inl ⟨rfl, rfl⟩)
      · rintro (hmem | ⟨-, rfl⟩ | hmem)
        · exact absurd (hleft hmem) (lt_irrefl _)
        · rfl
        · exact absurd (hright hmem) (lt_irrefl _)
    · rw [search_node, if_neg hgt.ne', if_neg hgt.asymm, ihl hol]
      constructor
      · exact fun hmem => .inl hmem
      · rintro (hmem | ⟨rfl, -⟩ | hmem)
        · exact hmem
        · exact absurd hgt (lt_irrefl _)
        · exact absurd (hright hmem) hgt.asymm

/-! ## Insertion -/

theorem search_insert : search (insert t K c) k = if k = K then some c else search t k := by
  induction t with
  | nil =>
    by_cases hk : K = k
    · simp [insert, search, hk]
    · simp [insert, search, hk, Ne.symm hk]
  | node left key cont right ihl ihr =>
    rcases lt_trichotomy key K with hlt | rfl | hgt
    · rw [insert_node, if_neg hlt.ne, if_pos hlt, search_node, search_node, ihr]
      by_cases hk : k = K
      · simp [hk, hlt, hlt.ne]
      · simp [hk]
    · rw [insert_node, if_pos rfl, search_node, search_node]
      by_cases hk : key = k
      · simp [hk]
      · simp [hk, Ne.symm hk]
    · rw [insert_node, if_neg hgt.ne', if_neg hgt.asymm, search_node, search_node, ihl]
      by_cases hk : k = K
      · simp [hk, hgt.asymm, hgt.ne']
      · simp [hk]

theorem mem_entries_insert {e : κ × Int} (h : e ∈ entries (insert t K c)) :
    e.1 = K ∨ e ∈ entries t := by
  induction t with
  | nil =>
    rw [insert, entries_node, entries_nil, List.nil_append, List.mem_singleton] at h
    exact .inl (h ▸ rfl)
  | node left key cont right ihl ihr =>
    simp only [entries_node, List.mem_append, List.mem_cons]
    rw [insert_node] at h
    split_ifs at h with heq hlt
    · simp only [entries_node, List.mem_append, List.mem_cons] at h
      rcases h with h | rfl | h
      · exact .inr (.inl h)
      · exact .inl heq
      · exact .inr (.inr (.inr h))
    · simp only [entries_node, List.mem_append, List.mem_cons] at h
      rcases h with h | h | h
      · exact .inr (.inl h)
      · exact .inr (.inr (.inl h))
      · exact (ihr h).imp_right fun hr => .inr (.inr hr)
    · simp only [entries_node, List.mem_append, List.mem_cons] at h
      rcases h with h | h | h
      · exact (ihl h).imp_right fun hl => .inl hl
      · exact .inr (.inr (.inl h))
      · exact .inr (.inr (.inr h))

theorem Ordered.insert (h : Ordered t) : Ordered (insert t K c) := by
  induction t with
  | nil => exact ⟨nofun, nofun, trivial, trivial⟩
  | node left key cont right ihl ihr =>
    obtain ⟨hl, hr, hol, hor⟩ := h
    rcases lt_trichotomy key K with hlt | rfl | hgt
    · rw [insert_node, if_neg hlt.ne, if_pos hlt]
      refine ⟨hl, fun e he => ?_, hol, ihr hor⟩
      rcases mem_entries_insert he with heq | he
      · exact heq ▸ hlt
      · exact hr e he
    · rw [insert_node, if_pos rfl]
      exact ⟨hl, hr, hol, hor⟩
    · rw [insert_node, if_neg hgt.ne', if_neg hgt.asymm]
      refine ⟨fun e he => ?_, hr, ihl hol, hor⟩
      rcases mem_entries_insert he with heq | he
      · exact heq ▸ hgt
      · exact hl e he

/-! ## Deletion -/

theorem delete_of_lt (h : K < k) : delete (.node l k c r) K = .node (delete l K) k c r :=
  if_pos h

theorem delete_of_gt (h : k < K) : delete (.node l k c r) K = .node l k c (delete r K) :=
  (if_neg h.asymm).trans (if_pos h)

omit [LinearOrder κ] in
/-- The rightmost entry is moved, the others stay in order. -/
theorem entries_replaceByRightmost (h : replaceByRightmost l K c r = (k, c', t)) :
    entries (.node l K c r) = entries t ++ [(k, c')] := by
  induction r generalizing l K c t with
  | nil =>
    cases h
    simp [entries_node, entries_nil]
  | node left key cont right _ ihr =>
    obtain ⟨k', c'', right', hright⟩ : ∃ k' c'' right',
        replaceByRightmost left key cont right = (k', c'', right') := ⟨_, _, _, rfl⟩
    rw [replaceByRightmost, hright] at h
    cases h
    rw [entries_node, ihr hright]
    simp [entries_node]

/-- Where the key is found, exactly its entry goes. -/
theorem entries_delete_found :
    entries (delete (.node l K c r) K) = entries l ++ entries r := by
  simp only [delete, if_neg (lt_irrefl K)]
  cases l with
  | nil => rfl
  | node left key cont right =>
    cases r with
    | nil => simp [entries_nil]
    | node left' key' cont' right' =>
      obtain ⟨k, c', t, ht⟩ : ∃ k c' t, replaceByRightmost left key cont right = (k, c', t) :=
        ⟨_, _, _, rfl⟩
      rw [entries_replaceByRightmost ht]
      simp [ht, entries_node]

theorem entries_delete (h : Ordered t) :
    entries (delete t K) = (entries t).filter fun e => e.1 ≠ K := by
  induction t with
  | nil => rfl
  | node left key cont right ihl ihr =>
    obtain ⟨hl, hr, hol, hor⟩ := h
    rcases lt_trichotomy key K with hlt | rfl | hgt
    · have hleft : (entries left).filter (fun e => e.1 ≠ K) = entries left := by
        rw [List.filter_eq_self]
        intro e he
        simpa using ((hl e he).trans hlt).ne
      rw [delete_of_gt hlt, entries_node, entries_node, List.filter_append,
        List.filter_cons_of_pos (by simpa using hlt.ne), hleft, ihr hor]
    · have hleft : (entries left).filter (fun e => e.1 ≠ key) = entries left := by
        rw [List.filter_eq_self]
        intro e he
        simpa using (hl e he).ne
      have hright : (entries right).filter (fun e => e.1 ≠ key) = entries right := by
        rw [List.filter_eq_self]
        intro e he
        simpa using (hr e he).ne'
      rw [entries_delete_found, entries_node, List.filter_append,
        List.filter_cons_of_neg (by simp), hleft, hright]
    · have hright : (entries right).filter (fun e => e.1 ≠ K) = entries right := by
        rw [List.filter_eq_self]
        intro e he
        simpa using (hgt.trans (hr e he)).ne'
      rw [delete_of_lt hgt, entries_node, entries_node, List.filter_append,
        List.filter_cons_of_pos (by simpa using hgt.ne'), hright, ihl hol]

theorem Ordered.delete (h : Ordered t) : Ordered (delete t K) := by
  rw [ordered_iff_pairwise, entries_delete h]
  exact (ordered_iff_pairwise.mp h).sublist List.filter_sublist

theorem search_delete (h : Ordered t) :
    search (delete t K) k = if k = K then none else search t k := by
  refine Option.ext fun c => ?_
  rw [h.delete.search_eq_some, entries_delete h, List.mem_filter, ← h.search_eq_some]
  by_cases hk : k = K <;> simp [hk]

/-! ## Runs -/

/-- The operations on a tree. -/
inductive Op (κ : Type)
  | insert (K : κ) (content : Int)
  | delete (K : κ)
  | search (K : κ)

/-- One operation, with the result of a search. -/
def Op.onTree (t : Tree κ) : Op κ → Tree κ × Option (Option Int)
  | .insert K content => (SearchTree.insert t K content, none)
  | .delete K => (SearchTree.delete t K, none)
  | .search K => (t, some (SearchTree.search t K))

/-- One operation on a finite map. -/
def Op.onMap (m : κ → Option Int) : Op κ → (κ → Option Int) × Option (Option Int)
  | .insert K content => (Function.update m K (some content), none)
  | .delete K => (Function.update m K none, none)
  | .search K => (m, some (m K))

/-- A sequence of operations, with the results of all of them. -/
def run (step : σ → Op κ → σ × Option (Option Int)) (s : σ) :
    List (Op κ) → σ × List (Option (Option Int))
  | [] => (s, [])
  | op :: ops =>
    let (s', result) := step s op
    let (s'', results) := run step s' ops
    (s'', result :: results)

/-- The tree is ordered and a search finds what the map holds. -/
def Refines (t : Tree κ) (m : κ → Option Int) : Prop := Ordered t ∧ ∀ K, search t K = m K

theorem Refines.onTree {m : κ → Option Int} (h : Refines t m) (op : Op κ) :
    (op.onTree t).2 = (op.onMap m).2 ∧ Refines (op.onTree t).1 (op.onMap m).1 := by
  obtain ⟨ho, hm⟩ := h
  cases op with
  | insert K content =>
    refine ⟨rfl, ho.insert, fun k => ?_⟩
    simp only [Op.onTree, Op.onMap, search_insert, hm, Function.update_apply]
  | delete K =>
    refine ⟨rfl, ho.delete, fun k => ?_⟩
    simp only [Op.onTree, Op.onMap, search_delete ho, hm, Function.update_apply]
  | search K => exact ⟨by simp only [Op.onTree, Op.onMap, hm], ho, hm⟩

theorem Refines.run {m : κ → Option Int} (h : Refines t m) (ops : List (Op κ)) :
    (run Op.onTree t ops).2 = (run Op.onMap m ops).2 ∧
      Refines (run Op.onTree t ops).1 (run Op.onMap m ops).1 := by
  induction ops generalizing t m with
  | nil => exact ⟨rfl, h⟩
  | cons op ops ih =>
    obtain ⟨hresult, hnext⟩ := h.onTree op
    obtain ⟨hresults, hlast⟩ := ih hnext
    exact ⟨by simp only [SearchTree.run, hresult, hresults], hlast⟩

/-- From `BSTInit` every sequence of operations gives the results of a finite map and leaves an
ordered tree without double keys, which holds what the map holds and from which a deletion takes
exactly the entry of its key. -/
theorem run_refines_map (ops : List (Op κ)) :
    let t := (run Op.onTree init ops).1
    let m := (run Op.onMap (fun _ => none) ops).1
    (run Op.onTree init ops).2 = (run Op.onMap (fun _ => none) ops).2 ∧
      Ordered t ∧ ((entries t).map Prod.fst).Nodup ∧
      (∀ K c, search t K = some c ↔ (K, c) ∈ entries t) ∧ (∀ K, search t K = m K) ∧
      ∀ K, entries (delete t K) = (entries t).filter fun e => e.1 ≠ K := by
  have hinit : Refines (init : Tree κ) fun _ => none := ⟨trivial, fun _ => rfl⟩
  obtain ⟨hresults, ho, hm⟩ := hinit.run ops
  exact ⟨hresults, ho, ho.nodup, fun _ _ => ho.search_eq_some, hm, fun _ => entries_delete ho⟩

end SearchTree
