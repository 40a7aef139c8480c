import FitProjects.IAL.BTreeCorrect
import FitProjects.IAL.SearchTree

/-! # The two insertions agree

`BTInit` and `BTInsert` of `IAL/c402.c`, and their agreement with the recursive `BSTInsert` of
`IAL/c401.c`. The C type of the keys is `int` here and `char` there, which C compares as `int`.
`malloc` gives an address that is not in use. -/

namespace BTree

open HeapTree Heap State

/-- The nodes and the root pointer of the program. -/
structure Memory where
  heap : Heap Node
  root : Ptr

/-- What a pointer to a node pointer points to. -/
inductive Place
  | root
  | lPtr (node : Addr)
  | rPtr (node : Addr)
  deriving DecidableEq

namespace Place

def load (m : Memory) : Place → Option Ptr
  | root => some m.root
  | lPtr node => (m.heap.get? node).map Node.lPtr
  | rPtr node => (m.heap.get? node).map Node.rPtr

def store (m : Memory) (p : Ptr) : Place → Option Memory
  | root => some { m with root := p }
  | lPtr node =>
    (m.heap.modify (some node) fun n => { n with lPtr := p }).map fun heap => { m with heap }
  | rPtr node =>
    (m.heap.modify (some node) fun n => { n with rPtr := p }).map fun heap => { m with heap }

end Place

/-- `BTInit`. -/
def btInit (m : Memory) : Memory := { m with root := none }

/-- The loop of `BTInsert`, which returns from the function when it finds the content. -/
def searchPlace (m : Memory) (content : Int) : Nat → Place → Option (Option Place)
  | 0, _ => none
  | fuel + 1, node => do
    match ← node.load m with
    | none => some (some node)
    | some a =>
      let n ← m.heap.get? a
      if n.cont = content then some none
      else if n.cont > content then searchPlace m content fuel (.lPtr a)
      else searchPlace m content fuel (.rPtr a)

/-- `BTInsert`. -/
def btInsert (malloc : Heap Node → Addr) (fuel : Nat) (m : Memory) (content : Int) :
    Option Memory := do
  match ← searchPlace m content fuel .root with
  | none => some m
  | some node =>
    let new := malloc m.heap
    node.store { m with heap := m.heap.insert new ⟨content, none, none⟩ } (some new)

/-! ### Insertion into a tree -/

/-- A new key becomes a leaf. -/
def insertKey (k : Int) : BinaryTree Int → BinaryTree Int
  | .nil => .node k .nil .nil
  | .node x l r =>
    if x = k then .node x l r
    else if k < x then .node x (insertKey k l) r
    else .node x l (insertKey k r)

/-- The same with the address of the new node. -/
def insertNode (new : Addr) (k : Int) : BinaryTree (Addr × Int) → BinaryTree (Addr × Int)
  | .nil => .node (new, k) .nil .nil
  | .node x l r =>
    if x.2 = k then .node x l r
    else if k < x.2 then .node x (insertNode new k l) r
    else .node x l (insertNode new k r)

/-- The tree of the keys. -/
def keyTree : SearchTree.Tree κ → BinaryTree κ
  | .nil => .nil
  | .node left key _ right => .node key (keyTree left) (keyTree right)

variable {new a : Addr} {k : Int} {t l r : BinaryTree (Addr × Int)} {x : Addr × Int}
  {m : Memory} {h : Heap Node} {d p : Place} {n fuel : Nat}

theorem map_insertNode (new : Addr) (k : Int) (t : BinaryTree (Addr × Int)) :
    (insertNode new k t).map Prod.snd = insertKey k (t.map Prod.snd) := by
  induction t with
  | nil => rfl
  | node x l r ihl ihr =>
    rw [insertNode, BinaryTree.map, insertKey]
    split
    · rfl
    · split
      · rw [BinaryTree.map, ihl]
      · rw [BinaryTree.map, ihr]

theorem keyTree_insert (k content : Int) (t : SearchTree.Tree Int) :
    keyTree (SearchTree.insert t k content) = insertKey k (keyTree t) := by
  induction t with
  | nil => rfl
  | node left key cont right ihl ihr =>
    rw [SearchTree.insert, keyTree, insertKey]
    rcases lt_trichotomy key k with hlt | rfl | hgt
    · rw [if_neg hlt.ne, if_pos hlt, if_neg hlt.ne, if_neg hlt.asymm, keyTree, ihr]
    · rw [if_pos rfl, if_pos rfl, keyTree]
    · rw [if_neg hgt.ne', if_neg hgt.asymm, if_neg hgt.ne', if_pos hgt, keyTree, ihl]

theorem rootPtr_insertNode (ht : t ≠ .nil) : rootPtr (insertNode new k t) = rootPtr t := by
  cases t with
  | nil => exact absurd rfl ht
  | node x l r =>
    rw [insertNode]
    split
    · rfl
    · split <;> rfl

theorem mem_nodes_node :
    a ∈ nodes (.node x l r) ↔ a = x.1 ∨ a ∈ nodes l ∨ a ∈ nodes r := by
  simp only [nodes, preorder_node, addrs_cons, addrs_append, List.mem_cons, List.mem_append]

theorem nodup_nodes_node : (nodes (.node x l r)).Nodup ↔
    (x.1 ∉ nodes l ∧ x.1 ∉ nodes r) ∧ (nodes l).Nodup ∧ (nodes r).Nodup ∧
      ∀ a ∈ nodes l, ∀ b ∈ nodes r, a ≠ b := by
  simp only [nodes, preorder_node, addrs_cons, addrs_append, List.nodup_cons, List.nodup_append,
    List.mem_append, not_or]

theorem nodes_insertNode (ha : a ∈ nodes (insertNode new k t)) : a = new ∨ a ∈ nodes t := by
  induction t with
  | nil => exact .inl (List.mem_singleton.mp ha)
  | node x l r ihl ihr =>
    rw [mem_nodes_node]
    rw [insertNode] at ha
    split at ha
    · exact .inr (mem_nodes_node.mp ha)
    · split at ha
      · rcases mem_nodes_node.mp ha with ha | ha | ha
        · exact .inr (.inl ha)
        · exact (ihl ha).imp_right fun ha => .inr (.inl ha)
        · exact .inr (.inr (.inr ha))
      · rcases mem_nodes_node.mp ha with ha | ha | ha
        · exact .inr (.inl ha)
        · exact .inr (.inr (.inl ha))
        · exact (ihr ha).imp_right fun ha => .inr (.inr ha)

theorem nodup_insertNode (hnodup : (nodes t).Nodup) (hnew : new ∉ nodes t) :
    (nodes (insertNode new k t)).Nodup := by
  induction t with
  | nil => exact List.pairwise_singleton _ new
  | node x l r ihl ihr =>
    rw [mem_nodes_node, not_or, not_or] at hnew
    obtain ⟨⟨hxl, hxr⟩, hl, hr, hlr⟩ := nodup_nodes_node.mp hnodup
    obtain ⟨hnx, hnl, hnr⟩ := hnew
    rw [insertNode]
    split
    · exact hnodup
    · split
      all_goals rw [nodup_nodes_node]
      · refine ⟨⟨fun hx => ?_, hxr⟩, ihl hl hnl, hr, fun a ha b hb => ?_⟩
        · rcases nodes_insertNode hx with hx | hx
          · exact hnx hx.symm
          · exact hxl hx
        · rcases nodes_insertNode ha with rfl | ha
          · exact fun hab => hnr (hab ▸ hb)
          · exact hlr a ha b hb
      · refine ⟨⟨hxl, fun hx => ?_⟩, hl, ihr hr hnr, fun a ha b hb => ?_⟩
        · rcases nodes_insertNode hx with hx | hx
          · exact hnx hx.symm
          · exact hxr hx
        · rcases nodes_insertNode hb with rfl | hb
          · exact fun hab => hnl (hab ▸ ha)
          · exact hlr a ha b hb

theorem numNodes_insertNode_le (new : Addr) (k : Int) (t : BinaryTree (Addr × Int)) :
    (insertNode new k t).numNodes ≤ t.numNodes + 1 := by
  induction t with
  | nil => exact le_rfl
  | node x l r ihl ihr =>
    rw [insertNode]
    split
    · exact Nat.le_succ _
    · split
      all_goals
        rw [BinaryTree.numNodes, BinaryTree.numNodes]
        omega

/-! ### The loop -/

/-- Where a new key goes in the tree that `d` points to. -/
def slot (k : Int) (d : Place) : BinaryTree (Addr × Int) → Option Place
  | .nil => some d
  | .node x l r =>
    if x.2 = k then none else if k < x.2 then slot k (.lPtr x.1) l else slot k (.rPtr x.1) r

theorem searchPlace_eq (hload : d.load m = some (rootPtr t)) (ht : InHeap Node.mk m.heap t)
    (hfuel : t.height < fuel) : searchPlace m k fuel d = some (slot k d t) := by
  induction t generalizing d fuel with
  | nil =>
    obtain ⟨fuel, rfl⟩ := Nat.exists_eq_add_one.mpr (Nat.zero_lt_of_lt hfuel)
    rw [searchPlace, hload]
    rfl
  | node x l r ihl ihr =>
    obtain ⟨fuel, rfl⟩ := Nat.exists_eq_add_one.mpr (Nat.zero_lt_of_lt hfuel)
    obtain ⟨hx, hl, hr⟩ := ht
    rw [BinaryTree.height] at hfuel
    have hleft := ihl (show Place.load m (.lPtr x.1) = some (rootPtr l) by rw [Place.load, hx]; rfl)
      hl (show l.height < fuel by omega)
    have hright := ihr (show Place.load m (.rPtr x.1) = some (rootPtr r) by rw [Place.load, hx]; rfl)
      hr (show r.height < fuel by omega)
    simp only [searchPlace, hload, rootPtr, hx, Option.bind_eq_bind, Option.bind_some, slot]
    rw [hleft, hright]
    simp only [gt_iff_lt, apply_ite some]

theorem insertNode_of_slot_none (hslot : slot k d t = none) : insertNode new k t = t := by
  induction t generalizing d with
  | nil => cases hslot
  | node x l r ihl ihr =>
    rw [slot] at hslot
    rw [insertNode]
    split at hslot
    · next hk => rw [if_pos hk]
    · next hk =>
      rw [if_neg hk]
      split at hslot
      · next hlt => rw [if_pos hlt, ihl hslot]
      · next hlt => rw [if_neg hlt, ihr hslot]

/-- The new leaf lies in the heap and the node with the slot points to it. -/
structure Stored (h h' : Heap Node) (new : Addr) (k : Int) (t : BinaryTree (Addr × Int))
    (node : Addr) : Prop where
  mem : node ∈ nodes t
  inHeap : InHeap Node.mk h' (insertNode new k t)
  frame : ∀ b, b ≠ new → b ≠ node → h'.get? b = h.get? b

section stored
variable {h' : Heap Node} {root : Ptr} {v : Node}

theorem store_lPtr (hv : h.get? a = some v) :
    (Place.lPtr a).store ⟨h, root⟩ (some new) =
      some ⟨h.insert a { v with lPtr := some new }, root⟩ := by
  rw [Place.store, modify_some, hv]
  rfl

theorem store_rPtr (hv : h.get? a = some v) :
    (Place.rPtr a).store ⟨h, root⟩ (some new) =
      some ⟨h.insert a { v with rPtr := some new }, root⟩ := by
  rw [Place.store, modify_some, hv]
  rfl

/-- The nodes that are neither new nor changed. -/
theorem Stored.inHeap_of_notMem (hs : Stored h h' new k t a) (ht : InHeap Node.mk h r)
    (hnew : new ∉ nodes r) (ha : a ∉ nodes r) : InHeap Node.mk h' r :=
  ht.congr fun b hb => hs.frame b (fun hbn => hnew (hbn ▸ hb)) fun hba => ha (hba ▸ hb)

/-- The cells after a store into the node of a leaf. -/
theorem get?_leaf (hne : x.1 ≠ new) (c : Node) :
    ((h.insert new ⟨k, none, none⟩).insert x.1 c).get? x.1 = some c ∧
      ((h.insert new ⟨k, none, none⟩).insert x.1 c).get? new = some ⟨k, none, none⟩ ∧
      ∀ b, b ≠ new → b ≠ x.1 → ((h.insert new ⟨k, none, none⟩).insert x.1 c).get? b = h.get? b := by
  refine ⟨get?_insert_self, ?_, fun b hbn hbx => ?_⟩
  · rw [get?_insert_of_ne hne.symm, get?_insert_self]
  · rw [get?_insert_of_ne hbx, get?_insert_of_ne hbn]

theorem exists_stored (ht : InHeap Node.mk h t) (hnodup : (nodes t).Nodup)
    (hnew : h.get? new = none) (hne : t ≠ .nil) (hslot : slot k d t = some p) (root : Ptr) :
    ∃ h' node, p.store ⟨h.insert new ⟨k, none, none⟩, root⟩ (some new) = some ⟨h', root⟩ ∧
      Stored h h' new k t node := by
  induction t generalizing d with
  | nil => exact absurd rfl hne
  | node x l r ihl ihr =>
    have hnotMem := ht.notMem hnew
    obtain ⟨hx, hl, hr⟩ := ht
    rw [mem_nodes_node, not_or, not_or] at hnotMem
    obtain ⟨⟨hxl, hxr⟩, hndl, hndr, hlr⟩ := nodup_nodes_node.mp hnodup
    obtain ⟨hnx, hnl, hnr⟩ := hnotMem
    have hxnew : (h.insert new ⟨k, none, none⟩).get? x.1 = some ⟨x.2, rootPtr l, rootPtr r⟩ := by
      rw [get?_insert_of_ne (Ne.symm hnx), hx]
    rw [slot] at hslot
    split at hslot
    · cases hslot
    · next hk =>
      split at hslot
      · next hlt =>
        have htree : insertNode new k (.node x l r) = .node x (insertNode new k l) r := by
          rw [insertNode, if_neg hk, if_pos hlt]
        cases l with
        | nil =>
          obtain rfl := Option.some.inj hslot
          obtain ⟨hself, hleaf, hframe⟩ :=
            get?_leaf (h := h) (k := k) (Ne.symm hnx) ⟨x.2, some new, rootPtr r⟩
          refine ⟨_, x.1, store_lPtr hxnew, List.mem_cons_self, ?_, hframe⟩
          rw [htree]
          refine ⟨hself, ⟨hleaf, trivial, trivial⟩, hr.congr fun b hb => ?_⟩
          exact hframe b (fun hbn => hnr (hbn ▸ hb)) fun hbx => hxr (hbx ▸ hb)
        | node y ll lr =>
          obtain ⟨h', node, hstore, hs⟩ := ihl hl hndl nofun hslot
          refine ⟨h', node, hstore, ?_, ?_, hs.frame⟩
          · exact mem_nodes_node.mpr (.inr (.inl hs.mem))
          · rw [htree]
            refine ⟨?_, hs.inHeap, hs.inHeap_of_notMem hr hnr fun hmem => hlr _ hs.mem _ hmem rfl⟩
            rw [hs.frame _ (Ne.symm hnx) fun hxn => hxl (hxn ▸ hs.mem), hx,
              rootPtr_insertNode (t := .node y ll lr) nofun]
      · next hlt =>
        have htree : insertNode new k (.node x l r) = .node x l (insertNode new k r) := by
          rw [insertNode, if_neg hk, if_neg hlt]
        cases r with
        | nil =>
          obtain rfl := Option.some.inj hslot
          obtain ⟨hself, hleaf, hframe⟩ :=
            get?_leaf (h := h) (k := k) (Ne.symm hnx) ⟨x.2, rootPtr l, some new⟩
          refine ⟨_, x.1, store_rPtr hxnew, List.mem_cons_self, ?_, hframe⟩
          rw [htree]
          refine ⟨hself, hl.congr fun b hb => ?_, hleaf, trivial, trivial⟩
          exact hframe b (fun hbn => hnl (hbn ▸ hb)) fun hbx => hxl (hbx ▸ hb)
        | node y rl rr =>
          obtain ⟨h', node, hstore, hs⟩ := ihr hr hndr nofun hslot
          refine ⟨h', node, hstore, ?_, ?_, hs.frame⟩
          · exact mem_nodes_node.mpr (.inr (.inr hs.mem))
          · rw [htree]
            refine ⟨?_, hs.inHeap_of_notMem hl hnl fun hmem => hlr _ hmem _ hs.mem rfl, hs.inHeap⟩
            rw [hs.frame _ (Ne.symm hnx) fun hxn => hxr (hxn ▸ hs.mem), hx,
              rootPtr_insertNode (t := .node y rl rr) nofun]

end stored

/-! ### Runs -/

/-- The heap holds a tree of distinct nodes. -/
structure HoldsTree (m : Memory) (t : BinaryTree (Addr × Int)) : Prop where
  root : m.root = rootPtr t
  inHeap : InHeap Node.mk m.heap t
  nodup : (nodes t).Nodup

variable {malloc : Heap Node → Addr}

/-- `BTInsert` inserts the key into the tree. -/
theorem btInsert_eq (hmalloc : ∀ h : Heap Node, h.get? (malloc h) = none) (hm : HoldsTree m t)
    (hfuel : t.height < fuel) (k : Int) : ∃ m', btInsert malloc fuel m k = some m' ∧
      HoldsTree m' (insertNode (malloc m.heap) k t) := by
  have hnew := hmalloc m.heap
  have hsearch := searchPlace_eq (k := k) (d := .root)
    (by rw [Place.load, hm.root]) hm.inHeap hfuel
  rw [btInsert, hsearch, Option.bind_eq_bind, Option.bind_some]
  cases hslot : slot k .root t with
  | none =>
    refine ⟨m, rfl, ?_⟩
    rw [insertNode_of_slot_none hslot]
    exact hm
  | some p =>
    have hnodup := nodup_insertNode (k := k) hm.nodup (hm.inHeap.notMem hnew)
    by_cases hnil : t = .nil
    · subst hnil
      cases hslot
      exact ⟨_, rfl, rfl, ⟨get?_insert_self, trivial, trivial⟩, hnodup⟩
    · obtain ⟨h', node, hstore, hs⟩ :=
        exists_stored hm.inHeap hm.nodup hnew hnil hslot m.root
      refine ⟨⟨h', m.root⟩, hstore, ?_, hs.inHeap, hnodup⟩
      rw [rootPtr_insertNode hnil]
      exact hm.root

/-- `BTInit`, then `BTInsert` of the keys. -/
def btInserts (malloc : Heap Node → Addr) (fuel : Nat) (m : Memory) (keys : List Int) :
    Option Memory := keys.foldlM (btInsert malloc fuel) (btInit m)

/-- `BSTInit`, then `BSTInsert` of the keys with their contents. -/
def bstInserts (calls : List (Int × Int)) : SearchTree.Tree Int :=
  calls.foldl (fun t c => SearchTree.insert t c.1 c.2) SearchTree.init

theorem foldlM_btInsert (hmalloc : ∀ h : Heap Node, h.get? (malloc h) = none)
    (calls : List (Int × Int)) (b : SearchTree.Tree Int) (hm : HoldsTree m t)
    (hb : t.map Prod.snd = keyTree b) (hfuel : t.numNodes + calls.length < fuel) :
    ∃ m' t', (calls.map Prod.fst).foldlM (btInsert malloc fuel) m = some m' ∧ HoldsTree m' t' ∧
      t'.map Prod.snd = keyTree (calls.foldl (fun t c => SearchTree.insert t c.1 c.2) b) ∧
      t'.numNodes < fuel := by
  induction calls generalizing m t b with
  | nil => exact ⟨m, t, rfl, hm, hb, hfuel⟩
  | cons c calls ih =>
    rw [List.length_cons] at hfuel
    have hheight := t.height_le_numNodes
    obtain ⟨m₁, hinsert, hm₁⟩ := btInsert_eq hmalloc hm (show t.height < fuel by omega) c.1
    have hnum := numNodes_insertNode_le (malloc m.heap) c.1 t
    obtain ⟨m', t', hrun, hm', hb', hnum'⟩ := ih (SearchTree.insert b c.1 c.2) hm₁
      (by rw [map_insertNode, hb, keyTree_insert]) (by omega)
    refine ⟨m', t', ?_, hm', hb', hnum'⟩
    rw [List.map_cons, List.foldlM_cons, hinsert]
    exact hrun

theorem map_inorder (f : α → β) (t : BinaryTree α) :
    (inorder t).map f = inorder (t.map f) := by
  induction t with
  | nil => rfl
  | node x l r ihl ihr => rw [inorder, List.map_append, List.map_cons, ihl, ihr]; rfl

theorem inorder_keyTree (b : SearchTree.Tree Int) :
    inorder (keyTree b) = (SearchTree.entries b).map Prod.fst := by
  induction b with
  | nil => rfl
  | node left key cont right ihl ihr =>
    rw [keyTree, inorder, SearchTree.entries, List.map_append, List.map_cons, ihl, ihr]

/-- The inserted keys, in order. -/
theorem entries_inserts (calls : List (Int × Int)) {b : SearchTree.Tree Int}
    (hb : SearchTree.Ordered b) :
    let b' := calls.foldl (fun t c => SearchTree.insert t c.1 c.2) b
    SearchTree.Ordered b' ∧ ∀ k, (SearchTree.search b' k).isSome ↔
      (SearchTree.search b k).isSome ∨ k ∈ calls.map Prod.fst := by
  induction calls generalizing b with
  | nil => exact ⟨hb, fun k => by simp⟩
  | cons c calls ih =>
    obtain ⟨ho, hkeys⟩ := ih (b := SearchTree.insert b c.1 c.2) hb.insert
    refine ⟨ho, fun k => ?_⟩
    rw [List.foldl_cons, hkeys, SearchTree.search_insert, List.map_cons, List.mem_cons]
    by_cases hk : k = c.1
    · simp [hk]
    · simp [hk]

theorem mem_entries_inserts (calls : List (Int × Int)) (k : Int) :
    k ∈ (SearchTree.entries (bstInserts calls)).map Prod.fst ↔ k ∈ calls.map Prod.fst := by
  obtain ⟨ho, hkeys⟩ := entries_inserts calls (b := SearchTree.init) trivial
  have hk := hkeys k
  rw [SearchTree.init, SearchTree.search] at hk
  rw [← (hk.trans (or_iff_right (by decide))), Option.isSome_iff_exists, List.mem_map]
  constructor
  · rintro ⟨e, he, rfl⟩
    exact ⟨e.2, ho.search_eq_some.mpr he⟩
  · rintro ⟨c, hc⟩
    exact ⟨(k, c), ho.search_eq_some.mp hc, rfl⟩

/-- Keys that are inserted one after the other into an empty tree, with `BTInsert` and with
`BSTInsert`, give trees of the same shape with the same keys, and `BTInorder`, when the tree is not
higher than the stack, works out the nodes of the inserted keys in strictly increasing order. -/
theorem inserts_agree (hmalloc : ∀ h : Heap Node, h.get? (malloc h) = none) (m : Memory)
    (calls : List (Int × Int)) (hfuel : calls.length < fuel) :
    ∃ m' t, btInserts malloc fuel m (calls.map Prod.fst) = some m' ∧ HoldsTree m' t ∧
      t.map Prod.snd = keyTree (bstInserts calls) ∧
      ∀ (maxStack : Nat) (s : State), s.heap = m'.heap → t.height ≤ maxStack →
        ∃ s', s.btInorder maxStack fuel m'.root = some s' ∧
          s'.out = s.out ++ workOuts (inorder t) ∧
          ((inorder t).map Prod.snd).Pairwise (· < ·) ∧
          ∀ k, k ∈ (inorder t).map Prod.snd ↔ k ∈ calls.map Prod.fst := by
  have hinit : HoldsTree (btInit m) .nil := ⟨rfl, trivial, List.nodup_nil⟩
  obtain ⟨m', t, hrun, hm, ht, hnum⟩ :=
    foldlM_btInsert hmalloc calls SearchTree.init hinit rfl (by simpa using hfuel)
  refine ⟨m', t, hrun, hm, ht, fun maxStack s hheap hfit => ?_⟩
  have hs : s.Holds t := by
    rw [Holds, hheap]
    exact hm.inHeap
  obtain ⟨s', hinorder, hout⟩ := btInorder_eq hs hfit hnum
  have hkeys : (inorder t).map Prod.snd = (SearchTree.entries (bstInserts calls)).map Prod.fst := by
    rw [map_inorder, ht, inorder_keyTree]
    rfl
  obtain ⟨ho, -⟩ := entries_inserts calls (b := SearchTree.init) trivial
  refine ⟨s', by rw [hm.root, hinorder], hout, ?_, fun k => ?_⟩
  · rw [hkeys]
    exact List.pairwise_map.mpr (SearchTree.ordered_iff_pairwise.mp ho)
  · rw [hkeys, mem_entries_inserts]

/-- The address after the last one in use. -/
def mallocLast (h : Heap Node) : Addr := h.cells.foldr (fun c n => max n (c.1 + 1)) 0

theorem get?_mallocLast (h : Heap Node) : h.get? (mallocLast h) = none := by
  obtain ⟨cells⟩ := h
  have hlt : ∀ c ∈ cells, c.1 < mallocLast ⟨cells⟩ := by
    intro c hc
    rw [mallocLast]
    induction cells with
    | nil => cases hc
    | cons d cells ih =>
      rw [List.foldr_cons]
      rcases List.mem_cons.mp hc with rfl | hc
      · exact Nat.lt_of_succ_le (Nat.le_max_right _ _)
      · exact Nat.lt_of_lt_of_le (ih hc) (Nat.le_max_left _ _)
  rw [get?, List.lookup_eq_none_iff]
  intro c hc
  simpa using (hlt c hc).ne'

theorem inserts_agree_three :
    ∃ m' t, btInserts mallocLast 5 ⟨.empty, some 7⟩ [5, 3, 8, 3] = some m' ∧ HoldsTree m' t ∧
      t.map Prod.snd = .node 5 (.node 3 .nil .nil) (.node 8 .nil .nil) ∧
      ∀ (maxStack : Nat) (s : State), s.heap = m'.heap → t.height ≤ maxStack →
        ∃ s', s.btInorder maxStack 5 m'.root = some s' ∧
          s'.out = s.out ++ workOuts (inorder t) ∧
          ((inorder t).map Prod.snd).Pairwise (· < ·) ∧
          ∀ k, k ∈ (inorder t).map Prod.snd ↔ k ∈ [5, 3, 8, 3] :=
  inserts_agree get?_mallocLast ⟨.empty, some 7⟩ [(5, 0), (3, 0), (8, 0), (3, 1)] (by decide)

end BTree
