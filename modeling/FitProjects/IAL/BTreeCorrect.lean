import FitProjects.IAL.BTree

/-! # The traversals agree with the recursive definitions

Each traversal is compared with the recursion on the tree: once the left branch of a subtree has been
put on the stacks, the loop comes back to the stacks as they were before, and has visited the
subtree. A stack never holds more than the nodes above the current one. -/

namespace BTree

open HeapTree Heap

namespace State

/-- The tree lies in the heap of `s`. -/
def Holds (s : State) (t : BinaryTree (Addr × Int)) : Prop := InHeap Node.mk s.heap t

/-- The calls of `BTWorkOut` for a list of nodes. -/
def workOuts (l : List (Addr × Int)) : List Event := l.map fun x => .workOut x.1 x.2

/-- From `s` to `s'` the nodes in `l` were worked out and the stacks were used and restored. -/
structure Visits (s s' : State) (l : List (Addr × Int)) : Prop where
  heap : s'.heap = s.heap
  stackP : s'.stackP.elems = s.stackP.elems
  stackB : s'.stackB.elems = s.stackB.elems
  out : s'.out = s.out ++ workOuts l

variable {maxStack fuel k n : Nat} {s s' s'' : State} {t : BinaryTree (Addr × Int)}
  {l l' : List (Addr × Int)} {x : Addr × Int} {p q : Ptr}

theorem Visits.refl (s : State) : Visits s s [] := ⟨rfl, rfl, rfl, (List.append_nil _).symm⟩

theorem Visits.trans (h : Visits s s' l) (h' : Visits s' s'' l') : Visits s s'' (l ++ l') where
  heap := h'.heap.trans h.heap
  stackP := h'.stackP.trans h.stackP
  stackB := h'.stackB.trans h.stackB
  out := by rw [h'.out, h.out, workOuts, workOuts, workOuts, List.map_append, List.append_assoc]

theorem Visits.top (h : Visits s s' l) : s'.stackP.top = s.stackP.top := by
  rw [← TStack.length_elems, ← TStack.length_elems, h.stackP]

theorem Visits.holds (h : Visits s s' l) (ht : s.Holds t) : s'.Holds t := by
  rw [Holds, h.heap]
  exact ht

theorem btWorkOut_eq {node : Node} (h : s.heap.get? a = some node) :
    s.btWorkOut (some a) = some (s.log (.workOut a node.cont)) := by
  rw [btWorkOut, h]
  rfl

/-! ### The stacks -/

theorem sPushP_eq (h : s.stackP.top < maxStack) :
    s.sPushP maxStack p = { s with stackP := s.stackP.push p } := if_neg (Nat.ne_of_lt h)

theorem sPushB_eq {val : Bool} (h : s.stackB.top < maxStack) :
    s.sPushB maxStack val = { s with stackB := s.stackB.push val } := if_neg (Nat.ne_of_lt h)

theorem sTopPopP_eq (h : s.stackP.elems = p :: ps) :
    s.sTopPopP = (p, { s with stackP := s.stackP.pop.2 }) := by
  obtain ⟨hne, hp, -⟩ := TStack.pop_of_elems h
  rw [sTopPopP, if_neg hne, hp]

theorem sTopPopB_eq {val : Bool} (h : s.stackB.elems = val :: vals) :
    s.sTopPopB = (val, { s with stackB := s.stackB.pop.2 }) := by
  obtain ⟨hne, hval, -⟩ := TStack.pop_of_elems h
  rw [sTopPopB, if_neg hne, hval]

theorem sEmptyP_cons (h : s.stackP.elems = p :: ps) : s.sEmptyP = false :=
  decide_eq_false (TStack.pop_of_elems h).1

theorem sEmptyP_nil (h : s.stackP.elems = []) : s.sEmptyP = true := by
  have htop := s.stackP.length_elems
  rw [h] at htop
  exact decide_eq_true htop.symm

theorem sInitP_elems : s.sInitP.stackP.elems = [] := rfl

/-! ### Preorder -/

/-- What is left of a round of the loop of `BTPreorder` after `Leftmost_Preorder`, and the rounds
that follow. -/
def preorderRest (maxStack fuel n : Nat) (s : State) (root : Ptr) : Option State := do
  let (root, s) ← s.preorderUp root s.stackP.top
  s.preorderLoop maxStack fuel n root

theorem preorderRest_nil (h : s.stackP.elems = []) :
    preorderRest maxStack fuel n s none = some s := by
  have hup : s.preorderUp none s.stackP.top = some (none, s) := by
    have hempty := sEmptyP_nil h
    cases htop : s.stackP.top with
    | zero => rw [preorderUp, if_pos hempty]
    | succ n => rw [preorderUp, if_pos hempty]
  rw [preorderRest, hup]
  cases n <;> rfl

/-- A node comes off the stack: its right subtree is next. -/
theorem preorderRest_cons {node : Node} (maxStack fuel n : Nat) (p : Ptr)
    (h : s.stackP.elems = some a :: ps)
    (ha : s.heap.get? a = some node) :
    preorderRest maxStack fuel n s p =
      if node.rPtr.isNone then preorderRest maxStack fuel n { s with stackP := s.stackP.pop.2 } none
      else preorderLoop maxStack fuel { s with stackP := s.stackP.pop.2 } n node.rPtr := by
  obtain ⟨m, htop⟩ := Nat.exists_eq_succ_of_ne_zero (TStack.pop_of_elems h).1
  have hpop : s.stackP.pop.2.top = m := by rw [TStack.pop, htop]; rfl
  have hread : s.heap.read (some a) = some node := ha
  rw [preorderRest, htop, preorderUp, sEmptyP_cons h, sTopPopP_eq h]
  simp only [hread, Bool.false_eq_true, if_false, Option.bind_eq_bind, Option.bind_some]
  cases hr : node.rPtr with
  | none => rw [preorderRest, hpop]; rfl
  | some b => rfl

theorem preorder_visit (maxStack fuel : Nat) (ht : s.Holds t)
    (hfit : s.stackP.top + t.height ≤ maxStack)
    (hfuel : t.height ≤ fuel) (hk : t.height ≤ k) (n : Nat) (p : Ptr) :
    ∃ s₁ s' p' m, s.leftmostPreorder maxStack k (rootPtr t) = some s₁ ∧
      Visits s s' (preorder t) ∧ n ≤ m ∧ (t ≠ .nil → p' = none) ∧
      preorderRest maxStack fuel (n + t.numNodes) s₁ p = preorderRest maxStack fuel m s' p' := by
  induction t generalizing s k n p with
  | nil =>
    exact ⟨s, s, p, n, by cases k <;> rfl, .refl s, Nat.le_refl n, fun h => absurd rfl h, rfl⟩
  | node x l r ihl ihr =>
    obtain ⟨hx, hl, hr⟩ := ht
    rw [BinaryTree.height] at hfit hfuel hk
    obtain ⟨k, rfl⟩ := Nat.exists_eq_add_of_le' (Nat.le_of_add_left_le hk)
    -- the node is worked out and pushed
    have htop : (s.log (.workOut x.1 x.2)).stackP.top < maxStack := by
      change s.stackP.top < _
      omega
    have hpush := sPushP_eq (p := some x.1) htop
    obtain ⟨s₁, s₂, p₂, m₂, hleft, hvl, hm₂, -, hrest⟩ :=
      ihl (s := (s.log (.workOut x.1 x.2)).sPushP maxStack (some x.1)) (k := k)
        (by rw [hpush]; exact hl) (by rw [hpush]; change s.stackP.top + 1 + _ ≤ _; omega)
        (by omega) (by omega) (n + r.numNodes + 1) p
    -- it comes off the stack when the left subtree has been visited
    have helems : s₂.stackP.elems = some x.1 :: s.stackP.elems := by
      rw [hvl.stackP, hpush]
      exact TStack.elems_push ..
    have hvisit : Visits s { s₂ with stackP := s₂.stackP.pop.2 } (x :: preorder l) := by
      refine ⟨?_, (TStack.pop_of_elems helems).2.2, ?_, ?_⟩
      · exact hvl.heap.trans (by rw [hpush]; rfl)
      · exact hvl.stackB.trans (by rw [hpush]; rfl)
      · refine hvl.out.trans ?_
        rw [hpush]
        exact List.append_assoc ..
    have hcons := preorderRest_cons maxStack fuel m₂ p₂ helems
      (by rw [hvl.heap, hpush]; exact hx)
    have hleftmost : s.leftmostPreorder maxStack (k + 1) (rootPtr (.node x l r)) = some s₁ := by
      have hget : ((s.log (.workOut x.1 x.2)).sPushP maxStack (some x.1)).heap.get? x.1 =
          some ⟨x.2, rootPtr l, rootPtr r⟩ := by rw [hpush]; exact hx
      simp only [rootPtr, leftmostPreorder, btWorkOut_eq hx, Option.bind_eq_bind, Option.bind_some,
        hget]
      exact hleft
    have hnum : n + (BinaryTree.node x l r).numNodes = n + r.numNodes + 1 + l.numNodes := by
      rw [BinaryTree.numNodes]
      omega
    rw [hnum, preorder_node]
    cases r with
    | nil =>
      refine ⟨s₁, _, none, m₂, hleftmost, ?_, by omega, fun _ => rfl, hrest.trans hcons⟩
      simpa [preorder] using hvisit
    | node y rl rr =>
      obtain ⟨m, rfl⟩ := Nat.exists_eq_add_of_le' (Nat.le_of_add_left_le hm₂)
      rw [BinaryTree.numNodes] at hm₂
      obtain ⟨s₃, s₄, p₄, m₄, hright, hvr, hm₄, hnone, hrest'⟩ :=
        ihr (s := { s₂ with stackP := s₂.stackP.pop.2 }) (k := fuel) (hvisit.holds hr)
          (by rw [hvisit.top]; omega) (by omega) (by omega)
          (m - (BinaryTree.node y rl rr).numNodes) (some y.1)
      have hcancel : m - (BinaryTree.node y rl rr).numNodes +
          (BinaryTree.node y rl rr).numNodes = m := by
        rw [BinaryTree.numNodes]
        omega
      rw [hcancel] at hrest'
      refine ⟨s₁, s₄, p₄, m₄, hleftmost, hvisit.trans hvr, ?_, fun _ => hnone nofun, ?_⟩
      · rw [BinaryTree.numNodes] at hm₄
        omega
      · rw [hrest, hcons]
        simp only [rootPtr, Option.isNone_some, Bool.false_eq_true, if_false, preorderLoop]
        simp only [rootPtr] at hright
        rw [hright]
        exact hrest'

theorem btPreorder_eq (ht : s.Holds t) (hfit : t.height ≤ maxStack) (hfuel : t.numNodes < fuel) :
    ∃ s', s.btPreorder maxStack fuel (rootPtr t) = some s' ∧
      s'.out = s.out ++ workOuts (preorder t) := by
  cases t with
  | nil => exact ⟨s, rfl, (List.append_nil _).symm⟩
  | node x l r =>
    have hheight := (BinaryTree.node x l r).height_le_numNodes
    obtain ⟨k, rfl⟩ := Nat.exists_eq_add_of_le' hfuel
    obtain ⟨s₁, s', p', m, hleft, hvisit, -, hnone, hrest⟩ :=
      preorder_visit maxStack (k + (BinaryTree.node x l r).numNodes.succ) (s := s.sInitP)
        (k := k + (BinaryTree.node x l r).numNodes.succ) ht (by change 0 + _ ≤ _; omega)
        (by omega) (by omega) k (some x.1)
    refine ⟨s', ?_, hvisit.out⟩
    rw [hnone nofun, preorderRest_nil hvisit.stackP] at hrest
    simp only [btPreorder, rootPtr, Option.isNone_some, Bool.false_eq_true, if_false,
      Nat.add_succ, preorderLoop]
    simp only [rootPtr, Nat.add_succ] at hleft
    rw [hleft]
    exact hrest

/-! ### Inorder -/

/-- A node comes off the stack: it is worked out, and the loop goes on with its right subtree. -/
theorem inorderLoop_cons {node : Node} (h : s.stackP.elems = some a :: ps)
    (ha : s.heap.get? a = some node)
    (hright : ({ s with stackP := s.stackP.pop.2 }.log (.workOut a node.cont)).leftmostInorder
      maxStack fuel node.rPtr = some s') :
    s.inorderLoop maxStack fuel (n + 1) (some b) = s'.inorderLoop maxStack fuel n (some a) := by
  have hwork : ({ s with stackP := s.stackP.pop.2 } : State).btWorkOut (some a) =
      some ({ s with stackP := s.stackP.pop.2 }.log (.workOut a node.cont)) := btWorkOut_eq ha
  have hread : ({ s with stackP := s.stackP.pop.2 }.log (.workOut a node.cont)).heap.read (some a) =
      some node := ha
  rw [inorderLoop, sEmptyP_cons h, sTopPopP_eq h]
  simp only [hwork, hread, Bool.false_eq_true, if_false, Option.bind_eq_bind, Option.bind_some]
  cases hr : node.rPtr with
  | none =>
    rw [hr] at hright
    cases fuel <;> cases hright <;> rfl
  | some c =>
    rw [hr] at hright
    simp only [hright, Option.isSome_some, if_true, Option.bind_some]

theorem inorder_visit (maxStack fuel : Nat) (ht : s.Holds t)
    (hfit : s.stackP.top + t.height ≤ maxStack)
    (hfuel : t.height ≤ fuel) (hk : t.height ≤ k) (n : Nat) (a : Addr) :
    ∃ s₁ s' b, s.leftmostInorder maxStack k (rootPtr t) = some s₁ ∧ Visits s s' (inorder t) ∧
      s₁.inorderLoop maxStack fuel (n + t.numNodes) (some a) =
        s'.inorderLoop maxStack fuel n (some b) := by
  induction t generalizing s k n a with
  | nil => exact ⟨s, s, a, by cases k <;> rfl, .refl s, rfl⟩
  | node x l r ihl ihr =>
    obtain ⟨hx, hl, hr⟩ := ht
    rw [BinaryTree.height] at hfit hfuel hk
    obtain ⟨k, rfl⟩ := Nat.exists_eq_add_of_le' (Nat.le_of_add_left_le hk)
    have hpush : s.sPushP maxStack (some x.1) = { s with stackP := s.stackP.push (some x.1) } :=
      sPushP_eq (by omega)
    obtain ⟨s₁, s₂, b, hleft, hvl, hloop⟩ :=
      ihl (s := { s with stackP := s.stackP.push (some x.1) }) (k := k) hl
        (by change s.stackP.top + 1 + _ ≤ _; omega) (by omega) (by omega) (n + r.numNodes + 1) a
    have helems : s₂.stackP.elems = some x.1 :: s.stackP.elems := by
      rw [hvl.stackP]
      exact TStack.elems_push ..
    have hx₂ : s₂.heap.get? x.1 = some ⟨x.2, rootPtr l, rootPtr r⟩ := by rwa [hvl.heap]
    have hvisit : Visits s ({ s₂ with stackP := s₂.stackP.pop.2 }.log (.workOut x.1 x.2))
        (inorder l ++ [x]) := by
      refine ⟨hvl.heap, (TStack.pop_of_elems helems).2.2, hvl.stackB, ?_⟩
      rw [log, hvl.out, workOuts, workOuts, List.map_append, List.append_assoc]
      rfl
    obtain ⟨s₃, s₄, b', hright, hvr, hloop'⟩ := ihr (k := fuel) (hvisit.holds hr)
      (by rw [hvisit.top]; omega) (by omega) (by omega) n x.1
    refine ⟨s₁, s₄, b', ?_, ?_, ?_⟩
    · simp only [rootPtr, leftmostInorder, hpush, hx, Option.bind_eq_bind, Option.bind_some]
      exact hleft
    · simpa [inorder] using hvisit.trans hvr
    · have hnum : n + (BinaryTree.node x l r).numNodes = n + r.numNodes + 1 + l.numNodes := by
        rw [BinaryTree.numNodes]
        omega
      rw [hnum, hloop, inorderLoop_cons helems hx₂ hright]
      exact hloop'

theorem btInorder_eq (ht : s.Holds t) (hfit : t.height ≤ maxStack) (hfuel : t.numNodes < fuel) :
    ∃ s', s.btInorder maxStack fuel (rootPtr t) = some s' ∧
      s'.out = s.out ++ workOuts (inorder t) := by
  cases t with
  | nil => exact ⟨s, rfl, (List.append_nil _).symm⟩
  | node x l r =>
    have hheight := (BinaryTree.node x l r).height_le_numNodes
    obtain ⟨k, rfl⟩ := Nat.exists_eq_add_of_le' hfuel
    obtain ⟨s₁, s', b, hleft, hvisit, hloop⟩ :=
      inorder_visit maxStack (k + (BinaryTree.node x l r).numNodes.succ) (s := s.sInitP)
        (k := k + (BinaryTree.node x l r).numNodes.succ) ht (by change 0 + _ ≤ _; omega)
        (by omega) (by omega) (k + 1) x.1
    refine ⟨s', ?_, hvisit.out⟩
    have hlast : s'.inorderLoop maxStack (k + (BinaryTree.node x l r).numNodes.succ) (k + 1)
        (some b) = some s' := by
      rw [inorderLoop, if_pos (sEmptyP_nil hvisit.stackP)]
    simp only [btInorder, rootPtr, Option.isNone_some, Bool.false_eq_true, if_false]
    simp only [rootPtr] at hleft
    rw [hleft, ← hlast, ← hloop, Nat.add_succ, Nat.succ_add]
    rfl

/-! ### Postorder -/

/-- A node that was seen for the first time comes off the stacks: it goes back on them, and the loop
goes on with its right subtree. -/
theorem postorderLoop_true {node : Node} (h : s.stackP.elems = some a :: ps)
    (hb : s.stackB.elems = true :: bs) (htop : s.stackP.top ≤ maxStack)
    (htopB : s.stackB.top ≤ maxStack) (ha : s.heap.get? a = some node)
    (hright : ({ s with
      stackP := s.stackP.pop.2.push (some a)
      stackB := s.stackB.pop.2.push false } : State).leftmostPostorder maxStack fuel node.rPtr =
        some s') :
    s.postorderLoop maxStack fuel (n + 1) = s'.postorderLoop maxStack fuel n := by
  have hpopP : s.stackP.pop.2.top < maxStack :=
    Nat.lt_of_lt_of_le (Nat.sub_one_lt (TStack.pop_of_elems h).1) htop
  have hpopB : s.stackB.pop.2.top < maxStack :=
    Nat.lt_of_lt_of_le (Nat.sub_one_lt (TStack.pop_of_elems hb).1) htopB
  have hpushB : ({ s with stackB := s.stackB.pop.2, stackP := s.stackP.pop.2 } : State).sPushB
      maxStack false = { s with stackB := s.stackB.pop.2.push false, stackP := s.stackP.pop.2 } :=
    sPushB_eq hpopB
  have hpushP : ({ s with stackB := s.stackB.pop.2.push false, stackP := s.stackP.pop.2 } :
      State).sPushP maxStack (some a) =
        { s with stackB := s.stackB.pop.2.push false, stackP := s.stackP.pop.2.push (some a) } :=
    sPushP_eq hpopP
  have hpop : ({ s with stackB := s.stackB.pop.2 } : State).sTopPopP =
      (some a, { s with stackB := s.stackB.pop.2, stackP := s.stackP.pop.2 }) := sTopPopP_eq h
  have hread : s.heap.read (some a) = some node := ha
  rw [postorderLoop, sEmptyP_cons h, sTopPopB_eq hb]
  simp only [hpop, hpushB, hpushP, hread, hright, Bool.false_eq_true, if_false, Bool.not_true,
    Option.bind_eq_bind, Option.bind_some]

/-- A node that was seen before comes off the stacks: it is worked out. -/
theorem postorderLoop_false {node : Node} (h : s.stackP.elems = some a :: ps)
    (hb : s.stackB.elems = false :: bs) (ha : s.heap.get? a = some node) :
    s.postorderLoop maxStack fuel (n + 1) =
      ({ s with stackB := s.stackB.pop.2, stackP := s.stackP.pop.2 }.log
        (.workOut a node.cont)).postorderLoop maxStack fuel n := by
  have hpop : ({ s with stackB := s.stackB.pop.2 } : State).sTopPopP =
      (some a, { s with stackB := s.stackB.pop.2, stackP := s.stackP.pop.2 }) := sTopPopP_eq h
  have hwork : ({ s with stackB := s.stackB.pop.2, stackP := s.stackP.pop.2 } : State).btWorkOut
      (some a) = some ({ s with stackB := s.stackB.pop.2, stackP := s.stackP.pop.2 }.log
        (.workOut a node.cont)) := btWorkOut_eq ha
  rw [postorderLoop, sEmptyP_cons h, sTopPopB_eq hb]
  simp only [hpop, hwork, Bool.false_eq_true, if_false, Bool.not_false, if_true,
    Option.bind_eq_bind, Option.bind_some]

theorem postorder_visit (maxStack fuel : Nat) (ht : s.Holds t)
    (hfit : s.stackP.top + t.height ≤ maxStack)
    (htop : s.stackB.top = s.stackP.top) (hfuel : t.height ≤ fuel) (hk : t.height ≤ k) (n : Nat) :
    ∃ s₁ s', s.leftmostPostorder maxStack k (rootPtr t) = some s₁ ∧ Visits s s' (postorder t) ∧
      s₁.postorderLoop maxStack fuel (n + 2 * t.numNodes) = s'.postorderLoop maxStack fuel n := by
  induction t generalizing s k n with
  | nil => exact ⟨s, s, by cases k <;> rfl, .refl s, rfl⟩
  | node x l r ihl ihr =>
    obtain ⟨hx, hl, hr⟩ := ht
    rw [BinaryTree.height] at hfit hfuel hk
    obtain ⟨k, rfl⟩ := Nat.exists_eq_add_of_le' (Nat.le_of_add_left_le hk)
    have hpushP : s.sPushP maxStack (some x.1) = { s with stackP := s.stackP.push (some x.1) } :=
      sPushP_eq (by omega)
    have hpushB : ({ s with stackP := s.stackP.push (some x.1) } : State).sPushB maxStack true =
        { s with stackP := s.stackP.push (some x.1), stackB := s.stackB.push true } :=
      sPushB_eq (by change s.stackB.top < _; omega)
    obtain ⟨s₁, s₂, hleft, hvl, hloop⟩ :=
      ihl (s := { s with stackP := s.stackP.push (some x.1), stackB := s.stackB.push true })
        (k := k) hl (by change s.stackP.top + 1 + _ ≤ _; omega) (congrArg (· + 1) htop) (by omega)
        (by omega) (n + 1 + 2 * r.numNodes + 1)
    -- after the left subtree the node is on top of the stacks
    have helems : s₂.stackP.elems = some x.1 :: s.stackP.elems :=
      hvl.stackP.trans (TStack.elems_push ..)
    have helemsB : s₂.stackB.elems = true :: s.stackB.elems :=
      hvl.stackB.trans (TStack.elems_push ..)
    have htop₂ : s₂.stackP.top = s.stackP.top + 1 := hvl.top
    have htopB₂ : s₂.stackB.top = s.stackB.top + 1 := by
      rw [← TStack.length_elems, helemsB, List.length_cons, TStack.length_elems]
    have hx₂ : s₂.heap.get? x.1 = some ⟨x.2, rootPtr l, rootPtr r⟩ := by rwa [hvl.heap]
    obtain ⟨s₃, s₄, hright, hvr, hloop'⟩ :=
      ihr (s := { s₂ with
        stackP := s₂.stackP.pop.2.push (some x.1)
        stackB := s₂.stackB.pop.2.push false }) (k := fuel) (hvl.holds hr)
        (by change s₂.stackP.top - 1 + 1 + _ ≤ _; omega)
        (by change s₂.stackB.top - 1 + 1 = s₂.stackP.top - 1 + 1; omega) (by omega) (by omega)
        (n + 1)
    -- and after the right subtree again
    have helems₄ : s₄.stackP.elems = some x.1 :: s.stackP.elems := by
      refine hvr.stackP.trans ((TStack.elems_push ..).trans ?_)
      rw [(TStack.pop_of_elems helems).2.2]
    have helemsB₄ : s₄.stackB.elems = false :: s.stackB.elems := by
      refine hvr.stackB.trans ((TStack.elems_push ..).trans ?_)
      rw [(TStack.pop_of_elems helemsB).2.2]
    have hx₄ : s₄.heap.get? x.1 = some ⟨x.2, rootPtr l, rootPtr r⟩ := by
      rw [hvr.heap]
      exact hx₂
    have hnum : n + 2 * (BinaryTree.node x l r).numNodes =
        n + 1 + 2 * r.numNodes + 1 + 2 * l.numNodes := by
      rw [BinaryTree.numNodes]
      omega
    refine ⟨s₁, { s₄ with stackB := s₄.stackB.pop.2, stackP := s₄.stackP.pop.2 }.log
      (.workOut x.1 x.2), ?_, ?_, ?_⟩
    · simp only [rootPtr, leftmostPostorder, hpushP, hpushB, hx, Option.bind_eq_bind,
        Option.bind_some]
      exact hleft
    · refine ⟨hvr.heap.trans hvl.heap, (TStack.pop_of_elems helems₄).2.2,
        (TStack.pop_of_elems helemsB₄).2.2, ?_⟩
      rw [log, hvr.out, hvl.out, workOuts, workOuts, workOuts, postorder]
      simp
    · rw [hnum, hloop, postorderLoop_true helems helemsB (by omega) (by omega) hx₂ hright, hloop',
        postorderLoop_false helems₄ helemsB₄ hx₄]

theorem btPostorder_eq (ht : s.Holds t) (hfit : t.height ≤ maxStack)
    (hfuel : 2 * t.numNodes ≤ fuel) :
    ∃ s', s.btPostorder maxStack fuel (rootPtr t) = some s' ∧
      s'.out = s.out ++ workOuts (postorder t) := by
  cases t with
  | nil => exact ⟨s, rfl, (List.append_nil _).symm⟩
  | node x l r =>
    have hheight := (BinaryTree.node x l r).height_le_numNodes
    obtain ⟨k, rfl⟩ := Nat.exists_eq_add_of_le' hfuel
    obtain ⟨s₁, s', hleft, hvisit, hloop⟩ :=
      postorder_visit maxStack (k + 2 * (BinaryTree.node x l r).numNodes) (s := s.sInitP.sInitB)
        (k := k + 2 * (BinaryTree.node x l r).numNodes) ht (by change 0 + _ ≤ _; omega) rfl
        (by omega) (by omega) k
    refine ⟨s', ?_, hvisit.out⟩
    have hlast : s'.postorderLoop maxStack (k + 2 * (BinaryTree.node x l r).numNodes) k =
        some s' := by
      cases k <;> rw [postorderLoop, if_pos (sEmptyP_nil hvisit.stackP)]
    simp only [btPostorder, rootPtr, Option.isNone_some, Bool.false_eq_true, if_false]
    simp only [rootPtr] at hleft
    rw [hleft, ← hlast, ← hloop]
    rfl

/-- On every tree that is not higher than the stacks, the three traversals end and call `BTWorkOut`
on the nodes of the recursive traversals, in their order; nothing else is logged, so no stack
overflows or underflows. -/
theorem traversals_agree (maxStack : Nat) (s : State) (t : BinaryTree (Addr × Int))
    (ht : s.Holds t) (hfit : t.height ≤ maxStack) :
    ∃ rounds, ∀ fuel, rounds ≤ fuel →
      (∃ s', s.btPreorder maxStack fuel (rootPtr t) = some s' ∧
        s'.out = s.out ++ workOuts (preorder t)) ∧
      (∃ s', s.btInorder maxStack fuel (rootPtr t) = some s' ∧
        s'.out = s.out ++ workOuts (inorder t)) ∧
      ∃ s', s.btPostorder maxStack fuel (rootPtr t) = some s' ∧
        s'.out = s.out ++ workOuts (postorder t) := by
  refine ⟨2 * t.numNodes + 1, fun fuel hfuel => ⟨?_, ?_, ?_⟩⟩
  · exact btPreorder_eq ht hfit (by omega)
  · exact btInorder_eq ht hfit (by omega)
  · exact btPostorder_eq ht hfit (by omega)

/-- A root with two children, on stacks of two places with some content. -/
theorem traversals_agree_three :
    ∃ rounds, ∀ fuel, rounds ≤ fuel →
      (∃ s', State.btPreorder 2 ⟨⟨[(7, ⟨1, some 8, some 9⟩), (8, ⟨0, none, none⟩),
          (9, ⟨2, none, none⟩)]⟩, ⟨1, fun _ => some 3⟩, ⟨2, fun _ => true⟩, []⟩ fuel (some 7) =
            some s' ∧ s'.out = [] ++ [.workOut 7 1, .workOut 8 0, .workOut 9 2]) ∧
      (∃ s', State.btInorder 2 ⟨⟨[(7, ⟨1, some 8, some 9⟩), (8, ⟨0, none, none⟩),
          (9, ⟨2, none, none⟩)]⟩, ⟨1, fun _ => some 3⟩, ⟨2, fun _ => true⟩, []⟩ fuel (some 7) =
            some s' ∧ s'.out = [] ++ [.workOut 8 0, .workOut 7 1, .workOut 9 2]) ∧
      ∃ s', State.btPostorder 2 ⟨⟨[(7, ⟨1, some 8, some 9⟩), (8, ⟨0, none, none⟩),
          (9, ⟨2, none, none⟩)]⟩, ⟨1, fun _ => some 3⟩, ⟨2, fun _ => true⟩, []⟩ fuel (some 7) =
            some s' ∧ s'.out = [] ++ [.workOut 8 0, .workOut 9 2, .workOut 7 1] :=
  traversals_agree 2 _ (.node (7, 1) (.node (8, 0) .nil .nil) (.node (9, 2) .nil .nil))
    ⟨rfl, ⟨rfl, trivial, trivial⟩, rfl, trivial, trivial⟩ (by decide)

/-! ### Disposal -/

/-- The addresses of the nodes. -/
abbrev nodes (t : BinaryTree (Addr × Int)) : List Addr := addrs (preorder t)

/-- From `s` to `s'` the cells at `as` were freed, the others and the stack were kept. -/
structure Frees (s s' : State) (as : List Addr) : Prop where
  freed : ∀ a ∈ as, s'.heap.get? a = none
  kept : ∀ a, a ∉ as → s'.heap.get? a = s.heap.get? a
  stackP : s'.stackP.elems = s.stackP.elems
  out : s'.out = s.out ++ as.map .free

theorem Frees.trans {as as' : List Addr} (h : Frees s s' as) (h' : Frees s' s'' as') :
    Frees s s'' (as ++ as') where
  freed := by
    intro a ha
    by_cases hmem : a ∈ as'
    · exact h'.freed a hmem
    · rw [h'.kept a hmem]
      exact h.freed a ((List.mem_append.mp ha).resolve_right hmem)
  kept := by
    intro a ha
    rw [List.mem_append, not_or] at ha
    rw [h'.kept a ha.2, h.kept a ha.1]
  stackP := h'.stackP.trans h.stackP
  out := by rw [h'.out, h.out, List.map_append, List.append_assoc]

theorem Frees.top {as : List Addr} (h : Frees s s' as) : s'.stackP.top = s.stackP.top := by
  rw [← TStack.length_elems, ← TStack.length_elems, h.stackP]

/-- A tree elsewhere is still there. -/
theorem Frees.holds {as : List Addr} (h : Frees s s' as) (ht : s.Holds t)
    (hdisj : List.Disjoint (nodes t) as) : s'.Holds t :=
  InHeap.congr ht fun a ha => h.kept a fun hmem => hdisj ha hmem

/-- A subtree is freed while a pointer waits on the stack, which is taken then. -/
theorem Frees.pop {as : List Addr} (h : Frees { s with stackP := s.stackP.push p } s' as) :
    Frees s { s' with stackP := s'.stackP.pop.2 } as where
  freed := h.freed
  kept := h.kept
  stackP := (TStack.pop_of_elems (h.stackP.trans (TStack.elems_push ..))).2.2
  out := h.out

/-- `s` without the cell at `a`. -/
def freed (s : State) (a : Addr) : State :=
  { s with heap := s.heap.erase a, out := s.out ++ [.free a] }

theorem free_eq {node : Node} (ha : s.heap.get? a = some node) : s.free a = some (s.freed a) := by
  rw [State.free, free_some, ha]
  rfl

theorem freed_frees (s : State) (a : Addr) : Frees s (s.freed a) [a] := by
  refine ⟨?_, ?_, rfl, rfl⟩
  · intro b hb
    rw [List.mem_singleton.mp hb]
    exact get?_erase_self
  · intro b hb
    exact get?_erase_of_ne fun heq => hb (List.mem_singleton.mpr heq)

theorem popNext_eq (s : State) : s.popNext =
    (if s.stackP.top = 0 then none else s.stackP.pop.1, { s with stackP := s.stackP.pop.2 }) := by
  rcases Nat.eq_zero_or_pos s.stackP.top with h0 | hpos
  · have hpop : s.stackP.pop.2 = s.stackP := by rw [TStack.pop, h0, Nat.zero_sub, ← h0]
    rw [popNext, sEmptyP, decide_eq_true h0, if_pos h0, hpop]
    rfl
  · have hne := Nat.ne_of_gt hpos
    rw [popNext, sEmptyP, decide_eq_false hne, if_neg hne, sTopPopP, if_neg hne]
    rfl

/-- The rounds of `BTDisposeTree` after a subtree was freed. -/
def disposeRest (maxStack n : Nat) (s : State) : Option State :=
  s.popNext.2.disposeLoop maxStack n s.popNext.1

theorem disposeRest_nil (maxStack n : Nat) (h : s.stackP.elems = []) :
    ∃ s', disposeRest maxStack n s = some s' ∧ s'.heap = s.heap ∧ s'.out = s.out := by
  have htop : s.stackP.top = 0 := by rw [← TStack.length_elems, h, List.length_nil]
  refine ⟨{ s with stackP := s.stackP.pop.2 }, ?_, rfl, rfl⟩
  rw [disposeRest, popNext_eq, if_pos htop]
  cases n <;> rfl

theorem disposeRest_cons (maxStack n : Nat) (h : s.stackP.elems = p :: ps) :
    disposeRest maxStack n s =
      ({ s with stackP := s.stackP.pop.2 } : State).disposeLoop maxStack n p := by
  obtain ⟨hne, hp, -⟩ := TStack.pop_of_elems h
  rw [disposeRest, popNext_eq, if_neg hne, hp]

/-- One round: the root of a subtree is freed, and the loop goes on with a child, or with a pointer
from the stack. -/
theorem disposeLoop_node {node : Node} (ha : s.heap.get? a = some node)
    (htop : s.stackP.top < maxStack) :
    s.disposeLoop maxStack (n + 1) (some a) =
      if node.lPtr.isSome then
        ({ s.freed a with stackP :=
          if node.rPtr.isSome then s.stackP.push node.rPtr else s.stackP } : State).disposeLoop
            maxStack n node.lPtr
      else if node.rPtr.isSome then (s.freed a).disposeLoop maxStack n node.rPtr
      else disposeRest maxStack n (s.freed a) := by
  have hfree : s.free a = some (s.freed a) := free_eq ha
  rw [disposeLoop, ha, Option.bind_eq_bind, Option.bind_some]
  cases hl : node.lPtr with
  | none =>
    cases hr : node.rPtr with
    | none =>
      have hpop : s.popNext.2.free a = some ((s.freed a).popNext.2) := by
        rw [popNext_eq, popNext_eq]
        exact free_eq ha
      have hnext : (s.freed a).popNext.1 = s.popNext.1 := by
        rw [popNext_eq, popNext_eq]
        rfl
      simp only [Option.bind_eq_bind, Option.bind_some, Option.isSome_none, Bool.false_eq_true,
        if_false, hpop, disposeRest, hnext]
    | some c =>
      simp only [Option.bind_eq_bind, Option.bind_some, Option.isSome_none, Option.isSome_some,
        Bool.false_eq_true, if_false, if_true, hfree]
  | some b =>
    cases hr : node.rPtr with
    | none =>
      simp only [Option.bind_eq_bind, Option.bind_some, Option.isSome_none, Option.isSome_some,
        Bool.false_eq_true, if_false, if_true, hfree]
      rfl
    | some c =>
      have hpush : (s.sPushP maxStack (some c)).free a =
          some { s.freed a with stackP := s.stackP.push (some c) } := by
        rw [sPushP_eq htop]
        exact free_eq ha
      simp only [Option.bind_eq_bind, Option.bind_some, Option.isSome_some, if_true, hpush]

theorem dispose_visit (ht : s.Holds t) (hne : t ≠ .nil) (hnodup : (nodes t).Nodup)
    (hfit : s.stackP.top + t.height ≤ maxStack) (n : Nat) :
    ∃ s', Frees s s' (nodes t) ∧
      s.disposeLoop maxStack (n + t.numNodes) (rootPtr t) = disposeRest maxStack n s' := by
  induction t generalizing s n with
  | nil => exact absurd rfl hne
  | node x l r ihl ihr =>
    obtain ⟨hx, hl, hr⟩ := ht
    rw [BinaryTree.height] at hfit
    simp only [nodes, preorder_node, addrs_cons, addrs_append, List.nodup_cons,
      List.nodup_append, List.mem_append, not_or] at hnodup
    obtain ⟨⟨hxl, hxr⟩, hndl, hndr, hlr⟩ := hnodup
    have hfreed := freed_frees s x.1
    have htop : s.stackP.top < maxStack := by omega
    have hround := disposeLoop_node (n := n + l.numNodes + r.numNodes) hx htop
    have hl' : (s.freed x.1).Holds l := hfreed.holds hl (List.disjoint_singleton.mpr hxl)
    have hr' : (s.freed x.1).Holds r := hfreed.holds hr (List.disjoint_singleton.mpr hxr)
    rw [BinaryTree.numNodes, ← Nat.add_assoc, ← Nat.add_assoc]
    cases l with
    | nil =>
      cases r with
      | nil => exact ⟨s.freed x.1, hfreed, hround⟩
      | node y rl rr =>
        obtain ⟨s', hfr, hloop⟩ := ihr hr' nofun hndr (by change s.stackP.top + _ ≤ _; omega) n
        exact ⟨s', hfreed.trans hfr, hround.trans hloop⟩
    | node z ll lr =>
      cases r with
      | nil =>
        obtain ⟨s', hfl, hloop⟩ := ihl hl' nofun hndl (by change s.stackP.top + _ ≤ _; omega) n
        refine ⟨s', ?_, hround.trans hloop⟩
        have htrans := hfreed.trans hfl
        simpa [nodes, preorder] using htrans
      | node y rl rr =>
        obtain ⟨s₁, hfl, hloop⟩ := ihl (n := n + (BinaryTree.node y rl rr).numNodes)
          (s := { s.freed x.1 with stackP := s.stackP.push (some y.1) }) hl' nofun hndl
          (by change s.stackP.top + 1 + _ ≤ _; omega)
        have hfl' : Frees (s.freed x.1) { s₁ with stackP := s₁.stackP.pop.2 } _ := hfl.pop
        obtain ⟨s₂, hfr, hloop'⟩ := ihr (n := n) (s := { s₁ with stackP := s₁.stackP.pop.2 })
          (hfl'.holds hr' fun a har hal => hlr a hal a har rfl) nofun hndr
          (by rw [hfl'.top]; change s.stackP.top + _ ≤ _; omega)
        refine ⟨s₂, ?_, ?_⟩
        · have htrans := hfreed.trans (hfl'.trans hfr)
          simpa [nodes] using htrans
        · have hrest := disposeRest_cons maxStack (n + (BinaryTree.node y rl rr).numNodes)
            (hfl.stackP.trans (TStack.elems_push ..))
          refine hround.trans ?_
          rw [Nat.add_right_comm]
          exact hloop.trans (hrest.trans hloop')

/-- Disposal of a tree that is not higher than the stack ends without an access to a freed node,
frees every node once, and nothing else, and leaves the null pointer; nothing else is logged, so the
stack does not overflow. -/
theorem btDisposeTree_frees (maxStack : Nat) (s : State) (t : BinaryTree (Addr × Int))
    (ht : s.Holds t) (hnodup : (nodes t).Nodup) (hfit : t.height ≤ maxStack) :
    ∃ rounds, ∀ fuel, rounds ≤ fuel →
      ∃ s', s.btDisposeTree maxStack fuel (rootPtr t) = some (none, s') ∧
        (∀ a ∈ nodes t, s'.heap.get? a = none) ∧
        (∀ a, a ∉ nodes t → s'.heap.get? a = s.heap.get? a) ∧
        s'.out = s.out ++ (nodes t).map .free := by
  refine ⟨t.numNodes, fun fuel hfuel => ?_⟩
  cases t with
  | nil => exact ⟨s, rfl, nofun, fun _ _ => rfl, (List.append_nil _).symm⟩
  | node x l r =>
    obtain ⟨k, rfl⟩ := Nat.exists_eq_add_of_le' hfuel
    have hfit' : s.sInitP.stackP.top + (BinaryTree.node x l r).height ≤ maxStack := by
      change 0 + _ ≤ _
      omega
    obtain ⟨s₁, hfrees, hloop⟩ := dispose_visit (s := s.sInitP) ht nofun hnodup hfit' k
    obtain ⟨s₂, hrest, hheap, hout⟩ :=
      disposeRest_nil maxStack k (hfrees.stackP.trans s.sInitP_elems)
    refine ⟨s₂, ?_, ?_, ?_, hout.trans hfrees.out⟩
    · simp only [btDisposeTree, rootPtr, Option.isNone_some, Bool.false_eq_true, if_false]
      simp only [rootPtr] at hloop
      rw [hloop, hrest]
      rfl
    · rw [hheap]
      exact hfrees.freed
    · rw [hheap]
      exact hfrees.kept

/-- A root with two children, on a stack of two places, and a cell elsewhere. -/
theorem btDisposeTree_frees_three :
    ∃ rounds, ∀ fuel, rounds ≤ fuel →
      ∃ s', State.btDisposeTree 2 ⟨⟨[(7, ⟨1, some 8, some 9⟩), (8, ⟨0, none, none⟩),
          (9, ⟨2, none, none⟩), (3, ⟨5, none, some 7⟩)]⟩, ⟨1, fun _ => some 3⟩, ⟨2, fun _ => true⟩,
          []⟩ fuel (some 7) = some (none, s') ∧
        (∀ a ∈ [7, 8, 9], s'.heap.get? a = none) ∧
        (∀ a, a ∉ [7, 8, 9] → s'.heap.get? a = Heap.get? ⟨[(7, ⟨1, some 8, some 9⟩),
          (8, ⟨0, none, none⟩), (9, ⟨2, none, none⟩), (3, ⟨5, none, some 7⟩)]⟩ a) ∧
        s'.out = [] ++ [.free 7, .free 8, .free 9] :=
  btDisposeTree_frees 2 _ (.node (7, 1) (.node (8, 0) .nil .nil) (.node (9, 2) .nil .nil))
    ⟨rfl, ⟨rfl, trivial, trivial⟩, rfl, trivial, trivial⟩ (by decide) (by decide)

end State

end BTree
