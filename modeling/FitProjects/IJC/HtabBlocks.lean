import FitProjects.IJC.HtabMemory
import Mathlib.Tactic.Abel

/-! # Who owns the blocks of the hash table

A table owns its own block and two blocks for every item, the item and its key. `Rep` lists the
items of every chain with their addresses and adds the blocks that a running function owns beside
the table. Each function keeps `Rep`, or falls into `none`. -/

namespace HtabMemory

open Heap

/-- An item of a chain: its address, the address of its key, and what it holds. -/
abbrev Node := Addr × Addr × Htab.Item

/-- The blocks of a chain, `n` follows the last item. -/
def chainCells (n : Ptr) : List Node → Multiset (Addr × Block)
  | [] => 0
  | x :: xs =>
    (x.1, .item ⟨some x.2.1, x.2.2.data, headPtr xs n⟩) ::ₘ
      (x.2.1, .chars (x.2.2.key ++ [0])) ::ₘ chainCells n xs

/-- The blocks of all chains. -/
def allCells (chains : List (List Node)) : Multiset (Addr × Block) :=
  (chains.map (chainCells none)).sum

/-- The block of the table itself. -/
def tableBlock (chains : List (List Node)) : Block :=
  .table ⟨chains.length, chains.map (headPtr · none)⟩

/-- The keys are strings. -/
def Strings (chains : List (List Node)) : Prop := ∀ c ∈ chains, ∀ x ∈ c, 0 ∉ x.2.2.key

/-- Beside `h₀` there are the table at `t` with these chains and the blocks `extra`. -/
structure Rep (h₀ h : Heap Block) (t : Addr) (extra : Multiset (Addr × Block))
    (chains : List (List Node)) : Prop where
  owns : Owns h₀ h (extra + (t, tableBlock chains) ::ₘ allCells chains)
  strings : Strings chains

variable {h₀ h h' : Heap Block} {t a k kb : Addr} {extra : Multiset (Addr × Block)}
  {chains : List (List Node)} {c xs ys : List Node} {x : Node} {key s : List UInt8} {p n q : Ptr}
  {i index fuel size : Nat}

@[simp] theorem chainCells_nil : chainCells n [] = 0 := rfl

@[simp] theorem chainCells_cons : chainCells n (x :: xs) =
    (x.1, .item ⟨some x.2.1, x.2.2.data, headPtr xs n⟩) ::ₘ
      (x.2.1, .chars (x.2.2.key ++ [0])) ::ₘ chainCells n xs := rfl

@[simp] theorem chainCells_append :
    chainCells n (xs ++ ys) = chainCells (headPtr ys n) xs + chainCells n ys := by
  induction xs with
  | nil => simp
  | cons x xs ih => simp [ih]

@[simp] theorem card_chainCells : (chainCells n xs).card = 2 * xs.length := by
  induction xs with
  | nil => rfl
  | cons x xs ih =>
    rw [chainCells_cons, Multiset.card_cons, Multiset.card_cons, ih, List.length_cons]
    omega

theorem mem_chainCells (hx : x ∈ xs) :
    (∃ q, (x.1, .item ⟨some x.2.1, x.2.2.data, q⟩) ∈ chainCells n xs) ∧
      (x.2.1, .chars (x.2.2.key ++ [0])) ∈ chainCells n xs := by
  induction xs with
  | nil => exact absurd hx List.not_mem_nil
  | cons y xs ih =>
    rcases List.mem_cons.mp hx with rfl | hx
    · exact ⟨⟨headPtr xs n, by simp⟩, by simp⟩
    · obtain ⟨⟨q, hitem⟩, hchars⟩ := ih hx
      exact ⟨⟨q, by simp [hitem]⟩, by simp [hchars]⟩

/-- The blocks of one chain beside those of the others. -/
theorem allCells_set (hi : i < chains.length) :
    allCells (chains.set i c) = chainCells none c + allCells (chains.set i []) := by
  induction chains generalizing i with
  | nil => exact absurd hi (Nat.not_lt_zero i)
  | cons d chains ih =>
    cases i with
    | zero => simp [allCells]
    | succ i =>
      have := ih (Nat.lt_of_succ_lt_succ hi)
      simp only [allCells, List.set_cons_succ, List.map_cons, List.sum_cons] at this ⊢
      rw [this, add_left_comm]

theorem allCells_eq (hc : chains[i]? = some c) :
    allCells chains = chainCells none c + allCells (chains.set i []) := by
  obtain ⟨hi, rfl⟩ := List.getElem?_eq_some_iff.mp hc
  rw [← allCells_set hi, List.set_getElem_self]

/-! ## Reading -/

theorem charsAt_of_get? (hget : h.get? a = some (.chars s)) : charsAt h (some a) = some s := by
  rw [charsAt, read_some, hget]

theorem stringAt_of_get? (hget : h.get? a = some (.chars (key ++ [0]))) (hkey : 0 ∉ key) :
    stringAt h (some a) = some key := by
  rw [stringAt, charsAt_of_get? hget, Option.bind_eq_bind, Option.bind_some, if_pos (by simp),
    cstring_append_zero hkey]

theorem itemAt_of_get? {item : Listitem} (hget : h.get? a = some (.item item)) :
    itemAt h (some a) = some item := by
  rw [itemAt, read_some, hget]

theorem tableAt_of_get? {table : HtabT} (hget : h.get? a = some (.table table)) :
    tableAt h (some a) = some table := by
  rw [tableAt, read_some, hget]

theorem setItem_of_get? {item : Listitem} (hget : h.get? a = some (.item item))
    (f : Listitem → Listitem) : setItem h (some a) f = some (h.insert a (.item (f item))) := by
  rw [setItem, Option.bind_eq_bind, Option.bind_some, itemAt_of_get? hget]
  rfl

theorem setData_of_get? {table : HtabT} (hget : h.get? t = some (.table table))
    (hindex : index < table.data.length) (q : Ptr) :
    setData h (some t) index q =
      some (h.insert t (.table { table with data := table.data.set index q })) := by
  rw [setData, Option.bind_eq_bind, Option.bind_some, tableAt_of_get? hget, Option.bind_eq_bind,
    Option.bind_some, if_pos hindex]

theorem strcmp_of_ne {a b : UInt8} (s s' : List UInt8) (hab : a ≠ b) :
    ∃ d, strcmp (a :: s) (b :: s') = some d ∧ d ≠ 0 := by
  refine ⟨_, if_pos hab, fun hd => hab ?_⟩
  rw [← UInt8.toNat_inj]
  omega

/-- Equal strings and only those compare equal. -/
theorem strcmp_strings (hkey : 0 ∉ key) (hs : 0 ∉ s) :
    ∃ d, strcmp (key ++ [0]) (s ++ [0]) = some d ∧ (d = 0 ↔ key = s) := by
  induction key generalizing s with
  | nil =>
    cases s with
    | nil => exact ⟨0, rfl, by simp⟩
    | cons b s =>
      have hb : (0 : UInt8) ≠ b := fun hb => hs (hb ▸ List.mem_cons_self)
      obtain ⟨d, hd, hne⟩ := strcmp_of_ne [] (s ++ [0]) hb
      exact ⟨d, hd, by simp [hne]⟩
  | cons a key ih =>
    rw [List.mem_cons, not_or] at hkey
    cases s with
    | nil =>
      obtain ⟨d, hd, hne⟩ := strcmp_of_ne (key ++ [0]) [] (Ne.symm hkey.1)
      exact ⟨d, hd, by simp [hne]⟩
    | cons b s =>
      rw [List.mem_cons, not_or] at hs
      by_cases hab : a = b
      · obtain ⟨d, hd, heq⟩ := ih hkey.2 hs.2
        refine ⟨d, ?_, by simp [hab, heq]⟩
        rw [List.cons_append, List.cons_append, strcmp, if_neg (not_not_intro hab),
          if_neg (Ne.symm hkey.1), hd]
      · obtain ⟨d, hd, hne⟩ := strcmp_of_ne (key ++ [0]) (s ++ [0]) hab
        exact ⟨d, hd, by simp [hab, hne]⟩

theorem strcpy_fresh (key : List UInt8) (raw : Nat → UInt8) :
    strcpy (fresh (key.length + 1) raw) key = some (key ++ [0]) := by
  have hlen : (fresh (key.length + 1) raw).length = key.length + 1 := by simp [fresh]
  rw [strcpy, if_pos (by omega), List.drop_of_length_le (by omega)]

/-! ## The loops -/

theorem get_chainCells (hget : ∀ b ∈ chainCells n (x :: xs), h.get? b.1 = some b.2) :
    itemAt h (some x.1) = some ⟨some x.2.1, x.2.2.data, headPtr xs n⟩ ∧
      h.get? x.2.1 = some (.chars (x.2.2.key ++ [0])) ∧
      ∀ b ∈ chainCells n xs, h.get? b.1 = some b.2 := by
  rw [chainCells_cons, Multiset.forall_mem_cons, Multiset.forall_mem_cons] at hget
  exact ⟨itemAt_of_get? hget.1, hget.2.1, hget.2.2⟩

/-- The loop of `htab_lookup` finds the item with the key, or the last item of the chain. -/
theorem lookupLoop_eq (hget : ∀ b ∈ chainCells none xs, h.get? b.1 = some b.2)
    (hstrings : ∀ x ∈ xs, 0 ∉ x.2.2.key) (hkb : charsAt h p = some (key ++ [0])) (hkey : 0 ∉ key)
    (hfuel : xs.length < fuel) :
    ∃ itemP, lookupLoop h p fuel (headPtr xs none) q =
        some ((xs.find? fun x => x.2.2.key = key).map Prod.fst, itemP) ∧
      ((∀ x ∈ xs, x.2.2.key ≠ key) → itemP = lastPtr q xs) := by
  induction xs generalizing fuel q with
  | nil =>
    obtain ⟨fuel, rfl⟩ := Nat.exists_eq_add_one.mpr (Nat.zero_lt_of_lt hfuel)
    exact ⟨q, rfl, fun _ => rfl⟩
  | cons x xs ih =>
    obtain ⟨fuel, rfl⟩ := Nat.exists_eq_add_one.mpr (Nat.zero_lt_of_lt hfuel)
    obtain ⟨hitem, hchars, htail⟩ := get_chainCells hget
    rw [List.forall_mem_cons] at hstrings
    obtain ⟨d, hd, heq⟩ := strcmp_strings hstrings.1 hkey
    have hstep : lookupLoop h p (fuel + 1) (headPtr (x :: xs) none) q =
        if d = 0 then some (some x.1, q)
        else lookupLoop h p fuel (headPtr xs none) (some x.1) := by
      rw [headPtr_cons, lookupLoop, hitem, Option.bind_eq_bind, Option.bind_some,
        charsAt_of_get? hchars, hkb]
      simp only [Option.bind_eq_bind, Option.bind_some, hd]
    by_cases hk : x.2.2.key = key
    · refine ⟨q, ?_, fun hne => absurd hk (hne x List.mem_cons_self)⟩
      rw [hstep, if_pos (heq.mpr hk), List.find?_cons_of_pos (by simpa using hk)]
      rfl
    · obtain ⟨itemP, hloop, hlast⟩ := ih (q := some x.1) htail hstrings.2
        (Nat.lt_of_succ_lt_succ hfuel)
      refine ⟨itemP, ?_, fun hne => hlast fun y hy => hne y (List.mem_cons_of_mem _ hy)⟩
      rw [hstep, if_neg (mt heq.mp hk), hloop, List.find?_cons_of_neg (by simpa using hk)]

/-- The string compares as different from the keys of the items, within the blocks. -/
def Missed (s : List UInt8) (xs : List Node) : Prop :=
  ∀ x ∈ xs, (strcmp (x.2.2.key ++ [0]) s).any (· ≠ 0) = true

/-- After a `free` the same block cannot be freed. -/
theorem free_free (h : Heap Block) (a : Addr) :
    ((h.free (some a)).bind fun h => h.free (some a)) = none := by
  rw [free_some]
  cases h.get? a with
  | none => rfl
  | some v => simp

theorem removeLoop_step (hget : ∀ b ∈ chainCells none (x :: xs), h.get? b.1 = some b.2)
    (hkb : charsAt h (some kb) = some s) :
    removeLoop h p index (some kb) (fuel + 1) (headPtr (x :: xs) none) q =
      if (strcmp (x.2.2.key ++ [0]) s).any (· ≠ 0) = true then
        removeLoop h p index (some kb) fuel (headPtr xs none) (some x.1)
      else none := by
  obtain ⟨hitem, hchars, -⟩ := get_chainCells hget
  rw [headPtr_cons, removeLoop, hitem, Option.bind_eq_bind, Option.bind_some,
    charsAt_of_get? hchars, hkb]
  simp only [Option.bind_eq_bind, Option.bind_some]
  cases strcmp (x.2.2.key ++ [0]) s with
  | none => rfl
  | some d =>
    by_cases hd : d = 0
    · rw [Option.bind_some, if_pos hd, if_neg (by simp [hd])]
      simp only [free_free, Option.bind_fun_none]
    · rw [Option.bind_some, if_neg hd, if_pos (by simpa using hd)]

/-- A key that is not met: only the backup is freed. -/
theorem removeLoop_of_missed (p : Ptr) (index : Nat)
    (hget : ∀ b ∈ chainCells none xs, h.get? b.1 = some b.2)
    (hkb : charsAt h (some kb) = some s) (hmissed : Missed s xs) (hfuel : xs.length < fuel) :
    removeLoop h p index (some kb) fuel (headPtr xs none) q = h.free (some kb) := by
  induction xs generalizing fuel q with
  | nil =>
    obtain ⟨fuel, rfl⟩ := Nat.exists_eq_add_one.mpr (Nat.zero_lt_of_lt hfuel)
    rfl
  | cons x xs ih =>
    obtain ⟨fuel, rfl⟩ := Nat.exists_eq_add_one.mpr (Nat.zero_lt_of_lt hfuel)
    rw [removeLoop_step hget hkb, if_pos (hmissed x List.mem_cons_self)]
    exact ih (get_chainCells hget).2.2 (fun y hy => hmissed y (List.mem_cons_of_mem _ hy))
      (Nat.lt_of_succ_lt_succ hfuel)

/-- A key that is met, or a comparison that leaves the blocks: the backup is freed twice. -/
theorem removeLoop_of_not_missed (p : Ptr) (index fuel : Nat)
    (hget : ∀ b ∈ chainCells none xs, h.get? b.1 = some b.2)
    (hkb : charsAt h (some kb) = some s) (hmissed : ¬ Missed s xs) :
    removeLoop h p index (some kb) fuel (headPtr xs none) q = none := by
  induction xs generalizing fuel q with
  | nil => exact absurd (fun x hx => absurd hx List.not_mem_nil) hmissed
  | cons x xs ih =>
    cases fuel with
    | zero => rfl
    | succ fuel =>
      rw [removeLoop_step hget hkb]
      split
      · rename_i hx
        refine ih fuel (get_chainCells hget).2.2 fun hxs => hmissed fun y hy => ?_
        rcases List.mem_cons.mp hy with rfl | hy
        · exact hx
        · exact hxs y hy
      · rfl

theorem hitemFree_eq {extra : Multiset (Addr × Block)} {d : Nat}
    (hown : Owns h₀ h ((a, .item ⟨some k, d, n⟩) ::ₘ (k, .chars s) ::ₘ extra)) :
    ∃ h', hitemFree h (some a) = some h' ∧ Owns h₀ h' extra := by
  have hitem := itemAt_of_get? hown.get?_head
  rw [Multiset.cons_swap] at hown
  obtain ⟨hfree, hown⟩ := hown.free
  have hset := setItem_of_get? hown.get?_head fun item => { item with data := 0 }
  obtain ⟨hfree', hown⟩ := (hown.write (.item ⟨some k, 0, n⟩)).free
  refine ⟨_, ?_, hown⟩
  rw [hitemFree, if_neg (by simp), hitem, Option.bind_eq_bind, Option.bind_some,
    if_pos (by rfl), hfree]
  simp only [Option.bind_eq_bind, Option.bind_some, hset, hfree']

theorem clearChain_eq {extra : Multiset (Addr × Block)}
    (hown : Owns h₀ h (chainCells none xs + extra)) (hfuel : xs.length < fuel) :
    ∃ h', clearChain fuel h (headPtr xs none) = some h' ∧ Owns h₀ h' extra := by
  induction xs generalizing fuel h with
  | nil =>
    obtain ⟨fuel, rfl⟩ := Nat.exists_eq_add_one.mpr (Nat.zero_lt_of_lt hfuel)
    exact ⟨h, rfl, by simpa using hown⟩
  | cons x xs ih =>
    obtain ⟨fuel, rfl⟩ := Nat.exists_eq_add_one.mpr (Nat.zero_lt_of_lt hfuel)
    rw [chainCells_cons, Multiset.cons_add, Multiset.cons_add] at hown
    have hitem := itemAt_of_get? hown.get?_head
    obtain ⟨h', hfree, hown'⟩ := hitemFree_eq hown
    obtain ⟨h'', hloop, hown''⟩ := ih hown' (Nat.lt_of_succ_lt_succ hfuel)
    refine ⟨h'', ?_, hown''⟩
    rw [headPtr_cons, clearChain, hitem, Option.bind_eq_bind, Option.bind_some, hfree,
      Option.bind_eq_bind, Option.bind_some, hloop]

theorem foreachChain_eq (hget : ∀ b ∈ chainCells none xs, h.get? b.1 = some b.2)
    (hstrings : ∀ x ∈ xs, 0 ∉ x.2.2.key) (hfuel : xs.length < fuel) :
    foreachChain h fuel (headPtr xs none) = some (xs.map fun x => (x.2.2.key, x.2.2.data)) := by
  induction xs generalizing fuel with
  | nil =>
    obtain ⟨fuel, rfl⟩ := Nat.exists_eq_add_one.mpr (Nat.zero_lt_of_lt hfuel)
    rfl
  | cons x xs ih =>
    obtain ⟨fuel, rfl⟩ := Nat.exists_eq_add_one.mpr (Nat.zero_lt_of_lt hfuel)
    obtain ⟨hitem, hchars, htail⟩ := get_chainCells hget
    rw [List.forall_mem_cons] at hstrings
    rw [headPtr_cons, foreachChain, hitem, Option.bind_eq_bind, Option.bind_some,
      stringAt_of_get? hchars hstrings.1, Option.bind_eq_bind, Option.bind_some,
      ih htail hstrings.2 (Nat.lt_of_succ_lt_succ hfuel)]
    rfl

/-! ## The table -/

namespace Rep

theorem of_eq {m : Multiset (Addr × Block)} (hrep : Rep h₀ h t extra chains)
    (heq : extra = m) : Rep h₀ h t m chains :=
  heq ▸ hrep

theorem get?_table (hrep : Rep h₀ h t extra chains) : h.get? t = some (tableBlock chains) :=
  hrep.owns.get (t, tableBlock chains) (by simp)

theorem tableAt_eq (hrep : Rep h₀ h t extra chains) :
    tableAt h (some t) = some ⟨chains.length, chains.map (headPtr · none)⟩ :=
  tableAt_of_get? hrep.get?_table

theorem get_chain (hrep : Rep h₀ h t extra chains) (hc : chains[i]? = some c) :
    ∀ b ∈ chainCells none c, h.get? b.1 = some b.2 := by
  intro b hb
  refine hrep.owns.get b ?_
  rw [allCells_eq hc]
  simp [hb]

theorem length_chain (hrep : Rep h₀ h t extra chains) (hc : chains[i]? = some c) :
    c.length < h.cells.length + 1 := by
  have hcard := hrep.owns.card_le
  rw [allCells_eq hc, Multiset.card_add, Multiset.card_cons, Multiset.card_add,
    card_chainCells] at hcard
  omega

theorem malloc (hrep : Rep h₀ h t extra chains) (ha : h.get? a = none) (v : Block) :
    Rep h₀ (h.insert a v) t ((a, v) ::ₘ extra) chains :=
  ⟨Multiset.cons_add .. ▸ hrep.owns.malloc ha v, hrep.strings⟩

theorem head {v : Block} (hrep : Rep h₀ h t ((a, v) ::ₘ extra) chains) : h.get? a = some v :=
  hrep.owns.get (a, v) (by simp)

theorem free {v : Block} (hrep : Rep h₀ h t ((a, v) ::ₘ extra) chains) :
    ∃ h', h.free (some a) = some h' ∧ Rep h₀ h' t extra chains := by
  have hown := hrep.owns
  rw [Multiset.cons_add] at hown
  exact ⟨_, hown.free.1, hown.free.2, hrep.strings⟩

theorem setItem {item : Listitem} (hrep : Rep h₀ h t ((a, .item item) ::ₘ extra) chains)
    (f : Listitem → Listitem) : ∃ h', setItem h (some a) f = some h' ∧
      Rep h₀ h' t ((a, .item (f item)) ::ₘ extra) chains := by
  refine ⟨_, setItem_of_get? hrep.head f, ?_, hrep.strings⟩
  have hown := hrep.owns
  rw [Multiset.cons_add] at hown ⊢
  exact hown.write _

end Rep

theorem Strings.set (hstrings : Strings chains) (hc : ∀ x ∈ c, 0 ∉ x.2.2.key) :
    Strings (chains.set i c) := by
  intro d hd
  rcases List.mem_or_eq_of_mem_set hd with hd | rfl
  · exact hstrings d hd
  · exact hc

/-- The first item of a chain is assigned in the block of the table. -/
theorem setData_eq (hown : Owns h₀ h ((t, tableBlock chains) ::ₘ extra)) (hi : i < chains.length)
    (hq : headPtr c none = q) : ∃ h', setData h (some t) i q = some h' ∧
      Owns h₀ h' ((t, tableBlock (chains.set i c)) ::ₘ extra) := by
  refine ⟨_, setData_of_get? hown.get?_head (by simpa using hi) q, ?_⟩
  have hblock : tableBlock (chains.set i c) =
      .table ⟨chains.length, (chains.map (headPtr · none)).set i q⟩ := by
    rw [tableBlock, List.length_set, List.map_set, hq]
  rw [hblock]
  exact hown.write _

/-- A chain whose first item stays. -/
theorem tableBlock_set (hc : chains[i]? = some c) (hhead : headPtr xs none = headPtr c none) :
    tableBlock (chains.set i xs) = tableBlock chains := by
  have hmap : (chains.map (headPtr · none))[i]? = some (headPtr c none) := by
    rw [List.getElem?_map, hc, Option.map_some]
  obtain ⟨hi, hget⟩ := List.getElem?_eq_some_iff.mp hmap
  rw [tableBlock, List.length_set, List.map_set, hhead, ← hget, List.set_getElem_self]
  rfl

/-- The new item comes to the end of its chain. -/
theorem Rep.link (hrep : Rep h₀ h t
      ((a, .item ⟨some k, 0, none⟩) ::ₘ (k, .chars (key ++ [0])) ::ₘ extra) chains)
    (hc : chains[i]? = some c) (hkey : 0 ∉ key) :
    ∃ h', HtabMemory.link h (some t) i (lastPtr none c) (some a) = some h' ∧
      Rep h₀ h' t extra (chains.set i (c ++ [(a, k, ⟨key, 0⟩)])) := by
  obtain ⟨hi, -⟩ := List.getElem?_eq_some_iff.mp hc
  have hstrings : Strings (chains.set i (c ++ [(a, k, ⟨key, 0⟩)])) := by
    refine hrep.strings.set fun x hx => ?_
    rcases List.mem_append.mp hx with hx | hx
    · exact hrep.strings c (List.mem_of_getElem? hc) x hx
    · obtain rfl := List.mem_singleton.mp hx
      exact hkey
  have hown := hrep.owns
  rw [allCells_eq hc] at hown
  rcases List.eq_nil_or_concat' c with rfl | ⟨ys, y, rfl⟩
  · -- the first item of the chain
    have htable := hown.of_eq (m := (t, tableBlock chains) ::ₘ (a, .item ⟨some k, 0, none⟩) ::ₘ
      (k, .chars (key ++ [0])) ::ₘ (extra + allCells (chains.set i []))) (by
        simp only [← Multiset.singleton_add, chainCells_nil]
        abel)
    obtain ⟨h', hset, hown'⟩ := setData_eq (c := [(a, k, ⟨key, 0⟩)]) (q := some a) htable hi rfl
    refine ⟨h', hset, hown'.of_eq ?_, hstrings⟩
    rw [List.nil_append, allCells_set (c := [(a, k, ⟨key, 0⟩)]) hi, chainCells_cons,
      chainCells_nil, headPtr_nil]
    simp only [← Multiset.singleton_add]
    abel
  · -- the last item gets a successor
    rw [lastPtr_append, lastPtr_cons, lastPtr_nil]
    have hlast := hown.of_eq (m := (y.1, .item ⟨some y.2.1, y.2.2.data, none⟩) ::ₘ
      (y.2.1, .chars (y.2.2.key ++ [0])) ::ₘ (a, .item ⟨some k, 0, none⟩) ::ₘ
      (k, .chars (key ++ [0])) ::ₘ (t, tableBlock chains) ::ₘ
      (extra + chainCells (some y.1) ys + allCells (chains.set i []))) (by
        rw [chainCells_append, chainCells_cons, chainCells_nil]
        simp only [← Multiset.singleton_add, headPtr_cons, headPtr_nil]
        abel)
    refine ⟨_, setItem_of_get? hlast.get?_head _, (hlast.write _).of_eq ?_, hstrings⟩
    rw [tableBlock_set hc (by simp), allCells_set (c := _ ++ [(a, k, _)]) hi, chainCells_append,
      chainCells_append, chainCells_cons, chainCells_nil, chainCells_cons, chainCells_nil]
    simp only [← Multiset.singleton_add, headPtr_cons, headPtr_nil]
    abel

/-! ## The functions -/

theorem hashFunction_eq (hsize : size < 2 ^ 32) (key : List UInt8) :
    hashFunction key size = hash key % size := by
  rw [hashFunction, Nat.mod_eq_of_lt hsize]

namespace Rep

variable {raw rawKey : Nat → UInt8} {rawItem : Listitem}

/-- The block of a table whose size fits in an `unsigned`. -/
theorem data_eq (hc : chains[hash key % chains.length]? = some c) :
    (chains.map (headPtr · none))[hash key % chains.length]? = some (headPtr c none) := by
  rw [List.getElem?_map, hc, Option.map_some]

/-- `hitem_init` makes the two blocks of an item. -/
theorem hitemInit_eq (rawItem : Listitem) (rawKey : Nat → UInt8)
    (hrep : Rep h₀ h t ((kb, .chars (key ++ [0])) ::ₘ extra) chains)
    (hkey : 0 ∉ key) (ha : h.get? a = none) (hk : h.get? k = none) (hak : k ≠ a) :
    ∃ h', hitemInit h (some kb) 0 (some (a, rawItem)) (some (k, rawKey)) = some (some a, h') ∧
      Rep h₀ h' t ((kb, .chars (key ++ [0])) ::ₘ (a, .item ⟨some k, 0, none⟩) ::ₘ
        (k, .chars (key ++ [0])) ::ₘ extra) chains := by
  have hstr := stringAt_of_get?
    ((hrep.malloc ha (.item rawItem)).of_eq (Multiset.cons_swap _ _ _)).head hkey
  have hrep' := (hrep.malloc ha (.item rawItem)).malloc (a := k)
    ((get?_insert_of_ne hak).trans hk) (.chars (key ++ [0]))
  obtain ⟨h', hset, hrep''⟩ := (hrep'.of_eq (Multiset.cons_swap _ _ _)).setItem
    fun item => { item with key := some k, data := 0, next := none }
  refine ⟨h', ?_, hrep''.of_eq ?_⟩
  · simp only [hitemInit, Option.bind_eq_bind, hstr, Option.bind_some, strcpy_fresh, hset]
  · simp only [← Multiset.singleton_add]
    abel

/-- `htab_lookup` of a key that is there. -/
theorem lookup_of_find (raw : Nat → UInt8) (hrep : Rep h₀ h t extra chains)
    (hsize : chains.length < 2 ^ 32) (hc : chains[hash key % chains.length]? = some c)
    (hkey : 0 ∉ key) (hkb : h.get? kb = none) (hfind : c.find? (fun x => x.2.2.key = key) = some x)
    (newItem : Malloc Listitem) (newKey : Malloc (Nat → UInt8)) :
    ∃ h', lookup h (some t) key (some (kb, raw)) newItem newKey = some (some x.1, h') ∧
      Rep h₀ h' t extra chains := by
  have hrep' := hrep.malloc hkb (.chars (key ++ [0]))
  obtain ⟨itemP, hloop, -⟩ := lookupLoop_eq (q := none) (hrep'.get_chain hc)
    (hrep.strings c (List.mem_of_getElem? hc)) (charsAt_of_get? hrep'.head) hkey
    (hrep'.length_chain hc)
  obtain ⟨h', hfree, hrep''⟩ := hrep'.free
  refine ⟨h', ?_, hrep''⟩
  simp only [lookup, Option.bind_eq_bind, strcpy_fresh, Option.bind_some, hrep'.tableAt_eq,
    stringAt_of_get? hrep'.head hkey, hashFunction_eq hsize, data_eq hc, hloop, hfind,
    Option.map_some, Option.isSome_some, if_true, hfree]

/-- `htab_lookup` of a new key. -/
theorem lookup_of_not_find (raw rawKey : Nat → UInt8) (rawItem : Listitem)
    (hrep : Rep h₀ h t extra chains) (hsize : chains.length < 2 ^ 32)
    (hc : chains[hash key % chains.length]? = some c) (hkey : 0 ∉ key)
    (hfind : ∀ x ∈ c, x.2.2.key ≠ key) (hkb : h.get? kb = none) (ha : h.get? a = none)
    (hk : h.get? k = none) (hakb : a ≠ kb) (hkkb : k ≠ kb) (hka : k ≠ a) :
    ∃ h', lookup h (some t) key (some (kb, raw)) (some (a, rawItem)) (some (k, rawKey)) =
        some (some a, h') ∧
      Rep h₀ h' t extra
        (chains.set (hash key % chains.length) (c ++ [(a, k, ⟨key, 0⟩)])) := by
  have hrep' := hrep.malloc hkb (.chars (key ++ [0]))
  obtain ⟨itemP, hloop, hlast⟩ := lookupLoop_eq (q := none) (hrep'.get_chain hc)
    (hrep.strings c (List.mem_of_getElem? hc)) (charsAt_of_get? hrep'.head) hkey
    (hrep'.length_chain hc)
  rw [hlast hfind, List.find?_eq_none.mpr fun x hx => by simpa using hfind x hx] at hloop
  obtain ⟨h₁, hinit, hrep₁⟩ := hrep'.hitemInit_eq rawItem rawKey hkey
    ((get?_insert_of_ne hakb).trans ha) ((get?_insert_of_ne hkkb).trans hk) hka
  have hnew := hrep₁.of_eq (m := (a, .item ⟨some k, 0, none⟩) ::ₘ (k, .chars (key ++ [0])) ::ₘ
    (kb, .chars (key ++ [0])) ::ₘ extra) (by
      simp only [← Multiset.singleton_add]
      abel)
  obtain ⟨h₂, hlink, hrep₂⟩ := hnew.link hc hkey
  obtain ⟨h₃, hfree, hrep₃⟩ := hrep₂.free
  refine ⟨h₃, ?_, hrep₃⟩
  simp only [lookup, Option.bind_eq_bind, strcpy_fresh, Option.bind_some, hrep'.tableAt_eq,
    stringAt_of_get? hrep'.head hkey, hashFunction_eq hsize, data_eq hc, hloop,
    Option.map_none, Option.isSome_none, insert, hinit, Option.isNone_some, hlink, hfree,
    Bool.false_eq_true, if_false]

/-- `htab_remove` of a key that its backup does not meet changes nothing. -/
theorem remove_of_missed (hrep : Rep h₀ h t extra chains) (hsize : chains.length < 2 ^ 32)
    (hc : chains[hash key % chains.length]? = some c) (hkb : h.get? kb = none)
    (hmissed : Missed (fresh (key.length + 1) raw) c) :
    ∃ h', remove h (some t) key (some (kb, raw)) = some h' ∧ Rep h₀ h' t extra chains := by
  have hrep' := hrep.malloc hkb (.chars (fresh (key.length + 1) raw))
  have hloop := removeLoop_of_missed (some t) (hash key % chains.length) (q := none)
    (hrep'.get_chain hc) (charsAt_of_get? hrep'.head) hmissed (hrep'.length_chain hc)
  obtain ⟨h', hfree, hrep''⟩ := hrep'.free
  refine ⟨h', ?_, hrep''⟩
  simp only [remove, Option.bind_eq_bind, hrep'.tableAt_eq, Option.bind_some,
    hashFunction_eq hsize, data_eq hc, hloop, hfree]

/-- Every other `htab_remove` fails. -/
theorem remove_of_not_missed (raw : Nat → UInt8) (hrep : Rep h₀ h t extra chains)
    (hsize : chains.length < 2 ^ 32) (hc : chains[hash key % chains.length]? = some c)
    (hkb : h.get? kb = none) (hmissed : ¬ Missed (fresh (key.length + 1) raw) c) :
    remove h (some t) key (some (kb, raw)) = none := by
  have hrep' := hrep.malloc hkb (.chars (fresh (key.length + 1) raw))
  have hloop := removeLoop_of_not_missed (some t) (hash key % chains.length)
    ((h.insert kb (.chars (fresh (key.length + 1) raw))).cells.length + 1) (q := none)
    (hrep'.get_chain hc) (charsAt_of_get? hrep'.head) hmissed
  simp only [remove, Option.bind_eq_bind, hrep'.tableAt_eq, Option.bind_some,
    hashFunction_eq hsize, data_eq hc, hloop]

/-- One round of `htab_clear`. -/
theorem clearIndex_eq (hrep : Rep h₀ h t extra chains) (hi : i < chains.length) :
    ∃ h', clearIndex (some t) h i = some h' ∧ Rep h₀ h' t extra (chains.set i []) := by
  have hc := List.getElem?_eq_getElem hi
  have hdata : (chains.map (headPtr · none))[i]? = some (headPtr chains[i] none) := by
    rw [List.getElem?_map, hc, Option.map_some]
  cases hnil : chains[i] with
  | nil =>
    refine ⟨h, ?_, ?_⟩
    · simp [clearIndex, hrep.tableAt_eq, hi, hnil]
    · rw [← hnil, List.set_getElem_self]
      exact hrep
  | cons x xs =>
    have hown := hrep.owns.of_eq (m := chainCells none chains[i] +
        (extra + (t, tableBlock chains) ::ₘ allCells (chains.set i []))) (by
      rw [allCells_eq hc]
      simp only [← Multiset.singleton_add]
      abel)
    obtain ⟨h₁, hclear, hown₁⟩ := clearChain_eq hown (hrep.length_chain hc)
    obtain ⟨h₂, hset, hown₂⟩ := setData_eq (c := []) (q := none)
      (hown₁.of_eq (Multiset.add_cons ..)) hi rfl
    refine ⟨h₂, ?_, ⟨hown₂.of_eq ?_, hrep.strings.set (by simp)⟩⟩
    · simp only [clearIndex, hrep.tableAt_eq, Option.bind_eq_bind, Option.bind_some, hdata,
        hclear, hset]
      simp [hnil]
    · exact (Multiset.add_cons ..).symm

theorem clearLoop_eq {l : List Nat} (hrep : Rep h₀ h t extra chains)
    (hl : ∀ i ∈ l, i < chains.length) :
    ∃ h', l.foldlM (clearIndex (some t)) h = some h' ∧
      Rep h₀ h' t extra (l.foldl (fun chains i => chains.set i []) chains) := by
  induction l generalizing h chains with
  | nil => exact ⟨h, rfl, hrep⟩
  | cons i l ih =>
    rw [List.forall_mem_cons] at hl
    obtain ⟨h₁, hclear, hrep₁⟩ := hrep.clearIndex_eq hl.1
    obtain ⟨h₂, hloop, hrep₂⟩ := ih hrep₁ (by simpa using hl.2)
    refine ⟨h₂, ?_, hrep₂⟩
    rw [List.foldlM_cons, hclear]
    exact hloop

end Rep

/-- Emptying all chains one after the other. -/
theorem foldl_range_set (chains : List (List Node)) :
    (List.range chains.length).foldl (fun chains i => chains.set i []) chains =
      List.replicate chains.length [] := by
  have hstep : ∀ n ≤ chains.length, (List.range n).foldl (fun chains i => chains.set i []) chains =
      List.replicate n [] ++ chains.drop n := by
    intro n hn
    induction n with
    | zero => rfl
    | succ n ih =>
      rw [List.range_succ, List.foldl_append, ih (Nat.le_of_succ_le hn), List.foldl_cons,
        List.foldl_nil, List.set_append_right _ _ (by simp), List.length_replicate, Nat.sub_self,
        List.drop_eq_getElem_cons hn, List.set_cons_zero, List.replicate_succ', List.append_assoc]
      rfl
  rw [hstep _ le_rfl, List.drop_length, List.append_nil]

namespace Rep

theorem clear_eq (hrep : Rep h₀ h t extra chains) :
    ∃ h', clear h (some t) = some h' ∧
      Rep h₀ h' t extra (List.replicate chains.length []) := by
  obtain ⟨h', hloop, hrep'⟩ := hrep.clearLoop_eq (l := List.range chains.length) (by simp)
  rw [foldl_range_set] at hrep'
  refine ⟨h', ?_, hrep'⟩
  simp only [clear, Option.isNone_some, Bool.false_eq_true, if_false, hrep.tableAt_eq,
    Option.bind_eq_bind, Option.bind_some, hloop]

theorem allCells_replicate (n : Nat) : allCells (List.replicate n []) = 0 := by
  induction n with
  | zero => rfl
  | succ n ih =>
    have hcons : allCells ([] :: List.replicate n []) =
        chainCells none [] + allCells (List.replicate n []) := by
      rw [allCells, List.map_cons, List.sum_cons, allCells]
    rw [List.replicate_succ, hcons, ih, add_zero]
    rfl

/-- `htab_free` gives everything back. -/
theorem free_eq (hrep : Rep h₀ h t 0 chains) :
    ∃ h', HtabMemory.free h (some t) = some h' ∧ ∀ a, h'.get? a = h₀.get? a := by
  obtain ⟨h₁, hclear, hrep₁⟩ := hrep.clear_eq
  have hown := hrep₁.owns
  rw [allCells_replicate, zero_add] at hown
  obtain ⟨hfree, hown'⟩ := hown.free
  refine ⟨_, ?_, hown'.get?_eq⟩
  simp only [HtabMemory.free, Option.isNone_some, Bool.false_eq_true, if_false, hclear,
    Option.bind_eq_bind, Option.bind_some, hfree]

/-- The calls of `fp` for a chain. -/
def calls (c : List Node) : List (List UInt8 × Nat) := c.map fun x => (x.2.2.key, x.2.2.data)

theorem mapM_eq_some {f : α → Option β} {g : α → β} {l : List α} (hf : ∀ x ∈ l, f x = some (g x)) :
    l.mapM f = some (l.map g) := by
  induction l with
  | nil => rfl
  | cons x l ih =>
    rw [List.forall_mem_cons] at hf
    rw [List.mapM_cons, hf.1, ih hf.2]
    rfl

theorem foreach_eq (hrep : Rep h₀ h t extra chains) :
    foreach h (some t) = some (chains.flatMap calls) := by
  have hcalls : ∀ i ∈ List.range chains.length,
      ((chains.map (headPtr · none))[i]?.bind (foreachChain h (h.cells.length + 1))) =
        some (calls (chains.getD i [])) := by
    intro i hi
    have hc := List.getElem?_eq_getElem (List.mem_range.mp hi)
    rw [List.getElem?_map, hc, Option.map_some, Option.bind_some, List.getD_eq_getElem?_getD, hc,
      foreachChain_eq (hrep.get_chain hc) (hrep.strings _ (List.mem_of_getElem? hc))
        (hrep.length_chain hc)]
    rfl
  have hrange : (List.range chains.length).map (fun i => calls (chains.getD i [])) =
      chains.map calls := by
    refine List.ext_getElem (by simp) fun i hi hi' => ?_
    have hlt : i < chains.length := by simpa using hi'
    simp [hlt]
  simp only [foreach, Option.isNone_some, Bool.false_eq_true, if_false, hrep.tableAt_eq,
    Option.bind_eq_bind, Option.bind_some, mapM_eq_some hcalls, hrange, List.flatMap]

/-- The data of an item is assigned. -/
theorem assign_eq (hrep : Rep h₀ h t extra chains) (hc : chains[i]? = some (xs ++ x :: ys))
    (data : Nat) : ∃ h', HtabMemory.setItem h (some x.1) (fun item => { item with data }) = some h' ∧
      Rep h₀ h' t extra
        (chains.set i (xs ++ (x.1, x.2.1, { x.2.2 with data }) :: ys)) := by
  obtain ⟨hi, -⟩ := List.getElem?_eq_some_iff.mp hc
  have hstrings := hrep.strings _ (List.mem_of_getElem? hc)
  have hown := hrep.owns
  rw [allCells_eq hc, chainCells_append, chainCells_cons] at hown
  have hfront := hown.of_eq (m := (x.1, .item ⟨some x.2.1, x.2.2.data, headPtr ys none⟩) ::ₘ
    (x.2.1, .chars (x.2.2.key ++ [0])) ::ₘ (t, tableBlock chains) ::ₘ
    (extra + chainCells (some x.1) xs + chainCells none ys + allCells (chains.set i []))) (by
      simp only [← Multiset.singleton_add, headPtr_cons]
      abel)
  refine ⟨_, setItem_of_get? hfront.get?_head _, (hfront.write _).of_eq ?_,
    hrep.strings.set fun y hy => ?_⟩
  · rw [tableBlock_set hc (by cases xs <;> rfl),
      allCells_set (c := xs ++ (x.1, x.2.1, { x.2.2 with data }) :: ys) hi, chainCells_append,
      chainCells_cons]
    simp only [← Multiset.singleton_add, headPtr_cons]
    abel
  · rcases List.mem_append.mp hy with hy | hy
    · exact hstrings y (List.mem_append_left _ hy)
    · rcases List.mem_cons.mp hy with rfl | hy
      · exact hstrings x (by simp)
      · exact hstrings y (by simp [hy])

end Rep

/-! ## The new table -/

/-- From a beginning that is set, the loop of `htab_init` sets the rest. -/
theorem initLoop_eq (fuel : Nat) (hsize : size < 2 ^ 32) (data : List Ptr)
    (hi : i + data.length = size) :
    initLoop size fuel i (List.replicate i none ++ data) =
      if size < fuel + i then some (List.replicate size none) else none := by
  induction fuel generalizing i data with
  | zero => rw [initLoop, if_neg (by omega)]
  | succ fuel ih =>
    cases data with
    | nil =>
      obtain rfl : i = size := by simpa using hi
      rw [initLoop, if_neg (lt_irrefl _), if_pos (by omega), List.append_nil]
    | cons q data =>
      rw [List.length_cons] at hi
      have hset : (List.replicate i none ++ q :: data).set i none =
          List.replicate (i + 1) none ++ data := by
        rw [List.set_append_right _ _ (by simp), List.length_replicate, Nat.sub_self,
          List.set_cons_zero, List.replicate_succ', List.append_assoc]
        rfl
      rw [initLoop, if_pos (by omega), Nat.mod_eq_of_lt (by omega), hset, ih data (by omega)]
      exact if_congr (by omega) rfl rfl

/-- With a size that no `unsigned` reaches the loop of `htab_init` never ends. -/
theorem initLoop_of_le (hsize : 2 ^ 32 ≤ size) (hi : i < 2 ^ 32) {data : List Ptr} :
    initLoop size fuel i data = none := by
  induction fuel generalizing i data with
  | zero => rfl
  | succ fuel ih =>
    rw [initLoop, if_pos (by omega)]
    exact ih (Nat.mod_lt _ (by omega))

theorem rep_init (ha : h.get? a = none) (size : Nat) :
    Rep h (h.insert a (.table ⟨size, List.replicate size none⟩)) a 0
      (List.replicate size []) where
  owns := by
    have hown := (Owns.refl h).malloc ha (.table ⟨size, List.replicate size none⟩)
    refine hown.of_eq ?_
    rw [Rep.allCells_replicate, zero_add, tableBlock, List.length_replicate, List.map_replicate]
    rfl
  strings := by
    intro c hc x hx
    obtain rfl := List.eq_of_mem_replicate hc
    exact absurd hx List.not_mem_nil

/-- `htab_init` of a size that an `unsigned` reaches. -/
theorem init_eq (hpos : 1 ≤ size) (hsize : size < 2 ^ 32) (raw : Nat → Ptr) :
    init fuel h size (some (a, raw)) =
      if size < fuel then some (some a, h.insert a (.table ⟨size, List.replicate size none⟩))
      else none := by
  have hloop := initLoop_eq (i := 0) fuel hsize ((List.range size).map raw) (by simp)
  rw [List.replicate_zero, List.nil_append, Nat.add_zero] at hloop
  simp only [init, if_neg (Nat.not_lt.mpr hpos), hloop, Option.bind_eq_bind]
  split <;> rfl

/-- What comes out of `htab_init`. -/
theorem init_cases {new : Malloc (Nat → Ptr)} (hinit : init fuel h size new = some (p, h'))
    (hnew : ∀ a raw, new = some (a, raw) → h.get? a = none) :
    p = none ∧ h' = h ∨
      ∃ t, p = some t ∧ size < 2 ^ 32 ∧ 1 ≤ size ∧ Rep h h' t 0 (List.replicate size []) := by
  by_cases hpos : size < 1
  · simp only [init, if_pos hpos] at hinit
    cases hinit
    exact .inl ⟨rfl, rfl⟩
  · rcases new with _ | ⟨a, raw⟩
    · simp only [init, if_neg hpos] at hinit
      cases hinit
      exact .inl ⟨rfl, rfl⟩
    · rcases Nat.lt_or_ge size (2 ^ 32) with hsize | hsize
      · rw [init_eq (Nat.not_lt.mp hpos) hsize] at hinit
        split at hinit
        · cases hinit
          exact .inr ⟨a, rfl, hsize, Nat.not_lt.mp hpos, rep_init (hnew a raw rfl) size⟩
        · cases hinit
      · simp only [init, if_neg hpos, initLoop_of_le hsize (by omega : 0 < 2 ^ 32),
          Option.bind_eq_bind, Option.bind_none, reduceCtorEq] at hinit

end HtabMemory
