import FitProjects.FLP.Minimize

/-! # Classes of an equivalence and their names

For pairs that make up an equivalence, `minClasses` returns its classes and `newStates` gives each
class a name of its own. The rounds that `minRep` is given are enough whenever any number is, so that
`minClasses` fails only where the recursion of the source does not end. -/

namespace FLP

open DataList

section
variable {α : Type u}

/-- The pairs are an equivalence on the elements that occur in them. -/
structure IsEquivalence (classes : List (α × α)) : Prop where
  refl {x y} : (x, y) ∈ classes → (x, x) ∈ classes
  symm {x y} : (x, y) ∈ classes → (y, x) ∈ classes
  trans {x y z} : (x, y) ∈ classes → (y, z) ∈ classes → (x, z) ∈ classes

instance [DecidableEq α] (classes : List (α × α)) : Decidable (IsEquivalence classes) :=
  decidable_of_iff (∀ e ∈ classes, (e.1, e.1) ∈ classes ∧ (e.2, e.1) ∈ classes ∧
      ∀ e' ∈ classes, e.2 = e'.1 → (e.1, e'.2) ∈ classes)
    ⟨fun h => ⟨fun he => (h _ he).1, fun he => (h _ he).2.1,
        fun he he' => (h _ he).2.2 _ he' rfl⟩,
      fun h e he => ⟨h.refl he, h.symm he,
        fun e' he' heq => h.trans he (show (e.2, e'.2) ∈ classes from heq ▸ he')⟩⟩

/-- `x` occurs in a pair. -/
def InSupport (classes : List (α × α)) (x : α) : Prop := ∃ e ∈ classes, x = e.1 ∨ x = e.2

/-- The groups are the classes of the equivalence. -/
structure IsPartition (classes : List (α × α)) (gs : List (List α)) : Prop where
  nodup : gs.flatten.Nodup
  mem_flatten {x} : x ∈ gs.flatten ↔ (x, x) ∈ classes
  ne_nil : ∀ g ∈ gs, g ≠ []
  related : ∀ g ∈ gs, ∀ x ∈ g, ∀ y ∈ g, (x, y) ∈ classes
  apart : gs.Pairwise fun g g' => ∀ x ∈ g, ∀ y ∈ g', (x, y) ∉ classes

/-- The groups partition what occurs in the pairs, and two elements are in one group if and only if
they are related. -/
structure GroupsClasses (classes : List (α × α)) (gs : List (List α)) : Prop where
  ne_nil : ∀ g ∈ gs, g ≠ []
  nodup : ∀ g ∈ gs, g.Nodup
  inSupport : ∀ g ∈ gs, ∀ x ∈ g, InSupport classes x
  existsUnique : ∀ x, InSupport classes x → ∃! i : Nat, ∃ g, gs[i]? = some g ∧ x ∈ g
  same_iff : ∀ x y, (∃ g ∈ gs, x ∈ g ∧ y ∈ g) ↔ (x, y) ∈ classes

section
variable {classes : List (α × α)} {gs : List (List α)} {g g' : List α} {x y : α} {i j : Nat}

theorem IsEquivalence.inSupport_iff (h : IsEquivalence classes) :
    InSupport classes x ↔ (x, x) ∈ classes := by
  constructor
  · rintro ⟨e, he, rfl | rfl⟩
    · exact h.refl he
    · exact h.refl (h.symm he)
  · intro hx
    exact ⟨_, hx, .inl rfl⟩

/-- Related elements are in one group. -/
theorem IsPartition.index_eq (h : IsPartition classes gs) (he : IsEquivalence classes)
    (hi : gs[i]? = some g) (hj : gs[j]? = some g') (hx : x ∈ g) (hy : y ∈ g')
    (hxy : (x, y) ∈ classes) : i = j := by
  obtain ⟨hilt, rfl⟩ := List.getElem?_eq_some_iff.mp hi
  obtain ⟨hjlt, rfl⟩ := List.getElem?_eq_some_iff.mp hj
  have hapart := List.pairwise_iff_getElem.mp h.apart
  rcases Nat.lt_trichotomy i j with hlt | rfl | hlt
  · exact absurd hxy (hapart i j hilt hjlt hlt x hx y hy)
  · rfl
  · exact absurd (he.symm hxy) (hapart j i hjlt hilt hlt y hy x hx)

theorem IsPartition.groupsClasses (h : IsPartition classes gs) (he : IsEquivalence classes) :
    GroupsClasses classes gs where
  ne_nil := h.ne_nil
  nodup g hg := h.nodup.sublist (List.sublist_flatten_of_mem hg)
  inSupport g hg x hx :=
    he.inSupport_iff.mpr (h.mem_flatten.mp (List.mem_flatten_of_mem hg hx))
  existsUnique x hx := by
    rw [he.inSupport_iff] at hx
    obtain ⟨g, hg, hxg⟩ := List.mem_flatten.mp (h.mem_flatten.mpr hx)
    obtain ⟨i, hi⟩ := List.mem_iff_getElem?.mp hg
    refine ⟨i, ⟨g, hi, hxg⟩, ?_⟩
    rintro j ⟨g', hj, hxg'⟩
    exact h.index_eq he hj hi hxg' hxg hx
  same_iff x y := by
    constructor
    · rintro ⟨g, hg, hx, hy⟩
      exact h.related g hg x hx y hy
    · intro hxy
      obtain ⟨g, hg, hx⟩ := List.mem_flatten.mp (h.mem_flatten.mpr (he.refl hxy))
      obtain ⟨g', hg', hy⟩ := List.mem_flatten.mp (h.mem_flatten.mpr (he.refl (he.symm hxy)))
      obtain ⟨i, hi⟩ := List.mem_iff_getElem?.mp hg
      obtain ⟨j, hj⟩ := List.mem_iff_getElem?.mp hg'
      obtain rfl := h.index_eq he hi hj hx hy hxy
      obtain rfl := Option.some.inj (hi.symm.trans hj)
      exact ⟨g, hg, hx, hy⟩

end

variable [LinearOrder α] {classes : List (α × α)} {gs : List (List α)} {x y m : α}

/-! ## Representatives -/

theorem minRep_succ (n : Nat) : minRep classes (n + 1) x = (findSmallerRep x classes).bind
    fun smallerRep => if smallerRep = x then some x else minRep classes n smallerRep := rfl

/-- More rounds make no difference to a representative that has been found. -/
theorem minRep_of_le {n k : Nat} (h : minRep classes n x = some m) (hk : n ≤ k) :
    minRep classes k x = some m := by
  induction n generalizing k x with
  | zero => simp [minRep] at h
  | succ n ih =>
    obtain ⟨k, rfl⟩ := Nat.exists_eq_add_of_le' hk
    rw [minRep_succ, Option.bind_eq_some_iff] at h
    obtain ⟨y, hy, hrep⟩ := h
    rw [← Nat.add_assoc, minRep_succ, hy, Option.bind_some]
    split_ifs at hrep ⊢ with hyx
    · exact hrep
    · exact ih hrep (Nat.le_add_left ..)

theorem mem_of_findSmallerRep (h : findSmallerRep x classes = some y) (hne : y ≠ x) :
    (y, x) ∈ classes := by
  have hmem := List.min?_mem h
  rw [List.mem_append, List.mem_map, List.mem_map] at hmem
  rcases hmem with ⟨⟨y', x'⟩, he, rfl⟩ | ⟨e, -, rfl⟩
  · rw [List.mem_filter, decide_eq_true_eq] at he
    obtain ⟨he, rfl⟩ := he
    exact he
  · exact absurd rfl hne

/-- A search that takes `n + 1` rounds goes over `n` elements that have pairs with others. -/
theorem exists_path {n : Nat} (hnone : minRep classes n x = none)
    (hsome : (minRep classes (n + 1) x).isSome) :
    ∃ l : List α, l.length = n ∧ l.Nodup ∧ l ⊆ classes.map Prod.snd ∧
      ∀ y ∈ l, (minRep classes (n + 1) y).isSome := by
  induction n generalizing x with
  | zero => exact ⟨[], rfl, List.nodup_nil, List.nil_subset _, by simp⟩
  | succ n ih =>
    obtain ⟨m, hm⟩ := Option.isSome_iff_exists.mp hsome
    rw [minRep_succ, Option.bind_eq_some_iff] at hm
    obtain ⟨y, hy, hrep⟩ := hm
    rw [minRep_succ, hy, Option.bind_some] at hnone
    split_ifs at hnone hrep with hyx
    obtain ⟨l, hlen, hnodup, hsub, hl⟩ := ih hnone (by rw [hrep]; rfl)
    refine ⟨x :: l, by rw [List.length_cons, hlen], List.nodup_cons.mpr ⟨fun hx => ?_, hnodup⟩,
      List.cons_subset.mpr ⟨?_, hsub⟩, ?_⟩
    · -- from an element of the path the search ends a round earlier
      have hearlier := hl x hx
      rw [minRep_succ, hy, Option.bind_some, if_neg hyx, hnone] at hearlier
      contradiction
    · exact List.mem_map.mpr ⟨_, mem_of_findSmallerRep hy hyx, rfl⟩
    · intro z hz
      rcases List.mem_cons.mp hz with rfl | hz
      · exact hsome
      · obtain ⟨m', hm'⟩ := Option.isSome_iff_exists.mp (hl z hz)
        rw [minRep_of_le hm' (Nat.le_succ _)]
        rfl

/-- A search that ends at all has found the representative after one round more than there are
pairs. -/
theorem minRep_of_some {n : Nat} (h : minRep classes n x = some m) :
    minRep classes (classes.length + 1) x = some m := by
  have hexists : ∃ n, (minRep classes n x).isSome := ⟨n, by rw [h]; rfl⟩
  obtain ⟨k, hk⟩ : ∃ k, Nat.find hexists = k + 1 := by
    apply Nat.exists_eq_succ_of_ne_zero
    intro hzero
    have hspec := Nat.find_spec hexists
    rw [hzero] at hspec
    contradiction
  have hsome : (minRep classes (k + 1) x).isSome := hk ▸ Nat.find_spec hexists
  have hnone : minRep classes k x = none := by
    have hmin := Nat.find_min hexists (m := k) (by omega)
    simpa using hmin
  obtain ⟨l, hlen, hnodup, hsub, -⟩ := exists_path hnone hsome
  have hle : k ≤ classes.length := by
    have := (hnodup.subperm hsub).length_le
    rwa [hlen, List.length_map] at this
  obtain ⟨m', hm'⟩ := Option.isSome_iff_exists.mp hsome
  have hm : m' = m := by
    have h₁ := minRep_of_le hm' (Nat.le_max_left (k + 1) n)
    have h₂ := minRep_of_le h (Nat.le_max_right (k + 1) n)
    exact Option.some.inj (h₁.symm.trans h₂)
  exact minRep_of_le (hm ▸ hm') (Nat.succ_le_succ hle)

/-- `minClasses` fails only where the search for a representative never ends. -/
theorem minClasses_eq_none_iff : minClasses classes = none ↔
    ∃ x ∈ (classes.map Prod.fst ++ classes.map Prod.snd).eraseDups,
      ∀ n, minRep classes n x = none := by
  have hsearch (x : α) : (minRep classes (classes.length + 1) x).isSome = false ↔
      ∀ n, minRep classes n x = none := by
    rw [Option.isSome_eq_false_iff, Option.isNone_iff_eq_none]
    refine ⟨fun hnone n => ?_, fun hnone => hnone _⟩
    cases h : minRep classes n x with
    | none => rfl
    | some m => rw [minRep_of_some h] at hnone; contradiction
  have hall : minClasses classes = none ↔
      ¬ ∀ x ∈ (classes.map Prod.fst ++ classes.map Prod.snd).eraseDups,
        (minRep classes (classes.length + 1) x).isSome := by
    simp only [minClasses, List.all_eq_true]
    split_ifs with h
    · exact iff_of_false (by simp) (fun hnot => hnot h)
    · exact iff_of_true rfl h
  rw [hall, not_forall]
  simp only [Classical.not_imp, Bool.not_eq_true, hsearch]

/-! ## Classes -/

theorem mem_support (h : IsEquivalence classes) :
    x ∈ (classes.map Prod.fst ++ classes.map Prod.snd).eraseDups ↔ (x, x) ∈ classes := by
  rw [List.mem_eraseDups, List.mem_append, List.mem_map, List.mem_map]
  constructor
  · rintro (⟨e, he, rfl⟩ | ⟨e, he, rfl⟩)
    · exact h.refl he
    · exact h.refl (h.symm he)
  · exact fun hx => .inl ⟨_, hx, rfl⟩

theorem findSmallerRep_eq_some (hx : (x, x) ∈ classes) :
    findSmallerRep x classes = some m ↔
      (m, x) ∈ classes ∧ ∀ y, (y, x) ∈ classes → m ≤ y := by
  have hmem (y : α) : y ∈ ((classes.filter fun e => e.2 = x).map Prod.fst ++
      (classes.filter fun e => e.1 = x).map fun _ => x) ↔ (y, x) ∈ classes := by
    simp only [List.mem_append, List.mem_map, List.mem_filter, decide_eq_true_eq]
    constructor
    · rintro (⟨⟨y', x'⟩, ⟨he, rfl⟩, rfl⟩ | ⟨e, -, rfl⟩)
      · exact he
      · exact hx
    · exact fun hy => .inl ⟨_, ⟨hy, rfl⟩, rfl⟩
  rw [findSmallerRep, List.min?_eq_some_iff, hmem]
  exact and_congr_right fun _ => forall_congr' fun y => by rw [hmem]

/-- The least element of the class of `x`. -/
theorem exists_least (h : IsEquivalence classes) (hx : (x, x) ∈ classes) :
    ∃ m, (m, x) ∈ classes ∧ (∀ y, (y, x) ∈ classes → m ≤ y) ∧
      minRep classes (classes.length + 1) x = some m := by
  have hne : ((classes.filter fun e => e.2 = x).map Prod.fst ++
      (classes.filter fun e => e.1 = x).map fun _ => x) ≠ [] := by
    refine List.ne_nil_of_mem (a := x) (List.mem_append_left _ (List.mem_map.mpr ⟨(x, x), ?_, rfl⟩))
    exact List.mem_filter.mpr ⟨hx, by simp⟩
  obtain ⟨m, hm⟩ := Option.ne_none_iff_exists'.mp fun h0 => hne (List.min?_eq_none_iff.mp h0)
  have hfind : findSmallerRep x classes = some m := hm
  obtain ⟨hmx, hle⟩ := (findSmallerRep_eq_some hx).mp hfind
  refine ⟨m, hmx, hle, ?_⟩
  -- The least element of the class is its own representative, so two rounds are enough.
  have hmm : findSmallerRep m classes = some m :=
    (findSmallerRep_eq_some (h.refl hmx)).mpr
      ⟨h.refl hmx, fun y hy => hle y (h.trans hy hmx)⟩
  have hround : minRep classes 1 m = some m := by simp [minRep, hmm]
  have htwo : minRep classes 2 x = some m := by
    rw [minRep_succ, hfind, Option.bind_some, hround]
    split_ifs with hxm
    · rw [hxm]
    · rfl
  exact minRep_of_le htwo (Nat.succ_le_succ (List.length_pos_of_mem hx))

/-- Two elements have one representative if and only if they are related. -/
theorem minRep_eq_iff (h : IsEquivalence classes) (hx : (x, x) ∈ classes) (hy : (y, y) ∈ classes) :
    minRep classes (classes.length + 1) x = minRep classes (classes.length + 1) y ↔
      (x, y) ∈ classes := by
  obtain ⟨m, hmx, hlex, hm⟩ := exists_least h hx
  obtain ⟨n, hny, hley, hn⟩ := exists_least h hy
  rw [hm, hn, Option.some.injEq]
  constructor
  · rintro rfl
    exact h.trans (h.symm hmx) hny
  · intro hxy
    exact le_antisymm (hlex n (h.trans hny (h.symm hxy))) (hley m (h.trans hmx hxy))

/-- `minClasses` ends on an equivalence and returns its classes. -/
theorem exists_minClasses (h : IsEquivalence classes) :
    ∃ gs, minClasses classes = some gs ∧ IsPartition classes gs := by
  let states := (classes.map Prod.fst ++ classes.map Prod.snd).eraseDups
  let rep := minRep classes (classes.length + 1)
  let key (x : α) := (rep x).getD x
  have hsupp {x : α} (hx : x ∈ states) : (x, x) ∈ classes := (mem_support h).mp hx
  have hsome (x : α) (hx : x ∈ states) : (rep x).isSome := by
    obtain ⟨m, -, -, hm⟩ := exists_least h (hsupp hx)
    exact Option.isSome_of_eq_some hm
  have hkey {x y : α} (hx : (x, x) ∈ classes) (hy : (y, y) ∈ classes) :
      key x = key y ↔ (x, y) ∈ classes := by
    rw [← minRep_eq_iff h hx hy]
    obtain ⟨m, -, -, hm⟩ := exists_least h hx
    obtain ⟨n, -, -, hn⟩ := exists_least h hy
    simp only [key, rep, hm, hn, Option.getD_some, Option.some.injEq]
  let l := sortOn key states
  let gs := groupBy (fun x y => (x, y) ∈ classes) l
  have hl {x : α} (hx : x ∈ l) : (x, x) ∈ classes := hsupp (mem_sortOn.mp hx)
  have hflat : gs.flatten = l := flatten_groupBy _ l
  have hgl {g : List α} (hg : g ∈ gs) {x : α} (hx : x ∈ g) : (x, x) ∈ classes :=
    hl (hflat ▸ List.mem_flatten_of_mem hg hx)
  obtain ⟨hsame, hapart⟩ := groupBy_of_sorted key (r := fun x y => (x, y) ∈ classes)
    (l := l) (fun x hx y hy => by rw [decide_eq_true_eq, hkey (hl hx) (hl hy)])
    (sortOn_pairwise key states)
  refine ⟨gs, ?_, ⟨?_, ?_, fun g hg => ne_nil_of_mem_groupBy hg, fun g hg x hx y hy => ?_, ?_⟩⟩
  · exact if_pos (List.all_eq_true.mpr hsome)
  · rw [hflat]
    exact (sortOn_perm key states).nodup_iff.mpr (nodup_eraseDups _)
  · intro x
    rw [hflat, mem_sortOn, mem_support h]
  · exact (hkey (hgl hg hx) (hgl hg hy)).mp (hsame g hg x hx y hy)
  · refine hapart.imp_of_mem fun hg hg' hlt x hx y hy hxy => ?_
    exact (hlt x hx y hy).ne ((hkey (hgl hg hx) (hgl hg' hy)).mpr hxy)

end

/-! ## Names -/

theorem showNat_injective : Function.Injective showNat := fun m n h => by
  have hm := Nat.ofDigitChars_toDigits (b := 10) (n := m) (by decide) (by decide)
  have hn := Nat.ofDigitChars_toDigits (b := 10) (n := n) (by decide) (by decide)
  unfold showNat at h
  rw [← hm, h, hn]

section
variable {classes : List (State × State)} {gs : List (List State)} {p q r : State}

theorem newStates_eq (gs : List (List State)) : newStates gs =
    Map.fromList ((gs.zipIdx 1).flatMap fun x => x.1.map fun a => (a, showNat x.2)) := by
  unfold newStates
  congr 1
  induction gs.zipIdx 1 with
  | nil => rfl
  | cons x l ih => rw [List.foldr_cons, ih, List.flatMap_cons]

theorem keys_newStates (gs : List (List State)) :
    ((gs.zipIdx 1).flatMap fun x => x.1.map fun a => (a, showNat x.2)).map Prod.fst =
      gs.flatten := by
  simp only [List.map_flatMap, List.map_map, Function.comp_def, List.map_id']
  rw [List.flatMap_def, List.zipIdx_map_fst]

theorem ekvState_newStates (h : IsPartition classes gs) :
    ekvState (newStates gs) p = some r ↔
      ∃ i g, gs[i]? = some g ∧ p ∈ g ∧ r = showNat (1 + i) := by
  rw [ekvState, newStates_eq, Map.lookup_fromList (by rw [keys_newStates]; exact h.nodup)]
  simp only [List.mem_flatMap, List.mem_map, Prod.mk.injEq, Prod.exists]
  constructor
  · rintro ⟨g, i, hi, a, ha, rfl, rfl⟩
    obtain ⟨hle, hg⟩ := List.mk_mem_zipIdx_iff_le_and_getElem?_sub.mp hi
    exact ⟨i - 1, g, hg, ha, by congr; omega⟩
  · rintro ⟨i, g, hg, hp, rfl⟩
    exact ⟨g, 1 + i, List.mk_add_mem_zipIdx_iff_getElem?.mpr hg, p, hp, rfl, rfl⟩

theorem exists_ekvState (h : IsPartition classes gs) (hp : (p, p) ∈ classes) :
    ∃ r, ekvState (newStates gs) p = some r := by
  obtain ⟨g, hg, hpg⟩ := List.mem_flatten.mp (h.mem_flatten.mpr hp)
  obtain ⟨i, hi⟩ := List.mem_iff_getElem?.mp hg
  exact ⟨_, (ekvState_newStates h).mpr ⟨i, g, hi, hpg, rfl⟩⟩

theorem mem_of_ekvState (h : IsPartition classes gs) (hp : ekvState (newStates gs) p = some r) :
    (p, p) ∈ classes := by
  obtain ⟨i, g, hg, hpg, -⟩ := (ekvState_newStates h).mp hp
  exact h.mem_flatten.mp (List.mem_flatten_of_mem (List.mem_of_getElem? hg) hpg)

/-- Two states get one name if and only if they are related. -/
theorem ekvState_eq_iff (he : IsEquivalence classes) (h : IsPartition classes gs)
    (hp : ekvState (newStates gs) p = some r) (hq : ekvState (newStates gs) q = some r') :
    r = r' ↔ (p, q) ∈ classes := by
  obtain ⟨i, g, hg, hpg, rfl⟩ := (ekvState_newStates h).mp hp
  obtain ⟨j, g', hg', hqg, rfl⟩ := (ekvState_newStates h).mp hq
  constructor
  · intro hij
    have : i = j := by have := showNat_injective hij; omega
    subst this
    cases hg.symm.trans hg'
    exact h.related g (List.mem_of_getElem? hg) p hpg q hqg
  · intro hpq
    rw [h.index_eq he hg hg' hpg hqg hpq]

theorem mem_elems_newStates (h : IsPartition classes gs) :
    r ∈ (newStates gs).elems ↔ ∃ p, ekvState (newStates gs) p = some r := by
  have hk : (((gs.zipIdx 1).flatMap fun x => x.1.map fun a => (a, showNat x.2)).map
      Prod.fst).Nodup := by rw [keys_newStates]; exact h.nodup
  simp only [ekvState, newStates_eq, Map.mem_elems_fromList hk, Map.lookup_fromList hk]

end

/-- `minClasses` ends on an equivalence with its classes, and those of the strings have one new name
that are related. -/
theorem minClasses_spec :
    (∀ (α : Type u) [LinearOrder α] (classes : List (α × α)), IsEquivalence classes →
      ∃ gs, minClasses classes = some gs ∧ GroupsClasses classes gs) ∧
    ∀ classes : List (State × State), IsEquivalence classes →
      ∃ gs, minClasses classes = some gs ∧
        ∀ p q, InSupport classes p → InSupport classes q →
          ∃ r r', ekvState (newStates gs) p = some r ∧ ekvState (newStates gs) q = some r' ∧
            (r = r' ↔ (p, q) ∈ classes) := by
  constructor
  · intro α _ classes he
    obtain ⟨gs, hgs, h⟩ := exists_minClasses he
    exact ⟨gs, hgs, h.groupsClasses he⟩
  · intro classes he
    obtain ⟨gs, hgs, h⟩ := exists_minClasses he
    refine ⟨gs, hgs, fun p q hp hq => ?_⟩
    obtain ⟨r, hr⟩ := exists_ekvState h (he.inSupport_iff.mp hp)
    obtain ⟨r', hr'⟩ := exists_ekvState h (he.inSupport_iff.mp hq)
    exact ⟨r, r', hr, hr', ekvState_eq_iff he h hr hr'⟩

/-- Two classes of numbers. -/
def numberPairs : List (Nat × Nat) := [(2, 1), (1, 2), (3, 3), (1, 1), (2, 2)]

/-- Two classes of states. -/
def statePairs : List (State × State) :=
  [(['1'], ['1']), (['1'], ['3']), (['2'], ['2']), (['3'], ['1']), (['3'], ['3'])]

theorem minClasses_spec_pairs :
    (∃ gs, minClasses numberPairs = some gs ∧ GroupsClasses numberPairs gs) ∧
    ∃ gs, minClasses statePairs = some gs ∧
      ∀ p q, InSupport statePairs p → InSupport statePairs q →
        ∃ r r', ekvState (newStates gs) p = some r ∧ ekvState (newStates gs) q = some r' ∧
          (r = r' ↔ (p, q) ∈ statePairs) :=
  ⟨minClasses_spec.1 Nat numberPairs (by decide), minClasses_spec.{0}.2 statePairs (by decide)⟩

end FLP
