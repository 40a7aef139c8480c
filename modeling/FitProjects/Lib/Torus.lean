import Mathlib.Data.Fintype.Prod
import Mathlib.Data.List.Count

/-! # Square tori

The places of a square lattice whose borders are joined, and the eight neighbours of a place. From
side 3 on they are different places. -/

namespace Torus

variable {m : ℕ}

abbrev Place (m : ℕ) := Fin m × Fin m

def succ (x : Fin m) : Fin m := ⟨(x.val + 1) % m, Nat.mod_lt _ x.pos⟩

def pred (x : Fin m) : Fin m := ⟨(x.val + (m - 1)) % m, Nat.mod_lt _ x.pos⟩

def Adjacent (x y : Fin m) : Prop := y = pred x ∨ y = x ∨ y = succ x

/-- The places around `p`. -/
def Neighbour (p q : Place m) : Prop := q ≠ p ∧ Adjacent p.1 q.1 ∧ Adjacent p.2 q.2

instance (p q : Place m) : Decidable (Neighbour p q) :=
  inferInstanceAs (Decidable (_ ∧ (_ ∨ _ ∨ _) ∧ (_ ∨ _ ∨ _)))

/-- The places around `p`, row by row. -/
def neighbours (p : Place m) : List (Place m) :=
  [(pred p.1, pred p.2), (pred p.1, p.2), (pred p.1, succ p.2), (p.1, pred p.2), (p.1, succ p.2),
    (succ p.1, pred p.2), (succ p.1, p.2), (succ p.1, succ p.2)]

/-- All places, row by row. -/
def places (m : ℕ) : List (Place m) := List.finRange m ×ˢ List.finRange m

theorem succ_val (x : Fin m) : (succ x).val = if x.val + 1 = m then 0 else x.val + 1 := by
  have hx := x.isLt
  change (x.val + 1) % m = _
  split
  case isTrue h => rw [h, Nat.mod_self]
  case isFalse h => exact Nat.mod_eq_of_lt (by omega)

theorem pred_val (x : Fin m) : (pred x).val = if x.val = 0 then m - 1 else x.val - 1 := by
  have hx := x.isLt
  change (x.val + (m - 1)) % m = _
  split
  case isTrue h => rw [h, Nat.zero_add, Nat.mod_eq_of_lt (by omega)]
  case isFalse h =>
    rw [show x.val + (m - 1) = x.val - 1 + m by omega, Nat.add_mod_right,
      Nat.mod_eq_of_lt (by omega)]

theorem succ_ne (hm : 3 ≤ m) (x : Fin m) : succ x ≠ x := by
  intro h
  have hval := congrArg Fin.val h
  rw [succ_val] at hval
  split at hval <;> omega

theorem pred_ne (hm : 3 ≤ m) (x : Fin m) : pred x ≠ x := by
  intro h
  have hval := congrArg Fin.val h
  rw [pred_val] at hval
  split at hval <;> omega

theorem pred_ne_succ (hm : 3 ≤ m) (x : Fin m) : pred x ≠ succ x := by
  intro h
  have hval := congrArg Fin.val h
  rw [pred_val, succ_val] at hval
  split at hval <;> split at hval <;> omega

theorem mem_neighbours (hm : 3 ≤ m) {p q : Place m} : q ∈ neighbours p ↔ Neighbour p q := by
  obtain ⟨x, y⟩ := p
  obtain ⟨a, b⟩ := q
  simp only [neighbours, List.mem_cons, Prod.mk.injEq, List.not_mem_nil, or_false, Neighbour,
    Adjacent, ne_eq]
  constructor
  · rintro (⟨rfl, rfl⟩ | ⟨rfl, rfl⟩ | ⟨rfl, rfl⟩ | ⟨rfl, rfl⟩ | ⟨rfl, rfl⟩ | ⟨rfl, rfl⟩ |
      ⟨rfl, rfl⟩ | ⟨rfl, rfl⟩) <;> simp [succ_ne hm, pred_ne hm]
  · rintro ⟨hne, rfl | rfl | rfl, rfl | rfl | rfl⟩ <;> simp_all

theorem nodup_neighbours (hm : 3 ≤ m) (p : Place m) : (neighbours p).Nodup := by
  obtain ⟨x, y⟩ := p
  simp [neighbours, succ_ne hm, pred_ne hm, pred_ne_succ hm, (succ_ne hm _).symm]

/-- A place has eight neighbours. -/
theorem card_neighbours (hm : 3 ≤ m) (p : Place m) :
    (Finset.univ.filter (Neighbour p)).card = 8 := by
  have heq : Finset.univ.filter (Neighbour p) = (neighbours p).toFinset := by
    ext q
    simp [mem_neighbours hm]
  rw [heq, List.toFinset_card_of_nodup (nodup_neighbours hm p)]
  rfl

/-- The neighbours in a class are counted along the list. -/
theorem countP_neighbours (hm : 3 ≤ m) (p : Place m) (P : Place m → Prop) [DecidablePred P] :
    (neighbours p).countP (fun q => P q) =
      (Finset.univ.filter fun q => Neighbour p q ∧ P q).card := by
  have heq : (Finset.univ.filter fun q => Neighbour p q ∧ P q) =
      ((neighbours p).filter fun q => P q).toFinset := by
    ext q
    simp [mem_neighbours hm]
  rw [heq, List.toFinset_card_of_nodup ((nodup_neighbours hm p).filter _),
    List.countP_eq_length_filter]

theorem nodup_places (m : ℕ) : (places m).Nodup := (List.nodup_finRange m).product
  (List.nodup_finRange m)

theorem mem_places (p : Place m) : p ∈ places m :=
  List.pair_mem_product.mpr ⟨List.mem_finRange _, List.mem_finRange _⟩

end Torus
