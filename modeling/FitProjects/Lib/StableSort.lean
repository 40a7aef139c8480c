import Mathlib.Order.Defs.LinearOrder
import Mathlib.Data.List.Basic
import Mathlib.Order.Lattice

/-! # Stable sorting

A stable sort of a list permutes it into the order of the keys and leaves elements with the same key
in the order they had. Insertion behind all elements whose key is not greater keeps a list stably
sorted. -/

/-- `s` is `l` in the order of the keys, and elements with the same key are in the same order. -/
structure StableSorted {α : Type u} {κ : Type v} [LinearOrder κ] (key : α → κ) (l s : List α) :
    Prop where
  perm : s.Perm l
  sorted : s.Pairwise fun x y => key x ≤ key y
  stable : ∀ k, s.filter (key · = k) = l.filter (key · = k)

namespace StableSorted

variable {α : Type u} {κ : Type v} [LinearOrder κ] {key : α → κ} {l a b : List α} {x : α}

theorem nil : StableSorted key [] [] where
  perm := .refl _
  sorted := .nil
  stable := fun _ => rfl

/-- Insertion of the element that follows `l`. -/
theorem insert (h : StableSorted key l (a ++ b)) (ha : ∀ y ∈ a, key y ≤ key x)
    (hb : ∀ y ∈ b, key x < key y) : StableSorted key (l ++ [x]) (a ++ x :: b) where
  perm := (List.perm_middle.trans (h.perm.cons x)).trans (List.perm_append_singleton x l).symm
  sorted := by
    obtain ⟨hsa, hsb, hab⟩ := List.pairwise_append.mp h.sorted
    refine List.pairwise_append.mpr
      ⟨hsa, List.pairwise_cons.mpr ⟨fun y hy => le_of_lt (hb y hy), hsb⟩, fun y hy z hz => ?_⟩
    rcases List.mem_cons.mp hz with rfl | hz
    · exact ha y hy
    · exact hab y hy z hz
  stable := by
    intro k
    have hstable := h.stable k
    rw [List.filter_append] at hstable
    rw [List.filter_append, List.filter_append, ← hstable, List.filter_cons]
    split
    next hk =>
      -- the elements behind have greater keys
      have hnone : b.filter (key · = k) = [] := by
        refine List.filter_eq_nil_iff.mpr fun y hy hkey => ?_
        have hlt := hb y hy
        rw [of_decide_eq_true hk, of_decide_eq_true hkey] at hlt
        exact lt_irrefl k hlt
      simp [hnone, of_decide_eq_true hk]
    next hk => simp [of_decide_eq_false (Bool.eq_false_iff.mpr hk)]

theorem le_of_getLast? (h : StableSorted key l (a ++ b))
    (hlast : ∀ y ∈ a.getLast?, key y ≤ key x) : ∀ y ∈ a, key y ≤ key x := by
  rcases a.eq_nil_or_concat with rfl | ⟨a, z, rfl⟩
  · exact List.forall_mem_nil _
  · have hz : key z ≤ key x := hlast z (by simp)
    have hsorted := (List.pairwise_append.mp h.sorted).1
    rw [List.concat_eq_append] at hsorted ⊢
    intro y hy
    rcases List.mem_append.mp hy with hy | hy
    · exact le_trans ((List.pairwise_append.mp hsorted).2.2 y hy z (List.mem_singleton_self z)) hz
    · exact List.mem_singleton.mp hy ▸ hz

end StableSorted
