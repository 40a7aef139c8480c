import Mathlib.Tactic.Push

/-! # Places in a list

An element of a list at some place splits it into what is before and behind. -/

namespace List

variable {α : Type*}

/-- A property of all places of a list, for the first place and for the others. -/
theorem forall_split_cons {p : List α → α → Prop} {a : α} {l : List α} :
    (∀ pre b post, a :: l = pre ++ b :: post → p pre b) ↔
      p [] a ∧ ∀ pre b post, l = pre ++ b :: post → p (a :: pre) b := by
  constructor
  · exact fun h => ⟨h [] a l rfl, fun pre b post hl => h (a :: pre) b post (hl ▸ rfl)⟩
  · rintro ⟨hfirst, hrest⟩ pre b post heq
    cases pre with
    | nil =>
      obtain ⟨rfl, -⟩ := List.cons.inj heq
      exact hfirst
    | cons a' pre =>
      obtain ⟨rfl, hl⟩ := List.cons.inj heq
      exact hrest pre b post hl

/-- The last element with a property. -/
theorem exists_last {p : α → Prop} {l : List α} (h : ∃ a ∈ l, p a) :
    ∃ pre a post, l = pre ++ a :: post ∧ p a ∧ ∀ b ∈ post, ¬ p b := by
  induction l with
  | nil =>
    obtain ⟨a, ha, -⟩ := h
    cases ha
  | cons b l ih =>
    by_cases hl : ∃ a ∈ l, p a
    · obtain ⟨pre, a, post, rfl, ha, hpost⟩ := ih hl
      exact ⟨b :: pre, a, post, rfl, ha, hpost⟩
    · obtain ⟨a, ha, hpa⟩ := h
      rcases List.mem_cons.mp ha with rfl | ha
      · exact ⟨[], a, l, rfl, hpa, fun c hc hpc => hl ⟨c, hc, hpc⟩⟩
      · exact absurd ⟨a, ha, hpa⟩ hl

end List
