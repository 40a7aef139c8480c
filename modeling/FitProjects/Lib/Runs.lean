import Mathlib.Data.List.Basic

/-! # Maximal runs

`runs p l` are the maximal runs of elements of `l` that meet `p`, in their order. -/

/-- The maximal runs of elements that meet `p`. -/
def runs (p : α → Bool) (l : List α) : List (List α) := (l.splitOnP (!p ·)).filter (· ≠ [])

namespace runs

variable {α : Type u} {p : α → Bool} {c : α} {l l' w sep : List α}

@[simp] theorem nil : runs p ([] : List α) = [] := rfl

/-- An element outside of runs separates what is before it from what is behind it. -/
theorem append_cons (hc : p c = false) : runs p (l ++ c :: l') = runs p l ++ runs p l' := by
  rw [runs, List.splitOnP_append_cons l l' (by simpa using hc), List.filter_append]
  rfl

theorem cons_of_not (hc : p c = false) : runs p (c :: l) = runs p l := append_cons (l := []) hc

theorem sep_append (hsep : ∀ c ∈ sep, p c = false) : runs p (sep ++ l) = runs p l := by
  induction sep with
  | nil => rfl
  | cons c sep ih =>
    rw [List.forall_mem_cons] at hsep
    rw [List.cons_append, cons_of_not hsep.1, ih hsep.2]

theorem append_sep (l l' : List α) (hsep : ∀ c ∈ sep, p c = false) (hne : sep ≠ []) :
    runs p (l ++ (sep ++ l')) = runs p l ++ runs p l' := by
  obtain ⟨c, sep, rfl⟩ := List.exists_cons_of_ne_nil hne
  rw [List.forall_mem_cons] at hsep
  rw [List.cons_append, append_cons hsep.1, sep_append hsep.2]

theorem append_end (hsep : ∀ c ∈ sep, p c = false) : runs p (l ++ sep) = runs p l := by
  cases sep with
  | nil => rw [List.append_nil]
  | cons c sep =>
    have h := append_sep l [] hsep (List.cons_ne_nil c sep)
    rwa [List.append_nil, nil, List.append_nil] at h

/-- A list of elements that all meet `p`. -/
theorem of_forall (hne : w ≠ []) (hw : ∀ c ∈ w, p c) : runs p w = [w] := by
  rw [runs, List.splitOnP_eq_singleton fun c hc => by simp [hw c hc], List.filter_cons_of_pos]
  · rfl
  · simpa using hne

/-- A run at the beginning. -/
theorem append (hne : w ≠ []) (hw : ∀ c ∈ w, p c) (hl : ∀ c ∈ l.head?, p c = false) :
    runs p (w ++ l) = w :: runs p l := by
  cases l with
  | nil => rw [List.append_nil, of_forall hne hw]; rfl
  | cons c l =>
    have hc : p c = false := hl c rfl
    rw [append_cons hc, of_forall hne hw, cons_of_not hc]
    rfl

/-- What a list starts with goes on in its first run. -/
theorem exists_longer (hne : w ≠ []) (hw : ∀ c ∈ w, p c) (l : List α) :
    ∃ v ∈ runs p (w ++ l), w.length ≤ v.length := by
  have hrun : ∀ c ∈ w ++ l.takeWhile p, p c := by
    intro c hc
    rcases List.mem_append.mp hc with hc | hc
    · exact hw c hc
    · exact List.all_eq_true.mp List.all_takeWhile c hc
  refine ⟨w ++ l.takeWhile p, ?_, by rw [List.length_append]; exact Nat.le_add_right _ _⟩
  have hsplit := append (l := l.dropWhile p) (List.append_ne_nil_of_left_ne_nil hne _) hrun
    fun c hc => by
      have hhead := List.head?_dropWhile_not p l
      rw [Option.mem_def.mp hc] at hhead
      simpa using hhead
  rw [List.append_assoc, List.takeWhile_append_dropWhile] at hsplit
  rw [hsplit]
  exact List.mem_cons_self

/-- No separator is in a part. -/
theorem not_of_mem_splitOnP (hw : w ∈ l.splitOnP p) : ∀ c ∈ w, p c = false := by
  induction l generalizing w with
  | nil =>
    rw [List.splitOnP_nil, List.mem_singleton] at hw
    simp [hw]
  | cons b l ih =>
    rw [List.splitOnP_cons_eq_if_modifyHead] at hw
    split at hw
    next =>
      rcases List.mem_cons.mp hw with rfl | hw
      · exact List.forall_mem_nil _
      · exact ih hw
    next hb =>
      obtain ⟨v, vs, hsplit⟩ := List.exists_cons_of_ne_nil (List.splitOnP_ne_nil p l)
      rw [hsplit, List.modifyHead_cons] at hw
      rw [hsplit] at ih
      rcases List.mem_cons.mp hw with rfl | hw
      · exact List.forall_mem_cons.mpr ⟨Bool.eq_false_iff.mpr hb, ih List.mem_cons_self⟩
      · exact ih (List.mem_cons_of_mem v hw)

theorem of_mem (hw : w ∈ runs p l) : w ≠ [] ∧ ∀ c ∈ w, p c := by
  obtain ⟨hsplit, hne⟩ := List.mem_filter.mp hw
  exact ⟨by simpa using hne, fun c hc => by simpa using not_of_mem_splitOnP hsplit c hc⟩

end runs
