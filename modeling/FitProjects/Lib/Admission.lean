import Mathlib.Data.Multiset.Filter
import Mathlib.Data.Multiset.Range
import Mathlib.Logic.Relation

/-! # Admission under a limit

Clients arrive, are counted, and leave. The count includes those that are turned away until they
have left, so that a client may be refused although fewer than `limit` are admitted; the converse,
more than `limit` admitted, never happens (`Accounted`). Clients are numbered in the order of their
arrival. -/

/-- Who has arrived, and where they are. -/
structure Admission where
  arrived : ℕ
  waiting : Multiset ℕ
  admitted : Multiset ℕ
  refused : Multiset ℕ
  gone : Multiset ℕ

namespace Admission

def empty : Admission := ⟨0, 0, 0, 0, 0⟩

/-- A client arrives, is counted and admitted or refused, or leaves. -/
inductive Step (limit : ℕ) (s : Admission) : Admission → Prop
  | arrive : Step limit s { s with arrived := s.arrived + 1, waiting := s.arrived ::ₘ s.waiting }
  | letIn : s.waiting = c ::ₘ w → s.admitted.card + s.refused.card < limit →
      Step limit s { s with waiting := w, admitted := c ::ₘ s.admitted }
  | refuse : s.waiting = c ::ₘ w → limit ≤ s.admitted.card + s.refused.card →
      Step limit s { s with waiting := w, refused := c ::ₘ s.refused }
  | leave : s.admitted = c ::ₘ a → Step limit s { s with admitted := a, gone := c ::ₘ s.gone }
  | turnAway : s.refused = c ::ₘ r → Step limit s { s with refused := r, gone := c ::ₘ s.gone }

/-- Everyone who has arrived is in one place, and the limit is kept. -/
structure Accounted (limit : ℕ) (s : Admission) : Prop where
  everyone : s.waiting + s.admitted + s.refused + s.gone = Multiset.range s.arrived
  admitted_le : s.admitted.card ≤ limit

theorem Step.accounted (h : Step limit s s') (hs : s.Accounted limit) : s'.Accounted limit := by
  obtain ⟨he, ha⟩ := hs
  cases h with
  | arrive => exact ⟨by simp [Multiset.range_succ, ← he], ha⟩
  | letIn hc hlt =>
    refine ⟨by simpa [hc] using he, ?_⟩
    rw [Multiset.card_cons]
    omega
  | refuse hc => exact ⟨by simpa [hc] using he, ha⟩
  | leave hc =>
    rw [hc, Multiset.card_cons] at ha
    exact ⟨by simpa [hc] using he, Nat.le_of_succ_le ha⟩
  | turnAway hc => exact ⟨by simpa [hc] using he, ha⟩

/-- The limit is kept in every run. -/
theorem accounted_of_steps (h : Relation.ReflTransGen (Step limit) empty s) :
    s.Accounted limit := by
  induction h with
  | refl => exact ⟨rfl, Nat.zero_le _⟩
  | tail _ hstep ih => exact hstep.accounted ih

namespace Accounted

variable {s : Admission} (h : s.Accounted limit)
include h

theorem nodup : (s.waiting + s.admitted + s.refused + s.gone).Nodup := by
  rw [h.everyone]
  exact Multiset.nodup_range _

/-- Those who are counted are those who have arrived, neither wait nor have gone. -/
theorem card_present : ((Multiset.range s.arrived).filter fun c => c ∉ s.waiting ∧ c ∉ s.gone).card =
    s.admitted.card + s.refused.card := by
  have hcount := Multiset.nodup_iff_count_le_one.mp h.nodup
  have hpresent : ∀ x, x = s.admitted ∨ x = s.refused →
      x.filter (fun c => c ∉ s.waiting ∧ c ∉ s.gone) = x := by
    refine fun x hx => Multiset.filter_eq_self.mpr fun c hc => ?_
    have := hcount c
    rw [Multiset.count_add, Multiset.count_add, Multiset.count_add] at this
    have := Multiset.count_pos.mpr hc
    rw [← Multiset.count_pos, ← Multiset.count_pos]
    rcases hx with rfl | rfl <;> omega
  rw [← h.everyone, Multiset.filter_add, Multiset.filter_add, Multiset.filter_add,
    hpresent _ (.inl rfl), hpresent _ (.inr rfl),
    Multiset.filter_eq_nil.mpr fun c hc hp => hp.1 hc,
    Multiset.filter_eq_nil.mpr fun c hc hp => hp.2 hc, Multiset.zero_add,
    Multiset.add_zero, Multiset.card_add]

end Accounted

end Admission
