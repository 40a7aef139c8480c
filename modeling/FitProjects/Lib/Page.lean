import FitProjects.Lib.CString
import FitProjects.Lib.Runs

/-! # Words on lines

A page is a list of lines, which end with a line feed, and the beginning of another one. The words
of a line are apart by one space. -/

namespace Page

/-- Words that are not empty and have no white space. -/
def IsWord (w : List UInt8) : Prop := w ≠ [] ∧ ∀ c ∈ w, isspace c = false

def line : List (List UInt8) → List UInt8
  | [] => []
  | w :: ws => w ++ ws.flatMap (32 :: ·)

/-- The text of the lines `done` and of `cur`, the line that is not yet ended. -/
def page (done : List (List (List UInt8))) (cur : List (List UInt8)) : List UInt8 :=
  done.flatMap (line · ++ [10]) ++ line cur

variable {w : List UInt8} {ws cur : List (List UInt8)} {done : List (List (List UInt8))}

@[simp] theorem line_nil : line [] = [] := rfl

@[simp] theorem line_singleton : line [w] = w := List.append_nil w

theorem line_concat (hne : ws ≠ []) : line (ws ++ [w]) = line ws ++ 32 :: w := by
  obtain ⟨v, ws, rfl⟩ := List.exists_cons_of_ne_nil hne
  simp [line]

/-- A byte of a line is a space or belongs to a word. -/
theorem mem_line (hc : c ∈ line ws) : c = 32 ∨ ∃ w ∈ ws, c ∈ w := by
  cases ws with
  | nil => cases hc
  | cons v ws =>
    rcases List.mem_append.mp hc with hc | hc
    · exact .inr ⟨v, List.mem_cons_self, hc⟩
    · obtain ⟨w, hw, hc⟩ := List.mem_flatMap.mp hc
      rcases List.mem_cons.mp hc with rfl | hc
      · exact .inl rfl
      · exact .inr ⟨w, List.mem_cons_of_mem _ hw, hc⟩

theorem not_mem_line (hws : ∀ w ∈ ws, IsWord w) : 10 ∉ line ws := by
  intro hc
  rcases mem_line hc with hc | ⟨w, hw, hc⟩
  · exact absurd hc (by decide)
  · exact absurd ((hws w hw).2 10 hc) (by decide)

theorem runs_line (hws : ∀ w ∈ ws, IsWord w) : runs (!isspace ·) (line ws) = ws := by
  cases ws with
  | nil => rfl
  | cons v ws =>
    rw [line]
    induction ws generalizing v with
    | nil =>
      obtain ⟨hne, hv⟩ := hws v List.mem_cons_self
      rw [List.flatMap_nil, List.append_nil]
      exact runs.of_forall hne fun c hc => by rw [hv c hc]; rfl
    | cons w ws ih =>
      obtain ⟨hne, hv⟩ := hws v List.mem_cons_self
      rw [List.flatMap_cons, List.cons_append, runs.append_cons (by rfl),
        ih w fun u hu => hws u (List.mem_cons_of_mem _ hu),
        runs.of_forall hne fun c hc => by rw [hv c hc]; rfl]
      rfl

/-- The lines of a page. -/
theorem splitOnP_page (hdone : ∀ l ∈ done, ∀ w ∈ l, IsWord w) (hcur : ∀ w ∈ cur, IsWord w) :
    (page done cur).splitOnP (· = 10) = (done ++ [cur]).map line := by
  induction done with
  | nil =>
    refine List.splitOnP_eq_singleton fun c hc => decide_eq_false ?_
    rintro rfl
    exact not_mem_line hcur hc
  | cons l done ih =>
    rw [List.forall_mem_cons] at hdone
    have hpage : page (l :: done) cur = line l ++ 10 :: page done cur := by simp [page]
    have hl : (line l).splitOnP (· = 10) = [line l] := by
      refine List.splitOnP_eq_singleton fun c hc => decide_eq_false ?_
      rintro rfl
      exact not_mem_line hdone.1 hc
    rw [hpage, List.splitOnP_append_cons _ _ (by rfl), hl, ih hdone.2]
    rfl

/-- The words of a page. -/
theorem runs_page (hdone : ∀ l ∈ done, ∀ w ∈ l, IsWord w) (hcur : ∀ w ∈ cur, IsWord w) :
    runs (!isspace ·) (page done cur) = done.flatten ++ cur := by
  induction done with
  | nil => exact runs_line hcur
  | cons l done ih =>
    rw [List.forall_mem_cons] at hdone
    have hpage : page (l :: done) cur = line l ++ 10 :: page done cur := by simp [page]
    rw [hpage, runs.append_cons (by rfl), runs_line hdone.1, ih hdone.2, List.flatten_cons,
      List.append_assoc]

theorem page_concat (done : List (List (List UInt8))) (cur : List (List UInt8)) :
    page (done ++ [cur]) [] = page done cur ++ [10] := by
  simp [page]

/-- White space of a page is a blank or ends a line. -/
theorem white_of_mem_page (hdone : ∀ l ∈ done, ∀ w ∈ l, IsWord w) (hcur : ∀ w ∈ cur, IsWord w)
    (hc : c ∈ page done cur) (hspace : isspace c) : c = 32 ∨ c = 10 := by
  have hline : ∀ ws, (∀ w ∈ ws, IsWord w) → c ∈ line ws → c = 32 := by
    intro ws hws hc
    rcases mem_line hc with hc | ⟨w, hw, hc⟩
    · exact hc
    · rw [(hws w hw).2 c hc] at hspace
      cases hspace
  rcases List.mem_append.mp hc with hc | hc
  · obtain ⟨l, hl, hc⟩ := List.mem_flatMap.mp hc
    rcases List.mem_append.mp hc with hc | hc
    · exact .inl (hline l (hdone l hl) hc)
    · exact .inr (List.mem_singleton.mp hc)
  · exact .inl (hline cur hcur hc)

/-- The line that is not yet ended. -/
def lastLine (f : List UInt8) : List UInt8 := (f.splitOnP (· = 10)).getLastD []

theorem lastLine_page (hdone : ∀ l ∈ done, ∀ w ∈ l, IsWord w) (hcur : ∀ w ∈ cur, IsWord w) :
    lastLine (page done cur) = line cur := by
  rw [lastLine, splitOnP_page hdone hcur, List.map_append]
  simp

end Page
