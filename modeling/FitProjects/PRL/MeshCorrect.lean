import FitProjects.PRL.MeshSchedule

/-! # The mesh multiplies

On each channel what one process sends is what the other one receives: a value that process 0 sends to
a border never meets one that a neighbour sends. -/

namespace MeshMultiplication

open MessagePassing History Tags Output

namespace Mesh

variable {m : Mesh} {id src dst : Nat}

/-! ## Neighbours -/

theorem size_pos : 0 < m.size := Nat.mul_pos m.rows_pos m.cols_pos

/-- The process to the right is in the same row, unless this is the right border. -/
theorem row_col_succ (h : ¬rightBorder m.cols id) :
    m.row (id + 1) = m.row id ∧ m.col (id + 1) = m.col id + 1 := by
  have hrow : m.row (id + 1) = m.row id := by
    rw [row, row, Nat.succ_div, if_neg (mt Nat.mod_eq_zero_of_dvd h), Nat.add_zero]
  refine ⟨hrow, ?_⟩
  have h0 := Nat.div_add_mod id m.cols
  have h1 := Nat.div_add_mod (id + 1) m.cols
  rw [show (id + 1) / m.cols = id / m.cols from hrow] at h1
  simp only [col]
  omega

theorem succ_lt_size (h : ¬rightBorder m.cols id) (hid : id < m.size) : id + 1 < m.size := by
  refine lt_of_le_of_ne hid fun heq => h ?_
  rw [rightBorder, heq, size, Nat.mul_mod_left]

theorem row_col_down (m : Mesh) (id : Nat) :
    m.row (id + m.cols) = m.row id + 1 ∧ m.col (id + m.cols) = m.col id :=
  ⟨Nat.add_div_right id m.cols_pos, Nat.add_mod_right id m.cols⟩

theorem not_bottomBorder_iff (m : Mesh) (id : Nat) :
    ¬bottomBorder m.rows m.cols id ↔ id + m.cols < m.size := by
  obtain ⟨r, hr⟩ := Nat.exists_eq_add_of_le' m.rows_pos
  rw [bottomBorder, size, hr, Nat.add_sub_cancel, Nat.succ_mul, Nat.mul_comm]
  omega

/-! ## Sending -/

theorem sends_control_p (dst : Nat) : sends ⟨0, dst, tag_p⟩ m.controlEvents =
    if dst < m.size then [(0, (m.n : Int)), (0, (m.rows : Int)), (0, (m.cols : Int))] else [] := by
  rw [← flatMap_range_if
    (f := fun _ => [(0, (m.n : Int)), (0, (m.rows : Int)), (0, (m.cols : Int))])]
  simp only [controlEvents, sends_append, sends_flatMap, sends_send]
  simp only [Channel.mk.injEq, reduceCtorEq, and_false, and_true, true_and, if_false, sends_nil,
    List.append_nil, flatMap_nil]
  refine List.flatMap_congr fun i _ => ?_
  split_ifs <;> rfl

theorem sends_control_a (dst : Nat) : sends ⟨0, dst, tag_a⟩ m.controlEvents =
    if leftBorder m.cols dst ∧ dst < m.size then
      (List.range m.n).map fun k => (0, m.A (m.row dst) k) else [] := by
  simp only [controlEvents, sends_append, sends_flatMap, sends_send, Channel.mk.injEq, reduceCtorEq,
    and_false, and_true, true_and, if_false, sends_nil, List.append_nil, flatMap_nil, flatMap_ite,
    List.nil_append]
  simp only [flatMap_singleton_eq_map]
  by_cases h : leftBorder m.cols dst
  · obtain ⟨q, rfl⟩ := Nat.dvd_of_mod_eq_zero h
    have hlt : m.cols * q < m.size ↔ q < m.rows := by
      rw [size, Nat.mul_comm m.rows, Nat.mul_lt_mul_left m.cols_pos]
    have hrow : m.row (m.cols * q) = q := Nat.mul_div_cancel_left q m.cols_pos
    simp only [Nat.mul_comm m.cols, Nat.mul_left_inj m.cols_pos.ne'] at hlt hrow h ⊢
    rw [flatMap_range_if (f := fun i => (List.range m.n).map fun k => (0, m.A i k)), hrow]
    exact if_congr (by rw [and_iff_right h, hlt]) rfl rfl
  · have hno (i : Nat) : i * m.cols ≠ dst := fun hi => h (hi ▸ Nat.mul_mod_left i m.cols)
    simp [hno, h]

theorem sends_control_b (dst : Nat) : sends ⟨0, dst, tag_b⟩ m.controlEvents =
    if topBorder m.cols dst then (List.range m.n).map fun k => (0, m.B k dst) else [] := by
  have hin (i : Nat) : ((List.range m.cols).flatMap fun j =>
      if j = dst then [((0 : Nat), m.B i j)] else []) =
        if topBorder m.cols dst then [(0, m.B i dst)] else [] :=
    flatMap_range_if (f := fun j => [(0, m.B i j)]) m.cols dst
  simp only [controlEvents, sends_append, sends_flatMap, sends_send, Channel.mk.injEq, reduceCtorEq,
    and_false, and_true, true_and, if_false, sends_nil, List.append_nil, flatMap_nil,
    List.nil_append, hin, flatMap_ite]
  simp only [flatMap_singleton_eq_map]

theorem sends_control_c (dst : Nat) : sends ⟨0, dst, tag_c⟩ m.controlEvents = [] := by
  simp [controlEvents]

theorem sends_meshEvents_a (dst : Nat) :
    sends ⟨id, dst, tag_a⟩ ((List.range m.n).flatMap (m.meshEvents id)) =
      if ¬rightBorder m.cols id ∧ dst = id + 1 then
        (List.range m.n).map fun k => (m.time id k, m.A (m.row id) k) else [] := by
  by_cases hdst : dst = id + 1
  · subst hdst
    by_cases h : rightBorder m.cols id <;> simp [meshEvents, h, flatMap_singleton_eq_map]
  · simp [meshEvents, hdst, Ne.symm hdst]

theorem sends_meshEvents_b (dst : Nat) :
    sends ⟨id, dst, tag_b⟩ ((List.range m.n).flatMap (m.meshEvents id)) =
      if ¬bottomBorder m.rows m.cols id ∧ dst = id + m.cols then
        (List.range m.n).map fun k => (m.time id k, m.B k (m.col id)) else [] := by
  by_cases hdst : dst = id + m.cols
  · subst hdst
    by_cases h : bottomBorder m.rows m.cols id <;> simp [meshEvents, h, flatMap_singleton_eq_map]
  · simp [meshEvents, hdst, Ne.symm hdst]

@[simp] theorem sends_vecEvents (c : Channel Tags) (tag : Tags) (f : Nat → Int) :
    sends c (m.vecEvents id tag f) = [] := by
  simp [vecEvents]

@[simp] theorem sends_gatherEvents (c : Channel Tags) : sends c m.gatherEvents = [] := by
  simp [gatherEvents]

/-- Process 0 sends what it sends as control processor and what every process sends. -/
theorem sends_mainEvents (dst : Nat) (tag : Tags) :
    sends ⟨id, dst, tag⟩ (m.mainEvents id) =
      (if id = 0 then sends ⟨0, dst, tag⟩ m.controlEvents else []) ++
      sends ⟨id, dst, tag⟩ ((List.range m.n).flatMap (m.meshEvents id)) ++
      if tag = tag_c ∧ dst = 0 then [(m.last, m.product (m.row id) (m.col id))] else [] := by
  by_cases h0 : id = 0
  · subst h0
    simp [mainEvents, and_comm, eq_comm]
  · simp [mainEvents, h0, and_comm, eq_comm]

theorem stream_left (h : leftBorder m.cols dst) : m.stream ⟨src, dst, tag_a⟩ =
    if src = 0 ∧ dst < m.size then
      (List.range m.n).map fun k => ⟨0, 1, m.A (m.row dst) k, Nat.one_pos⟩ else [] := by
  simp only [stream, left, if_pos h, and_comm]

theorem stream_right (h : ¬leftBorder m.cols dst) (hne : dst ≠ src + 1) :
    m.stream ⟨src, dst, tag_a⟩ = [] := by
  refine if_neg fun ⟨_, hsrc⟩ => ?_
  have h0 : dst ≠ 0 := fun h0 => h (by rw [leftBorder, h0, Nat.zero_mod])
  rw [left, if_neg h] at hsrc
  omega

theorem stream_top (h : topBorder m.cols dst) : m.stream ⟨src, dst, tag_b⟩ =
    if src = 0 then
      (List.range m.n).map fun k => ⟨0, 1, m.B k dst, Nat.one_pos⟩ else [] := by
  have hlt : dst < m.size := h.trans_le (Nat.le_mul_of_pos_left _ m.rows_pos)
  have hcol : m.col dst = dst := Nat.mod_eq_of_lt h
  simp only [stream, top, if_pos h, hlt, true_and, hcol]

theorem stream_bottom (h : ¬topBorder m.cols dst) (hne : dst ≠ src + m.cols) :
    m.stream ⟨src, dst, tag_b⟩ = [] := by
  refine if_neg fun ⟨_, hsrc⟩ => ?_
  rw [top, if_neg h] at hsrc
  simp only [topBorder] at h
  omega

theorem sends_main_a (hid : id < m.size) (dst : Nat) : sends ⟨id, dst, tag_a⟩ (m.mainEvents id) =
    (m.stream ⟨id, dst, tag_a⟩).map fun d => (d.sent, d.body) := by
  rw [sends_mainEvents, sends_meshEvents_a, sends_control_a]
  by_cases h : leftBorder m.cols dst
  · -- Only process 0 sends to the left border, and only as control processor.
    have hno : ¬(¬rightBorder m.cols id ∧ dst = id + 1) := by
      rintro ⟨hr, rfl⟩
      exact hr h
    rw [stream_left h, if_neg hno]
    by_cases h0 : id = 0 <;> by_cases hlt : dst < m.size <;> simp [h0, hlt, h]
  · by_cases hdst : dst = id + 1
    · subst hdst
      have hr : ¬rightBorder m.cols id := h
      have hlt := succ_lt_size hr hid
      obtain ⟨hrow, hcol⟩ := row_col_succ hr
      have htime (k : Nat) : m.time (id + 1) k - 1 = m.time id k := by
        simp only [time, hrow, hcol]
        omega
      simp [stream, left, h, hr, hlt, hrow, htime]
    · rw [stream_right h hdst]
      simp [hdst, h]

theorem sends_main_b (dst : Nat) : sends ⟨id, dst, tag_b⟩ (m.mainEvents id) =
    (m.stream ⟨id, dst, tag_b⟩).map fun d => (d.sent, d.body) := by
  rw [sends_mainEvents, sends_meshEvents_b, sends_control_b]
  by_cases h : topBorder m.cols dst
  · have hno : ¬(¬bottomBorder m.rows m.cols id ∧ dst = id + m.cols) := by
      simp only [topBorder] at h
      omega
    rw [stream_top h, if_neg hno]
    by_cases h0 : id = 0 <;> simp [h0, h]
  · by_cases hdst : dst = id + m.cols
    · subst hdst
      obtain ⟨hrow, hcol⟩ := row_col_down m id
      have htime (k : Nat) : m.time (id + m.cols) k - 1 = m.time id k := by
        simp only [time, hrow, hcol]
        omega
      have hb := not_bottomBorder_iff m id
      by_cases hlt : id + m.cols < m.size
      · simp [stream, top, h, hlt, hcol, htime, hb.mpr hlt]
      · simp [stream, top, h, hlt, mt hb.mp hlt]
    · rw [stream_bottom h hdst]
      simp [hdst, h]

theorem sends_main (hid : id < m.size) (dst : Nat) (tag : Tags) :
    sends ⟨id, dst, tag⟩ (m.mainEvents id) =
      (m.stream ⟨id, dst, tag⟩).map fun d => (d.sent, d.body) := by
  cases tag with
  | tag_p =>
    rw [sends_mainEvents, sends_control_p]
    by_cases h0 : id = 0 <;> simp [meshEvents, stream, h0, apply_ite (List.map _)]
  | tag_c =>
    rw [sends_mainEvents, sends_control_c]
    by_cases h0 : dst = 0 <;> simp [meshEvents, stream, hid, h0]
  | tag_a => exact sends_main_a hid dst
  | tag_b => exact sends_main_b dst

/-! ## Receiving -/

@[simp] theorem recvs_controlEvents (c : Channel Tags) : recvs c m.controlEvents = [] := by
  simp [controlEvents]

theorem recvs_gatherEvents (src : Nat) : recvs ⟨src, 0, tag_c⟩ m.gatherEvents =
    if src < m.size then [(m.last + 1, m.product (m.row src) (m.col src))] else [] := by
  simp [gatherEvents,
    flatMap_range_if (f := fun i => [(m.last + 1, m.product (m.row i) (m.col i))])]

@[simp] theorem recvs_gatherEvents_ne (src : Nat) (h : id ≠ 0 ∨ tag ≠ tag_c) :
    recvs ⟨src, id, tag⟩ m.gatherEvents = [] := by
  rcases h with h | h <;> simp [gatherEvents, h.symm]

theorem recvs_vecEvents (src : Nat) (tag : Tags) (f : Nat → Int) :
    recvs ⟨src, id, tag⟩ (m.vecEvents id tag f) =
      if src = 0 then (List.range m.n).map fun k => (1, f k) else [] := by
  by_cases h0 : src = 0
  · subst h0
    rw [vecEvents, recvs_flatMap, if_pos rfl, ← flatMap_singleton_eq_map]
    simp
  · simp [vecEvents, h0, Ne.symm h0]

@[simp] theorem recvs_vecEvents_ne (src : Nat) (h : tag' ≠ tag) (f : Nat → Int) :
    recvs ⟨src, id, tag⟩ (m.vecEvents id tag' f) = [] := by
  simp [vecEvents, h]

theorem recvs_meshEvents_a (src : Nat) :
    recvs ⟨src, id, tag_a⟩ ((List.range m.n).flatMap (m.meshEvents id)) =
      if ¬leftBorder m.cols id ∧ src = id - 1 then
        (List.range m.n).map fun k => (m.time id k, m.A (m.row id) k) else [] := by
  by_cases hsrc : src = id - 1
  · subst hsrc
    by_cases h : leftBorder m.cols id <;> simp [meshEvents, h, flatMap_singleton_eq_map]
  · simp [meshEvents, hsrc, Ne.symm hsrc]

theorem recvs_meshEvents_b (src : Nat) :
    recvs ⟨src, id, tag_b⟩ ((List.range m.n).flatMap (m.meshEvents id)) =
      if ¬topBorder m.cols id ∧ src = id - m.cols then
        (List.range m.n).map fun k => (m.time id k, m.B k (m.col id)) else [] := by
  by_cases hsrc : src = id - m.cols
  · subst hsrc
    by_cases h : topBorder m.cols id <;> simp [meshEvents, h, flatMap_singleton_eq_map]
  · simp [meshEvents, hsrc, Ne.symm hsrc]

theorem recvs_main (hid : id < m.size) (src : Nat) (tag : Tags) :
    recvs ⟨src, id, tag⟩ (m.mainEvents id) =
      (m.stream ⟨src, id, tag⟩).map fun d => (d.received, d.body) := by
  cases tag with
  | tag_p =>
    by_cases h0 : src = 0
    · subst h0
      simp [mainEvents, meshEvents, stream, hid]
    · simp [mainEvents, meshEvents, stream, h0, Ne.symm h0]
  | tag_c =>
    by_cases h0 : id = 0
    · subst h0
      simp [mainEvents, meshEvents, recvs_gatherEvents, stream, apply_ite (List.map _)]
    · simp [mainEvents, meshEvents, stream, h0]
  | tag_a =>
    simp only [mainEvents, recvs_append, recvs_recv, recvs_send, recvs_ite, recvs_meshEvents_a,
      recvs_vecEvents]
    by_cases h : leftBorder m.cols id
    · by_cases h0 : src = 0 <;> simp [stream, left, h, h0, hid, Function.comp_def]
    · by_cases h0 : src = id - 1 <;> simp [stream, left, h, h0, hid, Function.comp_def]
  | tag_b =>
    simp only [mainEvents, recvs_append, recvs_recv, recvs_send, recvs_ite, recvs_meshEvents_b,
      recvs_vecEvents]
    by_cases h : topBorder m.cols id
    · by_cases h0 : src = 0 <;> simp [stream, top, h, h0, hid, Function.comp_def]
    · by_cases h0 : src = id - m.cols <;> simp [stream, top, h, h0, hid, Function.comp_def]

/-! ## The schedule -/

theorem left_lt (h : dst < m.size) : m.left dst < m.size := by
  unfold left
  split_ifs
  · exact size_pos
  · omega

theorem top_lt (h : dst < m.size) : m.top dst < m.size := by
  unfold top
  split_ifs
  · exact size_pos
  · omega

theorem stream_of_src (h : m.size ≤ src) {tag : Tags} : m.stream ⟨src, dst, tag⟩ = [] := by
  have h0 := size_pos (m := m)
  cases tag with
  | tag_p | tag_c => exact if_neg (by omega)
  | tag_a =>
    refine if_neg fun ⟨hdst, hsrc⟩ => ?_
    have := left_lt hdst
    omega
  | tag_b =>
    refine if_neg fun ⟨hdst, hsrc⟩ => ?_
    have := top_lt hdst
    omega

theorem stream_of_dst (h : m.size ≤ dst) {tag : Tags} : m.stream ⟨src, dst, tag⟩ = [] := by
  have h0 := size_pos (m := m)
  cases tag <;> exact if_neg (by omega)

theorem events_of_lt (h : id < m.size) : m.events id = m.mainEvents id := if_pos h

theorem events_absent (h : m.size ≤ id) : m.events id = [] := if_neg (Nat.not_lt.mpr h)

def schedule (m : Mesh) : Schedule m.size (main m.file1 m.file2 m.size) where
  stream := m.stream
  events := m.events
  result id := m.cell id m.n
  performs p hp := by
    rw [events_of_lt hp]
    exact ⟨_, performs_main hp⟩
  absent p hp := events_absent hp
  sends_eq c := by
    obtain ⟨src, dst, tag⟩ := c
    rcases Nat.lt_or_ge src m.size with h | h
    · rw [events_of_lt h]
      exact sends_main h dst tag
    · rw [events_absent h, stream_of_src h]
      rfl
  recvs_eq c := by
    obtain ⟨src, dst, tag⟩ := c
    rcases Nat.lt_or_ge dst m.size with h | h
    · rw [events_of_lt h]
      exact recvs_main h src tag
    · rw [events_absent h, stream_of_dst h]
      rfl

/-! ## The result -/

/-- The dimensions and the product, row by row. -/
def printed (m : Mesh) : List Output :=
  cout (toString m.rows ++ ":" ++ toString m.cols ++ "\n") ::
    (List.range m.rows).flatMap fun i => (List.range m.cols).flatMap fun j =>
      [cout (toString (m.product i j)), cout (if j + 1 = m.cols then "\n" else " ")]

/-- What the program does on two matrices: no run is longer than a bound, every run goes on until all
processes have ended, a process that has ended has multiplied each value of its row with that of its
column once and has the entry of the product, and process 0 has printed the product. -/
structure Multiplies (m : Mesh) : Prop where
  not_stuck {s : Config Tags Int Output Cell}
    (h : (mm m.file1 m.file2 (m.rows * m.cols)).Reachable s) :
    (∀ p < m.rows * m.cols, (s.proc p).IsDone) ∨
      ∃ mv s', (mm m.file1 m.file2 (m.rows * m.cols)).step s mv = some s'
  bounded : ∃ bound, ∀ l s, (mm m.file1 m.file2 (m.rows * m.cols)).runs
    (mm m.file1 m.file2 (m.rows * m.cols)).init l = some s → l.length ≤ bound
  completes {s : Config Tags Int Output Cell}
    (h : (mm m.file1 m.file2 (m.rows * m.cols)).Reachable s) :
    ∃ l s', (mm m.file1 m.file2 (m.rows * m.cols)).runs s l = some s' ∧
      ∀ p < m.rows * m.cols, (s'.proc p).IsDone
  cell_done {s : Config Tags Int Output Cell} {i j : Nat} {v : Cell}
    (h : (mm m.file1 m.file2 (m.rows * m.cols)).Reachable s) (hi : i < m.rows) (hj : j < m.cols)
    (hv : s.proc (i * m.cols + j) = .done v) :
    v.used = ((List.range m.n).map fun k => (m.A i k, m.B k j)) ∧
      v.c = ∑ k ∈ Finset.range m.n, m.A i k * m.B k j
  output_done {s : Config Tags Int Output Cell} {v : Cell}
    (h : (mm m.file1 m.file2 (m.rows * m.cols)).Reachable s) (hv : s.proc 0 = .done v) :
    s.output 0 = m.printed

theorem succ_mod_eq_zero_iff {c : Nat} (hc : 0 < c) (k : Nat) :
    (k + 1) % c = 0 ↔ k % c + 1 = c := by
  rw [← Nat.mod_add_mod]
  have hlt := Nat.mod_lt k hc
  rcases Nat.lt_or_eq_of_le (Nat.succ_le_of_lt hlt) with h | h
  · rw [Nat.mod_eq_of_lt h]
    omega
  · rw [show k % c + 1 = c from h, Nat.mod_self]
    simp

theorem prints_main : prints (m.mainEvents 0) = m.printed := by
  have hgather : (List.range m.size).flatMap (fun k =>
      [cout (toString (m.product (m.row k) (m.col k))),
        cout (if (k + 1) % m.cols = 0 then "\n" else " ")]) =
      (List.range m.rows).flatMap fun i => (List.range m.cols).flatMap fun j =>
        [cout (toString (m.product i j)), cout (if j + 1 = m.cols then "\n" else " ")] := by
    rw [← flatMap_range_mul m.rows m.cols m.cols_pos fun i j =>
      [cout (toString (m.product i j)), cout (if j + 1 = m.cols then "\n" else " ")]]
    simp only [succ_mod_eq_zero_iff m.cols_pos, size, row, col]
  simpa [mainEvents, controlEvents, vecEvents, meshEvents, gatherEvents, printed] using hgather

/-- The program multiplies, whatever the order of the steps. -/
theorem multiplies (m : Mesh) : m.Multiplies := by
  refine ⟨m.schedule.not_stuck, ⟨_, fun _ _ => m.schedule.length_le⟩, m.schedule.completes,
    fun {s i j v} h hi hj hv => ?_, fun {s v} h hv => ?_⟩
  · have hlt : i * m.cols + j < m.size := by
      calc i * m.cols + j < i * m.cols + m.cols := Nat.add_lt_add_left hj _
        _ = (i + 1) * m.cols := (Nat.succ_mul i m.cols).symm
        _ ≤ m.size := Nat.mul_le_mul_right _ hi
    have hres := (m.schedule.of_done h hlt (hv ▸ trivial)).1
    have hcell : m.cell (i * m.cols + j) m.n = v := Proc.done.inj (hres.symm.trans hv)
    have hrow : m.row (i * m.cols + j) = i := by
      rw [row, Nat.mul_comm, Nat.mul_add_div m.cols_pos, Nat.div_eq_of_lt hj, Nat.add_zero]
    have hcol : m.col (i * m.cols + j) = j := by
      rw [col, Nat.mul_comm, Nat.mul_add_mod, Nat.mod_eq_of_lt hj]
    rw [← hcell, cell, pairs, hrow, hcol]
    exact ⟨rfl, rfl⟩
  · have hout := (m.schedule.of_done h size_pos (hv ▸ trivial)).2.1
    exact hout.trans ((congrArg prints (events_of_lt size_pos)).trans prints_main)

end Mesh

end MeshMultiplication
