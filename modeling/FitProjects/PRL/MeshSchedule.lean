import FitProjects.PRL.MeshMultiplication
import Mathlib.Algebra.BigOperators.Group.Finset.Basic
import Mathlib.Algebra.BigOperators.Ring.Finset
import Mathlib.Data.Int.Basic

/-! # The schedule of the mesh multiplication

What each process does for two given matrices, and when. Everything is sent to the borders at time 0
and received there at time 1; the process in row `i` and column `j` multiplies its `k`th pair at time
`i + j + k + 2`. -/

namespace MeshMultiplication

open MessagePassing History Tags Output

/-- A mesh and two matrices, `A` with `n` columns and `B` with `n` rows. -/
structure Mesh where
  rows : Nat
  cols : Nat
  n : Nat
  A : Nat → Nat → Int
  B : Nat → Nat → Int
  rows_pos : 0 < rows
  cols_pos : 0 < cols

/-- The entries of a matrix, row by row. -/
def rowMajor (rows cols : Nat) (A : Nat → Nat → Int) : List Int :=
  (List.range rows).flatMap fun i => (List.range cols).map (A i)

theorem getD_map_range (f : Nat → Int) (h : k < n) : ((List.range n).map f).getD k 0 = f k := by
  simp [h]

/-- Counting the entries of a matrix is counting its rows and columns. -/
theorem flatMap_range_mul (rows cols : Nat) (hc : 0 < cols) (f : Nat → Nat → List α) :
    ((List.range (rows * cols)).flatMap fun k => f (k / cols) (k % cols)) =
      (List.range rows).flatMap fun i => (List.range cols).flatMap (f i) := by
  induction rows with
  | zero => simp
  | succ rows ih =>
    rw [Nat.succ_mul, List.range_add, List.flatMap_append, ih, List.range_succ,
      List.flatMap_append, List.flatMap_singleton, List.flatMap_map]
    congr 1
    refine List.flatMap_congr fun j hj => ?_
    rw [List.mem_range] at hj
    rw [Nat.mul_comm, Nat.mul_add_div hc, Nat.mul_add_mod, Nat.div_eq_of_lt hj,
      Nat.mod_eq_of_lt hj, Nat.add_zero]

theorem length_rowMajor (rows cols : Nat) (A : Nat → Nat → Int) :
    (rowMajor rows cols A).length = rows * cols := by
  simp [rowMajor, List.length_flatMap]

theorem getD_rowMajor {rows cols i j : Nat} (hi : i < rows) (hj : j < cols)
    (A : Nat → Nat → Int) : (rowMajor rows cols A).getD (getIndex i j cols) 0 = A i j := by
  have hc : 0 < cols := Nat.zero_lt_of_lt hj
  have hk : cols * i + j < rows * cols := by
    calc cols * i + j < cols * i + cols := Nat.add_lt_add_left hj _
      _ = (i + 1) * cols := by rw [Nat.succ_mul, Nat.mul_comm]
      _ ≤ rows * cols := Nat.mul_le_mul_right _ hi
  have hmap : rowMajor rows cols A =
      (List.range (rows * cols)).map fun k => A (k / cols) (k % cols) := by
    rw [← flatMap_singleton_eq_map, flatMap_range_mul rows cols hc fun i j => [A i j]]
    simp only [rowMajor, flatMap_singleton_eq_map]
  rw [hmap, getIndex, getD_map_range _ hk, Nat.mul_add_div hc, Nat.mul_add_mod,
    Nat.div_eq_of_lt hj, Nat.mod_eq_of_lt hj, Nat.add_zero]

namespace Mesh

section
variable (m : Mesh)

def size : Nat := m.rows * m.cols

def file1 : File := { dim := m.rows, numbers := rowMajor m.rows m.n m.A }

def file2 : File := { dim := m.cols, numbers := rowMajor m.n m.cols m.B }

/-- The row and the column of a process. -/
def row (id : Nat) : Nat := id / m.cols

def col (id : Nat) : Nat := id % m.cols

/-- The entries of the product. -/
def product (i j : Nat) : Int := ∑ k ∈ Finset.range m.n, m.A i k * m.B k j

/-- When process `id` multiplies its `k`th pair. -/
def time (id k : Nat) : Nat := m.row id + m.col id + 2 + k

/-- When the results are sent. -/
def last : Nat := m.rows + m.cols + 2 + m.n

/-- Where process `id` gets the values of its row from. -/
def left (id : Nat) : Nat := if leftBorder m.cols id then 0 else id - 1

def top (id : Nat) : Nat := if topBorder m.cols id then 0 else id - m.cols

def stream : Channel Tags → List (Delivery Int)
  | ⟨src, dst, tag_p⟩ =>
    if src = 0 ∧ dst < m.size then
      [⟨0, 1, m.n, Nat.one_pos⟩, ⟨0, 1, m.rows, Nat.one_pos⟩, ⟨0, 1, m.cols, Nat.one_pos⟩]
    else []
  | ⟨src, dst, tag_a⟩ =>
    if dst < m.size ∧ src = m.left dst then
      (List.range m.n).map fun k =>
        if leftBorder m.cols dst then ⟨0, 1, m.A (m.row dst) k, Nat.one_pos⟩
        else ⟨m.time dst k - 1, m.time dst k, m.A (m.row dst) k, by simp only [time]; omega⟩
    else []
  | ⟨src, dst, tag_b⟩ =>
    if dst < m.size ∧ src = m.top dst then
      (List.range m.n).map fun k =>
        if topBorder m.cols dst then ⟨0, 1, m.B k (m.col dst), Nat.one_pos⟩
        else ⟨m.time dst k - 1, m.time dst k, m.B k (m.col dst), by simp only [time]; omega⟩
    else []
  | ⟨src, dst, tag_c⟩ =>
    if src < m.size ∧ dst = 0 then
      [⟨m.last, m.last + 1, m.product (m.row src) (m.col src), Nat.lt_succ_self _⟩]
    else []

/-! ## Events -/

def controlEvents : History Tags Int Output :=
  (List.range m.size).flatMap (fun i =>
    [(0, .send ⟨0, i, tag_p⟩ (m.n : Int)), (0, .send ⟨0, i, tag_p⟩ (m.rows : Int)),
      (0, .send ⟨0, i, tag_p⟩ (m.cols : Int))]) ++
  ((List.range m.rows).flatMap (fun i =>
    (List.range m.n).flatMap fun j => [(0, .send ⟨0, i * m.cols, tag_a⟩ (m.A i j))]) ++
  (List.range m.n).flatMap (fun i =>
    (List.range m.cols).flatMap fun j => [(0, .send ⟨0, j, tag_b⟩ (m.B i j))]))

def vecEvents (id : Nat) (tag : Tags) (f : Nat → Int) : History Tags Int Output :=
  (List.range m.n).flatMap fun k => [(1, .recv ⟨0, id, tag⟩ (f k))]

/-- Process `id` gets its `k`th pair and passes it on. -/
def meshEvents (id k : Nat) : History Tags Int Output :=
  (if leftBorder m.cols id then [] else
    [(m.time id k, .recv ⟨id - 1, id, tag_a⟩ (m.A (m.row id) k))]) ++
  ((if topBorder m.cols id then [] else
    [(m.time id k, .recv ⟨id - m.cols, id, tag_b⟩ (m.B k (m.col id)))]) ++
  ((if ¬rightBorder m.cols id then
    [(m.time id k, .send ⟨id, id + 1, tag_a⟩ (m.A (m.row id) k))] else []) ++
  ((if ¬bottomBorder m.rows m.cols id then
    [(m.time id k, .send ⟨id, id + m.cols, tag_b⟩ (m.B k (m.col id)))] else []) ++ [])))

def gatherEvents : History Tags Int Output :=
  (List.range m.size).flatMap (fun i =>
    [(m.last + 1, .recv ⟨i, 0, tag_c⟩ (m.product (m.row i) (m.col i)))]) ++
  (m.last + 1, .print (cout (toString m.rows ++ ":" ++ toString m.cols ++ "\n"))) ::
  (List.range m.size).flatMap fun i =>
    [(m.last + 1, .print (cout (toString (m.product (m.row i) (m.col i))))),
      (m.last + 1, .print (cout (if (i + 1) % m.cols = 0 then "\n" else " ")))]

def mainEvents (id : Nat) : History Tags Int Output :=
  (if id = 0 then m.controlEvents else []) ++
  (1, .recv ⟨0, id, tag_p⟩ (m.n : Int)) ::
  (1, .recv ⟨0, id, tag_p⟩ (m.rows : Int)) ::
  (1, .recv ⟨0, id, tag_p⟩ (m.cols : Int)) ::
  ((if leftBorder m.cols id then m.vecEvents id tag_a (m.A (m.row id)) else []) ++
  ((if topBorder m.cols id then m.vecEvents id tag_b fun k => m.B k (m.col id) else []) ++
  ((List.range m.n).flatMap (m.meshEvents id) ++
  (m.last, .send ⟨id, 0, tag_c⟩ (m.product (m.row id) (m.col id))) ::
  ((if id = 0 then m.gatherEvents else []) ++ []))))

def events (id : Nat) : History Tags Int Output := if id < m.size then m.mainEvents id else []

/-- The pairs that process `id` multiplies, each once. -/
def pairs (id k : Nat) : List (Int × Int) :=
  (List.range k).map fun x => (m.A (m.row id) x, m.B x (m.col id))

def cell (id k : Nat) : Cell :=
  { c := ∑ x ∈ Finset.range k, m.A (m.row id) x * m.B x (m.col id), used := m.pairs id k }

end

variable {m : Mesh} {id k : Nat}

/-! ## Executions -/

theorem performs_control :
    Performs m.stream 0 0 (control m.file1 m.file2) m.controlEvents () 0 := by
  have hr := m.rows_pos
  have hc := m.cols_pos
  have hn1 : (rowMajor m.rows m.n m.A).length / m.rows = m.n := by
    rw [length_rowMajor, Nat.mul_div_cancel_left _ hr]
  have hn2 : (rowMajor m.n m.cols m.B).length / m.cols = m.n := by
    rw [length_rowMajor, Nat.mul_div_cancel _ hc]
  refine .when_bind_of_not (by simp only [file1]; omega) ?_
  refine .when_bind_of_not (by simp only [file2]; omega) ?_
  simp only [file1, file2, Int.toNat_natCast, hn1, hn2]
  refine .when_bind_of_not (by simp) ?_
  refine .bind (Performs.forLoop_zero (fun _ => ()) (fun _ => 0) _ (m.rows * m.cols) fun i _ =>
    .send_bind le_rfl (.send_bind le_rfl (.send le_rfl (.done le_rfl)))) ?_
  refine .bind (Performs.forLoop_zero (fun _ => ()) (fun _ => 0)
    (fun i => (List.range m.n).flatMap fun j => [(0, .send ⟨0, i * m.cols, tag_a⟩ (m.A i j))])
    m.rows fun i hi => ?_) ?_
  · refine Performs.forLoop_zero (fun _ => ()) (fun _ => 0) _ m.n fun j hj => ?_
    rw [getD_rowMajor hi hj]
    exact .send le_rfl (.done le_rfl)
  · refine Performs.forLoop_zero (fun _ => ()) (fun _ => 0)
      (fun i => (List.range m.cols).flatMap fun j => [(0, .send ⟨0, j, tag_b⟩ (m.B i j))])
      m.n fun i hi => ?_
    refine Performs.forLoop_zero (fun _ => ()) (fun _ => 0) _ m.cols fun j hj => ?_
    rw [getD_rowMajor hi hj]
    exact .send le_rfl (.done le_rfl)

theorem performs_receiveVec (tag : Tags) (f : Nat → Int) :
    Performs m.stream id 1 (receiveVec m.n tag) (m.vecEvents id tag f)
      ((List.range m.n).map f) 1 := by
  refine Performs.forLoop_zero (fun k => (List.range k).map f) (fun _ => 1) _ m.n fun k _ => ?_
  refine .recv_bind le_rfl ?_
  rw [List.range_succ, List.map_append]
  exact .done le_rfl

/-- Only the processes on a border receive a vector. -/
theorem performs_vec (c : Prop) [Decidable c] (tag : Tags) (f : Nat → Int) :
    Performs m.stream id 1 (if c then receiveVec m.n tag else pure [])
      (if c then m.vecEvents id tag f else []) (if c then (List.range m.n).map f else []) 1 := by
  split_ifs
  · exact performs_receiveVec tag f
  · exact .pure le_rfl

theorem cell_succ : m.cell id (k + 1) =
    { c := (m.cell id k).c + m.A (m.row id) k * m.B k (m.col id)
      used := (m.cell id k).used ++ [(m.A (m.row id) k, m.B k (m.col id))] } := by
  simp [cell, pairs, Finset.sum_range_succ, List.range_succ]

theorem performs_mesh {vecA vecB : List Int}
    (hA : leftBorder m.cols id → vecA = (List.range m.n).map (m.A (m.row id)))
    (hB : topBorder m.cols id → vecB = (List.range m.n).map fun k => m.B k (m.col id)) :
    Performs m.stream id (m.time id 0) (mesh m.rows m.cols m.n id vecA vecB)
      ((List.range m.n).flatMap (m.meshEvents id)) (m.cell id m.n) (m.time id m.n) := by
  have h0 : ({ c := 0, used := [] } : Cell) = m.cell id 0 := by simp [cell, pairs]
  rw [mesh, h0]
  refine Performs.forLoop_zero (m.cell id) (m.time id) (m.meshEvents id) m.n fun k hk => ?_
  rw [cell_succ]
  refine .ite_bind (fun h => ?_) (fun _ => .recv le_rfl (.inl rfl) (.done le_rfl)) ?_
  · rw [hA h, getD_map_range _ hk]
    exact .pure le_rfl
  refine .ite_bind (fun h => ?_) (fun _ => .recv le_rfl (.inl rfl) (.done le_rfl)) ?_
  · rw [hB h, getD_map_range _ hk]
    exact .pure le_rfl
  refine .when_bind (fun _ => .send le_rfl (.done le_rfl)) le_rfl ?_
  refine .when_bind (fun _ => .send le_rfl (.done le_rfl)) le_rfl ?_
  exact .done (by simp only [time]; omega)

theorem performs_gather : Performs m.stream 0 (m.last + 1) (gather m.rows m.cols m.size)
    m.gatherEvents () (m.last + 1) := by
  refine .bind (Performs.forLoop_zero
    (fun k => (List.range k).map fun i => m.product (m.row i) (m.col i)) (fun _ => m.last + 1)
    (fun i => [(m.last + 1, .recv ⟨i, 0, tag_c⟩ (m.product (m.row i) (m.col i)))])
    m.size fun k _ => ?_) ?_
  · refine .recv_bind le_rfl ?_
    rw [List.range_succ, List.map_append]
    exact .done le_rfl
  refine .print_bind le_rfl ?_
  rw [List.length_map, List.length_range]
  refine Performs.forLoop_zero (fun _ => ()) (fun _ => m.last + 1) _ m.size fun i hi => ?_
  rw [getD_map_range _ hi]
  exact .print_bind le_rfl (.print le_rfl (.done le_rfl))

theorem time_le_last (hid : id < m.size) : m.time id m.n ≤ m.last := by
  have hcol : m.col id < m.cols := Nat.mod_lt _ m.cols_pos
  have hrow : m.row id < m.rows := Nat.div_lt_of_lt_mul (by rwa [Nat.mul_comm])
  simp only [time, last]
  omega

theorem performs_main (hid : id < m.size) :
    Performs m.stream id 0 (main m.file1 m.file2 m.size id) (m.mainEvents id) (m.cell id m.n)
      (m.last + 1) := by
  refine .when_bind (fun h => ?_) le_rfl ?_
  · subst h
    exact performs_control
  refine .recv_bind (Nat.zero_le _) ?_
  refine .recv_bind le_rfl ?_
  refine .recv_bind le_rfl ?_
  simp only [Int.toNat_natCast]
  refine .bind (performs_vec _ tag_a (m.A (m.row id))) ?_
  refine .bind (performs_vec _ tag_b fun k => m.B k (m.col id)) ?_
  refine .bind ((performs_mesh (fun h => if_pos h) fun h => if_pos h).weaken ?_) ?_
  · simp only [time]
    omega
  refine .send_bind (time_le_last hid) ?_
  refine .when_bind (fun h => ?_) (Nat.le_succ _) ?_
  · subst h
    exact performs_gather.weaken (Nat.le_succ _)
  exact .done le_rfl

end Mesh

end MeshMultiplication
