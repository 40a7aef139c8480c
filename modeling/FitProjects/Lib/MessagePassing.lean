import Mathlib.Data.List.Basic
import Mathlib.Tactic.Common

/-! # Programs that pass messages

A process is a program that prints, sends and receives (`Proc`, a monad). `Performs` relates it to the
events of one of its executions, each with the time at which it happens; it has a rule for each
construct of the language, so that the events of a program are found along its text. -/

namespace MessagePassing

/-- A channel carries the messages with one source, one destination and one tag. Processes are
numbered. -/
structure Channel (τ : Type) where
  src : Nat
  dst : Nat
  tag : τ
  deriving DecidableEq

/-- Programs. `recv none` takes a message with the tag from any source. -/
inductive Proc (τ μ ω α : Type) where
  | done (a : α)
  | print (o : ω) (next : Proc τ μ ω α)
  | send (dst : Nat) (tag : τ) (m : μ) (next : Proc τ μ ω α)
  | recv (src : Option Nat) (tag : τ) (next : μ → Proc τ μ ω α)
  | abort

variable {τ μ ω α β σ : Type}

namespace Proc

def bind (x : Proc τ μ ω α) (f : α → Proc τ μ ω β) : Proc τ μ ω β :=
  match x with
  | done a => f a
  | print o next => print o (next.bind f)
  | send dst tag m next => send dst tag m (next.bind f)
  | recv src tag next => recv src tag fun m => (next m).bind f
  | abort => abort

instance : Monad (Proc τ μ ω) where
  pure := done
  bind := bind

end Proc

def print (o : ω) : Proc τ μ ω Unit := .print o (.done ())

def send (dst : Nat) (tag : τ) (m : μ) : Proc τ μ ω Unit := .send dst tag m (.done ())

def recv (src : Nat) (tag : τ) : Proc τ μ ω μ := .recv (some src) tag .done

def recvAny (tag : τ) : Proc τ μ ω μ := .recv none tag .done

/-- End all processes. -/
def abort : Proc τ μ ω α := .abort

/-- `if (b) x`. -/
def when (b : Prop) [Decidable b] (x : Proc τ μ ω Unit) : Proc τ μ ω Unit :=
  if b then x else pure ()

/-- `for (i = a; i < b; ++i)` over a state. -/
def forLoop (a b : Nat) (s : σ) (body : Nat → σ → Proc τ μ ω σ) : Proc τ μ ω σ :=
  (List.range' a (b - a)).foldlM (fun s i => body i s) s

/-! ## Events -/

inductive Event (τ μ ω : Type) where
  | print (o : ω)
  | send (c : Channel τ) (m : μ)
  | recv (c : Channel τ) (m : μ)

/-- Events with their times. -/
abbrev History (τ μ ω : Type) := List (Nat × Event τ μ ω)

namespace History
variable {l l' : History τ μ ω} {c : Channel τ}

/-- All that is received, with the channels. -/
def receipts (l : History τ μ ω) : List (Channel τ × μ) :=
  l.filterMap fun
    | (_, .recv c m) => some (c, m)
    | _ => none

def prints (l : History τ μ ω) : List ω :=
  l.filterMap fun
    | (_, .print o) => some o
    | _ => none

@[simp] theorem receipts_nil : receipts ([] : History τ μ ω) = [] := rfl
@[simp] theorem receipts_append : receipts (l ++ l') = receipts l ++ receipts l' :=
  List.filterMap_append
@[simp] theorem receipts_flatMap {f : β → History τ μ ω} {k : List β} :
    receipts (k.flatMap f) = k.flatMap fun b => receipts (f b) := List.filterMap_flatMap ..
@[simp] theorem receipts_ite {b : Prop} [Decidable b] : receipts (if b then l else l') =
    if b then receipts l else receipts l' := apply_ite ..
@[simp] theorem receipts_print : receipts ((t, .print o) :: l) = receipts l := rfl
@[simp] theorem receipts_send : receipts ((t, .send c' m) :: l) = receipts l := rfl
@[simp] theorem receipts_recv : receipts ((t, .recv c' m) :: l) = (c', m) :: receipts l := rfl

@[simp] theorem prints_nil : prints ([] : History τ μ ω) = [] := rfl
@[simp] theorem prints_append : prints (l ++ l') = prints l ++ prints l' := List.filterMap_append
@[simp] theorem prints_flatMap {f : β → History τ μ ω} {k : List β} :
    prints (k.flatMap f) = k.flatMap fun b => prints (f b) := List.filterMap_flatMap ..
@[simp] theorem prints_ite {b : Prop} [Decidable b] : prints (if b then l else l') =
    if b then prints l else prints l' := apply_ite ..
@[simp] theorem prints_print : prints ((t, .print o) :: l) = o :: prints l := rfl
@[simp] theorem prints_send : prints ((t, .send c' m) :: l) = prints l := rfl
@[simp] theorem prints_recv : prints ((t, .recv c' m) :: l) = prints l := rfl

section
variable [DecidableEq τ]

/-- What is sent on a channel, and when. -/
def sends (c : Channel τ) (l : History τ μ ω) : List (Nat × μ) :=
  l.filterMap fun
    | (t, .send c' m) => if c' = c then some (t, m) else none
    | _ => none

/-- What is received on a channel, and when. -/
def recvs (c : Channel τ) (l : History τ μ ω) : List (Nat × μ) :=
  l.filterMap fun
    | (t, .recv c' m) => if c' = c then some (t, m) else none
    | _ => none

@[simp] theorem sends_nil : sends c ([] : History τ μ ω) = [] := rfl
@[simp] theorem sends_append : sends c (l ++ l') = sends c l ++ sends c l' := List.filterMap_append
@[simp] theorem sends_flatMap {f : β → History τ μ ω} {k : List β} :
    sends c (k.flatMap f) = k.flatMap fun b => sends c (f b) := List.filterMap_flatMap ..
@[simp] theorem sends_ite {b : Prop} [Decidable b] : sends c (if b then l else l') =
    if b then sends c l else sends c l' := apply_ite ..
@[simp] theorem sends_print : sends c ((t, .print o) :: l) = sends c l := rfl
@[simp] theorem sends_send : sends c ((t, .send c' m) :: l) =
    (if c' = c then [(t, m)] else []) ++ sends c l := by
  by_cases h : c' = c <;> simp [sends, h]
@[simp] theorem sends_recv : sends c ((t, .recv c' m) :: l) = sends c l := rfl

@[simp] theorem recvs_nil : recvs c ([] : History τ μ ω) = [] := rfl
@[simp] theorem recvs_append : recvs c (l ++ l') = recvs c l ++ recvs c l' := List.filterMap_append
@[simp] theorem recvs_flatMap {f : β → History τ μ ω} {k : List β} :
    recvs c (k.flatMap f) = k.flatMap fun b => recvs c (f b) := List.filterMap_flatMap ..
@[simp] theorem recvs_ite {b : Prop} [Decidable b] : recvs c (if b then l else l') =
    if b then recvs c l else recvs c l' := apply_ite ..
@[simp] theorem recvs_print : recvs c ((t, .print o) :: l) = recvs c l := rfl
@[simp] theorem recvs_send : recvs c ((t, .send c' m) :: l) = recvs c l := rfl
@[simp] theorem recvs_recv : recvs c ((t, .recv c' m) :: l) =
    (if c' = c then [(t, m)] else []) ++ recvs c l := by
  by_cases h : c' = c <;> simp [recvs, h]

theorem mem_sends (h : (t, m) ∈ sends c l) : (t, .send c m) ∈ l := by
  obtain ⟨⟨t', e⟩, he, h⟩ := List.mem_filterMap.mp h
  cases e with
  | print => simp at h
  | recv => simp at h
  | send c' m' =>
    simp only [Option.ite_none_right_eq_some, Option.some.injEq, Prod.mk.injEq] at h
    obtain ⟨rfl, rfl, rfl⟩ := h
    exact he

end

end History

/-! ## Lists of events of a loop -/

@[simp] theorem flatMap_nil (l : List α) : (l.flatMap fun _ => ([] : List β)) = [] := by simp

@[simp] theorem flatMap_ite {c : Prop} [Decidable c] (l : List α) (f : α → List β) :
    (l.flatMap fun a => if c then f a else []) = if c then l.flatMap f else [] := by
  split_ifs <;> simp

theorem flatMap_singleton_eq_map (l : List α) (f : α → β) : (l.flatMap fun a => [f a]) = l.map f :=
  List.flatMap_pure_eq_map f l

/-- Only the round `j` counts. -/
theorem flatMap_range_if {f : Nat → List α} (n j : Nat) :
    ((List.range n).flatMap fun k => if k = j then f k else []) = if j < n then f j else [] := by
  induction n with
  | zero => simp
  | succ n ih =>
    rw [List.range_succ, List.flatMap_append, ih, List.flatMap_singleton]
    by_cases hj : n = j
    · subst hj
      simp
    · simp only [hj, if_false, List.append_nil]
      exact if_congr (by omega) rfl rfl

/-! ## Executions -/

/-- A message that is received after it has been sent. -/
structure Delivery (μ : Type) where
  sent : Nat
  received : Nat
  body : μ
  sent_lt : sent < received

/-- Process `p` runs the program from time `lo` to time `hi`, with these events and this result,
where `stream` has all messages that are ever sent on a channel: one that is taken from any source is
the only one that can be. -/
inductive Performs (stream : Channel τ → List (Delivery μ)) (p : Nat) :
    Nat → Proc τ μ ω α → History τ μ ω → α → Nat → Prop
  | done (h : lo ≤ hi) : Performs stream p lo (.done a) [] a hi
  | print (h : lo ≤ t) (hp : Performs stream p t next l a hi) :
    Performs stream p lo (.print o next) ((t, .print o) :: l) a hi
  | send (h : lo ≤ t) (hp : Performs stream p t next l a hi) :
    Performs stream p lo (.send dst tag m next) ((t, .send ⟨p, dst, tag⟩ m) :: l) a hi
  | recv (h : lo ≤ t) (hs : src = some s ∨ src = none ∧ ∀ s' ≠ s, stream ⟨s', p, tag⟩ = [])
    (hp : Performs stream p t (next m) l a hi) :
    Performs stream p lo (.recv src tag next) ((t, .recv ⟨s, p, tag⟩ m) :: l) a hi

namespace Performs
variable {stream : Channel τ → List (Delivery μ)} {p lo mid hi : Nat} {x : Proc τ μ ω α}
  {f : α → Proc τ μ ω β} {l l' : History τ μ ω} {a : α} {b : β}

theorem weaken (h : Performs stream p lo x l a hi) (hlo : lo' ≤ lo) :
    Performs stream p lo' x l a hi := by
  cases h with
  | done h => exact .done (Nat.le_trans hlo h)
  | print h hp => exact .print (Nat.le_trans hlo h) hp
  | send h hp => exact .send (Nat.le_trans hlo h) hp
  | recv h hs hp => exact .recv (Nat.le_trans hlo h) hs hp

theorem bind (hx : Performs stream p lo x l a mid) (hf : Performs stream p mid (f a) l' b hi) :
    Performs stream p lo (x >>= f) (l ++ l') b hi := by
  change Performs stream p lo (x.bind f) (l ++ l') b hi
  induction hx with
  | done h => exact hf.weaken h
  | print h _ ih => exact .print h (ih hf)
  | send h _ ih => exact .send h (ih hf)
  | recv h hs _ ih => exact .recv h hs (ih hf)

theorem pure (h : lo ≤ hi) : Performs stream p lo (pure a : Proc τ μ ω α) [] a hi := .done h

theorem print_bind {f : Unit → Proc τ μ ω β} (h : lo ≤ t)
    (hf : Performs stream p t (f ()) l b hi) :
    Performs stream p lo (MessagePassing.print o >>= f) ((t, .print o) :: l) b hi :=
  .print h hf

theorem send_bind {f : Unit → Proc τ μ ω β} (h : lo ≤ t)
    (hf : Performs stream p t (f ()) l b hi) :
    Performs stream p lo (MessagePassing.send dst tag m >>= f)
      ((t, .send ⟨p, dst, tag⟩ m) :: l) b hi :=
  .send h hf

theorem recv_bind {f : μ → Proc τ μ ω β} (h : lo ≤ t)
    (hf : Performs stream p t (f m) l b hi) :
    Performs stream p lo (MessagePassing.recv s tag >>= f) ((t, .recv ⟨s, p, tag⟩ m) :: l) b hi :=
  .recv h (.inl rfl) hf

theorem recvAny_bind {f : μ → Proc τ μ ω β} (h : lo ≤ t)
    (hs : ∀ s' ≠ s, stream ⟨s', p, tag⟩ = []) (hf : Performs stream p t (f m) l b hi) :
    Performs stream p lo (MessagePassing.recvAny tag >>= f) ((t, .recv ⟨s, p, tag⟩ m) :: l) b hi :=
  .recv h (.inr ⟨rfl, hs⟩) hf

theorem ite_bind {c : Prop} [Decidable c] {x y : Proc τ μ ω α} {f : α → Proc τ μ ω β}
    (hx : c → Performs stream p lo x l a mid) (hy : ¬c → Performs stream p lo y l' a mid)
    (hf : Performs stream p mid (f a) k b hi) :
    Performs stream p lo ((if c then x else y) >>= f) ((if c then l else l') ++ k) b hi := by
  split_ifs with hc
  · exact (hx hc).bind hf
  · exact (hy hc).bind hf

theorem when_bind {c : Prop} [Decidable c] {x : Proc τ μ ω Unit} {f : Unit → Proc τ μ ω β}
    (hx : c → Performs stream p lo x l () mid) (h : lo ≤ mid)
    (hf : Performs stream p mid (f ()) k b hi) :
    Performs stream p lo (when c x >>= f) ((if c then l else []) ++ k) b hi :=
  ite_bind hx (fun _ => .pure h) hf

theorem when_bind_of_not {c : Prop} [Decidable c] {x : Proc τ μ ω Unit}
    {f : Unit → Proc τ μ ω β} (hc : ¬c) (hf : Performs stream p lo (f ()) l b hi) :
    Performs stream p lo (when c x >>= f) l b hi := by
  rw [when, if_neg hc]
  exact hf

/-- The rule for loops: `st k` is the state and `clock k` the time after `k` rounds, and `ev k` has the
events of the next one. -/
theorem foldlM {body : σ → β → Proc τ μ ω σ} {k : List β} (st : Nat → σ) (clock : Nat → Nat)
    (ev : Nat → History τ μ ω)
    (h : ∀ i (hi : i < k.length),
      Performs stream p (clock i) (body (st i) k[i]) (ev i) (st (i + 1)) (clock (i + 1))) :
    Performs stream p (clock 0) (k.foldlM body (st 0)) ((List.range k.length).flatMap ev)
      (st k.length) (clock k.length) := by
  induction k generalizing st clock ev with
  | nil => exact .done (Nat.le_refl _)
  | cons b k ih =>
    rw [List.foldlM_cons, List.length_cons, List.range_succ_eq_map, List.flatMap_cons,
      List.flatMap_map]
    refine .bind (h 0 (Nat.succ_pos _)) ?_
    exact ih (fun i => st (i + 1)) (fun i => clock (i + 1)) (fun i => ev (i + 1))
      fun i hi => h (i + 1) (Nat.succ_lt_succ hi)

theorem forLoop {body : Nat → σ → Proc τ μ ω σ} (st : Nat → σ) (clock : Nat → Nat)
    (ev : Nat → History τ μ ω) (m n : Nat)
    (h : ∀ i < n - m,
      Performs stream p (clock i) (body (m + i) (st i)) (ev i) (st (i + 1)) (clock (i + 1))) :
    Performs stream p (clock 0) (MessagePassing.forLoop m n (st 0) body)
      ((List.range (n - m)).flatMap ev) (st (n - m)) (clock (n - m)) := by
  have hl : Performs stream p (clock 0)
      ((List.range' m (n - m)).foldlM (fun s i => body i s) (st 0)) _ _ _ :=
    foldlM st clock ev fun i hi => by
      rw [List.length_range'] at hi
      simpa using h i hi
  rw [List.length_range'] at hl
  exact hl

theorem forLoop_zero {body : Nat → σ → Proc τ μ ω σ} (st : Nat → σ) (clock : Nat → Nat)
    (ev : Nat → History τ μ ω) (n : Nat)
    (h : ∀ i < n,
      Performs stream p (clock i) (body i (st i)) (ev i) (st (i + 1)) (clock (i + 1))) :
    Performs stream p (clock 0) (MessagePassing.forLoop 0 n (st 0) body)
      ((List.range n).flatMap ev) (st n) (clock n) :=
  forLoop st clock ev 0 n fun i hi => by
    rw [Nat.zero_add]
    exact h i hi

theorem forM {body : β → Proc τ μ ω Unit} {k : List β} (clock : Nat → Nat)
    (ev : Nat → History τ μ ω)
    (h : ∀ i (hi : i < k.length), Performs stream p (clock i) (body k[i]) (ev i) () (clock (i + 1))) :
    Performs stream p (clock 0) (k.forM body) ((List.range k.length).flatMap ev) ()
      (clock k.length) := by
  have hfold : ∀ k : List β, k.forM body = k.foldlM (fun _ b => body b) () := by
    intro k
    induction k with
    | nil => rfl
    | cons b k ih => exact congrArg (body b >>= ·) (funext fun _ => ih)
  rw [hfold]
  exact foldlM (fun _ => ()) clock ev h

/-- The events happen from `lo` on. -/
theorem le_time (h : Performs stream p lo x l a hi) : ∀ e ∈ l, lo ≤ e.1 := by
  induction h with
  | done => simp
  | print h _ ih | send h _ ih | recv h _ _ ih =>
    exact List.forall_mem_cons.mpr ⟨h, fun e he => Nat.le_trans h (ih e he)⟩

theorem head_le (h : Performs stream p lo x (e :: l) a hi) : ∀ f ∈ e :: l, e.1 ≤ f.1 := by
  cases h with
  | print _ hp | send _ hp | recv _ _ hp =>
    exact List.forall_mem_cons.mpr ⟨Nat.le_refl _, hp.le_time⟩

end Performs

end MessagePassing
