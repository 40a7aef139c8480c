import FitProjects.IJC.Io
import FitProjects.IJC.Htab
import FitProjects.Lib.CString

/-! # Counting words

`main` of `IJC/proj2/wordcount.c`. After each turn of its loop the table holds the words read so
far with their numbers of occurrences, whatever the hash function is. -/

namespace WordCount

open Htab Io

/-- `WORD_MAX_LENGTH`. -/
def wordMaxLength : Nat := 127

/-- `HASH_TAB_SIZE`. -/
def hashTabSize : Nat := 24593

/-- `printf("%s\t%u\n", name, data)`. -/
def printItem (name : List UInt8) (data : Nat) : List UInt8 :=
  name ++ 9 :: (Nat.toDigits 10 data).map (fun c => UInt8.ofNat c.toNat) ++ [10]

/-- The `while` loop of `main`, with the table, the buffer `word` and the rest of the stream. -/
def readWords (hash : List UInt8 → Nat) (hashTable : Table) (word f : List UInt8) : Table :=
  let returnValue := (fgetw word wordMaxLength f).1
  let word' := (fgetw word wordMaxLength f).2.1
  let f' := (fgetw word wordMaxLength f).2.2
  if _ : returnValue = eof then hashTable
  else if returnValue = 0 then readWords hash hashTable word' f'
  else
    let (item, hashTable) := lookup hash hashTable (cstring word')
    readWords hash (increment hashTable item) word' f'
termination_by f.length
decreasing_by all_goals exact length_fgetw_lt (by decide) ‹_›

/-- `main`: what is printed for the bytes `f` on stdin. -/
def main (hash : List UInt8 → Nat) (f : List UInt8) : List UInt8 :=
  foreach (readWords hash (init hashTabSize) (List.replicate (wordMaxLength + 1) 0) f) printItem

variable {hash : List UInt8 → Nat} {t : Table} {ws : List (List UInt8)} {w word f : List UInt8}

/-- The table holds the words `ws` with their numbers of occurrences. -/
structure Counts (hash : List UInt8 → Nat) (t : Table) (ws : List (List UInt8)) : Prop where
  wf : t.WF hash
  find : ∀ k, t.find hash k = if k ∈ ws then some (ws.count k % 2 ^ 32) else none

namespace Counts

theorem init : Counts hash (init hashTabSize) [] :=
  ⟨wf_init (by decide), fun k => by rw [find_init, if_neg List.not_mem_nil]⟩

/-- Looking a word up and incrementing its item counts it. -/
theorem step (h : Counts hash t ws) (w : List UInt8) :
    Counts hash (increment (lookup hash t w).2 (lookup hash t w).1) (ws ++ [w]) := by
  obtain ⟨c, place, hitem, hc, hplace, hsize, hwf, hfind⟩ := lookup_spec h.wf w
  have hindex : t.index hash w = (lookup hash t w).2.index hash w := by
    rw [Table.index, Table.index, hsize]
  rw [hindex] at hc hitem
  obtain ⟨-, hwf', hfind'⟩ := increment_spec hwf hc hplace
  rw [hitem]
  refine ⟨hwf', fun k => ?_⟩
  rw [hfind', hfind]
  by_cases hk : k = w
  · subst hk
    have hdata : (t.find hash k).getD 0 = ws.count k % 2 ^ 32 := by
      rw [h.find]
      split
      · rfl
      · rename_i hmem
        rw [List.count_eq_zero_of_not_mem hmem]
        rfl
    rw [if_pos rfl, if_pos (by simp), hdata, List.count_append, List.count_singleton_self]
    congr 1
    omega
  · have hcount : (ws ++ [w]).count k = ws.count k := by
      rw [List.count_append, List.count_eq_zero_of_not_mem (l := [w]) (by simpa using hk),
        Nat.add_zero]
    have hmem : k ∈ ws ++ [w] ↔ k ∈ ws := by simp [hk]
    rw [if_neg hk, if_neg hk, h.find, hcount]
    exact if_congr hmem.symm rfl rfl

/-- The loop counts the words of the rest of the stream. -/
theorem readWords (h : Counts hash t ws) (word : List UInt8)
    (hnul : ∀ w ∈ words wordMaxLength f, 0 ∉ w) :
    Counts hash (readWords hash t word f) (ws ++ words wordMaxLength f) := by
  induction hn : f.length using Nat.strong_induction_on generalizing t ws word f with
  | _ n ih =>
    subst hn
    rw [WordCount.readWords]
    obtain ⟨f', hget, hlt, hwords⟩ | ⟨hget, hwords⟩ | ⟨w, f', hget, hne, hlt, hwords⟩ :=
      fgetw_spec word (show 1 ≤ wordMaxLength by decide) f
    · -- A line end is skipped.
      rw [hwords] at hnul ⊢
      simp only [hget]
      exact ih f'.length hlt h word hnul rfl
    · rw [hget, hwords, List.append_nil]
      exact h
    · rw [hwords, List.forall_mem_cons] at hnul
      have hlen : (w.length : Int) ≠ 0 := by simpa using hne
      have heof : (w.length : Int) ≠ eof := by simp [eof]
      simp only [hget, dif_neg heof, if_neg hlen, cstring_eq_self hnul.1]
      rw [hwords, List.append_cons]
      exact ih f'.length hlt (h.step w) w hnul.2 rfl

/-- The items of the table are the words with their numbers of occurrences, each once. -/
theorem items (h : Counts hash t ws) (hcount : ∀ w, ws.count w < 2 ^ 32) :
    (t.data.flatten.map Entry.key).Nodup ∧
      ∀ name data, ⟨name, data⟩ ∈ t.data.flatten ↔ name ∈ ws ∧ data = ws.count name := by
  refine ⟨h.wf.wellHashed.nodup_flatten, fun name data => ?_⟩
  rw [← h.wf.wellHashed.find_eq_some, ← Table.find, h.find]
  split
  · rename_i hmem
    rw [Option.some.injEq, Nat.mod_eq_of_lt (hcount name), eq_comm, and_iff_right hmem]
  · rename_i hmem
    simp [hmem]

end Counts

/-- What `htab_foreach` prints is the line of each item. -/
theorem foreach_eq (t : Table) (fp : List UInt8 → Nat → List UInt8) :
    foreach t fp = t.data.flatten.flatMap fun item => fp item.key item.data := by
  rw [foreach, ← List.flatMap_id, List.flatMap_assoc]
  rfl

/-- `main` prints each distinct word once, followed by a tab, its number of occurrences in decimal
and a line end, and nothing else. -/
theorem main_prints_counts (hash : List UInt8 → Nat) (hnul : 0 ∉ f)
    (hcount : ∀ w, (words wordMaxLength f).count w < 2 ^ 32) :
    ∃ items : List (List UInt8 × Nat),
      main hash f = items.flatMap (fun item =>
        item.1 ++ 9 :: (Nat.toDigits 10 item.2).map (fun c => UInt8.ofNat c.toNat) ++ [10]) ∧
      (items.map Prod.fst).Nodup ∧
      ∀ name data, (name, data) ∈ items ↔
        name ∈ words wordMaxLength f ∧ data = (words wordMaxLength f).count name := by
  have h : Counts hash (readWords hash (init hashTabSize)
      (List.replicate (wordMaxLength + 1) 0) f) (words wordMaxLength f) :=
    Counts.init.readWords _ fun w hw h0 => hnul (mem_of_mem_words hw h0)
  obtain ⟨hnodup, hmem⟩ := h.items hcount
  refine ⟨(readWords hash (init hashTabSize) (List.replicate (wordMaxLength + 1) 0)
    f).data.flatten.map fun item => (item.key, item.data), ?_, ?_, fun name data => ?_⟩
  · rw [main, foreach_eq, List.flatMap_map]
    rfl
  · rw [List.map_map]
    exact hnodup
  · rw [← hmem, List.mem_map]
    constructor
    · rintro ⟨item, hitem, heq⟩
      obtain ⟨rfl, rfl⟩ := Prod.mk.injEq .. ▸ heq
      exact hitem
    · exact fun hitem => ⟨_, hitem, rfl⟩

/-- `"a b\na"` with all words in one chain. -/
theorem main_prints_counts_oneChain :
    ∃ items : List (List UInt8 × Nat),
      main (fun _ => 0) [97, 32, 98, 10, 97] = items.flatMap (fun item =>
        item.1 ++ 9 :: (Nat.toDigits 10 item.2).map (fun c => UInt8.ofNat c.toNat) ++ [10]) ∧
      (items.map Prod.fst).Nodup ∧
      ∀ name data, (name, data) ∈ items ↔
        name ∈ words wordMaxLength [97, 32, 98, 10, 97] ∧
          data = (words wordMaxLength [97, 32, 98, 10, 97]).count name :=
  main_prints_counts (fun _ => 0) (by decide) fun w =>
    Nat.lt_of_le_of_lt List.count_le_length (by decide)

end WordCount
