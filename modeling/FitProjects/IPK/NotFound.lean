import FitProjects.IPK.RemotePasswd
import FitProjects.Lib.Splits

/-! # Items that were not found

The client of `IPK/proj1` takes the number of a record for the number of the item that it belongs
to. The server adds one record for every login, but all records of a uid, so a uid with several
entries shifts the numbers behind it. A requested field with the byte of `NOT_FOUND` splits its
record and shifts them as well. -/

namespace RemotePasswd

/-- The messages of `main`. -/
def loginMessage (login : Str) : Str := ascii "Login \"" ++ login ++ ascii "\" was not found\n"

def uidMessage (uid : Nat) : Str := ascii "UID " ++ decimal uid ++ ascii " was not found\n"

/-- The items of a request: the message if there is no entry, and the entries that are printed. -/
def Request.items (db : List Entry) : Request → List (Str × List Entry)
  | logins ls => ls.map fun login =>
    (loginMessage login, (db.find? fun e => strcasecmp login e.pw_name).toList)
  | uids us => us.map fun uid => (uidMessage uid, db.filter fun e => e.pw_uid = uid)

/-- What is to be printed for an item. -/
def itemLines (cs : List Flag) : Str × List Entry → List Client.Line
  | (message, []) => [.cerr message]
  | (_, e :: found) => (e :: found).map fun e => .cout (row cs e)

/-- What `main` prints for the answer of the server, and whether it comes to its end. After an
exception of the client or of the server there are no records. -/
def Client.output (args : ClientArgs) (db : List Entry) : List Client.Line × Bool :=
  match Client.packets args with
  | .error _ => ([], false)
  | .ok (flagsPacket, dataPacket) =>
    match Server.receive (flagsPacket.buffer ++ dataPacket.buffer) with
    | .error _ => ([], false)
    | .ok (flags, received) =>
      Client.printRecords args 0 (records (Client.receive (Server.processData db flags received)))

/-- The client prints, item by item, the message that names the item if there is no entry, else the
rows of its entries. -/
def ReportsItems (opts : List Opt) (args : ClientArgs) (db : List Entry) : Prop :=
  Client.output args db = ((args.request.items db).flatMap (itemLines (columns opts)), true)

/-- No uid with several entries stands before one without an entry. -/
def Request.Aligned (db : List Entry) : Request → Prop
  | logins _ => True
  | uids us => us.Pairwise fun uid uid' =>
    (db.filter fun e => e.pw_uid = uid).length ≤ 1 ∨ ∃ e ∈ db, e.pw_uid = uid'

/-- The strings of the entry come from a line of text. -/
def Entry.IsText (e : Entry) : Prop :=
  ∀ s ∈ [e.pw_name, e.pw_gecos, e.pw_dir, e.pw_shell], 0 ∉ s ∧ DELIMETER ∉ s

/-- No requested field of an answer contains the byte of `NOT_FOUND`. -/
def Unmarked (flags : UInt8) (answers : List (Option Entry)) : Prop :=
  ∀ e, some e ∈ answers → ∀ s ∈ e.fields flags, NOT_FOUND ∉ s

variable {opts : List Opt} {args : ClientArgs} {db : List Entry} {flags : UInt8} {cs : List Flag}
  {e : Entry} {found : List Entry} {items : List (Str × List Entry)}

/-! ## The number of the records -/

theorem readRecord_ne_nil {record : List Str} (h : record ≠ []) (buffer : Str)
    (unread : List UInt8) : (readRecord record buffer unread).1 ≠ [] := by
  induction unread generalizing record buffer with
  | nil => exact h
  | cons c rest ih =>
    rw [readRecord]
    split
    · exact h
    · split
      · simp
      · split
        · exact ih (by simp) _
        · exact ih h _

/-- A record ends at the first mark or NUL. -/
theorem readRecord_rest {text : List UInt8} (h0 : 0 ∉ text) (hmark : NOT_FOUND ∉ text)
    {c : UInt8} (hc : c = 0 ∨ c = NOT_FOUND) (record : List Str) (buffer : Str)
    (rest : List UInt8) : (readRecord record buffer (text ++ c :: rest)).2 = c :: rest := by
  induction text generalizing record buffer with
  | nil =>
    rcases hc with rfl | rfl
    · rfl
    · rfl
  | cons b text ih =>
    rw [List.mem_cons, not_or] at h0 hmark
    rw [List.cons_append, readRecord, if_neg (Ne.symm h0.1), if_neg (Ne.symm hmark.1)]
    split
    · exact ih h0.2 hmark.2 _ _
    · exact ih h0.2 hmark.2 _ _

/-- A record with a delimiter in it is not empty. -/
theorem readRecord_ne_nil_of_mem {text : List UInt8} (h0 : 0 ∉ text) (hmark : NOT_FOUND ∉ text)
    (hdel : DELIMETER ∈ text) (record : List Str) (buffer : Str) (rest : List UInt8) :
    (readRecord record buffer (text ++ rest)).1 ≠ [] := by
  induction text generalizing record buffer with
  | nil => cases hdel
  | cons b text ih =>
    rw [List.mem_cons, not_or] at h0 hmark
    rw [List.cons_append, readRecord, if_neg (Ne.symm h0.1), if_neg (Ne.symm hmark.1)]
    by_cases hb : b = DELIMETER
    · rw [if_pos hb]
      exact readRecord_ne_nil (by simp) _ _
    · rw [if_neg hb]
      exact ih h0.2 hmark.2 ((List.mem_cons.mp hdel).resolve_left (Ne.symm hb)) _ _

theorem readRecord_mark_ne_nil {text : List UInt8} (h0 : 0 ∉ text) (hmark : NOT_FOUND ∉ text)
    (record : List Str) (buffer : Str) (rest : List UInt8) :
    (readRecord record buffer (text ++ NOT_FOUND :: rest)).1 ≠ [] := by
  induction text generalizing record buffer with
  | nil => simp [readRecord, NOT_FOUND]
  | cons b text ih =>
    rw [List.mem_cons, not_or] at h0 hmark
    rw [List.cons_append, readRecord, if_neg (Ne.symm h0.1), if_neg (Ne.symm hmark.1)]
    split
    · exact ih h0.2 hmark.2 _ _
    · exact ih h0.2 hmark.2 _ _

theorem length_records_cons {unread rest : List UInt8} {c : UInt8}
    (hne : (readRecord [] [] unread).1 ≠ []) (hrest : (readRecord [] [] unread).2 = c :: rest) :
    (records unread).length = (records rest).length + 1 := by
  have hget : (getRecord unread).1 ≠ [] := hne
  have hnext : (getRecord unread).2 = rest := by
    rw [getRecord]
    simp [hrest]
  rw [records, dif_neg hget, List.length_cons, hnext]

/-- Every mark in a text and its final NUL end a record. -/
theorem length_records_text {text : List UInt8} (h0 : 0 ∉ text) (rest : List UInt8) :
    (records (text ++ DELIMETER :: 0 :: rest)).length =
      text.count NOT_FOUND + 1 + (records rest).length := by
  by_cases hmark : NOT_FOUND ∈ text
  · obtain ⟨first, last, hsplit, hfirst⟩ := List.eq_append_cons_of_mem hmark
    have h0' : 0 ∉ first ∧ 0 ∉ last := by
      rw [hsplit] at h0
      simp only [List.mem_append, List.mem_cons, not_or] at h0
      exact ⟨h0.1, h0.2.2⟩
    have hlast : last.length < text.length := by
      rw [hsplit, List.length_append, List.length_cons]
      omega
    have ih := length_records_text h0'.2 rest
    rw [hsplit, List.append_assoc, List.cons_append,
      length_records_cons (readRecord_mark_ne_nil h0'.1 hfirst _ _ _)
        (readRecord_rest h0'.1 hfirst (.inr rfl) _ _ _), ih, List.count_append,
      List.count_eq_zero.mpr hfirst, List.count_cons_self]
    omega
  · have h0' : 0 ∉ text ++ [DELIMETER] := by simpa [DELIMETER] using h0
    have hmark' : NOT_FOUND ∉ text ++ [DELIMETER] := by
      simpa [DELIMETER, NOT_FOUND] using hmark
    have hassoc : text ++ DELIMETER :: 0 :: rest = text ++ [DELIMETER] ++ 0 :: rest := by simp
    rw [hassoc, length_records_cons (readRecord_ne_nil_of_mem h0' hmark' (by simp) _ _ _)
        (readRecord_rest h0' hmark' (.inl rfl) _ _ _), List.count_eq_zero.mpr hmark]
    omega
termination_by text.length

theorem Entry.IsText.of_mem (h : e.IsText) (flags : UInt8) :
    ∀ s ∈ e.fields flags, 0 ∉ s ∧ DELIMETER ∉ s := by
  intro s hs
  obtain ⟨f, -, rfl⟩ := List.mem_map.mp hs
  cases f with
  | uid => exact ⟨(isField_decimal _).1, (isField_decimal _).2.1⟩
  | gid => exact ⟨(isField_decimal _).1, (isField_decimal _).2.1⟩
  | userName => exact h _ (by simp [Entry.field])
  | name => exact h _ (by simp [Entry.field])
  | homeFolder => exact h _ (by simp [Entry.field])
  | shell => exact h _ (by simp [Entry.field])

/-- The marks inside the fields of an answer. -/
def marks (flags : UInt8) : Option Entry → Nat
  | none => 0
  | some e => ((e.fields flags).flatMap (· ++ [DELIMETER])).count NOT_FOUND

theorem marks_eq_zero_iff : marks flags (some e) = 0 ↔ ∀ s ∈ e.fields flags, NOT_FOUND ∉ s := by
  rw [marks, List.count_eq_zero]
  simp only [List.mem_flatMap, List.mem_append, List.mem_singleton, not_exists, not_and, not_or]
  exact forall₂_congr fun s _ => and_iff_left (by decide)

/-- Every answer gives a record, and so does every mark in its fields. -/
theorem length_records_answers (hne : requested flags ≠ []) {answers : List (Option Entry)}
    (htext : ∀ e, some e ∈ answers → e.IsText) :
    (records ((fieldAnswers flags answers).flatMap answerBytes)).length =
      answers.length + (answers.map (marks flags)).sum := by
  induction answers with
  | nil =>
    rw [fieldAnswers, List.map_nil, List.flatMap_nil, records]
    rfl
  | cons answer answers ih =>
    have ih := ih fun e he => htext e (List.mem_cons_of_mem _ he)
    cases answer with
    | none =>
      have hbytes : (fieldAnswers flags (none :: answers)).flatMap answerBytes =
          [] ++ NOT_FOUND :: (fieldAnswers flags answers).flatMap answerBytes := rfl
      have h0 : (0 : UInt8) ∉ ([] : List UInt8) := List.not_mem_nil
      have hmark : NOT_FOUND ∉ ([] : List UInt8) := List.not_mem_nil
      rw [hbytes, length_records_cons (readRecord_mark_ne_nil h0 hmark _ _ _)
        (readRecord_rest h0 hmark (.inr rfl) _ _ _), ih]
      simp [marks]
      omega
    | some e =>
      have hfields : e.fields flags ≠ [] := by simpa [Entry.fields] using hne
      obtain ⟨fields, s, hlast⟩ := (List.eq_nil_or_concat (e.fields flags)).resolve_left hfields
      let text := fields.flatMap (· ++ [DELIMETER]) ++ s
      have heq : (e.fields flags).flatMap (· ++ [DELIMETER]) = text ++ [DELIMETER] := by
        simp [hlast, text]
      have h0 : 0 ∉ text ++ [DELIMETER] := by
        rw [← heq]
        intro hmem
        obtain ⟨s', hs', hmem⟩ := List.mem_flatMap.mp hmem
        have hs'0 := ((htext e List.mem_cons_self).of_mem flags s' hs').1
        simp [hs'0, DELIMETER] at hmem
      have hbytes : (fieldAnswers flags (some e :: answers)).flatMap answerBytes =
          text ++ DELIMETER :: 0 :: (fieldAnswers flags answers).flatMap answerBytes := by
        have hhead : answerBytes (some (e.fields flags)) = text ++ [DELIMETER] ++ [0] := by
          rw [answerBytes, heq]
        change answerBytes (some (e.fields flags)) ++
          (fieldAnswers flags answers).flatMap answerBytes = _
        rw [hhead]
        simp
      have hmarks : marks flags (some e) = text.count NOT_FOUND := by
        rw [marks, heq, List.count_append]
        rfl
      rw [hbytes, length_records_text (fun h => h0 (List.mem_append_left _ h)), ih,
        List.length_cons, List.map_cons, List.sum_cons, hmarks]
      omega

theorem length_records_eq_iff (hne : requested flags ≠ []) {answers : List (Option Entry)}
    (htext : ∀ e, some e ∈ answers → e.IsText) :
    (records ((fieldAnswers flags answers).flatMap answerBytes)).length = answers.length ↔
      Unmarked flags answers := by
  rw [length_records_answers hne htext, Nat.add_eq_left, List.sum_eq_zero_iff_forall_eq_nat,
    List.forall_mem_map]
  constructor
  · exact fun h e he => marks_eq_zero_iff.mp (h (some e) he)
  · intro h answer hanswer
    cases answer with
    | none => rfl
    | some e => exact marks_eq_zero_iff.mpr (h e hanswer)

/-! ## The printed lines -/

/-- The answers to one item. -/
def itemAnswers : List Entry → List (Option Entry)
  | [] => [none]
  | e :: found => (e :: found).map some

theorem answers_eq_flatMap (db : List Entry) (r : Request) :
    r.answers db = (r.items db).flatMap fun item => itemAnswers item.2 := by
  cases r with
  | logins ls =>
    rw [Request.answers, Request.items, List.flatMap_map]
    induction ls with
    | nil => rfl
    | cons login ls ih =>
      rw [List.map_cons, List.flatMap_cons, ih]
      cases db.find? fun e => strcasecmp login e.pw_name <;> rfl
  | uids us =>
    rw [Request.answers, Request.items, List.flatMap_map]
    refine List.flatMap_congr fun uid _ => ?_
    cases db.filter fun e => e.pw_uid = uid <;> rfl

theorem length_itemLines (cs : List Flag) (item : Str × List Entry) :
    (itemLines cs item).length = (itemAnswers item.2).length := by
  obtain ⟨message, _ | ⟨e, found⟩⟩ := item
  · rfl
  · simp [itemLines, itemAnswers]

theorem length_printRecord (hlist : args.checkFlag ClientArgs.LOGINS = true ∨
    args.checkFlag ClientArgs.UIDS = true) {i : Nat} {record : List Str} {lines : List Client.Line}
    (h : Client.printRecord args i record = some lines) : lines.length = 1 := by
  rw [Client.printRecord] at h
  split at h
  · split at h
    · obtain ⟨login, -, h⟩ := Option.bind_eq_some_iff.mp h
      obtain rfl := Option.some.inj h
      rfl
    · rename_i hlogins
      rw [if_pos (hlist.resolve_left hlogins)] at h
      obtain ⟨uid, -, h⟩ := Option.bind_eq_some_iff.mp h
      obtain rfl := Option.some.inj h
      rfl
  · obtain ⟨row, -, h⟩ := Option.bind_eq_some_iff.mp h
    obtain rfl := Option.some.inj h
    rfl

/-- A loop that comes to its end prints one line for each record. -/
theorem length_printRecords (hlist : args.checkFlag ClientArgs.LOGINS = true ∨
    args.checkFlag ClientArgs.UIDS = true) {i : Nat} {records : List (List Str)}
    {lines : List Client.Line} (h : Client.printRecords args i records = (lines, true)) :
    lines.length = records.length := by
  induction records generalizing i lines with
  | nil =>
    obtain rfl := (Prod.mk.inj h).1
    rfl
  | cons record records ih =>
    rw [Client.printRecords] at h
    cases hrecord : Client.printRecord args i record with
    | none =>
      rw [hrecord] at h
      cases h
    | some first =>
      rw [hrecord] at h
      obtain ⟨rfl, hend⟩ := Prod.mk.inj h
      rw [List.length_append, length_printRecord hlist hrecord, ih (Prod.ext rfl hend),
        List.length_cons, Nat.add_comm]

/-- The message for record `i` is the one of item `i`. -/
theorem printRecord_notFound_eq (hlist : args.checkFlag ClientArgs.LOGINS = true ∨
    args.checkFlag ClientArgs.UIDS = true) (db : List Entry) (i : Nat) :
    Client.printRecord args i [[NOT_FOUND]] =
      ((args.request.items db).map Prod.fst)[i]?.map fun message => [.cerr message] := by
  have hmark : ([[NOT_FOUND]].head?.bind List.head?) = some NOT_FOUND := rfl
  rw [Client.printRecord, if_pos hmark, ClientArgs.request]
  by_cases hlogins : args.checkFlag ClientArgs.LOGINS = true
  · rw [if_pos hlogins, if_pos hlogins, Request.items, List.map_map, List.getElem?_map]
    cases args.m_logins[i]? <;> rfl
  · rw [if_neg hlogins, if_neg hlogins, if_pos (hlist.resolve_left hlogins), Request.items,
      List.map_map, List.getElem?_map]
    cases args.m_uids[i]? <;> rfl

/-- Rows of one item in front of other records. -/
theorem printRecords_rows (hprint : ∀ e ∈ found, ∀ i, Client.printRecord args i (e.fields flags) =
    some [.cout (row cs e)]) (i : Nat) (answers : List (Option Entry)) :
    Client.printRecords args i (clientRecords flags (found.map some ++ answers)) =
      (found.map (fun e => .cout (row cs e)) ++
          (Client.printRecords args (i + found.length) (clientRecords flags answers)).1,
        (Client.printRecords args (i + found.length) (clientRecords flags answers)).2) := by
  induction found generalizing i with
  | nil => rfl
  | cons e found ih =>
    rw [List.forall_mem_cons] at hprint
    have hrecords : clientRecords flags ((e :: found).map some ++ answers) =
        e.fields flags :: clientRecords flags (found.map some ++ answers) := rfl
    rw [hrecords, Client.printRecords, hprint.1, ih hprint.2]
    simp [Nat.add_assoc, Nat.add_comm 1]

section
variable {messages : List Str}
  (hnone : ∀ i, Client.printRecord args i [[NOT_FOUND]] =
    messages[i]?.map fun message => [.cerr message])
include hnone

/-- The records of one item in front of other records. -/
theorem printRecords_item_iff {item : Str × List Entry} (hprint : ∀ e ∈ item.2, ∀ i,
      Client.printRecord args i (e.fields flags) = some [.cout (row cs e)])
    (i : Nat) (answers : List (Option Entry)) (lines : List Client.Line) :
    Client.printRecords args i (clientRecords flags (itemAnswers item.2 ++ answers)) =
        (itemLines cs item ++ lines, true) ↔
      (item.2 = [] → messages[i]? = some item.1) ∧
        Client.printRecords args (i + (itemAnswers item.2).length) (clientRecords flags answers) =
          (lines, true) := by
  obtain ⟨message, _ | ⟨e, found⟩⟩ := item
  · have hrecords : clientRecords flags (itemAnswers [] ++ answers) =
        [[NOT_FOUND]] :: clientRecords flags answers := rfl
    rw [hrecords, Client.printRecords, hnone]
    cases hi : messages[i]? with
    | none => simp
    | some m =>
      rw [Prod.ext_iff (x := Client.printRecords args _ _)]
      simp [itemLines, itemAnswers, and_assoc]
  · rw [Prod.ext_iff (x := Client.printRecords args (i + _) _)]
    have hrows := printRecords_rows hprint i answers
    simp only [itemAnswers, itemLines, hrows, Prod.mk.injEq, List.append_cancel_left_eq,
      List.length_map, reduceCtorEq, false_imp_iff, true_and]

/-- Without marks in the fields the output is right if the record of every item without an entry
has a number whose item gives the same message. -/
theorem printRecords_items_iff (hprint : ∀ item ∈ items, ∀ e ∈ item.2, ∀ i,
      Client.printRecord args i (e.fields flags) = some [.cout (row cs e)]) (i : Nat) :
    Client.printRecords args i
        (clientRecords flags (items.flatMap fun item => itemAnswers item.2)) =
        (items.flatMap (itemLines cs), true) ↔
      ∀ pre item post, items = pre ++ item :: post → item.2 = [] →
        messages[i + (pre.flatMap fun item => itemAnswers item.2).length]? = some item.1 := by
  induction items generalizing i with
  | nil => simp [Client.printRecords, clientRecords, fieldAnswers]
  | cons item items ih =>
    rw [List.forall_mem_cons] at hprint
    rw [List.forall_split_cons, List.flatMap_cons, List.flatMap_cons,
      printRecords_item_iff hnone hprint.1, ih hprint.2]
    simp only [List.flatMap_cons, List.length_append, List.flatMap_nil, List.length_nil,
      Nat.add_zero, Nat.add_assoc]

end

/-! ## The numbers of the items -/

theorem length_itemAnswers (found : List Entry) :
    (itemAnswers found).length = max 1 found.length := by
  cases found with
  | nil => rfl
  | cons e found =>
    rw [itemAnswers, List.length_map, List.length_cons]
    omega

/-- The numbers of the records are those of the items as far as no item has several entries. -/
theorem length_answers_of_le {pre : List (Str × List Entry)} (h : ∀ item ∈ pre, item.2.length ≤ 1) :
    (pre.flatMap fun item => itemAnswers item.2).length = pre.length := by
  induction pre with
  | nil => rfl
  | cons item pre ih =>
    rw [List.forall_mem_cons] at h
    rw [List.flatMap_cons, List.length_append, length_itemAnswers, ih h.2, List.length_cons]
    omega

theorem le_length_answers (pre : List (Str × List Entry)) :
    pre.length ≤ (pre.flatMap fun item => itemAnswers item.2).length := by
  induction pre with
  | nil => exact Nat.le_refl 0
  | cons item pre ih =>
    rw [List.flatMap_cons, List.length_append, length_itemAnswers, List.length_cons]
    omega

/-- An item with several entries shifts what follows. -/
theorem lt_length_answers {pre : List (Str × List Entry)} {item : Str × List Entry}
    (hmem : item ∈ pre) (hlen : 1 < item.2.length) :
    pre.length < (pre.flatMap fun item => itemAnswers item.2).length := by
  obtain ⟨front, back, rfl⟩ := List.mem_iff_append.mp hmem
  have hfront := le_length_answers front
  have hback := le_length_answers back
  rw [List.flatMap_append, List.flatMap_cons, List.length_append, List.length_append,
    List.length_append, List.length_cons, length_itemAnswers]
  omega

/-- If the message tells whether there is an entry, every item without an entry has its own number
exactly if no item with several entries stands before it. -/
theorem messages_iff_pairwise
    (hmessage : ∀ item ∈ items, ∀ item' ∈ items, item.1 = item'.1 → item.2 = item'.2) :
    (∀ pre item post, items = pre ++ item :: post → item.2 = [] →
        (items.map Prod.fst)[0 + (pre.flatMap fun item => itemAnswers item.2).length]? =
          some item.1) ↔
      items.Pairwise fun item item' => item.2.length ≤ 1 ∨ item'.2 ≠ [] := by
  constructor
  · intro h
    by_cases hnone : ∃ item ∈ items, item.2 = []
    · obtain ⟨pre, item, post, heq, hitem, hpost⟩ := List.exists_last hnone
      have hnumber := h pre item post heq hitem
      rw [Nat.zero_add] at hnumber
      have hle : ∀ item' ∈ pre, item'.2.length ≤ 1 := by
        intro item' hmem
        by_contra hgt
        -- the number belongs to an item behind the last one without an entry
        have hlt := lt_length_answers hmem (Nat.lt_of_not_le hgt)
        have hmap : (pre.map Prod.fst).length ≤
            (pre.flatMap fun item => itemAnswers item.2).length := by
          rw [List.length_map]
          exact hlt.le
        rw [heq, List.map_append, List.map_cons, List.getElem?_append_right hmap, List.length_map,
          ← Nat.succ_pred_eq_of_pos (Nat.sub_pos_of_lt hlt),
          List.getElem?_cons_succ] at hnumber
        obtain ⟨item'', hmem'', hsame⟩ := List.mem_map.mp (List.mem_of_getElem? hnumber)
        refine hpost item'' hmem'' ?_
        rw [hmessage item'' (by simp [heq, hmem'']) item (by simp [heq]) hsame, hitem]
      rw [heq, List.pairwise_append, List.pairwise_cons]
      refine ⟨?_, ⟨fun _ _ => .inl (by simp [hitem]), ?_⟩, fun a ha b _ => .inl (hle a ha)⟩
      · exact List.pairwise_of_forall_mem_list fun a ha b _ => .inl (hle a ha)
      · exact List.pairwise_of_forall_mem_list fun a _ b hb => .inr (hpost b hb)
    · exact List.pairwise_of_forall_mem_list fun a _ b hb => .inr fun h => hnone ⟨b, hb, h⟩
  · rintro h pre item post rfl hitem
    have hle : ∀ item' ∈ pre, item'.2.length ≤ 1 := fun item' hmem =>
      ((List.pairwise_append.mp h).2.2 item' hmem item List.mem_cons_self).resolve_right
        (not_not.mpr hitem)
    rw [Nat.zero_add, length_answers_of_le hle, List.map_append, List.map_cons,
      List.getElem?_append_right (by simp)]
    simp

/-- The message of an item names it. -/
theorem found_eq_of_message_eq (r : Request) (db : List Entry) :
    ∀ item ∈ r.items db, ∀ item' ∈ r.items db, item.1 = item'.1 → item.2 = item'.2 := by
  cases r with
  | logins ls =>
    simp only [Request.items, List.forall_mem_map]
    intro login _ login' _ h
    rw [loginMessage, loginMessage, List.append_left_inj, List.append_right_inj] at h
    rw [h]
  | uids us =>
    simp only [Request.items, List.forall_mem_map]
    intro uid _ uid' _ h
    rw [uidMessage, uidMessage, List.append_left_inj, List.append_right_inj] at h
    rw [Decimal.print_injective h]

theorem pairwise_items_iff (r : Request) (db : List Entry) :
    (r.items db).Pairwise (fun item item' => item.2.length ≤ 1 ∨ item'.2 ≠ []) ↔ r.Aligned db := by
  cases r with
  | logins ls =>
    refine iff_of_true ?_ trivial
    refine List.pairwise_map.mpr (List.pairwise_of_forall fun login _ => .inl ?_)
    cases db.find? fun e => strcasecmp login e.pw_name <;> simp
  | uids us =>
    rw [Request.items, List.pairwise_map, Request.Aligned]
    refine List.Pairwise.iff fun uid uid' => or_congr_right ?_
    simp [List.filter_eq_nil_iff]

/-- The client names the items without an entry exactly if no uid with several entries stands
before a uid without an entry, and no requested field contains the mark. The sizes of the request and
of the answer fit in three bytes. -/
theorem reportsItems_iff (hparse : ClientArgs.parse opts = .ok args)
    (hvalid : args.checkValidity = .ok ()) (hdb : ∀ e ∈ db, e.IsText)
    (hlogins : ∀ login ∈ args.m_logins, 0 ∉ login) (huids : ∀ uid ∈ args.m_uids, uid < 2 ^ 31)
    (hrequest : Client.dataSize args.request < 2 ^ 24)
    (hresponse : Server.dataSize (Server.loadData db args.requestFlags args.request) < 2 ^ 24) :
    ReportsItems opts args db ↔
      args.request.Aligned db ∧ Unmarked args.requestFlags (args.request.answers db) := by
  have hparsed := ClientArgs.parsed_of_parse hparse
  obtain ⟨hlist, hcolumns⟩ := hparsed.of_checkValidity hvalid
  have hflags := hparsed.and_bit_ne_zero
  have hrequested : requested args.requestFlags ≠ [] := by
    obtain ⟨f, hf⟩ := List.exists_mem_of_ne_nil _ hcolumns
    exact List.ne_nil_of_mem (mem_requested.mpr ((hflags f).mpr hf))
  have htext : ∀ e, some e ∈ args.request.answers db → e.IsText :=
    fun e he => hdb e (Request.mem_of_answers he)
  obtain ⟨flagsPacket, dataPacket, received, hpackets, hreceive, -, hbytes⟩ :=
    exchange hparse hvalid hlogins huids hrequest hresponse
  have houtput : Client.output args db = Client.printRecords args 0 (records
      ((fieldAnswers args.requestFlags (args.request.answers db)).flatMap answerBytes)) := by
    rw [Client.output, hpackets, ← hbytes]
    dsimp only
    rw [hreceive]
  rw [ReportsItems, houtput]
  by_cases hmark : Unmarked args.requestFlags (args.request.answers db)
  · rw [and_iff_left hmark]
    have hfield : ∀ e, some e ∈ args.request.answers db → ∀ s ∈ e.fields args.requestFlags,
        IsField s := fun e he s hs =>
      ⟨((htext e he).of_mem _ s hs).1, ((htext e he).of_mem _ s hs).2, hmark e he s hs⟩
    have hrecords : records
        ((fieldAnswers args.requestFlags (args.request.answers db)).flatMap answerBytes) =
        clientRecords args.requestFlags (args.request.answers db) := by
      refine records_answers fun fields hfields => ?_
      obtain ⟨e, he, rfl⟩ := exists_of_mem_fieldAnswers hfields
      exact ⟨by rw [Entry.fields, ne_eq, List.map_eq_nil_iff]; exact hrequested, hfield e he⟩
    have hprint : ∀ item ∈ args.request.items db, ∀ e ∈ item.2, ∀ i,
        Client.printRecord args i (e.fields args.requestFlags) =
          some [.cout (row (columns opts) e)] := by
      intro item hitem e he
      refine printRecord_fields hparsed.nodup hcolumns hflags hparsed.order (hfield e ?_)
      rw [answers_eq_flatMap, List.mem_flatMap]
      refine ⟨item, hitem, ?_⟩
      obtain ⟨message, _ | ⟨e', found⟩⟩ := item
      · cases he
      · exact List.mem_map_of_mem he
    rw [hrecords, answers_eq_flatMap,
      printRecords_items_iff (printRecord_notFound_eq hlist db) hprint,
      messages_iff_pairwise (found_eq_of_message_eq _ db), pairwise_items_iff]
  · refine iff_of_false (fun h => hmark ?_) fun h => hmark h.2
    rw [← length_records_eq_iff hrequested htext, ← length_printRecords hlist h,
      answers_eq_flatMap, List.length_flatMap, List.length_flatMap]
    simp only [length_itemLines]

/-- `-h s -p 1 -u 1 2 3 -U`. -/
def uidOpts : List Opt := [.hostname [115], .port 1, .uids [1, 2, 3], .column .uid]

def uidArgs : ClientArgs := ⟨0x02B, [115], 1, [1], [], [1, 2, 3]⟩

/-- Two entries have the uid 1, one has the uid 3. -/
def sharedUid : List Entry := [⟨[97], 1, 0, [], [], []⟩, ⟨[98], 1, 0, [], [], []⟩,
  ⟨[99], 3, 0, [], [], []⟩]

theorem isText_sharedUid : ∀ e ∈ sharedUid, e.IsText := by
  simp [sharedUid, Entry.IsText, DELIMETER]

theorem reportsItems_iff_uidOpts :
    ReportsItems uidOpts uidArgs sharedUid ↔ uidArgs.request.Aligned sharedUid ∧
      Unmarked uidArgs.requestFlags (uidArgs.request.answers sharedUid) :=
  reportsItems_iff (show ClientArgs.parse uidOpts = .ok uidArgs by rfl) (by rfl) isText_sharedUid
    (by decide) (by decide) (by decide) (by decide)

deriving instance DecidableEq for Client.Line

/-- The client says that the uid 3 was not found, and prints its row. -/
theorem output_sharedUid : Client.output uidArgs sharedUid =
    ([.cout (ascii "1\n"), .cout (ascii "1\n"), .cerr (ascii "UID 3 was not found\n"),
      .cout (ascii "3\n")], true) := by
  decide +kernel

theorem not_reportsItems_sharedUid :
    ¬ ∀ (opts : List Opt) (args : ClientArgs) (db : List Entry), ClientArgs.parse opts = .ok args →
      args.checkValidity = .ok () → (∀ e ∈ db, e.IsText) → ReportsItems opts args db := by
  intro h
  have hreport := h uidOpts uidArgs sharedUid (by rfl) (by rfl) isText_sharedUid
  rw [ReportsItems, output_sharedUid] at hreport
  exact absurd hreport (by decide +kernel)

end RemotePasswd
