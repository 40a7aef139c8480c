import FitProjects.Lib.Table
import FitProjects.Lib.System
import Mathlib.Data.List.Induction
import Mathlib.Logic.Function.Basic

/-! # The stock of the e-shop

The tables of `db_eshop.sql` that the orders touch, and the three requests that change the stock:
`OrderSubmitted` takes the items of a cart from it, `orderSupplierProductFormSucceeded` orders from
a supplier, and `actionAcceptSupplierOrder` adds what arrives. The cart is not part of the
repository; a request carries what it holds.

The server refuses a number that does not fit into its `int(11)` column. There are no transactions:
the request ends there, and what it has written before stays. The texts of the order form are taken
to fit. -/

namespace Eshop

/-- The range of an `int(11)` column. -/
def IsInt (n : Int) : Prop := -2 ^ 31 ≤ n ∧ n < 2 ^ 31

instance : DecidablePred IsInt := fun _ => inferInstanceAs (Decidable (_ ∧ _))

/-- `product` -/
structure Product where
  sklad : Int
  isInt : IsInt sklad
  deriving DecidableEq, Repr

/-- `dodavatel_produkt` -/
structure DodavatelProdukt where
  id_dodavatel : Nat
  id_produkt : Nat
  doba : Int
  deriving DecidableEq, Repr

inductive Stav | objednane | dokoncene
  deriving DecidableEq, Repr

/-- `objednavka_produkt` -/
structure ObjednavkaProdukt where
  id_dodavatel : Nat
  id_predajca : Nat
  id_produkt : Nat
  mnozstvo : Int
  doba : Int
  stav : Stav
  deriving DecidableEq, Repr

/-- The values of the order form. -/
structure OrderForm where
  telefon : String
  mesto : String
  ulice : String
  psc : String
  sposob_dopravy : String
  sposob_platby : String
  poznamka : String
  deriving DecidableEq, Repr

/-- `objednavka` -/
structure Objednavka extends OrderForm where
  id_zakaznik : Nat
  cena : Int
  deriving DecidableEq, Repr

/-- `obsah_objednavky` -/
structure ObsahObjednavky where
  id_objednavky : Nat
  id_produkt : Nat
  mnozstvo : Int
  cena : Int
  deriving DecidableEq, Repr

/-- `kosik` -/
structure Kosik where
  id_zakaznik : Nat
  id_produkt : Nat
  mnozstvo : Int
  deriving DecidableEq, Repr

/-- The tables, with the foreign key of a supplier order. -/
structure Database where
  users : List Nat
  product : Table Product
  dodavatel_produkt : List DodavatelProdukt
  objednavka_produkt : Table ObjednavkaProdukt
  objednavka : Table Objednavka
  obsah_objednavky : List ObsahObjednavky
  kosik : List Kosik
  objednavka_produkt_ibfk_2 : ∀ r ∈ objednavka_produkt.rows, r.2.id_produkt ∈ product.ids

structure CartItem where
  id : Nat
  quantity : Int
  price : Int
  deriving DecidableEq, Repr

/-- The cart of the session. -/
structure Cart where
  id : Nat
  items : List CartItem
  total : Int
  deriving DecidableEq, Repr

/-- The row of a product is replaced. -/
def Database.setProduct (db : Database) (id : Nat) (r : Product) : Database :=
  { db with
    product := db.product.update id fun _ => r
    objednavka_produkt_ibfk_2 := fun r hr => by
      rw [Table.ids_update]
      exact db.objednavka_produkt_ibfk_2 r hr }

/-- `UPDATE product SET sklad=sklad+? WHERE id=?`; nothing when the sum is refused. -/
def Database.updateSklad (db : Database) (id : Nat) (n : Int) : Option Database :=
  match db.product.get id with
  | none => some db
  | some r => if h : IsInt (r.sklad + n) then some (db.setProduct id ⟨r.sklad + n, h⟩) else none

/-- One turn of the loop of `OrderSubmitted`. The row is refused when there is no such product, and
when a number does not fit. An error comes with the database as it stands then. -/
def orderItem (id_obj : Nat) (db : Database) (item : CartItem) : Except Database Database :=
  match db.updateSklad item.id (-item.quantity) with
  | none => .error db
  | some db =>
    if item.id ∈ db.product.ids ∧ IsInt item.quantity ∧ IsInt item.price then
      .ok { db with obsah_objednavky := db.obsah_objednavky ++
        [⟨id_obj, item.id, item.quantity, item.price⟩] }
    else .error db

/-- `OrderSubmitted` -/
def orderSubmitted (data : OrderForm) (cart : Cart) (db : Database) : Except Database Database :=
  if IsInt cart.total then do
    let id_obj := db.objednavka.next
    let db := { db with objednavka := db.objednavka.insert ⟨data, cart.id, cart.total⟩ }
    let db ← cart.items.foldlM (orderItem id_obj) db
    return { db with kosik := db.kosik.filter (·.id_zakaznik ≠ cart.id) }
  else .error db

/-- `actionOrderSupplierProduct` and `orderSupplierProductFormSucceeded`: an order for a product
that the supplier has. -/
def orderSupplierProductFormSucceeded (id idp user : Nat) (mnozstvo : Int) (db : Database) :
    Except Database Database :=
  match db.dodavatel_produkt.find? fun r => r.id_dodavatel = id ∧ r.id_produkt = idp with
  | none => .error db
  | some supplier =>
    if h : (user ∈ db.users ∧ idp ∈ db.product.ids) ∧ IsInt mnozstvo then
      .ok { db with
        objednavka_produkt := db.objednavka_produkt.insert
          ⟨id, user, idp, mnozstvo, supplier.doba, .objednane⟩
        objednavka_produkt_ibfk_2 := fun r hr => by
          rcases List.mem_append.mp hr with hr | hr
          · exact db.objednavka_produkt_ibfk_2 r hr
          · rw [List.mem_singleton.mp hr]
            exact h.1.2 }
    else .error db

/-- `UPDATE objednavka_produkt SET stav='Dokoncene' WHERE id=?` -/
def Database.complete (db : Database) (id : Nat) : Database :=
  { db with
    objednavka_produkt := db.objednavka_produkt.update id fun r => { r with stav := .dokoncene }
    objednavka_produkt_ibfk_2 := fun r hr => by
      obtain ⟨r', hr', rfl⟩ := List.mem_map.mp hr
      have := db.objednavka_produkt_ibfk_2 r' hr'
      split <;> exact this }

/-- `actionAcceptSupplierOrder` -/
def actionAcceptSupplierOrder (id : Nat) (db : Database) : Except Database Database :=
  match db.objednavka_produkt.get id with
  | none => .error db
  | some order =>
    let db := db.complete id
    match db.updateSklad order.id_produkt order.mnozstvo with
    | none => .error db
    | some db => .ok db

/-- The requests that change the stock. -/
inductive Request
  | orderSubmitted (data : OrderForm) (cart : Cart)
  | orderSupplierProduct (id idp user : Nat) (mnozstvo : Int)
  | acceptSupplierOrder (id : Nat)
  deriving DecidableEq, Repr

/-- The database behind a request, which may have ended with an error. -/
def left : Except Database Database → Database
  | .ok db | .error db => db

/-- The e-shop, from a database on. -/
def eshop (db : Database) : System Database Request where
  init := db
  step db
    | .orderSubmitted data cart => some (left (orderSubmitted data cart db))
    | .orderSupplierProduct id idp user mnozstvo =>
      some (left (orderSupplierProductFormSucceeded id idp user mnozstvo db))
    | .acceptSupplierOrder id => some (left (actionAcceptSupplierOrder id db))

/-! ### The books -/

/-- The stock of a product. -/
def Database.sklad (db : Database) (p : Nat) : Int :=
  ((db.product.get p).map Product.sklad).getD 0

/-- What the completed supplier orders of a product hold. -/
def Database.dokoncene (db : Database) (p : Nat) : Int :=
  db.objednavka_produkt.sum fun r => if r.id_produkt = p ∧ r.stav = .dokoncene then r.mnozstvo else 0

/-- What customers have ordered of a product. -/
def Database.prodane (db : Database) (p : Nat) : Int :=
  (db.obsah_objednavky.map fun r => if r.id_produkt = p then r.mnozstvo else 0).sum

/-- The stock of every product has grown since `db` by what suppliers have delivered and shrunk by
what customers have ordered since. -/
def Balanced (db s : Database) : Prop :=
  ∀ p ∈ db.product.ids, s.sklad p =
    db.sklad p + (s.dokoncene p - db.dokoncene p) - (s.prodane p - db.prodane p)

/-- Both numbers of an item fit into `obsah_objednavky`. -/
def CartItem.Written (item : CartItem) : Prop := IsInt item.quantity ∧ IsInt item.price

instance (item : CartItem) : Decidable item.Written := inferInstanceAs (Decidable (_ ∧ _))

/-- As the items are taken from the stock one after the other, one is taken that is not written
down. -/
def Unwritten (ids : List Nat) (sklad : Nat → Int) : List CartItem → Prop
  | [] => False
  | item :: items =>
    (item.id ∈ ids ∧ IsInt (sklad item.id - item.quantity)) ∧
      if item.Written then
        Unwritten ids (Function.update sklad item.id (sklad item.id - item.quantity)) items
      else item.quantity ≠ 0

/-- The request unbalances the books: an order that holds something is accepted again and fits into
the stock, or is accepted for the first time and does not fit, or an item leaves the stock without
being written down. -/
def Spoils (db : Database) : Request → Prop
  | .orderSubmitted _ cart => IsInt cart.total ∧ Unwritten db.product.ids db.sklad cart.items
  | .orderSupplierProduct .. => False
  | .acceptSupplierOrder i =>
    ∃ r, db.objednavka_produkt.get i = some r ∧ r.mnozstvo ≠ 0 ∧
      (r.stav = .dokoncene ↔ IsInt (db.sklad r.id_produkt + r.mnozstvo))

/-- The stock less what came and what went. -/
def Database.balance (db : Database) (p : Nat) : Int := db.sklad p - db.dokoncene p + db.prodane p

theorem balanced_iff_balance : Balanced db s ↔ ∀ p ∈ db.product.ids, s.balance p = db.balance p := by
  refine forall₂_congr fun p _ => ?_
  simp only [Database.balance]
  constructor <;> intro <;> omega

namespace Database

variable {db : Database}

@[simp] theorem setProduct_ids : (db.setProduct i r).product.ids = db.product.ids :=
  Table.ids_update

theorem setProduct_sklad (h : i ∈ db.product.ids) :
    (db.setProduct i r).sklad p = if p = i then r.sklad else db.sklad p := by
  simp only [sklad, setProduct, Table.get_update]
  split
  next hp =>
    obtain ⟨r', hr'⟩ := Table.mem_ids_iff.mp h
    simp [hp, hr']
  next => rfl

@[simp] theorem setProduct_dokoncene : (db.setProduct i r).dokoncene p = db.dokoncene p := rfl

@[simp] theorem setProduct_prodane : (db.setProduct i r).prodane p = db.prodane p := rfl

theorem updateSklad_of_notMem (h : i ∉ db.product.ids) : db.updateSklad i n = some db := by
  rw [updateSklad, Table.get_eq_none_iff.mpr h]

/-- The stock is changed when the sum fits. -/
theorem updateSklad_cases (h : i ∈ db.product.ids) (n : Int) :
    (IsInt (db.sklad i + n) ∧ ∃ r, r.sklad = db.sklad i + n ∧
        db.updateSklad i n = some (db.setProduct i r)) ∨
      ¬ IsInt (db.sklad i + n) ∧ db.updateSklad i n = none := by
  obtain ⟨r, hr⟩ := Table.mem_ids_iff.mp h
  have hsklad : db.sklad i = r.sklad := by
    rw [sklad, hr]
    rfl
  rw [hsklad, updateSklad, hr]
  by_cases hint : IsInt (r.sklad + n)
  · exact .inl ⟨hint, ⟨r.sklad + n, hint⟩, rfl, dif_pos hint⟩
  · exact .inr ⟨hint, dif_neg hint⟩

@[simp] theorem complete_ids : (db.complete i).product.ids = db.product.ids := rfl

@[simp] theorem complete_sklad : (db.complete i).sklad p = db.sklad p := rfl

@[simp] theorem complete_prodane : (db.complete i).prodane p = db.prodane p := rfl

/-- An order that was completed already is not counted again. -/
theorem complete_dokoncene (h : db.objednavka_produkt.get i = some r) :
    (db.complete i).dokoncene p =
      db.dokoncene p + if r.id_produkt = p ∧ r.stav ≠ .dokoncene then r.mnozstvo else 0 := by
  simp only [dokoncene, complete, Table.sum_update h]
  by_cases hp : r.id_produkt = p <;> by_cases hs : r.stav = .dokoncene <;> simp [hp, hs]

end Database

/-! ### What a request does to the books -/

/-- A change that keeps the products, adds `n` to the balance of one and keeps that of the others. -/
structure Adds (db s : Database) (i : Nat) (n : Int) : Prop where
  ids : s.product.ids = db.product.ids
  balance : ∀ p, s.balance p = db.balance p + if p = i then n else 0

theorem Adds.refl (db : Database) (i : Nat) : Adds db db i 0 := ⟨rfl, fun p => by simp⟩

theorem Adds.zero_trans {a b e : Database} (h : Adds a b j 0) (h' : Adds b e i n) :
    Adds a e i n where
  ids := h'.ids.trans h.ids
  balance p := by rw [h'.balance, h.balance, ite_self, Int.add_zero]

/-- What a request does to the books, and when it spoils them. -/
structure Effect (db s : Database) (spoils : Prop) (i : Nat) (n : Int) : Prop extends
    Adds db s i n where
  spoils_iff : spoils ↔ n ≠ 0
  mem : n ≠ 0 → i ∈ db.product.ids

/-- What keeps the balance spoils nothing. -/
theorem Adds.effect {db s : Database} {spoils : Prop} (h : Adds db s i 0) (hs : ¬ spoils) :
    Effect db s spoils i 0 :=
  { h with spoils_iff := iff_of_false hs fun h => h rfl, mem := fun h => absurd rfl h }

section items
variable {db : Database} {item : CartItem}

/-- An item that is not there or does not fit into the stock changes nothing. -/
theorem orderItem_refused (h : ¬ (item.id ∈ db.product.ids ∧
    IsInt (db.sklad item.id - item.quantity))) : orderItem id_obj db item = .error db := by
  rw [orderItem]
  by_cases hmem : item.id ∈ db.product.ids
  · rcases db.updateSklad_cases hmem (-item.quantity) with ⟨hint, -⟩ | ⟨-, hset⟩
    · exact absurd ⟨hmem, hint⟩ h
    · rw [hset]
  · rw [Database.updateSklad_of_notMem hmem]
    exact if_neg fun h => hmem h.1

/-- The stock that is left when an item is taken. -/
theorem exists_updateSklad (hmem : item.id ∈ db.product.ids)
    (hint : IsInt (db.sklad item.id - item.quantity)) :
    ∃ r, db.updateSklad item.id (-item.quantity) = some (db.setProduct item.id r) ∧
      (db.setProduct item.id r).sklad =
        Function.update db.sklad item.id (db.sklad item.id - item.quantity) := by
  rcases db.updateSklad_cases hmem (-item.quantity) with ⟨-, r, hr, hset⟩ | ⟨hint', -⟩
  · refine ⟨r, hset, funext fun p => ?_⟩
    rw [Database.setProduct_sklad hmem, Function.update_apply, hr, Int.sub_eq_add_neg]
  · exact absurd hint hint'

/-- What leaves the stock is written down. -/
theorem orderItem_written (id_obj : Nat) (hmem : item.id ∈ db.product.ids)
    (hint : IsInt (db.sklad item.id - item.quantity)) (hwritten : item.Written) :
    ∃ s, orderItem id_obj db item = .ok s ∧ Adds db s item.id 0 ∧
      s.sklad = Function.update db.sklad item.id (db.sklad item.id - item.quantity) := by
  obtain ⟨r, hset, hsklad⟩ := exists_updateSklad hmem hint
  have hids : (db.setProduct item.id r).product.ids = db.product.ids := Database.setProduct_ids
  refine ⟨{ db.setProduct item.id r with
    obsah_objednavky := db.obsah_objednavky ++ [⟨id_obj, item.id, item.quantity, item.price⟩] },
    by rw [orderItem, hset]; exact if_pos ⟨hids ▸ hmem, hwritten⟩, ⟨hids, fun p => ?_⟩, hsklad⟩
  change (db.setProduct item.id r).sklad p - db.dokoncene p + _ = _
  rw [hsklad, Database.balance, ite_self, Int.add_zero]
  simp only [Database.prodane, List.map_append, List.sum_append, List.map_cons, List.map_nil,
    List.sum_cons, List.sum_nil, Int.add_zero]
  by_cases hp : p = item.id
  · subst hp
    rw [Function.update_self, if_pos rfl]
    omega
  · rw [Function.update_of_ne hp, if_neg (Ne.symm hp), Int.add_zero]

/-- What leaves the stock is not written down when a number does not fit. -/
theorem orderItem_unwritten (id_obj : Nat) (hmem : item.id ∈ db.product.ids)
    (hint : IsInt (db.sklad item.id - item.quantity)) (hwritten : ¬ item.Written) :
    ∃ s, orderItem id_obj db item = .error s ∧ Adds db s item.id (-item.quantity) := by
  obtain ⟨r, hset, hsklad⟩ := exists_updateSklad hmem hint
  refine ⟨_, by rw [orderItem, hset]; exact if_neg fun h => hwritten h.2,
    Database.setProduct_ids, fun p => ?_⟩
  rw [Database.balance, hsklad, Database.setProduct_dokoncene, Database.setProduct_prodane,
    Database.balance]
  by_cases hp : p = item.id
  · subst hp
    rw [Function.update_self, if_pos rfl]
    omega
  · rw [Function.update_of_ne hp, if_neg hp, Int.add_zero]

theorem foldlM_orderItem_effect (id_obj : Nat) (items : List CartItem) (db : Database) : ∃ i n,
    Effect db (left (items.foldlM (orderItem id_obj) db))
      (Unwritten db.product.ids db.sklad items) i n := by
  induction items generalizing db with
  | nil => exact ⟨0, 0, (Adds.refl db 0).effect not_false⟩
  | cons item items ih =>
    rw [List.foldlM_cons, Unwritten]
    by_cases htaken : item.id ∈ db.product.ids ∧ IsInt (db.sklad item.id - item.quantity)
    · rw [and_iff_right htaken]
      by_cases hwritten : item.Written
      · obtain ⟨s, hs, hadds, hsklad⟩ := orderItem_written id_obj htaken.1 htaken.2 hwritten
        obtain ⟨i, n, heffect⟩ := ih s
        rw [hs, if_pos hwritten, ← hsklad, ← hadds.ids]
        exact ⟨i, n, {
          hadds.zero_trans heffect.toAdds with
          spoils_iff := heffect.spoils_iff
          mem := fun hn => hadds.ids ▸ heffect.mem hn }⟩
      · obtain ⟨s, hs, hadds⟩ := orderItem_unwritten id_obj htaken.1 htaken.2 hwritten
        rw [hs, if_neg hwritten]
        exact ⟨item.id, -item.quantity, {
          hadds with
          spoils_iff := not_congr Int.neg_eq_zero.symm
          mem := fun _ => htaken.1 }⟩
    · rw [orderItem_refused htaken]
      exact ⟨0, 0, (Adds.refl db 0).effect fun h => htaken h.1⟩

theorem orderSubmitted_effect (data : OrderForm) (cart : Cart) (db : Database) : ∃ i n,
    Effect db (left (orderSubmitted data cart db)) (Spoils db (.orderSubmitted data cart)) i n := by
  rw [orderSubmitted, Spoils]
  by_cases htotal : IsInt cart.total
  · rw [if_pos htotal, and_iff_right htotal]
    obtain ⟨i, n, heffect⟩ := foldlM_orderItem_effect db.objednavka.next cart.items
      { db with objednavka := db.objednavka.insert ⟨data, cart.id, cart.total⟩ }
    dsimp only [bind, Except.bind] at heffect ⊢
    generalize cart.items.foldlM (orderItem db.objednavka.next) _ = r at heffect ⊢
    refine ⟨i, n, ?_⟩
    cases r with
    | ok s => exact { heffect with balance := heffect.balance }
    | error s => exact { heffect with balance := heffect.balance }
  · rw [if_neg htotal]
    exact ⟨0, 0, (Adds.refl db 0).effect fun h => htotal h.1⟩

end items

/-- An order of a supplier's product changes no stock, and is not counted yet. -/
theorem orderSupplierProduct_adds (idp : Nat) (db : Database) :
    Adds db (left (orderSupplierProductFormSucceeded i idp user mnozstvo db)) 0 0 := by
  unfold orderSupplierProductFormSucceeded
  split
  · exact Adds.refl db 0
  · split
    · refine ⟨rfl, fun p => ?_⟩
      simp only [left, Database.balance, Database.sklad, Database.dokoncene, Database.prodane,
        Table.sum_insert]
      simp
    · exact Adds.refl db 0

/-- Accepting an order keeps the balance when it is counted once on both sides. -/
theorem acceptSupplierOrder_effect (id : Nat) (db : Database) : ∃ i n,
    Effect db (left (actionAcceptSupplierOrder id db)) (Spoils db (.acceptSupplierOrder id)) i n := by
  rw [actionAcceptSupplierOrder, Spoils]
  cases hget : db.objednavka_produkt.get id with
  | none =>
    refine ⟨0, 0, (Adds.refl db 0).effect ?_⟩
    rintro ⟨r, hr, -⟩
    cases hr
  | some order =>
    have hmem : order.id_produkt ∈ (db.complete id).product.ids :=
      db.objednavka_produkt_ibfk_2 _ (Table.get_eq_some_iff.mp hget)
    have hspoils : ∀ {n : Int}, (n ≠ 0 ↔ order.mnozstvo ≠ 0 ∧ (order.stav = .dokoncene ↔
          IsInt (db.sklad order.id_produkt + order.mnozstvo))) →
        ((∃ r, some order = some r ∧ r.mnozstvo ≠ 0 ∧ (r.stav = .dokoncene ↔
          IsInt (db.sklad r.id_produkt + r.mnozstvo))) ↔ n ≠ 0) := by
      intro n hn
      rw [hn]
      constructor
      · rintro ⟨r, hr, h⟩
        obtain rfl := Option.some.inj hr
        exact h
      · exact fun h => ⟨order, rfl, h⟩
    obtain ⟨hint, r, hr, hset⟩ | ⟨hint, hset⟩ :=
      (db.complete id).updateSklad_cases hmem order.mnozstvo
    · dsimp only
      rw [hset]
      refine ⟨order.id_produkt, if order.stav = .dokoncene then order.mnozstvo else 0,
        { ids := Database.setProduct_ids, balance := fun p => ?_, spoils_iff := hspoils ?_,
          mem := fun _ => hmem }⟩
      · simp only [left, Database.balance, Database.setProduct_sklad hmem, hr,
          Database.setProduct_dokoncene, Database.setProduct_prodane, Database.complete_sklad,
          Database.complete_prodane, Database.complete_dokoncene hget]
        by_cases hp : p = order.id_produkt
        · subst hp
          by_cases hs : order.stav = .dokoncene
          · simp [hs]
            omega
          · simp [hs]
        · simp [hp, Ne.symm hp]
      · by_cases hs : order.stav = .dokoncene
        · simpa [hs] using fun _ => hint
        · simpa [hs] using fun _ => hint
    · dsimp only
      rw [hset]
      refine ⟨order.id_produkt, if order.stav = .dokoncene then 0 else -order.mnozstvo,
        { ids := rfl, balance := fun p => ?_, spoils_iff := hspoils ?_, mem := fun _ => hmem }⟩
      · simp only [left, Database.balance, Database.complete_sklad, Database.complete_prodane,
          Database.complete_dokoncene hget]
        by_cases hp : p = order.id_produkt
        · subst hp
          by_cases hs : order.stav = .dokoncene
          · simp [hs]
          · simp [hs]
            omega
        · simp [hp, Ne.symm hp]
      · by_cases hs : order.stav = .dokoncene
        · simpa [hs] using fun _ => hint
        · simpa [hs] using fun _ => hint

/-- Every request adds to the balance of one product, and it adds something exactly when it spoils
the books. -/
theorem eshop_step (h : (eshop db).step s q = some s') : ∃ i n, Effect s s' (Spoils s q) i n := by
  cases q with
  | orderSubmitted data cart =>
    obtain rfl := Option.some.inj h
    exact orderSubmitted_effect data cart s
  | orderSupplierProduct id idp user mnozstvo =>
    obtain rfl := Option.some.inj h
    exact ⟨0, 0, (orderSupplierProduct_adds idp s).effect not_false⟩
  | acceptSupplierOrder id =>
    obtain rfl := Option.some.inj h
    exact acceptSupplierOrder_effect id s

theorem exists_eshop_step (db s : Database) (q : Request) : ∃ s', (eshop db).step s q = some s' := by
  cases q with
  | orderSubmitted data cart => exact ⟨_, rfl⟩
  | orderSupplierProduct id idp user mnozstvo => exact ⟨_, rfl⟩
  | acceptSupplierOrder id => exact ⟨_, rfl⟩

variable {db s s' : Database}

theorem runs_ids {requests : List Request} (h : (eshop db).runs s requests = some s') :
    s'.product.ids = s.product.ids := by
  induction requests generalizing s with
  | nil => obtain rfl := Option.some.inj h; rfl
  | cons q requests ih =>
    obtain ⟨t, ht, h⟩ := Option.bind_eq_some_iff.mp h
    obtain ⟨i, n, heffect⟩ := eshop_step ht
    exact (ih h).trans heffect.ids

/-- As long as no request spoils the books, they are balanced. -/
theorem balanced_of_not_spoils {requests : List Request}
    (h : ∀ pre q post s, requests = pre ++ q :: post →
      (eshop db).runs db pre = some s → ¬ Spoils s q)
    (hrun : (eshop db).runs db requests = some s) : Balanced db s := by
  rw [balanced_iff_balance]
  intro p _
  induction requests using List.reverseRecOn generalizing s with
  | nil => obtain rfl := Option.some.inj hrun; rfl
  | append_singleton requests q ih =>
    rw [System.runs_concat] at hrun
    obtain ⟨t, ht, hs⟩ := Option.bind_eq_some_iff.mp hrun
    obtain ⟨i, n, heffect⟩ := eshop_step hs
    have hzero : n = 0 :=
      not_not.mp (mt heffect.spoils_iff.mpr (h requests q [] t rfl ht))
    have hprev : t.balance p = db.balance p :=
      ih (fun pre q' post s hreq => h pre q' (post ++ [q]) s (by simp [hreq])) ht
    rw [heffect.balance p, hzero, ite_self, hprev, Int.add_zero]

/-- A request that spoils the books unbalances those of a product. -/
theorem unbalanced_of_spoils (hrun : (eshop db).runs db pre = some s) (hspoils : Spoils s q) :
    ∃ s', (eshop db).runs db (pre ++ [q]) = some s' ∧ ¬ (Balanced db s ∧ Balanced db s') := by
  obtain ⟨s', hs'⟩ := exists_eshop_step db s q
  obtain ⟨i, n, heffect⟩ := eshop_step hs'
  have hn := heffect.spoils_iff.mp hspoils
  refine ⟨s', by rw [System.runs_concat, hrun]; exact hs', fun ⟨hb, hb'⟩ => hn ?_⟩
  have hmem : i ∈ db.product.ids := runs_ids hrun ▸ heffect.mem hn
  have hbal := heffect.balance i
  rw [balanced_iff_balance.mp hb _ hmem, balanced_iff_balance.mp hb' _ hmem, if_pos rfl] at hbal
  omega

/-- The books are balanced after every request exactly when no request spoils them. -/
theorem balanced_iff (db : Database) (requests : List Request) :
    (∀ pre post s, requests = pre ++ post → (eshop db).runs db pre = some s → Balanced db s) ↔
      ∀ pre q post s, requests = pre ++ q :: post →
        (eshop db).runs db pre = some s → ¬ Spoils s q := by
  constructor
  · intro h pre q post s hreq hrun hspoils
    obtain ⟨s', hrun', hb⟩ := unbalanced_of_spoils hrun hspoils
    exact hb ⟨h _ _ _ hreq hrun, h _ post _ (by simp [hreq]) hrun'⟩
  · intro h pre post s hreq hrun
    refine balanced_of_not_spoils (fun pre' q post' t hpre => ?_) hrun
    exact h pre' q (post' ++ post) t (by simp [hreq, hpre])

/-- A shop with one product, one supplier of it and one seller. -/
def smallShop : Database where
  users := [1]
  product := Table.empty.insert ⟨0, by decide⟩
  dodavatel_produkt := [⟨1, 1, 5⟩]
  objednavka_produkt := .empty
  objednavka := .empty
  obsah_objednavky := []
  kosik := []
  objednavka_produkt_ibfk_2 := nofun

/-- Ten pieces are ordered, and accepted twice. -/
theorem accepted_twice : ¬ ∀ pre post s,
    [.orderSupplierProduct 1 1 1 10, .acceptSupplierOrder 1, .acceptSupplierOrder 1] = pre ++ post →
      (eshop smallShop).runs smallShop pre = some s → Balanced smallShop s := by
  intro h
  obtain ⟨s, hrun, hs⟩ := System.exists_runs (M := eshop smallShop) (s := smallShop)
    (l := [.orderSupplierProduct 1 1 1 10, .acceptSupplierOrder 1, .acceptSupplierOrder 1])
    (p := fun s => s.sklad 1 = 20 ∧ s.dokoncene 1 = 10 ∧ s.prodane 1 = 0) (by decide)
  have hb := h _ [] s rfl hrun 1 (by decide)
  simp only [decide_eq_true_eq] at hs
  rw [hs.1, hs.2.1, hs.2.2] at hb
  revert hb
  decide

end Eshop
