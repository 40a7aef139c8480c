import FitProjects.IIS.Stock

/-! # Who sees which order

The actions of `OrdersPresenter` that a registered customer may call, behind the check of
`BasePresenter`. They only read, so a request is a function of the database. The framework and the
invoice generator are not part of the repository: the check of a permission is a parameter
(`permission`), and an invoice is the data that it is made of. -/

namespace Orders

open Eshop (ObsahObjednavky)

/-- A row of `objednavka`; time stamps are numbers. -/
structure Objednavka extends Eshop.Objednavka where
  datum_prijatia : Nat
  datum_zmeny_stavu : Nat
  stav : String
  deriving DecidableEq

/-- The columns of `users` that an invoice shows. -/
structure User where
  jmeno : String
  prijmeni : String
  mesto : String
  ulice : String
  psc : Nat
  deriving DecidableEq

/-- The columns of `product` that the pages show. -/
structure Product where
  nazev : String
  obrazek : String
  deriving DecidableEq

/-- The tables that the actions read, with the foreign keys of the contents of an order. There is
none from an order to its customer. -/
structure Database where
  users : Table User
  product : Table Product
  objednavka : Table Objednavka
  obsah_objednavky : List ObsahObjednavky
  obsah_objednavky_ibfk_2 : ∀ r ∈ obsah_objednavky, r.id_produkt ∈ product.ids
  obsah_objednavky_ibfk_4 : ∀ r ∈ obsah_objednavky, r.id_objednavky ∈ objednavka.ids

/-! ## Permissions -/

/-- A line of the setup of the authorizator; a missing resource or privilege stands for all. -/
inductive Setup
  | addRole (role : String) (parent : Option String)
  | addResource (resource : String)
  | allow (role : String) (resource privilege : Option String)
  | deny (role : String) (resource privilege : Option String)
  deriving DecidableEq

/-- The section `authorizator` of `config.neon`. -/
def config : List Setup :=
  [.addRole "guest" none,
    .addRole "registered" (some "guest"),
    .addRole "staff" (some "registered"),
    .addRole "admin" none,
    .addResource "Homepage",
    .addResource "Cart",
    .addResource "Order",
    .addResource "Orders",
    .addResource "Post",
    .addResource "Product",
    .addResource "Register",
    .addResource "Sign",
    .addResource "Admin",
    .addResource "Error",
    .allow "guest" (some "Error") none,
    .allow "guest" (some "Homepage") none,
    .allow "guest" (some "Product") none,
    .allow "guest" (some "Sign") none,
    .allow "guest" (some "Register") none,
    .allow "registered" (some "Cart") none,
    .allow "registered" (some "Order") none,
    .allow "registered" (some "Orders") (some "default"),
    .allow "registered" (some "Orders") (some "show"),
    .allow "registered" (some "Orders") (some "generate"),
    .allow "staff" (some "Orders") none,
    .allow "staff" (some "Admin") none,
    .deny "staff" (some "Admin") (some "editUser"),
    .allow "admin" none none]

/-- The role itself and those it inherits from, at most `n` of them. -/
def ancestors (setup : List Setup) : Nat → String → List String
  | 0, _ => []
  | n + 1, role => role :: (setup.filterMap fun
    | .addRole r parent => if r = role then parent else none
    | _ => none).flatMap (ancestors setup n)

/-- A rule of the role or of one it inherits from speaks of the resource and the privilege. -/
def Setup.speaksOf (setup : List Setup) (role resource privilege : String)
    (r : String) (res priv : Option String) : Bool :=
  r ∈ ancestors setup setup.length role ∧ (res = none ∨ res = some resource) ∧
    (priv = none ∨ priv = some privilege)

def Setup.allows (setup : List Setup) (role resource privilege : String) : Setup → Bool
  | .allow r res priv => speaksOf setup role resource privilege r res priv
  | _ => false

def Setup.denies (setup : List Setup) (role resource privilege : String) : Setup → Bool
  | .deny r res priv => speaksOf setup role resource privilege r res priv
  | _ => false

/-- What the documentation of the authorizator says: a role may do what is allowed to it or to a role
that it inherits from and is not denied, and nothing that is not allowed. -/
structure Authorizator (permission : List Setup → String → String → String → Bool) : Prop where
  granted : setup.any (Setup.allows setup role resource privilege) = true →
    setup.any (Setup.denies setup role resource privilege) = false →
    permission setup role resource privilege = true
  refused : setup.any (Setup.allows setup role resource privilege) = false →
    permission setup role resource privilege = false

/-! ## Requests -/

/-- The presenter `Orders` is called with one of these actions. The parameter `id` is the key that the
database compares with; `none` for a value that is equal to no key. -/
inductive Request
  | renderDefault (page : String)
  | actionShow (id : Option Nat)
  | actionGenerate (id : Option Nat) (print : Bool)
  deriving DecidableEq

/-- `$this->action`. -/
def Request.action : Request → String
  | renderDefault _ => "default"
  | actionShow _ => "show"
  | actionGenerate .. => "generate"

/-- A time stamp, some days later. -/
structure DateTime where
  timestamp : Nat
  days : Nat
  deriving DecidableEq

/-- `ItemImpl`, without the tax. -/
structure Item where
  nazev : String
  mnozstvo : Int
  cena : Int
  deriving DecidableEq

/-- What `createComponentFaktura` puts into an invoice, apart from the supplier. -/
structure Faktura where
  id : Nat
  meno : String
  ulice : String
  mesto : String
  psc : Nat
  dateExp : DateTime
  dateNow : DateTime
  items : List Item
  deriving DecidableEq

/-- What a request leads to. A field of a row that is not there is an error. -/
inductive Response
  | redirect (flashMessage target : String)
  | orders (page : String) (objednavky : List (Nat × Objednavka))
  | order (id : Nat) (objednavka : Objednavka) (obsah : List ObsahObjednavky)
    (produkty : List (Nat × Option Product))
  | nothing
  | invoice (faktura : Faktura) (print : Bool)
  | error
  deriving DecidableEq

/-- The identity of a user who is logged in. -/
structure Identity where
  id : Nat
  roles : List String
  deriving DecidableEq

section

variable (permission : List Setup → String → String → String → Bool)

def Identity.isAllowed (user : Identity) (resource privilege : String) : Bool :=
  user.roles.any fun role => permission config role resource privilege

namespace Database

variable (db : Database)

/-- `->table('objednavka')->get($id)` -/
def getObjednavka (id : Option Nat) : Option (Nat × Objednavka) :=
  id.bind fun k => (db.objednavka.get k).map fun o => (k, o)

/-- `->table('obsah_objednavky')->where('id_objednavky', $id)` -/
def obsah (id : Option Nat) : List ObsahObjednavky :=
  db.obsah_objednavky.filter fun r => some r.id_objednavky = id

/-- The loop that fills `$this->produkty`. -/
def produkty (obsah : List ObsahObjednavky) : List (Nat × Option Product) :=
  obsah.map fun ob => (ob.id_produkt, db.product.get ob.id_produkt)

/-- `->order('datum_prijatia DESC')` -/
def order (rows : List (Nat × Objednavka)) : List (Nat × Objednavka) :=
  rows.mergeSort fun a b => decide (b.2.datum_prijatia ≤ a.2.datum_prijatia)

def renderDefault (user : Identity) (page : String) : Response :=
  .orders page <|
    if user.isAllowed permission "Orders" "showAll" then order db.objednavka.rows
    else order (db.objednavka.rows.filter fun r => r.2.id_zakaznik = user.id)

def actionShow (id : Option Nat) : Response :=
  match db.getObjednavka id with
  | none => .error
  | some (k, objednavka) =>
    let obsah := db.obsah id
    .order k objednavka obsah (db.produkty obsah)

/-- `createComponentFaktura` -/
def createComponentFaktura (k : Nat) (objednavka : Objednavka) (zakaznik : Option User)
    (obsah : List ObsahObjednavky) : Option Faktura := do
  let zakaznik ← zakaznik
  let items ← obsah.mapM fun ob => do
    let produkt ← db.product.get ob.id_produkt
    some ⟨produkt.nazev, ob.mnozstvo, ob.cena⟩
  some {
    id := k
    meno := zakaznik.jmeno ++ " " ++ zakaznik.prijmeni
    ulice := zakaznik.ulice
    mesto := zakaznik.mesto
    psc := zakaznik.psc
    dateExp := ⟨objednavka.datum_prijatia, 14⟩
    dateNow := ⟨objednavka.datum_prijatia, 0⟩
    items }

def actionGenerate (user : Identity) (id : Option Nat) (print : Bool) : Response :=
  let objednavka := db.getObjednavka id
  if ¬ user.isAllowed permission "Orders" "showAll" ∧
      objednavka.map (·.2.id_zakaznik) ≠ some user.id then .nothing
  else match objednavka with
  | none => .error
  | some (k, objednavka) =>
    let zakaznik := db.users.get objednavka.id_zakaznik
    match db.createComponentFaktura k objednavka zakaznik (db.obsah id) with
    | none => .error
    | some faktura => .invoice faktura print

/-- A request: `startup`, then the action. -/
def respond (user : Identity) (r : Request) : Response :=
  if ¬ user.isAllowed permission "Orders" r.action then
    .redirect "Pristup zamietnuty" "Homepage:"
  else match r with
  | .renderDefault page => db.renderDefault permission user page
  | .actionShow id => db.actionShow id
  | .actionGenerate id print => db.actionGenerate permission user id print

end Database

end

/-! ## Orders of other customers -/

namespace Database

variable {db db' : Database} {user : Identity} {k : Nat}

/-- The orders of a customer. -/
def own (db : Database) (customer : Nat) : List (Nat × Objednavka) :=
  db.objednavka.rows.filter fun r => r.2.id_zakaznik = customer

/-- What the orders of a customer contain. -/
def ownObsah (db : Database) (customer : Nat) : List ObsahObjednavky :=
  db.obsah_objednavky.filter fun r => r.id_objednavky ∈ (db.own customer).map Prod.fst

/-- The databases differ only in orders of other customers. -/
structure SameFor (customer : Nat) (db db' : Database) : Prop where
  users : db'.users = db.users
  product : db'.product = db.product
  own : db'.own customer = db.own customer
  ownObsah : db'.ownObsah customer = db.ownObsah customer

/-- The order `k` is one of the customer's. -/
def Owns (db : Database) (customer k : Nat) : Prop :=
  ∃ o, db.objednavka.get k = some o ∧ o.id_zakaznik = customer

theorem mem_own {customer : Nat} {o : Objednavka} :
    (k, o) ∈ db.own customer ↔ db.objednavka.get k = some o ∧ o.id_zakaznik = customer := by
  rw [own, List.mem_filter, Table.get_eq_some_iff, decide_eq_true_iff]

theorem owns_iff {customer : Nat} : db.Owns customer k ↔ k ∈ (db.own customer).map Prod.fst := by
  simp only [Owns, List.mem_map, Prod.exists, ← mem_own]
  constructor
  · rintro ⟨o, h⟩
    exact ⟨k, o, h, rfl⟩
  · rintro ⟨_, o, h, rfl⟩
    exact ⟨o, h⟩

namespace SameFor

variable {customer : Nat} (h : SameFor customer db db')
include h

theorem owns_iff : db'.Owns customer k ↔ db.Owns customer k := by
  rw [Database.owns_iff, Database.owns_iff, h.own]

theorem getObjednavka_eq (hk : db.Owns customer k) :
    db'.getObjednavka (some k) = db.getObjednavka (some k) := by
  obtain ⟨o, hget, ho⟩ := hk
  have hmem : (k, o) ∈ db'.own customer := by
    rw [h.own]
    exact mem_own.mpr ⟨hget, ho⟩
  rw [getObjednavka, getObjednavka, Option.bind_some, Option.bind_some, hget, (mem_own.mp hmem).1]

/-- The contents of an order of the customer are the same. -/
theorem obsah_eq (hk : db.Owns customer k) : db'.obsah (some k) = db.obsah (some k) := by
  have hfilter : ∀ d : Database, d.Owns customer k →
      d.obsah (some k) = (d.ownObsah customer).filter fun r => r.id_objednavky = k := by
    intro d hd
    rw [Database.ownObsah, List.filter_filter, obsah]
    refine List.filter_congr fun r _ => ?_
    by_cases hr : r.id_objednavky = k
    · have hmem : k ∈ (d.own customer).map Prod.fst := Database.owns_iff.mp hd
      simp [hr, hmem]
    · simp [hr]
  rw [hfilter db hk, hfilter db' (h.owns_iff.mpr hk), h.ownObsah]

theorem createComponentFaktura_eq :
    db'.createComponentFaktura = db.createComponentFaktura := by
  funext k o zakaznik obsah
  rw [createComponentFaktura, createComponentFaktura, h.product]

end SameFor

end Database

/-! ## What a registered customer sees -/

section

open Database

variable {permission : List Setup → String → String → String → Bool} {db db' : Database}
  {customer : Nat} {reqs : List Request}

/-- A customer without other roles. -/
def registered (customer : Nat) : Identity := ⟨customer, ["registered"]⟩

variable (hp : Authorizator permission)
include hp

theorem registered_isAllowed (r : Request) :
    (registered customer).isAllowed permission "Orders" r.action = true := by
  have hallows : config.any (Setup.allows config "registered" "Orders" r.action) = true := by
    cases r <;> simp only [Request.action] <;> decide +kernel
  have hdenies : config.any (Setup.denies config "registered" "Orders" r.action) = false := by
    cases r <;> simp only [Request.action] <;> decide +kernel
  simp [registered, Identity.isAllowed, hp.granted hallows hdenies]

theorem registered_showAll :
    (registered customer).isAllowed permission "Orders" "showAll" = false := by
  have hrefuses : config.any (Setup.allows config "registered" "Orders" "showAll") = false := by
    decide +kernel
  have hrefused := hp.refused hrefuses
  simp [registered, Identity.isAllowed, hrefused]

theorem respond_eq (db : Database) (r : Request) :
    db.respond permission (registered customer) r = match r with
      | .renderDefault page => db.renderDefault permission (registered customer) page
      | .actionShow id => db.actionShow id
      | .actionGenerate id print => db.actionGenerate permission (registered customer) id print := by
  have hnot : ¬¬(registered customer).isAllowed permission "Orders" r.action = true :=
    not_not.mpr (registered_isAllowed hp r)
  cases r <;> exact if_neg hnot

theorem renderDefault_eq (h : SameFor customer db db') (page : String) :
    db'.renderDefault permission (registered customer) page =
      db.renderDefault permission (registered customer) page := by
  have hown : db'.own customer = db.own customer := h.own
  rw [renderDefault, renderDefault, registered_showAll hp]
  change Response.orders page (order (db'.own customer)) = .orders page (order (db.own customer))
  rw [hown]

omit hp in
theorem actionShow_eq (h : SameFor customer db db') (hk : db.Owns customer k) :
    db'.actionShow (some k) = db.actionShow (some k) := by
  simp only [actionShow, h.getObjednavka_eq hk, h.obsah_eq hk, produkty, h.product]

theorem actionGenerate_eq (h : SameFor customer db db') (id : Option Nat) (print : Bool) :
    db'.actionGenerate permission (registered customer) id print =
      db.actionGenerate permission (registered customer) id print := by
  have hnot : ∀ d : Database, (∀ k, id = some k → ¬ d.Owns customer k) →
      d.actionGenerate permission (registered customer) id print = .nothing := by
    intro d hd
    refine if_pos ⟨by rw [registered_showAll hp]; decide, ?_⟩
    intro heq
    obtain ⟨⟨k, o⟩, hget, ho⟩ := Option.map_eq_some_iff.mp heq
    obtain ⟨k', hk', hget⟩ := Option.bind_eq_some_iff.mp hget
    obtain ⟨o', hget, heq'⟩ := Option.map_eq_some_iff.mp hget
    cases heq'
    exact hd k hk' ⟨o, hget, ho⟩
  by_cases hk : ∃ k, id = some k ∧ db.Owns customer k
  · obtain ⟨k, rfl, hk⟩ := hk
    simp only [actionGenerate, h.getObjednavka_eq hk, h.obsah_eq hk, h.createComponentFaktura_eq,
      h.users]
  · have hnone : ∀ k, id = some k → ¬ db.Owns customer k := fun k hid hown => hk ⟨k, hid, hown⟩
    rw [hnot db hnone, hnot db' fun k hid hown => hnone k hid (h.owns_iff.mp hown)]

/-- The requests show no order of another customer: on every database that differs only in those the
responses are the same. -/
def Isolated (permission : List Setup → String → String → String → Bool) (customer : Nat)
    (db : Database) (reqs : List Request) : Prop :=
  ∀ db', SameFor customer db db' →
    reqs.map (db'.respond permission (registered customer)) =
      reqs.map (db.respond permission (registered customer))

theorem isolated_of_own (hown : ∀ k, .actionShow (some k) ∈ reqs → db.Owns customer k) :
    Isolated permission customer db reqs := by
  intro db' h
  refine List.map_congr_left fun r hr => ?_
  rw [respond_eq hp, respond_eq hp]
  cases r with
  | renderDefault page => exact renderDefault_eq hp h page
  | actionShow id =>
    cases id with
    | none => rfl
    | some k => exact actionShow_eq h (hown k hr)
  | actionGenerate id print => exact actionGenerate_eq hp h id print

omit hp in
/-- An order of another customer can be deleted. -/
theorem sameFor_erase (hk : ¬ db.Owns customer k) : ∃ db', SameFor customer db db' ∧
    db'.objednavka.get k = none := by
  refine ⟨{ db with
    objednavka := db.objednavka.erase k
    obsah_objednavky := db.obsah_objednavky.filter fun r => r.id_objednavky ≠ k
    obsah_objednavky_ibfk_2 := fun r hr =>
      db.obsah_objednavky_ibfk_2 r (List.mem_of_mem_filter hr)
    obsah_objednavky_ibfk_4 := fun r hr => ?_ }, ?_, Table.get_erase_self⟩
  · obtain ⟨hr, hne⟩ := List.mem_filter.mp hr
    obtain ⟨x, hx, hxr⟩ := List.mem_map.mp (db.obsah_objednavky_ibfk_4 r hr)
    refine List.mem_map.mpr ⟨x, List.mem_filter.mpr ⟨hx, ?_⟩, hxr⟩
    rwa [hxr]
  · have hown : ∀ x ∈ db.own customer, x.1 ≠ k := by
      intro x hx heq
      exact hk (owns_iff.mpr (List.mem_map.mpr ⟨x, hx, heq⟩))
    have hsame : (db.objednavka.erase k).rows.filter (fun r => r.2.id_zakaznik = customer) =
        db.own customer := by
      rw [Table.erase, List.filter_filter, own]
      refine List.filter_congr fun x hx => ?_
      by_cases hc : x.2.id_zakaznik = customer
      · simp [hc, hown x (List.mem_filter.mpr ⟨hx, decide_eq_true hc⟩)]
      · simp [hc]
    refine ⟨rfl, rfl, hsame, ?_⟩
    rw [ownObsah, own, hsame, List.filter_filter, ownObsah]
    refine List.filter_congr fun r _ => ?_
    by_cases hr : r.id_objednavky ∈ (db.own customer).map Prod.fst
    · obtain ⟨x, hx, hxr⟩ := List.mem_map.mp hr
      simp [← hxr, hown x hx]
    · simp [hr]

/-- An order that another customer may have. -/
def someOrder (customer : Nat) : Objednavka where
  telefon := ""
  mesto := ""
  ulice := ""
  psc := ""
  sposob_dopravy := ""
  sposob_platby := ""
  poznamka := ""
  id_zakaznik := customer
  cena := 0
  datum_prijatia := 0
  datum_zmeny_stavu := 0
  stav := "Prijata"

omit hp in
/-- Another customer can have an order that is not there. -/
theorem sameFor_place (customer : Nat) (hk : db.objednavka.get k = none) :
    ∃ db', SameFor customer db db' ∧ db'.objednavka.get k = some (someOrder (customer + 1)) := by
  have hids := Table.get_eq_none_iff.mp hk
  refine ⟨{ db with
    objednavka := db.objednavka.place k (someOrder (customer + 1)) hids
    obsah_objednavky_ibfk_4 := fun r hr => ?_ }, ?_, Table.get_place_self hids⟩
  · obtain ⟨x, hx, hxr⟩ := List.mem_map.mp (db.obsah_objednavky_ibfk_4 r hr)
    exact List.mem_map.mpr ⟨x, List.mem_append_left _ hx, hxr⟩
  · have hsame : (db.objednavka.place k (someOrder (customer + 1)) hids).rows.filter
        (fun r => r.2.id_zakaznik = customer) = db.own customer := by
      rw [Table.place, List.filter_append, own]
      simp [someOrder]
    refine ⟨rfl, rfl, hsame, ?_⟩
    rw [ownObsah, own, hsame]
    rfl

theorem not_isolated_of_show (hr : .actionShow (some k) ∈ reqs) (hk : ¬ db.Owns customer k) :
    ¬ Isolated permission customer db reqs := by
  intro hiso
  have hshow : ∀ db', SameFor customer db db' →
      db'.actionShow (some k) = db.actionShow (some k) := by
    intro db' h
    have heq := List.map_inj_left.mp (hiso db' h) _ hr
    rwa [respond_eq hp, respond_eq hp] at heq
  cases hget : db.objednavka.get k with
  | none =>
    obtain ⟨db', h, hget'⟩ := sameFor_place customer hget
    have heq := hshow db' h
    simp [actionShow, getObjednavka, hget, hget'] at heq
  | some o =>
    obtain ⟨db', h, hget'⟩ := sameFor_erase hk
    have heq := hshow db' h
    simp [actionShow, getObjednavka, hget, hget'] at heq

/-- A registered customer sees no order of another customer exactly when every `show` asks for an
order of the customer's own (or for a value that no order has as key). -/
theorem sees_own_iff (customer : Nat) (db : Database) (reqs : List Request) :
    Isolated permission customer db reqs ↔
      ∀ k, .actionShow (some k) ∈ reqs → db.Owns customer k := by
  constructor
  · intro hiso k hr
    by_contra hk
    exact not_isolated_of_show hp hr hk hiso
  · exact isolated_of_own hp

end

/-- The rules read as they stand. -/
def byRules (setup : List Setup) (role resource privilege : String) : Bool :=
  setup.any (Setup.allows setup role resource privilege) &&
    !setup.any (Setup.denies setup role resource privilege)

theorem authorizator_byRules : Authorizator byRules where
  granted h h' := by rw [byRules, h, h']; rfl
  refused h := by rw [byRules, h]; rfl

/-- A shop in which customer 2 has an order. -/
def shop : Database where
  users := .empty
  product := .empty
  objednavka := Table.empty.insert (someOrder 2)
  obsah_objednavky := []
  obsah_objednavky_ibfk_2 := nofun
  obsah_objednavky_ibfk_4 := nofun

theorem sees_own_iff_shop :
    Isolated byRules 2 shop [.renderDefault "1", .actionShow (some 1), .actionGenerate (some 1) true] ↔
      ∀ k, .actionShow (some k) ∈
        [Request.renderDefault "1", .actionShow (some 1), .actionGenerate (some 1) true] →
          shop.Owns 2 k :=
  sees_own_iff authorizator_byRules 2 shop
    [.renderDefault "1", .actionShow (some 1), .actionGenerate (some 1) true]

/-- Customer 1 looks at the order of customer 2. -/
theorem sees_other_order : ¬ ∀ (permission : List Setup → String → String → String → Bool),
    Authorizator permission → ∀ (customer : Nat) (db : Database) (reqs : List Request),
      Isolated permission customer db reqs := by
  intro hall
  refine not_isolated_of_show (k := 1) authorizator_byRules (List.mem_singleton.mpr rfl) ?_
    (hall byRules authorizator_byRules 1 shop [.actionShow (some 1)])
  rintro ⟨o, hget, ho⟩
  cases hget
  cases ho

end Orders
