import JustApi.Core.GatewayOrder
import JustApi.Py.RouteTables

/-! # Aligned tables

The route tables stay aligned as long as no registration raises after it has begun to
push, and no registration takes over a slot of the other kind. -/
namespace JustApi.Py.RouteTables
open JustApi.Core.Http JustApi.Core.Routing
open JustApi.Core.Gateway (routesOf_insert_self routesOf_insert_ne)

section Alignment

variable {E H S : Type} {mx : Matchit E Nat} {schemaJson : S → Option String}

/-! ## Calls that keep the tables -/

/-- A table without columns, columns without a table and no columns are refused. -/
def CrudComplete (r : Registration H S) : Prop :=
  (r.crudTable = none ∧ r.crudColumns = none) ∨
    ∃ table columns, r.crudTable = some table ∧ r.crudColumns = some columns ∧ columns ≠ []

def Usable (schemaJson : S → Option String) (schema : Option S) : Prop :=
  ∀ s, schema = some s → schemaJson s ≠ none

/-- The matcher of the method accepts the path. -/
def Free (mx : Matchit E Nat) (t : Tables H S) (method : Method) (path : String) : Prop :=
  ∃ u, mx.check ((t.router.routesOf method).map Prod.fst) path = .ok u

/-- A registration that pushes its entries does not raise. -/
def Pushable (mx : Matchit E Nat) (schemaJson : S → Option String) (t : Tables H S)
    (method : Method) (schema : Option S) (r : Registration H S) : Prop :=
  CrudComplete r ∧ Usable schemaJson schema ∧ Usable schemaJson r.querySchema ∧
    Free mx t method r.path

/-- A call that neither stops halfway nor leaves entries of another kind in its slot. -/
def Fine (mx : Matchit E Nat) (schemaJson : S → Option String) (t : Tables H S) :
    Call H S → Prop
  | .get r =>
    ¬ (CrudComplete r ∧ Usable schemaJson r.querySchema) ∨
      match t.routeIndices.lookup (.get, r.path) with
      | some id => t.sseSpecs[id]? = some none
      | none => Free mx t .get r.path
  | .sseNative path _ _ =>
    match t.routeIndices.lookup (.get, path) with
    | some id => t.native[id]? = some false ∧ t.crud[id]? = some none ∧
        t.querySchemaJsons[id]? = some none
    | none => Free mx t .get path
  | .post r => Pushable mx schemaJson t .post r.schema r
  | .put r => Pushable mx schemaJson t .put r.schema r
  | .patch r => Pushable mx schemaJson t .patch r.schema r
  | .query r => Pushable mx schemaJson t (.extension "QUERY") r.schema r
  | .delete r => Pushable mx schemaJson t .delete none r
  | .head r => Pushable mx schemaJson t .head none r
  | .options r => Pushable mx schemaJson t .options none r
  | .trace r => Pushable mx schemaJson t .trace none r

/-! ## The router -/

/-- What an accepted route does to the matchers: `GET` brings along `HEAD` where that is
free. -/
theorem insert_of_free {r : Router Nat} {method : Method} {path : String}
    (hfree : ∃ u, mx.check ((r.routesOf method).map Prod.fst) path = .ok u) (id : Nat) :
    ∃ r', r.insert mx method path id = (.ok (), r') ∧
      (∀ m, m ≠ method → ¬ (method = .get ∧ m = .head) → r'.routesOf m = r.routesOf m) ∧
      r'.routesOf method = r.routesOf method ++ [(path, id)] ∧
      (method = .get → r'.routesOf .head = r.routesOf .head ∨
        r'.routesOf .head = r.routesOf .head ++ [(path, id)] ∧
          ∃ u, mx.check ((r.routesOf .head).map Prod.fst) path = .ok u) := by
  obtain ⟨u, hu⟩ := hfree
  have hself : mx.insert (r.routesOf method) path id = .ok (r.routesOf method ++ [(path, id)]) := by
    rw [Matchit.insert, hu]
    rfl
  unfold Router.insert
  rw [hself]
  dsimp only
  by_cases hget : method = .get
  · subst hget
    rw [if_pos rfl]
    refine ⟨_, rfl, fun m hm hm' => ?_, ?_, fun _ => ?_⟩
    · rw [routesOf_insert_ne ⟨r.routes.insert .get _, [], none⟩ fun h => hm' ⟨rfl, h⟩,
        routesOf_insert_ne r hm]
    · rw [routesOf_insert_ne ⟨r.routes.insert .get _, [], none⟩ (by decide), routesOf_insert_self]
    · rw [routesOf_insert_self, routesOf_insert_ne r (by decide)]
      cases hcheck : mx.check ((r.routesOf .head).map Prod.fst) path with
      | error e =>
        rw [Matchit.insert, hcheck]
        exact .inl rfl
      | ok u' =>
        rw [Matchit.insert, hcheck]
        exact .inr ⟨rfl, u', rfl⟩
  · rw [if_neg hget]
    refine ⟨_, rfl, fun m hm _ => routesOf_insert_ne r hm _ _ _, routesOf_insert_self _ _ _ _ _,
      fun h => absurd h hget⟩

/-! ## The invariant -/

/-- What holds of the tables and of what the successful registrations have given, the last
first. -/
structure Sound (given : List (Method × String × Entry H S)) (t : Tables H S) : Prop where
  aligned : t.Aligned
  holds : ∀ m path id, (path, id) ∈ t.router.routesOf m →
    ∃ e, routed given m path = some e ∧ t.Holds id e
  /-- The indices are the routes of `GET`. -/
  indices : ∀ path id, t.routeIndices.lookup (.get, path) = some id ↔
    (path, id) ∈ t.router.routesOf .get
  /-- A slot of `GET` serves no other route than that for `HEAD` which it brought along. -/
  owned : ∀ path id m path', (path, id) ∈ t.router.routesOf .get →
    (path', id) ∈ t.router.routesOf m →
      path' = path ∧ (m = .get ∨ m = .head ∧ lastGiven given .head path = none)
  /-- A route for `HEAD` is registered or brought along. -/
  heads : ∀ path id, (path, id) ∈ t.router.routesOf .head →
    lastGiven given .head path = none → (path, id) ∈ t.router.routesOf .get
  /-- What is given is routed. -/
  present : ∀ m path e, lastGiven given m path = some e →
    ∃ id, (path, id) ∈ t.router.routesOf m
  /-- Registrations for `GET` have no body. -/
  bodiless : ∀ path e, lastGiven given .get path = some e →
    e.schema = none ∧ e.schemaJson = none ∧ e.batchConfig = none

theorem Tables.Holds.lt {t : Tables H S} {id : Nat} {e : Entry H S} (h : t.Holds id e) :
    id < t.handlers.length := (List.getElem?_eq_some_iff.mp h.1).1

theorem sound_new : Sound (H := H) (S := S) [] .new where
  aligned := ⟨rfl, rfl, rfl, rfl, rfl, rfl, rfl⟩
  holds := fun _ _ _ h => absurd h List.not_mem_nil
  indices := fun path id => by simp [Tables.new, Router.routesOf]
  owned := fun _ _ _ _ h => absurd h List.not_mem_nil
  heads := fun _ _ h => absurd h List.not_mem_nil
  present := fun _ _ _ h => by cases h
  bodiless := fun _ _ h => by cases h

theorem lastGiven_cons (g : Method × String × Entry H S)
    (given : List (Method × String × Entry H S)) (m : Method) (path : String) :
    lastGiven (g :: given) m path =
      if g.1 = m ∧ g.2.1 = path then some g.2.2 else lastGiven given m path := by
  unfold lastGiven
  by_cases h : g.1 = m ∧ g.2.1 = path <;> simp [h]

theorem routed_cons_ne {g : Method × String × Entry H S}
    {given : List (Method × String × Entry H S)} {m : Method} {path : String}
    (h : ¬ (g.1 = m ∧ g.2.1 = path))
    (hget : ¬ (m = .head ∧ lastGiven given .head path = none ∧ g.1 = .get ∧ g.2.1 = path)) :
    routed (g :: given) m path = routed given m path := by
  unfold routed
  rw [lastGiven_cons, if_neg h]
  by_cases hm : m = .head
  · subst hm
    cases hlast : lastGiven given .head path with
    | some e => rfl
    | none =>
      rw [if_pos rfl, if_pos rfl, lastGiven_cons, if_neg fun h => hget ⟨rfl, hlast, h⟩]
  · rw [if_neg hm, if_neg hm]

theorem routed_cons_self (g : Method × String × Entry H S)
    (given : List (Method × String × Entry H S)) :
    routed (g :: given) g.1 g.2.1 = some g.2.2 := by
  unfold routed
  rw [lastGiven_cons, if_pos ⟨rfl, rfl⟩]
  rfl

theorem routed_head_of_get (e : Entry H S) {given : List (Method × String × Entry H S)}
    {path : String} (h : lastGiven given .head path = none) :
    routed ((.get, path, e) :: given) .head path = some e := by
  unfold routed
  rw [lastGiven_cons, if_neg fun h => Method.noConfusion h.1, h, if_pos rfl, lastGiven_cons,
    if_pos ⟨rfl, rfl⟩]
  rfl

/-- The routes after an accepted one. -/
theorem insert_routes {r : Router Nat} {method : Method} {path : String}
    (hfree : ∃ u, mx.check ((r.routesOf method).map Prod.fst) path = .ok u) (id : Nat) :
    ∃ r', r.insert mx method path id = (.ok (), r') ∧
      (path, id) ∈ r'.routesOf method ∧
      (∀ m route, route ∈ r.routesOf m → route ∈ r'.routesOf m) ∧
      ∀ m p j, (p, j) ∈ r'.routesOf m → (p, j) ∈ r.routesOf m ∨
        p = path ∧ j = id ∧ (m = method ∨ method = .get ∧ m = .head ∧
          ∃ u, mx.check ((r.routesOf .head).map Prod.fst) path = .ok u) := by
  obtain ⟨r', hinsert, hother, hown, hhead⟩ := insert_of_free hfree id
  refine ⟨r', hinsert, ?_, fun m route hroute => ?_, fun m p j hroute => ?_⟩
  · rw [hown]
    exact List.mem_append_right _ (List.mem_singleton_self _)
  · by_cases hm : m = method
    · rw [hm, hown, ← hm]
      exact List.mem_append_left _ hroute
    by_cases hget : method = .get ∧ m = .head
    · rw [hget.2] at hroute ⊢
      rcases hhead hget.1 with h | ⟨h, _⟩
      · rw [h]
        exact hroute
      · rw [h]
        exact List.mem_append_left _ hroute
    · rw [hother m hm hget]
      exact hroute
  · by_cases hm : m = method
    · rw [hm, hown, List.mem_append, List.mem_singleton, Prod.mk.injEq] at hroute
      rw [hm]
      exact hroute.imp_right fun h => ⟨h.1, h.2, .inl rfl⟩
    by_cases hget : method = .get ∧ m = .head
    · rw [hget.2] at hroute ⊢
      rcases hhead hget.1 with h | ⟨h, hcheck⟩
      · rw [h] at hroute
        exact .inl hroute
      · rw [h, List.mem_append, List.mem_singleton, Prod.mk.injEq] at hroute
        exact hroute.imp_right fun h => ⟨h.1, h.2, .inr ⟨hget.1, rfl, hcheck⟩⟩
    · rw [hother m hm hget] at hroute
      exact .inl hroute

/-! ## New slots -/

/-- Eight entries are pushed. -/
def Tables.grow (t : Tables H S) (e : Entry H S) : Tables H S :=
  { t with
    handlers := t.handlers ++ [e.handler], native := t.native ++ [e.native]
    crud := t.crud ++ [e.crud], sseSpecs := t.sseSpecs ++ [e.sseSpec]
    schemas := t.schemas ++ [e.schema], schemaJsons := t.schemaJsons ++ [e.schemaJson]
    querySchemaJsons := t.querySchemaJsons ++ [e.querySchemaJson]
    batchConfigs := t.batchConfigs ++ [e.batchConfig] }

theorem Tables.Aligned.grow {t : Tables H S} (h : t.Aligned) (e : Entry H S) :
    (t.grow e).Aligned := by
  obtain ⟨h1, h2, h3, h4, h5, h6, h7⟩ := h
  simp only [Tables.Aligned, Tables.grow, List.length_append, List.length_cons, List.length_nil,
    h1, h2, h3, h4, h5, h6, h7, and_self]

theorem Tables.Holds.grow {t : Tables H S} {id : Nat} {e' : Entry H S} (h : t.Holds id e')
    (e : Entry H S) : (t.grow e).Holds id e' := by
  have hold : ∀ {α : Type} {l : List α} {a b : α}, l[id]? = some a → (l ++ [b])[id]? = some a := by
    intro α l a b hl
    rw [List.getElem?_append_left (List.getElem?_eq_some_iff.mp hl).1, hl]
  obtain ⟨h1, h2, h3, h4, h5, h6, h7, h8⟩ := h
  exact ⟨hold h1, hold h2, hold h3, hold h4, hold h5, hold h6, hold h7, hold h8⟩

theorem Tables.Aligned.holds_grow {t : Tables H S} (h : t.Aligned) (e : Entry H S) :
    (t.grow e).Holds t.handlers.length e := by
  have hnew : ∀ {α : Type} {l : List α} (a : α), l.length = t.handlers.length →
      (l ++ [a])[t.handlers.length]? = some a := by
    intro α l a hl
    rw [← hl, List.getElem?_concat_length]
  obtain ⟨h1, h2, h3, h4, h5, h6, h7⟩ := h
  exact ⟨hnew _ rfl, hnew _ h1, hnew _ h2, hnew _ h3, hnew _ h4, hnew _ h5, hnew _ h6, hnew _ h7⟩

/-- One more route, and the one for `HEAD` that it may bring along. -/
structure Adds (given : List (Method × String × Entry H S)) (r r' : Router Nat)
    (method : Method) (path : String) (id : Nat) : Prop where
  own : (path, id) ∈ r'.routesOf method
  old : ∀ m route, route ∈ r.routesOf m → route ∈ r'.routesOf m
  new : ∀ m p j, (p, j) ∈ r'.routesOf m → (p, j) ∈ r.routesOf m ∨
    p = path ∧ j = id ∧
      (m = method ∨ method = .get ∧ m = .head ∧ lastGiven given .head path = none)
  /-- The path is new to the method. -/
  apart : ∀ m p j, (p, j) ∈ r.routesOf m → ¬ (method = m ∧ path = p)
  fresh : ∀ m p j, (p, j) ∈ r.routesOf m → j < id

/-- A route that the matcher accepts. -/
theorem Sound.adds {given : List (Method × String × Entry H S)} {t : Tables H S}
    (hself : ∀ paths path, path ∈ paths → ∀ u, mx.check paths path ≠ .ok u)
    (hs : Sound given t) {method : Method} {path : String} (hfree : Free mx t method path) :
    ∃ r', t.router.insert mx method path t.handlers.length = (.ok (), r') ∧
      Adds given t.router r' method path t.handlers.length := by
  obtain ⟨r', hinsert, hown, hold, hnew⟩ := insert_routes hfree t.handlers.length
  -- the path is new to the method, and to `HEAD` where it is brought along
  have hfresh : ∀ m, (∃ u, mx.check ((t.router.routesOf m).map Prod.fst) path = .ok u) →
      ∀ j, (path, j) ∉ t.router.routesOf m :=
    fun m ⟨u, hu⟩ j hj => hself _ _ (List.mem_map_of_mem hj) u hu
  have hungiven : ∀ m, (∃ u, mx.check ((t.router.routesOf m).map Prod.fst) path = .ok u) →
      lastGiven given m path = none := by
    intro m hm
    cases hlast : lastGiven given m path with
    | none => rfl
    | some e =>
      obtain ⟨j, hj⟩ := hs.present m path e hlast
      exact absurd hj (hfresh m hm j)
  refine ⟨r', hinsert, hown, hold, ?_, ?_, ?_⟩
  · intro m p j hj
    refine (hnew m p j hj).imp_right fun ⟨hp, hid, hm⟩ => ⟨hp, hid, ?_⟩
    exact hm.imp_right fun ⟨hget, hhead, hcheck⟩ => ⟨hget, hhead, hungiven _ hcheck⟩
  · rintro m p j hj ⟨rfl, rfl⟩
    exact hfresh _ hfree j hj
  · intro m p j hj
    obtain ⟨e, _, he⟩ := hs.holds m p j hj
    exact he.lt

section Added

variable {given : List (Method × String × Entry H S)} {t : Tables H S} {r' : Router Nat}
  {method : Method} {path : String}

theorem Adds.holds (ha : Adds given t.router r' method path t.handlers.length)
    (hs : Sound given t) (e : Entry H S) (m : Method) (p : String) (j : Nat)
    (hj : (p, j) ∈ r'.routesOf m) :
    ∃ e', routed ((method, path, e) :: given) m p = some e' ∧ (t.grow e).Holds j e' := by
  rcases ha.new m p j hj with hj | ⟨rfl, rfl, hm⟩
  · obtain ⟨e', he', hholds⟩ := hs.holds m p j hj
    refine ⟨e', ?_, hholds.grow e⟩
    rw [routed_cons_ne (ha.apart _ _ _ hj), he']
    rintro ⟨rfl, hlast, hget⟩
    exact ha.apart _ _ _ (hs.heads p j hj hlast) hget
  · refine ⟨e, ?_, hs.aligned.holds_grow e⟩
    rcases hm with rfl | ⟨rfl, rfl, hlast⟩
    · exact routed_cons_self _ _
    · exact routed_head_of_get e hlast

theorem Adds.get_iff (ha : Adds given t.router r' method path t.handlers.length) (p : String)
    (j : Nat) : (p, j) ∈ r'.routesOf .get ↔
      (p, j) ∈ t.router.routesOf .get ∨ method = .get ∧ p = path ∧ j = t.handlers.length := by
  constructor
  · intro hj
    refine (ha.new _ p j hj).imp_right ?_
    rintro ⟨hp, hj, rfl | ⟨_, hm, _⟩⟩
    · exact ⟨rfl, hp, hj⟩
    · exact absurd hm (by decide)
  · rintro (hj | ⟨rfl, rfl, rfl⟩)
    · exact ha.old _ _ hj
    · exact ha.own

theorem Adds.owned (ha : Adds given t.router r' method path t.handlers.length)
    (hs : Sound given t) (e : Entry H S) (p : String) (j : Nat) (m : Method) (p' : String)
    (hget : (p, j) ∈ r'.routesOf .get) (hm : (p', j) ∈ r'.routesOf m) :
    p' = p ∧ (m = .get ∨ m = .head ∧ lastGiven ((method, path, e) :: given) .head p = none) := by
  rcases (ha.get_iff p j).mp hget with hget | ⟨rfl, rfl, rfl⟩
  · rcases ha.new _ p' j hm with hm | ⟨_, rfl, _⟩
    · obtain ⟨hp, hcases⟩ := hs.owned p j m p' hget hm
      refine ⟨hp, hcases.imp_right fun ⟨hhead, hlast⟩ => ⟨hhead, ?_⟩⟩
      rw [lastGiven_cons, if_neg (hp ▸ hhead ▸ ha.apart _ _ _ hm), hlast]
    · exact absurd (ha.fresh _ p _ hget) (lt_irrefl _)
  · rcases ha.new _ p' _ hm with hm | ⟨rfl, _, hcases⟩
    · exact absurd (ha.fresh _ p' _ hm) (lt_irrefl _)
    · refine ⟨rfl, hcases.imp_right fun ⟨_, hhead, hlast⟩ => ⟨hhead, ?_⟩⟩
      rw [lastGiven_cons, if_neg fun h => Method.noConfusion h.1, hlast]

theorem Adds.heads (ha : Adds given t.router r' method path t.handlers.length)
    (hs : Sound given t) (e : Entry H S) (p : String) (j : Nat)
    (hj : (p, j) ∈ r'.routesOf .head)
    (hlast : lastGiven ((method, path, e) :: given) .head p = none) :
    (p, j) ∈ r'.routesOf .get := by
  rw [lastGiven_cons] at hlast
  split at hlast
  · cases hlast
  next hg =>
    rcases ha.new _ p j hj with hj | ⟨rfl, rfl, hm | ⟨rfl, _, _⟩⟩
    · exact ha.old _ _ (hs.heads p j hj hlast)
    · exact absurd ⟨hm.symm, rfl⟩ hg
    · exact ha.own

theorem Adds.present (ha : Adds given t.router r' method path t.handlers.length)
    (hs : Sound given t) (e : Entry H S) (m : Method) (p : String) (e' : Entry H S)
    (hlast : lastGiven ((method, path, e) :: given) m p = some e') :
    ∃ j, (p, j) ∈ r'.routesOf m := by
  rw [lastGiven_cons] at hlast
  split at hlast
  next hg =>
    obtain ⟨rfl, rfl⟩ := hg
    exact ⟨_, ha.own⟩
  · obtain ⟨j, hj⟩ := hs.present m p e' hlast
    exact ⟨j, ha.old _ _ hj⟩

end Added

/-- A new slot for a route that the matcher accepts. -/
theorem Sound.grow {given : List (Method × String × Entry H S)} {t : Tables H S}
    (hself : ∀ paths path, path ∈ paths → ∀ u, mx.check paths path ≠ .ok u)
    (hs : Sound given t) {method : Method} {path : String} (hfree : Free mx t method path)
    (e : Entry H S) (indices : AList fun _ : Method × String => Nat)
    (hindices : ∀ p id, indices.lookup (.get, p) = some id ↔
      t.routeIndices.lookup (.get, p) = some id ∨
        method = .get ∧ p = path ∧ id = t.handlers.length)
    (hbody : method = .get → e.schema = none ∧ e.schemaJson = none ∧ e.batchConfig = none) :
    ∃ t', Tables.insertRoute mx { t.grow e with routeIndices := indices } method path
        t.handlers.length = (.ok (), t') ∧
      Sound ((method, path, e) :: given) t' := by
  obtain ⟨r', hinsert, ha⟩ := hs.adds hself hfree
  refine ⟨{ t.grow e with routeIndices := indices, router := r' }, ?_, ?_⟩
  · rw [Tables.insertRoute]
    simp only [Tables.grow, hinsert]
  refine ⟨hs.aligned.grow e, ha.holds hs e, ?_, ha.owned hs e, ha.heads hs e,
    ha.present hs e, ?_⟩
  · intro p j
    rw [hindices, hs.indices]
    exact (ha.get_iff p j).symm
  · intro p e' hlast
    rw [lastGiven_cons] at hlast
    split at hlast
    next hg =>
      cases hlast
      exact hbody hg.1
    · exact hs.bodiless p e' hlast

/-! ## What a call does -/

theorem makeCrudSpec_of_complete {r : Registration H S} (h : CrudComplete r) :
    makeCrudSpec (E := E) r.crudTable r.crudColumns = .ok (crudOf r) := by
  rcases h with ⟨htable, hcolumns⟩ | ⟨table, columns, htable, hcolumns, hne⟩
  · rw [crudOf, htable, hcolumns]
    rfl
  · rw [crudOf, htable, hcolumns]
    dsimp only [makeCrudSpec]
    rw [if_neg (by rwa [List.isEmpty_iff])]
    rfl

theorem makeCrudSpec_of_not_complete {r : Registration H S} (h : ¬ CrudComplete r) :
    ∃ e, makeCrudSpec (E := E) r.crudTable r.crudColumns = .error e := by
  unfold makeCrudSpec
  cases htable : r.crudTable with
  | none =>
    cases hcolumns : r.crudColumns with
    | none => exact absurd (.inl ⟨htable, hcolumns⟩) h
    | some columns => exact ⟨_, rfl⟩
  | some table =>
    cases hcolumns : r.crudColumns with
    | none => exact ⟨_, rfl⟩
    | some columns =>
      dsimp only
      by_cases hempty : columns.isEmpty
      · rw [if_pos hempty]
        exact ⟨_, rfl⟩
      · rw [List.isEmpty_iff] at hempty
        exact absurd (.inr ⟨table, columns, htable, hcolumns, hempty⟩) h

theorem resolveSchemaJson_of_usable {schema : Option S} (h : Usable schemaJson schema) :
    Tables.resolveSchemaJson (E := E) schemaJson schema = .ok (jsonOf schemaJson schema) := by
  cases schema with
  | none => rfl
  | some schema =>
    rw [Tables.resolveSchemaJson, jsonOf, Option.bind_some]
    cases hjson : schemaJson schema with
    | none => exact absurd hjson (h schema rfl)
    | some json => rfl

theorem resolveSchemaJson_of_not_usable {schema : Option S} (h : ¬ Usable schemaJson schema) :
    Tables.resolveSchemaJson (E := E) schemaJson schema = .error .schema := by
  rw [Usable, not_forall] at h
  obtain ⟨s, hs⟩ := h
  rw [Classical.not_imp, not_not] at hs
  rw [hs.1, Tables.resolveSchemaJson, hs.2]

theorem Sound.push {given : List (Method × String × Entry H S)} {t : Tables H S}
    (hself : ∀ paths path, path ∈ paths → ∀ u, mx.check paths path ≠ .ok u)
    (hs : Sound given t) {method : Method} (hmethod : method ≠ .get)
    {bodySchema schema : Option S} {batch : Option (Nat × Nat)} {r : Registration H S}
    (h : Pushable mx schemaJson t method schema r) :
    ∃ t', Tables.push mx schemaJson method bodySchema schema batch r t = (.ok (), t') ∧
      Sound ((method, r.path, ⟨some r.handler, r.native.getD false, crudOf r, none, bodySchema,
        jsonOf schemaJson schema, jsonOf schemaJson r.querySchema, batch⟩) :: given) t' := by
  obtain ⟨hcrud, hschema, hquery, hfree⟩ := h
  rw [Tables.push, makeCrudSpec_of_complete hcrud]
  dsimp only
  rw [resolveSchemaJson_of_usable hschema]
  dsimp only
  rw [resolveSchemaJson_of_usable hquery]
  exact hs.grow hself hfree ⟨some r.handler, r.native.getD false, crudOf r, none, bodySchema,
    jsonOf schemaJson schema, jsonOf schemaJson r.querySchema, batch⟩ t.routeIndices
    (fun p id => (or_iff_left fun h => hmethod h.1).symm) fun h => absurd h hmethod

/-- The index of a new route for `GET`. -/
theorem lookup_insert_iff {t : Tables H S} {path : String} {n : Nat}
    (h : t.routeIndices.lookup (.get, path) = none) (p : String) (id : Nat) :
    (t.routeIndices.insert (.get, path) n).lookup (.get, p) = some id ↔
      t.routeIndices.lookup (.get, p) = some id ∨ Method.get = .get ∧ p = path ∧ id = n := by
  by_cases hp : p = path
  · rw [hp, AList.lookup_insert, h]
    simp [eq_comm]
  · rw [AList.lookup_insert_ne (fun h => hp (Prod.mk.inj h).2)]
    simp [hp]

/-- A slot of `GET` that is given new entries. -/
theorem Sound.overwrite {given : List (Method × String × Entry H S)} {t t' : Tables H S}
    (hs : Sound given t) {path : String} {id : Nat} {e : Entry H S}
    (hroute : (path, id) ∈ t.router.routesOf .get) (hrouter : t'.router = t.router)
    (hindices : t'.routeIndices = t.routeIndices) (haligned : t'.Aligned) (hnew : t'.Holds id e)
    (hold : ∀ j e', j ≠ id → t.Holds j e' → t'.Holds j e')
    (hbody : e.schema = none ∧ e.schemaJson = none ∧ e.batchConfig = none) :
    Sound ((.get, path, e) :: given) t' := by
  have huniq : ∀ {j}, (path, j) ∈ t.router.routesOf .get → j = id := by
    intro j hj
    rw [← hs.indices] at hj hroute
    exact Option.some.inj (hj.symm.trans hroute)
  have hlast : ∀ p, lastGiven ((.get, path, e) :: given) .head p = lastGiven given .head p := by
    intro p
    rw [lastGiven_cons, if_neg fun h => Method.noConfusion h.1]
  refine ⟨haligned, ?_, ?_, ?_, ?_, ?_, ?_⟩
  · intro m p j hj
    rw [hrouter] at hj
    by_cases hid : j = id
    · subst hid
      obtain ⟨rfl, hm⟩ := hs.owned _ _ m p hroute hj
      refine ⟨e, ?_, hnew⟩
      rcases hm with rfl | ⟨rfl, hhead⟩
      · exact routed_cons_self _ _
      · exact routed_head_of_get e hhead
    · obtain ⟨e', he', hholds⟩ := hs.holds m p j hj
      refine ⟨e', ?_, hold j e' hid hholds⟩
      rw [routed_cons_ne ?_ ?_, he']
      · rintro ⟨rfl, rfl⟩
        exact hid (huniq hj)
      · rintro ⟨rfl, hhead, _, rfl⟩
        exact hid (huniq (hs.heads _ j hj hhead))
  · intro p j
    rw [hindices, hrouter]
    exact hs.indices p j
  · intro p j m p' hget hm
    rw [hrouter] at hget hm
    rw [hlast]
    exact hs.owned p j m p' hget hm
  · intro p j hj hhead
    rw [hlast] at hhead
    rw [hrouter] at hj ⊢
    exact hs.heads p j hj hhead
  · intro m p e' he'
    rw [hrouter]
    rw [lastGiven_cons] at he'
    split at he'
    next hg =>
      obtain ⟨rfl, rfl⟩ := hg
      exact ⟨id, hroute⟩
    · exact hs.present m p e' he'
  · intro p e' he'
    rw [lastGiven_cons] at he'
    split at he'
    · cases he'
      exact hbody
    · exact hs.bodiless p e' he'

/-- The entries of an indexed slot. -/
theorem Sound.slot {given : List (Method × String × Entry H S)} {t : Tables H S}
    (hs : Sound given t) {path : String} {id : Nat}
    (h : t.routeIndices.lookup (.get, path) = some id) :
    (path, id) ∈ t.router.routesOf .get ∧ ∃ e, t.Holds id e ∧
      e.schema = none ∧ e.schemaJson = none ∧ e.batchConfig = none := by
  have hroute := (hs.indices path id).mp h
  obtain ⟨e, he, hholds⟩ := hs.holds _ _ _ hroute
  rw [routed, if_neg (by decide), Option.or_none] at he
  exact ⟨hroute, e, hholds, hs.bodiless path e he⟩

theorem getElem?_set_of_ne {α : Type} {l : List α} {id j : Nat} {a b : α} (h : j ≠ id)
    (hj : l[j]? = some b) : (l.set id a)[j]? = some b := by
  rw [List.getElem?_set_ne h.symm, hj]

theorem Sound.get {given : List (Method × String × Entry H S)} {t : Tables H S}
    (hself : ∀ paths path, path ∈ paths → ∀ u, mx.check paths path ≠ .ok u)
    (hs : Sound given t) {r : Registration H S} (h : Fine mx schemaJson t (.get r)) :
    (∃ e, Tables.get mx schemaJson r t = (.error e, t)) ∨
      ∃ t', Tables.get mx schemaJson r t = (.ok (), t') ∧
        Sound ((.get, r.path, plainEntry schemaJson r) :: given) t' := by
  rw [Tables.get]
  by_cases hcrud : CrudComplete r
  case neg =>
    obtain ⟨e, he⟩ := makeCrudSpec_of_not_complete (E := E) hcrud
    rw [he]
    exact .inl ⟨e, rfl⟩
  rw [makeCrudSpec_of_complete hcrud]
  dsimp only
  by_cases hquery : Usable schemaJson r.querySchema
  case neg =>
    rw [resolveSchemaJson_of_not_usable hquery]
    exact .inl ⟨_, rfl⟩
  rw [resolveSchemaJson_of_usable hquery]
  dsimp only
  refine .inr ?_
  replace h := h.resolve_left (not_not_intro ⟨hcrud, hquery⟩)
  cases hlookup : t.routeIndices.lookup (.get, r.path) with
  | none =>
    rw [hlookup] at h
    exact hs.grow hself h (plainEntry schemaJson r) _ (lookup_insert_iff hlookup)
      fun _ => ⟨rfl, rfl, rfl⟩
  | some id =>
    rw [hlookup] at h
    obtain ⟨hroute, e, hholds, _, _, hbatch⟩ := hs.slot hlookup
    have hid := hholds.lt
    obtain ⟨h1, h2, h3, h4, h5, h6, h7⟩ := hs.aligned
    simp only [Tables.assign, hid, h1, h2, h4, h5, h6, if_true]
    refine ⟨_, rfl, hs.overwrite hroute rfl rfl ?_ ?_ ?_ ⟨rfl, rfl, rfl⟩⟩
    · simp only [Tables.Aligned, List.length_set, h1, h2, h3, h4, h5, h6, h7, and_self]
    · exact ⟨List.getElem?_set_self hid, List.getElem?_set_self (h1 ▸ hid),
        List.getElem?_set_self (h2 ▸ hid), h, List.getElem?_set_self (h4 ▸ hid),
        List.getElem?_set_self (h5 ▸ hid), List.getElem?_set_self (h6 ▸ hid),
        hholds.2.2.2.2.2.2.2.trans (congrArg some hbatch)⟩
    · rintro j e' hj ⟨g1, g2, g3, g4, g5, g6, g7, g8⟩
      exact ⟨getElem?_set_of_ne hj g1, getElem?_set_of_ne hj g2, getElem?_set_of_ne hj g3, g4,
        getElem?_set_of_ne hj g5, getElem?_set_of_ne hj g6, getElem?_set_of_ne hj g7, g8⟩

theorem Sound.sseNative {given : List (Method × String × Entry H S)} {t : Tables H S}
    (hself : ∀ paths path, path ∈ paths → ∀ u, mx.check paths path ≠ .ok u)
    (hs : Sound given t) {path : String} {count intervalMs : Nat}
    (h : Fine mx schemaJson t (.sseNative path count intervalMs)) :
    ∃ t', Tables.sseNative mx path count intervalMs t = (.ok (), t') ∧
      Sound ((.get, path, ⟨none, false, none, some (count, intervalMs), none, none, none, none⟩) ::
        given) t' := by
  rw [Tables.sseNative]
  rw [Fine] at h
  cases hlookup : t.routeIndices.lookup (.get, path) with
  | none =>
    rw [hlookup] at h
    exact hs.grow hself h ⟨none, false, none, some (count, intervalMs), none, none, none, none⟩ _
      (lookup_insert_iff hlookup) fun _ => ⟨rfl, rfl, rfl⟩
  | some id =>
    rw [hlookup] at h
    obtain ⟨hnative, hcrud, hquery⟩ := h
    obtain ⟨hroute, e, hholds, hschema, hjson, hbatch⟩ := hs.slot hlookup
    have hid := hholds.lt
    obtain ⟨h1, h2, h3, h4, h5, h6, h7⟩ := hs.aligned
    simp only [Tables.assign, hid, h3, if_true]
    refine ⟨_, rfl, hs.overwrite hroute rfl rfl ?_ ?_ ?_ ⟨rfl, rfl, rfl⟩⟩
    · simp only [Tables.Aligned, List.length_set, h1, h2, h3, h4, h5, h6, h7, and_self]
    · obtain ⟨_, _, _, _, g5, g6, _, g8⟩ := hholds
      exact ⟨List.getElem?_set_self hid, hnative, hcrud, List.getElem?_set_self (h3 ▸ hid),
        hschema ▸ g5, hjson ▸ g6, hquery, hbatch ▸ g8⟩
    · rintro j e' hj ⟨g1, g2, g3, g4, g5, g6, g7, g8⟩
      exact ⟨getElem?_set_of_ne hj g1, g2, g3, getElem?_set_of_ne hj g4, g5, g6, g7, g8⟩

/-- A call either raises and changes nothing, or its entries are in place. -/
theorem Sound.exec {given : List (Method × String × Entry H S)} {t : Tables H S}
    (hself : ∀ paths path, path ∈ paths → ∀ u, mx.check paths path ≠ .ok u)
    (hs : Sound given t) {call : Call H S} (h : Fine mx schemaJson t call) :
    (∃ e, call.exec mx schemaJson t = (.error e, t)) ∨
      ∃ t', call.exec mx schemaJson t = (.ok (), t') ∧
        Sound (call.route schemaJson :: given) t' := by
  cases call with
  | get r => exact hs.get hself h
  | post r => exact .inr (hs.push hself (by decide) h)
  | put r => exact .inr (hs.push hself (by decide) h)
  | patch r => exact .inr (hs.push hself (by decide) h)
  | delete r => exact .inr (hs.push hself (by decide) h)
  | query r => exact .inr (hs.push hself (by decide) h)
  | head r => exact .inr (hs.push hself (by decide) h)
  | options r => exact .inr (hs.push hself (by decide) h)
  | trace r => exact .inr (hs.push hself (by decide) h)
  | sseNative path count intervalMs => exact .inr (hs.sseNative hself h)

/-! ## Slots -/

theorem makeCrudSpec_ok {r : Registration H S} {crud : Option CrudSpec}
    (h : makeCrudSpec (E := E) r.crudTable r.crudColumns = .ok crud) : crud = crudOf r := by
  by_cases hcomplete : CrudComplete r
  · rw [makeCrudSpec_of_complete hcomplete] at h
    exact (Except.ok.inj h).symm
  · obtain ⟨e, he⟩ := makeCrudSpec_of_not_complete (E := E) hcomplete
    rw [he] at h
    cases h

theorem resolveSchemaJson_ok {schema : Option S} {json : Option String}
    (h : Tables.resolveSchemaJson (E := E) schemaJson schema = .ok json) :
    json = jsonOf schemaJson schema := by
  by_cases husable : Usable schemaJson schema
  · rw [resolveSchemaJson_of_usable husable] at h
    exact (Except.ok.inj h).symm
  · rw [resolveSchemaJson_of_not_usable husable] at h
    cases h

theorem insertRoute_ok {t t' : Tables H S} {method : Method} {path : String} {id : Nat}
    (h : Tables.insertRoute mx t method path id = (.ok (), t')) :
    ∃ router, t' = { t with router := router } := by
  unfold Tables.insertRoute at h
  split at h
  next router _ => exact ⟨router, (Prod.mk.inj h).2.symm⟩
  · cases (Prod.mk.inj h).1

theorem assign_ok {α : Type} {table : Tables H S → List α}
    {withTable : Tables H S → List α → Tables H S} {id : Nat} {value : α}
    {rest : Tables H S → Except (Raised E) Unit × Tables H S} {t t' : Tables H S}
    (h : Tables.assign table withTable id value rest t = (.ok (), t')) :
    id < (table t).length ∧ rest (withTable t ((table t).set id value)) = (.ok (), t') := by
  unfold Tables.assign at h
  split at h
  next hid => exact ⟨hid, h⟩
  · cases (Prod.mk.inj h).1

/-- A registration that does not raise makes a new slot. -/
def Grown (t t' : Tables H S) (e : Entry H S) : Prop :=
  ∃ indices router, t' = { t.grow e with routeIndices := indices, router := router }

theorem push_ok {method : Method} {bodySchema schema : Option S} {batch : Option (Nat × Nat)}
    {r : Registration H S} {t t' : Tables H S}
    (h : Tables.push mx schemaJson method bodySchema schema batch r t = (.ok (), t')) :
    Grown t t' ⟨some r.handler, r.native.getD false, crudOf r, none, bodySchema,
      jsonOf schemaJson schema, jsonOf schemaJson r.querySchema, batch⟩ := by
  unfold Tables.push at h
  dsimp only at h
  split at h
  · cases (Prod.mk.inj h).1
  next crud hcrud =>
    split at h
    · cases (Prod.mk.inj h).1
    next json hjson =>
      split at h
      · cases (Prod.mk.inj h).1
      next query hquery =>
        obtain ⟨router, rfl⟩ := insertRoute_ok h
        rw [makeCrudSpec_ok hcrud, resolveSchemaJson_ok hjson, resolveSchemaJson_ok hquery]
        exact ⟨t.routeIndices, router, rfl⟩

/-- The entries that `get` assigns. -/
def regotten (schemaJson : S → Option String) (r : Registration H S) (e : Entry H S) : Entry H S :=
  ⟨some r.handler, r.native.getD false, crudOf r, e.sseSpec, none, none,
    jsonOf schemaJson r.querySchema, e.batchConfig⟩

/-- The entries that `sse_native` assigns. -/
def streamed (count intervalMs : Nat) (e : Entry H S) : Entry H S :=
  ⟨none, e.native, e.crud, some (count, intervalMs), e.schema, e.schemaJson, e.querySchemaJson,
    e.batchConfig⟩

/-- One slot has new entries, and the others have what they had. -/
structure Reassigned (t t' : Tables H S) (id : Nat) (change : Entry H S → Entry H S) : Prop where
  length : t'.handlers.length = t.handlers.length
  aligned : t.Aligned → t'.Aligned
  changed : ∀ e, t.Holds id e → t'.Holds id (change e)
  others : ∀ j e, j ≠ id → t.Holds j e → t'.Holds j e

theorem get_ok {r : Registration H S} {t t' : Tables H S}
    (h : Tables.get mx schemaJson r t = (.ok (), t')) :
    Grown t t' (plainEntry schemaJson r) ∨ ∃ id, t.routeIndices.lookup (.get, r.path) = some id ∧
      Reassigned t t' id (regotten schemaJson r) := by
  unfold Tables.get at h
  split at h
  · cases (Prod.mk.inj h).1
  next crud hcrud =>
    split at h
    · cases (Prod.mk.inj h).1
    next query hquery =>
      rw [makeCrudSpec_ok hcrud, resolveSchemaJson_ok hquery] at h
      split at h
      next id hid =>
        obtain ⟨h1, h⟩ := assign_ok h
        obtain ⟨h2, h⟩ := assign_ok h
        obtain ⟨h3, h⟩ := assign_ok h
        obtain ⟨h4, h⟩ := assign_ok h
        obtain ⟨h5, h⟩ := assign_ok h
        obtain ⟨h6, h⟩ := assign_ok h
        obtain ⟨_, rfl⟩ := Prod.mk.inj h
        refine .inr ⟨id, hid, List.length_set, fun haligned => ?_, fun e he => ?_, ?_⟩
        · obtain ⟨g1, g2, g3, g4, g5, g6, g7⟩ := haligned
          simp only [Tables.Aligned, List.length_set, g1, g2, g3, g4, g5, g6, g7, and_self]
        · obtain ⟨_, _, _, g4, _, _, _, g8⟩ := he
          exact ⟨List.getElem?_set_self h1, List.getElem?_set_self h2, List.getElem?_set_self h3,
            g4, List.getElem?_set_self h4, List.getElem?_set_self h5, List.getElem?_set_self h6,
            g8⟩
        · rintro j e hj ⟨g1, g2, g3, g4, g5, g6, g7, g8⟩
          exact ⟨getElem?_set_of_ne hj g1, getElem?_set_of_ne hj g2, getElem?_set_of_ne hj g3, g4,
            getElem?_set_of_ne hj g5, getElem?_set_of_ne hj g6, getElem?_set_of_ne hj g7, g8⟩
      next hid =>
        obtain ⟨router, rfl⟩ := insertRoute_ok h
        exact .inl ⟨_, router, rfl⟩

theorem sseNative_ok {path : String} {count intervalMs : Nat} {t t' : Tables H S}
    (h : Tables.sseNative mx path count intervalMs t = (.ok (), t')) :
    Grown t t' ⟨none, false, none, some (count, intervalMs), none, none, none, none⟩ ∨
      ∃ id, Reassigned t t' id (streamed count intervalMs) := by
  unfold Tables.sseNative at h
  split at h
  next id hid =>
    obtain ⟨h1, h⟩ := assign_ok h
    obtain ⟨h2, h⟩ := assign_ok h
    obtain ⟨_, rfl⟩ := Prod.mk.inj h
    refine .inr ⟨id, List.length_set, fun haligned => ?_, fun e he => ?_, ?_⟩
    · obtain ⟨g1, g2, g3, g4, g5, g6, g7⟩ := haligned
      simp only [Tables.Aligned, List.length_set, g1, g2, g3, g4, g5, g6, g7, and_self]
    · obtain ⟨_, g2, g3, _, g5, g6, g7, g8⟩ := he
      exact ⟨List.getElem?_set_self h1, g2, g3, List.getElem?_set_self h2, g5, g6, g7, g8⟩
    · rintro j e hj ⟨g1, g2, g3, g4, g5, g6, g7, g8⟩
      exact ⟨getElem?_set_of_ne hj g1, g2, g3, getElem?_set_of_ne hj g4, g5, g6, g7, g8⟩
  next hid =>
    obtain ⟨router, rfl⟩ := insertRoute_ok h
    exact .inl ⟨_, router, rfl⟩

theorem Grown.slots {t t' : Tables H S} {e : Entry H S} (h : Grown t t' e) (haligned : t.Aligned)
    {P : Entry H S → Prop} (hold : ∀ id < t.handlers.length, ∃ e, t.Holds id e ∧ P e) (he : P e) :
    t'.Aligned ∧ ∀ id < t'.handlers.length, ∃ e, t'.Holds id e ∧ P e := by
  obtain ⟨indices, router, rfl⟩ := h
  refine ⟨haligned.grow e, fun id hid => ?_⟩
  have hlength : id < (t.handlers ++ [e.handler]).length := hid
  rw [List.length_append, List.length_singleton] at hlength
  rcases Nat.lt_succ_iff_lt_or_eq.mp hlength with hlt | rfl
  · obtain ⟨e', hholds, hp⟩ := hold id hlt
    exact ⟨e', hholds.grow e, hp⟩
  · exact ⟨e, haligned.holds_grow e, he⟩

theorem Reassigned.slots {t t' : Tables H S} {id : Nat} {change : Entry H S → Entry H S}
    (h : Reassigned t t' id change) (haligned : t.Aligned) {P : Entry H S → Prop}
    (hold : ∀ id < t.handlers.length, ∃ e, t.Holds id e ∧ P e)
    (hchange : ∀ e, t.Holds id e → P e → P (change e)) :
    t'.Aligned ∧ ∀ id < t'.handlers.length, ∃ e, t'.Holds id e ∧ P e := by
  refine ⟨h.aligned haligned, fun j hj => ?_⟩
  obtain ⟨e, hholds, hp⟩ := hold j (h.length ▸ hj)
  by_cases hid : j = id
  · subst hid
    exact ⟨change e, h.changed e hholds, hchange e hholds hp⟩
  · exact ⟨e, h.others j e hid hholds, hp⟩

/-- What every slot has is kept by a registration that does not raise, if the new slot has
it and the two that assign to a slot keep it. -/
theorem exec_slots {call : Call H S} {t t' : Tables H S}
    (h : call.exec mx schemaJson t = (.ok (), t')) (haligned : t.Aligned) {P : Entry H S → Prop}
    (hold : ∀ id < t.handlers.length, ∃ e, t.Holds id e ∧ P e)
    (hnew : P (call.route schemaJson).2.2)
    (hget : ∀ r id e, call = .get r → t.routeIndices.lookup (.get, r.path) = some id →
      t.Holds id e → P e → P (regotten schemaJson r e))
    (hsse : ∀ path count intervalMs e, call = .sseNative path count intervalMs → P e →
      P (streamed count intervalMs e)) :
    t'.Aligned ∧ ∀ id < t'.handlers.length, ∃ e, t'.Holds id e ∧ P e := by
  cases call with
  | get r =>
    rcases get_ok h with hgrown | ⟨id, hid, hassigned⟩
    · exact hgrown.slots haligned hold hnew
    · exact hassigned.slots haligned hold fun e he => hget r id e rfl hid he
  | sseNative path count intervalMs =>
    rcases sseNative_ok h with hgrown | ⟨id, hassigned⟩
    · exact hgrown.slots haligned hold hnew
    · exact hassigned.slots haligned hold fun e _ => hsse path count intervalMs e rfl
  | post r => exact (push_ok h).slots haligned hold hnew
  | put r => exact (push_ok h).slots haligned hold hnew
  | patch r => exact (push_ok h).slots haligned hold hnew
  | delete r =>
    have hpush : Tables.push mx schemaJson .delete none none none r t = (.ok (), t') := h
    exact (push_ok hpush).slots haligned hold hnew
  | query r => exact (push_ok h).slots haligned hold hnew
  | head r =>
    have hpush : Tables.push mx schemaJson .head none none none r t = (.ok (), t') := h
    exact (push_ok hpush).slots haligned hold hnew
  | options r =>
    have hpush : Tables.push mx schemaJson .options none none none r t = (.ok (), t') := h
    exact (push_ok hpush).slots haligned hold hnew
  | trace r =>
    have hpush : Tables.push mx schemaJson .trace none none none r t = (.ok (), t') := h
    exact (push_ok hpush).slots haligned hold hnew

/-! ## Runs -/

theorem after_concat (calls : List (Call H S)) (call : Call H S) :
    after mx schemaJson .new (calls ++ [call]) =
      (call.exec mx schemaJson (after mx schemaJson .new calls)).2 := by
  rw [after, List.foldl_concat]
  rfl

theorem record_snd (p : List (Method × String × Entry H S) × Tables H S) (call : Call H S) :
    (record mx schemaJson p call).2 = (call.exec mx schemaJson p.2).2 := by
  rw [record]
  rcases call.exec mx schemaJson p.2 with ⟨_ | _, t⟩
  · rfl
  · rfl

theorem foldl_record (calls : List (Call H S)) :
    calls.foldl (record mx schemaJson) ([], .new) =
      (successful mx schemaJson calls, after mx schemaJson .new calls) := by
  refine Prod.ext rfl ?_
  induction calls using List.reverseRecOn with
  | nil => rfl
  | append_singleton calls call ih =>
    rw [List.foldl_concat, record_snd, ih, after_concat]

theorem successful_concat (calls : List (Call H S)) (call : Call H S) :
    successful mx schemaJson (calls ++ [call]) =
      (record mx schemaJson (successful mx schemaJson calls, after mx schemaJson .new calls)
        call).1 := by
  rw [← foldl_record]
  conv_lhs => rw [successful, List.foldl_concat]

/-- The tables stay aligned in every run of fine calls. -/
theorem sound_run (hself : ∀ paths path, path ∈ paths → ∀ u, mx.check paths path ≠ .ok u)
    (calls : List (Call H S))
    (hfine : ∀ before call rest, calls = before ++ call :: rest →
      Fine mx schemaJson (after mx schemaJson .new before) call) :
    Sound (successful mx schemaJson calls) (after mx schemaJson .new calls) := by
  induction calls using List.reverseRecOn with
  | nil => exact sound_new
  | append_singleton calls call ih =>
    have hs := ih fun before c rest h => hfine before c (rest ++ [call]) (by
      rw [h, List.append_assoc, List.cons_append])
    rw [after_concat, successful_concat, record]
    dsimp only
    rcases hs.exec hself (hfine calls call [] rfl) with ⟨e, he⟩ | ⟨t', ht', hs'⟩
    · rw [he]
      exact hs
    · rw [ht']
      exact hs'

/-- In a run whose registrations all check their arguments before they push, and overwrite
only slots of their own kind, the tables are kept in every state. -/
theorem tables_kept (hself : ∀ paths path, path ∈ paths → ∀ u, mx.check paths path ≠ .ok u)
    (calls : List (Call H S))
    (hfine : ∀ before call rest, calls = before ++ call :: rest →
      Fine mx schemaJson (after mx schemaJson .new before) call)
    (reached rest : List (Call H S)) (hreached : calls = reached ++ rest) :
    Kept mx schemaJson reached := by
  have hreach : ∀ before call rest', reached = before ++ call :: rest' →
      Fine mx schemaJson (after mx schemaJson .new before) call := by
    intro before call rest' h
    exact hfine before call (rest' ++ rest) (by
      rw [hreached, h, List.append_assoc, List.cons_append])
  have hs := sound_run hself reached hreach
  refine ⟨hs.aligned, hs.holds, fun before call e t h hexec => ?_⟩
  have hbefore := sound_run hself before fun before' c rest' h' => hreach before' c
    (rest' ++ [call]) (by rw [h, h', List.append_assoc, List.cons_append])
  rcases hbefore.exec hself (hreach before call [] h) with ⟨e', he'⟩ | ⟨t', ht', _⟩
  · rw [he'] at hexec
    exact (Prod.mk.inj hexec).2.symm
  · rw [ht'] at hexec
    cases hexec

end Alignment

/-! ## Registrations at one path -/

/-- A matcher of paths without parameters. -/
def plainPaths : Matchit Unit Nat where
  check := fun paths path => if path ∈ paths then .error () else .ok ()
  find := fun routes path => (routes.find? fun route => route.1 = path).map (⟨·.2, []⟩)

/-- A registration for the path `/items`. -/
def items (crudTable : Option String) (crudColumns : Option (List String)) :
    Registration Nat String :=
  ⟨"/items", 0, none, none, none, none, none, none, crudTable, crudColumns⟩

theorem tables_kept_items :
    Kept plainPaths some [.get (items none none), .get (items (some "items") (some ["name"]))] := by
  refine tables_kept ?_ _ (fun before call rest h => ?_) _ [] (List.append_nil _).symm
  · intro paths path hpath u hu
    have herror : plainPaths.check paths path = .error () := if_pos hpath
    rw [herror] at hu
    cases hu
  · rcases before with _ | ⟨c, _ | ⟨c', before⟩⟩
    · obtain ⟨rfl, rfl⟩ := List.cons.inj h
      exact .inr ⟨(), rfl⟩
    · obtain ⟨rfl, hrest⟩ := List.cons.inj h
      obtain ⟨rfl, rfl⟩ := List.cons.inj hrest
      exact .inr rfl
    · obtain ⟨_, hrest⟩ := List.cons.inj h
      obtain ⟨_, hrest⟩ := List.cons.inj hrest
      exact absurd hrest (by simp)

/-- `post` raises for a table without columns when it has pushed two of its eight
entries. -/
theorem post_half_done :
    ¬ Kept plainPaths some [.post (items (some "items") none)] := fun h =>
  absurd h.aligned.2.1 (by decide)

end JustApi.Py.RouteTables
