import JustApi.Core.Routing

/-! # The route tables

The registration functions of the Python module's app: eight tables with an entry for each
handler id, and the router that leads to the ids. What `resolve_schema_json` makes of a
schema object, and whether it raises, is the object's own code and a parameter. -/
namespace JustApi.Py.RouteTables
open JustApi.Core.Http JustApi.Core.Routing

/-- The table, the columns and the id column. -/
abbrev CrudSpec := String × List String × String

/-- What a registration raises. -/
inductive Raised (E : Type) where
  | valueError (message : String)
  /-- What the code of a schema object raises. -/
  | schema
  /-- The router's error, as a `ValueError`. -/
  | conflict (e : E)
  /-- An index out of bounds. -/
  | panic
  deriving DecidableEq, Repr

/-- Handlers of type `H`, none for Python's `None`, and schema objects of type `S`. -/
structure Tables (H S : Type) where
  handlers : List (Option H)
  native : List Bool
  crud : List (Option CrudSpec)
  sseSpecs : List (Option (Nat × Nat))
  schemas : List (Option S)
  schemaJsons : List (Option String)
  querySchemaJsons : List (Option String)
  batchConfigs : List (Option (Nat × Nat))
  routeIndices : AList fun _ : Method × String => Nat
  router : Router Nat

/-- The arguments of a registration that reach the tables. -/
structure Registration (H S : Type) where
  path : String
  handler : H
  bodySchema : Option S
  schema : Option S
  querySchema : Option S
  batchSize : Option Nat
  batchWindowMs : Option Nat
  native : Option Bool
  crudTable : Option String
  crudColumns : Option (List String)

def makeCrudSpec {E : Type} (crudTable : Option String) (crudColumns : Option (List String)) :
    Except (Raised E) (Option CrudSpec) :=
  match crudTable, crudColumns with
  | some table, some columns =>
    if columns.isEmpty then
      .error (.valueError "crud_columns must be non-empty when crud_table is set")
    -- the conventional primary key
    else .ok (some (table, columns, "id"))
  | some _, none => .error (.valueError "crud_table requires crud_columns")
  | none, some _ => .error (.valueError "crud_columns requires crud_table")
  | none, none => .ok none

namespace Tables

section Registering

variable {E H S : Type} (mx : Matchit E Nat) (schemaJson : S → Option String)

def new : Tables H S := ⟨[], [], [], [], [], [], [], [], ∅, ⟨∅, [], some 0⟩⟩

def resolveSchemaJson (schema : Option S) : Except (Raised E) (Option String) :=
  match schema with
  | none => .ok none
  | some schema =>
    match schemaJson schema with
    | some json => .ok (some json)
    | none => .error .schema

/-- A route of the router; an error is raised. -/
def insertRoute (t : Tables H S) (method : Method) (path : String) (id : Nat) :
    Except (Raised E) Unit × Tables H S :=
  match t.router.insert mx method path id with
  | (.ok _, router) => (.ok (), { t with router := router })
  | (.error e, router) => (.error (.conflict e), { t with router := router })

/-- A registration that pushes its entries one after another. -/
def push (method : Method) (bodySchema schema : Option S) (batch : Option (Nat × Nat))
    (r : Registration H S) (t : Tables H S) : Except (Raised E) Unit × Tables H S :=
  let id := t.handlers.length
  let t := { t with
    handlers := t.handlers ++ [some r.handler], native := t.native ++ [r.native.getD false] }
  match makeCrudSpec r.crudTable r.crudColumns with
  | .error e => (.error e, t)
  | .ok crud =>
    let t := { t with
      crud := t.crud ++ [crud], sseSpecs := t.sseSpecs ++ [none]
      schemas := t.schemas ++ [bodySchema] }
    match resolveSchemaJson schemaJson schema with
    | .error e => (.error e, t)
    | .ok json =>
      let t := { t with schemaJsons := t.schemaJsons ++ [json] }
      match resolveSchemaJson schemaJson r.querySchema with
      | .error e => (.error e, t)
      | .ok query =>
        insertRoute mx { t with
          querySchemaJsons := t.querySchemaJsons ++ [query]
          batchConfigs := t.batchConfigs ++ [batch] } method r.path id

/-- The batch configuration of a registration, with the default window. -/
def batchConfig (r : Registration H S) : Option (Nat × Nat) :=
  r.batchSize.map fun size => (size, r.batchWindowMs.getD 10)

def post (r : Registration H S) := push mx schemaJson .post r.bodySchema r.schema (batchConfig r) r

def put (r : Registration H S) := push mx schemaJson .put r.bodySchema r.schema (batchConfig r) r

def patch (r : Registration H S) :=
  push mx schemaJson .patch r.bodySchema r.schema (batchConfig r) r

def delete (r : Registration H S) := push mx schemaJson .delete none none none r

def query (r : Registration H S) :=
  push mx schemaJson (.extension "QUERY") r.bodySchema r.schema none r

def head (r : Registration H S) := push mx schemaJson .head none none none r

def options (r : Registration H S) := push mx schemaJson .options none none none r

def trace (r : Registration H S) := push mx schemaJson .trace none none none r

/-- One entry of a table is assigned, and then the rest is done. -/
def assign {α : Type} (table : Tables H S → List α) (withTable : Tables H S → List α → Tables H S)
    (id : Nat) (value : α) (rest : Tables H S → Except (Raised E) Unit × Tables H S)
    (t : Tables H S) : Except (Raised E) Unit × Tables H S :=
  if id < (table t).length then rest (withTable t ((table t).set id value))
  else (.error .panic, t)

def get (r : Registration H S) (t : Tables H S) : Except (Raised E) Unit × Tables H S :=
  match makeCrudSpec r.crudTable r.crudColumns with
  | .error e => (.error e, t)
  | .ok crud =>
    match resolveSchemaJson schemaJson r.querySchema with
    | .error e => (.error e, t)
    | .ok query =>
      match t.routeIndices.lookup (.get, r.path) with
      | some id =>
        -- six of the eight entries are assigned
        (assign handlers (fun t l => { t with handlers := l }) id (some r.handler) <|
          assign native (fun t l => { t with native := l }) id (r.native.getD false) <|
          assign Tables.crud (fun t l => { t with crud := l }) id crud <|
          assign schemas (fun t l => { t with schemas := l }) id none <|
          assign schemaJsons (fun t l => { t with schemaJsons := l }) id none <|
          assign querySchemaJsons (fun t l => { t with querySchemaJsons := l }) id query
            fun t => (.ok (), t)) t
      | none =>
        let id := t.handlers.length
        insertRoute mx { t with
          handlers := t.handlers ++ [some r.handler], native := t.native ++ [r.native.getD false]
          crud := t.crud ++ [crud], sseSpecs := t.sseSpecs ++ [none]
          schemas := t.schemas ++ [none], schemaJsons := t.schemaJsons ++ [none]
          querySchemaJsons := t.querySchemaJsons ++ [query]
          batchConfigs := t.batchConfigs ++ [none]
          routeIndices := t.routeIndices.insert (.get, r.path) id } .get r.path id

def sseNative (path : String) (count intervalMs : Nat) (t : Tables H S) :
    Except (Raised E) Unit × Tables H S :=
  match t.routeIndices.lookup (.get, path) with
  | some id =>
    -- two of the eight entries are assigned
    (assign handlers (fun t l => { t with handlers := l }) id none <|
      assign sseSpecs (fun t l => { t with sseSpecs := l }) id (some (count, intervalMs))
        fun t => (.ok (), t)) t
  | none =>
    let id := t.handlers.length
    insertRoute mx { t with
      handlers := t.handlers ++ [none], native := t.native ++ [false]
      crud := t.crud ++ [none], sseSpecs := t.sseSpecs ++ [some (count, intervalMs)]
      schemas := t.schemas ++ [none], schemaJsons := t.schemaJsons ++ [none]
      querySchemaJsons := t.querySchemaJsons ++ [none]
      batchConfigs := t.batchConfigs ++ [none]
      routeIndices := t.routeIndices.insert (.get, path) id } .get path id

end Registering

end Tables

inductive Call (H S : Type) where
  | get (r : Registration H S)
  | post (r : Registration H S)
  | put (r : Registration H S)
  | patch (r : Registration H S)
  | delete (r : Registration H S)
  | query (r : Registration H S)
  | head (r : Registration H S)
  | options (r : Registration H S)
  | trace (r : Registration H S)
  | sseNative (path : String) (count intervalMs : Nat)

section Calls

variable {E H S : Type} (mx : Matchit E Nat) (schemaJson : S → Option String)

/-- What a call raises or not, and the tables after it. -/
def Call.exec (t : Tables H S) : Call H S → Except (Raised E) Unit × Tables H S
  | .get r => t.get mx schemaJson r
  | .post r => t.post mx schemaJson r
  | .put r => t.put mx schemaJson r
  | .patch r => t.patch mx schemaJson r
  | .delete r => t.delete mx schemaJson r
  | .query r => t.query mx schemaJson r
  | .head r => t.head mx schemaJson r
  | .options r => t.options mx schemaJson r
  | .trace r => t.trace mx schemaJson r
  | .sseNative path count intervalMs => t.sseNative mx path count intervalMs

/-- The tables after calls whose exceptions the caller has caught. -/
def after (t : Tables H S) (calls : List (Call H S)) : Tables H S :=
  calls.foldl (fun t call => (call.exec mx schemaJson t).2) t

end Calls

/-! ## What the tables should hold -/

/-- The eight entries of a handler id. -/
structure Entry (H S : Type) where
  handler : Option H
  native : Bool
  crud : Option CrudSpec
  sseSpec : Option (Nat × Nat)
  schema : Option S
  schemaJson : Option String
  querySchemaJson : Option String
  batchConfig : Option (Nat × Nat)

section Law

variable {E H S : Type} (mx : Matchit E Nat) (schemaJson : S → Option String)

/-- All tables have the same length. -/
def Tables.Aligned (t : Tables H S) : Prop :=
  t.native.length = t.handlers.length ∧ t.crud.length = t.handlers.length ∧
    t.sseSpecs.length = t.handlers.length ∧ t.schemas.length = t.handlers.length ∧
    t.schemaJsons.length = t.handlers.length ∧ t.querySchemaJsons.length = t.handlers.length ∧
    t.batchConfigs.length = t.handlers.length

/-- The entries under an id are these. -/
def Tables.Holds (t : Tables H S) (id : Nat) (e : Entry H S) : Prop :=
  t.handlers[id]? = some e.handler ∧ t.native[id]? = some e.native ∧
    t.crud[id]? = some e.crud ∧ t.sseSpecs[id]? = some e.sseSpec ∧
    t.schemas[id]? = some e.schema ∧ t.schemaJsons[id]? = some e.schemaJson ∧
    t.querySchemaJsons[id]? = some e.querySchemaJson ∧
    t.batchConfigs[id]? = some e.batchConfig

/-- The schemas as they are stored. -/
def jsonOf (schema : Option S) : Option String := schema.bind schemaJson

/-- The CRUD configuration as it is stored. -/
def crudOf (r : Registration H S) : Option CrudSpec :=
  (r.crudTable.bind fun table => r.crudColumns.map fun columns => (table, columns, "id"))

/-- The entries a registration with a body gives. -/
def bodyEntry (batch : Option (Nat × Nat)) (r : Registration H S) : Entry H S :=
  ⟨some r.handler, r.native.getD false, crudOf r, none, r.bodySchema, jsonOf schemaJson r.schema,
    jsonOf schemaJson r.querySchema, batch⟩

/-- The entries a registration without a body gives. -/
def plainEntry (r : Registration H S) : Entry H S :=
  ⟨some r.handler, r.native.getD false, crudOf r, none, none, none,
    jsonOf schemaJson r.querySchema, none⟩

/-- The method and the path a call registers and the entries it gives. -/
def Call.route : Call H S → Method × String × Entry H S
  | .get r => (.get, r.path, plainEntry schemaJson r)
  | .post r => (.post, r.path, bodyEntry schemaJson (Tables.batchConfig r) r)
  | .put r => (.put, r.path, bodyEntry schemaJson (Tables.batchConfig r) r)
  | .patch r => (.patch, r.path, bodyEntry schemaJson (Tables.batchConfig r) r)
  | .delete r => (.delete, r.path, plainEntry schemaJson r)
  | .query r => (.extension "QUERY", r.path, bodyEntry schemaJson none r)
  | .head r => (.head, r.path, plainEntry schemaJson r)
  | .options r => (.options, r.path, plainEntry schemaJson r)
  | .trace r => (.trace, r.path, plainEntry schemaJson r)
  | .sseNative path count intervalMs =>
    (.get, path, ⟨none, false, none, some (count, intervalMs), none, none, none, none⟩)

/-- A call whose exception the caller catches; what a successful one gives is recorded. -/
def record (p : List (Method × String × Entry H S) × Tables H S) (call : Call H S) :
    List (Method × String × Entry H S) × Tables H S :=
  match call.exec mx schemaJson p.2 with
  | (.ok _, t) => (call.route schemaJson :: p.1, t)
  | (.error _, t) => (p.1, t)

/-- What the successful ones among calls have given, the last first. -/
def successful (calls : List (Call H S)) : List (Method × String × Entry H S) :=
  (calls.foldl (record mx schemaJson) ([], .new)).1

/-- The entries of the last successful registration of a method and a path. -/
def lastGiven (given : List (Method × String × Entry H S)) (method : Method) (path : String) :
    Option (Entry H S) :=
  (given.find? fun g => g.1 = method ∧ g.2.1 = path).map fun g => g.2.2

/-- The entries a route should lead to; a `GET` route also serves `HEAD`. -/
def routed (given : List (Method × String × Entry H S)) (method : Method) (path : String) :
    Option (Entry H S) :=
  (lastGiven given method path).or (if method = .head then lastGiven given .get path else none)

/-- The tables are aligned and hold, under every routed id, what the last successful
registration has given; and the last call, if it has raised, has changed nothing. -/
structure Kept (calls : List (Call H S)) : Prop where
  aligned : (after mx schemaJson .new calls).Aligned
  given : ∀ method path id,
    (path, id) ∈ (after mx schemaJson .new calls).router.routesOf method →
    ∃ e, routed (successful mx schemaJson calls) method path = some e ∧
      (after mx schemaJson .new calls).Holds id e
  raised : ∀ before call e t, calls = before ++ [call] →
    call.exec mx schemaJson (after mx schemaJson .new before) = (.error e, t) →
    t = after mx schemaJson .new before

end Law

end JustApi.Py.RouteTables
