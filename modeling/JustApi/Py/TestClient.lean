import JustApi.Core.QueryString
import JustApi.Py.Pipeline
import JustApi.Py.RouteAlignment

/-! # The test client

`make_test_handler` beside `make_native_handler`, for the apps that the test client serves.
Handlers see of a request what does not depend on the transport. -/
namespace JustApi.Py.Pipeline
open JustApi.Core.Http JustApi.Core.Routing
open JustApi.Core.QueryString (asBytes)
open JustApi.Py.RouteTables (Tables plainPaths)

/-- What a handler may look at. -/
structure Seen (F : Type) where
  pathParams : List (String × String)
  queryString : Bytes
  headers : Headers
  body : Bytes
  form : Option F
  method : Method
  path : String

/-- What a request is answered with; `R` are the replies of the handlers. -/
inductive Answer (R : Type) where
  | json (status : Nat) (body : String)
  | batched (handlerId : Nat)
  | sse (count intervalMs : Nat)
  | crud (handlerId : Nat)
  | native (result : Except String Bytes)
  | validation (detail : String)
  /-- The schema of the handler does not accept the body. -/
  | invalid (detail : String)
  | handled (reply : R)

def PythonCall.seen {F : Type} (call : PythonCall F) : Seen F :=
  ⟨call.pathParams, call.queryString, call.headers, call.body, call.form, call.method, call.path⟩

section Answering

variable {E F H S R : Type} (mx : Matchit E Nat) (parsers : Parsers F) (server : Server H S)
  (rejects : S → Bytes → Option String)

/-- The detail with which the schema of a handler, if it has one, rejects a body. -/
def rejected (handlerId : Nat) (body : Bytes) : Option String :=
  server.tables.schemas[handlerId]?.join.bind fun schema => rejects schema body

/-- `dispatch_python_handler`; a handler that needs no request is called without one. -/
def callPython (handlers : Nat → Option (Seen F) → R) (call : PythonCall F) : Answer R :=
  match rejected server rejects call.handlerId call.body with
  | some detail => .invalid detail
  | none => .handled (handlers call.handlerId (if call.needsRequest then some call.seen else none))

def answered (handlers : Nat → Option (Seen F) → R) : Exit F → Answer R
  | .json status body => .json status body
  | .batched id _ => .batched id
  | .sse _ count intervalMs => .sse count intervalMs
  | .crud id _ _ _ _ => .crud id
  | .native _ result => .native result
  | .validation detail => .validation detail
  | .python call => callPython server rejects handlers call

/-! ## The law -/

/-- Whatever the handlers are, production and the test client answer alike. -/
def SameAnswer (scheme : String) (req : Incoming) : Prop :=
  ∀ (R : Type) (handlers : Nat → Option (Seen F) → R),
    answered server rejects handlers (nativeExit mx parsers server scheme req) =
      answered server rejects handlers (testExit mx parsers server req)

/-- Two checks fail in the same way. -/
def SameFailure {α : Type} (x y : Except String α) : Prop := ∃ d, x = .error d ∧ y = .error d

/-- A handler does not see which of two bodies it is called with. -/
def HandlerBlind (id : Nat) (b b' : Bytes) : Prop :=
  (∃ d, rejected server rejects id b = some d ∧ rejected server rejects id b' = some d) ∨
    rejected server rejects id b = none ∧ rejected server rejects id b' = none ∧
      server.needsRequest[id]?.getD false = false

/-- The JSON schema does not tell two bodies apart, and the handler does not either. -/
def SchemaBlind (id : Nat) (b b' : Bytes) : Prop :=
  match server.tables.schemaJsons[id]?.join with
  | none => HandlerBlind server rejects id b b'
  | some json =>
    SameFailure (validateBody parsers server id b json) (validateBody parsers server id b' json) ∨
      validateBody parsers server id b json = .ok () ∧
        validateBody parsers server id b' json = .ok () ∧ HandlerBlind server rejects id b b'

/-- Nothing on a route tells two bodies apart. -/
def BodyBlind (id : Nat) (b b' : Bytes) : Prop :=
  match tryNativeFastPath parsers server id b, tryNativeFastPath parsers server id b' with
  | some x, some y => SameFailure x y
  | _, _ => server.tables.native[id]?.getD false = true ∧
      server.tables.querySchemaJsons[id]?.join.isSome = true ∨
    SchemaBlind parsers server rejects id b b'

/-- The requests for which it makes no difference that the test client takes the body as
it is. -/
def Alike (req : Incoming) : Prop :=
  needsContentType req = true ∨
  match nativeBody parsers server req with
  | .error _ => isMultipart (contentType req) = true
  | .ok (body, _) =>
    match matched (F := F) mx server req with
    | .error _ => True
    | .ok m => body = req.body ∨ server.tables.sseSpecs[m.handler]?.join.isSome = true ∨
        BodyBlind parsers server rejects m.handler body req.body

/-! ## Handlers that tell everything apart -/

def Answer.map {R R' : Type} (f : R → R') : Answer R → Answer R'
  | .json status body => .json status body
  | .batched id => .batched id
  | .sse count intervalMs => .sse count intervalMs
  | .crud id => .crud id
  | .native result => .native result
  | .validation detail => .validation detail
  | .invalid detail => .invalid detail
  | .handled reply => .handled (f reply)

/-- The answers of handlers that reply with what they see. -/
def visible (exit : Exit F) : Answer (Nat × Option (Seen F)) :=
  answered server rejects Prod.mk exit

theorem answered_eq_map (handlers : Nat → Option (Seen F) → R) (exit : Exit F) :
    answered server rejects handlers exit =
      (visible server rejects exit).map fun p => handlers p.1 p.2 := by
  cases exit with
  | python call =>
    show callPython server rejects handlers call = (callPython server rejects Prod.mk call).map _
    unfold callPython
    cases rejected server rejects call.handlerId call.body <;> rfl
  | _ => rfl

variable {mx parsers server rejects}

theorem sameAnswer_iff {scheme : String} {req : Incoming} :
    SameAnswer mx parsers server rejects scheme req ↔
      visible server rejects (nativeExit mx parsers server scheme req) =
        visible server rejects (testExit mx parsers server req) := by
  constructor
  · intro h
    exact h _ Prod.mk
  · intro h R handlers
    rw [answered_eq_map, answered_eq_map, h]

/-! ## Answers for two bodies -/

theorem SameFailure.eq {α : Type} {x y : Except String α} (h : SameFailure x y) : x = y := by
  obtain ⟨d, rfl, rfl⟩ := h
  rfl

/-- Calls that differ in their bodies, and in what no handler looks at. -/
def Twins (call call' : PythonCall F) : Prop :=
  call'.handlerId = call.handlerId ∧ call'.needsRequest = call.needsRequest ∧
    call'.seen = { call.seen with body := call'.body }

theorem callPython_iff {call call' : PythonCall F} (h : Twins call call')
    (hneeds : call.needsRequest = server.needsRequest[call.handlerId]?.getD false) :
    callPython server rejects Prod.mk call = callPython server rejects Prod.mk call' ↔
      call.body = call'.body ∨ HandlerBlind server rejects call.handlerId call.body call'.body := by
  obtain ⟨hid, hneeds', hseen⟩ := h
  unfold callPython HandlerBlind
  rw [hid, hneeds', hseen, ← hneeds]
  cases hrejects : rejected server rejects call.handlerId call.body with
  | some d =>
    cases hrejects' : rejected server rejects call.handlerId call'.body with
    | some d' =>
      constructor
      · intro h
        cases h
        exact .inr (.inl ⟨d, rfl, rfl⟩)
      · rintro (hbody | ⟨_, ⟨⟩, ⟨⟩⟩ | ⟨⟨⟩, -⟩)
        · rw [hbody, hrejects'] at hrejects
          cases hrejects
          rfl
        · rfl
    | none =>
      refine ⟨fun h => (by cases h), ?_⟩
      rintro (hbody | ⟨_, -, ⟨⟩⟩ | ⟨⟨⟩, -⟩)
      rw [hbody, hrejects'] at hrejects
      cases hrejects
  | none =>
    cases hrejects' : rejected server rejects call.handlerId call'.body with
    | some d' =>
      refine ⟨fun h => (by cases h), ?_⟩
      rintro (hbody | ⟨_, ⟨⟩, -⟩ | ⟨-, ⟨⟩, -⟩)
      rw [hbody, hrejects'] at hrejects
      cases hrejects
    | none =>
      cases call.needsRequest with
      | false => exact ⟨fun _ => .inr (.inr ⟨rfl, rfl, rfl⟩), fun _ => rfl⟩
      | true =>
        constructor
        · intro h
          injection h with h
          exact .inl (congrArg Seen.body (Option.some.inj (congrArg Prod.snd h)))
        · rintro (hbody | ⟨_, ⟨⟩, -⟩ | ⟨-, -, ⟨⟩⟩)
          rw [← hbody]
          rfl

/-- The check of the fast path. -/
def nativeCheck (parsers : Parsers F) (server : Server H S) (id : Nat) :
    Option (Bytes → Except String Unit) :=
  if server.tables.native[id]?.getD false then
    match server.schemaValidators[id]?.join with
    | some v => some v
    | none => server.tables.schemaJsons[id]?.join.map fun json body =>
      parsers.validateJsonSchema body json
  else none

theorem tryNativeFastPath_eq (id : Nat) (b : Bytes) : tryNativeFastPath parsers server id b =
    (nativeCheck parsers server id).map fun check => (check b).map fun _ => b := by
  unfold tryNativeFastPath nativeCheck
  split
  · cases server.schemaValidators[id]?.join with
    | some v => rfl
    | none =>
      dsimp only
      rw [Option.map_map]
      rfl
  · rfl

theorem checked_iff {b b' : Bytes} (check : Bytes → Except String Unit) :
    ((check b).map fun _ => b) = ((check b').map fun _ => b') ↔
      b = b' ∨ SameFailure ((check b).map fun _ => b) ((check b').map fun _ => b') := by
  constructor
  · intro h
    cases hb : check b with
    | error d =>
      rw [hb] at h
      exact .inr ⟨d, rfl, h.symm⟩
    | ok _ =>
      rw [hb] at h
      cases hb' : check b' with
      | error d =>
        rw [hb'] at h
        cases h
      | ok _ =>
        rw [hb'] at h
        exact .inl (Except.ok.inj h)
  · rintro (rfl | h)
    · rfl
    · exact h.eq

theorem visible_python_ne (call : PythonCall F) (d : String) :
    visible server rejects (.python call) ≠ .validation d := by
  show callPython server rejects Prod.mk call ≠ .validation d
  unfold callPython
  split
  · exact fun h => by cases h
  · exact fun h => by cases h

theorem isSome_tryNativeFastPathQuery (id : Nat) (query : Bytes) :
    (tryNativeFastPathQuery parsers server id query).isSome = true ↔
      server.tables.native[id]?.getD false = true ∧
        server.tables.querySchemaJsons[id]?.join.isSome = true := by
  unfold tryNativeFastPathQuery
  split
  next h => rw [Option.isSome_map, h, eq_self, true_and]
  next h => exact ⟨fun hnone => absurd hnone Bool.false_ne_true, fun hs => absurd hs.1 h⟩

theorem schema_iff {id : Nat} {call call' : PythonCall F} (h : Twins call call')
    (hid : call.handlerId = id)
    (hneeds : call.needsRequest = server.needsRequest[id]?.getD false) :
    visible server rejects (match server.tables.schemaJsons[id]?.join with
      | none => .python call
      | some json =>
        match validateBody parsers server id call.body json with
        | .ok _ => .python call
        | .error detail => .validation detail) =
      visible server rejects (match server.tables.schemaJsons[id]?.join with
        | none => .python call'
        | some json =>
          match validateBody parsers server id call'.body json with
          | .ok _ => .python call'
          | .error detail => .validation detail) ↔
      call.body = call'.body ∨ SchemaBlind parsers server rejects id call.body call'.body := by
  subst hid
  have hcall := @callPython_iff F H S server rejects _ _ h hneeds
  unfold SchemaBlind
  cases server.tables.schemaJsons[call.handlerId]?.join with
  | none => exact hcall
  | some json =>
    dsimp only
    cases hb : validateBody parsers server call.handlerId call.body json with
    | error d =>
      cases hb' : validateBody parsers server call.handlerId call'.body json with
      | error d' =>
        constructor
        · intro hd
          cases hd
          exact .inr (.inl ⟨d, rfl, rfl⟩)
        · rintro (hbody | ⟨_, ⟨⟩, ⟨⟩⟩ | ⟨⟨⟩, -⟩)
          · rw [hbody, hb'] at hb
            cases hb
            rfl
          · rfl
      | ok _ =>
        refine ⟨fun hd => absurd hd.symm (visible_python_ne _ _), ?_⟩
        · rintro (hbody | ⟨_, -, ⟨⟩⟩ | ⟨⟨⟩, -⟩)
          rw [hbody, hb'] at hb
          cases hb
    | ok _ =>
      cases hb' : validateBody parsers server call.handlerId call'.body json with
      | error d' =>
        refine ⟨fun hd => absurd hd (visible_python_ne _ _), ?_⟩
        · rintro (hbody | ⟨_, ⟨⟩, -⟩ | ⟨-, ⟨⟩, -⟩)
          rw [hbody, hb'] at hb
          cases hb
      | ok _ =>
        refine hcall.trans (or_congr_right ?_)
        refine ⟨fun hblind => .inr ⟨rfl, rfl, hblind⟩, ?_⟩
        rintro (⟨_, ⟨⟩, -⟩ | ⟨-, -, hblind⟩)
        exact hblind

theorem answerById_iff {id : Nat} (query : Bytes) {call call' : PythonCall F}
    (h : Twins call call') (hid : call.handlerId = id)
    (hneeds : call.needsRequest = server.needsRequest[id]?.getD false) :
    visible server rejects (answerById parsers server id query call.body call) =
      visible server rejects (answerById parsers server id query call'.body call') ↔
      call.body = call'.body ∨ BodyBlind parsers server rejects id call.body call'.body := by
  unfold answerById BodyBlind
  rw [tryNativeFastPath_eq, tryNativeFastPath_eq]
  cases nativeCheck parsers server id with
  | some check =>
    rw [Option.map_some, Option.map_some]
    dsimp only
    rw [← checked_iff]
    exact ⟨Answer.native.inj, congrArg Answer.native⟩
  | none =>
    dsimp only [Option.map_none]
    have hquery := @isSome_tryNativeFastPathQuery F H S parsers server id query
    cases hq : tryNativeFastPathQuery parsers server id query with
    | some nr =>
      rw [hq] at hquery
      exact ⟨fun _ => .inr (.inl (hquery.mp rfl)), fun _ => rfl⟩
    | none =>
      rw [hq] at hquery
      have hnot := fun hs => Bool.false_ne_true (hquery.mpr hs)
      refine (schema_iff h hid hneeds).trans (or_congr_right ?_)
      exact ⟨.inr, fun hs => hs.resolve_left hnot⟩

/-! ## Routes -/

/-- What becomes of a call where there is neither a batch nor CRUD. -/
def routed (parsers : Parsers F) (server : Server H S) (query : Bytes) (call : PythonCall F) :
    Exit F :=
  match server.tables.sseSpecs[call.handlerId]?.join with
  | some (count, intervalMs) => .sse call.handlerId count intervalMs
  | none => answerById parsers server call.handlerId query call.body call

def nativeCall (server : Server H S) (scheme : String) (req : Incoming) (m : RouteResolution Nat)
    (body : Bytes) (form : Option F) : PythonCall F :=
  ⟨m.handler, m.params, req.query, req.headers, body, form, req.method, req.path, scheme,
    req.client, server.needsRequest[m.handler]?.getD false, req.httpVersion, req.authClaims⟩

def testCall (server : Server H S) (req : Incoming) (m : RouteResolution Nat) (body : Bytes)
    (form : Option F) : PythonCall F :=
  ⟨m.handler, m.params, req.query, req.headers, body, form, req.method, req.path, "http", none,
    server.needsRequest[m.handler]?.getD false, "1.1", none⟩

section Routes

variable {scheme : String} {req : Incoming} {m : RouteResolution Nat} {body : Bytes}
  {form : Option F}

theorem nativeExit_routed (hcontent : needsContentType req = false)
    (hbody : nativeBody parsers server req = .ok (body, form))
    (hmatched : matched (F := F) mx server req = .ok m)
    (hbatch : ∀ id : Nat, server.tables.batchConfigs[id]?.join = none)
    (hcrud : ∀ id : Nat, server.tables.crud[id]?.join = none) :
    nativeExit mx parsers server scheme req =
      routed parsers server req.query (nativeCall server scheme req m body form) := by
  have hspec : crudSpec server m.handler req.method = none := by
    rw [crudSpec, hcrud]
    rfl
  unfold nativeExit
  rw [hcontent, if_neg Bool.false_ne_true, hbody]
  dsimp only
  rw [hmatched]
  dsimp only
  rw [hbatch, hspec]
  rfl

theorem testExit_routed (hcontent : needsContentType req = false)
    (hbody : testBody parsers server req = .ok (body, form))
    (hmatched : matched (F := F) mx server req = .ok m) :
    testExit mx parsers server req =
      routed parsers server req.query (testCall server req m body form) := by
  unfold testExit
  rw [hcontent, if_neg Bool.false_ne_true, hbody]
  dsimp only
  rw [hmatched]
  rfl

theorem routed_iff (query : Bytes) {call call' : PythonCall F} (h : Twins call call')
    (hneeds : call.needsRequest = server.needsRequest[call.handlerId]?.getD false) :
    visible server rejects (routed parsers server query call) =
      visible server rejects (routed parsers server query call') ↔
      call.body = call'.body ∨
        server.tables.sseSpecs[call.handlerId]?.join.isSome = true ∨
          BodyBlind parsers server rejects call.handlerId call.body call'.body := by
  unfold routed
  rw [h.1]
  cases server.tables.sseSpecs[call.handlerId]?.join with
  | some spec => exact ⟨fun _ => .inr (.inl rfl), fun _ => rfl⟩
  | none =>
    refine (answerById_iff query h rfl hneeds).trans (or_congr_right ?_)
    exact ⟨.inr, fun hs => hs.resolve_left Bool.false_ne_true⟩

theorem visible_python_ne_json (call : PythonCall F) (status : Nat) (text : String) :
    visible server rejects (.python call) ≠ .json status text := by
  show callPython server rejects Prod.mk call ≠ .json status text
  unfold callPython
  split
  · exact fun h => by cases h
  · exact fun h => by cases h

/-- A route does not answer as the dispatcher does without one. -/
theorem routed_ne_json (query : Bytes) (call : PythonCall F) (status : Nat) (text : String) :
    visible server rejects (routed parsers server query call) ≠ .json status text := by
  unfold routed
  split
  · exact fun h => by cases h
  · unfold answerById
    split
    · exact fun h => by cases h
    · split
      · exact fun h => by cases h
      · split
        · exact visible_python_ne_json call status text
        · split
          · exact visible_python_ne_json call status text
          · exact fun h => by cases h

theorem testBody_eq (hlimit : req.body.length ≤ server.maxBodySize) :
    testBody parsers server req =
      if isMultipart (contentType req) then
        (multipartForm parsers req.body ((contentType req).getD "")).map fun form =>
          (req.body, some form)
      else .ok (req.body, none) := by
  unfold testBody limited
  rw [if_neg (Nat.not_lt.mpr hlimit)]
  cases isMultipart (contentType req) with
  | false => rfl
  | true =>
    cases hform : multipartForm parsers req.body ((contentType req).getD "") with
    | error exit => simp [hform, Except.map, bind, Except.bind]
    | ok form => simp [hform, Except.map, bind, Except.bind, pure, Except.pure]

theorem nativeBody_multipart (h : isMultipart (contentType req) = true) :
    nativeBody parsers server req =
      (multipartForm parsers req.body ((contentType req).getD "")).map fun form =>
        ([], some form) := by
  unfold nativeBody
  rw [h, if_pos rfl]
  cases multipartForm parsers req.body ((contentType req).getD "") <;> rfl

theorem nativeBody_plain (h : isMultipart (contentType req) = false)
    (hlimit : req.body.length ≤ server.maxBodySize) :
    nativeBody parsers server req =
      if isXml (contentType req) then
        match parsers.xmlToJson req.body with
        | .ok json => .ok (json, none)
        | .error e => .error (.json 400 ("\x7b\"detail\":\"invalid xml body: " ++ e ++ "\"\x7d"))
      else .ok (req.body, none) := by
  unfold nativeBody limited
  rw [h, if_neg Bool.false_ne_true, if_neg (Nat.not_lt.mpr hlimit)]
  rfl

/-- Production refuses what is not XML; the test client does not look. -/
theorem testExit_ne_json (hcontent : needsContentType req = false) {testBytes : Bytes}
    (htest : testBody parsers server req = .ok (testBytes, form)) (text : String) :
    visible server rejects (testExit mx parsers server req) ≠ .json 400 text := by
  cases hmatched : matched (F := F) mx server req with
  | ok m =>
    rw [testExit_routed hcontent htest hmatched]
    exact routed_ne_json _ _ _ _
  | error exit =>
    unfold testExit
    rw [hcontent, if_neg Bool.false_ne_true, htest]
    dsimp only
    rw [hmatched]
    unfold matched at hmatched
    split at hmatched
    · cases hmatched
    · cases hmatched
      exact fun h => by cases h
    · cases hmatched
      exact fun h => by cases h

/-- The matched route decides. -/
theorem rest_iff {testBytes : Bytes} (hcontent : needsContentType req = false)
    (hbody : nativeBody parsers server req = .ok (body, form))
    (htest : testBody parsers server req = .ok (testBytes, form))
    (hbatch : ∀ id : Nat, server.tables.batchConfigs[id]?.join = none)
    (hcrud : ∀ id : Nat, server.tables.crud[id]?.join = none) :
    visible server rejects (nativeExit mx parsers server scheme req) =
      visible server rejects (testExit mx parsers server req) ↔
      match matched (F := F) mx server req with
      | .error _ => True
      | .ok m => body = testBytes ∨ server.tables.sseSpecs[m.handler]?.join.isSome = true ∨
          BodyBlind parsers server rejects m.handler body testBytes := by
  cases hmatched : matched (F := F) mx server req with
  | error exit =>
    have hnative : nativeExit mx parsers server scheme req = exit := by
      unfold nativeExit
      rw [hcontent, if_neg Bool.false_ne_true, hbody]
      dsimp only
      rw [hmatched]
    have htestExit : testExit mx parsers server req = exit := by
      unfold testExit
      rw [hcontent, if_neg Bool.false_ne_true, htest]
      dsimp only
      rw [hmatched]
    rw [hnative, htestExit]
    exact ⟨fun _ => trivial, fun _ => rfl⟩
  | ok m =>
    rw [nativeExit_routed hcontent hbody hmatched hbatch hcrud,
      testExit_routed hcontent htest hmatched]
    exact routed_iff req.query ⟨rfl, rfl, rfl⟩ rfl

end Routes

/-- **The test client.** Without batches and CRUD, and within the limit on bodies, a
request is answered as in production, whatever the handlers are, exactly when nothing on its
route tells the two bodies apart. -/
theorem test_client_iff (scheme : String) (req : Incoming)
    (hbatch : ∀ id : Nat, server.tables.batchConfigs[id]?.join = none)
    (hcrud : ∀ id : Nat, server.tables.crud[id]?.join = none)
    (hlimit : req.body.length ≤ server.maxBodySize) :
    SameAnswer mx parsers server rejects scheme req ↔ Alike mx parsers server rejects req := by
  rw [sameAnswer_iff]
  unfold Alike
  cases hcontent : needsContentType req with
  | true =>
    refine ⟨fun _ => .inl rfl, fun _ => ?_⟩
    rw [nativeExit, testExit, if_pos hcontent, if_pos hcontent]
  | false =>
    refine Iff.trans ?_ (or_iff_right Bool.false_ne_true).symm
    have htest : testBody parsers server req = _ := testBody_eq hlimit
    cases hmultipart : isMultipart (contentType req) with
    | true =>
      rw [hmultipart, if_pos rfl] at htest
      have hnative : nativeBody parsers server req = _ := nativeBody_multipart hmultipart
      cases hform : multipartForm parsers req.body ((contentType req).getD "") with
      | ok form =>
        rw [hform] at hnative htest
        rw [hnative]
        exact rest_iff hcontent hnative htest hbatch hcrud
      | error exit =>
        rw [hform] at hnative htest
        rw [hnative]
        refine ⟨fun _ => rfl, fun _ => ?_⟩
        rw [nativeExit, testExit, hcontent, if_neg Bool.false_ne_true, if_neg Bool.false_ne_true,
          hnative, htest]
        rfl
    | false =>
      rw [hmultipart, if_neg Bool.false_ne_true] at htest
      have hnative : nativeBody parsers server req = _ := nativeBody_plain hmultipart hlimit
      cases hxml : isXml (contentType req) with
      | false =>
        rw [hxml, if_neg Bool.false_ne_true] at hnative
        rw [hnative]
        exact rest_iff hcontent hnative htest hbatch hcrud
      | true =>
        rw [hxml, if_pos rfl] at hnative
        cases hjson : parsers.xmlToJson req.body with
        | ok json =>
          rw [hjson] at hnative
          rw [hnative]
          exact rest_iff hcontent hnative htest hbatch hcrud
        | error e =>
          rw [hjson] at hnative
          rw [hnative]
          refine ⟨fun h => absurd h.symm ?_, fun h => absurd h Bool.false_ne_true⟩
          rw [nativeExit, hcontent, if_neg Bool.false_ne_true, hnative]
          exact testExit_ne_json hcontent htest _

end Answering

section Items

/-- `POST /items` with a handler that needs the request. -/
def itemsServer : Server Unit Unit :=
  ⟨{ Tables.new with
      router := (Tables.new (H := Unit) (S := Unit)).router.insert plainPaths .post
        "/items" 0 |>.2 }, [], [true], false, 100⟩

/-- What is made of `<a>1</a>`. -/
def aJson : Bytes := asBytes "\x7b\"a\":1\x7d"

def aParsers : Parsers Unit := ⟨fun _ _ => .ok (), fun _ => .ok aJson, fun _ _ => .ok (), some⟩

def postItems (contentType : String) : Incoming :=
  ⟨.post, "/items", [], [("content-type", contentType)], asBytes "<a>1</a>", none, "1.1", none⟩

theorem test_client_text :
    SameAnswer plainPaths aParsers itemsServer (fun _ _ => none) "http"
      (postItems "text/plain") :=
  (test_client_iff "http" (postItems "text/plain") (fun _ => rfl) (fun _ => rfl)
    (by decide)).mpr (.inr (by with_unfolding_all exact .inl rfl))

/-- A handler that replies with the body replies with JSON in production and with XML to
the test client. -/
theorem xml_items_differ :
    ¬ SameAnswer plainPaths aParsers itemsServer (fun _ _ => none) "http"
      (postItems "application/xml") := by
  intro h
  have hreplies : Answer.handled (some aJson) = .handled (some (asBytes "<a>1</a>")) := by
    with_unfolding_all exact h _ fun _ seen => seen.map Seen.body
  cases hreplies

end Items

end JustApi.Py.Pipeline
