import JustApi.Lib.Assoc
import JustApi.Py.Sessions

/-! # No update of a session is lost but to a session created over it

Reading, replacing, merging and deleting keep what handlers have written. A session that is
created replaces the one with its id. -/
namespace JustApi.Py.Sessions
open JustApi.Core.Auth (Json)
open JustApi.Lib JustApi.Lib.Run

variable {fromStr : String → Except String Value} {sessions : Store} {written : Written}
  {s t : State} {id json : String} {value : Value}

/-! ## The functions of the store -/

theorem parsed_ok (h : parsed fromStr json = .ok value) : fromStr json = .ok value := by
  unfold parsed at h
  cases hjson : fromStr json with
  | error e =>
    rw [hjson] at h
    cases h
  | ok v =>
    rw [hjson] at h
    exact h

theorem setSession_ok {b : Bool} {sessions' : Store}
    (h : sessions.setSession fromStr id json = .ok (b, sessions')) :
    (b = true ∧ ∃ value, fromStr json = .ok value ∧ sessions' = sessions.insert id value) ∨
      b = false ∧ sessions' = sessions := by
  unfold Store.setSession at h
  cases hvalue : parsed fromStr json with
  | error e =>
    rw [hvalue] at h
    cases h
  | ok value =>
    rw [hvalue] at h
    cases hold : sessions.lookup id with
    | none =>
      rw [hold] at h
      cases h
      exact .inr ⟨rfl, rfl⟩
    | some existing =>
      rw [hold] at h
      cases h
      exact .inl ⟨rfl, value, parsed_ok hvalue, rfl⟩

/-- What an existing session becomes. -/
def Value.updated (existing incoming : Value) : Value :=
  match incoming, existing with
  | .object inc, .object ex => .object (Store.mergeInto ex inc)
  | _, _ => incoming

theorem updateSession_ok {b : Bool} {sessions' : Store}
    (h : sessions.updateSession fromStr id json = .ok (b, sessions')) :
    (b = true ∧ ∃ incoming existing, fromStr json = .ok incoming ∧
        sessions.lookup id = some existing ∧
        sessions' = sessions.insert id (existing.updated incoming)) ∨
      b = false ∧ sessions' = sessions := by
  unfold Store.updateSession at h
  cases hvalue : parsed fromStr json with
  | error e =>
    rw [hvalue] at h
    cases h
  | ok incoming =>
    rw [hvalue] at h
    cases hold : sessions.lookup id with
    | none =>
      rw [hold] at h
      cases h
      exact .inr ⟨rfl, rfl⟩
    | some existing =>
      rw [hold] at h
      refine .inl ?_
      have hnew : (b, sessions') = (true, sessions.insert id (existing.updated incoming)) := by
        cases incoming <;> cases existing <;> exact (Except.ok.inj h).symm
      cases hnew
      exact ⟨rfl, incoming, existing, parsed_ok hvalue, rfl, rfl⟩

theorem lookup_mergeInto (ex inc : Fields) (k : String) :
    (Store.mergeInto ex inc).lookup k = (inc.lookup k).or (ex.lookup k) :=
  Assoc.lookup_foldl_insert inc.nodupKeys ex k

/-! ## What is kept -/

namespace Written.Kept

/-- A session with new keys in place of the old ones. -/
theorem of_insert (h : written.Kept sessions) {w : String → Option Json}
    (hnew : ∀ k v, w k = some v → value.get k = some v) :
    Written.Kept (fun i k => if i = id then w k else written i k) (sessions.insert id value) := by
  intro i k v hv
  dsimp only at hv
  by_cases hi : i = id
  · subst hi
    rw [AList.lookup_insert]
    rw [if_pos rfl] at hv
    exact ⟨value, rfl, hnew k v hv⟩
  · rw [AList.lookup_insert_ne hi]
    rw [if_neg hi] at hv
    exact h i k v hv

theorem set (h : written.Kept sessions) (id : String) (value : Value) :
    (written.of value id).Kept (sessions.insert id value) :=
  h.of_insert fun _ _ hv => hv

theorem update (h : written.Kept sessions) {existing : Value}
    (hold : sessions.lookup id = some existing) (incoming : Value) :
    (written.merged incoming id).Kept (sessions.insert id (existing.updated incoming)) := by
  intro i k v hv
  unfold Written.merged at hv
  by_cases hi : i = id
  · subst hi
    rw [if_pos rfl] at hv
    rw [AList.lookup_insert]
    refine ⟨_, rfl, ?_⟩
    cases incoming with
    | null => cases hv
    | other j => cases hv
    | object inc =>
      dsimp only at hv
      cases hinc : inc.lookup k with
      | some v' =>
        rw [hinc] at hv
        have hv' : some v' = some v := hv
        cases existing with
        | object ex =>
          show (Store.mergeInto ex inc).lookup k = some v
          rw [lookup_mergeInto, hinc]
          exact hv'
        | _ => exact hinc.trans hv'
      | none =>
        rw [hinc] at hv
        have hv' : written i k = some v := hv
        -- a key from before is one of an object
        obtain ⟨value, hvalue, hget⟩ := h i k v hv'
        cases hold.symm.trans hvalue
        cases existing with
        | object ex =>
          show (Store.mergeInto ex inc).lookup k = some v
          rw [lookup_mergeInto, hinc]
          exact hget
        | _ => cases hget
  · rw [if_neg hi] at hv
    rw [AList.lookup_insert_ne hi]
    exact h i k v hv

theorem delete (h : written.Kept sessions) (id : String) :
    (written.of .null id).Kept (sessions.erase id) := by
  intro i k v hv
  unfold Written.of at hv
  by_cases hi : i = id
  · rw [if_pos hi] at hv
    cases hv
  · rw [if_neg hi] at hv
    rw [AList.lookup_erase_ne hi]
    exact h i k v hv

theorem create (h : written.Kept sessions)
    (hnew : ∀ k v, written id k = some v → value.get k = some v) :
    written.Kept (sessions.insert id value) := by
  have hsame : written = fun i k => if i = id then written id k else written i k := by
    funext i k
    split
    · rename_i hi
      rw [hi]
    · rfl
  rw [hsame]
  exact h.of_insert hnew

/-- A created session that keeps what is written has it. -/
theorem get_of_create (h : written.Kept (sessions.insert id value)) {k : String} {v : Json}
    (hv : written id k = some v) : value.get k = some v := by
  obtain ⟨value', hvalue, hget⟩ := h id k v hv
  rw [AList.lookup_insert] at hvalue
  rw [Option.some.inj hvalue]
  exact hget

end Written.Kept

/-! ## Steps -/

/-- The calls of handlers other than creations. -/
theorem run_keeps {op : Op} (h : written.Kept sessions)
    (hop : ∀ uuid id initialJson, op ≠ .create uuid id initialJson) :
    (written.after fromStr op (op.run fromStr sessions).1).Kept
      (op.run fromStr sessions).2 := by
  cases op with
  | create uuid id initialJson => exact absurd rfl (hop uuid id initialJson)
  | get id => exact h
  | set id json =>
    unfold Op.run
    dsimp only
    cases hset : sessions.setSession fromStr id json with
    | error e => exact h
    | ok p =>
      obtain ⟨b, sessions'⟩ := p
      rcases setSession_ok hset with ⟨rfl, value, hvalue, rfl⟩ | ⟨rfl, rfl⟩
      · dsimp only [Written.after]
        rw [hvalue]
        exact h.set id value
      · exact h
  | update id json =>
    unfold Op.run
    dsimp only
    cases hupdate : sessions.updateSession fromStr id json with
    | error e => exact h
    | ok p =>
      obtain ⟨b, sessions'⟩ := p
      rcases updateSession_ok hupdate with ⟨rfl, incoming, existing, hvalue, hold, rfl⟩ | ⟨rfl, rfl⟩
      · dsimp only [Written.after]
        rw [hvalue]
        exact h.update hold incoming
      · exact h
  | delete id => exact h.delete id

/-- What a handler creates, if anything. -/
theorem run_create (server : Server) (request : Nat) (uuid : String)
    (id initialJson : Option String) :
    (server.creates fromStr (.call request (.create uuid id initialJson)) = none ∧
        (Op.run fromStr server.sessions (.create uuid id initialJson)).2 = server.sessions) ∨
      ∃ value,
        server.creates fromStr (.call request (.create uuid id initialJson)) =
          some (id.getD uuid, value) ∧
        (Op.run fromStr server.sessions (.create uuid id initialJson)).2 =
          server.sessions.insert (id.getD uuid) value := by
  unfold Op.run Store.createSession Server.creates
  cases initialJson with
  | none => exact .inr ⟨_, rfl, rfl⟩
  | some json =>
    dsimp only
    unfold parsed
    cases fromStr json with
    | error e => exact .inl ⟨rfl, rfl⟩
    | ok value => exact .inr ⟨value, rfl, rfl⟩

/-- A step creates a session in the place of what has its id, or keeps what is written. -/
def Accounted (fromStr : String → Except String Value) (s : State) (e : Event) (t : State) :
    Prop :=
  (∃ id value, s.server.creates fromStr e = some (id, value) ∧
      t.server.sessions = s.server.sessions.insert id value ∧ t.written = s.written) ∨
    s.server.creates fromStr e = none ∧ (s.NothingLost → t.NothingLost)

theorem State.NothingLost.of_eq (hsessions : t.server.sessions = s.server.sessions)
    (hwritten : t.written = s.written) (h : s.NothingLost) : t.NothingLost := by
  unfold State.NothingLost
  rw [hsessions, hwritten]
  exact h

theorem accounted_resolve {request : Nat} {uuid : String}
    (h : s.Step fromStr (.resolve request uuid) t) :
    Accounted fromStr s (.resolve request uuid) t := by
  obtain ⟨outcome, hstep, hwritten⟩ := h
  simp only [Server.step, Option.bind_eq_bind, Option.bind_eq_some_iff] at hstep
  obtain ⟨req, hreq, hstep⟩ := hstep
  split at hstep
  · cases hstep
  · obtain ⟨-, hserver⟩ := Prod.mk.inj (Option.some.inj hstep)
    unfold Server.resolve at hserver
    unfold Accounted
    simp only [Server.creates, hreq, Option.bind_eq_bind, Option.bind_some]
    cases henabled : s.server.enabled with
    | false =>
      rw [henabled, if_neg Bool.false_ne_true] at hserver
      exact .inr ⟨rfl, .of_eq (by rw [← hserver]) hwritten⟩
    | true =>
      rw [henabled, if_pos rfl] at hserver
      cases hsid : req.sid with
      | none =>
        rw [hsid] at hserver
        exact .inl ⟨uuid, .object ∅, rfl, by rw [← hserver], hwritten⟩
      | some sid =>
        rw [hsid] at hserver
        dsimp only at hserver
        refine .inr ⟨rfl, .of_eq ?_ hwritten⟩
        split at hserver
        · rw [← hserver]
        · rw [← hserver]

theorem accounted_materialize {request : Nat} (h : s.Step fromStr (.materialize request) t) :
    Accounted fromStr s (.materialize request) t := by
  obtain ⟨outcome, hstep, hwritten⟩ := h
  simp only [Server.step, Option.bind_eq_bind, Option.bind_eq_some_iff] at hstep
  obtain ⟨req, hreq, sid, hsid, hstep⟩ := hstep
  split at hstep
  · obtain ⟨-, hserver⟩ := Prod.mk.inj (Option.some.inj hstep)
    refine .inl ⟨sid, .object ∅, ?_, by rw [← hserver], hwritten⟩
    simp only [Server.creates, hreq, hsid, Option.bind_eq_bind, Option.bind_some]
  · cases hstep

theorem accounted_call {request : Nat} {op : Op} (h : s.Step fromStr (.call request op) t) :
    Accounted fromStr s (.call request op) t := by
  obtain ⟨outcome, hstep, hwritten⟩ := h
  simp only [Server.step, Option.bind_eq_bind, Option.bind_eq_some_iff] at hstep
  obtain ⟨req, _, hstep⟩ := hstep
  split at hstep
  · cases hstep
  · obtain ⟨houtcome, hserver⟩ := Prod.mk.inj (Option.some.inj hstep)
    have hsessions : t.server.sessions = (op.run fromStr s.server.sessions).2 := by
      rw [← hserver]
    have hkeeps : (∀ uuid id initialJson, op ≠ .create uuid id initialJson) →
        s.NothingLost → t.NothingLost := by
      intro hop hkept
      have hnext : (s.written.after fromStr op (op.run fromStr s.server.sessions).1).Kept
          (op.run fromStr s.server.sessions).2 := run_keeps hkept hop
      unfold State.NothingLost
      rw [hsessions, hwritten, ← houtcome]
      exact hnext
    cases op with
    | create uuid id initialJson =>
      rcases run_create s.server request uuid id initialJson with ⟨hnone, hrun⟩ |
        ⟨value, hsome, hrun⟩
      · exact .inr ⟨hnone, .of_eq (hsessions.trans hrun) hwritten⟩
      · exact .inl ⟨_, value, hsome, hsessions.trans hrun, hwritten⟩
    | _ => exact .inr ⟨rfl, hkeeps fun _ _ _ h => by cases h⟩

theorem State.step_cases {e : Event} (h : s.Step fromStr e t) : Accounted fromStr s e t := by
  cases e with
  | resolve request uuid => exact accounted_resolve h
  | materialize request => exact accounted_materialize h
  | call request op => exact accounted_call h

/-! ## Runs -/

theorem State.NothingLost.step {e : Event} (h : s.NothingLost) (hstep : s.Step fromStr e t)
    (hcreate : s.CreatesUnwritten fromStr e) : t.NothingLost := by
  rcases State.step_cases hstep with ⟨id, value, hcreates, hsessions, hwritten⟩ | ⟨_, hkeeps⟩
  · unfold State.NothingLost
    rw [hsessions, hwritten]
    exact h.create (hcreate id value hcreates)
  · exact hkeeps h

theorem State.createsUnwritten_of_nothingLost {e : Event} (hstep : s.Step fromStr e t)
    (h : t.NothingLost) : s.CreatesUnwritten fromStr e := by
  intro id value hcreates k v hv
  rcases State.step_cases hstep with ⟨id', value', hcreates', hsessions, hwritten⟩ | ⟨hnone, _⟩
  · rw [hcreates] at hcreates'
    cases hcreates'
    unfold State.NothingLost at h
    rw [hsessions, hwritten] at h
    exact h.get_of_create hv
  · rw [hcreates] at hnone
    cases hnone

/-- In every run the keys that handlers write keep their values, until a handler writes them
again, replaces the session or deletes it, exactly if no session is created over such keys. -/
theorem nothing_lost_iff (enabled : Bool) (sessions : Store)
    (ids : List (Option String × Option String)) {tr : List (Event × State)}
    (hrun : Along (State.Step fromStr) (State.start enabled sessions ids) tr) :
    (∀ st ∈ visited (State.start enabled sessions ids) tr, st.NothingLost) ↔
      Along (fun s e _ => s.CreatesUnwritten fromStr e) (State.start enabled sessions ids) tr :=
  hrun.forall_visited_iff (fun _ _ _ h hstep hc => State.NothingLost.step h hstep hc)
    (fun _ _ _ _ hstep ht => State.createsUnwritten_of_nothingLost hstep ht)
    (fun _ h => h) (fun _ _ _ h => nomatch h)

/-! ## A client's first requests -/

theorem State.step_of_exec {e : Event} (h : s.exec fromStr e = .ok t) : s.Step fromStr e t := by
  unfold State.exec at h
  cases hstep : s.server.step fromStr e with
  | none =>
    rw [hstep] at h
    cases h
  | some p =>
    rw [hstep] at h
    cases h
    exact ⟨p.1, hstep, rfl⟩

theorem State.along_replay (s : State) (events : List Event) :
    Along (State.Step fromStr) s (replay (State.exec fromStr) s events) :=
  (Run.along_replay (State.exec fromStr) s events).imp fun _ _ _ h => State.step_of_exec h

def oneField (json : String) : Except String Value :=
  if json = "\x7b\"a\": 1\x7d" then .ok (.object (AList.singleton "a" (.number "1")))
  else .error "expected value"

/-- Two requests with the cookie of one session, which is not in the store. -/
def firstRequests : State := State.start true ∅ [(some "s", none), (some "s", none)]

def writeField : Op := .update "s" "\x7b\"a\": 1\x7d"

/-- The second request comes after the session is there. -/
def inTurn : List Event := [.resolve 0 "u", .materialize 0, .call 0 writeField, .resolve 1 "u"]

theorem nothing_lost_in_turn :
    (final (State.exec oneField) firstRequests inTurn).NothingLost ∧
      (final (State.exec oneField) firstRequests inTurn).written "s" "a" = some (.number "1") := by
  refine ⟨?_, by with_unfolding_all rfl⟩
  refine (nothing_lost_iff true ∅ _ (State.along_replay firstRequests inTurn)).mpr ?_ _
    (final_mem_visited (State.exec oneField) firstRequests inTurn)
  with_unfolding_all
    exact ⟨(fun _ _ h => nomatch h), (fun _ _ _ _ _ h => nomatch h), (fun _ _ h => nomatch h),
      (fun _ _ h => nomatch h), trivial⟩

/-- Both requests find no session; the update of the one is lost when the other creates
it. -/
theorem update_lost : ¬ ∀ st ∈ visited firstRequests
    (replay (State.exec oneField) firstRequests
      [.resolve 0 "u", .resolve 1 "u", .materialize 1, .call 1 writeField, .materialize 0]),
    st.NothingLost := by
  intro h
  have hlast := h _ (final_mem_visited (State.exec oneField) firstRequests
    [.resolve 0 "u", .resolve 1 "u", .materialize 1, .call 1 writeField, .materialize 0])
  obtain ⟨value, hvalue, hget⟩ := hlast "s" "a" (.number "1") (by with_unfolding_all rfl)
  have hempty : some value = some (.object ∅) := hvalue.symm.trans (by with_unfolding_all rfl)
  cases hempty
  cases hget

end JustApi.Py.Sessions
