import JustApi.Py.DependencyGuards
import JustApi.Py.DependencyLifecycle
import Mathlib.Data.Set.Card

/-! # The values of dependencies

What a parameter receives when a callable is not what the tests of the resolvers take it for, or
when the sync resolver meets one that it would have to await. -/
namespace JustApi.Py.DependencyValues
open JustApi.Lib.Raising JustApi.Lib.Result JustApi.Py.Dependencies
open JustApi.Py.Registrations (Traced traced_new)

/-! ## Callables -/

inductive Callee where
  | function (kind : Kind)
  /-- An object whose `__call__` is of this kind. -/
  | object (call : Kind)
  /-- A class, with the kind of its own `__call__` if it has one. -/
  | cls (call : Option Kind)
  deriving DecidableEq, Repr

namespace Callee

/-- What the tests take it for: `_is_async_callable` looks at `__call__`, the others do not. -/
def inspected : Callee → Kind
  | function kind => kind
  | object .coroutine => .coroutine
  | cls (some .coroutine) => .coroutine
  | _ => .plain

/-- What a call makes: a value, or an object that has yet to be run. A class makes an instance. -/
def makes : Callee → Kind
  | function kind => kind
  | object call => call
  | cls _ => .plain

end Callee

/-- How a resolver treats a call; the sync one knows no others than generators. -/
def treats : Mode → Kind → Kind
  | .async, kind => kind
  | .sync, .generator => .generator
  | .sync, _ => .plain

/-- A call is treated as what it makes. -/
def Suits (mode : Mode) (callee : Callee) : Prop := treats mode callee.inspected = callee.makes

instance (mode : Mode) (callee : Callee) : Decidable (Suits mode callee) :=
  inferInstanceAs (Decidable (_ = _))

theorem suits_async_iff (callee : Callee) : Suits .async callee ↔
    callee ∉ [.object .generator, .object .asyncGenerator, .cls (some .coroutine)] := by
  cases callee with
  | function kind => cases kind <;> decide
  | object call => cases call <;> decide
  | cls call =>
    cases call with
    | none => decide
    | some kind => cases kind <;> decide

theorem suits_sync_iff (callee : Callee) : Suits .sync callee ↔
    callee ∉ [.function .coroutine, .function .asyncGenerator, .object .coroutine,
      .object .generator, .object .asyncGenerator] := by
  cases callee with
  | function kind => cases kind <;> decide
  | object call => cases call <;> decide
  | cls call =>
    cases call with
    | none => decide
    | some kind => cases kind <;> decide

structure Callees (ι : Type) where
  callee : ι → Callee
  signature : ι → Signature ι

/-- An object in Python: a value, or what a call has made and nothing has run. -/
inductive Obj (ι V : Type) where
  | value (v : V)
  | pending (dependency : ι)
  deriving DecidableEq, Repr

/-! ## Requests -/

section Requests

variable {ι V X : Type} [DecidableEq ι] (cs : Callees ι) (route : Route ι)
  (outcome : Nat → Except X V) (typeError recursionError : X)

namespace Callees

def callables : Callables ι := ⟨fun d => (cs.callee d).inspected, cs.signature⟩

/-- Which wrapper a route gets. -/
def mode : Mode := if route.isAsync cs.callables then .async else .sync

/-- What comes of a call, if its body ends with `out` when it is run. -/
def result (mode : Mode) (d : ι) (out : Except X V) : Except X (Obj ι V) :=
  if Suits mode (cs.callee d) then out.map .value
  else if treats mode (cs.callee d).inspected = .plain then .ok (.pending d)
  else do
    -- an instance is awaited
    let _ ← out
    .error typeError

def execute (mode : Mode) (d : ι) (kwargs : List (String × Obj ι V)) :
    Resolve ι (Obj ι V) X (Obj ι V) := do
  let n := (← get).clock
  let res ← logged (fun n => cs.result typeError mode d (outcome n)) (.ran n d kwargs)
  if IsGenerator (treats mode (cs.callee d).inspected) then
    modify fun r => { r with depCleanup := r.depCleanup ++ [n] }
  pure res

/-- What the other points of a request end with. -/
def objects (n : Nat) : Except X (Obj ι V) := (outcome n).map .value

def wrapper (depth : Nat) (handles : X → Bool) : Resolve ι (Obj ι V) X (Obj ι V) :=
  wrapperBy cs.callables (objects outcome) (cs.execute outcome typeError (cs.mode route))
    recursionError depth handles route

/-- What a request has logged. -/
def log (depth : Nat) (handles : X → Bool) : List (Event ι (Obj ι V) X) :=
  match cs.wrapper route outcome typeError recursionError depth handles .new with
  | .ok _ r => r.log
  | .error _ r => r.log

end Callees

/-! ## Resolved dependencies -/

/-- A parameter that depends on a callable has what an execution has returned or, for a
generator, yielded first. -/
def Received (log : List (Event ι (Obj ι V) X)) (sig : Signature ι)
    (kwargs : List (String × Obj ι V)) : Prop :=
  List.Forall₂ (fun p a => p.1 = a.1 ∧ ∀ u, p.2 = .depends u → ∃ v, a.2 = .value v ∧
    ∃ n kw, outcome n = .ok v ∧ .ran n u.dependency kw (.ok (.value v)) ∈ log) sig kwargs

/-- In a log, nothing is left unrun and nothing unrun is received. -/
structure Resolved (log : List (Event ι (Obj ι V) X)) : Prop where
  ran : ∀ n d kw o, .ran n d kw (.ok o) ∈ log → ∃ v, o = .value v ∧ outcome n = .ok v
  dependency : ∀ before n d kw out after, log = before ++ .ran n d kw out :: after →
    Received outcome before (cs.signature d) kw
  handler : ∀ before kw out after, log = before ++ .handler kw out :: after →
    Received outcome before route.signature kw

/-- Whatever the callables do. If nothing raises and the stack is large enough, the handler is
called. -/
def DependenciesResolved (V : Type) (cs : Callees ι) (route : Route ι)
    (typeError recursionError : X) (handles : X → Bool) : Prop :=
  ∀ outcome : Nat → Except X V,
    (∀ depth,
      Resolved cs route outcome (cs.log route outcome typeError recursionError depth handles)) ∧
    ((∀ n, ∃ v, outcome n = .ok v) → ∃ enough, ∀ depth, enough ≤ depth → ∃ kw out,
      .handler kw out ∈ cs.log route outcome typeError recursionError depth handles)

/-! ## Runs -/

variable {cs route outcome typeError recursionError} {mode : Mode}

/-- What the log shows of every run, whatever comes of the calls. -/
structure Genuine (cs : Callees ι) (route : Route ι) (outcome : Nat → Except X V) (typeError : X)
    (mode : Mode) (r : Request ι (Obj ι V) X) : Prop extends Traced cs.callables route r where
  result : ∀ n d kw out, .ran n d kw out ∈ r.log →
    Reached cs.callables route d ∧ out = cs.result typeError mode d (outcome n)
  handled : ∀ before kw out after, r.log = before ++ .handler kw out :: after →
    Supplied before route.signature kw

theorem genuine_new : Genuine cs route outcome typeError mode .new where
  toTraced := traced_new
  result := fun _ _ _ _ h => by cases h
  handled := fun before _ _ _ h => by cases before <;> cases h

theorem Genuine.tick {r : Request ι (Obj ι V) X} (h : Genuine cs route outcome typeError mode r) :
    Genuine cs route outcome typeError mode { r with clock := r.clock + 1 } :=
  ⟨h.toTraced.tick, h.result, h.handled⟩

theorem Genuine.run {r t : Request ι (Obj ι V) X} (h : Genuine cs route outcome typeError mode r)
    {n : Nat} {u : Depends ι} (hu : Declared cs.callables route u) {kw : List (String × Obj ι V)}
    {out : Except X (Obj ι V)} (hsupplied : Supplied r.log (cs.signature u.dependency) kw)
    (hout : out = cs.result typeError mode u.dependency (outcome n))
    (hlog : t.log = r.log ++ [.ran n u.dependency kw out]) (hcache : t.depCache = r.depCache) :
    Genuine cs route outcome typeError mode t := by
  refine ⟨h.toTraced.run hsupplied hlog hcache, fun m d kw' out' hmem => ?_,
    fun before kw' out' after hsplit => ?_⟩
  · rw [hlog, List.mem_append, List.mem_singleton] at hmem
    rcases hmem with hmem | heq
    · exact h.result m d kw' out' hmem
    · cases heq
      exact ⟨⟨u, hu, rfl⟩, hout⟩
  · rw [hlog] at hsplit
    rcases split_concat hsplit with ⟨_, he⟩ | ⟨rest, hsplit⟩
    · cases he
    · exact h.handled before kw' out' rest hsplit

theorem Genuine.event {r t : Request ι (Obj ι V) X}
    (h : Genuine cs route outcome typeError mode r) {e : Event ι (Obj ι V) X}
    (hran : ∀ n d kw out, e ≠ .ran n d kw out)
    (hhandler : ∀ kw out, e = .handler kw out → Supplied r.log route.signature kw ∧
      ∀ d, Reached cs.callables route d → ∃ n kw v, .ran n d kw (.ok v) ∈ r.log)
    (hlog : t.log = r.log ++ [e]) (hcache : t.depCache = r.depCache) :
    Genuine cs route outcome typeError mode t := by
  refine ⟨h.toTraced.event hran (fun kw out he => (hhandler kw out he).2) hlog hcache,
    fun m d kw out hmem => ?_, fun before kw out after hsplit => ?_⟩
  · rw [hlog, List.mem_append, List.mem_singleton] at hmem
    rcases hmem with hmem | heq
    · exact h.result m d kw out hmem
    · exact absurd heq.symm (hran m d kw out)
  · rw [hlog] at hsplit
    rcases split_concat hsplit with ⟨rfl, he⟩ | ⟨rest, hsplit⟩
    · exact (hhandler kw out he.symm).1
    · exact h.handled before kw out rest hsplit

theorem ends_execute {r : Request ι (Obj ι V) X} (h : Genuine cs route outcome typeError mode r)
    {u : Depends ι} (hu : Declared cs.callables route u) {kw : List (String × Obj ι V)}
    (hsupplied : Supplied r.log (cs.signature u.dependency) kw) :
    Ends (fun v t => Genuine cs route outcome typeError mode t ∧
        (∃ n, t.log = r.log ++ [.ran n u.dependency kw (.ok v)]) ∧ t.depCache = r.depCache)
      (fun _ t => Genuine cs route outcome typeError mode t)
      (cs.execute outcome typeError mode u.dependency kw r) := by
  unfold Callees.execute
  rw [ends_bind, ends_get, ends_bind]
  refine ends_logged_outcome (fun v hv => ?_) fun e he => h.run hu hsupplied he.symm rfl rfl
  split
  · exact ⟨h.run hu hsupplied hv.symm rfl rfl, ⟨_, rfl⟩, rfl⟩
  · exact ⟨h.run hu hsupplied hv.symm rfl rfl, ⟨_, rfl⟩, rfl⟩

theorem kept_genuine : Kept cs.callables route (Callees.objects outcome)
    (cs.execute outcome typeError mode) (Genuine cs route outcome typeError mode)
    (Genuine cs route outcome typeError mode) where
  sound := fun _ h => h
  tick := fun _ h => h.tick
  remembered := fun _ h => h.remembered
  invoked := fun _ _ _ h hu hsupplied _ =>
    ends_invokeBy (fun _ _ _ _ _ ht hran => ⟨ht.toTraced.remember hran, ht.result, ht.handled⟩)
      (ends_execute h hu hsupplied)

theorem ends_wrapper_genuine (depth : Nat) (handles : X → Bool) :
    Ends (fun _ t => Genuine cs route outcome typeError (cs.mode route) t)
      (fun _ t => Genuine cs route outcome typeError (cs.mode route) t)
      (cs.wrapper route outcome typeError recursionError depth handles .new) := by
  refine kept_genuine.wrapper (fun r kw out hr hlisted hsupplied => ?_) (fun r hr => ?_)
    (fun r n hr => ?_) recursionError depth handles genuine_new
  · have hreached := reached_completed hr.supplied hlisted hsupplied
    refine hr.event (fun _ _ _ _ he => by cases he) (fun kw' out' he => ?_) rfl rfl
    cases he
    exact ⟨hsupplied, hreached⟩
  · exact hr.event (fun _ _ _ _ he => by cases he) (fun _ _ he => by cases he) rfl rfl
  · exact hr.event (fun _ _ _ _ he => by cases he) (fun _ _ he => by cases he) rfl rfl

/-- What holds wherever the wrapper ends holds of a request with this log. -/
theorem log_of_ends {P : Request ι (Obj ι V) X → Prop} {depth : Nat} {handles : X → Bool}
    (h : Ends (fun _ t => P t) (fun _ t => P t)
      (cs.wrapper route outcome typeError recursionError depth handles .new)) :
    ∃ r, P r ∧ r.log = cs.log route outcome typeError recursionError depth handles := by
  unfold Callees.log
  cases hrun : cs.wrapper route outcome typeError recursionError depth handles .new with
  | ok v t =>
    rw [hrun] at h
    exact ⟨t, h, rfl⟩
  | error e t =>
    rw [hrun] at h
    exact ⟨t, h, rfl⟩

theorem log_genuine (cs : Callees ι) (route : Route ι) (outcome : Nat → Except X V)
    (typeError recursionError : X) (depth : Nat) (handles : X → Bool) :
    ∃ r : Request ι (Obj ι V) X, Genuine cs route outcome typeError (cs.mode route) r ∧
      r.log = cs.log route outcome typeError recursionError depth handles :=
  log_of_ends (ends_wrapper_genuine depth handles)

/-! ## Where everything suits -/

omit [DecidableEq ι] in
theorem result_of_suits {d : ι} (h : Suits mode (cs.callee d)) (out : Except X V) :
    cs.result typeError mode d out = out.map .value := if_pos h

omit [DecidableEq ι] in
/-- Otherwise there is an object that nothing has run, or a `TypeError`. -/
theorem suits_of_value {d : ι} {out : Except X V} {v : V}
    (h : cs.result typeError mode d out = .ok (.value v)) : Suits mode (cs.callee d) := by
  unfold Callees.result at h
  split at h
  · assumption
  · split at h
    · cases h
    · cases out <;> cases h

theorem Genuine.value {r : Request ι (Obj ι V) X} (h : Genuine cs route outcome typeError mode r)
    (hsuits : ∀ d, Reached cs.callables route d → Suits mode (cs.callee d)) {n : Nat} {d : ι}
    {kw : List (String × Obj ι V)} {o : Obj ι V} (hran : .ran n d kw (.ok o) ∈ r.log) :
    ∃ v, o = .value v ∧ outcome n = .ok v := by
  obtain ⟨hreached, hout⟩ := h.result n d kw _ hran
  rw [result_of_suits (hsuits d hreached)] at hout
  obtain ⟨v, hv, rfl⟩ := map_eq_ok.mp hout.symm
  exact ⟨v, rfl, hv⟩

theorem Genuine.resolved {r : Request ι (Obj ι V) X}
    (h : Genuine cs route outcome typeError mode r)
    (hsuits : ∀ d, Reached cs.callables route d → Suits mode (cs.callee d)) :
    Resolved cs route outcome r.log := by
  have hreceived : ∀ before after sig kw, r.log = before ++ after → Supplied before sig kw →
      Received outcome before sig kw := by
    intro before after sig kw hlog hsupplied
    refine List.Forall₂.imp (fun p a hpa => ⟨hpa.1, fun u hu => ?_⟩) hsupplied
    obtain ⟨n, kw', hran⟩ := hpa.2 u hu
    obtain ⟨v, hv, hout⟩ := h.value hsuits (hlog ▸ List.mem_append_left after hran)
    rw [hv] at hran
    exact ⟨v, hv, n, kw', hout, hran⟩
  exact ⟨fun n d kw o hran => h.value hsuits hran,
    fun before n d kw out after hsplit =>
      hreceived before _ _ kw hsplit (h.supplied before n d kw out after hsplit),
    fun before kw out after hsplit =>
      hreceived before _ _ kw hsplit (h.handled before kw out after hsplit)⟩

end Requests

/-! ## Progress -/

section Progress

variable {ι V X : Type}

/-- The number of callables that one leads to. -/
noncomputable def height (c : Callables ι) (d : ι) : Nat :=
  Set.ncard { d' | Relation.TransGen (DependsOn c) d d' }

theorem height_lt [Finite ι] {c : Callables ι} (hacyclic : Acyclic c) {d d' : ι}
    (h : DependsOn c d d') : height c d' < height c d := by
  refine Set.ncard_lt_ncard ⟨fun e he => .head h he, fun hsub => ?_⟩ (Set.toFinite _)
  exact hacyclic d' (hsub (.single h))

variable [DecidableEq ι] {c : Callables ι} {route : Route ι} {outcome : Nat → Except X V}
  {run : ι → List (String × V) → Resolve ι V X V}

/-- A sufficient depth for a signature. -/
def Fits (c : Callables ι) (depth : Nat) (sig : Signature ι) : Prop :=
  0 < depth ∧ ∀ name u, (name, Param.depends u) ∈ sig → height c u.dependency + 1 < depth

omit [DecidableEq ι] in
theorem Fits.nested [Finite ι] (hacyclic : Acyclic c) {depth : Nat} {sig : Signature ι}
    (h : Fits c (depth + 1) sig) {name : String} {u : Depends ι}
    (hmem : (name, .depends u) ∈ sig) : Fits c depth (c.signature u.dependency) := by
  have hu := h.2 name u hmem
  refine ⟨by omega, fun name' u' hmem' => ?_⟩
  have hlt := height_lt hacyclic ⟨name', u', hmem', rfl⟩
  omega

omit [DecidableEq ι] in
theorem succeeds_point (hpoint : ∀ n, ∃ v, outcome n = .ok v) :
    Succeeds (point outcome : Resolve ι V X V) := fun r =>
  ends_point (fun _ _ => trivial) fun e he => by
    obtain ⟨v, hv⟩ := hpoint r.clock
    rw [he] at hv
    cases hv

omit [DecidableEq ι] in
theorem succeeds_logged (hpoint : ∀ n, ∃ v, outcome n = .ok v) (event : Except X V → Event ι V X) :
    Succeeds (logged outcome event) :=
  (succeeds_modify _).bind fun _ => succeeds_point hpoint

theorem succeeds_cached (hpoint : ∀ n, ∃ v, outcome n = .ok v) (u : Depends ι) :
    Succeeds (cached outcome u) := by
  unfold cached
  split
  · exact (succeeds_point hpoint).bind fun _ => succeeds_get.bind fun _ => succeeds_pure _
  · exact succeeds_pure _

theorem succeeds_invokeBy {u : Depends ι} {kw : List (String × V)}
    (hrun : Succeeds (run u.dependency kw)) : Succeeds (invokeBy run u kw) := by
  refine hrun.bind fun v => ?_
  split
  · exact (succeeds_modify _).bind fun _ => succeeds_pure v
  · exact succeeds_pure v

theorem succeeds_resolveParamBy (hpoint : ∀ n, ∃ v, outcome n = .ok v)
    {resolve : Signature ι → Resolve ι V X (List (String × V))} {p : String × Param ι}
    (hresolve : ∀ u, p.2 = .depends u → Succeeds (resolve (c.signature u.dependency)))
    (hrun : ∀ u, p.2 = .depends u → ∀ kw, Succeeds (run u.dependency kw)) :
    Succeeds (resolveParamBy c outcome run resolve p) := by
  obtain ⟨name, param⟩ := p
  cases param with
  | value => exact (succeeds_point hpoint).bind fun _ => succeeds_pure _
  | depends u =>
    refine (succeeds_cached hpoint u).bind fun hit => ?_
    cases hit with
    | some v => exact succeeds_pure _
    | none =>
      exact (succeeds_point hpoint).bind fun _ => (hresolve u rfl).bind fun kw =>
        (succeeds_invokeBy (hrun u rfl kw)).bind fun _ => succeeds_pure _

/-- On a large enough stack nothing is left to raise. -/
theorem succeeds_resolveKwargsBy [Finite ι] (hacyclic : Acyclic c)
    (hpoint : ∀ n, ∃ v, outcome n = .ok v)
    (hrun : ∀ u, Declared c route u → ∀ kw, Succeeds (run u.dependency kw)) (recursionError : X)
    {depth : Nat} {sig : Signature ι} (hfits : Fits c depth sig)
    (hdeclared : ∀ name u, (name, Param.depends u) ∈ sig → Declared c route u) :
    Succeeds (resolveKwargsBy c outcome run recursionError depth sig) := by
  induction depth generalizing sig with
  | zero => exact absurd hfits.1 (Nat.lt_irrefl 0)
  | succ depth ih =>
    refine (succeeds_point hpoint).bind fun _ => Succeeds.mapM fun p hp => ?_
    obtain ⟨name, param⟩ := p
    refine succeeds_resolveParamBy hpoint (fun u hu => ?_) fun u hu => ?_
    · cases hu
      exact ih (hfits.nested hacyclic hp) fun _ _ hmem => .nested (hdeclared _ u hp) hmem
    · cases hu
      exact hrun u (hdeclared _ u hp)

theorem succeeds_resolveListBy [Finite ι] (hacyclic : Acyclic c)
    (hpoint : ∀ n, ∃ v, outcome n = .ok v)
    (hrun : ∀ u, Declared c route u → ∀ kw, Succeeds (run u.dependency kw)) (recursionError : X)
    {depth : Nat} (hfits : ∀ d, Fits c depth (c.signature d)) :
    Succeeds (resolveListBy c outcome run recursionError depth route.allDeps) := by
  refine Succeeds.forM fun u hu => (succeeds_point hpoint).bind fun _ => ?_
  have hkwargs := succeeds_resolveKwargsBy hacyclic hpoint hrun recursionError (hfits u.dependency)
    fun _ _ hmem => .nested (.listed hu) hmem
  refine hkwargs.bind fun kw => (succeeds_cached hpoint u).bind fun hit => ?_
  cases hit with
  | some v => exact succeeds_pure _
  | none => exact (succeeds_invokeBy (hrun u (.listed hu) kw)).bind fun _ => succeeds_pure _

/-- The handler is in the log. -/
def Called (r : Request ι V X) : Prop := ∃ kw out, .handler kw out ∈ r.log

omit [DecidableEq ι] in
theorem Called.mono {r t : Request ι V X} (h : Called r) (hlog : r.log <+: t.log) : Called t := by
  obtain ⟨kw, out, hmem⟩ := h
  exact ⟨kw, out, hlog.subset hmem⟩

theorem called_wrapperBy [Finite ι] (hacyclic : Acyclic c) (hpoint : ∀ n, ∃ v, outcome n = .ok v)
    (hrun : ∀ u, Declared c route u → ∀ kw, Succeeds (run u.dependency kw)) (recursionError : X)
    {depth : Nat} (hlisted : ∀ d, Fits c depth (c.signature d))
    (hfits : Fits c depth route.signature) (handles : X → Bool) (r : Request ι V X) :
    Ends (fun _ t => Called t) (fun _ _ => False)
      (wrapperBy c outcome run recursionError depth handles route r) := by
  have hbody : Ends (fun _ t => Called t) (fun _ _ => False)
      (handleBy c outcome run recursionError depth route r) := by
    unfold handleBy
    rw [ends_bind]
    refine (succeeds_resolveListBy hacyclic hpoint hrun recursionError hlisted r).mono
      (fun _ s _ => ?_) fun _ _ hf => hf
    rw [ends_bind]
    refine (succeeds_resolveKwargsBy hacyclic hpoint hrun recursionError hfits
      (fun _ _ hmem => .parameter hmem) s).mono (fun kw t _ => ?_) fun _ _ hf => hf
    have hraises : ∀ n e, outcome n ≠ .error e := fun n e he => by
      obtain ⟨v, hv⟩ := hpoint n
      rw [he] at hv
      cases hv
    rw [ends_bind]
    refine ends_logged_outcome (fun v _ => ?_) fun e he => hraises _ e he
    have hcalled : Called { t with log := t.log ++ [.handler kw (.ok v)], clock := t.clock + 1 } :=
      ⟨kw, .ok v, List.mem_append_right _ (List.mem_singleton_self _)⟩
    split
    · rw [ends_bind]
      exact ends_logged_outcome (fun _ _ => hcalled.mono (List.prefix_append _ _))
        fun e he => hraises _ e he
    · exact hcalled
  unfold wrapperBy
  rw [ends_tryFinally, ends_tryCatch]
  refine hbody.mono (fun _ t ht => ?_) fun _ _ hf => hf.elim
  exact ends_cleanUp (fun s n hs => hs.mono (List.prefix_append _ _)) ht

omit [DecidableEq ι] in
theorem fits_of_card [Finite ι] {depth : Nat} (h : Nat.card ι + 1 < depth) (sig : Signature ι) :
    Fits c depth sig := by
  refine ⟨by omega, fun name u _ => ?_⟩
  have hcard : height c u.dependency ≤ Nat.card ι := Set.ncard_le_card _
  omega

end Progress

/-! ## The result -/

section Result

variable {ι V X : Type} [DecidableEq ι] {cs : Callees ι} {route : Route ι}
  {outcome : Nat → Except X V} {typeError recursionError : X} {handles : X → Bool}

omit [DecidableEq ι] in
theorem objects_ok (hok : ∀ n, ∃ v, outcome n = .ok v) (n : Nat) :
    ∃ o : Obj ι V, Callees.objects outcome n = .ok o := by
  obtain ⟨v, hv⟩ := hok n
  exact ⟨.value v, by rw [Callees.objects, hv]; rfl⟩

omit [DecidableEq ι] in
theorem succeeds_execute {mode : Mode} (hok : ∀ n, ∃ v, outcome n = .ok v) {d : ι}
    (hsuits : Suits mode (cs.callee d)) (kw : List (String × Obj ι V)) :
    Succeeds (cs.execute outcome typeError mode d kw) := by
  have hresult : ∀ n, ∃ o : Obj ι V, cs.result typeError mode d (outcome n) = .ok o := by
    intro n
    rw [result_of_suits hsuits]
    exact objects_ok hok n
  refine succeeds_get.bind fun _ => (succeeds_logged hresult _).bind fun v => ?_
  split
  · exact (succeeds_modify _).bind fun _ => succeeds_pure v
  · exact succeeds_pure v

theorem called_log [Finite ι] (hacyclic : Acyclic cs.callables)
    (hsuits : ∀ d, Reached cs.callables route d → Suits (cs.mode route) (cs.callee d))
    (hok : ∀ n, ∃ v, outcome n = .ok v) {depth : Nat} (hdepth : Nat.card ι + 1 < depth) :
    ∃ kw out, .handler kw out ∈ cs.log route outcome typeError recursionError depth handles := by
  have hends : Ends (fun _ t => Called t) (fun _ _ => False)
      (cs.wrapper route outcome typeError recursionError depth handles .new) :=
    called_wrapperBy hacyclic (objects_ok hok)
      (fun u hu kw => succeeds_execute hok (hsuits _ ⟨u, hu, rfl⟩) kw) recursionError
      (fun d => fits_of_card hdepth _) (fits_of_card hdepth _) handles .new
  obtain ⟨r, hcalled, hlog⟩ := log_of_ends (hends.mono (fun _ _ ht => ht) fun _ _ hf => hf.elim)
  rw [← hlog]
  exact hcalled

/-- A handler that is called has had everything run that its route reaches. -/
theorem suits_of_called {depth : Nat} (hresolved : Resolved cs route outcome
      (cs.log route outcome typeError recursionError depth handles))
    (hcalled : ∃ kw out,
      .handler kw out ∈ cs.log route outcome typeError recursionError depth handles) {d : ι}
    (hd : Reached cs.callables route d) : Suits (cs.mode route) (cs.callee d) := by
  obtain ⟨r, hgenuine, hlog⟩ :=
    log_genuine cs route outcome typeError recursionError depth handles
  rw [← hlog] at hresolved hcalled
  obtain ⟨kw, out, hmem⟩ := hcalled
  obtain ⟨before, after, hsplit⟩ := List.append_of_mem hmem
  obtain ⟨n, kw', o, hran⟩ := hgenuine.complete before kw out after hsplit d hd
  have hran' : .ran n d kw' (.ok o) ∈ r.log := hsplit ▸ List.mem_append_left _ hran
  obtain ⟨v, rfl, -⟩ := hresolved.ran n d kw' o hran'
  exact suits_of_value (hgenuine.result n d kw' _ hran').2.symm

/-- For every finite graph without a cycle, dependencies are resolved if and only if each that
the route reaches is treated as what a call of it makes. -/
theorem dependencies_resolved_iff {ι V X : Type} [DecidableEq ι] [Finite ι] [Inhabited V]
    (cs : Callees ι) (hacyclic : Acyclic cs.callables) (route : Route ι)
    (typeError recursionError : X) (handles : X → Bool) :
    DependenciesResolved V cs route typeError recursionError handles ↔
      ∀ d, Reached cs.callables route d → Suits (cs.mode route) (cs.callee d) := by
  constructor
  · intro h d hd
    obtain ⟨hresolved, hcalled⟩ := h fun _ => .ok default
    obtain ⟨enough, hcalled⟩ := hcalled fun _ => ⟨default, rfl⟩
    exact suits_of_called (hresolved enough) (hcalled enough (Nat.le_refl enough)) hd
  · intro hsuits outcome
    refine ⟨fun depth => ?_, fun hok => ⟨Nat.card ι + 2, fun depth hdepth => ?_⟩⟩
    · obtain ⟨r, hgenuine, hlog⟩ :=
        log_genuine cs route outcome typeError recursionError depth handles
      rw [← hlog]
      exact hgenuine.resolved hsuits
    · exact called_log hacyclic hsuits hok (by omega)

deriving instance DecidableEq for Event

/-- `service(db=Depends(get_db))` -/
def service (getDb : Callee) : Callees Bool where
  callee := fun d => if d then .function .plain else getDb
  signature := chain.signature

def serviceRoute (coroutine : Bool) : Route Bool :=
  ⟨[], [("service", .depends ⟨true, true⟩)], coroutine, false⟩

theorem acyclic_service (getDb : Callee) : Acyclic (service getDb).callables := acyclic_chain

theorem dependencies_resolved_service : DependenciesResolved Nat (service (.object .coroutine))
    (serviceRoute true) () () fun _ => false :=
  (dependencies_resolved_iff _ (acyclic_service _) _ _ _ _).mpr fun d _ => by
    cases d <;> decide

/-- A sync handler with a coroutine below a plain function. -/
theorem coroutine_received :
    (service (.function .coroutine)).log (serviceRoute false) (fun n => .ok n) () () 3
        (fun _ => false) =
      [.ran 7 false [] (.ok (.pending false)),
        .ran 8 true [("db", .pending false)] (.ok (.value 8)),
        .handler [("service", .value 8)] (.ok (.value 9))] ∧
      ¬ DependenciesResolved Nat (service (.function .coroutine)) (serviceRoute false) () ()
        fun _ => false := by
  have hlog : (service (.function .coroutine)).log (serviceRoute false) (fun n => .ok n) () () 3
        (fun _ => false) =
      [.ran 7 false [] (.ok (.pending false)),
        .ran 8 true [("db", .pending false)] (.ok (.value 8)),
        .handler [("service", .value 8)] (.ok (.value 9))] := by decide +kernel
  refine ⟨hlog, fun h => ?_⟩
  have hresolved := (h fun n => .ok n).1 3
  rw [hlog] at hresolved
  have hreceived := hresolved.dependency [.ran 7 false [] (.ok (.pending false))] 8 true
    [("db", .pending false)] _ _ rfl
  cases hreceived with
  | cons hparam _ =>
    obtain ⟨v, hv, -⟩ := hparam.2 _ rfl
    cases hv

end Result

end JustApi.Py.DependencyValues
