import JustApi.Lib.Raising
import JustApi.Py.Resolvers
import Mathlib.Logic.Relation
import Mathlib.Data.List.Forall2

/-! # Runs of the resolvers

What the resolvers do to a request, for any two properties that a call of a dependency
keeps, one of them as long as nothing raises. -/
namespace JustApi.Py.Dependencies
open JustApi.Lib.Raising

/-! ## What a route declares -/

section Declarations

variable {ι V X : Type} (c : Callables ι) (route : Route ι)

/-- A callable has the other one as a parameter. -/
def DependsOn (d d' : ι) : Prop :=
  ∃ name u, (name, Param.depends u) ∈ c.signature d ∧ u.dependency = d'

def Acyclic : Prop := ∀ d, ¬ Relation.TransGen (DependsOn c) d d

/-- The `Depends` that a route leads to. -/
inductive Declared : Depends ι → Prop where
  | listed {u : Depends ι} : u ∈ route.allDeps → Declared u
  | parameter {name : String} {u : Depends ι} : (name, .depends u) ∈ route.signature → Declared u
  | nested {u : Depends ι} {name : String} {u' : Depends ι} :
    Declared u → (name, .depends u') ∈ c.signature u.dependency → Declared u'

def Reached (d : ι) : Prop := ∃ u, Declared c route u ∧ u.dependency = d

/-- A signature leads to a callable. -/
def Leads (sig : Signature ι) (d : ι) : Prop :=
  ∃ name u, (name, Param.depends u) ∈ sig ∧ Relation.ReflTransGen (DependsOn c) u.dependency d

/-- Every parameter has an argument, and where it depends on a callable, that one has
completed an execution with this value. -/
def Supplied (log : List (Event ι V X)) (sig : Signature ι) (kwargs : List (String × V)) : Prop :=
  List.Forall₂ (fun p a => p.1 = a.1 ∧ ∀ u, p.2 = .depends u →
    ∃ n kw, Event.ran n u.dependency kw (.ok a.2) ∈ log) sig kwargs

end Declarations

/-! ## Logs that grow -/

section Logs

variable {ι V X : Type} {c : Callables ι}

theorem Supplied.mono {log log' : List (Event ι V X)} {sig : Signature ι}
    {kwargs : List (String × V)} (h : Supplied log sig kwargs) (hlog : log <+: log') :
    Supplied log' sig kwargs := by
  refine List.Forall₂.imp (fun p a hpa => ⟨hpa.1, fun u hu => ?_⟩) h
  obtain ⟨n, kw, hran⟩ := hpa.2 u hu
  exact ⟨n, kw, hlog.subset hran⟩

/-- What a parameter was given is what some execution has returned. -/
theorem Supplied.of_zip {log : List (Event ι V X)} {sig : Signature ι}
    {kwargs : List (String × V)} (h : Supplied log sig kwargs) {q : (String × Param ι) × String × V}
    (hq : q ∈ sig.zip kwargs) {u : Depends ι} (hu : q.1.2 = .depends u) :
    ∃ n kw, .ran n u.dependency kw (.ok q.2.2) ∈ log :=
  ((List.forall₂_iff_zip.mp h).2 hq).2 u hu

/-- A parameter that depends on a callable has an argument. -/
theorem Supplied.of_mem {log : List (Event ι V X)} {sig : Signature ι}
    {kwargs : List (String × V)} (h : Supplied log sig kwargs) {name : String} {u : Depends ι}
    (hu : (name, .depends u) ∈ sig) : ∃ n kw v, .ran n u.dependency kw (.ok v) ∈ log := by
  induction h with
  | nil => cases hu
  | cons hpa _ ih =>
    rcases List.mem_cons.mp hu with rfl | hu
    · obtain ⟨n, kw, hran⟩ := hpa.2 u rfl
      exact ⟨n, kw, _, hran⟩
    · exact ih hu

/-- No callable leads to itself. -/
theorem not_leads_self (hacyclic : Acyclic c) (d : ι) : ¬ Leads c (c.signature d) d := by
  rintro ⟨name, u, hmem, hpath⟩
  exact hacyclic d (Relation.TransGen.head' ⟨name, u, hmem, rfl⟩ hpath)

/-- What the parameters of a dependency lead to, the dependency leads to. -/
theorem not_leads_nested {sig : Signature ι} {name : String} {u : Depends ι}
    (hmem : (name, .depends u) ∈ sig) {d : ι} (h : ¬ Leads c sig d) :
    ¬ Leads c (c.signature u.dependency) d := by
  rintro ⟨name', u', hmem', hpath⟩
  exact h ⟨name, u, hmem, Relation.ReflTransGen.head ⟨name', u', hmem', rfl⟩ hpath⟩

theorem ne_of_not_leads {sig : Signature ι} {name : String} {u : Depends ι}
    (hmem : (name, .depends u) ∈ sig) {d : ι} (h : ¬ Leads c sig d) : d ≠ u.dependency := by
  rintro rfl
  exact h ⟨name, u, hmem, Relation.ReflTransGen.refl⟩

end Logs

/-- An element that the second list does not have is split off from the first. -/
theorem split_of_notMem {α : Type} {l l' before after : List α} {a : α}
    (h : l ++ l' = before ++ a :: after) (ha : a ∉ l') : ∃ rest, l = before ++ a :: rest ∧
      after = rest ++ l' := by
  rcases List.append_eq_append_iff.mp h with ⟨mid, hbefore, hl'⟩ | ⟨mid, hl, hmid⟩
  · exact absurd (hl' ▸ List.mem_append_right mid List.mem_cons_self) ha
  · rcases mid with _ | ⟨b, rest⟩
    · rw [List.nil_append] at hmid
      exact absurd (hmid ▸ List.mem_cons_self) ha
    · obtain ⟨rfl, hafter⟩ := List.cons.inj hmid
      exact ⟨rest, hl, hafter⟩

theorem split_concat {α : Type} {l before after : List α} {a b : α}
    (h : l ++ [b] = before ++ a :: after) :
    before = l ∧ a = b ∨ ∃ rest, l = before ++ a :: rest := by
  rcases List.eq_nil_or_concat after with rfl | ⟨rest, c, rfl⟩
  · obtain ⟨hl, hb⟩ := List.append_inj' h rfl
    exact .inl ⟨hl.symm, (List.cons.inj hb).1.symm⟩
  · rw [List.concat_eq_append, ← List.cons_append, ← List.append_assoc] at h
    exact .inr ⟨rest, (List.append_inj' h rfl).1⟩

/-- When the list and the parameters of a route are resolved, all it leads to has
completed. -/
theorem reached_completed {ι V X : Type} {c : Callables ι} {route : Route ι}
    {log : List (Event ι V X)}
    (hnested : ∀ before n d kw out after, log = before ++ .ran n d kw out :: after →
      Supplied before (c.signature d) kw)
    (hlisted : ∀ u ∈ route.allDeps, ∃ n kw v, .ran n u.dependency kw (.ok v) ∈ log)
    {kwargs : List (String × V)} (hsupplied : Supplied log route.signature kwargs) (d : ι)
    (hd : Reached c route d) : ∃ n kw v, .ran n d kw (.ok v) ∈ log := by
  obtain ⟨u, hu, rfl⟩ := hd
  induction hu with
  | listed hu => exact hlisted _ hu
  | parameter hmem => exact hsupplied.of_mem hmem
  | nested _ hmem ih =>
    obtain ⟨n, kw, v, hran⟩ := ih
    obtain ⟨before, after, hlog⟩ := List.append_of_mem hran
    obtain ⟨n', kw', v', hran'⟩ := (hnested before n _ kw _ after hlog).of_mem hmem
    exact ⟨n', kw', v', hlog ▸ List.mem_append_left _ hran'⟩

/-! ## Points -/

section Points

variable {ι V X : Type} {outcome : Nat → Except X V}

theorem ends_point {Q : V → Request ι V X → Prop} {R : X → Request ι V X → Prop}
    {r : Request ι V X} (hq : ∀ v, outcome r.clock = .ok v → Q v { r with clock := r.clock + 1 })
    (hr : ∀ e, outcome r.clock = .error e → R e { r with clock := r.clock + 1 }) :
    Ends Q R (point outcome r) := by
  unfold point
  cases hout : outcome r.clock with
  | ok v => exact hq v hout
  | error e => exact hr e hout

/-- What the log shows is the outcome of the point. -/
theorem ends_logged_outcome {Q : V → Request ι V X → Prop} {R : X → Request ι V X → Prop}
    {event : Except X V → Event ι V X} {r : Request ι V X}
    (hq : ∀ v, outcome r.clock = .ok v →
      Q v { r with log := r.log ++ [event (.ok v)], clock := r.clock + 1 })
    (hr : ∀ e, outcome r.clock = .error e →
      R e { r with log := r.log ++ [event (.error e)], clock := r.clock + 1 }) :
    Ends Q R (logged outcome event r) := by
  unfold logged
  rw [ends_bind, ends_modify]
  refine ends_point (fun v hv => ?_) fun e he => ?_
  · have h := hq v hv
    rw [← hv] at h
    exact h
  · have h := hr e he
    rw [← he] at h
    exact h

theorem ends_logged {Q : V → Request ι V X → Prop} {R : X → Request ι V X → Prop}
    {event : Except X V → Event ι V X} {r : Request ι V X}
    (hq : ∀ v, Q v { r with log := r.log ++ [event (.ok v)], clock := r.clock + 1 })
    (hr : ∀ e, R e { r with log := r.log ++ [event (.error e)], clock := r.clock + 1 }) :
    Ends Q R (logged outcome event r) :=
  ends_logged_outcome (fun v _ => hq v) fun e _ => hr e

end Points

/-! ## The resolvers -/

section Resolution

variable {ι V X : Type} [DecidableEq ι]

/-- As long as nothing raises, `C` holds; `S` holds then and when something has raised. -/
structure Preserved (mode : Mode) (c : Callables ι) (route : Route ι) (outcome : Nat → Except X V)
    (C S : Request ι V X → Prop) : Prop where
  sound : ∀ r, C r → S r
  tick : ∀ r, C r → C { r with clock := r.clock + 1 }
  remembered : ∀ r, C r → ∀ d v, r.depCache.lookup d = some v → ∃ n kw, .ran n d kw (.ok v) ∈ r.log
  /-- Without a cycle, what is called is not in the cache. -/
  invoked : ∀ r u kw, C r → Declared c route u → Supplied r.log (c.signature u.dependency) kw →
    (Acyclic c → u.useCache = true → r.depCache.lookup u.dependency = none) →
    Ends (fun v t => C t ∧ r.log <+: t.log ∧ (∃ n, .ran n u.dependency kw (.ok v) ∈ t.log) ∧
        ∀ d, d ≠ u.dependency → t.depCache.lookup d = r.depCache.lookup d)
      (fun _ t => S t) (invoke mode c outcome u kw r)

/-- The same of any calls. -/
structure Kept (c : Callables ι) (route : Route ι) (outcome : Nat → Except X V)
    (run : ι → List (String × V) → Resolve ι V X V) (C S : Request ι V X → Prop) : Prop where
  sound : ∀ r, C r → S r
  tick : ∀ r, C r → C { r with clock := r.clock + 1 }
  remembered : ∀ r, C r → ∀ d v, r.depCache.lookup d = some v → ∃ n kw, .ran n d kw (.ok v) ∈ r.log
  invoked : ∀ r u kw, C r → Declared c route u → Supplied r.log (c.signature u.dependency) kw →
    (Acyclic c → u.useCache = true → r.depCache.lookup u.dependency = none) →
    Ends (fun v t => C t ∧ r.log <+: t.log ∧ (∃ n, .ran n u.dependency kw (.ok v) ∈ t.log) ∧
        ∀ d, d ≠ u.dependency → t.depCache.lookup d = r.depCache.lookup d)
      (fun _ t => S t) (invokeBy run u kw r)

variable {mode : Mode} {c : Callables ι} {route : Route ι} {outcome : Nat → Except X V}
  {run : ι → List (String × V) → Resolve ι V X V} {C S : Request ι V X → Prop}

theorem Preserved.kept (hp : Preserved mode c route outcome C S) :
    Kept c route outcome (execute mode c outcome) C S :=
  ⟨hp.sound, hp.tick, hp.remembered, hp.invoked⟩

theorem Kept.atPoint (hp : Kept c route outcome run C S) {r : Request ι V X} (h : C r) :
    Ends (fun _ t => C t ∧ t.log = r.log ∧ t.depCache = r.depCache)
      (fun _ t => S t) (point outcome r) :=
  ends_point (fun _ _ => ⟨hp.tick r h, rfl, rfl⟩) fun _ _ => hp.sound _ (hp.tick r h)

/-- What the cache has is what an execution has returned. -/
theorem Kept.atCache (hp : Kept c route outcome run C S) {r : Request ι V X}
    (h : C r) (u : Depends ι) :
    Ends (fun hit t => C t ∧ t.log = r.log ∧ t.depCache = r.depCache ∧
        (∀ v, hit = some v → ∃ n kw, .ran n u.dependency kw (.ok v) ∈ r.log) ∧
        (hit = none → u.useCache = true → r.depCache.lookup u.dependency = none))
      (fun _ t => S t) (cached outcome u r) := by
  unfold cached
  split
  next huse =>
    rw [ends_bind]
    refine (hp.atPoint h).mono (fun v t ht => ?_) fun _ _ ht => ht
    rw [ends_bind, ends_get, ends_pure, ht.2.2]
    exact ⟨ht.1, ht.2.1, rfl, fun v hv => hp.remembered r h _ v hv, fun hnone _ => hnone⟩
  next huse =>
    rw [ends_pure]
    exact ⟨h, rfl, rfl, fun v hv => (by cases hv), fun _ htrue => absurd htrue huse⟩

/-- What the resolver of parameters does: it executes only what the signature leads to. -/
def Resolves (c : Callables ι) (route : Route ι) (C S : Request ι V X → Prop)
    (resolve : Signature ι → Resolve ι V X (List (String × V))) : Prop :=
  ∀ sig r, C r → (∀ name u, (name, Param.depends u) ∈ sig → Declared c route u) →
    Ends (fun kw t => C t ∧ r.log <+: t.log ∧ Supplied t.log sig kw ∧
        ∀ d, ¬ Leads c sig d → t.depCache.lookup d = r.depCache.lookup d)
      (fun _ t => S t) (resolve sig r)

theorem Kept.atParam (hp : Kept c route outcome run C S)
    {resolve : Signature ι → Resolve ι V X (List (String × V))}
    (hresolve : Resolves c route C S resolve)
    {sig : Signature ι} {p : String × Param ι} (hmem : p ∈ sig)
    (hdeclared : ∀ name u, (name, Param.depends u) ∈ sig → Declared c route u)
    {r : Request ι V X} (h : C r) :
    Ends (fun a t => C t ∧ r.log <+: t.log ∧
        (p.1 = a.1 ∧ ∀ u, p.2 = .depends u → ∃ n kw, .ran n u.dependency kw (.ok a.2) ∈ t.log) ∧
        ∀ d, ¬ Leads c sig d → t.depCache.lookup d = r.depCache.lookup d)
      (fun _ t => S t) (resolveParamBy c outcome run resolve p r) := by
  obtain ⟨name, param⟩ := p
  unfold resolveParamBy
  cases param with
  | value =>
    dsimp only
    rw [ends_bind]
    refine (hp.atPoint h).mono (fun v t ht => ?_) fun _ _ ht => ht
    rw [ends_pure, ht.2.1, ht.2.2]
    exact ⟨ht.1, List.prefix_rfl, ⟨rfl, fun u hu => by cases hu⟩, fun _ _ => rfl⟩
  | depends u =>
    have hu := hdeclared name u hmem
    dsimp only
    rw [ends_bind]
    refine (hp.atCache h u).mono (fun hit t ht => ?_) fun _ _ ht => ht
    obtain ⟨ht, hlog, hcache, hhit, hmiss⟩ := ht
    cases hit with
    | some v =>
      rw [ends_pure, hlog, hcache]
      refine ⟨ht, List.prefix_rfl, ⟨rfl, fun u' hu' => ?_⟩, fun _ _ => rfl⟩
      cases hu'
      exact hhit v rfl
    | none =>
      dsimp only
      rw [ends_bind]
      refine (hp.atPoint ht).mono (fun _ t₁ ht₁ => ?_) fun _ _ ht => ht
      obtain ⟨ht₁, hlog₁, hcache₁⟩ := ht₁
      rw [ends_bind]
      refine (hresolve _ t₁ ht₁ fun _ _ hmem => .nested hu hmem).mono (fun kw t₂ ht₂ => ?_)
        fun _ _ ht => ht
      obtain ⟨ht₂, hlog₂, hsupplied, hcache₂⟩ := ht₂
      rw [ends_bind]
      have hmiss₂ : Acyclic c → u.useCache = true →
          t₂.depCache.lookup u.dependency = none := by
        intro hacyclic huse
        rw [hcache₂ _ (not_leads_self hacyclic _), hcache₁, hcache]
        exact hmiss rfl huse
      refine (hp.invoked _ _ _ ht₂ hu hsupplied hmiss₂).mono (fun v t₃ ht₃ => ?_) fun _ _ ht => ht
      obtain ⟨ht₃, hlog₃, ⟨n, hran⟩, hcache₃⟩ := ht₃
      rw [ends_pure]
      rw [hlog₁, hlog] at hlog₂
      refine ⟨ht₃, hlog₂.trans hlog₃, ⟨rfl, fun u' hu' => ?_⟩, fun d hd => ?_⟩
      · cases hu'
        exact ⟨n, kw, hran⟩
      · rw [hcache₃ d (ne_of_not_leads hmem hd), hcache₂ d (not_leads_nested hmem hd), hcache₁,
          hcache]

theorem Kept.resolves (hp : Kept c route outcome run C S) (recursionError : X)
    (depth : Nat) :
    Resolves c route C S (resolveKwargsBy c outcome run recursionError depth) := by
  induction depth with
  | zero =>
    intro sig r h _
    rw [resolveKwargsBy, ends_throw]
    exact hp.sound r h
  | succ depth ih =>
    intro sig r h hdeclared
    rw [resolveKwargsBy, ends_bind]
    refine (hp.atPoint h).mono (fun _ t₀ ht₀ => ?_) fun _ _ ht => ht
    obtain ⟨ht₀, hlog₀, hcache₀⟩ := ht₀
    refine ends_mapM (fun done kw t => C t ∧ r.log <+: t.log ∧
      Supplied t.log done kw ∧ ∀ d, ¬ Leads c sig d → t.depCache.lookup d = r.depCache.lookup d)
      [] [] ⟨ht₀, hlog₀ ▸ List.prefix_rfl, .nil, fun d _ => by rw [hcache₀]⟩ ?_
    intro done p kw s hmem hs
    obtain ⟨hs, hlog, hsupplied, hcache⟩ := hs
    refine (hp.atParam ih hmem hdeclared hs).mono (fun a t ht => ?_)
      fun _ _ ht => ht
    obtain ⟨ht, hlog', hparam, hcache'⟩ := ht
    refine ⟨ht, hlog.trans hlog', ?_, fun d hd => ?_⟩
    · exact List.rel_append (hsupplied.mono hlog') (.cons hparam .nil)
    · rw [hcache' d hd, hcache d hd]

theorem Kept.listed (hp : Kept c route outcome run C S)
    (recursionError : X) (depth : Nat) {r : Request ι V X} (h : C r) :
    Ends (fun _ t => C t ∧
        ∀ u ∈ route.allDeps, ∃ n kw v, .ran n u.dependency kw (.ok v) ∈ t.log)
      (fun _ t => S t)
      (resolveListBy c outcome run recursionError depth route.allDeps r) := by
  refine ends_forM (fun (done : List (Depends ι)) t => C t ∧
    ∀ u ∈ done, ∃ n kw v, .ran n u.dependency kw (.ok v) ∈ t.log) [] ⟨h, fun _ hu => by cases hu⟩ ?_
  intro done u s hu hs
  obtain ⟨hs, hdone⟩ := hs
  rw [ends_bind]
  refine (hp.atPoint hs).mono (fun _ t₀ ht₀ => ?_) fun _ _ ht => ht
  obtain ⟨ht₀, hlog₀, -⟩ := ht₀
  rw [ends_bind]
  refine (hp.resolves recursionError depth _ t₀ ht₀ fun _ _ hmem =>
    .nested (.listed hu) hmem).mono (fun kw t₁ ht₁ => ?_) fun _ _ ht => ht
  obtain ⟨ht₁, hlog₁, hsupplied, -⟩ := ht₁
  rw [ends_bind]
  refine (hp.atCache ht₁ u).mono (fun hit t₂ ht₂ => ?_) fun _ _ ht => ht
  obtain ⟨ht₂, hlog₂, hcache₂, hhit, hmiss⟩ := ht₂
  rw [hlog₀] at hlog₁
  -- what is done stays done, and `u` is done
  have hfinish : ∀ t : Request ι V X, t₁.log <+: t.log →
      (∃ n kw v, .ran n u.dependency kw (.ok v) ∈ t.log) →
      ∀ u' ∈ done ++ [u], ∃ n kw v, .ran n u'.dependency kw (.ok v) ∈ t.log := by
    intro t hlog hran u' hu'
    rcases List.mem_append.mp hu' with hu' | hu'
    · obtain ⟨n, kw, v, hmem⟩ := hdone u' hu'
      exact ⟨n, kw, v, (hlog₁.trans hlog).subset hmem⟩
    · rw [List.mem_singleton.mp hu']
      exact hran
  cases hit with
  | some v =>
    obtain ⟨n, kw', hmem⟩ := hhit v rfl
    rw [ends_pure]
    exact ⟨ht₂, hfinish t₂ (hlog₂ ▸ List.prefix_rfl) ⟨n, kw', v, hlog₂ ▸ hmem⟩⟩
  | none =>
    dsimp only
    rw [ends_bind]
    rw [← hlog₂] at hsupplied
    have hmiss₂ : Acyclic c → u.useCache = true → t₂.depCache.lookup u.dependency = none := by
      rw [hcache₂]
      exact fun _ => hmiss rfl
    refine (hp.invoked _ _ _ ht₂ (.listed hu) hsupplied hmiss₂).mono (fun v t₃ ht₃ => ?_)
      fun _ _ ht => ht
    obtain ⟨ht₃, hlog₃, ⟨n, hran⟩, -⟩ := ht₃
    rw [ends_pure]
    exact ⟨ht₃, hfinish t₃ (hlog₂ ▸ hlog₃) ⟨n, kw, v, hran⟩⟩

/-- A call that is logged is a call that may be remembered. -/
theorem ends_invokeBy {r : Request ι V X} {u : Depends ι} {kw : List (String × V)}
    (hremember : ∀ (t : Request ι V X) n d kw v, C t → .ran n d kw (.ok v) ∈ t.log →
      C { t with depCache := t.depCache.insert d v })
    (hrun : Ends (fun v t => C t ∧ (∃ n, t.log = r.log ++ [.ran n u.dependency kw (.ok v)]) ∧
        t.depCache = r.depCache) (fun _ t => S t) (run u.dependency kw r)) :
    Ends (fun v t => C t ∧ r.log <+: t.log ∧ (∃ n, .ran n u.dependency kw (.ok v) ∈ t.log) ∧
        ∀ d, d ≠ u.dependency → t.depCache.lookup d = r.depCache.lookup d)
      (fun _ t => S t) (invokeBy run u kw r) := by
  unfold invokeBy
  rw [ends_bind]
  refine hrun.mono (fun v t ht => ?_) fun _ _ ht => ht
  obtain ⟨ht, ⟨n, hlog⟩, hcache⟩ := ht
  have hprefixed : r.log <+: t.log := hlog ▸ List.prefix_append _ _
  have hran : .ran n u.dependency kw (.ok v) ∈ t.log :=
    hlog ▸ List.mem_append_right _ (List.mem_singleton_self _)
  cases u.useCache with
  | true =>
    rw [if_pos rfl, ends_bind, ends_modify, ends_pure]
    refine ⟨hremember t n _ kw v ht hran, hprefixed, ⟨n, hran⟩, fun d hd => ?_⟩
    rw [AList.lookup_insert_ne hd, hcache]
  | false =>
    rw [if_neg Bool.false_ne_true, ends_pure]
    exact ⟨ht, hprefixed, ⟨n, hran⟩, fun d _ => by rw [hcache]⟩

/-! ## The wrapper -/

omit [DecidableEq ι] in
theorem ends_cleanUp {I : Request ι V X → Prop}
    (hclosed : ∀ r n, I r → I { r with log := r.log ++ [.closed n], clock := r.clock + 1 })
    {r : Request ι V X} (h : I r) :
    Ends (fun _ t => I t) (fun _ _ => False) (cleanUp outcome r) := by
  unfold cleanUp
  rw [ends_bind, ends_get]
  refine ends_forM (fun _ t => I t) [] h fun _ n s _ hs => ?_
  unfold close
  rw [ends_bind, ends_modify, ends_tryCatch, ends_bind]
  exact ends_point (fun _ _ => hclosed s n hs) fun _ _ => hclosed s n hs

/-- A property that the calls of dependencies, of the handler and of the background tasks and the
closing of a generator keep. -/
theorem Kept.wrapper (hp : Kept c route outcome run C C)
    (hhandler : ∀ r kw out, C r →
      (∀ u ∈ route.allDeps, ∃ n kw v, .ran n u.dependency kw (.ok v) ∈ r.log) →
      Supplied r.log route.signature kw → C { r with log := r.log ++ [.handler kw out] })
    (hbackground : ∀ r, C r → C { r with log := r.log ++ [.background] })
    (hclosed : ∀ r n, C r → C { r with log := r.log ++ [.closed n] })
    (recursionError : X) (depth : Nat) (handles : X → Bool) {r : Request ι V X} (h : C r) :
    Ends (fun _ t => C t) (fun _ t => C t)
      (wrapperBy c outcome run recursionError depth handles route r) := by
  have hclose : ∀ t : Request ι V X, C t →
      Ends (fun _ t' => C t') (fun _ t' => C t') (cleanUp outcome t) :=
    fun _ ht => (ends_cleanUp (fun r n hr => hp.tick _ (hclosed r n hr)) ht).mono
      (fun _ _ ht' => ht') fun _ _ hf => hf.elim
  unfold wrapperBy
  rw [ends_tryFinally, ends_tryCatch]
  suffices hbody : Ends (fun _ t => C t) (fun _ t => C t)
      (handleBy c outcome run recursionError depth route r) from
    hbody.mono (fun _ t ht => hclose t ht) fun e t ht => by
      unfold handleException
      split
      · exact ends_point (fun _ _ => hclose _ (hp.tick t ht)) fun _ _ => hclose _ (hp.tick t ht)
      · exact hclose t ht
  unfold handleBy
  rw [ends_bind]
  refine (hp.listed recursionError depth h).mono (fun _ t ht => ?_) fun _ _ ht => ht
  obtain ⟨ht, hlisted⟩ := ht
  rw [ends_bind]
  refine (hp.resolves recursionError depth _ t ht fun _ _ hmem => .parameter hmem).mono
    (fun kwargs t' ht' => ?_) fun _ _ ht => ht
  obtain ⟨ht', hlog, hsupplied, -⟩ := ht'
  have hlisted' : ∀ u ∈ route.allDeps, ∃ n kw v, .ran n u.dependency kw (.ok v) ∈ t'.log := by
    intro u hu
    obtain ⟨n, kw, v, hmem⟩ := hlisted u hu
    exact ⟨n, kw, v, hlog.subset hmem⟩
  have hcalled := fun out => hp.tick _ (hhandler t' kwargs out ht' hlisted' hsupplied)
  rw [ends_bind]
  refine ends_logged (fun v => ?_) fun e => hcalled (.error e)
  split
  · rw [ends_bind]
    have hbg := hp.tick _ (hbackground _ (hcalled (.ok v)))
    exact ends_logged (fun _ => hbg) fun _ => hbg
  · exact hcalled (.ok v)

/-! ## The resolvers of the app -/

theorem Preserved.resolves (hp : Preserved mode c route outcome C S) (recursionError : X)
    (depth : Nat) :
    Resolves c route C S (resolveKwargs mode c outcome recursionError depth) := by
  rw [resolveKwargs_eq]
  exact hp.kept.resolves recursionError depth

theorem Preserved.listed (hp : Preserved mode c route outcome C S)
    (recursionError : X) (depth : Nat) {r : Request ι V X} (h : C r) :
    Ends (fun _ t => C t ∧
        ∀ u ∈ route.allDeps, ∃ n kw v, .ran n u.dependency kw (.ok v) ∈ t.log)
      (fun _ t => S t)
      (resolveDependenciesList mode c outcome recursionError depth route.allDeps r) := by
  rw [resolveDependenciesList_eq]
  exact hp.kept.listed recursionError depth h

end Resolution

end JustApi.Py.Dependencies
