import JustApi.Py.DependencyRuns

/-! # The lifecycle of dependencies

What a request has logged when the wrapper of its handler is done, whatever has raised. -/
namespace JustApi.Py.Dependencies
open JustApi.Lib.Raising

/-! ## What the log should show -/

section Law

variable {ι V X : Type} (c : Callables ι) (route : Route ι)

/-- A dependency that is used only with `use_cache`. -/
def OnlyCached (d : ι) : Prop := ∀ u, Declared c route u → u.dependency = d → u.useCache = true

/-- The execution of a generator that has given its first value. -/
def openedBy : Event ι V X → Option Nat
  | .ran n d _ (.ok _) => if IsGenerator (c.kind d) then some n else none
  | _ => none

def opened (log : List (Event ι V X)) : List Nat := log.filterMap (openedBy c)

def Event.isRun [DecidableEq ι] (d : ι) : Event ι V X → Bool
  | .ran _ d' _ _ => d' = d
  | _ => false

def executions [DecidableEq ι] (d : ι) (log : List (Event ι V X)) : Nat :=
  log.countP (Event.isRun d)

/-- The parameters of a call with their arguments. -/
def Event.consumed : Event ι V X → List ((String × Param ι) × String × V)
  | .ran _ d kwargs _ => (c.signature d).zip kwargs
  | .handler kwargs _ => route.signature.zip kwargs
  | _ => []

/-- The lifecycle as a log shows it. The values of a request may be taken to name the
executions they come from. -/
structure Lifecycle [DecidableEq ι] (log : List (Event ι V X)) : Prop where
  /-- The handler is called when all dependencies have completed. -/
  complete : ∀ before kwargs out after, log = before ++ .handler kwargs out :: after →
    (∀ d, Reached c route d → ∃ n kw v, .ran n d kw (.ok v) ∈ before) ∧
      Supplied before route.signature kwargs ∧
      (∀ n d kw e, .ran n d kw (.error e) ∉ log) ∧ ∀ n d kw out, .ran n d kw out ∉ after
  /-- Every generator that was opened is closed once, after everything else, the last one
  first. -/
  closes : ∃ body, log = body ++ (opened c body).reverse.map .closed ∧ (opened c body).Nodup ∧
    ∀ n, .closed n ∉ body
  /-- A dependency is called with what those it depends on have given, and a generator is
  closed before the generators that it depends on. -/
  nested : ∀ before m d kwargs out after, log = before ++ .ran m d kwargs out :: after →
    Supplied before (c.signature d) kwargs ∧
      ∀ n d' kw out', .ran n d' kw out' ∈ before → openedBy c (.ran n d' kw out') = some n →
        openedBy c (.ran m d kwargs out) = some m → [.closed m, .closed n].Sublist log
  /-- What is used only with `use_cache` is executed once at most, and all who use it
  receive the same value. -/
  once : ∀ d, OnlyCached c route d → executions d log ≤ 1 ∧
    ∀ e ∈ log, ∀ e' ∈ log, ∀ q ∈ e.consumed c route, ∀ q' ∈ e'.consumed c route, ∀ u u',
      q.1.2 = .depends u → q'.1.2 = .depends u' → u.dependency = d → u'.dependency = d →
      q.2.2 = q'.2.2

end Law

/-! ## Logs that grow -/

section Logs

variable {ι V X : Type} {c : Callables ι} {route : Route ι}

theorem openedBy_ok (n : Nat) (d : ι) (kw : List (String × V)) (v : V) :
    openedBy (X := X) c (.ran n d kw (.ok v)) = if IsGenerator (c.kind d) then some n else none :=
  rfl

theorem openedBy_error (n : Nat) (d : ι) (kw : List (String × V)) (e : X) :
    openedBy c (.ran n d kw (.error e)) = none := rfl

theorem opened_append (log log' : List (Event ι V X)) :
    opened c (log ++ log') = opened c log ++ opened c log' := List.filterMap_append

theorem executions_append [DecidableEq ι] (d : ι) (log log' : List (Event ι V X)) :
    executions d (log ++ log') = executions d log + executions d log' := List.countP_append

theorem executions_ran_of_ne [DecidableEq ι] {d d' : ι} (hd : d ≠ d') (n : Nat)
    (kw : List (String × V)) (out : Except X V) : executions d' [Event.ran n d kw out] = 0 := by
  rw [executions, List.countP_eq_zero]
  intro e he
  rw [List.mem_singleton.mp he, Event.isRun, decide_eq_true_iff]
  exact hd

/-- Two completed executions of what is executed once are the same. -/
theorem eq_of_executions [DecidableEq ι] {d : ι} {log : List (Event ι V X)}
    (h : executions d log ≤ 1) {n n' : Nat} {kw kw' : List (String × V)} {v v' : V}
    (hmem : .ran n d kw (.ok v) ∈ log) (hmem' : .ran n' d kw' (.ok v') ∈ log) : v = v' := by
  rw [executions, List.countP_eq_length_filter] at h
  have hin : .ran n d kw (.ok v) ∈ log.filter (Event.isRun d) :=
    List.mem_filter.mpr ⟨hmem, decide_eq_true rfl⟩
  have hin' : .ran n' d kw' (.ok v') ∈ log.filter (Event.isRun d) :=
    List.mem_filter.mpr ⟨hmem', decide_eq_true rfl⟩
  obtain ⟨e, he⟩ : ∃ e, log.filter (Event.isRun d) = [e] :=
    List.length_eq_one_iff.mp (le_antisymm h (List.length_pos_of_mem hin))
  rw [he, List.mem_singleton] at hin hin'
  have heq := hin.trans hin'.symm
  injection heq with _ _ _ hout
  exact Except.ok.inj hout

end Logs

/-! ## What holds while dependencies are resolved -/

section Invariant

variable {ι V X : Type} [DecidableEq ι] (c : Callables ι) (route : Route ι)

/-- What holds at any time, also when something has raised. -/
structure Sound (r : Request ι V X) : Prop where
  runs : ∀ e ∈ r.log, ∃ n d kw out, e = .ran n d kw out
  cleanup : r.depCleanup = opened c r.log
  nodup : (opened c r.log).Nodup
  numbered : ∀ n ∈ opened c r.log, n < r.clock
  supplied : ∀ before n d kw out after, r.log = before ++ .ran n d kw out :: after →
    Supplied before (c.signature d) kw
  once : ∀ d, OnlyCached c route d → executions d r.log ≤ 1

/-- What holds as long as nothing has raised. -/
structure Clean (r : Request ι V X) : Prop extends Sound c route r where
  completed : ∀ n d kw e, .ran n d kw (.error e) ∉ r.log
  cached : ∀ d v, r.depCache.lookup d = some v → ∃ n kw, .ran n d kw (.ok v) ∈ r.log
  fresh : ∀ d, OnlyCached c route d → r.depCache.lookup d = none → executions d r.log = 0

end Invariant

section Resolution

variable {ι V X : Type} [DecidableEq ι] {c : Callables ι} {route : Route ι}
  {outcome : Nat → Except X V}

theorem clean_new : Clean (V := V) (X := X) c route .new where
  runs := fun _ h => by cases h
  cleanup := rfl
  nodup := List.nodup_nil
  numbered := fun _ h => by cases h
  supplied := fun before _ _ _ _ _ h => by cases before <;> cases h
  once := fun _ _ => Nat.zero_le 1
  completed := fun _ _ _ _ h => by cases h
  cached := fun _ _ h => by cases h
  fresh := fun _ _ _ => rfl

/-! ## Points and calls -/

theorem Sound.tick {r : Request ι V X} (h : Sound c route r) :
    Sound c route { r with clock := r.clock + 1 } :=
  { h with numbered := fun n hn => Nat.lt_succ_of_lt (h.numbered n hn) }

theorem Clean.tick {r : Request ι V X} (h : Clean c route r) :
    Clean c route { r with clock := r.clock + 1 } :=
  { h with numbered := h.toSound.tick.numbered }

/-- An execution is logged, and a generator's is to be closed. -/
theorem Sound.run {r : Request ι V X} (h : Sound c route r) {d : ι} {kw : List (String × V)}
    (hsupplied : Supplied r.log (c.signature d) kw)
    (hfresh : OnlyCached c route d → executions d r.log = 0) (out : Except X V) :
    Sound c route { r with
      log := r.log ++ [.ran r.clock d kw out]
      depCleanup := r.depCleanup ++ (openedBy c (.ran r.clock d kw out)).toList
      clock := r.clock + 1 } := by
  have hopened : opened c (r.log ++ [.ran r.clock d kw out]) =
      opened c r.log ++ (openedBy c (.ran r.clock d kw out)).toList := by
    rw [opened_append]
    congr 1
  have hnumber : ∀ n ∈ (openedBy c (.ran r.clock d kw out)).toList, n = r.clock := by
    intro n hn
    rw [Option.mem_toList] at hn
    cases out with
    | error e => cases hn
    | ok v =>
      rw [openedBy_ok] at hn
      split at hn
      · exact (Option.some.inj hn).symm
      · cases hn
  refine ⟨?_, ?_, ?_, ?_, ?_, ?_⟩
  · intro e he
    rcases List.mem_append.mp he with he | he
    · exact h.runs e he
    · exact ⟨_, _, _, _, List.mem_singleton.mp he⟩
  · exact hopened ▸ congrArg (· ++ _) h.cleanup
  · show (opened c (r.log ++ _)).Nodup
    rw [hopened, List.nodup_append]
    refine ⟨h.nodup, ?_, fun a ha b hb hab => ?_⟩
    · cases openedBy c (Event.ran r.clock d kw out) with
      | none => exact List.nodup_nil
      | some n => exact List.nodup_singleton n
    · have hlt := h.numbered a ha
      rw [hab, hnumber b hb] at hlt
      exact lt_irrefl _ hlt
  · intro n hn
    rw [hopened] at hn
    rcases List.mem_append.mp hn with hn | hn
    · exact Nat.lt_succ_of_lt (h.numbered n hn)
    · rw [hnumber n hn]
      exact Nat.lt_succ_self _
  · intro before n d' kw' out' after hlog
    rcases split_concat hlog with ⟨rfl, he⟩ | ⟨rest, hlog⟩
    · cases he
      exact hsupplied
    · exact h.supplied before n d' kw' out' rest hlog
  · intro d' hd'
    show executions d' (r.log ++ _) ≤ 1
    rw [executions_append]
    by_cases hd : d = d'
    · subst hd
      rw [hfresh hd', Nat.zero_add]
      exact List.countP_le_length
    · rw [executions_ran_of_ne hd, Nat.add_zero]
      exact h.once d' hd'

theorem ends_execute {r : Request ι V X} (h : Sound c route r) {d : ι} {kw : List (String × V)}
    (hsupplied : Supplied r.log (c.signature d) kw)
    (hfresh : OnlyCached c route d → executions d r.log = 0) :
    Ends (fun v t => Sound c route t ∧ t.log = r.log ++ [.ran r.clock d kw (.ok v)] ∧
      t.depCache = r.depCache) (fun _ t => Sound c route t)
      (execute .async c outcome d kw r) := by
  unfold execute
  rw [if_neg fun h => Mode.noConfusion h.1, ends_bind, ends_get, ends_bind]
  refine ends_logged (fun v => ?_) fun e => ?_
  · have hrun := h.run hsupplied hfresh (.ok v)
    rw [openedBy_ok] at hrun
    split
    next hgen =>
      rw [if_pos hgen] at hrun
      exact ⟨hrun, rfl, rfl⟩
    next hgen =>
      rw [if_neg hgen, Option.toList_none, List.append_nil] at hrun
      exact ⟨hrun, rfl, rfl⟩
  · have hrun := h.run hsupplied hfresh (.error e)
    rw [openedBy_error, Option.toList_none, List.append_nil] at hrun
    exact hrun

/-! ## A call that has completed -/

section Completed

variable {r t : Request ι V X} {n : Nat} {d : ι} {kw : List (String × V)} {v : V}

omit [DecidableEq ι] in
theorem notMem_error_run (h : ∀ n d kw e, Event.ran n d kw (.error e) ∉ r.log)
    (hlog : t.log = r.log ++ [.ran n d kw (.ok v)]) :
    ∀ n d kw e, Event.ran n d kw (.error e) ∉ t.log := by
  intro n' d' kw' e he
  rw [hlog] at he
  rcases List.mem_append.mp he with he | he
  · exact h n' d' kw' e he
  · cases List.mem_singleton.mp he

theorem Clean.cached_run (h : Clean c route r) (hlog : t.log = r.log ++ [.ran n d kw (.ok v)])
    {d' : ι} {v' : V} (hv' : r.depCache.lookup d' = some v') :
    ∃ n kw, .ran n d' kw (.ok v') ∈ t.log := by
  obtain ⟨n', kw', hmem⟩ := h.cached d' v' hv'
  exact ⟨n', kw', hlog ▸ List.mem_append_left _ hmem⟩

theorem Clean.fresh_run (h : Clean c route r) (hlog : t.log = r.log ++ [.ran n d kw (.ok v)])
    {d' : ι} (hd : d' ≠ d) (honly : OnlyCached c route d')
    (hnone : r.depCache.lookup d' = none) : executions d' t.log = 0 := by
  rw [hlog, executions_append, executions_ran_of_ne (Ne.symm hd), Nat.add_zero]
  exact h.fresh d' honly hnone

/-- The value is remembered. -/
theorem Clean.remember (h : Clean c route r) (ht : Sound c route t)
    (hlog : t.log = r.log ++ [.ran n d kw (.ok v)]) (hcache : t.depCache = r.depCache) :
    Clean c route { t with depCache := t.depCache.insert d v } := by
  refine { ht with completed := notMem_error_run h.completed hlog, cached := ?_, fresh := ?_ }
  · intro d' v' hv'
    by_cases hd : d' = d
    · subst hd
      rw [AList.lookup_insert] at hv'
      cases hv'
      exact ⟨n, kw, hlog ▸ List.mem_append_right _ (List.mem_singleton_self _)⟩
    · rw [AList.lookup_insert_ne hd, hcache] at hv'
      exact h.cached_run hlog hv'
  · intro d' honly hnone
    by_cases hd : d' = d
    · subst hd
      rw [AList.lookup_insert] at hnone
      cases hnone
    · rw [AList.lookup_insert_ne hd, hcache] at hnone
      exact h.fresh_run hlog hd honly hnone

/-- The value is not remembered, which is so for a dependency that is also used without
`use_cache`. -/
theorem Clean.forget (h : Clean c route r) (ht : Sound c route t)
    (hlog : t.log = r.log ++ [.ran n d kw (.ok v)]) (hcache : t.depCache = r.depCache)
    (hd : ¬ OnlyCached c route d) : Clean c route t := by
  refine { ht with completed := notMem_error_run h.completed hlog, cached := ?_, fresh := ?_ }
  · intro d' v' hv'
    rw [hcache] at hv'
    exact h.cached_run hlog hv'
  · intro d' honly hnone
    rw [hcache] at hnone
    exact h.fresh_run hlog (fun heq => hd (heq ▸ honly)) honly hnone

end Completed

/-! ## The resolvers -/

theorem ends_invoke {r : Request ι V X} (h : Clean c route r) {u : Depends ι}
    (hu : Declared c route u) {kw : List (String × V)}
    (hsupplied : Supplied r.log (c.signature u.dependency) kw)
    (hmiss : u.useCache = true → r.depCache.lookup u.dependency = none) :
    Ends (fun v t => Clean c route t ∧ r.log <+: t.log ∧
        (∃ n, .ran n u.dependency kw (.ok v) ∈ t.log) ∧
        ∀ d, d ≠ u.dependency → t.depCache.lookup d = r.depCache.lookup d)
      (fun _ t => Sound c route t) (invoke .async c outcome u kw r) := by
  unfold invoke
  rw [ends_bind]
  have hfresh : OnlyCached c route u.dependency → executions u.dependency r.log = 0 :=
    fun honly => h.fresh _ honly (hmiss (honly u hu rfl))
  refine (ends_execute h.toSound hsupplied hfresh).mono (fun v t ht => ?_) fun _ _ ht => ht
  obtain ⟨ht, hlog, hcache⟩ := ht
  have hran : .ran r.clock u.dependency kw (.ok v) ∈ t.log :=
    hlog ▸ List.mem_append_right _ (List.mem_singleton_self _)
  have hprefix : r.log <+: t.log := hlog ▸ List.prefix_append _ _
  cases huse : u.useCache with
  | true =>
    rw [if_pos rfl, ends_bind, ends_modify, ends_pure]
    refine ⟨h.remember ht hlog hcache, hprefix, ⟨_, hran⟩, fun d hd => ?_⟩
    rw [AList.lookup_insert_ne hd, hcache]
  | false =>
    rw [if_neg Bool.false_ne_true, ends_pure]
    have hdropped : ¬ OnlyCached c route u.dependency := fun honly => by
      rw [honly u hu rfl] at huse
      cases huse
    exact ⟨h.forget ht hlog hcache hdropped, hprefix, ⟨_, hran⟩, fun d _ => by rw [hcache]⟩

/-- What the resolvers keep on the async path. -/
theorem preserved_clean (hacyclic : Acyclic c) (route : Route ι) (outcome : Nat → Except X V) :
    Preserved .async c route outcome (Clean c route) (Sound c route) where
  sound := fun _ h => h.toSound
  tick := fun _ h => h.tick
  remembered := fun _ h => h.cached
  invoked := fun _ _ _ h hu hsupplied hmiss => ends_invoke h hu hsupplied (hmiss hacyclic)

/-! ## The wrapper -/

/-- What the handler adds to a log, in case it is called. -/
def Handled (c : Callables ι) (route : Route ι) (r : Request ι V X) (tail : List (Event ι V X)) :
    Prop :=
  Clean c route r ∧ (∀ d, Reached c route d → ∃ n kw v, .ran n d kw (.ok v) ∈ r.log) ∧
    ∃ kwargs out rest, Supplied r.log route.signature kwargs ∧
      tail = .handler kwargs out :: rest ∧ ∀ e ∈ rest, e = .background

/-- The end of the part whose errors are handled. -/
def Done (c : Callables ι) (route : Route ι) (t : Request ι V X) : Prop :=
  ∃ r tail, Sound c route r ∧ t.log = r.log ++ tail ∧ t.depCleanup = r.depCleanup ∧
    (tail = [] ∨ Handled c route r tail)

theorem Sound.done {r : Request ι V X} (h : Sound c route r) : Done c route r :=
  ⟨r, [], h, (List.append_nil _).symm, rfl, .inl rfl⟩

theorem Done.tick {t : Request ι V X} (h : Done c route t) :
    Done c route { t with clock := t.clock + 1 } := h

theorem ends_handler (hasBg : Bool) {r : Request ι V X} (h : Clean c route r)
    (hlisted : ∀ u ∈ route.allDeps, ∃ n kw v, .ran n u.dependency kw (.ok v) ∈ r.log)
    {kwargs : List (String × V)} (hsupplied : Supplied r.log route.signature kwargs) :
    Ends (fun _ t => Done c route t) (fun _ t => Done c route t)
      ((do
        let result ← logged outcome (.handler kwargs)
        if hasBg then
          let _ ← logged outcome fun _ => .background
        pure result : Resolve ι V X V) r) := by
  have hdone : ∀ out rest t, (∀ e ∈ rest, e = Event.background) →
      t.log = r.log ++ .handler kwargs out :: rest → t.depCleanup = r.depCleanup →
      Done c route t := by
    intro out rest t hrest hlog hcleanup
    exact ⟨r, _, h.toSound, hlog, hcleanup, .inr ⟨h,
      reached_completed h.supplied hlisted hsupplied, kwargs,
      out, rest, hsupplied, rfl, hrest⟩⟩
  rw [ends_bind]
  refine ends_logged (fun v => ?_) fun e => ?_
  · cases hasBg with
    | false => exact hdone (.ok v) [] _ (fun _ he => by cases he) rfl rfl
    | true =>
      rw [if_pos rfl, ends_bind]
      have hbg : ∀ t : Request ι V X,
          t.log = (r.log ++ [.handler kwargs (.ok v)]) ++ [.background] →
          t.depCleanup = r.depCleanup → Done c route t := by
        intro t hlog hcleanup
        rw [List.append_assoc] at hlog
        exact hdone (.ok v) [.background] t (fun e he => List.mem_singleton.mp he) hlog hcleanup
      exact ends_logged (fun _ => hbg _ rfl rfl) fun _ => hbg _ rfl rfl
  · exact hdone (.error e) [] _ (fun _ he => by cases he) rfl rfl

omit [DecidableEq ι] in
theorem ends_close (n : Nat) (r : Request ι V X) :
    Ends (fun _ t => t.log = r.log ++ [.closed n]) (fun _ _ => False) (close outcome n r) := by
  unfold close
  rw [ends_bind, ends_modify, ends_tryCatch, ends_bind]
  exact ends_point (fun _ _ => rfl) fun _ _ => rfl

/-- The end of the wrapper. -/
def Closed (c : Callables ι) (route : Route ι) (t : Request ι V X) : Prop :=
  ∃ r tail, Sound c route r ∧ (tail = [] ∨ Handled c route r tail) ∧
    t.log = (r.log ++ tail) ++ (opened c r.log).reverse.map .closed

theorem Done.close {t : Request ι V X} (h : Done c route t) :
    Ends (fun _ t' => Closed c route t') (fun _ _ => False)
      ((do forM (← get).depCleanup.reverse (close outcome) : Resolve ι V X Unit) t) := by
  obtain ⟨r, tail, hsound, hlog, hcleanup, htail⟩ := h
  rw [ends_bind, ends_get]
  refine (ends_forM (fun done (t' : Request ι V X) => t'.log = t.log ++ done.map .closed) []
    (List.append_nil _).symm fun done n s _ hs => ?_).mono (fun _ t' ht' => ?_) fun _ _ hf => hf
  · refine (ends_close n s).mono (fun _ t' ht' => ?_) fun _ _ hf => hf
    rw [ht', hs, List.map_append, List.append_assoc]
    rfl
  · rw [List.nil_append, hlog, hcleanup, hsound.cleanup] at ht'
    exact ⟨r, tail, hsound, htail, ht'⟩

theorem ends_wrapper (hacyclic : Acyclic c) (route : Route ι) (outcome : Nat → Except X V)
    (recursionError : X) (depth : Nat) (handles : X → Bool) :
    Ends (fun _ t => Closed c route t) (fun _ t => Closed c route t)
      (wrapper .async c outcome recursionError depth handles route .new) := by
  unfold wrapper
  rw [ends_tryFinally, ends_tryCatch]
  have hfinish : ∀ t : Request ι V X, Done c route t →
      Ends (fun _ t' => Closed c route t') (fun _ t' => Closed c route t')
        ((do forM (← get).depCleanup.reverse (close outcome) : Resolve ι V X Unit) t) :=
    fun t ht => ht.close.mono (fun _ _ h => h) fun _ _ hf => hf.elim
  suffices hbody : Ends (fun _ t => Done c route t) (fun _ t => Done c route t) _ from
    hbody.mono (fun _ t ht => hfinish t ht) fun e t ht => by
      unfold handleException
      split
      · exact ends_point (fun _ _ => hfinish _ ht.tick) fun _ _ => hfinish _ ht.tick
      · exact hfinish t ht
  rw [ends_bind]
  refine ((preserved_clean hacyclic route outcome).listed recursionError depth clean_new).mono
    (fun _ t ht => ?_) fun _ _ ht => ht.done
  obtain ⟨ht, hlisted⟩ := ht
  rw [ends_bind]
  refine ((preserved_clean hacyclic route outcome).resolves recursionError depth _ t ht fun _ _ hmem =>
    .parameter hmem).mono (fun kwargs t' ht' => ?_) fun _ _ ht => ht.done
  obtain ⟨ht', hlog, hsupplied, -⟩ := ht'
  refine ends_handler route.hasBg ht' (fun u hu => ?_) hsupplied
  obtain ⟨n, kw, v, hmem⟩ := hlisted u hu
  exact ⟨n, kw, v, hlog.subset hmem⟩

/-! ## The lifecycle -/

theorem Handled.notMem_run {r : Request ι V X} {tail : List (Event ι V X)}
    (h : tail = [] ∨ Handled c route r tail) {n : Nat} {d : ι} {kw : List (String × V)}
    {out : Except X V} : .ran n d kw out ∉ tail := by
  intro hmem
  rcases h with rfl | ⟨-, -, kwargs, out', rest, -, rfl, hrest⟩
  · cases hmem
  · rcases List.mem_cons.mp hmem with hmem | hmem
    · cases hmem
    · cases hrest _ hmem

theorem Handled.notMem_closed {r : Request ι V X} {tail : List (Event ι V X)}
    (h : tail = [] ∨ Handled c route r tail) {n : Nat} : .closed n ∉ tail := by
  intro hmem
  rcases h with rfl | ⟨-, -, kwargs, out', rest, -, rfl, hrest⟩
  · cases hmem
  · rcases List.mem_cons.mp hmem with hmem | hmem
    · cases hmem
    · cases hrest _ hmem

omit [DecidableEq ι] in
theorem opened_of_notMem {log : List (Event ι V X)}
    (h : ∀ n d kw out, Event.ran n d kw out ∉ log) : opened c log = [] := by
  rw [opened, List.filterMap_eq_nil_iff]
  intro e he
  cases e with
  | ran n d kw out => exact absurd he (h n d kw out)
  | _ => rfl

theorem executions_of_notMem {log : List (Event ι V X)}
    (h : ∀ n d kw out, Event.ran n d kw out ∉ log) (d : ι) : executions d log = 0 := by
  rw [executions, List.countP_eq_zero]
  intro e he
  cases e with
  | ran n d' kw out => exact absurd he (h n d' kw out)
  | _ => exact Bool.false_ne_true

section End

variable {r : Request ι V X} {tail : List (Event ι V X)}

/-- Nothing runs once the handler is called. -/
theorem notMem_run_end (htail : tail = [] ∨ Handled c route r tail) (n : Nat) (d : ι)
    (kw : List (String × V)) (out : Except X V) :
    Event.ran n d kw out ∉ tail ++ (opened c r.log).reverse.map .closed := by
  intro hmem
  rcases List.mem_append.mp hmem with hmem | hmem
  · exact Handled.notMem_run htail hmem
  · obtain ⟨m, -, hm⟩ := List.mem_map.mp hmem
    cases hm

/-- The handler is called after a clean resolution that has reached everything. -/
theorem Sound.complete (hsound : Sound c route r) (htail : tail = [] ∨ Handled c route r tail)
    {before after : List (Event ι V X)} {kwargs : List (String × V)} {out : Except X V}
    (hsplit : (r.log ++ tail) ++ (opened c r.log).reverse.map .closed =
      before ++ .handler kwargs out :: after) :
    (∀ d, Reached c route d → ∃ n kw v, .ran n d kw (.ok v) ∈ before) ∧
      Supplied before route.signature kwargs ∧
      (∀ n d kw e, .ran n d kw (.error e) ∉
        (r.log ++ tail) ++ (opened c r.log).reverse.map .closed) ∧
      ∀ n d kw out, .ran n d kw out ∉ after := by
  have hran := notMem_run_end htail
  rw [List.append_assoc] at hsplit
  have hnotLog : Event.handler kwargs out ∉ r.log := by
    intro hmem
    obtain ⟨n, d, kw, out', he⟩ := hsound.runs _ hmem
    cases he
  rcases htail with rfl | ⟨hclean, hreached, kwargs', out', rest, hsupplied, rfl, hrest⟩
  · have hmem : Event.handler kwargs out ∈ r.log ++ ([] ++ (opened c r.log).reverse.map .closed) :=
      hsplit ▸ List.mem_append_right _ List.mem_cons_self
    rcases List.mem_append.mp hmem with hmem | hmem
    · exact absurd hmem hnotLog
    · obtain ⟨m, -, hm⟩ := List.mem_map.mp hmem
      cases hm
  · have hnotRest : Event.handler kwargs out ∉ rest ++ (opened c r.log).reverse.map .closed := by
      intro hmem
      rcases List.mem_append.mp hmem with hmem | hmem
      · cases hrest _ hmem
      · obtain ⟨m, -, hm⟩ := List.mem_map.mp hmem
        cases hm
    rw [List.cons_append, List.append_cons_inj_of_notMem hnotLog hnotRest] at hsplit
    obtain ⟨rfl, hhandler, rfl⟩ := hsplit
    injection hhandler with hkwargs _
    refine ⟨hreached, hkwargs ▸ hsupplied, fun n d kw e hmem => ?_, fun n d kw out hmem => ?_⟩
    · rw [List.append_assoc] at hmem
      rcases List.mem_append.mp hmem with hmem | hmem
      · exact hclean.completed n d kw e hmem
      · exact hran n d kw _ hmem
    · exact hran n d kw out (List.mem_cons_of_mem _ hmem)

/-- The generators that were open when another was opened are closed after it. -/
theorem Sound.nested (hsound : Sound c route r) (htail : tail = [] ∨ Handled c route r tail)
    {before after : List (Event ι V X)} {m : Nat} {d : ι} {kwargs : List (String × V)}
    {out : Except X V} (hsplit : (r.log ++ tail) ++ (opened c r.log).reverse.map .closed =
      before ++ .ran m d kwargs out :: after) :
    Supplied before (c.signature d) kwargs ∧
      ∀ n d' kw out', .ran n d' kw out' ∈ before → openedBy c (.ran n d' kw out') = some n →
        openedBy c (.ran m d kwargs out) = some m →
        [.closed m, .closed n].Sublist ((r.log ++ tail) ++ (opened c r.log).reverse.map .closed) := by
  rw [List.append_assoc] at hsplit
  obtain ⟨rest, hbody, -⟩ := split_of_notMem hsplit (notMem_run_end htail m d kwargs out)
  refine ⟨hsound.supplied before m d kwargs out rest hbody, ?_⟩
  intro n d' kw out' hmem hn hm
  have hordered : [n, m].Sublist (opened c r.log) := by
    rw [hbody, opened_append]
    show ([n] ++ [m]).Sublist _
    refine List.Sublist.append ?_ ?_
    · exact List.singleton_sublist.mpr (List.mem_filterMap.mpr ⟨_, hmem, hn⟩)
    · exact List.singleton_sublist.mpr (List.mem_filterMap.mpr ⟨_, List.mem_cons_self, hm⟩)
  exact (hordered.reverse.map Event.closed).trans (List.sublist_append_right _ _)

/-- What is consumed comes from an execution. -/
theorem Sound.consumed_ran (hsound : Sound c route r)
    (htail : tail = [] ∨ Handled c route r tail) :
    ∀ e ∈ (r.log ++ tail) ++ (opened c r.log).reverse.map Event.closed,
      ∀ q ∈ e.consumed c route, ∀ u, q.1.2 = .depends u →
        ∃ n kw, .ran n u.dependency kw (.ok q.2.2) ∈ r.log := by
  intro e he q hq u hu
  rw [List.append_assoc] at he
  rcases List.mem_append.mp he with he | he
  · obtain ⟨n, d', kw, out, rfl⟩ := hsound.runs e he
    obtain ⟨before, after, hbody⟩ := List.append_of_mem he
    obtain ⟨n', kw', hmem⟩ := (hsound.supplied before n d' kw out after hbody).of_zip hq hu
    exact ⟨n', kw', hbody ▸ List.mem_append_left _ hmem⟩
  rcases List.mem_append.mp he with he | he
  · rcases htail with rfl | ⟨-, -, kwargs, out, rest, hsupplied, rfl, hrest⟩
    · cases he
    · rcases List.mem_cons.mp he with rfl | he
      · exact hsupplied.of_zip hq hu
      · rw [hrest e he] at hq
        cases hq
  · obtain ⟨m, -, rfl⟩ := List.mem_map.mp he
    cases hq

end End

theorem Closed.lifecycle {t : Request ι V X} (h : Closed c route t) :
    Lifecycle c route t.log := by
  obtain ⟨r, tail, hsound, htail, hlog⟩ := h
  have hran := notMem_run_end htail
  have hopened : opened c (r.log ++ tail) = opened c r.log := by
    rw [opened_append, opened_of_notMem fun _ _ _ _ => Handled.notMem_run htail, List.append_nil]
  rw [hlog]
  refine ⟨fun _ _ _ _ => hsound.complete htail, ⟨r.log ++ tail, by rw [hopened],
    hopened ▸ hsound.nodup, fun n hmem => ?_⟩, fun _ _ _ _ _ _ => hsound.nested htail, ?_⟩
  · rcases List.mem_append.mp hmem with hmem | hmem
    · obtain ⟨m, d, kw, out, he⟩ := hsound.runs _ hmem
      cases he
    · exact Handled.notMem_closed htail hmem
  · intro d honly
    have hexecutions : executions d
        ((r.log ++ tail) ++ (opened c r.log).reverse.map .closed) = executions d r.log := by
      rw [List.append_assoc, executions_append, executions_of_notMem hran, Nat.add_zero]
    refine ⟨hexecutions ▸ hsound.once d honly, ?_⟩
    intro e he e' he' q hq q' hq' u u' hu hu' hd hd'
    obtain ⟨n, kw, hmem⟩ := hsound.consumed_ran htail e he q hq u hu
    obtain ⟨n', kw', hmem'⟩ := hsound.consumed_ran htail e' he' q' hq' u' hu'
    rw [hd] at hmem
    rw [hd'] at hmem'
    exact eq_of_executions (hsound.once d honly) hmem hmem'

end Resolution

/-- A generator that depends on another one. -/
def chain : Callables Bool where
  kind := fun _ => .generator
  signature := fun d => if d then [("db", .depends ⟨false, true⟩)] else []

def chainRoute : Route Bool := ⟨[⟨false, true⟩], [("user", .depends ⟨true, true⟩)], true, false⟩

theorem acyclic_chain : Acyclic chain := by
  have hdown : ∀ d d', DependsOn chain d d' → d = true ∧ d' = false := by
    rintro (_ | _) d' ⟨name, u, hmem, rfl⟩
    · cases hmem
    · obtain ⟨_, hu⟩ := Prod.mk.inj (List.mem_singleton.mp hmem)
      cases hu
      exact ⟨rfl, rfl⟩
  intro d hd
  obtain ⟨d', hstep, hrest⟩ := Relation.TransGen.head'_iff.mp hd
  obtain ⟨rfl, rfl⟩ := hdown d d' hstep
  rcases Relation.ReflTransGen.cases_head hrest with heq | ⟨d', hstep', -⟩
  · cases heq
  · cases (hdown _ _ hstep').1

end JustApi.Py.Dependencies
