import JustApi.Py.DagCompleteness

/-! # When the order does not matter

A task may find the result of a node where another run of the same tasks finds an input
of that name. Where that cannot happen, what every handler is called with and how the run
ends is the same in all orders. -/
namespace JustApi.Py.DagExecution
open JustApi.Lib.Run JustApi.Lib.Derivation

variable {V : Type} {dag : Dag V} {inputs : State V} {w w' : World V}

/-- Whatever the order, a handler that is called is called with the same arguments, and
the future is resolved with the same state. -/
def Confluent (dag : Dag V) (inputs : State V) : Prop :=
  ∀ w w', Leads (Step dag) (start inputs) w → Leads (Step dag) (start inputs) w' →
    (∀ name o o', (w.phase name).outcome = some o → (w'.phase name).outcome = some o' →
      o.1 = o'.1) ∧
    ∀ state, w.control = .done (.ok state) → ∀ result, w'.control = .done result →
      result = .ok state

/-- A node is named like an input that another node needs; that one can run, and the first
can run before it. -/
structure Race (dag : Dag V) (inputs : State V) (name dependent : String) : Prop where
  input : (inputs name).isSome
  needed : name ∈ dag.dependenciesOf dependent
  runs : dag.Derivable inputs dependent
  before : dag.DerivableBy inputs (· ≠ dependent) name

def NoRace (dag : Dag V) (inputs : State V) : Prop :=
  ∀ name dependent, ¬ Race dag inputs name dependent

/-! ## Without a race -/

theorem forall₂_agree {α β : Type} {R R' : α → β → Prop} {l : List α} {xs ys : List β}
    (hx : List.Forall₂ R l xs) (hy : List.Forall₂ R' l ys)
    (h : ∀ a ∈ l, ∀ b c, R a b → R' a c → b = c) : xs = ys := by
  induction hx generalizing ys with
  | nil =>
    cases hy
    rfl
  | @cons a b l xs hab _ ih =>
    cases hy with
    | @cons _ c _ ys hac hys =>
      rw [h a List.mem_cons_self b c hab hac, ih hys fun a' ha' => h a' (List.mem_cons_of_mem _ ha')]

/-- What came out of a node that can be derived, by induction on its derivation. -/
theorem outcome_agree (hrace : NoRace dag inputs) (h : Sane dag inputs w)
    (h' : Sane dag inputs w') {x : String} (hx : dag.Derivable inputs x)
    {o o' : List V × Except String V} (ho : (w.phase x).outcome = some o)
    (ho' : (w'.phase x).outcome = some o') : o = o' := by
  induction hx generalizing o o' with
  | @intro x hnode hneeds ih =>
    obtain ⟨node, hfind⟩ := hnode
    obtain ⟨hresult, hread⟩ := h.outcome x node o.1 o.2 hfind ho
    obtain ⟨hresult', hread'⟩ := h'.outcome x node o'.1 o'.2 hfind ho'
    have hargs : o.1 = o'.1 := by
      refine forall₂_agree hread hread' fun d hd v v' hv hv' => ?_
      rw [← Dag.dependenciesOf_find hfind] at hd
      cases hinput : inputs d with
      | some u =>
        have hnever : ¬ dag.DerivableBy inputs (· ≠ x) d := fun hbefore =>
          hrace d x ⟨by rw [hinput]; rfl, hd, .intro ⟨node, hfind⟩ hneeds, hbefore⟩
        rcases hv with hv | hv
        · rcases hv' with hv' | hv'
          · rw [hv] at hv'
            exact Option.some.inj hv'
          · exact absurd hv'.2 hnever
        · exact absurd hv.2 hnever
      | none =>
        have hout := hv.resolve_left (by simp [hinput])
        have hout' := hv'.resolve_left (by simp [hinput])
        obtain ⟨args, hp⟩ := output_of_completed hout.1
        obtain ⟨args', hp'⟩ := output_of_completed hout'.1
        have heq := ih d hd (by simp [hinput]) (congrArg NodePhase.outcome hp)
          (congrArg NodePhase.outcome hp')
        exact Except.ok.inj (congrArg Prod.snd heq)
    refine Prod.ext hargs ?_
    rw [hresult, hresult', hargs]

/-- Where there is no node, nothing has happened. -/
theorem Sane.output_absent (h : Sane dag inputs w) {x : String} (hfind : dag.find x = none) :
    w.output x = none := by
  have hpending : (w.phase x).isPending = true := by
    by_contra hnot
    obtain ⟨node, hsome, -⟩ := h.started x (Bool.eq_false_of_not_eq_true hnot)
    rw [hfind] at hsome
    cases hsome
  exact output_eq_none (not_completed_of_pending hpending)

/-- A node that both runs have completed has the same phase in both. -/
theorem completed_agree (hrace : NoRace dag inputs) (h : Sane dag inputs w)
    (h' : Sane dag inputs w') {node : DagNode V} (hx : (w.phase node.name).isCompleted = true)
    (hx' : (w'.phase node.name).isCompleted = true) :
    w'.phase node.name = w.phase node.name := by
  obtain ⟨args, result, hp⟩ := phase_of_completed hx
  obtain ⟨args', result', hp'⟩ := phase_of_completed hx'
  have heq := outcome_agree hrace h h' (h.derivable_of_started (not_pending_of_completed hx))
    (congrArg NodePhase.outcome hp) (congrArg NodePhase.outcome hp')
  cases heq
  rw [hp, hp']

theorem states_agree (hrace : NoRace dag inputs) (h : Sane dag inputs w)
    (h' : Sane dag inputs w')
    (hall : ∀ node ∈ dag.nodes, (w.phase node.name).isCompleted = true)
    (hall' : ∀ node ∈ dag.nodes, (w'.phase node.name).isCompleted = true) :
    w'.state = w.state := by
  funext x
  rw [h.state, h'.state]
  cases hfind : dag.find x with
  | none => rw [h.output_absent hfind, h'.output_absent hfind]
  | some node =>
    have hname := Dag.find_name hfind
    subst hname
    have hmem := Dag.mem_of_find hfind
    rw [output_congr (completed_agree hrace h h' (hall node hmem) (hall' node hmem))]

/-- The runs that are over agree with one that was resolved. -/
theorem resolved_agree (hrace : NoRace dag inputs) (h : Sane dag inputs w)
    (h' : Sane dag inputs w') {state : State V} (hc : w.control = .done (.ok state))
    {result : Except RunError (State V)} (hc' : w'.control = .done result) :
    result = .ok state := by
  have hsettled := h.settled
  have hsettled' := h'.settled
  rw [hc] at hsettled
  rw [hc'] at hsettled'
  obtain ⟨rfl, hall⟩ := hsettled
  cases result with
  | ok state' => rw [hsettled'.1, states_agree hrace h h' hall hsettled'.2]
  | error e =>
    cases e with
    | deadlock names =>
      obtain ⟨hnames, hne, hrunning, hstuck⟩ := hsettled'
      obtain ⟨name, hmem⟩ := List.exists_mem_of_ne_nil _ hne
      rw [hnames] at hmem
      obtain ⟨node, hmem, -⟩ := List.mem_map.mp hmem
      have hderivable : dag.Derivable inputs node.name :=
        h.derivable_of_started (not_pending_of_completed (hall node (mem_pending.mp hmem).1))
      have hfail : ¬ w'.control.MayFail := by
        rw [hc']
        exact id
      exact absurd hderivable (h'.not_derivable hfail hrunning hstuck hmem)
    | failed name e =>
      obtain ⟨args, hp'⟩ := hsettled'
      obtain ⟨node, hfind, -⟩ := h'.started name (by rw [hp']; rfl)
      have hname := Dag.find_name hfind
      subst hname
      have hsame := completed_agree hrace h h' (hall node (Dag.mem_of_find hfind))
        (by rw [hp']; rfl)
      have hfail := h.clean node.name args e (hsame.symm.trans hp')
      rw [hc] at hfail
      exact hfail.elim

theorem confluent_of_noRace (hrace : NoRace dag inputs) : Confluent dag inputs := by
  intro w w' hw hw'
  have h := Sane.of_leads hw
  have h' := Sane.of_leads hw'
  refine ⟨fun name o o' ho ho' => ?_, fun state hc result hc' =>
    resolved_agree hrace h h' hc hc'⟩
  have hstarted : (w.phase name).isPending = false := by
    cases hp : w.phase name with
    | pending =>
      rw [hp] at ho
      cases ho
    | spawned | called | completed => rfl
  rw [outcome_agree hrace h h' (h.derivable_of_started hstarted) ho ho']

/-! ## With a race -/

/-- Where nothing can be done but to run one task, no node is ready and that task is all
that is waited for. -/
theorem Sane.only_held_up (h : Sane dag inputs w) (htotal : dag.Total) {x : String}
    (hnode : dag.IsNode x) (hx : called w x = 0)
    (hstep : ¬ ∃ event w', Step dag w event w' ∧ event ≠ .call x) :
    ¬ w.control.MayFail ∧ (∀ node ∈ w.pending dag, w.canRun node = false) ∧
      ∀ node ∈ w.running dag, node.name = x := by
  have hsettled := h.settled
  have hnever := h.never_failed htotal
  cases hc : w.control with
  | scanning =>
    exact absurd ⟨.scan, w.scan dag, by simp [Step, exec, hc], by simp⟩ hstep
  | joining =>
    rw [hc] at hsettled
    refine ⟨id, hsettled.2, fun node hmem => ?_⟩
    by_contra hne
    obtain ⟨hin, hrun⟩ := mem_running.mp hmem
    cases hp : w.phase node.name with
    | spawned =>
      refine hstep ⟨.call node.name, w.call node, ?_, by simpa using hne⟩
      simp [Step, exec, hp, Dag.find_of_mem hin]
    | called args result =>
      refine hstep ⟨.join node.name, w.join node.name args result, ?_, by simp⟩
      simp [Step, exec, hc, hp]
    | pending | completed =>
      rw [hp] at hrun
      cases hrun
  | done result =>
    rw [hc] at hsettled
    cases result with
    | ok state =>
      -- all nodes are completed, the one that has not been called among them
      obtain ⟨node, hfind⟩ := hnode
      obtain ⟨args, result, hp⟩ := phase_of_completed (hsettled.2 node (Dag.mem_of_find hfind))
      rw [Dag.find_name hfind] at hp
      simp [called, hp, NodePhase.outcome] at hx
    | error e =>
      cases e with
      | failed name e => exact absurd hc (hnever name e)
      | deadlock names =>
        refine ⟨id, hsettled.2.2.2, fun node hmem => ?_⟩
        rw [hsettled.2.2.1] at hmem
        cases hmem

/-- The loop and the tasks go as far as they can while one task is held up. -/
theorem Sane.held_up (h : Sane dag inputs w) (htotal : dag.Total) {x : String}
    (hnode : dag.IsNode x) (hx : called w x = 0) :
    ∃ w', Leads (Step dag) w w' ∧ Sane dag inputs w' ∧ called w' x = 0 ∧
      ¬ w'.control.MayFail ∧ (∀ node ∈ w'.pending dag, w'.canRun node = false) ∧
      ∀ node ∈ w'.running dag, node.name = x := by
  induction hwork : w.work dag using Nat.strong_induction_on generalizing w with
  | _ n ih =>
    by_cases hstep : ∃ event w', Step dag w event w' ∧ event ≠ .call x
    · obtain ⟨event, w', hstep, hne⟩ := hstep
      have hx' : called w' x = 0 := by
        rw [called_step hstep x, if_neg hne, hx]
      obtain ⟨w'', hlead, hrest⟩ := ih _ (hwork ▸ work_decreases h hstep) (h.step hstep) hx' rfl
      exact ⟨w'', (Leads.single hstep).trans hlead, hrest⟩
    · exact ⟨w, .refl _ _, h, hx, h.only_held_up htotal hnode hx hstep⟩

/-- What can be derived without the task that is held up is completed by then. -/
theorem Sane.completed_of_held_up (h : Sane dag inputs w) (hfail : ¬ w.control.MayFail)
    {x : String} (hstuck : ∀ node ∈ w.pending dag, w.canRun node = false)
    (hrunning : ∀ node ∈ w.running dag, node.name = x) {y : String}
    (hy : dag.DerivableBy inputs (· ≠ x) y) : (w.phase y).isCompleted = true := by
  induction hy with
  | @intro y hrule _ ih =>
    obtain ⟨⟨node, hfind⟩, hne⟩ := hrule
    have hname := Dag.find_name hfind
    have hin := Dag.mem_of_find hfind
    subst hname
    have hcan : w.canRun node = true := h.canRun_of hfail fun d hd hnot =>
      ih d (by rwa [Dag.dependenciesOf_find hfind]) hnot
    cases hp : w.phase node.name with
    | pending =>
      rw [hstuck node (mem_pending.mpr ⟨hin, by rw [hp]; rfl⟩)] at hcan
      cases hcan
    | spawned | called =>
      exact absurd (hrunning node (mem_running.mpr ⟨hin, by rw [hp]; rfl⟩)) hne
    | completed => rfl

theorem forall₂_mem {α β : Type} {R R' : α → β → Prop} {l : List α} {xs : List β}
    (hx : List.Forall₂ R l xs) (hy : List.Forall₂ R' l xs) {a : α} (ha : a ∈ l) :
    ∃ b, R a b ∧ R' a b := by
  induction hx with
  | nil => cases ha
  | @cons a' b l xs hab _ ih =>
    cases hy with
    | cons hab' hys =>
      rcases List.mem_cons.mp ha with rfl | ha
      · exact ⟨b, hab, hab'⟩
      · exact ih hys ha

theorem outcome_of_called {x : String} (h : called w x = 0) : (w.phase x).outcome = none := by
  unfold called at h
  split at h
  · cases h
  · exact Option.not_isSome_iff_eq_none.mp ‹_›

/-- With the node held up, its dependent finds the input. -/
theorem Race.reads_input {name dependent : String} (hrace : Race dag inputs name dependent)
    (htotal : dag.Total) {v : V} (hv : inputs name = some v) {node : DagNode V}
    (hfind : dag.find dependent = some node) :
    ∃ w args result, Leads (Step dag) (start inputs) w ∧
      (w.phase dependent).outcome = some (args, result) ∧
      List.Forall₂ (fun d u => d = name → u = v) node.dependencies args := by
  have hbefore := hrace.before.rule_of
  obtain ⟨w, hlead, h, hx, hfail, hstuck, hrunning⟩ :=
    (Sane.start dag inputs).held_up htotal hbefore.1 rfl
  have hcompleted := h.completed_of_held_up hfail hstuck hrunning
    (hrace.runs.without_given hrace.input hbefore.2.symm)
  obtain ⟨args, result, hp⟩ := phase_of_completed hcompleted
  have ho : (w.phase dependent).outcome = some (args, result) := congrArg NodePhase.outcome hp
  refine ⟨w, args, result, hlead, ho,
    (h.outcome dependent node args result hfind ho).2.imp fun d u hread he => ?_⟩
  subst he
  rcases hread with hread | ⟨hout, -⟩
  · rw [hv] at hread
    exact (Option.some.inj hread).symm
  · obtain ⟨args', hp'⟩ := output_of_completed hout
    have hnone := outcome_of_called hx
    rw [hp'] at hnone
    cases hnone

/-- With the dependent held up, it finds the result. -/
theorem Race.reads_result {name dependent : String} (hrace : Race dag inputs name dependent)
    (htotal : dag.Total) {c : V} (hresult : ∀ node ∈ dag.nodes, ∀ args, node.handler args = .ok c)
    {node : DagNode V} (hfind : dag.find dependent = some node) :
    ∃ w args result, Leads (Step dag) (start inputs) w ∧
      (w.phase dependent).outcome = some (args, result) ∧
      List.Forall₂ (fun d u => d = name → u = c) node.dependencies args := by
  obtain ⟨w, hlead, h, hx, hfail, hstuck, hrunning⟩ :=
    (Sane.start dag inputs).held_up htotal ⟨node, hfind⟩ rfl
  have hname := Dag.find_name hfind
  subst hname
  have hin := Dag.mem_of_find hfind
  have hcompleted : ∀ {y : String}, dag.DerivableBy inputs (· ≠ node.name) y →
      (w.phase y).isCompleted = true := fun hy => h.completed_of_held_up hfail hstuck hrunning hy
  have hcan : w.canRun node = true := h.canRun_of hfail fun d hd hnot =>
    hcompleted (hrace.runs.without_self d (by rwa [Dag.dependenciesOf_find hfind]) hnot)
  have hspawned : w.phase node.name = .spawned := by
    have hnone := outcome_of_called hx
    cases hp : w.phase node.name with
    | spawned => rfl
    | pending =>
      rw [hstuck node (mem_pending.mpr ⟨hin, by rw [hp]; rfl⟩)] at hcan
      cases hcan
    | called | completed =>
      rw [hp] at hnone
      cases hnone
  have hcall : Step dag w (.call node.name) (w.call node) := by
    simp [Step, exec, hspawned, hfind]
  refine ⟨w.call node, _, _, hlead.trans (.single hcall),
    congrArg NodePhase.outcome setPhase_self,
    (forall₂_filterMap (List.all_eq_true.mp hcan)).imp fun d u hd he => ?_⟩
  subst he
  obtain ⟨args, result, hp⟩ := phase_of_completed (hcompleted hrace.before)
  obtain ⟨other, hother, -⟩ := h.started d (by rw [hp]; rfl)
  have hout := (h.outcome d other args result hother (by rw [hp]; rfl)).1
  rw [hresult other (Dag.mem_of_find hother)] at hout
  rw [h.state, World.output, hp, hout] at hd
  exact (Option.some.inj hd).symm

theorem Race.diverges {name dependent : String} (hrace : Race dag inputs name dependent)
    {c v : V} (hv : inputs name = some v) (hne : c ≠ v)
    (hresult : ∀ node ∈ dag.nodes, ∀ args, node.handler args = .ok c) :
    ¬ Confluent dag inputs := by
  intro hconfluent
  have htotal : dag.Total := fun node hmem args => ⟨c, hresult node hmem args⟩
  obtain ⟨node, hfind⟩ := hrace.runs.rule_of
  obtain ⟨w, args, result, hlead, ho, hreads⟩ := hrace.reads_input htotal hv hfind
  obtain ⟨w', args', result', hlead', ho', hreads'⟩ := hrace.reads_result htotal hresult hfind
  have hsame : args = args' := (hconfluent w w' hlead hlead').1 dependent _ _ ho ho'
  subst hsame
  obtain ⟨u, hu, hu'⟩ := forall₂_mem hreads hreads' (Dag.dependenciesOf_find hfind ▸ hrace.needed)
  exact hne ((hu' rfl).symm.trans (hu rfl))

/-! ## Both -/

theorem race_withHandlers (handlers : String → List V → Except String V) (name dependent : String) :
    Race (dag.withHandlers handlers) inputs name dependent ↔ Race dag inputs name dependent := by
  have hnode : (dag.withHandlers handlers).IsNode = dag.IsNode :=
    funext fun x => propext (Dag.isNode_withHandlers handlers x)
  have hdeps := Dag.dependenciesOf_withHandlers dag handlers
  constructor
  · rintro ⟨hinput, hneeded, hruns, hbefore⟩
    rw [Dag.Derivable, hnode, hdeps] at hruns
    rw [Dag.DerivableBy, hnode, hdeps] at hbefore
    exact ⟨hinput, hdeps ▸ hneeded, hruns, hbefore⟩
  · rintro ⟨hinput, hneeded, hruns, hbefore⟩
    refine ⟨hinput, hdeps ▸ hneeded, ?_, ?_⟩
    · rwa [Dag.Derivable, hnode, hdeps]
    · rwa [Dag.DerivableBy, hnode, hdeps]

/-- **Confluence.** The nodes give the same results in every order, whatever their
handlers compute, exactly when no node that another one depends on is named like an input,
except where one of the two never runs or the first only after the other. -/
theorem confluent_iff [Nontrivial V] (dag : Dag V) (inputs : List (Option String × V)) :
    (∀ handlers, Confluent (dag.withHandlers handlers) (initialState inputs)) ↔
      NoRace dag (initialState inputs) := by
  constructor
  · intro h name dependent hrace
    obtain ⟨v, hv⟩ := Option.isSome_iff_exists.mp hrace.input
    obtain ⟨c, hne⟩ := exists_ne v
    refine ((race_withHandlers (fun _ _ => .ok c) name dependent).mpr hrace).diverges hv hne
      (fun node hmem args => ?_) (h fun _ _ => .ok c)
    obtain ⟨original, -, rfl⟩ := List.mem_map.mp hmem
    rfl
  · intro h handlers
    exact confluent_of_noRace fun name dependent hrace =>
      h name dependent ((race_withHandlers handlers name dependent).mp hrace)

theorem confluent_chain : Confluent (chain.withHandlers fun name args =>
    if name = "double" then .ok (2 * args.sum) else .ok args.sum)
    (initialState [(some "x", 5)]) := by
  refine (confluent_iff chain [(some "x", 5)]).mpr (fun name dependent hrace => ?_) _
  obtain ⟨⟨node, hfind⟩, -⟩ := hrace.before.rule_of
  by_cases hname : name = "x"
  · subst hname
    cases hfind
  · have hinput := hrace.input
    simp [initialState, Function.update_of_ne hname] at hinput

/-- Two nodes, the first of them named like the input that the second needs. -/
def overwriting : Dag Nat := Dag.new
  [.new "a" (fun _ => .ok 2) none, .new "b" (fun args => .ok args.sum) (some ["a"])]

theorem overwriting_not_confluent : ¬ Confluent overwriting (initialState [(some "a", 1)]) := by
  intro h
  have hleads : ∀ events, Leads (Step overwriting) (start (initialState [(some "a", 1)]))
      (last _ (replay (exec overwriting) (start (initialState [(some "a", 1)])) events)) :=
    fun events => ⟨_, along_replay _ _ events, rfl⟩
  have hsame := (h _ _ (hleads [.scan, .call "b"])
    (hleads [.scan, .call "a", .join "a", .scan, .call "b"])).1 "b" ([1], .ok 1) ([2], .ok 2) rfl rfl
  cases hsame

end JustApi.Py.DagExecution
