import JustApi.Py.DagRuns

/-! # Which nodes run

The nodes that run are those that can be derived from the inputs; the others are named
when the loop gives up. -/
namespace JustApi.Py.DagExecution
open JustApi.Lib.Run JustApi.Lib.Derivation

variable {V : Type} {dag : Dag V} {inputs : State V} {w w' : World V} {event : Event}

/-- No handler raises. -/
def Dag.Total (dag : Dag V) : Prop := ∀ node ∈ dag.nodes, ∀ args, ∃ v, node.handler args = .ok v

/-- The handler is called with one argument for each dependency, in their order, each of
them in the state by then. -/
def CallsInOrder (dag : Dag V) (w : World V) (event : Event) (w' : World V) : Prop :=
  ∀ name, event = .call name → ∃ node args, dag.find name = some node ∧
    w'.phase name = .called args (node.handler args) ∧
    List.Forall₂ (fun d v => w.state d = some v) node.dependencies args

/-- How a run that is over has to be over. -/
structure EndsRight (dag : Dag V) (inputs : State V) (events : List Event)
    (result : Except RunError (State V)) : Prop where
  deadlock : (∃ names, result = .error (.deadlock names)) ↔
    ∃ name, dag.IsNode name ∧ ¬ dag.Derivable inputs name
  names : ∀ names, result = .error (.deadlock names) →
    names.Nodup ∧ ∀ name, name ∈ names ↔ dag.IsNode name ∧ ¬ dag.Derivable inputs name
  otherwise : (∀ name, dag.IsNode name → dag.Derivable inputs name) →
    (∃ state, result = .ok state) ∧ ∀ name, dag.IsNode name → events.count (.call name) = 1

/-! ## What can be derived and what cannot -/

theorem Sane.derivable_of_started (h : Sane dag inputs w) {x : String}
    (hx : (w.phase x).isPending = false) : dag.Derivable inputs x := by
  obtain ⟨node, hfind, hcan⟩ := h.started x hx
  have hall : dag.DerivableBy inputs (fun _ => True) x :=
    h.derivable hfind hcan trivial fun _ _ => trivial
  exact hall.mono fun _ hy => hy.1

/-- A dependency that is not in the state is that of an input and of a completed node
neither. -/
theorem Sane.missing (h : Sane dag inputs w) (hfail : ¬ w.control.MayFail) {d : String}
    (hd : w.state d = none) : inputs d = none ∧ (w.phase d).isCompleted = false := by
  rw [h.state, Option.or_eq_none_iff] at hd
  refine ⟨hd.2, ?_⟩
  cases hp : w.phase d with
  | pending | spawned | called => rfl
  | completed args result =>
    cases result with
    | ok v =>
      have hnone := hd.1
      simp [World.output, hp] at hnone
    | error e => exact absurd (h.clean d args e hp) hfail

/-- A node can run once all its dependencies are inputs or completed. -/
theorem Sane.canRun_of (h : Sane dag inputs w) (hfail : ¬ w.control.MayFail) {node : DagNode V}
    (hdeps : ∀ d ∈ node.dependencies, ¬ (inputs d).isSome → (w.phase d).isCompleted = true) :
    w.canRun node = true := by
  refine List.all_eq_true.mpr fun d hd => ?_
  by_contra hnone
  obtain ⟨hinput, hincomplete⟩ := h.missing hfail (d := d) (by simpa using hnone)
  rw [hdeps d hd (by simp [hinput])] at hincomplete
  cases hincomplete

/-- When nothing runs and nothing can, what is pending cannot be derived. -/
theorem Sane.not_derivable (h : Sane dag inputs w) (hfail : ¬ w.control.MayFail)
    (hrunning : w.running dag = []) (hstuck : ∀ node ∈ w.pending dag, w.canRun node = false)
    {node : DagNode V} (hmem : node ∈ w.pending dag) : ¬ dag.Derivable inputs node.name := by
  refine Derivable.not_of_stuck (fun x => (w.phase x).isPending = true) ?_ (mem_pending.mp hmem).2
  rintro x hx ⟨node, hfind⟩
  have hname := Dag.find_name hfind
  subst hname
  have hcan := hstuck node (mem_pending.mpr ⟨Dag.mem_of_find hfind, hx⟩)
  obtain ⟨d, hd, hnone⟩ := List.all_eq_false.mp hcan
  have hnone : w.state d = none := by simpa using hnone
  obtain ⟨hinput, hincomplete⟩ := h.missing hfail hnone
  refine ⟨d, by rwa [Dag.dependenciesOf_find hfind], by simp [hinput], ?_⟩
  rintro ⟨node', hfind'⟩
  have hname := Dag.find_name hfind'
  subst hname
  cases hp : w.phase node'.name with
  | pending => rfl
  | spawned | called =>
    have hrun : node' ∈ w.running dag :=
      mem_running.mpr ⟨Dag.mem_of_find hfind', by rw [hp]; rfl⟩
    rw [hrunning] at hrun
    cases hrun
  | completed =>
    rw [hp] at hincomplete
    cases hincomplete

/-! ## Progress -/

/-- Until the loop has ended there is a step to take. -/
theorem Sane.progress (h : Sane dag inputs w) (hdone : ∀ result, w.control ≠ .done result) :
    ∃ event w', Step dag w event w' := by
  have hsettled := h.settled
  cases hc : w.control with
  | scanning => exact ⟨.scan, w.scan dag, by simp [Step, exec, hc]⟩
  | done result => exact absurd hc (hdone result)
  | joining =>
    rw [hc] at hsettled
    obtain ⟨node, hmem⟩ := List.exists_mem_of_ne_nil _ hsettled.1
    obtain ⟨hnode, hrun⟩ := mem_running.mp hmem
    cases hp : w.phase node.name with
    | spawned =>
      exact ⟨.call node.name, w.call node, by simp [Step, exec, hp, Dag.find_of_mem hnode]⟩
    | called args result =>
      exact ⟨.join node.name, w.join node.name args result, by simp [Step, exec, hc, hp]⟩
    | pending | completed =>
      rw [hp] at hrun
      cases hrun

/-! ## Calls -/

theorem Sane.callsInOrder (h : Sane dag inputs w) (hs : Step dag w event w') :
    CallsInOrder dag w event w' := by
  rintro name rfl
  cases hs.move with
  | @call name node hfind hp =>
    obtain ⟨node', hfind', hcan⟩ := h.started name (by rw [hp]; rfl)
    rw [hfind] at hfind'
    cases hfind'
    refine ⟨node, node.dependencies.filterMap w.state, hfind, ?_,
      forall₂_filterMap (List.all_eq_true.mp hcan)⟩
    rw [← Dag.find_name hfind]
    exact setPhase_self

def called (w : World V) (name : String) : Nat := if (w.phase name).outcome.isSome then 1 else 0

/-- A step calls a node when it has not been called and has been called afterwards. -/
theorem called_step (hs : Step dag w event w') (name : String) :
    called w' name = called w name + if event = .call name then 1 else 0 := by
  cases hs.move with
  | finish | deadlock => simp [called]
  | wait =>
    rcases phase_spawn_cases dag w name with ⟨node, hmem, rfl, hp⟩ | ⟨-, hsame⟩
    · have hpending := (mem_pending.mp (mem_ready.mp hmem).1).2
      cases hold : w.phase node.name with
      | pending => simp [called, hp, hold, NodePhase.outcome]
      | spawned | called | completed =>
        rw [hold] at hpending
        cases hpending
    · simp [called, hsame]
  | @call x node hfind hp =>
    have hname := Dag.find_name hfind
    subst hname
    by_cases hx : name = node.name
    · subst hx
      simp [called, World.call, hp, NodePhase.outcome]
    · simp [called, World.call, setPhase_other _ _ hx, Ne.symm hx]
  | @joinOk x args v hc hp =>
    by_cases hx : name = x
    · subst hx
      simp [called, hp, NodePhase.outcome]
    · simp [called, setPhase_other _ _ hx]
  | @joinError x e args hc hp =>
    by_cases hx : name = x
    · subst hx
      simp [called, hp, NodePhase.outcome]
    · simp [called, setPhase_other _ _ hx]

theorem count_calls {run : List (Event × World V)} (hrun : Along (Step dag) w run) (name : String) :
    called (last w run) name = called w name + (run.map Prod.fst).count (.call name) := by
  induction run generalizing w with
  | nil => rfl
  | cons head rest ih =>
    have hstep := called_step hrun.1 name
    rw [last, ih hrun.2, hstep, List.map_cons, List.count_cons]
    simp only [beq_iff_eq]
    omega

/-! ## How a run ends -/

theorem Sane.never_failed (h : Sane dag inputs w) (htotal : dag.Total) (name e : String) :
    w.control ≠ .done (.error (.failed name e)) := by
  intro hc
  have hsettled := h.settled
  rw [hc] at hsettled
  obtain ⟨args, hp⟩ := hsettled
  obtain ⟨node, hfind, -⟩ := h.started name (by rw [hp]; rfl)
  have hresult := (h.outcome name node args (.error e) hfind (by rw [hp]; rfl)).1
  obtain ⟨v, hv⟩ := htotal node (Dag.mem_of_find hfind) args
  rw [hv] at hresult
  cases hresult

theorem endsRight_ok {events : List Event} {state : State V}
    (hall : ∀ name, dag.IsNode name → dag.Derivable inputs name)
    (hcount : ∀ name, dag.IsNode name → events.count (.call name) = 1) :
    EndsRight dag inputs events (.ok state) where
  deadlock := by
    constructor
    · rintro ⟨names, hn⟩
      cases hn
    · rintro ⟨name, hnode, hnot⟩
      exact absurd (hall name hnode) hnot
  names names hn := by cases hn
  otherwise _ := ⟨⟨state, rfl⟩, hcount⟩

theorem endsRight_deadlock {events : List Event} {names : List String} (hne : names ≠ [])
    (hdistinct : names.Nodup)
    (hnames : ∀ name, name ∈ names ↔ dag.IsNode name ∧ ¬ dag.Derivable inputs name) :
    EndsRight dag inputs events (.error (.deadlock names)) where
  deadlock := by
    obtain ⟨name, hmem⟩ := List.exists_mem_of_ne_nil _ hne
    exact ⟨fun _ => ⟨name, (hnames name).mp hmem⟩, fun _ => ⟨names, rfl⟩⟩
  names names' hn := by
    cases hn
    exact ⟨hdistinct, hnames⟩
  otherwise hall := by
    obtain ⟨name, hmem⟩ := List.exists_mem_of_ne_nil _ hne
    obtain ⟨hnode, hnot⟩ := (hnames name).mp hmem
    exact absurd (hall name hnode) hnot

theorem Sane.endsRight (h : Sane dag inputs w) (htotal : dag.Total) {events : List Event}
    {result : Except RunError (State V)} (hc : w.control = .done result)
    (hcount : ∀ name, called w name = events.count (.call name)) :
    EndsRight dag inputs events result := by
  have hsettled := h.settled
  rw [hc] at hsettled
  match result with
  | .ok state =>
    have hcompleted : ∀ name, dag.IsNode name → (w.phase name).isCompleted = true := by
      rintro name ⟨node, hfind⟩
      rw [← Dag.find_name hfind]
      exact hsettled.2 node (Dag.mem_of_find hfind)
    refine endsRight_ok (fun name hnode => ?_) fun name hnode => ?_
    · exact h.derivable_of_started (not_pending_of_completed (hcompleted name hnode))
    · rw [← hcount, called]
      cases hp : w.phase name with
      | completed => rfl
      | pending | spawned | called =>
        have := hcompleted name hnode
        rw [hp] at this
        cases this
  | .error (.failed name e) => exact absurd hc (h.never_failed htotal name e)
  | .error (.deadlock names) =>
    obtain ⟨hnames, hne, hrunning, hstuck⟩ := hsettled
    have hfail : ¬ w.control.MayFail := by
      rw [hc]
      exact id
    refine endsRight_deadlock hne ?_ fun name => ⟨fun hin => ?_, ?_⟩
    · rw [hnames]
      exact dag.distinct.sublist (List.filter_sublist.map _)
    · rw [hnames] at hin
      obtain ⟨node, hmem, rfl⟩ := List.mem_map.mp hin
      exact ⟨⟨node, Dag.find_of_mem (mem_pending.mp hmem).1⟩,
        h.not_derivable hfail hrunning hstuck hmem⟩
    · rintro ⟨⟨node, hfind⟩, hnot⟩
      rw [hnames]
      refine List.mem_map.mpr ⟨node, mem_pending.mpr ⟨Dag.mem_of_find hfind, ?_⟩,
        Dag.find_name hfind⟩
      rw [Dag.find_name hfind]
      by_contra hpending
      exact hnot (h.derivable_of_started (Bool.eq_false_of_not_eq_true hpending))

/-- **Completeness.** With handlers that never raise, a run is over after a bounded number
of steps and stops nowhere else; it gives up exactly when some node cannot be derived from
the inputs, and names these; otherwise every node is called once, and always with one
argument for each dependency. -/
theorem dag_complete (dag : Dag V) (inputs : List (Option String × V)) (htotal : dag.Total)
    (run : List (Event × World V)) (hrun : Along (Step dag) (execute inputs) run) :
    run.length ≤ 4 * dag.nodes.length + 1 ∧
      ((∃ result, (last (execute inputs) run).control = .done result) ∨
        ∃ event w', Step dag (last (execute inputs) run) event w') ∧
      Along (CallsInOrder dag) (execute inputs) run ∧
      ∀ result, (last (execute inputs) run).control = .done result →
        EndsRight dag (initialState inputs) (run.map Prod.fst) result := by
  have hstart := Sane.start dag (initialState inputs)
  have hlast : Sane dag (initialState inputs) (last (execute inputs) run) :=
    Sane.of_leads ⟨run, hrun, rfl⟩
  refine ⟨?_, ?_, ?_, fun result hc => hlast.endsRight htotal hc fun name => ?_⟩
  · have hlength := hrun.length_add_le (I := Sane dag (initialState inputs)) (fun w => w.work dag)
      (fun _ _ _ hs hstep => ⟨hs.step hstep, work_decreases hs hstep⟩) hstart
    have hwork := work_start dag (initialState inputs)
    exact hwork ▸ Nat.le_of_add_right_le hlength
  · by_cases hdone : ∃ result, (last (execute inputs) run).control = .done result
    · exact .inl hdone
    · exact .inr (hlast.progress fun result hc => hdone ⟨result, hc⟩)
  · exact hrun.of_invariant (I := Sane dag (initialState inputs))
      (fun _ _ _ hs hstep => ⟨hs.step hstep, hs.callsInOrder hstep⟩) hstart
  · rw [count_calls hrun]
    exact Nat.zero_add _

/-- A chain whose second node names the first one twice, and an input. -/
def chain : Dag Nat := Dag.new
  [.new "double" (fun args => .ok (2 * args.sum)) (some ["x"]),
    .new "total" (fun args => .ok args.sum) (some ["double", "x", "double"])]

theorem dag_complete_chain : ∃ run result,
    Along (Step chain) (execute [(some "x", 5)]) run ∧
      (last (execute [(some "x", 5)]) run).control = .done result ∧
      EndsRight chain (initialState [(some "x", 5)]) (run.map Prod.fst) result := by
  have htotal : chain.Total := by
    intro node hmem args
    rcases List.mem_cons.mp (Dag.mem_of_mem_new hmem) with rfl | hmem
    · exact ⟨_, rfl⟩
    · rw [List.mem_singleton.mp hmem]
      exact ⟨_, rfl⟩
  have hrun := along_replay (exec chain) (execute [(some "x", 5)])
    [.scan, .call "double", .join "double", .scan, .call "total", .join "total", .scan]
  exact ⟨_, .ok _, hrun, rfl, (dag_complete chain _ htotal _ hrun).2.2.2 _ rfl⟩

end JustApi.Py.DagExecution
