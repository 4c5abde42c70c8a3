import Mathlib.Algebra.Order.BigOperators.Group.List
import Mathlib.Algebra.Order.Group.Nat
import Mathlib.Algebra.GroupWithZero.Nat
import JustApi.Py.DagExecution

/-! # Runs of a DAG

What every world of a run keeps: the state is the inputs under what has been completed, a
node that has left `pending` finds all its dependencies there, and what has been completed
can be derived from what has been completed. -/
namespace JustApi.Py.DagExecution
open JustApi.Lib.Run JustApi.Lib.Derivation

variable {V : Type} {dag : Dag V} {inputs : State V} {w w' : World V} {event : Event}

/-! ## What a step can do -/

/-- The steps of the loop and of the tasks, each with its guard. -/
inductive Move (dag : Dag V) (w : World V) : Event → World V → Prop
  | finish : w.control = .scanning → w.pending dag = [] → w.running dag = [] →
      Move dag w .scan { w with control := .done (.ok w.state) }
  | wait : w.control = .scanning → (w.spawn (w.ready dag)).running dag ≠ [] →
      Move dag w .scan { w.spawn (w.ready dag) with control := .joining }
  | deadlock : w.control = .scanning → (w.spawn (w.ready dag)).running dag = [] →
      w.pending dag ≠ [] →
      Move dag w .scan { w with
        control := .done (.error (.deadlock ((w.pending dag).map DagNode.name))) }
  | call {name : String} {node : DagNode V} : dag.find name = some node →
      w.phase name = .spawned → Move dag w (.call name) (w.call node)
  | joinOk {name : String} {args : List V} {v : V} : w.control = .joining →
      w.phase name = .called args (.ok v) →
      Move dag w (.join name) { w.setPhase name (.completed args (.ok v)) with
        state := Function.update w.state name (some v), control := .scanning }
  | joinError {name e : String} {args : List V} : w.control = .joining →
      w.phase name = .called args (.error e) →
      Move dag w (.join name) { w.setPhase name (.completed args (.error e)) with
        control := .done (.error (.failed name e)) }

theorem phase_spawn_ready {node : DagNode V} (h : node ∈ w.ready dag) :
    (w.spawn (w.ready dag)).phase node.name = .spawned := by
  have hany : ((w.ready dag).any fun n => n.name = node.name) = true :=
    List.any_eq_true.mpr ⟨node, h, by simp⟩
  exact if_pos hany

/-- A name is spawned, as a node that was pending and can run, or left as it is. -/
theorem phase_spawn_cases (dag : Dag V) (w : World V) (x : String) :
    (∃ node ∈ w.ready dag, node.name = x ∧ (w.spawn (w.ready dag)).phase x = .spawned) ∨
      (∀ node ∈ w.ready dag, node.name ≠ x) ∧ (w.spawn (w.ready dag)).phase x = w.phase x := by
  by_cases h : ∃ node ∈ w.ready dag, node.name = x
  · obtain ⟨node, hmem, rfl⟩ := h
    exact .inl ⟨node, hmem, rfl, phase_spawn_ready hmem⟩
  · have hnone : ∀ node ∈ w.ready dag, node.name ≠ x := fun node hmem he => h ⟨node, hmem, he⟩
    refine .inr ⟨hnone, if_neg ?_⟩
    simpa using hnone

theorem mem_pending {node : DagNode V} :
    node ∈ w.pending dag ↔ node ∈ dag.nodes ∧ (w.phase node.name).isPending = true :=
  List.mem_filter

theorem mem_running {node : DagNode V} :
    node ∈ w.running dag ↔ node ∈ dag.nodes ∧ (w.phase node.name).isRunning = true :=
  List.mem_filter

theorem mem_ready {node : DagNode V} :
    node ∈ w.ready dag ↔ node ∈ w.pending dag ∧ w.canRun node = true :=
  List.mem_filter

/-- When nothing runs after the ready nodes are spawned, none was ready. -/
theorem ready_of_running (h : (w.spawn (w.ready dag)).running dag = []) : w.ready dag = [] := by
  refine List.eq_nil_iff_forall_not_mem.mpr fun node hmem => ?_
  have hnode : node ∈ dag.nodes := (mem_pending.mp (mem_ready.mp hmem).1).1
  have hrun : node ∈ (w.spawn (w.ready dag)).running dag :=
    mem_running.mpr ⟨hnode, by rw [phase_spawn_ready hmem]; rfl⟩
  rw [h] at hrun
  cases hrun

theorem spawn_nil (w : World V) : w.spawn [] = w := rfl

theorem scan_move (hc : w.control = .scanning) : Move dag w .scan (w.scan dag) := by
  unfold World.scan
  split
  · rename_i hempty
    exact .finish hc hempty.1 hempty.2
  · rename_i hsome
    dsimp only
    split
    · rename_i hrun
      exact .wait hc hrun
    · rename_i hrun
      have hrun : (w.spawn (w.ready dag)).running dag = [] := not_not.mp hrun
      have hready := ready_of_running hrun
      have hspawn : w.spawn (w.ready dag) = w := by rw [hready, spawn_nil]
      have hpending : w.pending dag ≠ [] := by
        intro hp
        rw [hspawn] at hrun
        exact hsome ⟨hp, hrun⟩
      rw [hspawn, if_pos hpending]
      exact .deadlock hc hrun hpending

/-- What a step can do. -/
theorem Step.move (h : Step dag w event w') : Move dag w event w' := by
  cases event with
  | scan =>
    simp only [Step, exec] at h
    split at h
    · cases h
      exact scan_move ‹_›
    · cases h
  | call name =>
    simp only [Step, exec] at h
    split at h
    · cases h
      exact .call ‹_› ‹_›
    · cases h
  | join name =>
    simp only [Step, exec] at h
    split at h
    · rename_i args result hc hp
      cases h
      cases result with
      | ok v => exact .joinOk hc hp
      | error e => exact .joinError hc hp
    · cases h

/-! ## What every world of a run keeps -/

/-- What the node has added to the state. -/
def World.output (w : World V) (name : String) : Option V :=
  match w.phase name with
  | .completed _ (.ok v) => some v
  | _ => none

/-- The value a task of this name has for a dependency: an input, or the result of a node
that is there without it. -/
def Read (dag : Dag V) (inputs : State V) (w : World V) (name d : String) (v : V) : Prop :=
  inputs d = some v ∨ w.output d = some v ∧ dag.DerivableBy inputs (· ≠ name) d

/-- What the place of the loop says about the nodes. -/
def Settled (dag : Dag V) (w : World V) : Control V → Prop
  | .scanning => True
  | .joining => w.running dag ≠ [] ∧ ∀ node ∈ w.pending dag, w.canRun node = false
  | .done (.ok state) =>
    state = w.state ∧ ∀ node ∈ dag.nodes, (w.phase node.name).isCompleted = true
  | .done (.error (.deadlock names)) =>
    names = (w.pending dag).map DagNode.name ∧ names ≠ [] ∧ w.running dag = [] ∧
      ∀ node ∈ w.pending dag, w.canRun node = false
  | .done (.error (.failed name e)) => ∃ args, w.phase name = .completed args (.error e)

/-- An error completes no node, except as the end of the loop. -/
def Control.MayFail : Control V → Prop
  | .done (.error (.failed _ _)) => True
  | _ => False

structure Sane (dag : Dag V) (inputs : State V) (w : World V) : Prop where
  state : ∀ x, w.state x = (w.output x).or (inputs x)
  started : ∀ x, (w.phase x).isPending = false →
    ∃ node, dag.find x = some node ∧ w.canRun node = true
  outcome : ∀ x node args result, dag.find x = some node →
    (w.phase x).outcome = some (args, result) →
    result = node.handler args ∧ List.Forall₂ (Read dag inputs w x) node.dependencies args
  derived : ∀ x, (w.phase x).isCompleted = true →
    dag.DerivableBy inputs (fun y => (w.phase y).isCompleted = true) x
  clean : ∀ x args e, w.phase x = .completed args (.error e) → w.control.MayFail
  settled : Settled dag w w.control

theorem Sane.start (dag : Dag V) (inputs : State V) : Sane dag inputs (start inputs) where
  state _ := rfl
  started x hx := by cases hx
  outcome x node args result _ h := by cases h
  derived x hx := by cases hx
  clean x args e h := by cases h
  settled := trivial

theorem output_of_completed {x : String} {v : V} (h : w.output x = some v) :
    ∃ args, w.phase x = .completed args (.ok v) := by
  unfold World.output at h
  split at h
  · cases h
    exact ⟨_, ‹_›⟩
  · cases h

theorem output_congr {x : String} (h : w'.phase x = w.phase x) : w'.output x = w.output x := by
  rw [World.output, World.output, h]

theorem output_eq_none {x : String} (h : (w.phase x).isCompleted = false) : w.output x = none := by
  unfold World.output
  split
  · rename_i hp
    rw [hp] at h
    cases h
  · rfl

/-- What stays as it is through every step: results, and values in the state once they
are there; and where a node can go. -/
structure Grows (w w' : World V) : Prop where
  output : ∀ x v, w.output x = some v → w'.output x = some v
  state : ∀ x, (w.state x).isSome → (w'.state x).isSome
  completed : ∀ x, (w.phase x).isCompleted = true → (w'.phase x).isCompleted = true
  outcome : ∀ x o, (w.phase x).outcome = some o → (w'.phase x).outcome = some o

theorem Grows.canRun (h : Grows w w') {node : DagNode V} (hc : w.canRun node = true) :
    w'.canRun node = true := by
  simp only [World.canRun, List.all_eq_true] at hc ⊢
  exact fun d hd => h.state d (hc d hd)

theorem Grows.read (h : Grows w w') {name d : String} {v : V}
    (hr : Read dag inputs w name d v) : Read dag inputs w' name d v :=
  hr.imp_right fun hr => ⟨h.output _ _ hr.1, hr.2⟩

/-- A step that only changes one phase, to one with the same outcome or a first one. -/
theorem Grows.of_phase {x : String} (hother : ∀ y, y ≠ x → w'.phase y = w.phase y)
    (hincomplete : (w.phase x).isCompleted = false)
    (houtcome : ∀ o, (w.phase x).outcome = some o → (w'.phase x).outcome = some o)
    (hstate : ∀ y, (w.state y).isSome → (w'.state y).isSome) : Grows w w' where
  output y v hy := by
    by_cases he : y = x
    · subst he
      rw [output_eq_none hincomplete] at hy
      cases hy
    · rw [output_congr (hother y he), hy]
  state := hstate
  completed y hy := by
    by_cases he : y = x
    · subst he
      rw [hincomplete] at hy
      cases hy
    · rw [hother y he, hy]
  outcome y o hy := by
    by_cases he : y = x
    · subst he
      exact houtcome o hy
    · rw [hother y he, hy]

theorem setPhase_other (w : World V) {x y : String} (phase : NodePhase V) (h : y ≠ x) :
    (w.setPhase x phase).phase y = w.phase y := Function.update_of_ne h _ _

@[simp] theorem setPhase_self {x : String} {phase : NodePhase V} :
    (w.setPhase x phase).phase x = phase := Function.update_self _ _ _

theorem grows_spawn (dag : Dag V) (w : World V) : Grows w (w.spawn (w.ready dag)) := by
  have hphase : ∀ x, (w.phase x).isPending = false →
      (w.spawn (w.ready dag)).phase x = w.phase x := by
    intro x hx
    rcases phase_spawn_cases dag w x with ⟨node, hmem, rfl, -⟩ | ⟨-, hsame⟩
    · rw [(mem_pending.mp (mem_ready.mp hmem).1).2] at hx
      cases hx
    · exact hsame
  constructor
  · intro x v hx
    obtain ⟨args, hp⟩ := output_of_completed hx
    rw [output_congr (hphase x (by rw [hp]; rfl)), hx]
  · exact fun x hx => hx
  · intro x hx
    have hnot : (w.phase x).isPending = false := by
      cases hp : w.phase x <;> rw [hp] at hx <;> first | rfl | cases hx
    rw [hphase x hnot, hx]
  · intro x o hx
    have hnot : (w.phase x).isPending = false := by
      cases hp : w.phase x <;> rw [hp] at hx <;> first | rfl | cases hx
    rw [hphase x hnot, hx]

theorem Move.grows (hm : Move dag w event w') : Grows w w' := by
  cases hm with
  | finish | deadlock =>
    exact ⟨fun _ _ h => h, fun _ h => h, fun _ h => h, fun _ _ h => h⟩
  | wait =>
    obtain ⟨hout, hst, hcomp, houtcome⟩ := grows_spawn dag w
    exact ⟨hout, hst, hcomp, houtcome⟩
  | @call name node hfind hp =>
    rw [← Dag.find_name hfind] at hp
    refine Grows.of_phase (fun y hy => setPhase_other _ _ hy) (by rw [hp]; rfl) ?_ fun _ h => h
    intro o ho
    rw [hp] at ho
    cases ho
  | @joinOk name args v hc hp =>
    refine Grows.of_phase (x := name) (fun y hy => setPhase_other _ _ hy) (by rw [hp]; rfl) ?_ ?_
    · intro o ho
      rw [hp] at ho
      cases ho
      simp [NodePhase.outcome]
    · intro y hy
      by_cases he : y = name
      · subst he
        simp
      · simpa [Function.update_of_ne he] using hy
  | @joinError name e args hc hp =>
    refine Grows.of_phase (x := name) (fun y hy => setPhase_other _ _ hy) (by rw [hp]; rfl) ?_
      fun _ h => h
    intro o ho
    rw [hp] at ho
    cases ho
    simp [NodePhase.outcome]

/-! ## Each step keeps it -/

theorem forall₂_filterMap {α β : Type} {f : α → Option β} {l : List α}
    (h : ∀ a ∈ l, (f a).isSome) : List.Forall₂ (fun a b => f a = some b) l (l.filterMap f) := by
  induction l with
  | nil => exact .nil
  | cons a l ih =>
    obtain ⟨b, hb⟩ := Option.isSome_iff_exists.mp (h a List.mem_cons_self)
    rw [List.filterMap_cons_some hb]
    exact .cons hb (ih fun c hc => h c (List.mem_cons_of_mem _ hc))

/-- A node whose dependencies are all in the state can be derived from what is completed. -/
theorem Sane.derivable (h : Sane dag inputs w) {x : String} {node : DagNode V}
    {rule : String → Prop} (hfind : dag.find x = some node) (hcan : w.canRun node = true)
    (hrule : rule x) (hcompleted : ∀ y, (w.phase y).isCompleted = true → rule y) :
    dag.DerivableBy inputs rule x := by
  refine .intro ⟨⟨node, hfind⟩, hrule⟩ fun d hd hnot => ?_
  rw [Dag.dependenciesOf_find hfind] at hd
  have hsome : (w.state d).isSome := List.all_eq_true.mp hcan d hd
  have hinput : inputs d = none := Option.not_isSome_iff_eq_none.mp hnot
  rw [h.state, hinput, Option.or_none] at hsome
  obtain ⟨v, hv⟩ := Option.isSome_iff_exists.mp hsome
  obtain ⟨args, hp⟩ := output_of_completed hv
  refine (h.derived d (by rw [hp]; rfl)).mono fun y hy => ⟨hy.1, hcompleted y hy.2⟩

/-- What a task finds in the state. -/
theorem Sane.read (h : Sane dag inputs w) {x d : String} {v : V}
    (hx : (w.phase x).isCompleted = false) (hd : w.state d = some v) :
    Read dag inputs w x d v := by
  rw [h.state] at hd
  cases hout : w.output d with
  | none =>
    rw [hout, Option.none_or] at hd
    exact .inl hd
  | some v' =>
    rw [hout, Option.some_or] at hd
    cases hd
    obtain ⟨args, hp⟩ := output_of_completed hout
    refine .inr ⟨hout, (h.derived d (by rw [hp]; rfl)).mono fun y hy => ⟨hy.1, ?_⟩⟩
    rintro rfl
    exact absurd (hx.symm.trans hy.2) Bool.false_ne_true

/-- What a step has to show beyond what every step leaves alone. -/
theorem Sane.of_grows (h : Sane dag inputs w) (hg : Grows w w')
    (hstate : ∀ x, w'.state x = (w'.output x).or (inputs x))
    (hstarted : ∀ x, (w.phase x).isPending = true → (w'.phase x).isPending = false →
      ∃ node, dag.find x = some node ∧ w.canRun node = true)
    (hcalled : ∀ x args result, (w.phase x).outcome = none →
      (w'.phase x).outcome = some (args, result) → ∀ node, dag.find x = some node →
        result = node.handler args ∧ List.Forall₂ (Read dag inputs w x) node.dependencies args)
    (hcompleted : ∀ x, (w'.phase x).isCompleted = true → (w.phase x).isPending = false)
    (hclean : ∀ x args e, w'.phase x = .completed args (.error e) → w'.control.MayFail)
    (hsettled : Settled dag w' w'.control) : Sane dag inputs w' where
  state := hstate
  started x hx := by
    cases hp : (w.phase x).isPending with
    | true =>
      obtain ⟨node, hfind, hcan⟩ := hstarted x hp hx
      exact ⟨node, hfind, hg.canRun hcan⟩
    | false =>
      obtain ⟨node, hfind, hcan⟩ := h.started x hp
      exact ⟨node, hfind, hg.canRun hcan⟩
  outcome x node args result hfind ho := by
    have hread : result = node.handler args ∧
        List.Forall₂ (Read dag inputs w x) node.dependencies args := by
      cases hold : (w.phase x).outcome with
      | none => exact hcalled x args result hold ho node hfind
      | some o =>
        rw [hg.outcome x o hold] at ho
        cases ho
        exact h.outcome x node args result hfind hold
    exact ⟨hread.1, hread.2.imp fun _ _ => hg.read⟩
  derived x hx := by
    obtain ⟨node, hfind, hcan⟩ := h.started x (hcompleted x hx)
    exact h.derivable hfind hcan hx hg.completed
  clean := hclean
  settled := hsettled

theorem not_completed_of_pending {phase : NodePhase V} (h : phase.isPending = true) :
    phase.isCompleted = false := by
  cases phase <;> first | rfl | cases h

theorem not_pending_of_completed {phase : NodePhase V} (h : phase.isCompleted = true) :
    phase.isPending = false := by
  cases phase <;> first | rfl | cases h

theorem phase_of_completed {phase : NodePhase V} (h : phase.isCompleted = true) :
    ∃ args result, phase = .completed args result := by
  cases phase with
  | completed args result => exact ⟨args, result, rfl⟩
  | pending | spawned | called => cases h

/-- A node that is spawned was pending, and the others are as they were. -/
theorem phase_spawned (dag : Dag V) (w : World V) (x : String) :
    ((w.spawn (w.ready dag)).phase x = .spawned ∧ (w.phase x).isPending = true ∧
        ∃ node, dag.find x = some node ∧ w.canRun node = true) ∨
      (w.spawn (w.ready dag)).phase x = w.phase x ∧ ∀ node ∈ w.ready dag, node.name ≠ x := by
  rcases phase_spawn_cases dag w x with ⟨node, hmem, rfl, hp⟩ | ⟨hnone, hsame⟩
  · obtain ⟨hpending, hcan⟩ := mem_ready.mp hmem
    obtain ⟨hnode, hpending⟩ := mem_pending.mp hpending
    exact .inl ⟨hp, hpending, node, Dag.find_of_mem hnode, hcan⟩
  · exact .inr ⟨hsame, hnone⟩

theorem Sane.spawn (h : Sane dag inputs w) (hc : w.control = .scanning)
    (hrun : (w.spawn (w.ready dag)).running dag ≠ []) :
    Sane dag inputs { w.spawn (w.ready dag) with control := .joining } := by
  have hcases := phase_spawned dag w
  have hmove : Move dag w .scan { w.spawn (w.ready dag) with control := .joining } := .wait hc hrun
  refine h.of_grows hmove.grows ?_ ?_ ?_ ?_ ?_ ⟨hrun, ?_⟩
  · intro x
    show w.state x = _
    rw [h.state]
    rcases hcases x with ⟨hp, hpending, -⟩ | ⟨hsame, -⟩
    · rw [output_eq_none (not_completed_of_pending hpending), output_eq_none]
      exact congrArg NodePhase.isCompleted hp
    · exact congrArg (fun o => o.or (inputs x)) (output_congr hsame).symm
  · intro x hpending hx
    dsimp only at hx
    rcases hcases x with ⟨-, -, hnode⟩ | ⟨hsame, -⟩
    · exact hnode
    · rw [hsame, hpending] at hx
      cases hx
  · intro x args result hold hnew
    dsimp only at hnew
    rcases hcases x with ⟨hp, -⟩ | ⟨hsame, -⟩
    · rw [hp] at hnew
      cases hnew
    · rw [hsame, hold] at hnew
      cases hnew
  · intro x hx
    dsimp only at hx
    rcases hcases x with ⟨hp, -⟩ | ⟨hsame, -⟩
    · rw [hp] at hx
      cases hx
    · rw [hsame] at hx
      exact not_pending_of_completed hx
  · intro x args e hx
    dsimp only at hx
    rcases hcases x with ⟨hp, -⟩ | ⟨hsame, -⟩
    · rw [hp] at hx
      cases hx
    · rw [hsame] at hx
      have hfail := h.clean x args e hx
      rw [hc] at hfail
      exact hfail.elim
  · intro node hmem
    obtain ⟨hnode, hpending⟩ := mem_pending.mp hmem
    dsimp only at hpending
    rcases hcases node.name with ⟨hp, -⟩ | ⟨hsame, hnone⟩
    · rw [hp] at hpending
      cases hpending
    · rw [hsame] at hpending
      by_contra hcan
      have hcan : w.canRun node = true := eq_true_of_ne_false hcan
      exact hnone node (mem_ready.mpr ⟨mem_pending.mpr ⟨hnode, hpending⟩, hcan⟩) rfl

/-- What a step of one node that has left `pending` has to show. -/
theorem Sane.of_phase (h : Sane dag inputs w) (hg : Grows w w') {x : String}
    (hother : ∀ y, y ≠ x → w'.phase y = w.phase y) (hleft : (w.phase x).isPending = false)
    (hstate : ∀ y, w'.state y = (w'.output y).or (inputs y))
    (hcalled : ∀ args result, (w.phase x).outcome = none →
      (w'.phase x).outcome = some (args, result) → ∀ node, dag.find x = some node →
        result = node.handler args ∧ List.Forall₂ (Read dag inputs w x) node.dependencies args)
    (hclean : ∀ args e, w'.phase x = .completed args (.error e) → w'.control.MayFail)
    (hfail : w.control.MayFail → w'.control.MayFail)
    (hsettled : Settled dag w' w'.control) : Sane dag inputs w' := by
  refine h.of_grows hg hstate ?_ ?_ ?_ ?_ hsettled
  · intro y hpend hnot
    by_cases hy : y = x
    · rw [hy, hleft] at hpend
      cases hpend
    · rw [hother y hy, hpend] at hnot
      cases hnot
  · intro y args result hold hnew
    by_cases hy : y = x
    · subst hy
      exact hcalled args result hold hnew
    · rw [hother y hy, hold] at hnew
      cases hnew
  · intro y hy
    by_cases he : y = x
    · rw [he, hleft]
    · rw [hother y he] at hy
      exact not_pending_of_completed hy
  · intro y args e hy
    by_cases he : y = x
    · exact hclean args e (he ▸ hy)
    · rw [hother y he] at hy
      exact hfail (h.clean y args e hy)

/-- A task that has called its handler is still running. -/
theorem Sane.settled_call (h : Sane dag inputs w) {node : DagNode V} (hmem : node ∈ dag.nodes)
    (hp : w.phase node.name = .spawned)
    (hother : ∀ y, y ≠ node.name → (w.call node).phase y = w.phase y)
    (hself : (w.call node).phase node.name = .called (node.dependencies.filterMap w.state)
      (node.handler (node.dependencies.filterMap w.state))) :
    Settled dag (w.call node) w.control := by
  have hrun : node ∈ w.running dag := mem_running.mpr ⟨hmem, by rw [hp]; rfl⟩
  have hsettled := h.settled
  cases hc : w.control with
  | scanning => trivial
  | joining =>
    have hpending : (w.call node).pending dag = w.pending dag := by
      refine List.filter_congr fun n _ => ?_
      by_cases he : n.name = node.name
      · rw [he, hself, hp]
        rfl
      · rw [hother _ he]
    rw [hc] at hsettled
    refine ⟨List.ne_nil_of_mem (mem_running.mpr ⟨hmem, ?_⟩), ?_⟩
    · rw [hself]
      rfl
    · rw [hpending]
      exact hsettled.2
  | done result =>
    rw [hc] at hsettled
    cases result with
    | ok state =>
      have hcompleted := hsettled.2 node hmem
      rw [hp] at hcompleted
      cases hcompleted
    | error e =>
      cases e with
      | deadlock names =>
        rw [hsettled.2.2.1] at hrun
        cases hrun
      | failed name e =>
        obtain ⟨args, hfailed⟩ := hsettled
        refine ⟨args, ?_⟩
        rw [hother name, hfailed]
        rintro rfl
        rw [hp] at hfailed
        cases hfailed

theorem Sane.call (h : Sane dag inputs w) {x : String} {node : DagNode V}
    (hfind : dag.find x = some node) (hp : w.phase x = .spawned) :
    Sane dag inputs (w.call node) := by
  have hmove : Move dag w (.call x) (w.call node) := .call hfind hp
  have hname := Dag.find_name hfind
  subst hname
  have hother : ∀ y, y ≠ node.name → (w.call node).phase y = w.phase y :=
    fun y hy => setPhase_other _ _ hy
  have hself : (w.call node).phase node.name =
      .called (node.dependencies.filterMap w.state)
        (node.handler (node.dependencies.filterMap w.state)) := setPhase_self
  refine h.of_phase hmove.grows hother (by rw [hp]; rfl) (fun y => ?_) ?_ ?_ id
    (h.settled_call (Dag.mem_of_find hfind) hp hother hself)
  · show w.state y = _
    rw [h.state]
    by_cases hy : y = node.name
    · rw [hy, output_eq_none (by rw [hp]; rfl), output_eq_none (by rw [hself]; rfl)]
    · rw [output_congr (hother y hy)]
  · intro args result hold hnew node' hfind'
    rw [hfind] at hfind'
    cases hfind'
    rw [hself] at hnew
    cases hnew
    obtain ⟨node', hfind', hcan⟩ := h.started node.name (by rw [hp]; rfl)
    rw [hfind] at hfind'
    cases hfind'
    refine ⟨rfl, (forall₂_filterMap (List.all_eq_true.mp hcan)).imp fun d v hd => ?_⟩
    exact h.read (by rw [hp]; rfl) hd
  · intro args e hy
    rw [hself] at hy
    cases hy

/-- The loop has joined a task. -/
theorem Sane.join (h : Sane dag inputs w) {x : String} {args : List V}
    {result : Except String V} (hp : w.phase x = .called args result)
    (hmove : Move dag w event w')
    (hphase : w'.phase = (w.setPhase x (.completed args result)).phase)
    (hstate : ∀ y, w'.state y = (w'.output y).or (inputs y))
    (hclean : ∀ e, result = .error e → w'.control.MayFail)
    (hcontrol : w.control = .joining)
    (hsettled : Settled dag w' w'.control) : Sane dag inputs w' := by
  refine h.of_phase hmove.grows ?_ (by rw [hp]; rfl) hstate ?_ ?_ ?_ hsettled
  · intro y hy
    rw [hphase, setPhase_other _ _ hy]
  · intro args' result' hold
    rw [hp] at hold
    cases hold
  · intro args' e hy
    rw [hphase, setPhase_self] at hy
    cases hy
    exact hclean e rfl
  · intro hfail
    rw [hcontrol] at hfail
    exact hfail.elim

/-- The loop comes to its end. -/
theorem Sane.setControl (h : Sane dag inputs w) (hc : w.control = .scanning) {control : Control V}
    (hsettled : Settled dag { w with control } control) : Sane dag inputs { w with control } where
  state := h.state
  started := h.started
  outcome := h.outcome
  derived := h.derived
  clean x args e hx := by
    have := h.clean x args e hx
    rw [hc] at this
    exact this.elim
  settled := hsettled

theorem completed_of_finished (hpending : w.pending dag = []) (hrunning : w.running dag = [])
    {node : DagNode V} (hmem : node ∈ dag.nodes) : (w.phase node.name).isCompleted = true := by
  cases hp : w.phase node.name with
  | pending =>
    have : node ∈ w.pending dag := mem_pending.mpr ⟨hmem, by rw [hp]; rfl⟩
    rw [hpending] at this
    cases this
  | spawned | called =>
    have : node ∈ w.running dag := mem_running.mpr ⟨hmem, by rw [hp]; rfl⟩
    rw [hrunning] at this
    cases this
  | completed => rfl

theorem canRun_of_ready (hready : w.ready dag = []) {node : DagNode V}
    (hmem : node ∈ w.pending dag) : w.canRun node = false := by
  by_contra hcan
  have hin : node ∈ w.ready dag := mem_ready.mpr ⟨hmem, eq_true_of_ne_false hcan⟩
  rw [hready] at hin
  cases hin

theorem Sane.step (h : Sane dag inputs w) (hs : Step dag w event w') : Sane dag inputs w' := by
  have hmove := hs.move
  cases hs.move with
  | finish hc hpending hrunning =>
    exact h.setControl hc ⟨rfl, fun node hmem => completed_of_finished hpending hrunning hmem⟩
  | wait hc hrun => exact h.spawn hc hrun
  | deadlock hc hrun hpending =>
    have hready := ready_of_running hrun
    rw [hready, spawn_nil] at hrun
    exact h.setControl hc ⟨rfl, fun hnil => hpending (List.map_eq_nil_iff.mp hnil), hrun,
      fun node hmem => canRun_of_ready hready hmem⟩
  | call hfind hp => exact h.call hfind hp
  | @joinOk x args v hc hp =>
    refine h.join hp hmove rfl (fun y => ?_) (fun e he => by cases he) hc trivial
    by_cases hy : y = x
    · subst hy
      simp [World.output]
    · have hstate : Function.update w.state x (some v) y = w.state y :=
        Function.update_of_ne hy _ _
      have hout := output_congr (setPhase_other w (.completed args (.ok v)) hy)
      exact hstate.trans ((h.state y).trans (congrArg (fun o => o.or (inputs y)) hout.symm))
  | @joinError x e args hc hp =>
    refine h.join hp hmove rfl (fun y => ?_) (fun _ _ => trivial) hc ⟨args, setPhase_self⟩
    show w.state y = _
    rw [h.state]
    by_cases hy : y = x
    · subst hy
      rw [output_eq_none (by rw [hp]; rfl)]
      simp [World.output]
    · have hout := output_congr (setPhase_other w (.completed args (.error e)) hy)
      exact congrArg (fun o => o.or (inputs y)) hout.symm

theorem Sane.of_leads (h : Leads (Step dag) (DagExecution.start inputs) w) : Sane dag inputs w :=
  h.invariant (fun _ _ _ hs hstep => hs.step hstep) (Sane.start dag inputs)

/-! ## Every run ends -/

/-- The steps of a node that are still to come. -/
def NodePhase.weight : NodePhase V → Nat
  | .pending | .spawned => 2
  | .called _ _ => 1
  | .completed _ _ => 0

def Control.weight : Control V → Nat
  | .scanning => 1
  | .joining | .done _ => 0

def World.nodeWork (w : World V) (dag : Dag V) : Nat :=
  (dag.nodes.map fun node => (w.phase node.name).weight).sum

/-- How many steps are left at most. -/
def World.work (w : World V) (dag : Dag V) : Nat := 2 * w.nodeWork dag + w.control.weight

theorem work_start (dag : Dag V) (inputs : State V) :
    (start inputs).work dag = 4 * dag.nodes.length + 1 := by
  have hsum : (start inputs).nodeWork dag = dag.nodes.length * 2 := by
    simp [World.nodeWork, DagExecution.start, NodePhase.weight]
  rw [World.work, hsum]
  show 2 * (dag.nodes.length * 2) + 1 = _
  omega

theorem nodeWork_lt {x : String} {node : DagNode V} (hfind : dag.find x = some node)
    (hother : ∀ y, y ≠ x → w'.phase y = w.phase y)
    (hlt : (w'.phase x).weight < (w.phase x).weight) : w'.nodeWork dag < w.nodeWork dag := by
  refine List.sum_lt_sum _ _ (fun n _ => ?_) ⟨node, Dag.mem_of_find hfind, ?_⟩
  · by_cases hn : n.name = x
    · rw [hn]
      exact Nat.le_of_lt hlt
    · rw [hother _ hn]
  · rw [Dag.find_name hfind]
    exact hlt

theorem nodeWork_completed {x : String} {node : DagNode V} {args : List V}
    {result : Except String V} (hfind : dag.find x = some node)
    (hp : w.phase x = .called args result) :
    (w.setPhase x (.completed args result)).nodeWork dag < w.nodeWork dag := by
  refine nodeWork_lt hfind (fun y hy => setPhase_other _ _ hy) ?_
  rw [hp, setPhase_self]
  exact Nat.zero_lt_one

theorem nodeWork_spawn (dag : Dag V) (w : World V) :
    (w.spawn (w.ready dag)).nodeWork dag ≤ w.nodeWork dag := by
  refine List.sum_le_sum fun node _ => ?_
  rcases phase_spawn_cases dag w node.name with ⟨n, hmem, hname, hp⟩ | ⟨-, hsame⟩
  · have hpending := (mem_pending.mp (mem_ready.mp hmem).1).2
    rw [hname] at hpending
    cases hold : w.phase node.name with
    | pending =>
      rw [hp]
      exact Nat.le_refl _
    | spawned | called | completed =>
      rw [hold] at hpending
      cases hpending
  · rw [hsame]

/-- Each step uses up some of the work. -/
theorem work_decreases (h : Sane dag inputs w) (hs : Step dag w event w') :
    w'.work dag < w.work dag := by
  cases hs.move with
  | finish hc | deadlock hc =>
    rw [World.work, World.work, hc]
    exact Nat.lt_succ_self _
  | wait hc hrun =>
    have hle := nodeWork_spawn dag w
    rw [World.work, World.work, hc]
    exact Nat.lt_succ_of_le (Nat.mul_le_mul_left 2 hle)
  | @call x node hfind hp =>
    have hname := Dag.find_name hfind
    subst hname
    have hlt : (w.call node).nodeWork dag < w.nodeWork dag := by
      refine nodeWork_lt hfind (fun y hy => setPhase_other _ _ hy) ?_
      rw [hp, World.call, setPhase_self]
      exact Nat.lt_succ_self 1
    show 2 * (w.call node).nodeWork dag + w.control.weight < 2 * w.nodeWork dag + w.control.weight
    omega
  | @joinOk x args v hc hp =>
    obtain ⟨node, hfind, -⟩ := h.started x (by rw [hp]; rfl)
    have hlt := nodeWork_completed hfind hp
    show 2 * (w.setPhase x (.completed args (.ok v))).nodeWork dag + 1 <
      2 * w.nodeWork dag + w.control.weight
    omega
  | @joinError x e args hc hp =>
    obtain ⟨node, hfind, -⟩ := h.started x (by rw [hp]; rfl)
    have hlt := nodeWork_completed hfind hp
    show 2 * (w.setPhase x (.completed args (.error e))).nodeWork dag + 0 <
      2 * w.nodeWork dag + w.control.weight
    omega

end JustApi.Py.DagExecution
