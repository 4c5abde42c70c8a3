import Mathlib.Logic.Function.Basic
import Mathlib.Data.List.Nodup
import JustApi.Lib.Run
import JustApi.Lib.Derivation

/-! # Execution of a DAG

`Dag`, and the loop of `run_dag_internal` with the tasks it spawns. Handlers are functions
of their arguments that may raise. The loop and the tasks take turns in any order: a task
reads the shared state and calls its handler in one step, and hands over what came out of
it when the loop joins it. -/
namespace JustApi.Py.DagExecution
open JustApi.Lib.Run JustApi.Lib.Derivation

variable {V : Type}

structure DagNode (V : Type) where
  name : String
  handler : List V → Except String V
  dependencies : List String

def DagNode.new (name : String) (handler : List V → Except String V)
    (dependencies : Option (List String)) : DagNode V :=
  ⟨name, handler, dependencies.getD []⟩

/-- The nodes by name, as a list in which no name comes twice. -/
structure Dag (V : Type) where
  nodes : List (DagNode V)
  distinct : (nodes.map DagNode.name).Nodup

namespace Dag

def insert (dag : Dag V) (node : DagNode V) : Dag V where
  nodes := dag.nodes.filter (fun n => n.name ≠ node.name) ++ [node]
  distinct := by
    rw [List.map_append, List.nodup_append]
    refine ⟨dag.distinct.sublist (List.filter_sublist.map _), List.nodup_singleton _, ?_⟩
    intro x hx y hy
    obtain ⟨n, hn, rfl⟩ := List.mem_map.mp hx
    rw [List.mem_singleton.mp hy]
    exact of_decide_eq_true (List.mem_filter.mp hn).2

def new (nodes : List (DagNode V)) : Dag V := nodes.foldl insert ⟨[], List.nodup_nil⟩

/-- The same nodes with other handlers. -/
def withHandlers (dag : Dag V) (handlers : String → List V → Except String V) : Dag V where
  nodes := dag.nodes.map fun node => { node with handler := handlers node.name }
  distinct := by simpa [Function.comp_def] using dag.distinct

def find (dag : Dag V) (name : String) : Option (DagNode V) :=
  dag.nodes.find? fun node => node.name = name

end Dag

/-- The map from names to values that the nodes share. -/
abbrev State (V : Type) := String → Option V

/-- Inputs under keys that are not strings (`none`) are left out. -/
def initialState (inputs : List (Option String × V)) : State V :=
  inputs.foldl (fun state (key, v) =>
    match key with
    | some key => Function.update state key (some v)
    | none => state) fun _ => none

/-- Where a node is: in `pending`, in `running` with its handler still to be called or
called, or in `completed`. -/
inductive NodePhase (V : Type) where
  | pending
  | spawned
  | called (args : List V) (result : Except String V)
  | completed (args : List V) (result : Except String V)

def NodePhase.isPending : NodePhase V → Bool
  | .pending => true
  | _ => false

def NodePhase.isRunning : NodePhase V → Bool
  | .spawned | .called _ _ => true
  | _ => false

def NodePhase.isCompleted : NodePhase V → Bool
  | .completed _ _ => true
  | _ => false

/-- What the handler was called with and what it gave, once it has been called. -/
def NodePhase.outcome : NodePhase V → Option (List V × Except String V)
  | .called args result | .completed args result => some (args, result)
  | _ => none

/-- `Node {} failed: {}`, or `DAG deadlock: nodes {:?} are waiting for dependencies that
never arrive`. -/
inductive RunError where
  | failed (name error : String)
  | deadlock (names : List String)
  deriving DecidableEq

/-- Where the loop is: at its head, waiting for a task, or past its end. -/
inductive Control (V : Type) where
  | scanning
  | joining
  | done (result : Except RunError (State V))

structure World (V : Type) where
  phase : String → NodePhase V
  state : State V
  control : Control V

def start (inputs : State V) : World V := ⟨fun _ => .pending, inputs, .scanning⟩

def execute (inputs : List (Option String × V)) : World V := start (initialState inputs)

namespace World

variable (w : World V) (dag : Dag V)

def pending : List (DagNode V) := dag.nodes.filter fun node => (w.phase node.name).isPending

def running : List (DagNode V) := dag.nodes.filter fun node => (w.phase node.name).isRunning

def canRun (node : DagNode V) : Bool := node.dependencies.all fun d => (w.state d).isSome

def ready : List (DagNode V) := (w.pending dag).filter w.canRun

def setPhase (name : String) (phase : NodePhase V) : World V :=
  { w with phase := Function.update w.phase name phase }

def spawn (ready : List (DagNode V)) : World V :=
  { w with phase := fun name =>
      if ready.any (fun node => node.name = name) then .spawned else w.phase name }

/-- From the head of the loop to where it waits, or to its end. -/
def scan : World V :=
  if w.pending dag = [] ∧ w.running dag = [] then { w with control := .done (.ok w.state) }
  else
    let w := w.spawn (w.ready dag)
    if w.running dag ≠ [] then { w with control := .joining }
    else if w.pending dag ≠ [] then
      { w with control := .done (.error (.deadlock ((w.pending dag).map DagNode.name))) }
    else w

/-- The task reads its arguments and calls the handler. -/
def call (node : DagNode V) : World V :=
  let args := node.dependencies.filterMap w.state
  w.setPhase node.name (.called args (node.handler args))

/-- The loop takes the result of a task. -/
def join (name : String) (args : List V) (result : Except String V) : World V :=
  let w := w.setPhase name (.completed args result)
  match result with
  | .ok v => { w with state := Function.update w.state name (some v), control := .scanning }
  | .error e => { w with control := .done (.error (.failed name e)) }

end World

inductive Event where
  | scan
  | call (name : String)
  | join (name : String)
  deriving DecidableEq

/-- A task can be called at any time once it is spawned, even when the loop has ended
with the error of another one. -/
def exec (dag : Dag V) (w : World V) : Event → Except Disabled (World V)
  | .scan =>
    match w.control with
    | .scanning => .ok (w.scan dag)
    | _ => .error .disabled
  | .call name =>
    match dag.find name, w.phase name with
    | some node, .spawned => .ok (w.call node)
    | _, _ => .error .disabled
  | .join name =>
    match w.control, w.phase name with
    | .joining, .called args result => .ok (w.join name args result)
    | _, _ => .error .disabled

def Step (dag : Dag V) (w : World V) (event : Event) (w' : World V) : Prop :=
  exec dag w event = .ok w'

/-! ## Names and derivations -/

namespace Dag

variable {dag : Dag V} {name : String} {node : DagNode V}

def IsNode (dag : Dag V) (name : String) : Prop := ∃ node, dag.find name = some node

def dependenciesOf (dag : Dag V) (name : String) : List String :=
  ((dag.find name).map DagNode.dependencies).getD []

/-- What can be derived from the inputs, with only the nodes of `rule`. -/
abbrev DerivableBy (dag : Dag V) (inputs : State V) (rule : String → Prop) (name : String) : Prop :=
  Derivable (fun x => dag.IsNode x ∧ rule x) dag.dependenciesOf (fun d => (inputs d).isSome) name

/-- All of a node's dependencies are inputs or nodes of which this holds. -/
abbrev Derivable (dag : Dag V) (inputs : State V) (name : String) : Prop :=
  Lib.Derivation.Derivable dag.IsNode dag.dependenciesOf (fun d => (inputs d).isSome) name

theorem mem_of_mem_new {nodes : List (DagNode V)} (h : node ∈ (new nodes).nodes) : node ∈ nodes := by
  have hall : ∀ (nodes : List (DagNode V)) (dag : Dag V), node ∈ (nodes.foldl insert dag).nodes →
      node ∈ dag.nodes ∨ node ∈ nodes := by
    intro nodes
    induction nodes with
    | nil => exact fun _ h => .inl h
    | cons n nodes ih =>
      intro dag h
      rcases ih (dag.insert n) h with h | h
      · rcases List.mem_append.mp h with h | h
        · exact .inl (List.mem_filter.mp h).1
        · exact .inr (List.mem_singleton.mp h ▸ List.mem_cons_self)
      · exact .inr (List.mem_cons_of_mem _ h)
  exact (hall nodes _ h).resolve_left (List.not_mem_nil)

theorem find_name (h : dag.find name = some node) : node.name = name := by
  simpa using List.find?_some h

theorem mem_of_find (h : dag.find name = some node) : node ∈ dag.nodes :=
  List.mem_of_find?_eq_some h

theorem find_of_mem (h : node ∈ dag.nodes) : dag.find node.name = some node := by
  have hsome : (dag.find node.name).isSome := by
    rw [find, List.find?_isSome]
    exact ⟨node, h, by simp⟩
  obtain ⟨node', hfind⟩ := Option.isSome_iff_exists.mp hsome
  have := List.inj_on_of_nodup_map dag.distinct (mem_of_find hfind) h (find_name hfind)
  rw [hfind, this]

theorem find_withHandlers (handlers : String → List V → Except String V) (name : String) :
    (dag.withHandlers handlers).find name =
      (dag.find name).map fun node => { node with handler := handlers node.name } := by
  rw [find, withHandlers, List.find?_map]
  rfl

theorem isNode_withHandlers (handlers : String → List V → Except String V) (name : String) :
    (dag.withHandlers handlers).IsNode name ↔ dag.IsNode name := by
  rw [IsNode, find_withHandlers]
  cases h : dag.find name <;> simp [IsNode, h]

theorem dependenciesOf_withHandlers (dag : Dag V) (handlers : String → List V → Except String V) :
    (dag.withHandlers handlers).dependenciesOf = dag.dependenciesOf := by
  funext name
  rw [dependenciesOf, dependenciesOf, find_withHandlers, Option.map_map]
  rfl

theorem dependenciesOf_find (h : dag.find name = some node) :
    dag.dependenciesOf name = node.dependencies := by
  rw [dependenciesOf, h]
  rfl

end Dag

end JustApi.Py.DagExecution
