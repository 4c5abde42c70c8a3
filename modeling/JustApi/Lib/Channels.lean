import Mathlib.Data.List.Basic

/-! # Channels that keep their order

A queue with a record of what has entered it and of what has left it. What is left to
receive is what has entered and not left, in the order it entered in. -/
namespace JustApi.Lib.Channels

structure Channel (α : Type*) where
  entered : List α
  left : List α
  queue : List α
  inOrder : entered = left ++ queue
  deriving DecidableEq

namespace Channel

variable {α : Type*}

def empty : Channel α := ⟨[], [], [], rfl⟩

def send (c : Channel α) (a : α) : Channel α :=
  ⟨c.entered ++ [a], c.left, c.queue ++ [a], by rw [c.inOrder, List.append_assoc]⟩

/-- The first in the queue, and the channel without it. -/
def recv? (c : Channel α) : Option (α × Channel α) :=
  match h : c.queue with
  | [] => none
  | a :: queue => some (a, ⟨c.entered, c.left ++ [a], queue, by simp [c.inOrder, h]⟩)

@[simp] theorem empty_entered : (empty : Channel α).entered = [] := rfl

@[simp] theorem empty_left : (empty : Channel α).left = [] := rfl

@[simp] theorem empty_queue : (empty : Channel α).queue = [] := rfl

@[simp] theorem send_entered (c : Channel α) (a : α) : (c.send a).entered = c.entered ++ [a] := rfl

@[simp] theorem send_left (c : Channel α) (a : α) : (c.send a).left = c.left := rfl

@[simp] theorem send_queue (c : Channel α) (a : α) : (c.send a).queue = c.queue ++ [a] := rfl

theorem recv?_eq_none {c : Channel α} : c.recv? = none ↔ c.queue = [] := by
  unfold recv?
  split <;> simp_all

/-- What is received is the first in the queue. -/
theorem recv?_eq_some {c c' : Channel α} {a : α} (h : c.recv? = some (a, c')) :
    c.queue = a :: c'.queue ∧ c'.entered = c.entered ∧ c'.left = c.left ++ [a] := by
  unfold recv? at h
  split at h
  · cases h
  · rename_i hqueue
    cases h
    exact ⟨hqueue, rfl, rfl⟩

/-- What has left is a first part of what has entered. -/
theorem left_prefix (c : Channel α) : c.left <+: c.entered :=
  ⟨c.queue, c.inOrder.symm⟩

theorem mem_entered {c : Channel α} {a : α} : a ∈ c.entered ↔ a ∈ c.left ∨ a ∈ c.queue := by
  rw [c.inOrder, List.mem_append]

theorem entered_eq_left {c : Channel α} (h : c.queue = []) : c.entered = c.left := by
  rw [c.inOrder, h, List.append_nil]

end Channel

end JustApi.Lib.Channels
