import JustApi.Inference.HandoffFrame
import JustApi.Inference.StepLists

/-! # A cancelled request does not come back

Runs of all operations of a scheduler with a record of the ids it issued and of
those that were cancelled. A cancel that finds its request in the batch, or finds it
gone, is final. One that finds it in the queue does nothing. -/
namespace JustApi.Inference.CancelFinality
open JustApi.Lib.Run JustApi.Lib.Result JustApi.Inference.KvCache JustApi.Inference.RadixCache
open JustApi.Inference.Scheduling JustApi.Inference.Scheduling.Scheduler
open JustApi.Inference.FifoService JustApi.Inference.Handoff

variable {F : Type}

/-- A scheduler with the ids `addRequest` returned, those of them that were cancelled,
and what the latest call scheduled. -/
structure Register (F : Type) where
  sched : Scheduler F
  issued : List Nat
  cancelled : List Nat
  last : Option Schedule

def Register.new (config : SchedulerConfig) (pool : KvBlockPool) : Register F :=
  ⟨.new config pool, [], [], none⟩

def enter (r : Register F) : Call F → Except Panic (Register F)
  | .op (.addRequest req) =>
    .ok { r with sched := (r.sched.addRequest req).2,
                 issued := (r.sched.addRequest req).1 :: r.issued, last := none }
  | .op (.schedule order) =>
    (r.sched.schedule order).map fun out => { r with sched := out.2, last := some out.1 }
  | .op (.cancel id) =>
    (r.sched.cancel id).map fun t =>
      { r with sched := t, cancelled := if id ∈ r.issued then id :: r.cancelled else r.cancelled,
               last := none }
  | call => (perform r.sched call).map fun t => { r with sched := t, last := none }

def Step (r : Register F) (call : Call F) (r' : Register F) : Prop := enter r call = .ok r'

/-- The id does not run, and the latest schedule does not list it. -/
def Absent (r : Register F) (id : Nat) : Prop :=
  id ∉ r.sched.runningIds ∧ ∀ sch ∈ r.last, id ∉ listed sch

/-- The call does not cancel the id while its request waits. -/
def NotWhileWaiting (id : Nat) (r : Register F) : Call F → Prop
  | .op (.cancel seqId) => seqId = id → id ∉ waitingIds r.sched
  | _ => True

instance (id : Nat) (r : Register F) (call : Call F) : Decidable (NotWhileWaiting id r call) :=
  match call with
  | .op (.cancel seqId) => inferInstanceAs (Decidable (seqId = id → id ∉ waitingIds r.sched))
  | .op (.addRequest _) | .op (.schedule _) | .op (.onStepComplete _ _) => .isTrue trivial
  | .takeCompletedPrefill | .admitTransferred _ => .isTrue trivial

/-- Ids are not shared, and those issued are behind the counter. -/
structure Registered (r : Register F) : Prop where
  numbered : Numbered r.sched
  issued : ∀ id ∈ r.issued, id < r.sched.nextSeqId

/-- The id was issued and has left the line. -/
structure Gone (r : Register F) (id : Nat) : Prop where
  issued : id < r.sched.nextSeqId
  notInLine : id ∉ line r.sched

/-! ## One call -/

/-- Besides what a call leaves in line, only the next id can be there after it. -/
theorem line_of_perform {s t : Scheduler F} {call : Call F} (h : perform s call = .ok t) :
    s.nextSeqId ≤ t.nextSeqId ∧ ∀ id ∈ line t, id ∈ line s ∨ id = s.nextSeqId := by
  cases call with
  | op op =>
    refine ⟨exec_nextSeqId h, fun id hid => ?_⟩
    by_cases hop : ∀ req, op ≠ .addRequest req
    · exact .inl ((line_sublist h hop).subset hid)
    · push Not at hop
      obtain ⟨req, rfl⟩ := hop
      obtain ⟨hr, hw⟩ := exec_keepsOrder (show exec s (.addRequest req) = .ok t from h)
      rw [line, hr, hw, ← List.append_assoc] at hid
      exact (List.mem_append.mp hid).imp_right List.mem_singleton.mp
  | takeCompletedPrefill =>
    obtain ⟨⟨taken, t'⟩, ht, rfl⟩ := map_eq_ok.mp h
    obtain ⟨-, -, hf, -⟩ := takeCompletedPrefill_ok ht
    refine ⟨Nat.le_of_eq hf.nextSeqId.symm, fun id hid => .inl ?_⟩
    rw [line, runningIds, waitingIds, hf.running, hf.waitQueue] at hid
    exact ((List.filter_sublist.map _).append_right _).subset hid
  | admitTransferred x =>
    obtain ⟨ok, seq, pool, -, hseq, rfl⟩ := admitTransferred_ok h
    refine ⟨Nat.le_succ _, fun id hid => ?_⟩
    cases ok with
    | false => exact .inl hid
    | true =>
      simp only [line, runningIds, List.map_append, List.mem_append, if_true] at hid
      rcases hid with (hid | hid) | hid
      · exact .inl (List.mem_append_left _ hid)
      · rw [List.map_singleton, List.mem_singleton] at hid
        exact .inr (hid.trans hseq)
      · exact .inl (List.mem_append_right _ hid)

/-- What an entry of the register says about its call. -/
structure Entered (r : Register F) (call : Call F) (r' : Register F) : Prop where
  performed : perform r.sched call = .ok r'.sched
  issued : ∀ id ∈ r'.issued, id ∈ r.issued ∨ id < r'.sched.nextSeqId
  cancelled : ∀ id ∈ r'.cancelled, id ∈ r.cancelled ∨ (call = .op (.cancel id) ∧ id ∈ r.issued)
  scheduled : ∀ sch ∈ r'.last, listed sch ⊆ r'.sched.runningIds

theorem step_entered {r r' : Register F} {call : Call F} (h : Step r call r') :
    Entered r call r' := by
  have hquiet : ∀ {t : Scheduler F}, perform r.sched call = .ok t →
      Entered r call { r with sched := t, last := none } := fun ht =>
    ⟨ht, fun _ hid => .inl hid, fun _ hid => .inl hid, fun _ hsch => by cases hsch⟩
  unfold Step enter at h
  split at h
  · rename_i req
    cases h
    refine ⟨rfl, fun id hid => ?_, fun _ hid => .inl hid, fun _ hsch => by cases hsch⟩
    rcases List.mem_cons.mp hid with rfl | hid
    · exact .inr (Nat.lt_succ_self _)
    · exact .inl hid
  · rename_i order
    obtain ⟨⟨sch, t⟩, hs, rfl⟩ := map_eq_ok.mp h
    refine ⟨map_eq_ok.mpr ⟨_, hs, rfl⟩, fun _ hid => .inl hid, fun _ hid => .inl hid, ?_⟩
    intro sch' hsch
    cases hsch
    exact listed_subset hs
  · rename_i seqId
    obtain ⟨t, ht, rfl⟩ := map_eq_ok.mp h
    refine ⟨ht, fun _ hid => .inl hid, fun id hid => ?_, fun _ hsch => by cases hsch⟩
    by_cases hi : seqId ∈ r.issued
    · rw [if_pos hi] at hid
      rcases List.mem_cons.mp hid with rfl | hid
      · exact .inr ⟨rfl, hi⟩
      · exact .inl hid
    · rw [if_neg hi] at hid
      exact .inl hid
  · obtain ⟨t, ht, rfl⟩ := map_eq_ok.mp h
    exact hquiet ht

theorem registered_step {r r' : Register F} {call : Call F} (h : Registered r)
    (he : Entered r call r') : Registered r' := by
  refine ⟨h.numbered.perform he.performed, fun id hid => ?_⟩
  rcases he.issued id hid with hid | hid
  · exact Nat.lt_of_lt_of_le (h.issued id hid) (line_of_perform he.performed).1
  · exact hid

/-- Who has left the line stays out of it. -/
theorem Gone.step {r r' : Register F} {call : Call F} {id : Nat} (h : Gone r id)
    (he : Entered r call r') : Gone r' id := by
  obtain ⟨hn, hline⟩ := line_of_perform he.performed
  refine ⟨Nat.lt_of_lt_of_le h.issued hn, fun hid => ?_⟩
  rcases hline id hid with hid | hid
  · exact h.notInLine hid
  · exact absurd h.issued (Nat.not_lt.mpr (Nat.le_of_eq hid.symm))

/-- A cancel takes a request that does not wait out of the line. -/
theorem gone_of_cancel {r r' : Register F} {id : Nat} (h : Registered r)
    (he : Entered r (.op (.cancel id)) r') (hi : id ∈ r.issued)
    (hwait : id ∉ waitingIds r.sched) : Gone r' id := by
  obtain ⟨hr, hw⟩ := exec_keepsOrder (show exec r.sched (.cancel id) = .ok r'.sched from he.performed)
  refine ⟨Nat.lt_of_lt_of_le (h.issued id hi) (line_of_perform he.performed).1, fun hid => ?_⟩
  rw [line, hr, hw] at hid
  rcases List.mem_append.mp hid with hid | hid
  · exact h.numbered.running.not_mem_erase hid
  · exact hwait hid

/-- A cancel of a waiting request changes nothing. -/
theorem cancel_waiting {s : Scheduler F} {id : Nat} (h : Numbered s) (hid : id ∈ waitingIds s) :
    s.cancel id = .ok s := by
  have hnone : s.running.find? (fun r => r.seq.id == id) = none := by
    refine List.find?_eq_none.mpr fun r hr hrid => ?_
    obtain ⟨req, hreq, he⟩ := List.mem_map.mp hid
    exact h.running_not_waiting hr hreq ((beq_iff_eq.mp hrid).trans he.symm)
  rw [Scheduler.cancel, hnone]

/-! ## Whole runs -/

/-- Once cancelled outside the queue, an id is out of line. -/
structure Settled (id : Nat) (r : Register F) : Prop where
  registered : Registered r
  gone : id ∈ r.cancelled → Gone r id
  absent : id ∈ r.cancelled → Absent r id

theorem settled_new (id : Nat) (config : SchedulerConfig) (pool : KvBlockPool) :
    Settled (F := F) id (.new config pool) :=
  ⟨⟨.new config pool, fun _ h => by cases h⟩, (fun h => by cases h), fun h => by cases h⟩

theorem settled_step {id : Nat} {r r' : Register F} {call : Call F} (h : Settled id r)
    (hstep : Step r call r') (hcall : NotWhileWaiting id r call) : Settled id r' := by
  have he := step_entered hstep
  have hgone : id ∈ r'.cancelled → Gone r' id := by
    intro hid
    rcases he.cancelled id hid with hid | ⟨rfl, hi⟩
    · exact (h.gone hid).step he
    · exact gone_of_cancel h.registered he hi (hcall rfl)
  refine ⟨registered_step h.registered he, hgone, fun hid => ?_⟩
  have hrun : id ∉ r'.sched.runningIds := fun hm =>
    (hgone hid).notInLine (List.mem_append_left _ hm)
  exact ⟨hrun, fun sch hsch hm => hrun (he.scheduled sch hsch hm)⟩

/-- **A cancel outside the queue is final.** In every run of a scheduler's operations
and for every id: if no call cancels the id while its request waits, then from its
cancel on the id is never among the running ones and no schedule lists it. A call
that does cancel it while it waits leaves the scheduler exactly as it was. -/
theorem cancel_final (config : SchedulerConfig) (pool : KvBlockPool) (id : Nat)
    (tr : List (Call F × Register F)) (hrun : Along Step (.new config pool) tr) :
    (Along (fun r call _ => NotWhileWaiting id r call) (.new config pool) tr →
      ∀ r ∈ visited (.new config pool) tr, id ∈ r.cancelled → Absent r id) ∧
    ∀ r ∈ visited (.new config pool) tr, id ∈ waitingIds r.sched →
      r.sched.cancel id = .ok r.sched := by
  constructor
  · intro hcalls r hr
    refine (Along.invariant (I := Settled id) ?_ (settled_new id config pool)
      (hrun.and hcalls) r hr).absent
    exact fun _ _ _ h hq => settled_step h hq.1 hq.2
  · intro r hr hid
    have hreg := Along.invariant (I := Registered) (fun _ _ _ h hq =>
      registered_step h (step_entered hq)) (settled_new id config pool).registered hrun r hr
    exact cancel_waiting hreg.numbered hid

/-- One request is cancelled while it prefills, the next one is served. -/
def cancelledRunning : List (Call Unit) :=
  [.op (.addRequest ⟨0, (List.range 20).map UInt32.ofNat, ⟨9, (), (), 0, []⟩, 0, []⟩),
    .op (.addRequest ⟨0, [7], ⟨9, (), (), 0, []⟩, 0, []⟩), .op (.schedule .listed),
    .op (.cancel 1), .op (.schedule .listed)]

theorem cancel_final_running :
    let config : SchedulerConfig := ⟨4, 16, 64, some 12⟩
    let tr := replay enter (.new config (.new 8)) cancelledRunning
    tr.length = 5 ∧ (final enter (.new config (.new 8)) cancelledRunning).cancelled = [1] ∧
    ∀ r ∈ visited (.new config (.new 8)) tr, 1 ∈ r.cancelled → Absent r 1 := by
  refine ⟨by decide +kernel, by decide +kernel, ?_⟩
  refine (cancel_final _ _ 1 _ (along_replay enter _ _)).1 ?_
  decide +kernel

/-- A client gives up while its request still waits. The next step runs it. -/
def cancelledWaiting : List (Call Unit) :=
  [.op (.addRequest ⟨0, [7], ⟨9, (), (), 0, []⟩, 0, []⟩), .op (.cancel 1), .op (.schedule .listed)]

theorem cancelled_request_runs :
    Along Step (.new .default (.new 8)) (replay enter (.new .default (.new 8)) cancelledWaiting) ∧
    (replay enter (.new .default (.new 8)) cancelledWaiting).length = 3 ∧
    ∃ r ∈ visited (.new .default (.new 8)) (replay enter (.new .default (.new 8)) cancelledWaiting),
      1 ∈ r.cancelled ∧ r.sched.runningIds = [1] ∧ ∃ sch ∈ r.last, listed sch = [1] := by
  refine ⟨along_replay enter _ _, by decide +kernel, final enter _ cancelledWaiting,
    final_mem_visited enter _ _, by decide +kernel, by decide +kernel, ?_⟩
  exact ⟨⟨[⟨1, [7], 0⟩], [], false⟩, by decide +kernel, by decide +kernel⟩

end JustApi.Inference.CancelFinality
