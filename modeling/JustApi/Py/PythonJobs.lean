import JustApi.Lib.Tables
import JustApi.Py.GilPool

/-! # Jobs of the pool

Every job that entered a channel is in one place: it has been run, is being run, or waits
in the channel, and each worker runs its jobs in the order they came. -/
namespace JustApi.Py.GilPool
open JustApi.Lib.Run JustApi.Lib.Channels JustApi.Lib.Tables

variable {V : Type} {setup : Setup} {w w' : World V} {event : Event V}

/-! ## What a step can do -/

/-- The steps, each with its guard. -/
inductive Move (setup : Setup) (w : World V) : Event V → World V → Prop
  | init : Move setup w .init { w with pool := some (w.ensurePool setup), poolPid := w.pid }
  | call : Move setup w .call { w with
      pool := some { w.ensurePool setup with next := (w.ensurePool setup).dispatch.2 }
      poolPid := w.pid
      callers := w.callers ++ [⟨(w.ensurePool setup).dispatch.1, .sending⟩] }
  | send {i k : Nat} {p : Pool} {worker : Worker} : w.callers[i]? = some ⟨k, .sending⟩ →
      w.pool = some p → p.workers[k]? = some worker →
      worker.channel.queue.length < p.capacity →
      Move setup w (.send i) { w.setPhase i .waiting with
        pool := some (p.setWorker k { worker with channel := worker.channel.send i }) }
  | drop {i : Nat} {c : Caller V} : w.callers[i]? = some c →
      c.phase = .sending ∨ c.phase = .waiting → Move setup w (.drop i) (w.setPhase i .dropped)
  | take {k i : Nat} {p : Pool} {channel channel' : Channel Nat} : w.pool = some p →
      p.home = w.pid → p.workers[k]? = some ⟨channel, none⟩ →
      channel.recv? = some (i, channel') →
      Move setup w (.take k) { w with pool := some (p.setWorker k ⟨channel', some i⟩) }
  | finish {k i : Nat} {p : Pool} {channel : Channel Nat} (resp : V) : w.pool = some p →
      p.home = w.pid → p.workers[k]? = some ⟨channel, some i⟩ →
      Move setup w (.finish k resp) { w with
        pool := some (p.setWorker k ⟨channel, none⟩)
        callers := w.callers.modify i (Caller.answer resp)
        ran := w.ran ++ [(k, i, resp)] }
  | fork (pid : Nat) : Move setup w (.fork pid) { w with pid, callers := [], ran := [] }

theorem World.running_eq_some {p : Pool} (h : w.running = some p) :
    w.pool = some p ∧ p.home = w.pid := by
  simpa using Option.filter_eq_some_iff.mp h

theorem exec_move (h : exec setup w event = .ok w') : Move setup w event w' := by
  unfold exec at h
  cases event with
  | init =>
    cases h
    exact .init
  | call =>
    cases h
    exact .call
  | send i =>
    dsimp only at h
    split at h
    · rename_i k p hi hp
      split at h
      · rename_i worker hk
        split at h
        · rename_i hroom
          cases h
          exact .send hi hp hk hroom
        · cases h
      · cases h
    · cases h
  | drop i =>
    dsimp only at h
    split at h
    · rename_i hi
      cases h
      exact .drop hi (.inl rfl)
    · rename_i hi
      cases h
      exact .drop hi (.inr rfl)
    · cases h
  | take k =>
    dsimp only at h
    split at h
    · rename_i p hp
      obtain ⟨hp, hhome⟩ := World.running_eq_some hp
      split at h
      · rename_i channel hk
        split at h
        · rename_i i channel' hrecv
          cases h
          exact .take hp hhome hk hrecv
        · cases h
      · cases h
    · cases h
  | finish k resp =>
    dsimp only at h
    split at h
    · rename_i p hp
      obtain ⟨hp, hhome⟩ := World.running_eq_some hp
      split at h
      · rename_i hk
        cases h
        exact .finish resp hp hhome hk
      · cases h
    · cases h
  | fork pid =>
    cases h
    exact .fork pid

/-! ## Workers and callers -/

/-- The calls whose jobs a worker has run. -/
def ranBy (ran : List (Nat × Nat × V)) (k : Nat) : List Nat :=
  (ran.filter (·.1 = k)).map (·.2.1)

theorem mem_ranBy {ran : List (Nat × Nat × V)} {k i : Nat} :
    i ∈ ranBy ran k ↔ ∃ v, (k, i, v) ∈ ran := by
  simp [ranBy]

theorem ranBy_concat_self (ran : List (Nat × Nat × V)) (k i : Nat) (v : V) :
    ranBy (ran ++ [(k, i, v)]) k = ranBy ran k ++ [i] := by
  simp [ranBy]

theorem ranBy_concat_ne (ran : List (Nat × Nat × V)) {j k : Nat} (h : k ≠ j) (i : Nat) (v : V) :
    ranBy (ran ++ [(k, i, v)]) j = ranBy ran j := by
  simp [ranBy, h]

/-- The records of a worker. -/
structure Staffed (callers : List (Caller V)) (ran : List (Nat × Nat × V)) (capacity k : Nat)
    (worker : Worker) : Prop where
  left : worker.channel.left = ranBy ran k ++ worker.running.toList
  nodup : worker.channel.entered.Nodup
  room : worker.channel.queue.length ≤ capacity
  entered : ∀ i ∈ worker.channel.entered, ∃ c, callers[i]? = some c ∧ c.worker = k ∧
    c.phase ≠ .sending

/-- Where the job of a call is. -/
structure Placed (ran : List (Nat × Nat × V)) (p : Pool) (i : Nat) (c : Caller V) : Prop where
  worker : c.worker < p.workers.length
  waiting : c.phase = .waiting → i ∉ ranBy ran c.worker ∧
    ∃ worker, p.workers[c.worker]? = some worker ∧ i ∈ worker.channel.entered
  returned : ∀ v, c.phase = .returned v → (c.worker, i, v) ∈ ran

/-- A pool whose threads run in this process. -/
structure Serving (setup : Setup) (callers : List (Caller V)) (ran : List (Nat × Nat × V))
    (p : Pool) : Prop where
  size : p.workers.length = defaultPoolSize setup
  workers : ∀ k worker, p.workers[k]? = some worker → Staffed callers ran p.capacity k worker
  callers : ∀ i c, callers[i]? = some c → Placed ran p i c
  once : (ran.map (·.2.1)).Nodup
  inRange : ∀ r ∈ ran, r.1 < p.workers.length

theorem Pool.getElem?_setWorker {p : Pool} {k : Nat} {old : Worker}
    (hk : p.workers[k]? = some old) (new : Worker) (j : Nat) :
    (p.setWorker k new).workers[j]? = if k = j then some new else p.workers[j]? := by
  exact getElem?_set hk

@[simp] theorem Pool.length_setWorker (p : Pool) (k : Nat) (worker : Worker) :
    (p.setWorker k worker).workers.length = p.workers.length := by
  simp [Pool.setWorker]

@[simp] theorem Pool.capacity_setWorker (p : Pool) (k : Nat) (worker : Worker) :
    (p.setWorker k worker).capacity = p.capacity := by
  simp [Pool.capacity]

@[simp] theorem Pool.home_setWorker (p : Pool) (k : Nat) (worker : Worker) :
    (p.setWorker k worker).home = p.home := rfl

theorem Pool.dispatch_lt {p : Pool} (h : 0 < p.workers.length) :
    p.dispatch.1 < p.workers.length := by
  unfold Pool.dispatch
  split
  · exact h
  · exact Nat.mod_lt _ h

/-- A change of the calls that no worker notices. -/
theorem Staffed.callers {callers callers' : List (Caller V)} {ran : List (Nat × Nat × V)}
    {capacity k : Nat} {worker : Worker} (h : Staffed callers ran capacity k worker)
    (hkept : ∀ (i : Nat) (c : Caller V), callers[i]? = some c → c.phase ≠ .sending →
      ∃ c', callers'[i]? = some c' ∧ c'.worker = c.worker ∧ c'.phase ≠ .sending) :
    Staffed callers' ran capacity k worker := by
  refine ⟨h.left, h.nodup, h.room, fun i hi => ?_⟩
  obtain ⟨c, hc, hk, hsent⟩ := h.entered i hi
  obtain ⟨c', hc', hk', hsent'⟩ := hkept i c hc hsent
  exact ⟨c', hc', hk'.trans hk, hsent'⟩

/-- A change of a worker that the calls do not notice. -/
theorem Placed.setWorker {ran : List (Nat × Nat × V)} {p : Pool} {i k : Nat} {c : Caller V}
    {old : Worker} (h : Placed ran p i c) (new : Worker) (hk : p.workers[k]? = some old)
    (hsub : old.channel.entered ⊆ new.channel.entered) :
    Placed ran (p.setWorker k new) i c := by
  refine ⟨by simpa using h.worker, fun hwait => ?_, h.returned⟩
  obtain ⟨hran, worker, hworker, hi⟩ := h.waiting hwait
  refine ⟨hran, ?_⟩
  rw [Pool.getElem?_setWorker hk]
  split
  · rename_i heq
    rw [← heq, hk] at hworker
    cases hworker
    exact ⟨new, rfl, hsub hi⟩
  · exact ⟨worker, hworker, hi⟩

theorem Placed.modify {ran ran' : List (Nat × Nat × V)} {p : Pool} {i : Nat} {c : Caller V}
    (h : Placed ran p i c) (hby : i ∉ ranBy ran c.worker → i ∉ ranBy ran' c.worker)
    (hsub : ran ⊆ ran') : Placed ran' p i c where
  worker := h.worker
  waiting hwait := ⟨hby (h.waiting hwait).1, (h.waiting hwait).2⟩
  returned v hv := hsub (h.returned v hv)

/-! ## The steps -/

section Steps

variable {callers : List (Caller V)} {ran : List (Nat × Nat × V)} {p : Pool} {i k : Nat}

theorem serving_buildPool (pid : Nat) :
    Serving (V := V) setup [] [] (buildPool setup pid) where
  size := by simp [buildPool]
  workers := by
    intro k worker hk
    obtain rfl : worker = ⟨.empty, none⟩ := by
      simp [buildPool, List.getElem?_replicate] at hk
      exact hk.2.symm
    exact ⟨rfl, by simp, by simp, by simp⟩
  callers := by simp
  once := by simp
  inRange := by simp

theorem Serving.pos (h : Serving setup callers ran p) : 0 < p.workers.length :=
  h.size ▸ defaultPoolSize_pos setup

theorem Serving.call (h : Serving setup callers ran p) (next : Nat) :
    Serving setup (callers ++ [⟨p.dispatch.1, .sending⟩]) ran { p with next } where
  size := h.size
  workers := fun k worker hk => (h.workers k worker hk).callers fun i c hc hsent =>
    ⟨c, getElem?_concat_of_some hc _, rfl, hsent⟩
  callers := by
    intro i c hc
    rcases getElem?_concat.mp hc with hc | ⟨-, rfl⟩
    · exact ⟨(h.callers i c hc).worker, (h.callers i c hc).waiting, (h.callers i c hc).returned⟩
    · refine ⟨p.dispatch_lt h.pos, ?_, ?_⟩
      · intro hwait
        cases hwait
      · intro v hv
        cases hv
  once := h.once
  inRange := h.inRange

/-- A call whose job has not been sent is in no channel. -/
theorem Staffed.not_mem_entered {capacity : Nat} {worker : Worker} {c : Caller V}
    (h : Staffed callers ran capacity k worker) (hc : callers[i]? = some c)
    (hsending : c.phase = .sending) : i ∉ worker.channel.entered := by
  intro hi
  obtain ⟨c', hc', -, hsent⟩ := h.entered i hi
  rw [hc] at hc'
  cases hc'
  exact hsent hsending

theorem Serving.send (h : Serving setup callers ran p) {worker : Worker}
    (hi : callers[i]? = some ⟨k, .sending⟩) (hk : p.workers[k]? = some worker)
    (hroom : worker.channel.queue.length < p.capacity) :
    Serving setup (callers.modify i fun c => { c with phase := .waiting }) ran
      (p.setWorker k { worker with channel := worker.channel.send i }) := by
  have hnew : i ∉ worker.channel.entered := (h.workers k worker hk).not_mem_entered hi rfl
  have hran : i ∉ ranBy ran k := by
    intro hran
    refine hnew (worker.channel.left_prefix.subset ?_)
    rw [(h.workers k worker hk).left]
    exact List.mem_append_left _ hran
  have hkept : ∀ (j : Nat) (c : Caller V), callers[j]? = some c → c.phase ≠ .sending →
      ∃ c', (callers.modify i fun c => { c with phase := .waiting })[j]? = some c' ∧
        c'.worker = c.worker ∧ c'.phase ≠ .sending := by
    intro j c hc hsent
    refine ⟨_, getElem?_modify_of_some hc, ?_⟩
    split <;> simp [hsent]
  refine ⟨by simpa using h.size, ?_, ?_, h.once, by simpa using h.inRange⟩
  · intro j worker' hj
    rw [Pool.getElem?_setWorker hk] at hj
    rw [Pool.capacity_setWorker]
    split at hj
    · rename_i heq
      subst heq
      cases hj
      have hold := (h.workers k worker hk).callers hkept
      refine ⟨by simpa using hold.left, ?_, ?_, ?_⟩
      · simpa [List.nodup_append] using ⟨hold.nodup, fun a ha => ne_of_mem_of_not_mem ha hnew⟩
      · simpa [Nat.succ_le_iff] using hroom
      · intro j hj
        rcases List.mem_append.mp hj with hj | hj
        · exact hold.entered j hj
        · obtain rfl := List.mem_singleton.mp hj
          exact ⟨_, getElem?_modify_of_some hi, by simp, by simp⟩
    · exact (h.workers j worker' hj).callers hkept
  · intro j c' hc'
    obtain ⟨c, hc, rfl⟩ := getElem?_modify.mp hc'
    have hplaced := (h.callers j c hc).setWorker { worker with
      channel := worker.channel.send i } hk (by simp)
    split
    · rename_i heq
      subst heq
      rw [hi] at hc
      cases hc
      refine ⟨hplaced.worker, fun _ => ?_, by simp⟩
      refine ⟨hran, { worker with channel := worker.channel.send i }, ?_, by simp⟩
      exact (Pool.getElem?_setWorker hk _ k).trans (if_pos rfl)
    · exact hplaced

theorem Serving.drop (h : Serving setup callers ran p) (i : Nat) :
    Serving setup (callers.modify i fun c => { c with phase := .dropped }) ran p where
  size := h.size
  workers := fun k worker hk => (h.workers k worker hk).callers fun j c hc hsent => by
    refine ⟨_, getElem?_modify_of_some hc, ?_⟩
    split <;> simp [hsent]
  callers := by
    intro j c' hc'
    obtain ⟨c, hc, rfl⟩ := getElem?_modify.mp hc'
    have hplaced := h.callers j c hc
    split
    · exact ⟨hplaced.worker, by simp, by simp⟩
    · exact hplaced
  once := h.once
  inRange := h.inRange

theorem Serving.take (h : Serving setup callers ran p) {channel channel' : Channel Nat}
    (hk : p.workers[k]? = some ⟨channel, none⟩) (hrecv : channel.recv? = some (i, channel')) :
    Serving setup callers ran (p.setWorker k ⟨channel', some i⟩) := by
  obtain ⟨hqueue, hentered, hleft⟩ := Channel.recv?_eq_some hrecv
  refine ⟨by simpa using h.size, ?_, ?_, h.once, by simpa using h.inRange⟩
  · intro j worker hj
    rw [Pool.getElem?_setWorker hk] at hj
    rw [Pool.capacity_setWorker]
    split at hj
    · rename_i heq
      subst heq
      cases hj
      have hold := h.workers k _ hk
      have hran : channel.left = ranBy ran k := by simpa using hold.left
      refine ⟨?_, hentered ▸ hold.nodup, ?_, hentered ▸ hold.entered⟩
      · simp [hleft, hran]
      · have hroom := hold.room
        rw [hqueue, List.length_cons] at hroom
        exact Nat.le_of_succ_le hroom
    · exact h.workers j worker hj
  · intro j c hc
    exact (h.callers j c hc).setWorker _ hk (by simp [hentered])

theorem Serving.finish (h : Serving setup callers ran p) {channel : Channel Nat}
    (hk : p.workers[k]? = some ⟨channel, some i⟩) (resp : V) :
    Serving setup (callers.modify i (Caller.answer resp)) (ran ++ [(k, i, resp)])
      (p.setWorker k ⟨channel, none⟩) := by
  have hold := h.workers k _ hk
  have hleft : channel.left = ranBy ran k ++ [i] := hold.left
  have hnew : i ∉ ranBy ran k := by
    have hnodup : (ranBy ran k ++ [i]).Nodup :=
      hleft ▸ channel.left_prefix.sublist.nodup hold.nodup
    intro hmem
    exact (List.nodup_append.mp hnodup).2.2 i hmem i List.mem_cons_self rfl
  obtain ⟨caller, hcaller, hck, -⟩ :=
    hold.entered i (channel.left_prefix.subset (by simp [hleft]))
  have honce : ∀ r ∈ ran, r.2.1 ≠ i := by
    rintro ⟨j, i, v⟩ hr rfl
    have hmem : i ∈ ranBy ran j := mem_ranBy.mpr ⟨v, hr⟩
    obtain ⟨worker, hj⟩ : ∃ worker, p.workers[j]? = some worker :=
      ⟨_, List.getElem?_eq_getElem (h.inRange _ hr)⟩
    have hj' := h.workers j worker hj
    obtain ⟨c, hc, hck', -⟩ := hj'.entered i
      (worker.channel.left_prefix.subset (by simp [hj'.left, hmem]))
    rw [hcaller] at hc
    cases hc
    obtain rfl : j = k := hck'.symm.trans hck
    exact hnew hmem
  have hkept : ∀ (j : Nat) (c : Caller V), callers[j]? = some c → c.phase ≠ .sending →
      ∃ c', (callers.modify i (Caller.answer resp))[j]? = some c' ∧
        c'.worker = c.worker ∧ c'.phase ≠ .sending := by
    intro j c hc hsent
    refine ⟨_, getElem?_modify_of_some hc, ?_⟩
    unfold Caller.answer
    split
    · split <;> simp [hsent]
    · exact ⟨rfl, hsent⟩
  refine ⟨by simpa using h.size, ?_, ?_, ?_, ?_⟩
  · intro j worker hj
    rw [Pool.getElem?_setWorker hk] at hj
    rw [Pool.capacity_setWorker]
    split at hj
    · rename_i heq
      subst heq
      cases hj
      have hold' := hold.callers hkept
      refine ⟨?_, hold'.nodup, hold'.room, hold'.entered⟩
      simp [hleft, ranBy_concat_self]
    · rename_i hne
      have hother := (h.workers j worker hj).callers hkept
      exact ⟨by rw [ranBy_concat_ne ran hne]; exact hother.left, hother.nodup, hother.room,
        hother.entered⟩
  · intro j c' hc'
    obtain ⟨c, hc, rfl⟩ := getElem?_modify.mp hc'
    have hplaced := (h.callers j c hc).setWorker ⟨channel, none⟩ hk (by simp)
    split
    · rename_i heq
      subst heq
      unfold Caller.answer
      split
      · refine ⟨hplaced.worker, by simp, fun v hv => ?_⟩
        cases hv
        rw [hc] at hcaller
        cases hcaller
        exact List.mem_append_right _ (by simp [hck])
      · rename_i hnot
        exact ⟨hplaced.worker, fun hwait => absurd hwait hnot,
          fun v hv => List.mem_append_left _ (hplaced.returned v hv)⟩
    · rename_i hne
      refine hplaced.modify ?_ (List.subset_append_left _ _)
      intro hnot hmem
      obtain ⟨v, hv⟩ := mem_ranBy.mp hmem
      rcases List.mem_append.mp hv with hv | hv
      · exact hnot (mem_ranBy.mpr ⟨v, hv⟩)
      · simp at hv
        exact hne hv.2.1.symm
  · rw [List.map_append, List.map_singleton]
    refine List.nodup_append.mpr ⟨h.once, by simp, ?_⟩
    intro j hj i' hi'
    obtain ⟨r, hr, rfl⟩ := List.mem_map.mp hj
    exact List.mem_singleton.mp hi' ▸ honce r hr
  · intro r hr
    rw [Pool.length_setWorker]
    rcases List.mem_append.mp hr with hr | hr
    · exact h.inRange r hr
    · obtain rfl := List.mem_singleton.mp hr
      exact (List.getElem?_eq_some_iff.mp hk).1

end Steps

/-! ## Runs -/

/-- Nothing has been sent to the pool, if there is one: it was left behind by another
process. -/
structure Idle (w : World V) : Prop where
  callers : w.callers = []
  ran : w.ran = []
  pool : ∀ p, w.pool = some p → p.home = w.poolPid ∧ w.poolPid ≠ w.pid

/-- What every reachable state satisfies. -/
inductive Sound (setup : Setup) (w : World V) : Prop
  | idle : Idle w → Sound setup w
  | serving {p : Pool} : w.pool = some p → p.home = w.pid → w.poolPid = w.pid →
      Serving setup w.callers w.ran p → Sound setup w

/-- A child has another number than the process that built the pool. -/
def Event.Fresh (w : World V) : Event V → Prop
  | .fork pid => pid ≠ w.poolPid
  | _ => True

instance (w : World V) (event : Event V) : Decidable (event.Fresh w) :=
  match event with
  | .fork pid => inferInstanceAs (Decidable (pid ≠ w.poolPid))
  | .init | .call | .send _ | .drop _ | .take _ | .finish _ _ => .isTrue trivial

theorem sound_new (pid : Nat) : Sound setup (World.new (V := V) pid) :=
  .idle ⟨rfl, rfl, by simp [World.new]⟩

theorem Idle.not_running (h : Idle w) {p : Pool} (hp : w.pool = some p) : p.home ≠ w.pid := by
  obtain ⟨hhome, hpid⟩ := h.pool p hp
  exact hhome ▸ hpid

/-- The pool that a call finds has its threads in the process of the call. -/
theorem Sound.ensurePool (h : Sound setup w) : (w.ensurePool setup).home = w.pid ∧
    Serving setup w.callers w.ran (w.ensurePool setup) := by
  cases h with
  | idle h =>
    have hbuild : w.ensurePool setup = buildPool setup w.pid := by
      unfold World.ensurePool
      split
      · rename_i p hp
        exact if_neg (h.pool p hp).2
      · rfl
    rw [hbuild, h.callers, h.ran]
    exact ⟨rfl, serving_buildPool w.pid⟩
  | serving hp hhome hpid h =>
    unfold World.ensurePool
    simp only [hp, if_pos hpid]
    exact ⟨hhome, h⟩

theorem Sound.move (h : Sound setup w) (hfork : event.Fresh w) (hmove : Move setup w event w') :
    Sound setup w' := by
  cases hmove with
  | init =>
    obtain ⟨hhome, hserving⟩ := h.ensurePool
    exact .serving rfl hhome rfl hserving
  | call =>
    obtain ⟨hhome, hserving⟩ := h.ensurePool
    exact .serving rfl hhome rfl (hserving.call _)
  | send hi hp hk hroom =>
    cases h with
    | idle h => simp [h.callers] at hi
    | serving hpool hhome hpid h =>
      obtain rfl := Option.some.inj (hp.symm.trans hpool)
      exact .serving rfl hhome hpid (h.send hi hk hroom)
  | drop hi hphase =>
    cases h with
    | idle h => simp [h.callers] at hi
    | serving hpool hhome hpid h => exact .serving hpool hhome hpid (h.drop _)
  | take hp hhome hk hrecv =>
    cases h with
    | idle h => exact absurd hhome (h.not_running hp)
    | serving hpool _ hpid h =>
      obtain rfl := Option.some.inj (hp.symm.trans hpool)
      exact .serving rfl hhome hpid (h.take hk hrecv)
  | finish resp hp hhome hk =>
    cases h with
    | idle h => exact absurd hhome (h.not_running hp)
    | serving hpool _ hpid h =>
      obtain rfl := Option.some.inj (hp.symm.trans hpool)
      exact .serving rfl hhome hpid (h.finish hk resp)
  | fork pid =>
    refine .idle ⟨rfl, rfl, fun p hp => ?_⟩
    have hne : w.poolPid ≠ pid := Ne.symm hfork
    cases h with
    | idle h => exact ⟨(h.pool p hp).1, hne⟩
    | serving hpool hhome hpid =>
      obtain rfl := Option.some.inj (hp.symm.trans hpool)
      exact ⟨hhome.trans hpid.symm, hne⟩

theorem Sound.run {tr : List (Event V × World V)} (hs : Sound setup w)
    (hrun : Along (Step setup) w tr) (hfork : Along (fun w event _ => event.Fresh w) w tr) :
    ∀ w' ∈ visited w tr, Sound setup w' :=
  (hrun.and hfork).invariant (fun _ _ _ h hstep => h.move hstep.2 (exec_move hstep.1)) hs

def oneWorker : Setup := ⟨none, .gilBased, none⟩

/-- Two calls of which the first is dropped, and a call in a child of the process. -/
def forkedCalls : List (Event Nat) :=
  [.init, .call, .call, .send 1, .send 0, .drop 0, .take 0, .finish 0 7, .take 0, .finish 0 8,
    .fork 2, .call, .send 0, .take 0, .finish 0 9]

end JustApi.Py.GilPool
