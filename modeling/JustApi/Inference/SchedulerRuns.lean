import JustApi.Inference.SchedulerLedger

/-! # Calls of the scheduler on a kept ledger

The conditions a call meets are conditions on the states its loops go through:
`cacheCalls` are the calls of `cacheCompleted` it makes, `admitTurns` the turns of
the admission loop. Under them a call keeps the ledger, and it panics only where a
turn reuses a block that a live sequence references. -/
namespace JustApi.Inference.SchedulerRuns
open JustApi.Lib.Result JustApi.Inference.KvCache JustApi.Inference.RadixCache
open JustApi.Inference.RadixWalks JustApi.Inference.BlockLedger
open JustApi.Inference.Scheduling JustApi.Inference.Scheduling.Scheduler
open JustApi.Inference.SchedulerLedger

variable {F : Type} {s t : Scheduler F} {exact : Prop} {order : HashOrder}

def holder (r : RunningSeq F) : Holder := (r.prompt, r.seq.blocks)

/-- The ledger is kept for the running batch, and no request in the queue brings a
hint of its own. -/
structure Healthy (exact : Prop) (s : Scheduler F) : Prop where
  books : Books exact s (s.running.map holder)
  unhinted : ∀ req ∈ s.waitQueue, req.cachedBlocks = []

/-! ## Turns of the admission loop -/

/-- The request the next turn takes off the queue. -/
def candidate (s : Scheduler F) : Option (NewRequest F) :=
  match s.waitQueue with
  | [] => none
  | req :: _ =>
    if s.running.length < s.config.maxNumSeqs ∧
        overBudget s.config req (matchedTokens s.prefixCache req.prompt) = false then some req
    else none

/-- The cached blocks the next turn reuses have no live reference. -/
def ReuseFree (s : Scheduler F) : Prop :=
  ∀ req ∈ candidate s, ∀ b ∈ reusable s req, s.prefixRefs b = 0

/-- The next turn fails to allocate with blocks already in hand. -/
def strandsBlocks (s : Scheduler F) (order : HashOrder) : Bool :=
  match candidate s, s.waitQueue with
  | some req, _ :: rest =>
    match s.cachedPrefix req with
    | .ok ((cachedBlocks, cachedTokens), s) =>
      match gather { s with waitQueue := rest } order req cachedBlocks cachedTokens with
      | .ok (false, seq, _) => !seq.blocks.isEmpty
      | _ => false
    | .error _ => false
  | _, _ => false

/-- With no candidate a turn only stops. -/
theorem Healthy.admitNext_none (h : Healthy exact s) (order : HashOrder)
    (hc : candidate s = none) :
    ∃ blocked t, s.admitNext order = .ok (.stop blocked, t) ∧ Healthy exact t := by
  unfold Scheduler.admitNext
  by_cases hlen : s.running.length < s.config.maxNumSeqs
  · rw [if_pos hlen]
    cases hq : s.waitQueue with
    | nil => exact ⟨false, s, rfl, h⟩
    | cons req rest =>
      have hover : overBudget s.config req (matchedTokens s.prefixCache req.prompt) = true := by
        simpa [candidate, hq, hlen] using hc
      obtain ⟨c, hp, hb, -⟩ := h.books.cachedPrefix (h.unhinted req (hq ▸ List.mem_cons_self))
      refine ⟨true, { s with prefixCache := c }, ?_, hb, h.unhinted⟩
      simp only [hp, ok_bind, hover, if_true]
      rfl
  · exact ⟨false, s, by rw [if_neg hlen], h⟩

/-- The end of a turn, once the blocks of the request have been looked for. -/
def finishTurn (req : NewRequest F) (cachedN : Nat) (r : Bool × Sequence × Scheduler F) :
    Turn × Scheduler F :=
  if r.1 then (.admitted req.id cachedN,
    { r.2.2 with running := r.2.2.running ++ [start req r.2.1 cachedN] })
  else (.stop true, { r.2.2 with waitQueue := req :: r.2.2.waitQueue })

/-- With a candidate a turn looks for its blocks, on the ledger it found. -/
theorem Healthy.admitNext_some {req : NewRequest F} (h : Healthy exact s) (order : HashOrder)
    (hc : candidate s = some req) : ∃ c rest, s.waitQueue = req :: rest ∧
      Books exact { s with prefixCache := c, waitQueue := rest } (s.running.map holder) ∧
      s.admitNext order = (gather { s with prefixCache := c, waitQueue := rest } order req
        (reusable s req) (matchedTokens s.prefixCache req.prompt)).map
          (finishTurn req (reusable s req).length) ∧
      s.cachedPrefix req = .ok ((reusable s req, matchedTokens s.prefixCache req.prompt),
        { s with prefixCache := c }) ∧
      OnPath (RadixEntries.entries c.root) req.prompt (reusable s req) := by
  unfold candidate at hc
  split at hc
  · cases hc
  rename_i req' rest hq
  split at hc
  · rename_i hcond
    cases hc
    obtain ⟨hlen, hover⟩ := hcond
    obtain ⟨c, hp, hb, hperm, hpath⟩ := h.books.cachedPrefix (h.unhinted req (hq ▸ List.mem_cons_self))
    refine ⟨c, rest, hq, ⟨hb.aligned, hb.kept⟩, ?_, hp,
      fun j b hj => ⟨(hpath j b hj).1, hperm.mem_iff.mpr (hpath j b hj).2⟩⟩
    unfold Scheduler.admitNext
    simp only [hlen, if_true, hq, hp, ok_bind, hover, if_false, Bool.false_eq_true]
    cases hg : gather { s with prefixCache := c, waitQueue := rest } order req (reusable s req)
        (matchedTokens s.prefixCache req.prompt) with
    | error e => rfl
    | ok r =>
      obtain ⟨ok, seq, u⟩ := r
      cases ok <;> rfl
  · cases hc

/-- A turn succeeds exactly when it reuses no referenced block, and keeps the
ledger. -/
theorem Healthy.admitNext (h : Healthy exact s)
    (hok : (∃ r, s.admitNext order = .ok r) ∨ ReuseFree s)
    (hlose : exact → strandsBlocks s order = false) :
    ReuseFree s ∧ ∃ turn t, s.admitNext order = .ok (turn, t) ∧ Healthy exact t := by
  cases hc : candidate s with
  | none =>
    obtain ⟨blocked, t, ht, hh⟩ := h.admitNext_none order hc
    exact ⟨by simp [ReuseFree, hc], .stop blocked, t, ht, hh⟩
  | some req =>
    obtain ⟨c, rest, hq, hb, heq, hp, hpath⟩ := h.admitNext_some order hc
    have hzero : ∀ b ∈ reusable s req, s.prefixRefs b = 0 := by
      rcases hok with ⟨r, hr⟩ | hfree
      · rw [heq] at hr
        obtain ⟨_, hg, -⟩ := map_eq_ok.mp hr
        obtain ⟨⟨_, _⟩, hu, -⟩ := bind_eq_ok.mp hg
        intro b hbm
        have htree := hb.kept.owned.tree b (OnPath.mem hpath hbm)
        exact htree.2.2.symm.trans (refCount_of_reused hu b hbm)
      · exact hfree req hc
    refine ⟨fun req' hreq' => ?_, ?_⟩
    · rw [hc] at hreq'
      cases hreq'
      exact hzero
    obtain ⟨ok, seq, u, hg, hu⟩ := hb.gather order _ hpath hzero
    obtain ⟨hf, -⟩ := gather_frame hg
    have hrun : u.running = s.running := hf.running
    have hrest : u.waitQueue = rest := hf.waitQueue
    rw [heq, hg]
    cases ok with
    | true =>
      refine ⟨.admitted req.id (reusable s req).length,
        { u with running := u.running ++ [start req seq (reusable s req).length] }, rfl,
        ⟨hu.aligned, ?_⟩, fun req' hreq' => ?_⟩
      · rw [hrun, List.map_append]
        exact hu.kept.permHolders (List.perm_append_singleton _ _)
      · rw [hrest] at hreq'
        exact h.unhinted req' (hq ▸ List.mem_cons_of_mem _ hreq')
    | false =>
      have hempty : exact → seq.blocks = [] := by
        intro hx
        have hst := hlose hx
        simp only [strandsBlocks, hc, hq, hp, hg] at hst
        simpa using hst
      refine ⟨.stop true, { u with waitQueue := req :: u.waitQueue }, rfl,
        ⟨hu.aligned, ?_⟩, fun req' hreq' => ?_⟩
      · rw [hrun]
        exact hu.kept.forget hempty
      · rw [hrest] at hreq'
        exact h.unhinted req' (hq ▸ hreq')

/-- The states in which the admission loop starts its turns. -/
def turns (order : HashOrder) : Nat → Scheduler F → List (Scheduler F)
  | 0, _ => []
  | fuel + 1, s =>
    s :: match s.admitNext order with
      | .ok (.admitted _ _, t) => turns order fuel t
      | _ => []

theorem Healthy.admitLoop {fuel : Nat} (h : Healthy exact s)
    (hok : (∃ r, admitLoop order fuel s = .ok r) ∨ ∀ u ∈ turns order fuel s, ReuseFree u)
    (hlose : exact → ∀ u ∈ turns order fuel s, strandsBlocks u order = false) :
    (∀ u ∈ turns order fuel s, ReuseFree u) ∧
      ∃ r t, admitLoop order fuel s = .ok (r, t) ∧ Healthy exact t := by
  induction fuel generalizing s with
  | zero => exact ⟨fun _ hu => (nomatch hu), _, s, rfl, h⟩
  | succ fuel ih =>
    have hok₁ : (∃ r, s.admitNext order = .ok r) ∨ ReuseFree s := by
      rcases hok with ⟨r, hr⟩ | hfree
      · simp only [Scheduler.admitLoop] at hr
        split at hr
        · cases hr
        · exact .inl ⟨_, ‹_›⟩
        · exact .inl ⟨_, ‹_›⟩
      · exact .inr (hfree s List.mem_cons_self)
    obtain ⟨hfree, turn, t, hn, ht⟩ :=
      h.admitNext hok₁ fun hx => hlose hx s List.mem_cons_self
    simp only [Scheduler.admitLoop, turns, hn] at hok hlose ⊢
    cases turn with
    | stop blocked => exact ⟨by simpa using hfree, _, t, rfl, ht⟩
    | admitted id n =>
      obtain ⟨hrest, ⟨adm, blocked⟩, u, hl, hu⟩ := ih ht (by
        rcases hok with ⟨r, hr⟩ | hfree'
        · obtain ⟨x, hx, -⟩ := bind_eq_ok.mp hr
          exact .inl ⟨x, hx⟩
        · exact .inr fun u hu => hfree' u (List.mem_cons_of_mem _ hu))
        fun hx u hu => hlose hx u (List.mem_cons_of_mem _ hu)
      refine ⟨fun v hv => ?_, ((id, n) :: adm, blocked), u, by simp only [hl, ok_bind]; rfl, hu⟩
      rcases List.mem_cons.mp hv with rfl | hv
      · exact hfree
      · exact hrest v hv

/-! ## Calls -/

/-- The calls of `cacheCompleted` a call makes, each with its state. -/
def cacheCalls (s : Scheduler F) : Op F → List (Scheduler F × RunningSeq F)
  | .schedule _ => trail cacheSeq s.withoutFinished (s.running.filter (finished s.config))
  | .cancel seqId => ((s.running.find? fun r => r.seq.id == seqId).map fun r => (s, r)).toList
  | .addRequest _ | .onStepComplete _ _ => []

/-- The turns of the admission loop a call makes, each with its state. -/
def admitTurns (s : Scheduler F) : Op F → List (Scheduler F × HashOrder)
  | .schedule order =>
    match s.retire with
    | .ok u => (turns order (u.waitQueue.length + 1) u).map fun v => (v, order)
    | .error _ => []
  | .cancel _ | .addRequest _ | .onStepComplete _ _ => []

/-- Every sequence a call caches follows the tree to a block boundary. -/
def CachesAtBoundary (s : Scheduler F) (op : Op F) : Prop :=
  ∀ x ∈ cacheCalls s op, AtBoundary x.1 x.2.prompt x.2.seq.blocks

/-- Every admission of a call reuses cached blocks without live references. -/
def ReusesUnreferenced (s : Scheduler F) (op : Op F) : Prop :=
  ∀ x ∈ admitTurns s op, ReuseFree x.1

/-- No sequence leaves blocks behind, neither one that is cached nor one that could
not be admitted. -/
def LosesNothing (s : Scheduler F) (op : Op F) : Prop :=
  (∀ x ∈ cacheCalls s op, LeavesClean x.1 x.2.prompt x.2.seq.blocks) ∧
    ∀ x ∈ admitTurns s op, strandsBlocks x.1 x.2 = false

theorem Healthy.retire (h : Healthy exact s)
    (hb : ∀ x ∈ trail cacheSeq s.withoutFinished (s.running.filter (finished s.config)),
      AtBoundary x.1 x.2.prompt x.2.seq.blocks)
    (hlose : exact → ∀ x ∈ trail cacheSeq s.withoutFinished (s.running.filter (finished s.config)),
      LeavesClean x.1 x.2.prompt x.2.seq.blocks) :
    ∃ t, s.retire = .ok t ∧ Healthy exact t := by
  have hstart : Books exact s.withoutFinished
      ((s.running.filter (finished s.config)).map holder ++ s.withoutFinished.running.map holder) := by
    refine ⟨h.books.aligned, h.books.kept.permHolders ?_⟩
    rw [← List.map_append]
    exact (List.filter_append_perm _ _).map holder
  obtain ⟨t, ht, hbooks⟩ := foldlM_succeeds
    (I := fun rest u => Books exact u (rest.map holder ++ s.withoutFinished.running.map holder))
    (C := fun u r => AtBoundary u r.prompt r.seq.blocks ∧
      (exact → LeavesClean u r.prompt r.seq.blocks))
    (fun u r rest hu hc => hu.cacheCompleted hc.1 hc.2) hstart
    (fun x hx => ⟨hb x hx, fun he => hlose he x hx⟩)
  have hf := retire_frame ht
  refine ⟨t, ht, ?_, ?_⟩
  · rw [hf.running]
    exact hbooks
  · rw [hf.waitQueue]
    exact h.unhinted

theorem perm_cons_eraseP {α : Type} {p : α → Bool} {as : List α} {a : α} (h : as.find? p = some a) :
    as.Perm (a :: as.eraseP p) := by
  induction as with
  | nil => cases h
  | cons b rest ih =>
    cases hb : p b with
    | true =>
      rw [List.find?_cons_of_pos hb] at h
      cases h
      rw [List.eraseP_cons_of_pos hb]
    | false =>
      rw [List.find?_cons_of_neg (by simp [hb])] at h
      rw [List.eraseP_cons_of_neg (by simp [hb])]
      exact ((ih h).cons b).trans (.swap a b _)

theorem Healthy.cancel {seqId : Nat} (h : Healthy exact s)
    (hb : CachesAtBoundary s (.cancel seqId))
    (hlose : exact → ∀ x ∈ cacheCalls s (.cancel seqId), LeavesClean x.1 x.2.prompt x.2.seq.blocks) :
    ∃ t, s.cancel seqId = .ok t ∧ Healthy exact t := by
  unfold Scheduler.cancel
  cases hr : s.running.find? fun r => r.seq.id == seqId with
  | none => exact ⟨s, rfl, h⟩
  | some r =>
    have hx : (s, r) ∈ cacheCalls s (.cancel seqId) := by simp [cacheCalls, hr]
    have hbound : AtBoundary s r.prompt r.seq.blocks := hb (s, r) hx
    have hclean : exact → LeavesClean s r.prompt r.seq.blocks := fun he => hlose he (s, r) hx
    have hperm : (holder r :: (s.running.eraseP fun r => r.seq.id == seqId).map holder).Perm
        (s.running.map holder) := by
      rw [← List.map_cons]
      exact (perm_cons_eraseP hr).symm.map holder
    have hbooks : Books exact { s with running := s.running.eraseP fun r => r.seq.id == seqId }
        (holder r :: (s.running.eraseP fun r => r.seq.id == seqId).map holder) :=
      ⟨h.books.aligned, h.books.kept.permHolders hperm⟩
    obtain ⟨t, ht, hbt⟩ := hbooks.cacheCompleted hbound hclean
    have hf := cacheCompleted_frame ht
    refine ⟨t, ht, ?_, ?_⟩
    · rw [hf.running]
      exact hbt
    · rw [hf.waitQueue]
      exact h.unhinted

/-- A call succeeds exactly when its admissions reuse no referenced block, and
keeps the ledger. -/
theorem Healthy.exec {op : Op F} (h : Healthy exact s) (hu : op.Unhinted)
    (hb : CachesAtBoundary s op)
    (hok : (∃ t, Scheduling.exec s op = .ok t) ∨ ReusesUnreferenced s op)
    (hlose : exact → LosesNothing s op) :
    ReusesUnreferenced s op ∧ ∃ t, Scheduling.exec s op = .ok t ∧ Healthy exact t := by
  cases op with
  | addRequest req =>
    refine ⟨fun _ hx => (nomatch hx), _, rfl, ⟨h.books.aligned, h.books.kept⟩, ?_⟩
    intro req' hreq'
    rcases List.mem_append.mp hreq' with hreq' | hreq'
    · exact h.unhinted req' hreq'
    · rw [List.mem_singleton.mp hreq']
      exact hu
  | onStepComplete seqId n =>
    refine ⟨fun _ hx => (nomatch hx), _, rfl, ?_⟩
    have hmap := onStepComplete_running s seqId n (g := holder) fun _ _ => rfl
    rw [onStepComplete_eq s seqId n]
    exact ⟨⟨h.books.aligned, by rw [hmap]; exact h.books.kept⟩, h.unhinted⟩
  | cancel seqId =>
    obtain ⟨t, ht, hh⟩ := h.cancel hb fun hx => (hlose hx).1
    exact ⟨fun _ hx => (nomatch hx), t, ht, hh⟩
  | schedule order =>
    obtain ⟨u, hr, hh⟩ := h.retire hb fun hx => (hlose hx).1
    have hturns : admitTurns s (.schedule order) =
        (turns order (u.waitQueue.length + 1) u).map fun v => (v, order) := by
      simp [admitTurns, hr]
    have hloop : (∃ r, Scheduler.admitLoop order (u.waitQueue.length + 1) u = .ok r) ∨
        ∀ w ∈ turns order (u.waitQueue.length + 1) u, ReuseFree w := by
      rcases hok with ⟨t, ht⟩ | hfree
      · obtain ⟨_, hs, -⟩ := map_eq_ok.mp ht
        obtain ⟨_, hs, -⟩ := map_eq_ok.mp hs
        simp only [Scheduler.scheduleStep, hr, ok_bind] at hs
        obtain ⟨x, hx, -⟩ := bind_eq_ok.mp hs
        exact .inl ⟨x, hx⟩
      · exact .inr fun w hw => hfree (w, order) (by rw [hturns]; exact List.mem_map_of_mem hw)
    obtain ⟨hfree, ⟨adm, blocked⟩, v, hl, hv⟩ := hh.admitLoop hloop
      fun hx w hw => (hlose hx).2 (w, order) (by rw [hturns]; exact List.mem_map_of_mem hw)
    have hexec : Scheduling.exec s (.schedule order) = .ok (v.buildSchedule blocked).2 := by
      simp only [Scheduling.exec, Scheduler.schedule, Scheduler.scheduleStep, hr, hl, ok_bind]
      rfl
    refine ⟨?_, _, hexec, ?_⟩
    · intro x hx
      rw [hturns] at hx
      obtain ⟨w, hw, rfl⟩ := List.mem_map.mp hx
      exact hfree w hw
    · have hf : Fills v.running (v.buildSchedule blocked).1.prefill
          (v.buildSchedule blocked).2.running := fillPrefill_fills v.config _ v.running
      have hmap := hf.map_eq (g := holder) fun _ _ _ => rfl
      exact ⟨⟨hv.books.aligned, by rw [hmap]; exact hv.books.kept⟩, hv.unhinted⟩

end JustApi.Inference.SchedulerRuns
