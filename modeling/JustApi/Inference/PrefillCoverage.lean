import JustApi.Lib.Run
import JustApi.Inference.SchedulerFrame

/-! # Which positions have been computed when a sequence is cached

Runs of the scheduler with a log of the prefill steps it emitted and of the
blocks it restored at each admission. The log covers exactly the positions below
`numPrefilled` of a running sequence, while `cacheCompleted` goes by the length of
the prompt; so what it caches has been computed exactly when the prefill has come
that far. -/
namespace JustApi.Inference.PrefillCoverage
open JustApi.Lib.Run JustApi.Lib.Result JustApi.Inference.KvCache JustApi.Inference.RadixCache
open JustApi.Inference.Scheduling JustApi.Inference.Scheduling.Scheduler

variable {F : Type}

/-- Position `p` of sequence `id` is among the tokens of a prefill step. -/
def Emitted (steps : List PrefillStep) (id p : Nat) : Prop :=
  ∃ st ∈ steps, st.seqId = id ∧ st.computedTokens ≤ p ∧ p < st.computedTokens + st.tokens.length

/-- Position `p` of sequence `id` lies in a block restored at its admission. -/
def Restored (admissions : List (Nat × Nat)) (id p : Nat) : Prop :=
  ∃ a ∈ admissions, a.1 = id ∧ p < a.2 * BLOCK_SIZE

theorem emitted_cons {st : PrefillStep} {steps : List PrefillStep} {id p : Nat} :
    Emitted (st :: steps) id p ↔ (st.seqId = id ∧ st.computedTokens ≤ p ∧
      p < st.computedTokens + st.tokens.length) ∨ Emitted steps id p := by
  simp [Emitted]

theorem emitted_append {steps steps' : List PrefillStep} {id p : Nat} :
    Emitted (steps ++ steps') id p ↔ Emitted steps id p ∨ Emitted steps' id p := by
  simp [Emitted, or_and_right, exists_or]

theorem restored_cons {a : Nat × Nat} {adm : List (Nat × Nat)} {id p : Nat} :
    Restored (a :: adm) id p ↔ (a.1 = id ∧ p < a.2 * BLOCK_SIZE) ∨ Restored adm id p := by
  simp [Restored]

theorem restored_append {adm adm' : List (Nat × Nat)} {id p : Nat} :
    Restored (adm ++ adm') id p ↔ Restored adm id p ∨ Restored adm' id p := by
  simp [Restored, or_and_right, exists_or]

/-- A scheduler with the prefill steps emitted and the blocks restored so far. -/
structure Traced (F : Type) where
  sched : Scheduler F
  emitted : List PrefillStep
  restored : List (Nat × Nat)

namespace Traced

def new (config : SchedulerConfig) (pool : KvBlockPool) : Traced F := ⟨.new config pool, [], []⟩

def Covered (s : Traced F) (id p : Nat) : Prop := Emitted s.emitted id p ∨ Restored s.restored id p

end Traced

def exec (s : Traced F) : Op F → Except Panic (Traced F)
  | .schedule order =>
    (s.sched.scheduleStep order).map fun r =>
      ⟨r.2, r.1.2.prefill ++ s.emitted, r.1.1 ++ s.restored⟩
  | op => (Scheduling.exec s.sched op).map fun t => { s with sched := t }

def Step (s : Traced F) (op : Op F) (t : Traced F) : Prop := op.Unhinted ∧ exec s op = .ok t

instance (s : Traced F) (id p : Nat) : Decidable (s.Covered id p) :=
  inferInstanceAs (Decidable ((∃ st ∈ s.emitted, st.seqId = id ∧ st.computedTokens ≤ p ∧
    p < st.computedTokens + st.tokens.length) ∨
    ∃ a ∈ s.restored, a.1 = id ∧ p < a.2 * BLOCK_SIZE))

/-- The sequences a call passes to `cacheCompleted`. -/
def leaving (s : Scheduler F) : Op F → List (RunningSeq F)
  | .schedule _ => s.running.filter (finished s.config)
  | .cancel seqId => (s.running.find? fun r => r.seq.id == seqId).toList
  | .addRequest _ | .onStepComplete _ _ => []

/-- Every position a call caches was emitted in a prefill step or restored. -/
def CachesComputed (s : Traced F) (op : Op F) : Prop :=
  ∀ r ∈ leaving s.sched op, ∀ p < cacheBlocks r.prompt r.seq.blocks * BLOCK_SIZE,
    s.Covered r.seq.id p

/-- The prefill of every sequence that leaves has come as far as the cache goes. -/
def PrefilledFar (s : Traced F) (op : Op F) : Prop :=
  ∀ r ∈ leaving s.sched op, cacheBlocks r.prompt r.seq.blocks * BLOCK_SIZE ≤ r.numPrefilled

instance (s : Traced F) (op : Op F) : Decidable (CachesComputed s op) :=
  inferInstanceAs (Decidable (∀ r ∈ leaving s.sched op,
    ∀ p < cacheBlocks r.prompt r.seq.blocks * BLOCK_SIZE, s.Covered r.seq.id p))

instance (s : Traced F) (op : Op F) : Decidable (PrefilledFar s op) :=
  inferInstanceAs (Decidable (∀ r ∈ leaving s.sched op,
    cacheBlocks r.prompt r.seq.blocks * BLOCK_SIZE ≤ r.numPrefilled))

/-- The positions covered are those below `numPrefilled`; ids are not shared and
those in the queue are not covered yet. -/
structure Accounted (s : Scheduler F) (cov : Nat → Nat → Prop) : Prop where
  nodup : (s.running.map (fun r => r.seq.id) ++ s.waitQueue.map NewRequest.id).Nodup
  queued : ∀ req ∈ s.waitQueue, req.id < s.nextSeqId ∧ ∀ p, ¬ cov req.id p
  known : ∀ id p, cov id p → id < s.nextSeqId
  running : ∀ r ∈ s.running, r.seq.id < s.nextSeqId ∧ ∀ p, cov r.seq.id p ↔ p < r.numPrefilled

section Steps

variable {s t : Scheduler F} {cov cov' : Nat → Nat → Prop} {order : HashOrder}

theorem Accounted.congr (h : Accounted s cov) (hc : ∀ id p, cov' id p ↔ cov id p) :
    Accounted s cov' := by
  rwa [show cov' = cov from funext fun id => funext fun p => propext (hc id p)]

/-- Fewer running sequences, the rest as it was. -/
theorem Accounted.shrink (h : Accounted s cov) (hsub : t.running.Sublist s.running)
    (hq : t.waitQueue = s.waitQueue) (hn : t.nextSeqId = s.nextSeqId) : Accounted t cov where
  nodup := hq ▸ h.nodup.sublist ((hsub.map _).append_right _)
  queued := by rw [hq, hn]; exact h.queued
  known := hn ▸ h.known
  running r hr := hn ▸ h.running r (hsub.subset hr)

/-- The same ids with other progress. -/
theorem Accounted.advance (h : Accounted s cov)
    (hids : t.running.map (fun r => r.seq.id) = s.running.map fun r => r.seq.id)
    (hq : t.waitQueue = s.waitQueue) (hn : t.nextSeqId = s.nextSeqId)
    (hold : ∀ id p, cov' id p → cov id p ∨ id ∈ s.running.map fun r => r.seq.id)
    (hrun : ∀ r' ∈ t.running, ∀ p, cov' r'.seq.id p ↔ p < r'.numPrefilled) :
    Accounted t cov' := by
  have hlt : ∀ id ∈ s.running.map (fun r => r.seq.id), id < s.nextSeqId := by
    intro id hid
    obtain ⟨r, hr, rfl⟩ := List.mem_map.mp hid
    exact (h.running r hr).1
  refine ⟨by rw [hids, hq]; exact h.nodup, ?_, ?_, ?_⟩
  · rw [hq, hn]
    intro req hreq
    refine ⟨(h.queued req hreq).1, fun p hp => ?_⟩
    rcases hold req.id p hp with hp | hp
    · exact (h.queued req hreq).2 p hp
    · exact (List.disjoint_of_nodup_append h.nodup) hp (List.mem_map_of_mem hreq)
  · intro id p hp
    rw [hn]
    exact (hold id p hp).elim (h.known id p) (hlt id)
  · intro r' hr'
    refine ⟨?_, hrun r' hr'⟩
    rw [hn]
    exact hlt _ (hids ▸ List.mem_map_of_mem hr')

/-- A request joins the batch with the positions of its restored blocks covered. -/
theorem Accounted.admitted {req : NewRequest F} {rest : List (NewRequest F)} {seq : Sequence}
    {n : Nat} (h : Accounted s cov) (hq : s.waitQueue = req :: rest) (hid : seq.id = req.id)
    (hn : t.nextSeqId = s.nextSeqId) (htq : t.waitQueue = rest)
    (htr : t.running = s.running ++ [start req seq n]) :
    Accounted t (fun id p => cov id p ∨ (id = req.id ∧ p < n * BLOCK_SIZE)) := by
  have hnd := h.nodup
  rw [hq, List.map_cons] at hnd
  have hreq := h.queued req (hq ▸ List.mem_cons_self)
  obtain ⟨-, hrest, hdisj⟩ := List.nodup_append'.mp hnd
  rw [List.nodup_cons] at hrest
  refine ⟨?_, ?_, ?_, ?_⟩
  · rw [htr, htq, List.map_append, List.append_assoc]
    simpa [start, hid] using hnd
  · rw [htq, hn]
    intro req' hreq'
    have hold := h.queued req' (hq ▸ List.mem_cons_of_mem _ hreq')
    refine ⟨hold.1, fun p hp => hp.elim (hold.2 p) ?_⟩
    rintro ⟨he, -⟩
    exact hrest.1 (he ▸ List.mem_map_of_mem hreq')
  · intro id p hp
    rw [hn]
    rcases hp with hp | ⟨rfl, -⟩
    · exact h.known id p hp
    · exact hreq.1
  · intro r hr
    rw [htr, List.mem_append, List.mem_singleton] at hr
    rw [hn]
    rcases hr with hr | rfl
    · have hne : r.seq.id ≠ req.id := fun he =>
        hdisj (List.mem_map_of_mem hr) (he ▸ List.mem_cons_self)
      simpa [hne] using h.running r hr
    · simp only [start, hid]
      refine ⟨hreq.1, fun p => ?_⟩
      simp [hreq.2 p]

theorem Accounted.admitLoop {fuel : Nat} {admissions : List (Nat × Nat)} {blocked : Bool}
    (h : Accounted s cov) (hl : admitLoop order fuel s = .ok ((admissions, blocked), t)) :
    Accounted t (fun id p => cov id p ∨ Restored admissions id p) := by
  induction fuel generalizing s cov admissions with
  | zero =>
    cases hl
    exact h.congr fun id p => by simp [Restored]
  | succ fuel ih =>
    simp only [Scheduler.admitLoop] at hl
    split at hl
    · cases hl
    · rename_i hturn
      cases hl
      rcases admitNext_cases hturn with ⟨-, hf⟩ | ⟨_, _, _, _, -, -, he, -⟩
      · refine (h.congr fun id p => ?_).shrink (by rw [hf.running]) hf.waitQueue hf.nextSeqId
        simp [Restored]
      · cases he
    · rename_i seqId n s' hturn
      obtain ⟨⟨⟨rest, blocked'⟩, u⟩, hrest, he⟩ := bind_eq_ok.mp hl
      cases he
      rcases admitNext_cases hturn with ⟨⟨_, he⟩, -⟩ |
        ⟨req, _, seq, _, hq, hid, he, -, hn, htq, htr, -⟩
      · cases he
      · cases he
        refine (ih (h.admitted hq hid hn htq htr) hrest).congr fun id p => ?_
        rw [restored_cons, or_assoc, eq_comm]

/-! ## The prefill loop -/

theorem emitted_id_of_fills {rs rs' : List (RunningSeq F)} {steps : List PrefillStep}
    (h : Fills rs steps rs') {id p : Nat} (he : Emitted steps id p) :
    id ∈ rs.map fun r => r.seq.id := by
  induction h with
  | nil => obtain ⟨st, hst, -⟩ := he; cases hst
  | keep state _ ih => exact List.mem_cons_of_mem _ (ih he)
  | feed _ _ ih =>
    rcases emitted_cons.mp he with ⟨hid, -⟩ | he
    · exact hid ▸ List.mem_cons_self
    · exact List.mem_cons_of_mem _ (ih he)

/-- What the loop emits for a sequence is what its prefill gained. -/
theorem gained_of_fills {rs rs' : List (RunningSeq F)} {steps : List PrefillStep}
    (h : Fills rs steps rs') (hnd : (rs.map fun r => r.seq.id).Nodup) :
    ∀ r' ∈ rs', ∃ r ∈ rs, r'.seq.id = r.seq.id ∧ r.numPrefilled ≤ r'.numPrefilled ∧
      ∀ p, Emitted steps r.seq.id p ↔ r.numPrefilled ≤ p ∧ p < r'.numPrefilled := by
  induction h with
  | nil => exact fun _ hr' => nomatch hr'
  | @keep r rest rest' steps state hrest ih =>
    rw [List.map_cons, List.nodup_cons] at hnd
    intro r' hr'
    rcases List.mem_cons.mp hr' with rfl | hr'
    · refine ⟨r, List.mem_cons_self, rfl, Nat.le_refl _, fun p => ⟨fun hp => ?_, ?_⟩⟩
      · exact absurd (emitted_id_of_fills hrest hp) hnd.1
      · rintro ⟨hle, hlt⟩
        exact absurd (show p < r.numPrefilled from hlt) (by omega)
    · obtain ⟨r₁, hr₁, hspec⟩ := ih hnd.2 r' hr'
      exact ⟨r₁, List.mem_cons_of_mem _ hr₁, hspec⟩
  | @feed r rest rest' steps n hle hrest ih =>
    rw [List.map_cons, List.nodup_cons] at hnd
    intro r' hr'
    rcases List.mem_cons.mp hr' with rfl | hr'
    · refine ⟨r, List.mem_cons_self, rfl, Nat.le_add_right _ _, fun p => ?_⟩
      have hlen : (prefillStep r n).tokens.length = n := by
        simp only [prefillStep, List.length_take, List.length_drop]
        omega
      rw [emitted_cons, hlen]
      constructor
      · rintro (⟨-, hp⟩ | hp)
        · exact hp
        · exact absurd (emitted_id_of_fills hrest hp) hnd.1
      · exact fun hp => .inl ⟨rfl, hp⟩
    · obtain ⟨r₁, hr₁, hid, hnum, hspec⟩ := ih hnd.2 r' hr'
      refine ⟨r₁, List.mem_cons_of_mem _ hr₁, hid, hnum, fun p => ?_⟩
      have hne : r.seq.id ≠ r₁.seq.id := fun he => hnd.1 (he ▸ List.mem_map_of_mem hr₁)
      rw [emitted_cons, ← hspec p]
      exact or_iff_right fun hp => hne hp.1

theorem Accounted.buildSchedule (h : Accounted s cov) (blocked : Bool) :
    Accounted (s.buildSchedule blocked).2
      (fun id p => cov id p ∨ Emitted (s.buildSchedule blocked).1.prefill id p) := by
  have hnd := (List.nodup_append'.mp h.nodup).1
  have hf : Fills s.running (s.buildSchedule blocked).1.prefill (s.buildSchedule blocked).2.running :=
    fillPrefill_fills s.config _ s.running
  refine h.advance (hf.map_eq fun _ _ _ => rfl) rfl rfl ?_ ?_
  · exact fun id p hp => hp.imp_right (emitted_id_of_fills hf)
  · intro r' hr' p
    obtain ⟨r, hr, hid, hle, hemit⟩ := gained_of_fills hf hnd r' hr'
    rw [hid, (h.running r hr).2 p, hemit p]
    omega

end Steps

/-! ## Whole runs -/

theorem accounted_new (config : SchedulerConfig) (pool : KvBlockPool) :
    Accounted (F := F) (.new config pool) (Traced.new (F := F) config pool).Covered where
  nodup := List.nodup_nil
  queued _ h := nomatch h
  known _ _ h := by
    rcases h with ⟨_, h, -⟩ | ⟨_, h, -⟩
    · cases h
    · cases h
  running _ h := nomatch h

theorem accounted_schedule {s t : Traced F} {order : HashOrder} (h : Accounted s.sched s.Covered)
    (hx : exec s (.schedule order) = .ok t) : Accounted t.sched t.Covered := by
  obtain ⟨⟨⟨admissions, sch⟩, u⟩, hs, rfl⟩ := map_eq_ok.mp hx
  obtain ⟨s₁, hr, hs⟩ := bind_eq_ok.mp hs
  obtain ⟨⟨⟨admissions', blocked⟩, s₂⟩, ha, hs⟩ := bind_eq_ok.mp hs
  cases hs
  have hf := retire_frame hr
  have h₁ : Accounted s₁ s.Covered := by
    refine h.shrink ?_ hf.waitQueue hf.nextSeqId
    rw [hf.running]
    exact List.filter_sublist
  refine ((h₁.admitLoop ha).buildSchedule blocked).congr fun id p => ?_
  simp only [Traced.Covered, emitted_append, restored_append]
  tauto

theorem accounted_step {s t : Traced F} {op : Op F} (h : Accounted s.sched s.Covered)
    (hx : exec s op = .ok t) : Accounted t.sched t.Covered := by
  cases op with
  | schedule order => exact accounted_schedule h hx
  | addRequest req =>
    cases hx
    have hnew : ∀ id ∈ s.sched.running.map (fun r => r.seq.id) ++ s.sched.waitQueue.map NewRequest.id,
        id < s.sched.nextSeqId := by
      intro id hid
      rcases List.mem_append.mp hid with hid | hid
      · obtain ⟨r, hr, rfl⟩ := List.mem_map.mp hid
        exact (h.running r hr).1
      · obtain ⟨req', hreq', rfl⟩ := List.mem_map.mp hid
        exact (h.queued req' hreq').1
    refine ⟨?_, ?_, fun id p hp => Nat.lt_succ_of_lt (h.known id p hp), ?_⟩
    · show (s.sched.running.map (fun r => r.seq.id) ++ (s.sched.waitQueue ++ [_]).map _).Nodup
      rw [List.map_append, ← List.append_assoc]
      refine List.nodup_append'.mpr ⟨h.nodup, List.nodup_singleton _, ?_⟩
      intro id hid hid'
      rw [List.mem_singleton.mp hid'] at hid
      exact absurd (hnew _ hid) (Nat.lt_irrefl _)
    · intro req' hreq'
      rcases List.mem_append.mp hreq' with hreq' | hreq'
      · exact ⟨Nat.lt_succ_of_lt (h.queued req' hreq').1, (h.queued req' hreq').2⟩
      · rw [List.mem_singleton.mp hreq']
        exact ⟨Nat.lt_succ_self _, fun p hp => absurd (h.known _ p hp) (Nat.lt_irrefl _)⟩
    · exact fun r hr => ⟨Nat.lt_succ_of_lt (h.running r hr).1, (h.running r hr).2⟩
  | onStepComplete seqId n =>
    cases hx
    have heq := onStepComplete_eq s.sched seqId n
    refine h.advance ?_ (by rw [heq]) (by rw [heq]) (fun id p (hp : s.Covered id p) => .inl hp) ?_
    · exact onStepComplete_running s.sched seqId n fun _ _ => rfl
    · intro r' hr'
      obtain ⟨r, hr, hid, -, hnum, -⟩ := mem_onStepComplete hr'
      rw [hid, hnum]
      exact (h.running r hr).2
  | cancel seqId =>
    obtain ⟨u, hu, rfl⟩ := map_eq_ok.mp hx
    obtain ⟨hsub, hq, hn⟩ := cancel_frame hu
    exact h.shrink hsub hq hn

/-- At a state of the invariant the two conditions on a call say the same. -/
theorem cachesComputed_iff {s : Traced F} (h : Accounted s.sched s.Covered) (op : Op F) :
    CachesComputed s op ↔ PrefilledFar s op := by
  have hrun : ∀ r ∈ leaving s.sched op, r ∈ s.sched.running := by
    intro r hr
    cases op with
    | schedule order => exact List.mem_of_mem_filter hr
    | cancel seqId => exact List.mem_of_find?_eq_some (Option.mem_toList.mp hr)
    | addRequest req => cases hr
    | onStepComplete seqId n => cases hr
  constructor
  · intro hc r hr
    by_contra hlt
    have := ((h.running r (hrun r hr)).2 _).mp (hc r hr r.numPrefilled (by omega))
    omega
  · intro hf r hr p hp
    exact ((h.running r (hrun r hr)).2 p).mpr (Nat.lt_of_lt_of_le hp (hf r hr))

/-- **What is cached has been computed exactly when the prefill came far enough.**
In every run of the scheduler, each position a leaving sequence brings into the
prefix cache was emitted in one of its prefill steps or restored at its admission,
if and only if each sequence that leaves has its `numPrefilled` at or beyond the
end of its cached blocks. -/
theorem cached_kv_computed_iff (config : SchedulerConfig) (pool : KvBlockPool)
    (tr : List (Op F × Traced F)) (hrun : Along Step (.new config pool) tr) :
    Along (fun s op _ => CachesComputed s op) (.new config pool) tr ↔
      Along (fun s op _ => PrefilledFar s op) (.new config pool) tr :=
  Along.congr_of_invariant (I := fun s => Accounted s.sched s.Covered)
    (fun _ op _ h hstep => ⟨accounted_step h hstep.2, cachesComputed_iff h op⟩)
    (accounted_new config pool) hrun

/-- A request for one token of a two-block prompt, prefilled a block at a time. -/
def twoBlocks : NewRequest Unit :=
  ⟨0, (List.range 32).map UInt32.ofNat, ⟨1, (), (), 0, []⟩, 0, []⟩

def byBlock : SchedulerConfig := ⟨4, 64, 64, some 16⟩

/-- The request is prefilled in two steps, generates its token and leaves. -/
def finishedRun : List (Op Unit) :=
  [.addRequest twoBlocks, .schedule .listed, .schedule .listed, .onStepComplete 1 1,
    .schedule .listed]

theorem cached_kv_computed_finished_request :
    (replay exec (.new byBlock (.new 4)) finishedRun).length = 5 ∧
      Along (fun s op _ => CachesComputed s op) (.new byBlock (.new 4))
        (replay exec (.new byBlock (.new 4)) finishedRun) := by
  refine ⟨by decide +kernel,
    (cached_kv_computed_iff byBlock (.new 4) _ (along_replay_labels exec _ _ ?_)).mpr ?_⟩
  · simp [finishedRun, Op.Unhinted, twoBlocks]
  · decide +kernel

/-- A client that goes away after the first of two chunks: `cancel` caches both
blocks of the prompt, the second of which nobody has computed. -/
theorem cancel_caches_uncomputed_block :
    ∃ tr, Along Step (.new byBlock (.new 4)) tr ∧
      tr.map Prod.fst = [.addRequest twoBlocks, .schedule .listed, .cancel 1] ∧
      ¬ Along (fun s op _ => CachesComputed s op) (.new byBlock (.new 4)) tr := by
  refine ⟨replay exec (.new byBlock (.new 4)) [.addRequest twoBlocks, .schedule .listed, .cancel 1],
    along_replay_labels exec _ _ ?_, rfl, ?_⟩
  · simp [Op.Unhinted, twoBlocks]
  · decide +kernel

end JustApi.Inference.PrefillCoverage
