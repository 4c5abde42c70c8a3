import JustApi.Inference.FifoService
import JustApi.Inference.EvictionReach
import JustApi.Inference.SchedulerSafety

/-! # When an idle scheduler goes on

A scheduler with nothing running admits the request at the head of its queue, or
nobody at all. What the request needs besides the cached blocks it reuses has to be
free or within reach of evictions, which cannot touch a node of the tree that one of
these blocks belongs to, nor a block that is lost. -/
namespace JustApi.Inference.AdmissionProgress
open JustApi.Lib.Run JustApi.Lib.Result JustApi.Inference.KvCache JustApi.Inference.RadixCache
open JustApi.Inference.RadixEntries JustApi.Inference.RadixWalks JustApi.Inference.BlockLedger
open JustApi.Inference.Scheduling JustApi.Inference.Scheduling.Scheduler
open JustApi.Inference.SchedulerLedger JustApi.Inference.SchedulerRuns
open JustApi.Inference.SchedulerSafety JustApi.Inference.EvictionReach
open JustApi.Inference.FifoService (exec_config)

variable {F : Type} {s t : Scheduler F} {exact : Prop} {hs : List Holder} {order : HashOrder}
  {prompt : List Token} {n m : Nat}

/-! ## The room for a sequence -/

/-- How many blocks a sequence can get besides the cached blocks `bs`, which it
reuses: the free ones, and those that evictions reach. -/
def roomBeside (s : Scheduler F) (bs : List BlockId) : Nat :=
  s.pool.free.length + evictable (fun b => s.prefixRefs b != 0 || bs.contains b) s.prefixCache.root

/-- How many blocks a sequence can still get. -/
def room (s : Scheduler F) : Nat :=
  s.pool.free.length + evictable (fun b => s.prefixRefs b != 0) s.prefixCache.root

theorem room_of_ledger {l : Ledger} (h : ledger t = l) : room t =
    l.view.free.length + evictable (fun b => l.refs b != 0) t.prefixCache.root := by
  subst h
  rfl

/-- A sequence grows by a block of the free list. -/
theorem room_grow {seq : Sequence} (h : Books exact s ((prompt, seq.blocks) :: hs)) :
    ∃ got seq' pool, seq.grow s.pool = .ok (got, seq', pool) ∧
      Books exact { s with pool := pool } ((prompt, seq'.blocks) :: hs) ∧
      room s = room { s with pool := pool } + got.isSome.toNat ∧
      (got = none → s.pool.free = []) := by
  obtain ⟨got, seq', pool, hg, hb⟩ := h.grow
  obtain ⟨got₁, seq₁, pool₁, hg₁, hcase⟩ := grow_ok h.tidy.apart (evictOrder_nil h.kept.owned)
  rw [hg] at hg₁
  cases hg₁
  refine ⟨got, seq', pool, hg, hb, ?_⟩
  rcases hcase with ⟨rfl, hf, -, hl⟩ | ⟨b, rest, rfl, hf, -, hl⟩
  · refine ⟨?_, fun _ => hf⟩
    rw [room_of_ledger hl]
    rfl
  · refine ⟨?_, fun hnone => absurd hnone (Option.some_ne_none b)⟩
    have hfree : s.pool.free = b :: rest := hf
    rw [room_of_ledger hl, room, hfree, List.length_cons]
    exact Nat.add_right_comm _ _ _

/-- An eviction makes blocks free as long as it reaches any. -/
theorem room_evictUnreferenced (h : Books exact s hs) (order : HashOrder) (hn : 0 < n) :
    ∃ t, s.evictUnreferenced order n = .ok t ∧ Books exact t hs ∧ room t = room s ∧
      (t.pool.free = [] → room s = 0) := by
  obtain ⟨t, gone, ht, -, -, hz, hl, hun⟩ := evictUnreferenced_ok h.tidy order n
  obtain ⟨t', ht', hb⟩ := h.evictUnreferenced order n
  rw [ht] at ht'
  cases ht'
  have hkeep : ∀ (_ : Nat) (bs : List BlockId), (bs.all fun b => s.prefixRefs b == 0) =
      !bs.any fun b => s.prefixRefs b != 0 := fun _ bs => by
    simp only [List.not_any_eq_all_not, bne, Bool.not_not]
  obtain ⟨hcount, hsome⟩ := evictable_evictFilter h.aligned order hn hkeep
  have hblocks : (unreferenced s order n).1 = treeBlocks gone := (congrArg Prod.fst hun).symm
  have hcache : (unreferenced s order n).2 = t.prefixCache := (congrArg Prod.snd hun).symm
  change (unreferenced s order n).1.length + evictable _ (unreferenced s order n).2.root = _ at hcount
  change _ → (unreferenced s order n).1 ≠ [] at hsome
  rw [hblocks, hcache] at hcount
  rw [hblocks] at hsome
  -- the evicted blocks had no live reference, so no reference changes
  have hrefs : ((ledger s).giveBack (treeBlocks gone)).refs = s.prefixRefs := setOn_eq_self hz
  have hfree : t.pool.free = (treeBlocks gone).reverse ++ s.pool.free :=
    congrArg (fun l => l.view.free) hl
  refine ⟨t, ht, hb, ?_, fun hnil => ?_⟩
  · rw [room_of_ledger hl, hrefs, room, ← hcount]
    show ((treeBlocks gone).reverse ++ s.pool.free).length + _ = _
    rw [List.length_append, List.length_reverse]
    omega
  · rw [hfree, List.append_eq_nil_iff, List.reverse_eq_nil_iff] at hnil
    obtain ⟨hgone, hnil⟩ := hnil
    rw [room, hnil, List.length_nil, Nat.zero_add]
    by_contra hpos
    exact hsome (Nat.pos_of_ne_zero hpos) hgone

/-- The sequence gets a block exactly when there is room. -/
theorem room_growOrEvict {seq : Sequence} (h : Books exact s ((prompt, seq.blocks) :: hs))
    (order : HashOrder) (hn : 0 < n) :
    ∃ ok seq' t, s.growOrEvict order n seq = .ok (ok, seq', t) ∧
      Books exact t ((prompt, seq'.blocks) :: hs) ∧ room s = room t + ok.toNat ∧
      (ok = false → room s = 0) := by
  obtain ⟨got, seq₁, pool, hg, h₁, hroom, -⟩ := room_grow h
  simp only [Scheduler.growOrEvict, hg, ok_bind]
  cases got with
  | some b => exact ⟨true, seq₁, _, rfl, h₁, hroom, fun hf => absurd hf (by decide)⟩
  | none =>
    obtain ⟨s₂, he, h₂, hroom₂, hfree⟩ := room_evictUnreferenced h₁ order hn
    obtain ⟨got', seq₃, pool', hg', h₃, hroom₃, hnone⟩ := room_grow h₂
    refine ⟨got'.isSome, seq₃, { s₂ with pool := pool' }, ?_, h₃, ?_, fun hf => ?_⟩
    · simp only [Option.isSome_none, Bool.false_eq_true, if_false, he, ok_bind, hg']
      rfl
    · rw [hroom, ← hroom₂, hroom₃]
      rfl
    · rw [hroom, hfree (hnone (Option.isNone_iff_eq_none.mp (Option.isSome_eq_false_iff.mp hf)))]
      rfl

/-- The sequence gets all blocks it lacks exactly when there is room for them. -/
theorem room_growTail {seq : Sequence} (h : Books exact s ((prompt, seq.blocks) :: hs))
    (order : HashOrder) (hmn : m ≤ n) :
    ∃ ok seq' t, growTail order n m s seq = .ok (ok, seq', t) ∧
      Books exact t ((prompt, seq'.blocks) :: hs) ∧ (ok = true ↔ m ≤ room s) := by
  induction m generalizing s seq with
  | zero => exact ⟨true, seq, s, rfl, h, by simp⟩
  | succ m ih =>
    obtain ⟨ok, seq₁, s₁, hg, h₁, hroom, hnone⟩ :=
      room_growOrEvict h order (Nat.lt_of_lt_of_le (Nat.succ_pos m) hmn)
    simp only [Scheduler.growTail, hg, ok_bind]
    cases ok with
    | true =>
      obtain ⟨ok', seq', t, ht, hb, hiff⟩ := ih h₁ (Nat.le_of_succ_le hmn)
      refine ⟨ok', seq', t, ht, hb, hiff.trans ?_⟩
      rw [hroom]
      simp only [Bool.toNat_true]
      omega
    | false =>
      refine ⟨false, seq₁, s₁, rfl, h₁, ?_⟩
      rw [hnone rfl]
      simp

/-- The blocks of a request are found exactly when there is room for those that are
not cached. -/
theorem room_gather {bs : List BlockId} {req : NewRequest F} (h : Books exact s hs)
    (order : HashOrder) (k : Nat) (ha : OnPath (stored s) req.prompt bs)
    (hz : ∀ b ∈ bs, s.prefixRefs b = 0) :
    ∃ ok seq t, s.gather order req bs k = .ok (ok, seq, t) ∧
      (ok = true ↔ totalBlocks req.prompt - bs.length ≤ roomBeside s bs) := by
  obtain ⟨seq, s₁, hr, h₁⟩ := h.reuse req.id k ha hz
  obtain ⟨seq', s', hr', -, hcache, hl⟩ := reuse_ok h.tidy req.id k ha hz
  rw [hr] at hr'
  cases hr'
  obtain ⟨ok, seq₂, t, ht, -, hiff⟩ :=
    room_growTail h₁ order (Nat.le_refl (totalBlocks req.prompt - bs.length))
  refine ⟨ok, seq₂, t, by simp only [Scheduler.gather, hr, ok_bind, ht], hiff.trans ?_⟩
  have hlive : (fun b => setOn bs 1 s.prefixRefs b != 0) =
      fun b => s.prefixRefs b != 0 || bs.contains b := by
    funext b
    by_cases hb : b ∈ bs
    · simp [setOn_mem hb, hb]
    · simp [setOn_notMem hb, hb]
  have hroom : room s₁ = roomBeside s bs := by
    rw [room_of_ledger hl, hcache, roomBeside, ← hlive]
    rfl
  rw [hroom]

/-! ## A turn of the admission loop -/

/-- The request can join the batch: its estimate is within the limit, and there is
room for the blocks it does not reuse. -/
structure CanStart (s : Scheduler F) (req : NewRequest F) : Prop where
  budget : overBudget s.config req (matchedTokens s.prefixCache req.prompt) = false
  room : totalBlocks req.prompt - (reusable s req).length ≤ roomBeside s (reusable s req)

instance (s : Scheduler F) (req : NewRequest F) : Decidable (CanStart s req) :=
  decidable_of_iff (_ ∧ _) ⟨fun h => ⟨h.1, h.2⟩, fun h => ⟨h.budget, h.room⟩⟩

/-- What the tree becomes when a request looks for its prefix. -/
theorem lookup_of_cachedPrefix {req : NewRequest F} {r : List BlockId × Nat} {c : RadixPrefixCache}
    (h : s.cachedPrefix req = .ok (r, { s with prefixCache := c })) (hreq : req.cachedBlocks = []) :
    ∃ found, s.prefixCache.lookup req.prompt = .ok (found, c) := by
  unfold Scheduler.cachedPrefix at h
  rw [hreq, List.isEmpty_nil, if_pos rfl] at h
  obtain ⟨⟨found, c'⟩, hl, h⟩ := bind_eq_ok.mp h
  obtain ⟨-, hs⟩ := Prod.mk.inj (Except.ok.inj h)
  exact ⟨found, by rw [hl, show c' = c from congrArg Scheduler.prefixCache hs]⟩

/-- A turn with a place in the batch admits the head of the queue exactly when it
can start. -/
theorem admitNext_turn {req : NewRequest F} {rest : List (NewRequest F)}
    (h : Healthy exact s) (order : HashOrder) (hq : s.waitQueue = req :: rest)
    (hlen : s.running.length < s.config.maxNumSeqs) (hfree : ReuseFree s) :
    (CanStart s req ∧ ∃ t, s.admitNext order = .ok (.admitted req.id (reusable s req).length, t)) ∨
    (¬ CanStart s req ∧ ∃ t, s.admitNext order = .ok (.stop true, t)) := by
  cases hover : overBudget s.config req (matchedTokens s.prefixCache req.prompt) with
  | true =>
    have hc : candidate s = none := by simp [candidate, hq, hlen, hover]
    refine .inr ⟨fun hcan => ?_, ?_⟩
    · rw [hcan.budget] at hover
      cases hover
    · obtain ⟨c, hp, -⟩ := h.books.cachedPrefix (h.unhinted req (hq ▸ List.mem_cons_self))
      refine ⟨{ s with prefixCache := c }, ?_⟩
      simp only [Scheduler.admitNext, hlen, if_true, hq, hp, ok_bind, hover]
      rfl
  | false =>
    have hc : candidate s = some req := by simp [candidate, hq, hlen, hover]
    obtain ⟨c, rest', -, hb, heq, hp, hpath⟩ := h.admitNext_some order hc
    obtain ⟨ok, seq, t, hg, hiff⟩ :=
      room_gather hb order (matchedTokens s.prefixCache req.prompt) hpath (hfree req hc)
    have hroom : roomBeside { s with prefixCache := c, waitQueue := rest' } (reusable s req) =
        roomBeside s (reusable s req) := by
      obtain ⟨r, hl⟩ := lookup_of_cachedPrefix hp (h.unhinted req (hq ▸ List.mem_cons_self))
      rw [roomBeside, roomBeside, evictable_lookup h.books.aligned hl]
    rw [hroom] at hiff
    rw [heq, hg]
    cases ok with
    | true => exact .inl ⟨⟨hover, hiff.mp rfl⟩, _, rfl⟩
    | false =>
      refine .inr ⟨fun hcan => ?_, _, rfl⟩
      have := hiff.mpr hcan.room
      cases this

/-! ## A call of `schedule` -/

/-- The next `schedule` returns and admits a request or takes the head off the
queue. -/
def Progresses (s : Scheduler F) (order : HashOrder) : Prop :=
  ∃ plan t, s.schedule order = .ok (plan, t) ∧
    (s.admittedBy order ≠ [] ∨ t.waitQueue.length < s.waitQueue.length)

/-- With nothing running, nobody leaves. -/
theorem retire_of_idle (h : s.running = []) : s.retire = .ok s := by
  have hsame : s.withoutFinished = s := by
    obtain ⟨config, pool, prefixCache, prefixRefs, running, waitQueue, nextSeqId, last⟩ := s
    cases h
    rfl
  rw [Scheduler.retire, h, hsame]
  rfl

/-- Where the first turn stops, the batch and the queue are as before. -/
theorem schedule_of_stop {blocked : Bool} {u : Scheduler F} {plan : Schedule}
    (hidle : s.running = []) (hu : s.admitNext order = .ok (.stop blocked, u))
    (hs : s.schedule order = .ok (plan, t)) :
    s.admittedBy order = [] ∧ t.waitQueue = s.waitQueue := by
  obtain ⟨w, v, adm, blocked', hw, hloop, -, rfl⟩ := schedule_ok hs
  have hret := retire_of_idle hidle
  rw [hret] at hw
  cases hw
  have hsame : SameQueues s u := by
    rcases admitNext_cases hu with ⟨-, hsame⟩ | ⟨_, _, _, _, -, -, hturn, -⟩
    · exact hsame
    · cases hturn
  constructor
  · simp only [admittedBy, hret, admitLoop, hu, hsame.running, List.drop_length]
  · simp only [admitLoop, hu] at hloop
    cases hloop
    exact hsame.waitQueue

/-- Where the first turn admits somebody, the queue gets shorter. -/
theorem schedule_of_admitted {id k : Nat} {u : Scheduler F} {plan : Schedule}
    (hidle : s.running = []) (hu : s.admitNext order = .ok (.admitted id k, u))
    (hs : s.schedule order = .ok (plan, t)) : t.waitQueue.length < s.waitQueue.length := by
  obtain ⟨w, v, adm, blocked, hw, hloop, -, rfl⟩ := schedule_ok hs
  rw [retire_of_idle hidle] at hw
  cases hw
  simp only [admitLoop, hu] at hloop
  obtain ⟨⟨⟨adm', blocked'⟩, v'⟩, hrest, he⟩ := bind_eq_ok.mp hloop
  have hv : v' = v := congrArg Prod.snd (Except.ok.inj he)
  rw [hv] at hrest
  obtain ⟨reqs, _, hqueue, -⟩ := admitLoop_joins hrest
  have hpop : u.waitQueue.length + 1 = s.waitQueue.length := by
    rcases admitNext_cases hu with ⟨⟨_, hturn⟩, -⟩ | ⟨_, _, _, _, hq, -, -, -, -, hrest', -⟩
    · cases hturn
    · rw [hrest', hq, List.length_cons]
  have hle : v.waitQueue.length ≤ u.waitQueue.length := by
    rw [hqueue, List.length_append]
    exact Nat.le_add_left _ _
  show v.waitQueue.length < s.waitQueue.length
  omega

/-- An idle scheduler progresses exactly when the head of its queue can start and
no admission of the call reuses a block in use. -/
theorem progresses_iff_of_healthy {req : NewRequest F} {rest : List (NewRequest F)}
    (h : Healthy False s) (hidle : s.running = []) (hq : s.waitQueue = req :: rest)
    (hmax : 1 ≤ s.config.maxNumSeqs) (order : HashOrder) :
    Progresses s order ↔ CanStart s req ∧ ReusesUnreferenced s (.schedule order) := by
  have hlen : s.running.length < s.config.maxNumSeqs := by
    rw [hidle]
    exact hmax
  have hbound : CachesAtBoundary s (.schedule order) := by
    intro x hx
    simp [cacheCalls, hidle, trail] at hx
  have hunhinted : (Op.schedule order : Op F).Unhinted := trivial
  have hfirst : ReusesUnreferenced s (.schedule order) → ReuseFree s := by
    intro hall
    refine hall (s, order) ?_
    simp [admitTurns, retire_of_idle hidle, turns]
  constructor
  · rintro ⟨plan, t, hs, hprog⟩
    have hexec : exec s (.schedule order) = .ok t := by simp only [exec, hs]; rfl
    obtain ⟨hall, -⟩ := h.exec hunhinted hbound (.inl ⟨t, hexec⟩) False.elim
    refine ⟨?_, hall⟩
    rcases admitNext_turn h order hq hlen (hfirst hall) with ⟨hcan, -⟩ | ⟨-, u, hu⟩
    · exact hcan
    · obtain ⟨hadm, hqueue⟩ := schedule_of_stop hidle hu hs
      rw [hadm, hqueue] at hprog
      exact absurd hprog (by simp)
  · rintro ⟨hcan, hall⟩
    obtain ⟨-, t, ht, -⟩ := h.exec hunhinted hbound (.inr hall) False.elim
    obtain ⟨⟨plan, t'⟩, hs, rfl⟩ := map_eq_ok.mp ht
    rcases admitNext_turn h order hq hlen (hfirst hall) with ⟨-, u, hu⟩ | ⟨hno, -⟩
    · exact ⟨plan, t', hs, .inr (schedule_of_admitted hidle hu hs)⟩
    · exact absurd hcan hno

/-! ## Runs -/

/-- **When an idle scheduler goes on.** In every run without a panic that caches
sequences at block boundaries, a scheduler with nothing running admits a request or
takes the head off its queue exactly when the head can start and no admission of the
call reuses a block in use. -/
theorem idle_scheduler_progresses_iff (config : SchedulerConfig) (capacity : Nat)
    (hmax : 1 ≤ config.maxNumSeqs) (tr : List (Op F × Scheduler F))
    (hrun : Along Step (fresh config capacity) tr)
    (hbound : Along (fun s op _ => CachesAtBoundary s op) (fresh config capacity) tr) :
    ∀ s ∈ visited (fresh config capacity) tr, s.running = [] →
      ∀ req rest, s.waitQueue = req :: rest → ∀ order,
        (Progresses s order ↔ CanStart s req ∧ ReusesUnreferenced s (.schedule order)) := by
  have hhealthy := healthy_visited False hrun (hbound.imp fun _ _ _ h => ⟨h, False.elim⟩)
  have hconfig := Along.invariant (I := fun s : Scheduler F => s.config = config)
    (fun s op t h hstep => (exec_config hstep.2).trans h) rfl hrun
  intro s hs hidle req rest hq order
  refine progresses_iff_of_healthy (hhealthy s hs) hidle hq ?_ order
  rw [hconfig s hs]
  exact hmax

/-- The scheduler after the two requests, with a third one for the same prompt. -/
def thirdTime : List (Op Unit) := oneAfterTheOther ++ [.addRequest (ask 32)]

theorem idle_scheduler_progresses_third_time :
    Progresses (final exec (fresh .default 8) thirdTime) .listed := by
  refine (idle_scheduler_progresses_iff .default 8 (by decide) _
    (along_replay_labels exec _ thirdTime ?_) (by decide +kernel) _ (final_mem_visited exec _ _)
    (by decide +kernel) { ask 32 with id := 3 } [] (by decide +kernel) .listed).mpr
    ⟨by decide +kernel, by decide +kernel⟩
  simp [thirdTime, oneAfterTheOther, Op.Unhinted, ask]

/-- The prompt of a block and a quarter comes and goes, then one of two blocks is
asked for. -/
def twoBlocksLater : List (Op Unit) := unevenPrompt ++ [.addRequest (ask 32)]

/-- With the block that is lost the pool of two is too small for good. -/
theorem lost_block_wedges_scheduler :
    ∃ tr, Along Step (fresh .default 2) tr ∧ tr.map Prod.fst = twoBlocksLater ∧
      ∃ s ∈ visited (fresh .default 2) tr, s.running = [] ∧ s.waitQueue ≠ [] ∧
        (∀ req ∈ s.waitQueue, totalBlocks req.prompt ≤ s.pool.capacity) ∧
        ¬ Progresses s .listed := by
  refine ⟨replay exec (fresh .default 2) twoBlocksLater, along_replay_labels exec _ _ ?_,
    rfl, final exec (fresh .default 2) twoBlocksLater, final_mem_visited exec _ _,
    by decide +kernel, by decide +kernel, by decide +kernel, ?_⟩
  · simp [twoBlocksLater, unevenPrompt, Op.Unhinted, ask]
  · have hplan : ((final exec (fresh .default 2) twoBlocksLater).schedule .listed).map
        (fun r => r.2.waitQueue.length) = .ok 1 := of_decide_eq_true (by decide +kernel)
    have hlen : (final exec (fresh .default 2) twoBlocksLater).waitQueue.length = 1 := by
      decide +kernel
    have hadm :
        (admittedBy (final exec (fresh .default 2) twoBlocksLater) .listed).isEmpty = true := by
      decide +kernel
    rintro ⟨plan, t, hs, hsome | hless⟩
    · exact hsome (List.isEmpty_iff.mp hadm)
    · rw [hs] at hplan
      have ht : t.waitQueue.length = 1 := Except.ok.inj hplan
      rw [ht, hlen] at hless
      exact absurd hless (Nat.lt_irrefl 1)

/-! ## Runs that lose nothing -/

/-- In an idle scheduler that lost nothing, every block is free or cached, and none
is in use. -/
theorem clean_idle_blocks (h : Healthy True s) (hidle : s.running = []) :
    s.pool.free.length + (stored s).length = s.pool.capacity ∧ ∀ b, s.prefixRefs b = 0 := by
  have hk := h.books.kept
  rw [hidle] at hk
  have ho := hk.owned
  have hcomp := hk.complete trivial
  refine ⟨?_, fun b => ?_⟩
  · have hnd : (s.pool.free ++ treeBlocks (stored s)).Nodup :=
      List.nodup_append'.mpr ⟨ho.freeNodup, ho.treeNodup, fun b hf ht => (ho.tree b ht).2.1 hf⟩
    have hmem : ∀ b, b ∈ s.pool.free ++ treeBlocks (stored s) ↔ b ∈ List.range s.pool.capacity := by
      intro b
      rw [List.mem_append, List.mem_range]
      constructor
      · rintro (hf | ht)
        · exact (ho.free b hf).1
        · exact (ho.tree b ht).1
      · intro hb
        rcases hcomp.cover b hb with hf | hh | ht
        · exact .inl hf
        · cases hh
        · exact .inr ht
    have hlen := ((List.perm_ext_iff_of_nodup hnd List.nodup_range).mpr hmem).length_eq
    rwa [List.length_append, List.length_range, treeBlocks, List.length_map] at hlen
  · by_contra hne
    exact absurd (hcomp.live b hne) List.not_mem_nil

/-- **No lost block, no wedge.** In every run that loses nothing, the head of the
queue of an idle scheduler can start if its estimate is within the limit, the pool is
large enough for its prompt and nothing of the prompt is cached. -/
theorem uncached_head_can_start (config : SchedulerConfig) (capacity : Nat)
    (tr : List (Op F × Scheduler F)) (hrun : Along Step (fresh config capacity) tr)
    (hclean : Along (fun s op _ => CachesAtBoundary s op ∧ LosesNothing s op)
      (fresh config capacity) tr) :
    ∀ s ∈ visited (fresh config capacity) tr, s.running = [] → ∀ req ∈ s.waitQueue,
      overBudget s.config req (matchedTokens s.prefixCache req.prompt) = false →
      totalBlocks req.prompt ≤ s.pool.capacity → reusable s req = [] → CanStart s req := by
  have hinv := healthy_visited True hrun (hclean.imp fun _ _ _ h => ⟨h.1, fun _ => h.2⟩)
  intro s hs hidle req _ hbudget hfit hnone
  obtain ⟨hblocks, hrefs⟩ := clean_idle_blocks (hinv s hs) hidle
  refine ⟨hbudget, ?_⟩
  have hunused : evictable (fun b => s.prefixRefs b != 0 || [].contains b) s.prefixCache.root =
      (stored s).length :=
    evictable_of_unused (anyLive_eq_false.mpr fun e _ => by simp [hrefs])
  rw [hnone, roomBeside, hunused, hblocks]
  exact Nat.le_trans (Nat.sub_le _ _) hfit

end JustApi.Inference.AdmissionProgress
