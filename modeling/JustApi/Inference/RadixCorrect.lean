import JustApi.Lib.Run
import JustApi.Inference.RadixWalks

/-! # The prefix cache returns the blocks that were inserted

Runs of the cache's operations, with a log of the insertions. A lookup returns
the blocks some insertion gave to the same tokens, provided insertions leave the
tree only at block boundaries: an edge that is cut inside a block gives the block
to one side and the tokens to both. -/
namespace JustApi.Inference.RadixCorrect
open JustApi.Lib.Run JustApi.Lib.Result JustApi.Inference.KvCache JustApi.Inference.RadixCache
open JustApi.Inference.RadixEntries JustApi.Inference.RadixWalks

inductive Op where
  | insert (tokens : List Token) (blocks : List BlockId)
  | lookup (tokens : List Token)
  | evict (order : HashOrder) (k : Nat)
  | evictFilter (order : HashOrder) (k : Nat) (keep : Nat → List BlockId → Bool)

/-- A cache with the insertions made so far. -/
structure Logged where
  cache : RadixPrefixCache
  inserted : List (List Token × List BlockId)

def Logged.new : Logged := ⟨.new, []⟩

def exec (s : Logged) : Op → Except Panic Logged
  | .insert tokens blocks =>
    (s.cache.insert tokens blocks).map fun c => ⟨c, (tokens, blocks) :: s.inserted⟩
  | .lookup tokens => (s.cache.lookup tokens).map fun r => { s with cache := r.2 }
  | .evict order k => .ok { s with cache := (s.cache.evict order k).2 }
  | .evictFilter order k keep => .ok { s with cache := (s.cache.evictFilter order k keep).2 }

def Step (s : Logged) (op : Op) (t : Logged) : Prop := exec s op = .ok t

/-- Some insertion of the log gave the block `b` to the first `j + 1` blocks' worth
of `tokens`. -/
def GivenBy (inserted : List (List Token × List BlockId)) (tokens : List Token) (j : Nat)
    (b : BlockId) : Prop :=
  ∃ ts cs, (ts, cs) ∈ inserted ∧ (j + 1) * BLOCK_SIZE ≤ tokens.length ∧
    (j + 1) * BLOCK_SIZE ≤ ts.length ∧
    ts.take ((j + 1) * BLOCK_SIZE) = tokens.take ((j + 1) * BLOCK_SIZE) ∧ cs[j]? = some b

/-- Whatever is looked up, the blocks found are as many as the matched tokens
fill, and each is the one an insertion gave to the same tokens. -/
def ReturnsInserted (s : Logged) : Prop :=
  ∀ tokens matched blocks c, s.cache.lookup tokens = .ok (some (matched, blocks), c) →
    blocks.length = matched / BLOCK_SIZE ∧
      ∀ (j : Nat) (b : BlockId), blocks[j]? = some b → GivenBy s.inserted tokens j b

/-- An insertion follows the tree up to a block boundary. -/
def LeavesAtBoundary (s : Logged) : Op → Prop
  | .insert tokens _ => matchedTokens s.cache tokens % BLOCK_SIZE = 0
  | _ => True

instance (s : Logged) (op : Op) : Decidable (LeavesAtBoundary s op) :=
  match op with
  | .insert tokens _ => inferInstanceAs (Decidable (matchedTokens s.cache tokens % BLOCK_SIZE = 0))
  | .lookup _ | .evict _ _ | .evictFilter _ _ _ => .isTrue trivial

/-- The tree is aligned and holds only what was inserted. -/
structure Recorded (s : Logged) : Prop where
  aligned : Aligned s.cache.root
  lengths : ∀ e ∈ s.inserted, e.1.length = e.2.length * BLOCK_SIZE
  entry : ∀ p b, (p, b) ∈ entries s.cache.root → ∃ ts cs, (ts, cs) ∈ s.inserted ∧
    ∃ j, cs[j]? = some b ∧ p = ts.take ((j + 1) * BLOCK_SIZE)

theorem recorded_new : Recorded .new where
  aligned := .mk List.nodupKeys_nil (fun _ he => nomatch he) (fun _ he => nomatch he)
  lengths _ he := nomatch he
  entry _ _ he := nomatch he

/-- A step that only drops entries keeps the record. -/
theorem Recorded.shrink {s t : Logged} (h : Recorded s) (ha : Aligned t.cache.root)
    (hlog : t.inserted = s.inserted) (hsub : entries t.cache.root ⊆ entries s.cache.root) :
    Recorded t where
  aligned := ha
  lengths := hlog ▸ h.lengths
  entry p b he := hlog ▸ h.entry p b (hsub he)

theorem recorded_step {s t : Logged} {op : Op} (h : Recorded s) (hstep : Step s op t)
    (hb : LeavesAtBoundary s op) : Recorded t := by
  cases op with
  | insert tokens blocks =>
    obtain ⟨c, hc, rfl⟩ := map_eq_ok.mp hstep
    have hlen : tokens.length = blocks.length * BLOCK_SIZE := by
      by_contra hne
      rw [RadixPrefixCache.insert, if_neg hne] at hc
      cases hc
    obtain ⟨c', hc', ha, hperm⟩ := insert_aligned h.aligned hlen hb
    rw [hc] at hc'
    cases hc'
    refine ⟨ha, ?_, ?_⟩
    · intro e he
      rcases List.mem_cons.mp he with rfl | he
      · exact hlen
      · exact h.lengths e he
    · intro p b he
      rcases List.mem_append.mp (hperm.mem_iff.mp he) with he | he
      · obtain ⟨ts, cs, hm, hj⟩ := h.entry p b he
        exact ⟨ts, cs, List.mem_cons_of_mem _ hm, hj⟩
      · exact ⟨tokens, blocks, List.mem_cons_self, mem_blockPaths.mp (List.mem_of_mem_drop he)⟩
  | lookup tokens =>
    obtain ⟨⟨r, c⟩, hc, rfl⟩ := map_eq_ok.mp hstep
    obtain ⟨r', c', hc', ha, hperm, -⟩ := lookup_aligned tokens h.aligned
    rw [hc] at hc'
    cases hc'
    exact h.shrink ha rfl hperm.subset
  | evict order k =>
    cases hstep
    obtain ⟨ha, hsub⟩ := evict_aligned order k h.aligned
    exact h.shrink ha rfl hsub
  | evictFilter order k keep =>
    cases hstep
    obtain ⟨ha, gone, -, hperm, -⟩ := evictFilter_aligned order k keep h.aligned
    exact h.shrink ha rfl fun e he => hperm.mem_iff.mpr (List.mem_append_right _ he)

theorem Recorded.returnsInserted {s : Logged} (h : Recorded s) : ReturnsInserted s := by
  intro tokens matched blocks c hl
  obtain ⟨r, c', hl', -, -, hr⟩ := lookup_aligned tokens h.aligned
  rw [hl] at hl'
  cases hl'
  rcases hr with ⟨hr, -⟩ | ⟨bs, hr, hlen, hentry⟩
  · cases hr
  cases hr
  refine ⟨hlen, fun j b hj => ?_⟩
  obtain ⟨ts, cs, hm, i, hi, hp⟩ := h.entry _ _ (hentry j b hj)
  -- the matched tokens cover block `j`, so both prefixes have their full length
  have hjlt : j < matchedTokens s.cache tokens / BLOCK_SIZE := by
    rw [← hlen]
    exact (List.getElem?_eq_some_iff.mp hj).1
  have hcover : (j + 1) * BLOCK_SIZE ≤ tokens.length := calc
    (j + 1) * BLOCK_SIZE ≤ matchedTokens s.cache tokens / BLOCK_SIZE * BLOCK_SIZE :=
      Nat.mul_le_mul_right _ hjlt
    _ ≤ matchedTokens s.cache tokens := Nat.div_mul_le_self _ _
    _ ≤ tokens.length := matchLen_le _ _ _
  have hfull : (i + 1) * BLOCK_SIZE ≤ ts.length := by
    rw [h.lengths _ hm]
    exact Nat.mul_le_mul_right _ (List.getElem?_eq_some_iff.mp hi).1
  have hij : i = j := by
    have := congrArg List.length hp
    rw [List.length_take, List.length_take, Nat.min_eq_left hcover, Nat.min_eq_left hfull] at this
    have := Nat.eq_of_mul_eq_mul_right blockSize_pos this
    omega
  subst hij
  exact ⟨ts, cs, hm, hcover, hfull, hp.symm, hi⟩

/-- **The cache returns the blocks that were inserted.** In every run whose
insertions follow the tree up to a block boundary, every lookup in every state
returns, for each whole block it matched, the block an earlier insertion gave to
those tokens. -/
theorem lookup_returns_inserted (tr : List (Op × Logged)) (hrun : Along Step .new tr)
    (hb : Along (fun s op _ => LeavesAtBoundary s op) .new tr) :
    ∀ s ∈ visited .new tr, ReturnsInserted s := by
  have hinv := Along.invariant (I := Recorded)
    (fun _ _ _ h hstep => recorded_step h hstep.1 hstep.2) recorded_new (hrun.and hb)
  exact fun s hs => (hinv s hs).returnsInserted

/-- Token runs for the examples: `a, a + 1, …`. -/
def ramp (a n : Nat) : List Token := (List.range n).map fun i => UInt32.ofNat (a + i)

/-- Two prompts that share their first block. -/
theorem lookup_returns_inserted_shared_block :
    let tr := replay exec Logged.new [.insert (ramp 0 32) [10, 11],
      .insert (ramp 0 16 ++ ramp 100 16) [10, 21]]
    tr.length = 2 ∧ ∀ s ∈ visited Logged.new tr, ReturnsInserted s :=
  ⟨by decide +kernel, lookup_returns_inserted _ (along_replay exec _ _) (by decide +kernel)⟩

/-- The insertions of a prompt, of one that leaves it in the middle of a block, and
of one that runs on past it. -/
def midBlockRun : List Op :=
  [.insert (ramp 0 32) [10, 11], .insert (ramp 0 24 ++ ramp 100 8) [20, 21],
    .insert (ramp 0 48) [30, 31, 32]]

/-- After `midBlockRun` the third prompt's lookup reports four blocks for its 48
tokens, and its second block where the third belongs. -/
theorem lookup_returns_misplaced_blocks :
    ∃ tr : List (Op × Logged), Along Step .new tr ∧ tr.map Prod.fst = midBlockRun ∧
      ∃ s ∈ visited .new tr, (∃ c, s.cache.lookup (ramp 0 48) =
        .ok (some (48, [10, 11, 31, 32]), c)) ∧ ¬ ReturnsInserted s := by
  have hl : ((final exec .new midBlockRun).cache.lookup (ramp 0 48)).map Prod.fst =
      .ok (some (48, [10, 11, 31, 32])) := by
    exact of_decide_eq_true (by decide +kernel)
  obtain ⟨⟨r, c⟩, hc, hr⟩ := map_eq_ok.mp hl
  refine ⟨_, along_replay exec .new midBlockRun, rfl, _, final_mem_visited exec _ _, ⟨c, ?_⟩, ?_⟩
  · rw [hc, ← hr]
  · intro hret
    have hlen := (hret (ramp 0 48) 48 [10, 11, 31, 32] c (by rw [hc, ← hr])).1
    exact absurd hlen (by decide)

end JustApi.Inference.RadixCorrect
