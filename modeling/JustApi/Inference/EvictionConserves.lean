import JustApi.Inference.RadixRuns

/-! # Evictions conserve the blocks

What an eviction returns and what it leaves make up the tree before, and a lookup
afterwards matches a prefix of what it matched. `evict` goes on until it has
enough blocks or finds no leaf, which it does in a tree with nodes left only below
an inner node accessed at the last reading of the clock: the search begins with
that reading as the oldest access so far and wants an older one. -/
namespace JustApi.Inference.EvictionConserves
open JustApi.Lib.Run JustApi.Inference.KvCache JustApi.Inference.RadixCache
open JustApi.Inference.RadixWalks JustApi.Inference.RadixRemoval JustApi.Inference.RadixRuns
open JustApi.Inference.RadixCorrect (Op ramp)
open JustApi.Inference.RadixTrie (Trie)
open RadixNode

/-- The matched tokens and blocks of a lookup's answer. -/
def reported (answer : Option (Nat × List BlockId)) : Nat × List BlockId := answer.getD (0, [])

/-- Every lookup matches in `after` a prefix of what it matches in `before`. -/
def MatchesPrefix (before after : RadixPrefixCache) : Prop :=
  ∀ tokens, ∃ r c r' c', before.lookup tokens = .ok (r, c) ∧ after.lookup tokens = .ok (r', c') ∧
    (reported r').1 ≤ (reported r).1 ∧ (reported r').2 <+: (reported r).2

/-- The block ids returned are those the tree has lost, and what is left of the tree
answers lookups as before, as far as it goes. -/
structure Conserves (c : RadixPrefixCache) (r : List BlockId × RadixPrefixCache) : Prop where
  blocks : (blockIds c.root).Perm (r.1 ++ blockIds r.2.root)
  lookups : MatchesPrefix c r.2

/-- The leaves in the order `evict_filter` asks `keep` about them. -/
def filterOrder (c : RadixPrefixCache) (ord : HashOrder) : List Leaf :=
  (collectLeaves (ord.apply c.root) []).insertionSort fun a b => a.access ≤ b.access

/-- A node that is gone after `evict_filter` was a leaf, and `keep` let its whole
block list go when asked about that leaf. -/
def RemovesKept (c : RadixPrefixCache) (ord : HashOrder) (k : Nat)
    (keep : Nat → List BlockId → Bool) : Prop :=
  ∀ path node, nodeAt c.root path = some node →
    nodeAt (c.evictFilter ord k keep).2.root path = none → node.isLeaf = true ∧
      ∃ n, (filterOrder c ord)[n]? = some ⟨node.lastAccess, path, node.blocks⟩ ∧
        keep n node.blocks = true

/-- What holds of every eviction. -/
structure EvictionsConserve (c : RadixPrefixCache) : Prop where
  ends : ∀ ord k, k ≤ (c.evict ord k).1.length ∨ findLruLeaf (c.evict ord k).2.root = none
  evict : ∀ ord k, Conserves c (c.evict ord k)
  evictFilter : ∀ ord k keep, Conserves c (c.evictFilter ord k keep)
  kept : ∀ ord k keep, RemovesKept c ord k keep

/-- `evict` returns at least as many blocks as asked for unless it empties the tree. -/
def FreesEnough (c : RadixPrefixCache) : Prop :=
  ∀ ord k, k ≤ (c.evict ord k).1.length ∨ (c.evict ord k).2.nodes = 0

/-- No inner node below the root was accessed at the last reading of the clock. -/
def BeforeLastReading (root : RadixNode) : Prop :=
  ∀ path node, path ≠ [] → nodeAt root path = some node → node.isLeaf = false →
    node.lastAccess < 2 ^ 64 - 1

/-! ## Conservation -/

variable {c c' : RadixPrefixCache} {gone : List (List Token × List BlockId)} {ord : HashOrder}

theorem lookup_reported {tokens : List Token} {root : RadixNode} {out : Found}
    (hl : lookupNode (tokens.length + 1) c.root tokens c.tick = .ok (root, out))
    (hcol : out.collision = false) : ∃ r d, c.lookup tokens = .ok (r, d) ∧
      reported r = if 0 < out.matched then (out.matched, out.blocks) else (0, []) := by
  simp only [RadixPrefixCache.lookup, hl, hcol, Bool.false_eq_true, if_false]
  split
  · exact ⟨_, _, rfl, rfl⟩
  · exact ⟨_, _, rfl, rfl⟩

theorem matchesPrefix_of_pruned (h : Trie c.root) (hp : Pruned c.root c'.root)
    (hclock : c'.clock = c.clock) : MatchesPrefix c c' := by
  intro tokens
  obtain ⟨root, out, root', out', hl, hl', hcol, hcol', hle, hpre⟩ :=
    lookupNode_pruned (tokens.length + 1) tokens c.tick h hp
  have htick : c'.tick = c.tick := by rw [RadixPrefixCache.tick, hclock, RadixPrefixCache.tick]
  obtain ⟨r, d, hlook, hr⟩ := lookup_reported hl hcol
  obtain ⟨r', d', hlook', hr'⟩ := lookup_reported (c := c') (htick ▸ hl') hcol'
  refine ⟨r, d, r', d', hlook, hlook', ?_⟩
  rw [hr, hr']
  by_cases hpos' : 0 < out'.matched
  · rw [if_pos hpos', if_pos (Nat.lt_of_lt_of_le hpos' hle)]
    exact ⟨hle, hpre⟩
  · rw [if_neg hpos']
    exact ⟨Nat.zero_le _, List.nil_prefix⟩

theorem conserves_of_removal (h : Trie c.root) (hr : Removal (ord.apply c.root) gone c'.root)
    (hclock : c'.clock = c.clock) : Conserves c (gone.flatMap Prod.snd, c') where
  blocks := (blockIds_reorder (ord.reorder c.root)).symm.trans
    (Removal.blockIds hr (keyed_listed ord (keyed_of_trie h)))
  lookups := matchesPrefix_of_pruned h (pruned_of_removal ord (keyed_of_trie h) hr).1 hclock

theorem conserves_evict (h : Trie c.root) (ord : HashOrder) (k : Nat) :
    Conserves c (c.evict ord k) := by
  obtain ⟨gone, hfreed, hr, -⟩ := evict_removal ord k (keyed_of_trie h)
  have hc := conserves_of_removal h hr rfl
  rwa [← hfreed] at hc

theorem conserves_evictFilter (h : Trie c.root) (ord : HashOrder) (k : Nat)
    (keep : Nat → List BlockId → Bool) : Conserves c (c.evictFilter ord k keep) := by
  obtain ⟨gone, hfreed, hr, -⟩ :=
    evictFilter_removal ord k keep (keyed_listed ord (keyed_of_trie h))
  have hc := conserves_of_removal h hr rfl
  rwa [List.flatMap_map, ← hfreed] at hc

theorem removesKept (h : Keyed c.root) (ord : HashOrder) (k : Nat)
    (keep : Nat → List BlockId → Bool) : RemovesKept c ord k keep := by
  intro path node hat hnone
  have hk := keyed_listed ord h
  obtain ⟨n, hn, hlisted⟩ := nodeAt_reorder (ord.reorder c.root) h hat
  obtain ⟨gone, -, hr, hkept⟩ := evictFilter_removal ord k keep hk
  have hmem : path ∈ (gone.map fun l => (l.path, l.blocks)).map Prod.fst := by
    by_contra hnot
    have hsome := (Removal.isSome_nodeAt hr hk path).mpr ⟨by rw [hn]; rfl, hnot⟩
    rw [hnone] at hsome
    cases hsome
  rw [List.map_map, List.mem_map] at hmem
  obtain ⟨l, hl, rfl⟩ := hmem
  obtain ⟨i, hi, hkeep⟩ := hkept l hl
  have hcollected := (List.perm_insertionSort _ _).mem_iff.mp (List.mem_of_getElem? hi)
  obtain ⟨rel, leaf, -, hat', hl', rfl⟩ := (mem_collectLeaves hk [] l).mp hcollected
  -- the collected leaf is the node that is gone
  cases hn.symm.trans hat'
  obtain ⟨⟨-, hb, -⟩, ha⟩ := label_eq_iff.mp (label_reorder hlisted)
  rw [← isLeaf_reorder hlisted, ← ha, ← hb]
  exact ⟨hl', i, hi, hkeep⟩

/-! ## Running out of leaves -/

theorem nodeAt_cons {node child : RadixNode} {key : Token} (hc : node.child? key = some child)
    (path : List Token) : nodeAt node (key :: path) = nodeAt child path := by
  rw [nodeAt, hc]
  rfl

theorem BeforeLastReading.child {node child : RadixNode} {key : Token} (h : BeforeLastReading node)
    (hc : node.child? key = some child) : BeforeLastReading child := by
  intro path n _ hat hl
  exact h (key :: path) n (by simp) ((nodeAt_cons hc path).trans hat) hl

/-- Where no inner node was accessed at the last reading, a leaf is found while there
is a node. -/
theorem children_of_findLruLeaf_none {node : RadixNode} (h : Keyed node)
    (hb : BeforeLastReading node) (hf : findLruLeaf node = none) : node.children = [] := by
  induction h with
  | @mk node hn hs ih =>
    obtain ⟨hinner, hlast⟩ := findLruLeaf_none (.mk hn hs) hf
    by_contra hne
    obtain ⟨e, he⟩ := List.exists_mem_of_ne_nil _ hne
    have hc : node.child? e.1 = some e.2 := List.mem_dlookup hn he
    have hlt := hb [e.1] e.2 (by simp) (nodeAt_cons hc []) (hinner e he)
    cases hfound : findLruLeaf e.2 with
    | none =>
      have hnil := ih e he (hb.child hc) hfound
      have := hinner e he
      rw [isLeaf, hnil] at this
      cases this
    | some found =>
      have := hlast e he (by rw [hfound]; rfl)
      omega

theorem BeforeLastReading.pruned {a b : RadixNode} (h : BeforeLastReading a) (hp : Pruned a b) :
    BeforeLastReading b := by
  intro path n' hne hat' hl'
  obtain ⟨n, hat, hpn, hln⟩ := hp.atPath hat'
  have hl : n.isLeaf = false := by
    by_contra hleaf
    rw [hpn.isLeaf (by simpa using hleaf)] at hl'
    cases hl'
  rw [(label_eq_iff.mp hln).2]
  exact h path n hne hat hl

/-- The search passes no inner node accessed at the last reading. -/
theorem lastAccess_of_found {node x : RadixNode} {path q : List Token} {blocks : List BlockId}
    (h : Keyed node) (hf : findLruLeaf node = some (path, blocks)) (hq : q ≠ [])
    (hpre : q <+: path) (hat : nodeAt node q = some x) (hl : x.isLeaf = false) :
    x.lastAccess < 2 ^ 64 - 1 := by
  induction h generalizing path q with
  | @mk node hn hs ih =>
    cases q with
    | nil => exact absurd rfl hq
    | cons key q =>
      rcases findLruLeaf_some (.mk hn hs) hf with
        ⟨key', leaf, hfirst, rfl, -⟩ | ⟨-, key', child, rest, hfirst, hlt, hc, rfl⟩
      · obtain ⟨rfl, hnil⟩ := List.cons_prefix_cons.mp hpre
        obtain ⟨-, -, -, hleaf, -⟩ := id hfirst
        rw [List.prefix_nil.mp hnil, nodeAt_cons (List.mem_dlookup hn hfirst.mem)] at hat
        cases hat
        rw [hl] at hleaf
        cases hleaf
      · obtain ⟨rfl, hrest⟩ := List.cons_prefix_cons.mp hpre
        rw [nodeAt_cons (List.mem_dlookup hn hfirst.mem)] at hat
        cases q with
        | nil =>
          cases hat
          exact hlt
        | cons key'' q => exact ih _ hfirst.mem hc (by simp) hrest hat

/-- An inner node accessed at the last reading stays, and all above it. -/
theorem evictLoop_keeps {x : RadixNode} {q : List Token} (k fuel : Nat) (root : RadixNode)
    (freed : List BlockId) (h : Keyed root) (hq : q ≠ []) (hat : nodeAt root q = some x)
    (hl : x.isLeaf = false) (hlast : 2 ^ 64 - 1 ≤ x.lastAccess) :
    nodeAt (RadixPrefixCache.evictLoop k fuel root freed).2 q = some x := by
  induction fuel generalizing root freed with
  | zero => exact hat
  | succ fuel ih =>
    simp only [RadixPrefixCache.evictLoop]
    split
    · cases hf : findLruLeaf root with
      | none => exact hat
      | some found =>
        obtain ⟨path, blocks⟩ := found
        obtain ⟨-, leaf, hleaf, hll, -⟩ := isLeafOf_findLruLeaf h hf
        have habove : ¬ q <+: path := by
          intro hpre
          have := lastAccess_of_found h hf hq hpre hat hl
          omega
        have hbelow : ¬ path <+: q := by
          intro hpre
          exact habove (eq_of_below_leaf hleaf hll hpre hat ▸ List.prefix_rfl)
        exact ih _ _ (keyed_removePath path h)
          ((nodeAt_removePath path q root habove hbelow).trans hat)
    · exact hat

theorem nodes_eq_zero : c.nodes = 0 ↔ c.root.children = [] := by
  rw [RadixPrefixCache.nodes, countNodes_eq]
  cases c.root.children with
  | nil => simp
  | cons e rest => simp

/-- With an inner node accessed at the last reading, `evict` comes to a stop with
nodes left, in whatever order the maps are. -/
theorem stalls (h : Trie c.root) (hb : ¬ BeforeLastReading c.root) (ord : HashOrder) :
    ∃ k, (c.evict ord k).1.length < k ∧ (c.evict ord k).2.nodes ≠ 0 := by
  have hk := keyed_of_trie h
  simp only [BeforeLastReading, not_forall] at hb
  obtain ⟨path, node, hne, hat, hl, hlast⟩ := hb
  obtain ⟨x, hx, hlisted⟩ := nodeAt_reorder (ord.reorder c.root) hk hat
  obtain ⟨-, ha⟩ := label_eq_iff.mp (label_reorder hlisted)
  rw [← isLeaf_reorder hlisted] at hl
  rw [← ha] at hlast
  refine ⟨(blockIds c.root).length + 1, ?_, fun hempty => ?_⟩
  · have hlen := (conserves_evict h ord ((blockIds c.root).length + 1)).blocks.length_eq
    rw [List.length_append] at hlen
    omega
  · have hstay : nodeAt (c.evict ord ((blockIds c.root).length + 1)).2.root path = some x :=
      evictLoop_keeps _ _ _ [] (keyed_listed ord hk) hne hx hl (Nat.le_of_not_lt hlast)
    have hleaf : (c.evict ord ((blockIds c.root).length + 1)).2.root.isLeaf = true := by
      rw [isLeaf, nodes_eq_zero.mp hempty]
      rfl
    rw [nodeAt_leaf hleaf hne] at hstay
    cases hstay

theorem freesEnough_iff (h : Trie c.root) : FreesEnough c ↔ BeforeLastReading c.root := by
  constructor
  · intro hfrees
    by_contra hb
    obtain ⟨k, hfew, hleft⟩ := stalls h hb .listed
    exact (hfrees .listed k).elim (Nat.not_le.mpr hfew) hleft
  · intro hb ord k
    have hk := keyed_of_trie h
    obtain ⟨gone, -, hr, hend⟩ := evict_removal ord k hk
    obtain ⟨hp, hkeyed⟩ := pruned_of_removal ord hk hr
    exact hend.imp_right fun hf =>
      nodes_eq_zero.mpr (children_of_findLruLeaf_none hkeyed (hb.pruned hp) hf)

/-- **Evictions conserve the blocks.** In every state of every run, an eviction
returns exactly the block ids the tree loses, lookups afterwards match a prefix of
what they matched, and a filtered eviction takes away leaves the filter let go and
nothing else; and `evict` frees enough or empties the tree, whatever it is asked
for, exactly when no inner node was accessed at the last reading of the clock. -/
theorem eviction_conserves_iff (tr : List (Op × RadixPrefixCache)) (hrun : Along Step .new tr) :
    ∀ c ∈ visited .new tr,
      EvictionsConserve c ∧ (FreesEnough c ↔ BeforeLastReading c.root) := by
  intro c hc
  have h := trie_visited hrun c hc
  refine ⟨⟨fun ord k => ?_, conserves_evict h, conserves_evictFilter h,
    removesKept (keyed_of_trie h)⟩, freesEnough_iff h⟩
  obtain ⟨-, -, -, hend⟩ := evict_removal ord k (keyed_of_trie h)
  exact hend

/-- Two prompts that share their first block, and an eviction between lookups. -/
theorem eviction_conserves_iff_shared_block :
    let tr := replay exec RadixPrefixCache.new [.insert (ramp 0 32) [10, 11],
      .insert (ramp 0 16 ++ ramp 100 16) [10, 21], .lookup (ramp 0 20), .evict .listed 1]
    tr.length = 4 ∧ ∀ c ∈ visited RadixPrefixCache.new tr,
      EvictionsConserve c ∧ (FreesEnough c ↔ BeforeLastReading c.root) :=
  ⟨by decide +kernel, eviction_conserves_iff _ (along_replay exec _ _)⟩

/-! ## A stall -/

/-- Lookups of nothing only move the clock and the count of misses. -/
def idle (c : RadixPrefixCache) (n : Nat) : RadixPrefixCache :=
  { c with clock := c.clock + n, misses := c.misses + n }

theorem leads_idle (n : Nat) (hn : c.clock + n < 2 ^ 64) : Leads Step c (idle c n) := by
  induction n with
  | zero => exact .refl Step c
  | succ n ih =>
    refine (ih (by omega)).trans (.single (a := .lookup []) ?_)
    have htick : (idle c n).tick = c.clock + (n + 1) := Nat.mod_eq_of_lt hn
    show exec (idle c n) (.lookup []) = .ok (idle c (n + 1))
    simp only [exec, RadixPrefixCache.lookup, htick]
    rfl

/-- Two prompts that share their first block. -/
def shared : RadixPrefixCache :=
  final exec .new [.insert (ramp 0 32) [10, 11], .insert (ramp 0 16 ++ ramp 100 16) [10, 21]]

/-- After `2 ^ 64 - 4` lookups of nothing the shared block is looked up at the last
reading of the clock: `evict` then finds no leaf, with three nodes in the tree. -/
theorem evict_stalls_at_last_reading : ∃ tr : List (Op × RadixPrefixCache), Along Step .new tr ∧
    ∃ c ∈ visited .new tr, c.nodes = 3 ∧ (c.evict .listed 1).1 = [] ∧
      (c.evict .listed 1).2.nodes = 3 ∧ ¬ FreesEnough c := by
  have hclock : shared.clock = 2 := by decide +kernel
  have hroom : shared.clock + (2 ^ 64 - 4) < 2 ^ 64 := by omega
  have hlead : Leads Step .new
      (final exec (idle shared (2 ^ 64 - 4)) [.lookup (ramp 0 16)]) :=
    ((leads_final exec _ _).trans (leads_idle _ hroom)).trans (leads_final exec _ _)
  obtain ⟨tr, hrun, hmem⟩ := hlead.visited
  have hstall : let c := final exec (idle shared (2 ^ 64 - 4)) [.lookup (ramp 0 16)]
      c.nodes = 3 ∧ (c.evict .listed 1).1 = [] ∧ (c.evict .listed 1).2.nodes = 3 := by
    decide +kernel
  obtain ⟨hnodes, hfreed, hleft⟩ := hstall
  refine ⟨tr, hrun, _, hmem, hnodes, hfreed, hleft, fun hfrees => ?_⟩
  rcases hfrees .listed 1 with henough | hempty
  · rw [hfreed] at henough
    cases henough
  · rw [hleft] at hempty
    cases hempty

end JustApi.Inference.EvictionConserves
