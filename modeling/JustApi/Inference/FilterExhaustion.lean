import JustApi.Inference.RadixRuns

/-! # When a filtered eviction is exhaustive

`evict_filter` lists the leaves once and goes through the list, so a node that
becomes a leaf on the way is not asked about. It gives back fewer blocks than asked
for and leaves a leaf the filter would let go exactly when it cannot get enough from
the leaves there are and takes away all children of a node the filter lets go. -/
namespace JustApi.Inference.FilterExhaustion
open JustApi.Lib.Run JustApi.Inference.KvCache JustApi.Inference.RadixCache
open JustApi.Inference.RadixWalks JustApi.Inference.RadixRemoval JustApi.Inference.RadixRuns
open JustApi.Inference.RadixCorrect (Op ramp)
open RadixNode

/-- When `evict_filter` returns fewer blocks than asked for, no leaf that is left
satisfies `keep`. -/
def Exhaustive (c : RadixPrefixCache) (ord : HashOrder) (k : Nat) (keep : List BlockId → Bool) :
    Prop :=
  (c.evictFilter ord k fun _ => keep).1.length < k → ∀ path blocks,
    IsLeafOf (c.evictFilter ord k fun _ => keep).2.root path blocks → keep blocks = false

/-- When `evict_filter` returns nothing, no leaf that is left satisfies `keep`: the
scheduler then gives the admission up. -/
def GivesUpRightly (c : RadixPrefixCache) (ord : HashOrder) (k : Nat) (keep : List BlockId → Bool) :
    Prop :=
  (c.evictFilter ord k fun _ => keep).1 = [] → ∀ path blocks,
    IsLeafOf (c.evictFilter ord k fun _ => keep).2.root path blocks → keep blocks = false

/-- The blocks of the listed leaves that satisfy `keep`. -/
def allowed (keep : List BlockId → Bool) (leaves : List Leaf) : List BlockId :=
  (leaves.filter fun l => keep l.blocks).flatMap Leaf.blocks

/-- The blocks that the leaves of the tree can give. -/
def freeable (root : RadixNode) (keep : List BlockId → Bool) : List BlockId :=
  allowed keep (collectLeaves root [])

/-- A node below the root that satisfies `keep` has children, and all of them are
leaves that satisfy `keep`. -/
def Covered (root : RadixNode) (keep : List BlockId → Bool) : Prop :=
  ∃ path node, path ≠ [] ∧ nodeAt root path = some node ∧ keep node.blocks = true ∧
    node.isLeaf = false ∧ ∀ e ∈ node.children, e.2.isLeaf = true ∧ keep e.2.blocks = true

/-! ## The loop with a stable filter -/

variable {keep : List BlockId → Bool} {root root' : RadixNode} {leaves : List Leaf} {k : Nat}

theorem allowed_cons (l : Leaf) (leaves : List Leaf) : allowed keep (l :: leaves) =
    if keep l.blocks then l.blocks ++ allowed keep leaves else allowed keep leaves := by
  unfold allowed
  by_cases h : keep l.blocks <;> simp [h]

/-- When the leaves listed have enough, the loop returns enough. -/
theorem evictLeaves_enough (calls : Nat) (root : RadixNode) (freed : List BlockId)
    (h : k ≤ freed.length + (allowed keep leaves).length) :
    k ≤ (RadixPrefixCache.evictLeaves k (fun _ => keep) leaves calls root freed).1.length := by
  induction leaves generalizing calls root freed with
  | nil => simpa [allowed, RadixPrefixCache.evictLeaves] using h
  | cons l rest ih =>
    rw [allowed_cons] at h
    simp only [RadixPrefixCache.evictLeaves]
    split
    · assumption
    · split
      · rename_i hkeep
        rw [if_pos hkeep, List.length_append] at h
        exact ih _ _ _ (by rw [List.length_append]; omega)
      · rename_i hkeep
        rw [if_neg hkeep] at h
        exact ih _ _ _ h

/-- When they have not, the loop takes out all that satisfy `keep`. -/
theorem evictLeaves_all (calls : Nat) (root : RadixNode) (freed : List BlockId)
    (h : freed.length + (allowed keep leaves).length < k)
    (hleaf : ∀ l ∈ leaves, IsLeafOf root l.path l.blocks) (hnd : (leaves.map Leaf.path).Nodup) :
    let r := RadixPrefixCache.evictLeaves k (fun _ => keep) leaves calls root freed
    r.1 = freed ++ allowed keep leaves ∧ Removal root
      ((leaves.filter fun l => keep l.blocks).map fun l => (l.path, l.blocks)) r.2 := by
  induction leaves generalizing calls root freed with
  | nil => exact ⟨by simp [allowed, RadixPrefixCache.evictLeaves], .nil root⟩
  | cons l rest ih =>
    rw [allowed_cons] at h ⊢
    rw [List.map_cons, List.nodup_cons] at hnd
    have hroom : ¬ k ≤ freed.length := by omega
    simp only [RadixPrefixCache.evictLeaves, if_neg hroom]
    by_cases hkeep : keep l.blocks = true
    · simp only [hkeep, if_true, List.filter_cons, List.map_cons] at h ⊢
      obtain ⟨hfreed, hr⟩ := ih (calls + 1) (removePath root l.path).1 (freed ++ l.blocks)
        (by rw [List.length_append] at h ⊢; omega) (isLeafOf_removePath hleaf hnd.1) hnd.2
      exact ⟨by rw [hfreed, List.append_assoc], .cons (hleaf l List.mem_cons_self) hr⟩
    · simp only [hkeep, if_false, List.filter_cons, Bool.false_eq_true] at h ⊢
      exact ih (calls + 1) root freed h (fun l' hl' => hleaf l' (List.mem_cons_of_mem _ hl')) hnd.2

/-! ## What is uncovered -/

theorem covered_reorder (hr : Reorder root root') (h : Keyed root) (hc : Covered root keep) :
    Covered root' keep := by
  obtain ⟨path, node, hne, hat, hkeep, hl, hall⟩ := hc
  obtain ⟨node', hat', hnn⟩ := nodeAt_reorder hr h hat
  obtain ⟨⟨-, hb, -⟩, -⟩ := label_eq_iff.mp (label_reorder hnn)
  refine ⟨path, node', hne, hat', hb ▸ hkeep, isLeaf_reorder hnn ▸ hl, fun e' he' => ?_⟩
  have hk := h.atPath hat
  have hc' : nodeAt node' [e'.1] = some e'.2 := by
    rw [nodeAt_single]
    exact List.mem_dlookup (child?_reorder hnn hk).1.nodupKeys he'
  obtain ⟨e, he, hee⟩ := nodeAt_reorder (reorder_symm hnn) (child?_reorder hnn hk).1 hc'
  rw [nodeAt_single] at he
  obtain ⟨hle, hke⟩ := hall _ (List.of_mem_dlookup he)
  obtain ⟨⟨-, hbe, -⟩, -⟩ := label_eq_iff.mp (label_reorder hee)
  exact ⟨(isLeaf_reorder hee).symm.trans hle, hbe ▸ hke⟩

/-- With all leaves that satisfy `keep` taken out, one that satisfies it is left
exactly when it was covered by them. -/
theorem leaf_left_iff (h : Keyed root) {gone : List Leaf}
    (hgone : ∀ l, l ∈ gone ↔ l ∈ collectLeaves root [] ∧ keep l.blocks = true)
    (hr : Removal root (gone.map fun l => (l.path, l.blocks)) root') :
    (∃ path blocks, IsLeafOf root' path blocks ∧ keep blocks = true) ↔ Covered root keep := by
  have hpath (path : List Token) : path ∈ (gone.map fun l => (l.path, l.blocks)).map Prod.fst ↔
      ∃ leaf, path ≠ [] ∧ nodeAt root path = some leaf ∧ leaf.isLeaf = true ∧
        keep leaf.blocks = true := by
    rw [List.map_map, List.mem_map]
    constructor
    · intro ⟨l, hl, hp⟩
      obtain ⟨hcollected, hkeep⟩ := (hgone l).mp hl
      obtain ⟨rel, leaf, hne, hat, hleaf, rfl⟩ := (mem_collectLeaves h [] l).mp hcollected
      cases hp
      exact ⟨leaf, hne, hat, hleaf, hkeep⟩
    · intro ⟨leaf, hne, hat, hleaf, hkeep⟩
      refine ⟨⟨leaf.lastAccess, path, leaf.blocks⟩, (hgone _).mpr ⟨?_, hkeep⟩, rfl⟩
      exact (mem_collectLeaves h [] _).mpr ⟨path, leaf, hne, hat, hleaf, rfl⟩
  have hstays := Removal.isSome_nodeAt hr h
  constructor
  · intro ⟨path, blocks, ⟨hne, n', hat', hl', hb'⟩, hkeep⟩
    obtain ⟨n, hat, hlabel⟩ := Removal.pruned hr h path n' hat'
    obtain ⟨⟨-, hb, -⟩, -⟩ := label_eq_iff.mp hlabel
    have hkeepn : keep n.blocks = true := by rw [← hb, hb', hkeep]
    have hnot := ((hstays path).mp (by rw [hat']; rfl)).2
    have hl : n.isLeaf = false := by
      by_contra hleaf
      exact hnot ((hpath path).mpr ⟨n, hne, hat, by simpa using hleaf, hkeepn⟩)
    refine ⟨path, n, hne, hat, hkeepn, hl, fun e he => ?_⟩
    -- the child is not there any more, so it was one of the leaves taken out
    have hchild : nodeAt root (path ++ [e.1]) = some e.2 := by
      rw [nodeAt_append, hat, Option.bind_some, nodeAt_single]
      exact List.mem_dlookup (h.atPath hat).nodupKeys he
    have hnone : nodeAt root' (path ++ [e.1]) = none := by
      rw [nodeAt_append, hat', Option.bind_some, nodeAt_single]
      exact isLeaf_iff.mp hl' e.1
    have hmem : path ++ [e.1] ∈ (gone.map fun l => (l.path, l.blocks)).map Prod.fst := by
      by_contra hout
      have := (hstays (path ++ [e.1])).mpr ⟨by rw [hchild]; rfl, hout⟩
      rw [hnone] at this
      cases this
    obtain ⟨leaf, -, hat₁, hl₁, hk₁⟩ := (hpath _).mp hmem
    cases hchild.symm.trans hat₁
    exact ⟨hl₁, hk₁⟩
  · intro ⟨path, n, hne, hat, hkeep, hl, hall⟩
    have hout : path ∉ (gone.map fun l => (l.path, l.blocks)).map Prod.fst := by
      intro hmem
      obtain ⟨leaf, -, hat₁, hl₁, -⟩ := (hpath path).mp hmem
      cases hat.symm.trans hat₁
      rw [hl] at hl₁
      cases hl₁
    obtain ⟨n', hat'⟩ := Option.isSome_iff_exists.mp ((hstays path).mpr ⟨by rw [hat]; rfl, hout⟩)
    obtain ⟨n₁, hat₁, hlabel⟩ := Removal.pruned hr h path n' hat'
    cases hat.symm.trans hat₁
    obtain ⟨⟨-, hb, -⟩, -⟩ := label_eq_iff.mp hlabel
    refine ⟨path, n'.blocks, ⟨hne, n', hat', isLeaf_iff.mpr fun key => ?_, rfl⟩, hb ▸ hkeep⟩
    cases hc' : n'.child? key with
    | none => rfl
    | some c' =>
      -- a child that is still there was one, hence a leaf that was taken out
      have hsome : nodeAt root' (path ++ [key]) = some c' := by
        rw [nodeAt_append, hat', Option.bind_some, nodeAt_single, hc']
      obtain ⟨-, hout'⟩ := (hstays (path ++ [key])).mp (by rw [hsome]; rfl)
      obtain ⟨c, hc, -⟩ := Removal.pruned hr h _ c' hsome
      have hchild := hc
      rw [nodeAt_append, hat, Option.bind_some, nodeAt_single] at hchild
      obtain ⟨hlc, hkc⟩ := hall _ (List.of_mem_dlookup hchild)
      exact absurd ((hpath _).mpr ⟨c, by simp, hc, hlc, hkc⟩) hout'

/-- Either the leaves have enough and enough comes back, or they have not, all they
have comes back, and what is left is settled by what they covered. -/
theorem evictFilter_stable {c : RadixPrefixCache} (h : Keyed c.root) (ord : HashOrder) (k : Nat)
    (keep : List BlockId → Bool) : let r := c.evictFilter ord k fun _ => keep
    (k ≤ (freeable c.root keep).length ∧ k ≤ r.1.length) ∨
      ((freeable c.root keep).length < k ∧ r.1.length = (freeable c.root keep).length ∧
        ((∀ path blocks, IsLeafOf r.2.root path blocks → keep blocks = false) ↔
          ¬ Covered c.root keep)) := by
  intro r
  have hk := keyed_listed ord h
  have hsort := List.perm_insertionSort (fun a b : Leaf => a.access ≤ b.access)
    (collectLeaves (ord.apply c.root) [])
  have hsize : (allowed keep ((collectLeaves (ord.apply c.root) []).insertionSort
      fun a b => a.access ≤ b.access)).length = (freeable c.root keep).length := by
    have hperm := hsort.trans (collectLeaves_reorder (ord.reorder c.root) [])
    exact ((hperm.filter _).flatMap_right Leaf.blocks).length_eq
  by_cases henough : k ≤ (freeable c.root keep).length
  · refine .inl ⟨henough, evictLeaves_enough 0 (ord.apply c.root) [] ?_⟩
    rw [hsize, List.length_nil]
    omega
  · obtain ⟨hfreed, hr⟩ := @evictLeaves_all keep _ k 0 (ord.apply c.root) []
      (by rw [hsize, List.length_nil]; omega)
      (fun l hl => collectLeaves_isLeaf hk (hsort.mem_iff.mp hl))
      ((hsort.map Leaf.path).nodup_iff.mpr (collectLeaves_nodup hk []))
    have hreturned : r.1.length = (freeable c.root keep).length := by
      rw [← hsize]
      exact congrArg List.length hfreed
    have hleft := leaf_left_iff hk (fun l => by rw [List.mem_filter, hsort.mem_iff]) hr
    have hcovered : Covered (ord.apply c.root) keep ↔ Covered c.root keep :=
      ⟨covered_reorder (reorder_symm (ord.reorder c.root)) hk,
        covered_reorder (ord.reorder c.root) h⟩
    rw [hcovered] at hleft
    refine .inr ⟨Nat.lt_of_not_le henough, hreturned, ?_⟩
    rw [← hleft]
    constructor
    · intro hnone ⟨path, blocks, hl, hkeep⟩
      rw [hnone path blocks hl] at hkeep
      cases hkeep
    · intro hnone path blocks hl
      by_contra hkeep
      exact hnone ⟨path, blocks, hl, by simpa using hkeep⟩

theorem exhaustive_iff {c : RadixPrefixCache} (h : Keyed c.root) (ord : HashOrder) (k : Nat)
    (keep : List BlockId → Bool) :
    Exhaustive c ord k keep ↔ k ≤ (freeable c.root keep).length ∨ ¬ Covered c.root keep := by
  rcases evictFilter_stable h ord k keep with ⟨henough, hfull⟩ | ⟨hless, hreturned, hleft⟩
  · exact iff_of_true (fun hfew => absurd hfew (Nat.not_lt.mpr hfull)) (.inl henough)
  · rw [Exhaustive, hreturned, hleft]
    constructor
    · exact fun hex => .inr (hex hless)
    · exact fun hor _ => hor.resolve_left (Nat.not_le.mpr hless)

theorem givesUpRightly_iff {c : RadixPrefixCache} (h : Keyed c.root) (ord : HashOrder) {k : Nat}
    (hk : 0 < k) (keep : List BlockId → Bool) :
    GivesUpRightly c ord k keep ↔ freeable c.root keep ≠ [] ∨ ¬ Covered c.root keep := by
  rcases evictFilter_stable h ord k keep with ⟨henough, hfull⟩ | ⟨hless, hreturned, hleft⟩
  · refine iff_of_true (fun hnil => ?_) (.inl ?_)
    · rw [hnil, List.length_nil] at hfull
      omega
    · exact List.ne_nil_of_length_pos (Nat.lt_of_lt_of_le hk henough)
  · have hnil : (c.evictFilter ord k fun _ => keep).1 = [] ↔ freeable c.root keep = [] := by
      rw [← List.length_eq_zero_iff, hreturned, List.length_eq_zero_iff]
    rw [GivesUpRightly, hnil, hleft]
    constructor
    · intro hup
      by_cases hempty : freeable c.root keep = []
      · exact .inr (hup hempty)
      · exact .inl hempty
    · exact fun hor hempty => hor.resolve_left fun hne => hne hempty

/-- **When `evict_filter` is exhaustive.** In every state of every run, for every
number of blocks and every filter that answers the same throughout: what is left has
no leaf that satisfies the filter when too few blocks come back, exactly when the
leaves that satisfy it have enough blocks or cover no node that satisfies it; and
none when nothing comes back, exactly when those leaves have a block or cover no such
node. -/
theorem evict_filter_exhaustive_iff (tr : List (Op × RadixPrefixCache))
    (hrun : Along Step .new tr) : ∀ c ∈ visited .new tr, ∀ ord k keep,
      (Exhaustive c ord k keep ↔
        k ≤ (freeable c.root keep).length ∨ ¬ Covered c.root keep) ∧
      (0 < k → (GivesUpRightly c ord k keep ↔
        freeable c.root keep ≠ [] ∨ ¬ Covered c.root keep)) := by
  intro c hc ord k keep
  have h := keyed_of_trie (trie_visited hrun c hc)
  exact ⟨exhaustive_iff h ord k keep, fun hk => givesUpRightly_iff h ord hk keep⟩

/-- A prompt and one that goes on after it. -/
def continued : List Op := [.insert (ramp 0 16) [1], .insert (ramp 0 32) [1, 2]]

theorem evict_filter_exhaustive_iff_continued :
    let tr := replay exec RadixPrefixCache.new continued
    tr.length = 2 ∧ ∀ c ∈ visited RadixPrefixCache.new tr, ∀ ord k keep,
      (Exhaustive c ord k keep ↔
        k ≤ (freeable c.root keep).length ∨ ¬ Covered c.root keep) ∧
      (0 < k → (GivesUpRightly c ord k keep ↔
        freeable c.root keep ≠ [] ∨ ¬ Covered c.root keep)) :=
  ⟨by decide +kernel, evict_filter_exhaustive_iff _ (along_replay exec _ _)⟩

/-- Asked for two blocks, with a filter that lets everything go, `evict_filter`
returns the one of the longer prompt and leaves the shorter one, a leaf by then. -/
theorem evict_filter_leaves_uncovered : ∃ tr : List (Op × RadixPrefixCache),
    Along Step .new tr ∧ ∃ c ∈ visited .new tr,
      (c.evictFilter .listed 2 fun _ _ => true).1 = [2] ∧
      (c.evictFilter .listed 2 fun _ _ => true).2.nodes = 1 ∧
      ¬ Exhaustive c .listed 2 fun _ => true := by
  have hrun : ((final exec .new continued).evictFilter .listed 2 fun _ _ => true).1 = [2] ∧
      ((final exec .new continued).evictFilter .listed 2 fun _ _ => true).2.nodes = 1 ∧
      (collectLeaves ((final exec .new continued).evictFilter .listed 2
        fun _ _ => true).2.root []).map Leaf.path = [[0]] := by
    decide +kernel
  obtain ⟨hfreed, hnodes, hleaves⟩ := hrun
  refine ⟨_, along_replay exec .new continued, _, final_mem_visited exec _ _, hfreed, hnodes, ?_⟩
  intro hex
  have hkeyed : Keyed ((final exec .new continued).evictFilter .listed 2
      fun _ _ => true).2.root := by
    have hstate := trie_visited (along_replay exec .new continued) _ (final_mem_visited exec _ _)
    exact keyed_of_trie (@trie_step _ _ (.evictFilter .listed 2 fun _ _ => true) hstate rfl)
  obtain ⟨l, hl⟩ := List.exists_mem_of_ne_nil
    (collectLeaves ((final exec .new continued).evictFilter .listed 2 fun _ _ => true).2.root [])
    (fun hnil => by rw [hnil] at hleaves; cases hleaves)
  have hgone := hex (by rw [hfreed]; decide) _ _ (collectLeaves_isLeaf hkeyed hl)
  cases hgone

end JustApi.Inference.FilterExhaustion
