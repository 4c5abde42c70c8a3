import Mathlib.Algebra.BigOperators.Group.List.Basic
import Mathlib.Algebra.GroupWithZero.Nat
import JustApi.Inference.RadixWalks

/-! # What eviction can reach

A node leaves the tree as a whole and after everything below it, so the blocks of
a node stay as long as one block at or below it is in use. `evictable` counts the
others: evictions take away from it exactly what they report, and as long as it is
not zero the filter finds a leaf to let go. -/
namespace JustApi.Inference.EvictionReach
open JustApi.Lib JustApi.Inference.KvCache JustApi.Inference.RadixCache
open JustApi.Inference.RadixEntries JustApi.Inference.RadixWalks
open RadixNode

/-- One of the blocks is in use. -/
def anyLive (live : BlockId → Bool) (es : List Entry) : Bool := es.any fun e => live e.2

mutual
/-- How many blocks below a node evictions can free while the blocks `live` stay. -/
def evictable (live : BlockId → Bool) : RadixNode → Nat
  | mk _ _ children _ _ => evictableBelow live children
def evictableBelow (live : BlockId → Bool) : List (Σ _ : Token, RadixNode) → Nat
  | [] => 0
  | ⟨_, c⟩ :: rest =>
    (if anyLive live (edge c) then evictable live c else (edge c).length) + evictableBelow live rest
end

/-- The share of a child: all of it, or what is below it. -/
def evictableEdge (live : BlockId → Bool) (c : RadixNode) : Nat :=
  if anyLive live (edge c) then evictable live c else (edge c).length

variable {live : BlockId → Bool} {node c c' leaf : RadixNode} {k : Token} {es fs : List Entry}

theorem evictableBelow_eq (live : BlockId → Bool) (cs : List (Σ _ : Token, RadixNode)) :
    evictableBelow live cs = (cs.map fun e => evictableEdge live e.2).sum := by
  induction cs with
  | nil => rfl
  | cons e rest ih =>
    obtain ⟨k, c⟩ := e
    rw [evictableBelow, ih, List.map_cons, List.sum_cons]
    rfl

theorem evictable_eq (live : BlockId → Bool) (node : RadixNode) :
    evictable live node = (node.children.map fun e => evictableEdge live e.2).sum := by
  cases node with
  | mk tokens blocks children access hash => exact evictableBelow_eq live children

theorem anyLive_append : anyLive live (es ++ fs) = (anyLive live es || anyLive live fs) :=
  List.any_append

theorem anyLive_perm (h : es.Perm fs) : anyLive live es = anyLive live fs := h.any_eq

theorem anyLive_under (path : List Token) : anyLive live (under path es) = anyLive live es := by
  simp [anyLive, under, Function.comp_def]

theorem anyLive_eq_false : anyLive live es = false ↔ ∀ e ∈ es, live e.2 = false := by
  simp [anyLive]

theorem edge_length (c : RadixNode) : (edge c).length = c.blocks.length + (entries c).length := by
  simp [edge, under]

theorem anyLive_blocks (es : List Entry) : anyLive live es = (es.map Prod.snd).any live := by
  rw [List.any_map]
  rfl

theorem anyLive_edge (c : RadixNode) :
    anyLive live (edge c) = (c.blocks.any live || anyLive live (entries c)) := by
  rw [edge, anyLive_append, anyLive_under, anyLive_blocks, blockPaths_map_snd]

/-- Where nothing is in use, everything can be evicted. -/
theorem evictable_of_unused (h : anyLive live (entries node) = false) :
    evictable live node = (entries node).length := by
  rw [evictable_eq, entries_eq, List.length_flatMap]
  refine congrArg List.sum (List.map_congr_left fun e he => ?_)
  rw [entries_eq] at h
  have hedge : anyLive live (edge e.2) = false := anyLive_eq_false.mpr fun x hx =>
    anyLive_eq_false.mp h x (List.mem_flatMap.mpr ⟨e, he, hx⟩)
  rw [evictableEdge, hedge]
  rfl

theorem evictable_perm {cs cs' : List (Σ _ : Token, RadixNode)} (h : cs.Perm cs') :
    (cs.map fun e => evictableEdge live e.2).sum = (cs'.map fun e => evictableEdge live e.2).sum :=
  (h.map _).sum_eq

/-- The share of one child, and the rest. -/
theorem evictable_child (h : node.child? k = some c) : evictable live node =
    evictableEdge live c + ((node.children.kerase k).map fun e => evictableEdge live e.2).sum := by
  rw [evictable_eq, evictable_perm (Assoc.perm_cons_kerase h), List.map_cons, List.sum_cons]

theorem evictable_setChild (node c : RadixNode) (k : Token) : evictable live (node.setChild k c) =
    evictableEdge live c + ((node.children.kerase k).map fun e => evictableEdge live e.2).sum := by
  rw [evictable_eq]
  rfl

theorem evictable_leaf (h : leaf.isLeaf = true) : evictable live leaf = 0 := by
  rw [evictable_eq, List.isEmpty_iff.mp h]
  rfl

/-! ## Rearranging -/

/-- The share of a child whose node is rearranged below. -/
theorem evictableEdge_congr (hr : Refreshed c c') (he : evictable live c' = evictable live c) :
    evictableEdge live c' = evictableEdge live c := by
  have hperm : (edge c').Perm (edge c) := by
    have hbelow : (entries c').Perm (entries c ++ []) := by simpa using hr.entries
    simpa using hr.same.edge_perm hbelow
  rw [evictableEdge, evictableEdge, anyLive_perm hperm, hperm.length_eq, he]

theorem evictable_touch (node : RadixNode) (now : Nat) :
    evictable live (node.touch now) = evictable live node := by
  rw [evictable_eq, evictable_eq]
  rfl

theorem evictable_reorder {a b : RadixNode} (hr : Reorder a b) (h : Aligned a) :
    evictable live b = evictable live a := by
  induction hr with
  | refl node => rfl
  | trans hab hbc ihab ihbc => rw [ihbc (Reorder.refreshed hab h).aligned, ihab h]
  | @perm node cs hp =>
    rw [evictable_eq, evictable_eq live node]
    exact (evictable_perm hp).symm
  | @child node before after key c c' hcs hrc ih =>
    have hal := h.subtree ⟨key, c⟩ (by simp [hcs])
    have hshare := evictableEdge_congr (Reorder.refreshed hrc hal) (ih hal)
    rw [evictable_eq, evictable_eq live node, hcs]
    show ((before ++ ⟨key, c'⟩ :: after).map fun e => evictableEdge live e.2).sum = _
    simp only [List.map_append, List.map_cons, hshare]

/-- A lookup leaves as much to evict as before. -/
theorem evictable_lookupNode {fuel : Nat} {tokens : List Token} {now : Nat} {node' : RadixNode}
    {out : Found} (h : Aligned node) (hl : lookupNode fuel node tokens now = .ok (node', out)) :
    evictable live node' = evictable live node := by
  induction fuel generalizing node node' tokens out with
  | zero =>
    cases hl
    rfl
  | succ fuel ih =>
    cases hf : tokens.head? with
    | none =>
      rw [List.head?_eq_none_iff.mp hf] at hl
      cases hl
      rfl
    | some first =>
      cases hc : node.child? first with
      | none =>
        rw [lookupNode_none hf hc] at hl
        cases hl
        rfl
      | some child =>
        obtain ⟨hk, hchild⟩ := h.child hc
        by_cases hcp : commonPrefixLen tokens child.tokens = child.tokens.length
        · obtain ⟨child', out', hlook, hr, -⟩ := lookupNode_aligned fuel (child.touch now)
            (tokens.drop child.tokens.length) now (hchild.touch now)
          rw [lookupNode_full hf hc hcp hk.hash, hlook] at hl
          cases hl
          have he := (ih (hchild.touch now) hlook).trans (evictable_touch child now)
          rw [evictable_setChild, evictable_child hc,
            evictableEdge_congr ((Refreshed.touch hchild now).trans hr) he]
        · have hpos := commonPrefixLen_pos hf hk.head
          rw [lookupNode_inside hf hc hcp hpos (hk.div_le tokens)] at hl
          cases hl
          rw [evictable_setChild, evictable_child hc,
            evictableEdge_congr (.touch hchild now) (evictable_touch child now)]

/-! ## Evicting -/

/-- Removing a leaf that is not in use takes its blocks off the count. -/
theorem evictable_removePath (path : List Token) (node leaf : RadixNode) (h : Aligned node)
    (hne : path ≠ []) (hat : nodeAt node path = some leaf) (hl : leaf.isLeaf = true)
    (hfree : leaf.blocks.any live = false) :
    evictable live node = leaf.blocks.length + evictable live (removePath node path).1 := by
  induction path generalizing node with
  | nil => exact absurd rfl hne
  | cons key rest ih =>
    obtain ⟨child, hc, hat⟩ := Option.bind_eq_some_iff.mp hat
    cases rest with
    | nil =>
      cases hat
      have hedge : anyLive live (edge leaf) = false := by
        rw [anyLive_edge, hfree, entries_leaf hl]
        rfl
      rw [removePath_single hc, evictable_child hc, evictableEdge, hedge,
        evictable_eq live (node.withChildren _), edge_length, entries_leaf hl]
      rfl
    | cons key' rest =>
      have hal := (h.child hc).2
      have hbelow := ih child hal (by simp) hat
      obtain ⟨⟨-, hb, -⟩, -⟩ := removePath_same (key' :: rest) child
      obtain ⟨gone, hgone, hperm⟩ := removePath_leaf (key' :: rest) child leaf (by simp) hat hl
      have hlen : gone.length = leaf.blocks.length := by rw [← hgone, List.length_map]
      have hunused : anyLive live gone = false := by rw [anyLive_blocks, hgone, hfree]
      -- the removed blocks are not in use, so the child is as much in use as before
      have hlive : anyLive live (edge (removePath child (key' :: rest)).1) =
          anyLive live (edge child) := by
        rw [anyLive_edge, anyLive_edge, hb, anyLive_perm hperm, anyLive_append, hunused,
          Bool.false_or]
      have hsize : (edge child).length =
          leaf.blocks.length + (edge (removePath child (key' :: rest)).1).length := by
        rw [edge_length, edge_length, hb, hperm.length_eq, List.length_append, hlen]
        omega
      have hshare : evictableEdge live child =
          leaf.blocks.length + evictableEdge live (removePath child (key' :: rest)).1 := by
        rw [evictableEdge, evictableEdge, hlive]
        split
        · exact hbelow
        · exact hsize
      rw [removePath_cons hc (by simp), evictable_setChild, evictable_child hc, hshare]
      omega

/-- Below a node with children there are blocks. -/
theorem entries_pos (h : Aligned node) (hl : node.isLeaf = false) : 0 < (entries node).length := by
  cases hcs : node.children with
  | nil =>
    rw [isLeaf, hcs] at hl
    cases hl
  | cons e rest =>
    have hb := List.length_pos_iff.mpr (h.edgeOk e (hcs ▸ List.mem_cons_self)).blocks_ne_nil
    rw [entries_eq, hcs, List.flatMap_cons, List.length_append, edge_length]
    omega

/-- While something can be evicted, a leaf of the tree is not in use. -/
theorem exists_unused_leaf (h : Aligned node) (path : List Token) (hpos : 0 < evictable live node) :
    ∃ l ∈ collectLeaves node path, l.blocks.any live = false ∧ l.blocks ≠ [] := by
  induction h generalizing path with
  | @mk node hnd hok hal ih =>
    rw [evictable_eq] at hpos
    obtain ⟨x, hx, hxpos⟩ := List.sum_pos_iff_exists_pos_nat.mp hpos
    obtain ⟨e, he, rfl⟩ := List.mem_map.mp hx
    have hblocks : e.2.blocks ≠ [] := (hok e he).blocks_ne_nil
    rw [collectLeaves_eq]
    by_cases hleaf : e.2.isLeaf = true
    · refine ⟨⟨e.2.lastAccess, path ++ [e.1], e.2.blocks⟩,
        List.mem_flatMap.mpr ⟨e, he, by simp [hleaf]⟩, ?_, hblocks⟩
      by_contra hused
      have hedge : anyLive live (edge e.2) = true := by
        rw [anyLive_edge, Bool.of_not_eq_false hused, Bool.true_or]
      rw [evictableEdge, hedge, if_pos rfl, evictable_leaf hleaf] at hxpos
      exact absurd hxpos (Nat.lt_irrefl 0)
    · have hbelow : 0 < evictable live e.2 := by
        rw [evictableEdge] at hxpos
        split at hxpos
        · exact hxpos
        · rename_i hedge
          rw [anyLive_edge, Bool.not_eq_true, Bool.or_eq_false_iff] at hedge
          rw [evictable_of_unused hedge.2]
          exact entries_pos (hal e he) (by simpa using hleaf)
      obtain ⟨l, hl, hunused⟩ := ih e he (path ++ [e.1]) hbelow
      exact ⟨l, List.mem_flatMap.mpr ⟨e, he, by simpa [hleaf] using hl⟩, hunused⟩

/-- Taking out leaves that are not in use takes their blocks off the count. -/
theorem evictable_removal {root root' : RadixNode} {gone : List (List Token × List BlockId)}
    (hr : Removal root gone root') (h : Aligned root)
    (hfree : ∀ g ∈ gone, g.2.any live = false) :
    evictable live root = (gone.flatMap Prod.snd).length + evictable live root' := by
  induction hr with
  | nil root => simp
  | @cons root root' path blocks gone hleaf _ ih =>
    obtain ⟨hne, leaf, hat, hl, rfl⟩ := hleaf
    rw [evictable_removePath path root leaf h hne hat hl (hfree _ List.mem_cons_self),
      ih (removePath_aligned path root h) fun g hg => hfree g (List.mem_cons_of_mem _ hg),
      List.flatMap_cons, List.length_append, Nat.add_assoc]

/-- A leaf with blocks that the filter lets go makes the loop report something. -/
theorem evictLeaves_ne_nil {n : Nat} (hn : 0 < n) {keep : Nat → List BlockId → Bool}
    (leaves : List Leaf) (calls : Nat) (root : RadixNode) (freed : List BlockId)
    (h : freed ≠ [] ∨ ∃ l ∈ leaves, (∀ i, keep i l.blocks = true) ∧ l.blocks ≠ []) :
    (RadixPrefixCache.evictLeaves n keep leaves calls root freed).1 ≠ [] := by
  induction leaves generalizing calls root freed with
  | nil => simpa [RadixPrefixCache.evictLeaves] using h
  | cons l rest ih =>
    simp only [RadixPrefixCache.evictLeaves]
    split
    · rename_i hfull
      exact List.ne_nil_of_length_pos (Nat.lt_of_lt_of_le hn hfull)
    · split
      · refine ih _ _ _ ?_
        rcases h with hf | ⟨l', hl', hkeep, hb⟩
        · exact .inl (List.append_ne_nil_of_left_ne_nil hf _)
        · rcases List.mem_cons.mp hl' with rfl | hl'
          · exact .inl (List.append_ne_nil_of_right_ne_nil _ hb)
          · exact .inr ⟨l', hl', hkeep, hb⟩
      · rename_i hk
        refine ih _ _ _ ?_
        rcases h with hf | ⟨l', hl', hkeep, hb⟩
        · exact .inl hf
        · rcases List.mem_cons.mp hl' with rfl | hl'
          · exact absurd (hkeep calls) hk
          · exact .inr ⟨l', hl', hkeep, hb⟩

variable {cache : RadixPrefixCache}

/-- An eviction that spares the leaves in use takes off the count what it reports,
and reports something while there is something. -/
theorem evictable_evictFilter (h : Aligned cache.root) (ord : HashOrder) {n : Nat} (hn : 0 < n)
    {keep : Nat → List BlockId → Bool} (hkeep : ∀ i bs, keep i bs = !bs.any live) :
    (cache.evictFilter ord n keep).1.length + evictable live (cache.evictFilter ord n keep).2.root =
        evictable live cache.root ∧
      (0 < evictable live cache.root → (cache.evictFilter ord n keep).1 ≠ []) := by
  have hr := Reorder.refreshed (ord.reorder cache.root) h
  have hsame : evictable live (ord.apply cache.root) = evictable live cache.root :=
    evictable_reorder (ord.reorder cache.root) h
  have hsort := List.perm_insertionSort (fun a b : Leaf => a.access ≤ b.access)
    (collectLeaves (ord.apply cache.root) [])
  constructor
  · obtain ⟨gone, hfreed, hgone, hkept⟩ :=
      evictFilter_removal ord n keep (keyed_of_aligned hr.aligned)
    have hfree : ∀ g ∈ gone.map fun l => (l.path, l.blocks), g.2.any live = false := by
      intro g hg
      obtain ⟨l, hl, rfl⟩ := List.mem_map.mp hg
      obtain ⟨i, -, hk⟩ := hkept l hl
      rw [hkeep] at hk
      simpa using hk
    rw [← hsame, evictable_removal hgone hr.aligned hfree, hfreed, List.flatMap_map]
  · intro hpos
    rw [← hsame] at hpos
    obtain ⟨l, hl, hunused, hb⟩ := exists_unused_leaf hr.aligned [] hpos
    exact evictLeaves_ne_nil hn _ 0 _ []
      (.inr ⟨l, hsort.mem_iff.mpr hl, fun i => by rw [hkeep, hunused]; rfl, hb⟩)

/-- A lookup leaves as much to evict as before. -/
theorem evictable_lookup {tokens : List Token} {r : Option (Nat × List BlockId)}
    {cache' : RadixPrefixCache} (h : Aligned cache.root)
    (hl : cache.lookup tokens = .ok (r, cache')) :
    evictable live cache'.root = evictable live cache.root := by
  obtain ⟨root, out, hlook, -⟩ :=
    lookupNode_aligned (tokens.length + 1) cache.root tokens cache.tick h
  have hroot : cache'.root = root := by
    simp only [RadixPrefixCache.lookup, hlook] at hl
    split at hl
    · cases hl
      rfl
    · split at hl <;> cases hl <;> rfl
  rw [hroot]
  exact evictable_lookupNode h hlook

end JustApi.Inference.EvictionReach
