import JustApi.Inference.RadixEntries

/-! # Reading and evicting on an aligned tree

`lookup` returns the blocks of entries along the query, and an eviction takes
away whole leaves. Both are stated over the entries of the tree, and then for
the operations of the cache. -/
namespace JustApi.Inference.RadixWalks
open JustApi.Lib JustApi.Lib.Assoc JustApi.Inference.KvCache JustApi.Inference.RadixCache
open JustApi.Inference.RadixEntries
open RadixNode

/-! ## Lookup -/

theorem matchLen_le (fuel : Nat) (node : RadixNode) (tokens : List Token) :
    matchLen fuel node tokens ≤ tokens.length := by
  induction fuel generalizing node tokens with
  | zero => simp [matchLen]
  | succ fuel ih =>
    cases hf : tokens.head? with
    | none => simp [List.head?_eq_none_iff.mp hf, matchLen_nil]
    | some first =>
      cases hc : node.child? first with
      | none => simp [matchLen_none hf hc]
      | some child =>
        have hle := commonPrefixLen_le_left tokens child.tokens
        by_cases hcp : commonPrefixLen tokens child.tokens = child.tokens.length
        · have := ih child (tokens.drop child.tokens.length)
          rw [List.length_drop] at this
          rw [matchLen_full hf hc hcp]
          omega
        · rw [matchLen_inside hf hc hcp]
          exact hle

theorem mem_entries {node : RadixNode} {p : List Token} {b : BlockId} :
    (p, b) ∈ entries node ↔ ∃ e ∈ node.children, (p, b) ∈ edge e.2 := by
  rw [entries_eq, List.mem_flatMap]

theorem mem_edge {c : RadixNode} {p : List Token} {b : BlockId} :
    (p, b) ∈ edge c ↔ (p, b) ∈ blockPaths c.tokens c.blocks ∨
      ∃ q, (q, b) ∈ entries c ∧ p = c.tokens ++ q := by
  rw [edge, List.mem_append, mem_under]

/-- A lookup only refreshes access times. -/
structure Refreshed (node node' : RadixNode) : Prop where
  same : SameEdge node node'
  aligned : Aligned node'
  entries : (entries node').Perm (entries node)

theorem Refreshed.setChild {node c c' : RadixNode} {k : Token} (h : Aligned node)
    (hc : node.child? k = some c) (hr : Refreshed c c') :
    Refreshed node (node.setChild k c') := by
  refine ⟨⟨rfl, rfl, rfl⟩, h.setChild (hr.same.edgeOk (h.child hc).1) hr.aligned, ?_⟩
  have he : (RadixEntries.entries c').Perm (RadixEntries.entries c ++ []) := by
    simpa using hr.entries
  simpa using entries_grow hc (hr.same.edge_perm he)

/-- What a walk over an aligned tree finds: as many whole blocks as tokens were
matched, each an entry of the tree at its place in the query. -/
structure Reads (node : RadixNode) (tokens : List Token) (out : Found) : Prop where
  collision : out.collision = false
  length : out.blocks.length = out.matched / BLOCK_SIZE
  entry : ∀ (j : Nat) (b : BlockId), out.blocks[j]? = some b →
    (tokens.take ((j + 1) * BLOCK_SIZE), b) ∈ entries node

theorem Reads.nothing (node : RadixNode) (tokens : List Token) :
    Reads node tokens ⟨0, [], false⟩ := ⟨rfl, rfl, fun j b hj => by simp at hj⟩

theorem Refreshed.refl {node : RadixNode} (h : Aligned node) : Refreshed node node :=
  ⟨⟨rfl, rfl, rfl⟩, h, .refl _⟩

theorem Refreshed.touch {node : RadixNode} (h : Aligned node) (now : Nat) :
    Refreshed node (node.touch now) := ⟨⟨rfl, rfl, rfl⟩, h.touch now, by rw [entries_touch]⟩

theorem Refreshed.trans {a b c : RadixNode} (hab : Refreshed a b) (hbc : Refreshed b c) :
    Refreshed a c := by
  obtain ⟨ht, hb, hh⟩ := hab.same
  obtain ⟨ht', hb', hh'⟩ := hbc.same
  exact ⟨⟨ht'.trans ht, hb'.trans hb, hh'.trans hh⟩, hbc.aligned, hbc.entries.trans hab.entries⟩

section Step

variable {node child : RadixNode} {tokens : List Token} {first : Token}

/-- A block of a child's edge is an entry at its place in the query. -/
theorem own_entry (hc : node.child? first = some child) {j : Nat} {b : BlockId}
    (hj : child.blocks[j]? = some b)
    (hle : (j + 1) * BLOCK_SIZE ≤ commonPrefixLen tokens child.tokens) :
    (tokens.take ((j + 1) * BLOCK_SIZE), b) ∈ entries node := by
  have hmem := List.of_mem_dlookup hc
  refine mem_entries.mpr ⟨_, hmem, mem_edge.mpr (.inl (mem_blockPaths.mpr ⟨j, hj, ?_⟩))⟩
  have := congrArg (List.take ((j + 1) * BLOCK_SIZE)) (take_commonPrefixLen tokens child.tokens)
  rwa [List.take_take, List.take_take, Nat.min_eq_left hle] at this

/-- Reading on below a child whose whole edge matched. -/
theorem Reads.full {out : Found} (hc : node.child? first = some child) (hk : EdgeOk first child)
    (hcp : commonPrefixLen tokens child.tokens = child.tokens.length)
    (hr : Reads child (tokens.drop child.tokens.length) out) :
    Reads node tokens
      ⟨child.tokens.length + out.matched, child.blocks ++ out.blocks, out.collision⟩ := by
  have hB := blockSize_pos
  refine ⟨hr.collision, ?_, ?_⟩
  · rw [List.length_append, hr.length, hk.length, Nat.mul_comm, Nat.mul_add_div hB]
  · intro j b hj
    by_cases hjb : j < child.blocks.length
    · rw [List.getElem?_append_left hjb] at hj
      refine own_entry hc hj ?_
      rw [hcp, hk.length]
      exact Nat.mul_le_mul_right _ hjb
    · rw [List.getElem?_append_right (by omega)] at hj
      have htake := take_commonPrefixLen tokens child.tokens
      rw [hcp, List.take_length] at htake
      refine mem_entries.mpr ⟨_, List.of_mem_dlookup hc,
        mem_edge.mpr (.inr ⟨_, hr.entry _ b hj, ?_⟩)⟩
      have hj' : (j + 1) * BLOCK_SIZE =
          child.tokens.length + (j - child.blocks.length + 1) * BLOCK_SIZE := by
        rw [hk.length, ← Nat.add_mul]
        congr 1
        omega
      rw [hj', List.take_add, htake]

/-- Reading stops inside a child's edge. -/
theorem Reads.inside (hc : node.child? first = some child) (hk : EdgeOk first child) :
    Reads node tokens ⟨commonPrefixLen tokens child.tokens,
      child.blocks.take (commonPrefixLen tokens child.tokens / BLOCK_SIZE), false⟩ := by
  refine ⟨rfl, by rw [List.length_take, Nat.min_eq_left (hk.div_le tokens)], ?_⟩
  · intro j b hj
    obtain ⟨hj, hlt⟩ : child.blocks[j]? = some b ∧
        j < commonPrefixLen tokens child.tokens / BLOCK_SIZE := by
      rw [List.getElem?_take] at hj
      split at hj
      · exact ⟨hj, ‹_›⟩
      · cases hj
    refine own_entry hc hj ?_
    exact (Nat.le_div_iff_mul_le blockSize_pos).mp hlt

end Step

/-- **Lookup reads the entries along the query.** -/
theorem lookupNode_aligned (fuel : Nat) (node : RadixNode) (tokens : List Token) (now : Nat)
    (h : Aligned node) :
    ∃ node' out, lookupNode fuel node tokens now = .ok (node', out) ∧ Refreshed node node' ∧
      out.matched = matchLen fuel node tokens ∧ Reads node tokens out := by
  induction fuel generalizing node tokens with
  | zero => exact ⟨node, _, rfl, .refl h, rfl, .nothing node tokens⟩
  | succ fuel ih =>
    cases hf : tokens.head? with
    | none =>
      rw [List.head?_eq_none_iff] at hf
      subst hf
      exact ⟨node, _, rfl, .refl h, rfl, .nothing node []⟩
    | some first =>
      cases hc : node.child? first with
      | none =>
        exact ⟨node, _, lookupNode_none hf hc, .refl h, (matchLen_none hf hc).symm,
          .nothing node tokens⟩
      | some child =>
        obtain ⟨hk, hchild⟩ := h.child hc
        by_cases hcp : commonPrefixLen tokens child.tokens = child.tokens.length
        · obtain ⟨child', out, hlook, hr, hm, hreads⟩ := ih (child.touch now)
            (tokens.drop child.tokens.length) (hchild.touch now)
          have hreads' : Reads child (tokens.drop child.tokens.length) out :=
            ⟨hreads.collision, hreads.length, by rw [← entries_touch child now]; exact hreads.entry⟩
          refine ⟨_, _, by rw [lookupNode_full hf hc hcp hk.hash, hlook]; rfl,
            .setChild h hc ((Refreshed.touch hchild now).trans hr), ?_, hreads'.full hc hk hcp⟩
          rw [matchLen_full hf hc hcp, ← matchLen_touch fuel child _ now, ← hm]
        · have hpos := commonPrefixLen_pos hf hk.head
          have hreads := @Reads.inside _ _ tokens _ hc hk
          exact ⟨_, _, lookupNode_inside hf hc hcp hpos (hk.div_le tokens),
            .setChild h hc (.touch hchild now), (matchLen_inside hf hc hcp).symm, hreads⟩

/-- The tokens of an entry along the query are matched. -/
theorem length_le_matchLen (fuel : Nat) (node : RadixNode) (tokens p : List Token) (b : BlockId)
    (h : Aligned node) (hfuel : tokens.length < fuel) (hp : p <+: tokens)
    (hm : (p, b) ∈ entries node) : p.length ≤ matchLen fuel node tokens := by
  induction fuel generalizing node tokens p with
  | zero => omega
  | succ fuel ih =>
    obtain ⟨⟨k, c⟩, he, hm⟩ := mem_entries.mp hm
    have hc : node.child? k = some c := List.mem_dlookup h.nodupKeys he
    obtain ⟨hk, hal⟩ := h.child hc
    dsimp only at hm
    rcases mem_edge.mp hm with hm | ⟨q, hq, rfl⟩
    · -- the entry is on the child's own edge
      obtain ⟨j, -, rfl⟩ := mem_blockPaths.mp hm
      have hle := length_le_commonPrefixLen hp (List.take_prefix _ c.tokens)
      have hf : tokens.head? = some k := by
        obtain ⟨rest, rfl⟩ := hp
        rw [List.head?_append, List.head?_take, if_neg (by simp [BLOCK_SIZE]), hk.head]
        rfl
      by_cases hcp : commonPrefixLen tokens c.tokens = c.tokens.length
      · rw [matchLen_full hf hc hcp]
        omega
      · rw [matchLen_inside hf hc hcp]
        exact hle
    · -- the entry is below the child, whose whole edge the query has
      have hct : c.tokens <+: tokens := (List.prefix_append _ _).trans hp
      have hcp : commonPrefixLen tokens c.tokens = c.tokens.length :=
        Nat.le_antisymm (commonPrefixLen_le_right _ _)
          (length_le_commonPrefixLen hct (List.prefix_refl _))
      have hf : tokens.head? = some k := by
        obtain ⟨rest, rfl⟩ := hct
        rw [List.head?_append, hk.head]
        rfl
      have hpos := commonPrefixLen_pos hf hk.head
      obtain ⟨rest, rfl⟩ := hp
      have := ih c ((c.tokens ++ q ++ rest).drop c.tokens.length) q hal
        (by simp only [List.length_drop, List.length_append] at hfuel ⊢; omega)
        (by rw [List.append_assoc, List.drop_left]; exact List.prefix_append _ _) hq
      rw [matchLen_full hf hc hcp, List.length_append]
      omega

/-! ## Removal -/

/-- The node reached by a path of child keys. -/
def nodeAt : RadixNode → List Token → Option RadixNode
  | node, [] => some node
  | node, key :: rest => (node.child? key).bind fun c => nodeAt c rest

theorem child?_setChild_self (node c : RadixNode) (key : Token) :
    (node.setChild key c).child? key = some c := List.dlookup_kinsert _

theorem child?_setChild_ne {key key' : Token} (node c : RadixNode) (h : key' ≠ key) :
    (node.setChild key c).child? key' = node.child? key' := List.dlookup_kinsert_ne h

theorem removePath_single {node child : RadixNode} {key : Token} (hc : node.child? key = some child) :
    (removePath node [key]).1 = node.withChildren (node.children.kerase key) := by
  simp [removePath, hc]

theorem removePath_cons {node child : RadixNode} {key : Token} {rest : List Token}
    (hc : node.child? key = some child) (hne : rest ≠ []) :
    (removePath node (key :: rest)).1 = node.setChild key (removePath child rest).1 := by
  cases rest with
  | nil => exact absurd rfl hne
  | cons key' rest => simp [removePath, hc]

theorem nodeAt_leaf {leaf : RadixNode} {path : List Token} (h : leaf.isLeaf = true)
    (hne : path ≠ []) : nodeAt leaf path = none := by
  cases path with
  | nil => exact absurd rfl hne
  | cons key rest =>
    have hc : leaf.children = [] := List.isEmpty_iff.mp h
    simp [nodeAt, child?, hc]

theorem entries_leaf {leaf : RadixNode} (h : leaf.isLeaf = true) : entries leaf = [] := by
  have hc : leaf.children = [] := List.isEmpty_iff.mp h
  simp [entries_eq, hc]

/-- Removal changes a node's children at most. -/
theorem removePath_same (path : List Token) (node : RadixNode) :
    SameEdge node (removePath node path).1 ∧
      (removePath node path).1.lastAccess = node.lastAccess := by
  cases path with
  | nil => exact ⟨⟨rfl, rfl, rfl⟩, rfl⟩
  | cons key rest =>
    cases hc : node.child? key with
    | none =>
      have hstay : (removePath node (key :: rest)).1 = node := by simp only [removePath, hc]
      rw [hstay]
      exact ⟨⟨rfl, rfl, rfl⟩, rfl⟩
    | some child =>
      cases rest with
      | nil =>
        rw [removePath_single hc]
        exact ⟨⟨rfl, rfl, rfl⟩, rfl⟩
      | cons key' rest =>
        rw [removePath_cons hc (by simp)]
        exact ⟨⟨rfl, rfl, rfl⟩, rfl⟩

/-- What a removal makes of the children: each is one there was, or the one on the
path with something removed below it. -/
theorem removePath_children {path : List Token} {node : RadixNode} {e : Σ _ : Token, RadixNode}
    (he : e ∈ (removePath node path).1.children) : e ∈ node.children ∨ ∃ child rest,
      node.child? e.1 = some child ∧ path = e.1 :: rest ∧ e.2 = (removePath child rest).1 := by
  cases path with
  | nil => exact .inl he
  | cons key rest =>
    cases hc : node.child? key with
    | none =>
      simp only [removePath, hc] at he
      exact .inl he
    | some child =>
      cases rest with
      | nil =>
        rw [removePath_single hc] at he
        exact .inl ((List.kerase_sublist key _).subset he)
      | cons key' rest =>
        rw [removePath_cons hc (by simp)] at he
        rcases mem_of_mem_kinsert he with rfl | he
        · exact .inr ⟨child, key' :: rest, hc, rfl, rfl⟩
        · exact .inl he

theorem removePath_nodupKeys (path : List Token) {node : RadixNode}
    (h : node.children.NodupKeys) : (removePath node path).1.children.NodupKeys := by
  cases path with
  | nil => exact h
  | cons key rest =>
    cases hc : node.child? key with
    | none =>
      simp only [removePath, hc]
      exact h
    | some child =>
      cases rest with
      | nil =>
        rw [removePath_single hc]
        exact h.kerase key
      | cons key' rest =>
        rw [removePath_cons hc (by simp)]
        exact List.kinsert_nodupKeys key _ h

/-- Removal keeps a tree aligned, whatever the path. -/
theorem removePath_aligned (path : List Token) (node : RadixNode) (h : Aligned node) :
    Aligned (removePath node path).1 := by
  induction h generalizing path with
  | @mk node hn hok hs ih =>
    refine .mk (removePath_nodupKeys path hn) (fun e he => ?_) fun e he => ?_
    · rcases removePath_children he with he | ⟨child, rest, hc, -, he⟩
      · exact hok e he
      · rw [he]
        exact (removePath_same rest child).1.edgeOk (hok _ (List.of_mem_dlookup hc))
    · rcases removePath_children he with he | ⟨child, rest, hc, -, he⟩
      · exact hs e he
      · rw [he]
        exact ih _ (List.of_mem_dlookup hc) rest

/-- Removal only takes entries away. -/
theorem removePath_subset (path : List Token) (node : RadixNode) :
    entries (removePath node path).1 ⊆ entries node := by
  induction path generalizing node with
  | nil => exact List.Subset.refl _
  | cons key rest ih =>
    cases hc : node.child? key with
    | none => simp only [removePath, hc]; exact List.Subset.refl _
    | some child =>
      have hperm := entries_perm_child hc
      cases rest with
      | nil =>
        intro e he
        rw [removePath_single hc, entries_eq] at he
        exact hperm.mem_iff.mpr (List.mem_append_right _ he)
      | cons key' rest =>
        have hsub := ih child
        obtain ⟨⟨ht, hb, -⟩, -⟩ := removePath_same (key' :: rest) child
        intro e he
        rw [removePath_cons hc (by simp), entries_setChild, List.mem_append] at he
        refine hperm.mem_iff.mpr (List.mem_append.mpr (he.imp_left fun he => ?_))
        obtain ⟨p, b⟩ := e
        rw [mem_edge, ht, hb] at he
        exact mem_edge.mpr (he.imp_right fun ⟨q, hq, hp⟩ => ⟨q, hsub hq, hp⟩)

/-- Removing a leaf takes away exactly the entries of its edge. -/
theorem removePath_leaf (path : List Token) (node leaf : RadixNode)
    (hne : path ≠ []) (hat : nodeAt node path = some leaf) (hl : leaf.isLeaf = true) :
    ∃ gone, gone.map Prod.snd = leaf.blocks ∧
      (entries node).Perm (gone ++ entries (removePath node path).1) := by
  induction path generalizing node with
  | nil => exact absurd rfl hne
  | cons key rest ih =>
    obtain ⟨child, hc, hat⟩ := Option.bind_eq_some_iff.mp hat
    have hperm := entries_perm_child hc
    cases rest with
    | nil =>
      cases hat
      refine ⟨blockPaths leaf.tokens leaf.blocks, blockPaths_map_snd _ _, ?_⟩
      have hedge : edge leaf = blockPaths leaf.tokens leaf.blocks := by
        simp [edge, entries_leaf hl]
      rw [removePath_single hc, entries_eq (node.withChildren _), ← hedge]
      exact hperm
    | cons key' rest =>
      obtain ⟨gone, hgone, hp⟩ := ih child (by simp) hat
      obtain ⟨⟨ht, hb, -⟩, -⟩ := removePath_same (key' :: rest) child
      refine ⟨under child.tokens gone, by rw [under_map_snd, hgone], hperm.trans ?_⟩
      rw [removePath_cons hc (by simp), entries_setChild, ← List.append_assoc]
      refine List.Perm.append_right _ ?_
      simp only [edge, ht, hb]
      refine (List.Perm.append_left _ (under_perm hp)).trans ?_
      rw [under_append, ← List.append_assoc, ← List.append_assoc]
      exact List.perm_append_comm.append_right _

/-- A removal leaves the rest of the tree where it was. -/
theorem nodeAt_removePath (path other : List Token) (node : RadixNode)
    (habove : ¬ other <+: path) (hbelow : ¬ path <+: other) :
    nodeAt (removePath node path).1 other = nodeAt node other := by
  induction path generalizing node other with
  | nil => exact absurd List.nil_prefix hbelow
  | cons key rest ih =>
    cases other with
    | nil => exact absurd List.nil_prefix habove
    | cons key' rest' =>
      cases hc : node.child? key with
      | none => simp only [removePath, hc]
      | some child =>
        by_cases hk : key' = key
        · -- the paths part further down
          subst hk
          rw [List.cons_prefix_cons] at habove hbelow
          have hne : rest ≠ [] := fun he => hbelow ⟨rfl, he ▸ List.nil_prefix⟩
          rw [removePath_cons hc hne]
          simp only [nodeAt, child?_setChild_self, hc, Option.bind_some]
          exact ih rest' child (fun h => habove ⟨rfl, h⟩) fun h => hbelow ⟨rfl, h⟩
        · have hlook : (removePath node (key :: rest)).1.child? key' = node.child? key' := by
            cases rest with
            | nil =>
              rw [removePath_single hc]
              exact List.dlookup_kerase_ne hk
            | cons key'' rest => rw [removePath_cons hc (by simp), child?_setChild_ne node _ hk]
          simp only [nodeAt, hlook]

theorem nodeAt_append (node : RadixNode) (path rest : List Token) :
    nodeAt node (path ++ rest) = (nodeAt node path).bind fun n => nodeAt n rest := by
  induction path generalizing node with
  | nil => rfl
  | cons key path ih =>
    simp only [List.cons_append, nodeAt]
    cases node.child? key with
    | none => rfl
    | some child => exact ih child

/-- Nothing lies below a leaf. -/
theorem eq_of_below_leaf {node leaf n : RadixNode} {path other : List Token}
    (hat : nodeAt node path = some leaf) (hl : leaf.isLeaf = true) (hpre : path <+: other)
    (hother : nodeAt node other = some n) : path = other := by
  obtain ⟨rest, rfl⟩ := hpre
  rw [nodeAt_append, hat, Option.bind_some] at hother
  by_contra hne
  have hrest : rest ≠ [] := fun he => hne (by rw [he, List.append_nil])
  rw [nodeAt_leaf hl hrest] at hother
  cases hother

/-! ## Leaves -/

/-- A leaf of the tree as it is reported. -/
def IsLeafOf (node : RadixNode) (path : List Token) (blocks : List BlockId) : Prop :=
  path ≠ [] ∧ ∃ leaf, nodeAt node path = some leaf ∧ leaf.isLeaf = true ∧ leaf.blocks = blocks

/-- No map of the tree has a key twice. -/
inductive Keyed : RadixNode → Prop
  | mk {node : RadixNode} : node.children.NodupKeys → (∀ e ∈ node.children, Keyed e.2) → Keyed node

theorem Keyed.nodupKeys {node : RadixNode} (h : Keyed node) : node.children.NodupKeys := by
  cases h with
  | mk hn _ => exact hn

theorem Keyed.subtree {node : RadixNode} (h : Keyed node) : ∀ e ∈ node.children, Keyed e.2 := by
  cases h with
  | mk _ hs => exact hs

theorem Keyed.child {node c : RadixNode} {k : Token} (h : Keyed node)
    (hc : node.child? k = some c) : Keyed c := h.subtree _ (List.of_mem_dlookup hc)

theorem Keyed.atPath {node n : RadixNode} {path : List Token} (h : Keyed node)
    (hat : nodeAt node path = some n) : Keyed n := by
  induction path generalizing node with
  | nil =>
    cases hat
    exact h
  | cons key path ih =>
    obtain ⟨c, hc, hat⟩ := Option.bind_eq_some_iff.mp hat
    exact ih (h.child hc) hat

theorem keyed_of_aligned {node : RadixNode} (h : Aligned node) : Keyed node := by
  induction h with
  | mk hn _ _ ih => exact .mk hn ih

theorem collectBelow_eq (cs : List (Σ _ : Token, RadixNode)) (path : List Token) :
    collectBelow cs path = cs.flatMap fun e =>
      if e.2.isLeaf then [⟨e.2.lastAccess, path ++ [e.1], e.2.blocks⟩]
      else collectLeaves e.2 (path ++ [e.1]) := by
  induction cs with
  | nil => rfl
  | cons e rest ih =>
    obtain ⟨k, c⟩ := e
    simp only [collectBelow, List.flatMap_cons, ih]

theorem collectLeaves_eq (node : RadixNode) (path : List Token) :
    collectLeaves node path = node.children.flatMap fun e =>
      if e.2.isLeaf then [⟨e.2.lastAccess, path ++ [e.1], e.2.blocks⟩]
      else collectLeaves e.2 (path ++ [e.1]) := by
  cases node with
  | mk tokens blocks children access hash => exact collectBelow_eq children path

/-- The leaves are collected, and nothing else. -/
theorem mem_collectLeaves {node : RadixNode} (h : Keyed node) (path : List Token) (l : Leaf) :
    l ∈ collectLeaves node path ↔ ∃ rel leaf, rel ≠ [] ∧ nodeAt node rel = some leaf ∧
      leaf.isLeaf = true ∧ l = ⟨leaf.lastAccess, path ++ rel, leaf.blocks⟩ := by
  induction h generalizing path with
  | @mk node hnd hs ih =>
    rw [collectLeaves_eq, List.mem_flatMap]
    constructor
    · intro ⟨⟨k, c⟩, he, hl⟩
      have hc : node.child? k = some c := List.mem_dlookup hnd he
      dsimp only at hl
      split at hl
      · rename_i hleaf
        exact ⟨[k], c, by simp, by simp [nodeAt, hc], hleaf, List.mem_singleton.mp hl⟩
      · obtain ⟨rel, leaf, -, hat, hleaf, rfl⟩ := (ih _ he (path ++ [k])).mp hl
        exact ⟨k :: rel, leaf, by simp, by simpa [nodeAt, hc] using hat, hleaf, by simp⟩
    · intro ⟨rel, leaf, hne, hat, hleaf, hl⟩
      cases rel with
      | nil => exact absurd rfl hne
      | cons k rel =>
        obtain ⟨c, hc, hat⟩ := Option.bind_eq_some_iff.mp hat
        have he : ⟨k, c⟩ ∈ node.children := List.of_mem_dlookup hc
        refine ⟨⟨k, c⟩, he, ?_⟩
        cases rel with
        | nil =>
          cases hat
          simp [hleaf, hl]
        | cons k' rel =>
          have hinner : c.isLeaf = false := by
            by_contra hcl
            rw [nodeAt_leaf (by simpa using hcl) (by simp)] at hat
            cases hat
          simp only [hinner, Bool.false_eq_true, if_false]
          exact (ih _ he (path ++ [k])).mpr ⟨k' :: rel, leaf, by simp, hat, hleaf, by simp [hl]⟩

/-- Every collected leaf is one. -/
theorem collectLeaves_isLeaf {node : RadixNode} (h : Keyed node) {l : Leaf}
    (hl : l ∈ collectLeaves node []) : IsLeafOf node l.path l.blocks := by
  obtain ⟨rel, leaf, hne, hat, hleaf, rfl⟩ := (mem_collectLeaves h [] l).mp hl
  exact ⟨hne, leaf, hat, hleaf, rfl⟩

/-- No path is collected twice: leaves below different children differ in the
key there. -/
theorem collectLeaves_nodup {node : RadixNode} (h : Keyed node) (path : List Token) :
    ((collectLeaves node path).map Leaf.path).Nodup := by
  induction h generalizing path with
  | @mk node hnd hs ih =>
    have hbranch : ∀ e ∈ node.children, ∀ l ∈ (if e.2.isLeaf then
        [⟨e.2.lastAccess, path ++ [e.1], e.2.blocks⟩] else collectLeaves e.2 (path ++ [e.1])),
        ∃ rel, (l : Leaf).path = path ++ e.1 :: rel := by
      intro e he l hl
      split at hl
      · rw [List.mem_singleton] at hl
        exact ⟨[], by rw [hl]⟩
      · obtain ⟨rel, leaf, -, -, -, rfl⟩ := (mem_collectLeaves (hs e he) (path ++ [e.1]) l).mp hl
        exact ⟨rel, by simp⟩
    rw [collectLeaves_eq, List.map_flatMap, List.nodup_flatMap]
    refine ⟨?_, ?_⟩
    · intro e he
      split
      · simp
      · exact ih e he (path ++ [e.1])
    · refine (List.nodupKeys_iff_pairwise.mp hnd).imp_of_mem ?_
      intro e e' he he' hne
      refine List.disjoint_left.mpr ?_
      intro p hp hp'
      obtain ⟨l, hl, rfl⟩ := List.mem_map.mp hp
      obtain ⟨l', hl', hp'⟩ := List.mem_map.mp hp'
      obtain ⟨rel, hr⟩ := hbranch e he l hl
      obtain ⟨rel', hr'⟩ := hbranch e' he' l' hl'
      rw [hr, hr'] at hp'
      exact hne (List.cons.inj (List.append_cancel_left hp')).1.symm

/-- When one reported leaf is removed, the others are still leaves of the tree. -/
theorem isLeafOf_removePath {node : RadixNode} {l : Leaf} {rest : List Leaf}
    (hleaf : ∀ l' ∈ l :: rest, IsLeafOf node l'.path l'.blocks)
    (hnd : l.path ∉ rest.map Leaf.path) :
    ∀ l' ∈ rest, IsLeafOf (removePath node l.path).1 l'.path l'.blocks := by
  obtain ⟨hne, leaf, hat, hl, -⟩ := hleaf l List.mem_cons_self
  intro l' hl'
  obtain ⟨hne', leaf', hat', hleaf', hb'⟩ := hleaf l' (List.mem_cons_of_mem _ hl')
  have hdiff : l.path ≠ l'.path := fun he => hnd (he ▸ List.mem_map_of_mem hl')
  refine ⟨hne', leaf', ?_, hleaf', hb'⟩
  rw [nodeAt_removePath, hat']
  · exact fun h => hdiff (eq_of_below_leaf hat' hleaf' h hat).symm
  · exact fun h => hdiff (eq_of_below_leaf hat hl h hat')

/-! ## Taking leaves out -/

/-- `gone` are leaves taken out of a tree one after the other, each with its path. -/
inductive Removal : RadixNode → List (List Token × List BlockId) → RadixNode → Prop
  | nil (root : RadixNode) : Removal root [] root
  | cons {root root' : RadixNode} {path : List Token} {blocks : List BlockId}
      {gone : List (List Token × List BlockId)} : IsLeafOf root path blocks →
      Removal (removePath root path).1 gone root' → Removal root ((path, blocks) :: gone) root'

variable {root root' : RadixNode} {gone : List (List Token × List BlockId)}

theorem Removal.aligned (hr : Removal root gone root') (h : Aligned root) : Aligned root' := by
  induction hr with
  | nil => exact h
  | cons _ _ ih => exact ih (removePath_aligned _ _ h)

/-- The entries taken out are those of the blocks taken out. -/
theorem Removal.entries (hr : Removal root gone root') : ∃ es : List Entry,
    es.map Prod.snd = gone.flatMap Prod.snd ∧
      (RadixEntries.entries root).Perm (es ++ RadixEntries.entries root') := by
  induction hr with
  | nil root => exact ⟨[], rfl, .refl _⟩
  | @cons root root' path blocks gone hleaf _ ih =>
    obtain ⟨hne, leaf, hat, hl, rfl⟩ := hleaf
    obtain ⟨es, hes, hperm⟩ := removePath_leaf path root leaf hne hat hl
    obtain ⟨es', hes', hperm'⟩ := ih
    refine ⟨es ++ es', by simp [hes, hes'], ?_⟩
    rw [List.append_assoc]
    exact hperm.trans (List.Perm.append_left es hperm')

/-- The loop over the sorted leaves takes out the leaves it lets go, each at its
own call of `keep`. -/
theorem evictLeaves_removal (k : Nat) (keep : Nat → List BlockId → Bool) (leaves : List Leaf)
    (calls : Nat) (root : RadixNode) (freed : List BlockId)
    (hleaf : ∀ l ∈ leaves, IsLeafOf root l.path l.blocks) (hnd : (leaves.map Leaf.path).Nodup) :
    let r := RadixPrefixCache.evictLeaves k keep leaves calls root freed
    ∃ gone : List Leaf, r.1 = freed ++ gone.flatMap Leaf.blocks ∧
      Removal root (gone.map fun l => (l.path, l.blocks)) r.2 ∧
      ∀ l ∈ gone, ∃ n, leaves[n]? = some l ∧ keep (calls + n) l.blocks = true := by
  induction leaves generalizing calls root freed with
  | nil => exact ⟨[], by simp [RadixPrefixCache.evictLeaves], .nil root, fun _ hl => nomatch hl⟩
  | cons l rest ih =>
    have hlater (gone : List Leaf) (h : ∀ l ∈ gone, ∃ n, rest[n]? = some l ∧
        keep (calls + 1 + n) l.blocks = true) : ∀ g ∈ gone, ∃ n, (l :: rest)[n]? = some g ∧
        keep (calls + n) g.blocks = true := by
      intro g hg
      obtain ⟨n, hn, hk⟩ := h g hg
      exact ⟨n + 1, hn, by rwa [Nat.add_assoc, Nat.add_comm 1 n] at hk⟩
    rw [List.map_cons, List.nodup_cons] at hnd
    simp only [RadixPrefixCache.evictLeaves]
    split
    · exact ⟨[], by simp, .nil root, fun _ hl => nomatch hl⟩
    · split
      · rename_i hkeep
        obtain ⟨gone, hfreed, hr, hkept⟩ := ih (calls + 1) (removePath root l.path).1
          (freed ++ l.blocks) (isLeafOf_removePath hleaf hnd.1) hnd.2
        refine ⟨l :: gone, ?_, .cons (hleaf l List.mem_cons_self) hr, ?_⟩
        · rw [hfreed, List.flatMap_cons, List.append_assoc]
        · intro g hg
          rcases List.mem_cons.mp hg with rfl | hg
          · exact ⟨0, rfl, hkeep⟩
          · exact hlater gone hkept g hg
      · obtain ⟨gone, hfreed, hr, hkept⟩ := ih (calls + 1) root freed
          (fun l' hl' => hleaf l' (List.mem_cons_of_mem _ hl')) hnd.2
        exact ⟨gone, hfreed, hr, hlater gone hkept⟩

/-- Listing the entries of the maps in another order changes nothing stored. -/
theorem Reorder.refreshed {a b : RadixNode} (hr : Reorder a b) (h : Aligned a) : Refreshed a b := by
  induction hr with
  | refl node => exact .refl h
  | trans _ _ ihab ihbc => exact (ihab h).trans (ihbc (ihab h).aligned)
  | @perm node cs hp =>
    refine ⟨⟨rfl, rfl, rfl⟩, .mk ((List.perm_nodupKeys hp).mp h.nodupKeys) ?_ ?_, ?_⟩
    · exact fun e he => h.edgeOk e (hp.mem_iff.mpr he)
    · exact fun e he => h.subtree e (hp.mem_iff.mpr he)
    · rw [entries_eq, entries_eq node]
      exact (hp.flatMap_right _).symm
  | @child node before after key c c' hcs _ ih =>
    have hmem : (⟨key, c⟩ : Σ _ : Token, RadixNode) ∈ node.children := by simp [hcs]
    have hr := ih (h.subtree _ hmem)
    have hcases : ∀ e ∈ before ++ ⟨key, c'⟩ :: after, e = ⟨key, c'⟩ ∨ e ∈ node.children := by
      intro e he
      simp only [List.mem_append, List.mem_cons] at he
      rw [hcs]
      rcases he with he | he | he
      · exact .inr (by simp [he])
      · exact .inl he
      · exact .inr (by simp [he])
    refine ⟨⟨rfl, rfl, rfl⟩, .mk ?_ ?_ ?_, ?_⟩
    · have := h.nodupKeys
      rw [hcs] at this
      show ((before ++ ⟨key, c'⟩ :: after).map Sigma.fst).Nodup
      simpa [List.NodupKeys, List.keys] using this
    · intro e he
      rcases hcases e he with rfl | he
      · exact hr.same.edgeOk (h.edgeOk _ hmem)
      · exact h.edgeOk e he
    · intro e he
      rcases hcases e he with rfl | he
      · exact hr.aligned
      · exact h.subtree e he
    · have he : (edge c').Perm (edge c) := by
        have hperm : (entries c').Perm (entries c ++ []) := by simpa using hr.entries
        simpa using hr.same.edge_perm hperm
      rw [entries_eq, entries_eq node, hcs]
      show ((before ++ ⟨key, c'⟩ :: after).flatMap fun e => edge e.2).Perm _
      simp only [List.flatMap_append, List.flatMap_cons]
      exact List.Perm.append_left _ (he.append_right _)

/-! ## The operations of the cache -/

variable {c : RadixPrefixCache}

/-- How far `tokens` can be followed from the root along the edges of the tree. -/
def matchedTokens (c : RadixPrefixCache) (tokens : List Token) : Nat :=
  matchLen (tokens.length + 1) c.root tokens

/-- What `lookup` does on an aligned tree: it reports the match and the blocks the
tree has for it. -/
theorem lookup_aligned (tokens : List Token) (h : Aligned c.root) :
    ∃ r c', c.lookup tokens = .ok (r, c') ∧ Aligned c'.root ∧
      (entries c'.root).Perm (entries c.root) ∧
      ((r = none ∧ matchedTokens c tokens = 0) ∨
        ∃ bs, r = some (matchedTokens c tokens, bs) ∧ bs.length = matchedTokens c tokens / BLOCK_SIZE ∧
          ∀ (j : Nat) (b : BlockId), bs[j]? = some b →
            (tokens.take ((j + 1) * BLOCK_SIZE), b) ∈ entries c.root) := by
  obtain ⟨root, out, hlook, hr, hm, hreads⟩ :=
    lookupNode_aligned (tokens.length + 1) c.root tokens c.tick h
  have hcol := hreads.collision
  have hmt : matchedTokens c tokens = out.matched := hm.symm
  rw [hmt]
  by_cases hpos : 0 < out.matched
  · have hl : c.lookup tokens = .ok (some (out.matched, out.blocks), { c with
        root := root, clock := c.tick, hits := c.hits + 1,
        tokensSaved := c.tokensSaved + out.matched }) := by
      simp [RadixPrefixCache.lookup, hlook, hcol, hpos]
    exact ⟨_, _, hl, hr.aligned, hr.entries, .inr ⟨out.blocks, rfl, hreads.length, hreads.entry⟩⟩
  · have hl : c.lookup tokens = .ok (none, { c with
        root := root, clock := c.tick, misses := c.misses + 1 }) := by
      simp [RadixPrefixCache.lookup, hlook, hcol, hpos]
    exact ⟨_, _, hl, hr.aligned, hr.entries, .inl ⟨rfl, by omega⟩⟩

/-- An insertion whose match with the tree ends on a block boundary adds the
blocks beyond the match. -/
theorem insert_aligned {tokens : List Token} {blocks : List BlockId} (h : Aligned c.root)
    (hlen : tokens.length = blocks.length * BLOCK_SIZE)
    (hb : matchedTokens c tokens % BLOCK_SIZE = 0) :
    ∃ c', c.insert tokens blocks = .ok c' ∧ Aligned c'.root ∧
      (entries c'.root).Perm (entries c.root ++
        (blockPaths tokens blocks).drop (matchedTokens c tokens / BLOCK_SIZE)) := by
  obtain ⟨root, hins, -, hal, hperm⟩ :=
    insertNode_aligned (tokens.length + 1) c.root tokens blocks c.tick h (by omega) hlen hb
  exact ⟨{ c with root := root, clock := c.tick },
    by simp only [RadixPrefixCache.insert, if_pos hlen, hins], hal, hperm⟩

theorem evict_aligned (ord : HashOrder) (k : Nat) (h : Aligned c.root) :
    Aligned (c.evict ord k).2.root ∧ entries (c.evict ord k).2.root ⊆ entries c.root := by
  have hloop : ∀ (fuel : Nat) (root : RadixNode) (freed : List BlockId), Aligned root →
      Aligned (RadixPrefixCache.evictLoop k fuel root freed).2 ∧
        entries (RadixPrefixCache.evictLoop k fuel root freed).2 ⊆ entries root := by
    intro fuel
    induction fuel with
    | zero => exact fun root freed hr => ⟨hr, List.Subset.refl _⟩
    | succ fuel ih =>
      intro root freed hr
      simp only [RadixPrefixCache.evictLoop]
      split
      · split
        · rename_i path blocks _
          obtain ⟨ha, hs⟩ := ih (removePath root path).1 (freed ++ blocks)
            (removePath_aligned path root hr)
          exact ⟨ha, List.Subset.trans hs (removePath_subset path root)⟩
        · exact ⟨hr, List.Subset.refl _⟩
      · exact ⟨hr, List.Subset.refl _⟩
  have hr := Reorder.refreshed (ord.reorder c.root) h
  obtain ⟨ha, hs⟩ := hloop (countNodes (ord.apply c.root) + 1) (ord.apply c.root) [] hr.aligned
  exact ⟨ha, List.Subset.trans hs hr.entries.subset⟩

/-- A filtered eviction takes out the leaves whose blocks it reports. -/
theorem evictFilter_removal (ord : HashOrder) (k : Nat) (keep : Nat → List BlockId → Bool)
    (h : Keyed (ord.apply c.root)) : ∃ gone : List Leaf,
      (c.evictFilter ord k keep).1 = gone.flatMap Leaf.blocks ∧
      Removal (ord.apply c.root) (gone.map fun l => (l.path, l.blocks))
        (c.evictFilter ord k keep).2.root ∧
      ∀ l ∈ gone, ∃ n, ((collectLeaves (ord.apply c.root) []).insertionSort
        fun a b => a.access ≤ b.access)[n]? = some l ∧ keep n l.blocks = true := by
  have hsort := List.perm_insertionSort (fun a b : Leaf => a.access ≤ b.access)
    (collectLeaves (ord.apply c.root) [])
  have hnodup := (hsort.map Leaf.path).nodup_iff.mpr (collectLeaves_nodup h [])
  obtain ⟨gone, hfreed, hr, hkept⟩ := evictLeaves_removal k keep _ 0 (ord.apply c.root) []
    (fun l hl => collectLeaves_isLeaf h (hsort.mem_iff.mp hl)) hnodup
  refine ⟨gone, hfreed, hr, fun l hl => ?_⟩
  obtain ⟨n, hn, hk⟩ := hkept l hl
  exact ⟨n, hn, by rwa [Nat.zero_add] at hk⟩

/-- A filtered eviction takes away exactly the entries of the blocks it reports,
all from leaves the filter let go. -/
theorem evictFilter_aligned (ord : HashOrder) (k : Nat) (keep : Nat → List BlockId → Bool)
    (h : Aligned c.root) :
    Aligned (c.evictFilter ord k keep).2.root ∧
      ∃ gone, (c.evictFilter ord k keep).1 = gone.map Prod.snd ∧
        (entries c.root).Perm (gone ++ entries (c.evictFilter ord k keep).2.root) ∧
        ∀ e ∈ gone, ∃ n bs, e.2 ∈ bs ∧ keep n bs = true := by
  have hr := Reorder.refreshed (ord.reorder c.root) h
  obtain ⟨gone, hfreed, hgone, hkept⟩ :=
    evictFilter_removal ord k keep (keyed_of_aligned hr.aligned)
  obtain ⟨es, hes, hperm⟩ := hgone.entries
  rw [List.flatMap_map] at hes
  refine ⟨hgone.aligned hr.aligned, es, hfreed.trans hes.symm, hr.entries.symm.trans hperm, ?_⟩
  intro e he
  have hb : e.2 ∈ gone.flatMap Leaf.blocks := hes ▸ List.mem_map_of_mem he
  obtain ⟨l, hl, hb⟩ := List.mem_flatMap.mp hb
  obtain ⟨n, -, hk⟩ := hkept l hl
  exact ⟨n, l.blocks, hb, hk⟩

end JustApi.Inference.RadixWalks
