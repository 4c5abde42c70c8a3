import Mathlib.Algebra.BigOperators.Group.List.Basic
import JustApi.Inference.RadixTrie

/-! # What an eviction leaves of a tree

Both evictions take leaves out, one after the other, of the tree as its maps list
it. The nodes that stay keep their place and their label, so a lookup afterwards
reads the same edges and stops earlier at most; and the block ids of a tree are
those that stay and those of the leaves taken out. -/
namespace JustApi.Inference.RadixRemoval
open JustApi.Lib.Assoc JustApi.Inference.KvCache JustApi.Inference.RadixCache
open JustApi.Inference.RadixEntries JustApi.Inference.RadixWalks
open JustApi.Inference.RadixTrie (Trie Labelled lookupNode_reread SameEdge.labelled child?_setChild)
open RadixNode

/-- All of a node but its children. -/
def label (node : RadixNode) : List Token × List BlockId × Nat × UInt64 :=
  (node.tokens, node.blocks, node.lastAccess, node.tokenHash)

theorem label_removePath (path : List Token) (node : RadixNode) :
    label (removePath node path).1 = label node := by
  obtain ⟨⟨ht, hb, hh⟩, ha⟩ := removePath_same path node
  rw [label, ht, hb, hh, ha]
  rfl

theorem label_eq_iff {a b : RadixNode} :
    label a = label b ↔ SameEdge b a ∧ a.lastAccess = b.lastAccess := by
  simp only [label, Prod.mk.injEq, SameEdge]
  constructor
  · intro ⟨ht, hb, ha, hh⟩
    exact ⟨⟨ht, hb, hh⟩, ha⟩
  · intro ⟨⟨ht, hb, hh⟩, ha⟩
    exact ⟨ht, hb, ha, hh⟩

/-! ## Other listings of the maps -/

/-- The maps of the two trees have the same keys, and children that only differ in
the order of their maps. -/
theorem child?_reorder {a b : RadixNode} (hr : Reorder a b) (h : Keyed a) :
    Keyed b ∧ ∀ key c, a.child? key = some c → ∃ c', b.child? key = some c' ∧ Reorder c c' := by
  induction hr with
  | refl node => exact ⟨h, fun key c hc => ⟨c, hc, .refl c⟩⟩
  | trans _ _ ihab ihbc =>
    obtain ⟨hk, hc⟩ := ihab h
    obtain ⟨hk', hc'⟩ := ihbc hk
    refine ⟨hk', fun key n hn => ?_⟩
    obtain ⟨n', hn', hr⟩ := hc key n hn
    obtain ⟨n'', hn'', hr'⟩ := hc' key n' hn'
    exact ⟨n'', hn'', hr.trans hr'⟩
  | @perm node children hp =>
    have hnd : children.NodupKeys := (List.perm_nodupKeys hp).mp h.nodupKeys
    refine ⟨.mk hnd fun e he => h.subtree e (hp.mem_iff.mpr he), fun key c hc => ?_⟩
    exact ⟨c, List.mem_dlookup hnd (hp.mem_iff.mp (List.of_mem_dlookup hc)), .refl c⟩
  | @child node before after key c c' hcs hcc ih =>
    have hmem : (⟨key, c⟩ : Σ _ : Token, RadixNode) ∈ node.children := by simp [hcs]
    have hnew : (⟨key, c'⟩ : Σ _ : Token, RadixNode) ∈ before ++ ⟨key, c'⟩ :: after := by simp
    obtain ⟨hk, -⟩ := ih (h.subtree _ hmem)
    have hnd : (before ++ ⟨key, c'⟩ :: after).NodupKeys := by
      have hkeys := h.nodupKeys
      rw [hcs] at hkeys
      simpa [List.NodupKeys, List.keys] using hkeys
    refine ⟨.mk hnd fun e he => ?_, fun key' d hd => ?_⟩
    · rcases List.mem_append.mp he with he | he
      · exact h.subtree e (by simp [hcs, he])
      · rcases List.mem_cons.mp he with rfl | he
        · exact hk
        · exact h.subtree e (by simp [hcs, he])
    · by_cases hkey : key' = key
      · subst hkey
        cases hd.symm.trans (List.mem_dlookup h.nodupKeys hmem)
        exact ⟨c', List.mem_dlookup hnd hnew, hcc⟩
      · have hd' : (⟨key', d⟩ : Σ _ : Token, RadixNode) ∈ before ++ ⟨key, c'⟩ :: after := by
          have hold : (⟨key', d⟩ : Σ _ : Token, RadixNode) ∈ node.children :=
            List.of_mem_dlookup hd
          simpa [hcs, hkey] using hold
        exact ⟨d, List.mem_dlookup hnd hd', .refl d⟩

/-- The node at a path, whatever the order of the maps. -/
theorem nodeAt_reorder {a b n : RadixNode} {path : List Token} (hr : Reorder a b) (h : Keyed a)
    (hat : nodeAt a path = some n) : ∃ n', nodeAt b path = some n' ∧ Reorder n n' := by
  induction path generalizing a b with
  | nil =>
    cases hat
    exact ⟨b, rfl, hr⟩
  | cons key path ih =>
    obtain ⟨c, hc, hat⟩ := Option.bind_eq_some_iff.mp hat
    obtain ⟨c', hc', hcc⟩ := (child?_reorder hr h).2 key c hc
    obtain ⟨n', hn', hnn⟩ := ih hcc (h.child hc) hat
    exact ⟨n', by simp only [nodeAt, hc', Option.bind_some, hn'], hnn⟩

theorem label_reorder {a b : RadixNode} (hr : Reorder a b) : label b = label a := by
  induction hr with
  | refl node => rfl
  | trans _ _ ihab ihbc => rw [ihbc, ihab]
  | perm node _ => rfl
  | child node _ _ _ => rfl

theorem isLeaf_reorder {a b : RadixNode} (hr : Reorder a b) : b.isLeaf = a.isLeaf := by
  induction hr with
  | refl node => rfl
  | trans _ _ ihab ihbc => rw [ihbc, ihab]
  | @perm node children hp =>
    show children.isEmpty = node.children.isEmpty
    rw [Bool.eq_iff_iff, List.isEmpty_iff, List.isEmpty_iff]
    exact ⟨fun he => List.perm_nil.mp (he ▸ hp), fun he => List.perm_nil.mp (he ▸ hp.symm)⟩
  | @child node before after key c c' hcs _ _ =>
    show (before ++ ⟨key, c'⟩ :: after).isEmpty = node.children.isEmpty
    rw [hcs]
    cases before <;> rfl

theorem reorder_symm {a b : RadixNode} (hr : Reorder a b) : Reorder b a := by
  have heta (node : RadixNode) {children children' : List (Σ _ : Token, RadixNode)}
      (hc : node.children = children) :
      (node.withChildren children').withChildren children = node := by
    subst hc
    cases node
    rfl
  induction hr with
  | refl node => exact .refl node
  | trans _ _ ihab ihbc => exact ihbc.trans ihab
  | @perm node children hp =>
    have hback := @Reorder.perm (node.withChildren children) node.children hp.symm
    rwa [heta node rfl] at hback
  | @child node before after key c c' hcs _ ih =>
    have hback := Reorder.child (node.withChildren (before ++ ⟨key, c'⟩ :: after)) rfl ih
    rwa [heta node hcs] at hback

/-! ## What stays -/

/-- Every node of `node'` is one of `node`, with the same label. -/
def Pruned (node node' : RadixNode) : Prop :=
  ∀ path n', nodeAt node' path = some n' → ∃ n, nodeAt node path = some n ∧ label n' = label n

theorem Pruned.refl (node : RadixNode) : Pruned node node := fun _ n' h => ⟨n', h, rfl⟩

theorem Pruned.trans {a b c : RadixNode} (hab : Pruned a b) (hbc : Pruned b c) : Pruned a c := by
  intro path n'' h
  obtain ⟨n', h', hl'⟩ := hbc path n'' h
  obtain ⟨n, hn, hl⟩ := hab path n' h'
  exact ⟨n, hn, hl'.trans hl⟩

theorem Pruned.of_child {a b : RadixNode} (hl : label b = label a)
    (hc : ∀ key c', b.child? key = some c' → ∃ c, a.child? key = some c ∧ Pruned c c') :
    Pruned a b := by
  intro path n' h
  cases path with
  | nil =>
    cases h
    exact ⟨a, rfl, hl⟩
  | cons key path =>
    obtain ⟨c', hc', hat'⟩ := Option.bind_eq_some_iff.mp h
    obtain ⟨c, hac, hp⟩ := hc key c' hc'
    obtain ⟨n, hn, hln⟩ := hp path n' hat'
    exact ⟨n, by simp only [nodeAt, hac, Option.bind_some, hn], hln⟩

theorem Pruned.atPath {a b c' : RadixNode} {path : List Token} (hp : Pruned a b)
    (hc : nodeAt b path = some c') :
    ∃ c, nodeAt a path = some c ∧ Pruned c c' ∧ label c' = label c := by
  obtain ⟨c, hac, hl⟩ := hp path c' hc
  refine ⟨c, hac, fun rest n' h => ?_, hl⟩
  obtain ⟨n, hn, hln⟩ := hp (path ++ rest) n' (by rw [nodeAt_append, hc]; exact h)
  rw [nodeAt_append, hac] at hn
  exact ⟨n, hn, hln⟩

theorem nodeAt_single (node : RadixNode) (key : Token) : nodeAt node [key] = node.child? key := by
  rw [nodeAt]
  cases node.child? key <;> rfl

theorem Pruned.child {a b c' : RadixNode} {key : Token} (hp : Pruned a b)
    (hc : b.child? key = some c') :
    ∃ c, a.child? key = some c ∧ Pruned c c' ∧ label c' = label c := by
  rw [← nodeAt_single] at hc
  obtain ⟨c, hac, hpc⟩ := hp.atPath hc
  exact ⟨c, by rw [← nodeAt_single, hac], hpc⟩

theorem isLeaf_iff {node : RadixNode} : node.isLeaf = true ↔ ∀ key, node.child? key = none := by
  rw [isLeaf, List.isEmpty_iff]
  constructor
  · intro hc key
    rw [child?, hc]
    rfl
  · intro h
    cases hc : node.children with
    | nil => rfl
    | cons e rest =>
      have := h e.1
      rw [child?, hc, List.dlookup_cons_eq] at this
      cases this

/-- What stays of a leaf is a leaf. -/
theorem Pruned.isLeaf {a b : RadixNode} (hp : Pruned a b) (hl : a.isLeaf = true) :
    b.isLeaf = true := by
  refine isLeaf_iff.mpr fun key => ?_
  cases hc : b.child? key with
  | none => rfl
  | some c' =>
    obtain ⟨c, hac, -⟩ := hp.child hc
    rw [isLeaf_iff.mp hl] at hac
    cases hac

theorem keyed_removePath (path : List Token) {node : RadixNode} (h : Keyed node) :
    Keyed (removePath node path).1 := by
  induction h generalizing path with
  | @mk node hn hs ih =>
    refine .mk (removePath_nodupKeys path hn) fun e he => ?_
    rcases removePath_children he with he | ⟨child, rest, hc, -, he⟩
    · exact hs e he
    · rw [he]
      exact ih _ (List.of_mem_dlookup hc) rest

theorem pruned_removePath (path : List Token) {node : RadixNode} (h : Keyed node) :
    Pruned node (removePath node path).1 := by
  induction h generalizing path with
  | @mk node hn hs ih =>
    refine .of_child (label_removePath _ node) fun key c' hc' => ?_
    rcases removePath_children (List.of_mem_dlookup hc') with he | ⟨child, rest, hc, -, he⟩
    · exact ⟨c', List.mem_dlookup hn he, .refl c'⟩
    · refine ⟨child, hc, ?_⟩
      rw [show c' = (removePath child rest).1 from he]
      exact ih _ (List.of_mem_dlookup hc) rest

theorem pruned_reorder {a b : RadixNode} (hr : Reorder a b) (h : Keyed a) : Pruned a b := by
  intro path n' hat'
  obtain ⟨n, hat, hr'⟩ := nodeAt_reorder (reorder_symm hr) (child?_reorder hr h).1 hat'
  exact ⟨n, hat, (label_reorder hr').symm⟩

theorem keyed_of_trie {node : RadixNode} (h : Trie node) : Keyed node := by
  induction h with
  | mk hn _ _ ih => exact .mk hn ih

/-- What stays of a trie is one. -/
theorem Pruned.trie {a b : RadixNode} (h : Trie a) (hp : Pruned a b) (hk : Keyed b) : Trie b := by
  induction h generalizing b with
  | @mk a hn hl _ ih =>
    have hchild : ∀ e ∈ b.children, ∃ c, (⟨e.1, c⟩ : Σ _ : Token, RadixNode) ∈ a.children ∧
        Pruned c e.2 ∧ label e.2 = label c := by
      intro e he
      obtain ⟨c, hc, hpc, hlc⟩ := hp.child (List.mem_dlookup hk.nodupKeys he)
      exact ⟨c, List.of_mem_dlookup hc, hpc, hlc⟩
    refine .mk hk.nodupKeys (fun e he => ?_) fun e he => ?_
    · obtain ⟨c, hc, -, hlc⟩ := hchild e he
      exact SameEdge.labelled (label_eq_iff.mp hlc).1 (hl _ hc)
    · obtain ⟨c, hc, hpc, -⟩ := hchild e he
      exact ih _ hc hpc (hk.subtree e he)

theorem Pruned.touch {a b : RadixNode} (hp : Pruned a b) (now : Nat) :
    Pruned (a.touch now) (b.touch now) := by
  refine .of_child ?_ fun key c' hc' => ?_
  · obtain ⟨n, hn, hl⟩ := hp [] b rfl
    cases hn
    exact label_eq_iff.mpr ⟨(label_eq_iff.mp hl).1, rfl⟩
  · obtain ⟨c, hc, hpc, -⟩ := hp.child hc'
    exact ⟨c, hc, hpc⟩

/-- A walk over what stays of a trie finds a prefix of what it found before. -/
theorem lookupNode_pruned (fuel : Nat) {a b : RadixNode} (tokens : List Token) (now : Nat)
    (h : Trie a) (hp : Pruned a b) : ∃ a' out b' out', lookupNode fuel a tokens now = .ok (a', out) ∧
      lookupNode fuel b tokens now = .ok (b', out') ∧ out.collision = false ∧
      out'.collision = false ∧ out'.matched ≤ out.matched ∧ out'.blocks <+: out.blocks := by
  induction fuel generalizing a b tokens with
  | zero => exact ⟨a, _, b, _, rfl, rfl, rfl, rfl, Nat.le_refl _, List.prefix_rfl⟩
  | succ fuel ih =>
    cases hf : tokens.head? with
    | none =>
      rw [List.head?_eq_none_iff] at hf
      subst hf
      exact ⟨a, _, b, _, rfl, rfl, rfl, rfl, Nat.le_refl _, List.prefix_rfl⟩
    | some first =>
      cases hc' : b.child? first with
      | none =>
        obtain ⟨a', out, hl, -, hcol, -⟩ := lookupNode_reread (fuel + 1) a tokens now h
        exact ⟨a', out, b, _, hl, lookupNode_none hf hc', hcol, rfl, Nat.zero_le _,
          List.nil_prefix⟩
      | some c' =>
        obtain ⟨c, hc, hpc, hlc⟩ := hp.child hc'
        obtain ⟨hk, hct⟩ := h.child hc
        obtain ⟨⟨ht, hb, hh⟩, -⟩ := label_eq_iff.mp hlc
        by_cases hcp : commonPrefixLen tokens c.tokens = c.tokens.length
        · obtain ⟨d, out, d', out', hd, hd', hcol, hcol', hle, hpre⟩ :=
            @ih (c.touch now) (c'.touch now) (tokens.drop c.tokens.length)
              (hct.of_children_eq rfl) (hpc.touch now)
          have hcp' : commonPrefixLen tokens c'.tokens = c'.tokens.length := by rw [ht, hcp]
          have hh' : c'.tokenHash = hashTokens c'.tokens := by rw [hh, ht, hk.hash]
          refine ⟨_, ⟨c.tokens.length + out.matched, c.blocks ++ out.blocks, out.collision⟩, _,
            ⟨c.tokens.length + out'.matched, c'.blocks ++ out'.blocks, out'.collision⟩,
            by rw [lookupNode_full hf hc hcp hk.hash, hd]; rfl,
            by rw [lookupNode_full hf hc' hcp' hh', ht, hd']; rfl, hcol, hcol', ?_, ?_⟩
          · exact Nat.add_le_add_left hle _
          · rw [hb]
            exact List.prefix_append_right_inj _ |>.mpr hpre
        · have hpos := commonPrefixLen_pos hf hk.head
          have hroom : commonPrefixLen tokens c.tokens / BLOCK_SIZE ≤ c.blocks.length :=
            (Nat.div_le_div_right (commonPrefixLen_le_right _ _)).trans hk.room
          refine ⟨_, _, _, _, lookupNode_inside hf hc hcp hpos hroom,
            lookupNode_inside hf hc' (by rwa [ht]) (by rwa [ht]) (by rwa [ht, hb]), rfl, rfl, ?_, ?_⟩
          · rw [ht]
          · rw [ht, hb]

/-! ## What goes -/

theorem nodeAt_removePath_above {rest : List Token} (other : List Token) (node : RadixNode)
    (hne : rest ≠ []) : nodeAt (removePath node (other ++ rest)).1 other =
      (nodeAt node other).map fun n => (removePath n rest).1 := by
  induction other generalizing node with
  | nil => rfl
  | cons key other ih =>
    cases hc : node.child? key with
    | none => simp [removePath, nodeAt, hc]
    | some child =>
      rw [List.cons_append, removePath_cons hc (by simp [hne])]
      simp only [nodeAt, child?_setChild_self, hc, Option.bind_some]
      exact ih child

theorem nodeAt_removePath_self {path : List Token} {node : RadixNode} (h : Keyed node)
    (hne : path ≠ []) : nodeAt (removePath node path).1 path = none := by
  obtain ⟨init, key, rfl⟩ := (List.eq_nil_or_concat' path).resolve_left hne
  rw [nodeAt_append, nodeAt_removePath_above init node (by simp)]
  cases hat : nodeAt node init with
  | none => rfl
  | some n =>
    simp only [Option.map_some, Option.bind_some, nodeAt]
    cases hc : n.child? key with
    | none => simp [removePath, hc]
    | some child =>
      rw [removePath_single hc]
      have hnone : (n.children.kerase key).dlookup key = none :=
        List.dlookup_kerase _ (h.atPath hat).nodupKeys
      show ((n.children.kerase key).dlookup key).bind _ = none
      rw [hnone]
      rfl

/-- Removing a leaf takes away the node at its path and no other. -/
theorem isSome_nodeAt_removePath {path : List Token} {node : RadixNode} {blocks : List BlockId}
    (h : Keyed node) (hleaf : IsLeafOf node path blocks) (other : List Token) :
    (nodeAt (removePath node path).1 other).isSome ↔ (nodeAt node other).isSome ∧ other ≠ path := by
  obtain ⟨hne, leaf, hat, hl, -⟩ := hleaf
  by_cases hself : other = path
  · subst hself
    simp [nodeAt_removePath_self h hne]
  by_cases habove : other <+: path
  · obtain ⟨rest, rfl⟩ := habove
    have hrest : rest ≠ [] := fun he => hself (by rw [he, List.append_nil])
    rw [nodeAt_removePath_above other node hrest, Option.isSome_map]
    simp [hrest]
  by_cases hbelow : path <+: other
  · have hnone : nodeAt node other = none := by
      cases ho : nodeAt node other with
      | none => rfl
      | some n => exact absurd (eq_of_below_leaf hat hl hbelow ho).symm hself
    have hgone : nodeAt (removePath node path).1 other = none := by
      obtain ⟨rest, rfl⟩ := hbelow
      rw [nodeAt_append, nodeAt_removePath_self h hne]
      rfl
    simp [hnone, hgone]
  · rw [nodeAt_removePath path other node habove hbelow]
    simp [hself]

mutual
/-- The block ids a tree holds. -/
def blockIds : RadixNode → List BlockId
  | mk _ blocks children _ _ => blocks ++ blockIdsBelow children
def blockIdsBelow : List (Σ _ : Token, RadixNode) → List BlockId
  | [] => []
  | ⟨_, child⟩ :: rest => blockIds child ++ blockIdsBelow rest
end

mutual
theorem blockIds_eq : ∀ node : RadixNode, blockIds node = node.blocks ++ (entries node).map Prod.snd
  | mk _ blocks children _ _ => by
    rw [blockIds, blockIdsBelow_eq children, entries]
    rfl
theorem blockIdsBelow_eq : ∀ cs : List (Σ _ : Token, RadixNode),
    blockIdsBelow cs = (entriesBelow cs).map Prod.snd
  | [] => rfl
  | ⟨_, c⟩ :: rest => by
    rw [blockIdsBelow, blockIds_eq c, blockIdsBelow_eq rest, entriesBelow]
    simp
end

theorem blockIds_reorder {a b : RadixNode} (hr : Reorder a b) : (blockIds b).Perm (blockIds a) := by
  have hbelow (cs : List (Σ _ : Token, RadixNode)) :
      blockIdsBelow cs = cs.flatMap fun e => blockIds e.2 := by
    induction cs with
    | nil => rfl
    | cons e rest ih =>
      obtain ⟨k, c⟩ := e
      rw [blockIdsBelow, ih, List.flatMap_cons]
  have hids (node : RadixNode) :
      blockIds node = node.blocks ++ node.children.flatMap fun e => blockIds e.2 := by
    cases node with
    | mk tokens blocks children access hash => rw [blockIds, hbelow]; rfl
  induction hr with
  | refl node => exact .refl _
  | trans _ _ ihab ihbc => exact ihbc.trans ihab
  | @perm node children hp =>
    rw [hids, hids node]
    exact List.Perm.append_left _ (hp.symm.flatMap_right _)
  | @child node before after key c c' hcs _ ih =>
    rw [hids, hids node, hcs]
    show (node.blocks ++ (before ++ ⟨key, c'⟩ :: after).flatMap fun e => blockIds e.2).Perm _
    simp only [List.flatMap_append, List.flatMap_cons]
    exact List.Perm.append_left _ (List.Perm.append_left _ (ih.append_right _))

theorem collectLeaves_reorder {a b : RadixNode} (hr : Reorder a b) (path : List Token) :
    (collectLeaves b path).Perm (collectLeaves a path) := by
  induction hr generalizing path with
  | refl node => exact .refl _
  | trans _ _ ihab ihbc => exact (ihbc path).trans (ihab path)
  | @perm node children hp =>
    rw [collectLeaves_eq, collectLeaves_eq node]
    exact hp.symm.flatMap_right _
  | @child node before after key c c' hcs hcc ih =>
    rw [collectLeaves_eq, collectLeaves_eq node, hcs]
    show ((before ++ ⟨key, c'⟩ :: after).flatMap _).Perm _
    obtain ⟨⟨-, hb, -⟩, ha⟩ := label_eq_iff.mp (label_reorder hcc)
    simp only [List.flatMap_append, List.flatMap_cons, isLeaf_reorder hcc, hb, ha]
    refine List.Perm.append_left _ (List.Perm.append_right _ ?_)
    split
    · exact .refl _
    · exact ih (path ++ [key])

theorem countNodes_eq (node : RadixNode) :
    countNodes node = (node.children.map fun e => 1 + countNodes e.2).sum := by
  have below (cs : List (Σ _ : Token, RadixNode)) :
      countChildren cs = (cs.map fun e => 1 + countNodes e.2).sum := by
    induction cs with
    | nil => rfl
    | cons e rest ih =>
      obtain ⟨k, c⟩ := e
      simp [countChildren, ih]
  cases node with
  | mk tokens blocks children access hash => exact below children

theorem countNodes_child {node c : RadixNode} {key : Token} (hc : node.child? key = some c) :
    countNodes node =
      1 + countNodes c + ((node.children.kerase key).map fun e => 1 + countNodes e.2).sum := by
  rw [countNodes_eq, ((perm_cons_kerase hc).map _).sum_eq, List.map_cons, List.sum_cons]

theorem countNodes_removePath (path : List Token) {node leaf : RadixNode} (hne : path ≠ [])
    (hat : nodeAt node path = some leaf) (hl : leaf.isLeaf = true) :
    countNodes node = 1 + countNodes (removePath node path).1 := by
  induction path generalizing node with
  | nil => exact absurd rfl hne
  | cons key rest ih =>
    obtain ⟨child, hc, hat⟩ := Option.bind_eq_some_iff.mp hat
    rw [countNodes_child hc]
    cases rest with
    | nil =>
      cases hat
      have hzero : countNodes leaf = 0 := by
        rw [countNodes_eq, List.isEmpty_iff.mp hl]
        rfl
      rw [removePath_single hc, countNodes_eq (node.withChildren _), hzero]
      rfl
    | cons key' rest =>
      have hset (c' : RadixNode) : countNodes (node.setChild key c') =
          1 + countNodes c' + ((node.children.kerase key).map fun e => 1 + countNodes e.2).sum := by
        rw [countNodes_eq]
        rfl
      rw [removePath_cons hc (by simp), hset, ih (by simp) hat]
      omega

variable {root root' : RadixNode} {gone : List (List Token × List BlockId)}

theorem Removal.keyed (hr : Removal root gone root') (h : Keyed root) : Keyed root' := by
  induction hr with
  | nil => exact h
  | cons _ _ ih => exact ih (keyed_removePath _ h)

theorem Removal.pruned (hr : Removal root gone root') (h : Keyed root) : Pruned root root' := by
  induction hr with
  | nil root => exact .refl root
  | cons _ _ ih => exact (pruned_removePath _ h).trans (ih (keyed_removePath _ h))

/-- The nodes taken out are those at the given paths. -/
theorem Removal.isSome_nodeAt (hr : Removal root gone root') (h : Keyed root) (path : List Token) :
    (nodeAt root' path).isSome ↔ (nodeAt root path).isSome ∧ path ∉ gone.map Prod.fst := by
  induction hr with
  | nil => simp
  | cons hleaf _ ih =>
    rw [ih (keyed_removePath _ h), isSome_nodeAt_removePath h hleaf, List.map_cons, List.mem_cons,
      not_or, and_assoc]

theorem Removal.countNodes (hr : Removal root gone root') :
    RadixCache.countNodes root = gone.length + RadixCache.countNodes root' := by
  induction hr with
  | nil => simp
  | @cons root root' path blocks gone hleaf _ ih =>
    obtain ⟨hne, leaf, hat, hl, -⟩ := hleaf
    rw [countNodes_removePath path hne hat hl, ih, List.length_cons]
    omega

/-- The block ids of the tree are those taken out and those that stay. -/
theorem Removal.blockIds (hr : Removal root gone root') (h : Keyed root) :
    (blockIds root).Perm (gone.flatMap Prod.snd ++ blockIds root') := by
  obtain ⟨es, hes, hperm⟩ := hr.entries
  obtain ⟨n, hn, hl⟩ := Removal.pruned hr h [] root' rfl
  cases hn
  rw [blockIds_eq, blockIds_eq root', ← hes, (label_eq_iff.mp hl).1.2.1]
  refine (List.Perm.append_left _ (hperm.map Prod.snd)).trans ?_
  rw [List.map_append, ← List.append_assoc, ← List.append_assoc]
  exact List.perm_append_comm.append_right _

/-! ## The leaf `evict` takes -/

/-- `e` is, of the children with `p`, the first one accessed longest ago. -/
def FirstOldest (p : RadixNode → Prop) (cs : List (Σ _ : Token, RadixNode))
    (e : Σ _ : Token, RadixNode) : Prop :=
  ∃ before after, cs = before ++ e :: after ∧ p e.2 ∧
    (∀ x ∈ before, p x.2 → e.2.lastAccess < x.2.lastAccess) ∧
    ∀ x ∈ after, p x.2 → e.2.lastAccess ≤ x.2.lastAccess

section Search

variable {p : RadixNode → Prop} {cs : List (Σ _ : Token, RadixNode)}
  {e x : Σ _ : Token, RadixNode} {key : Token} {access : Nat} {path : List Token}
  {blocks : List BlockId} {node : RadixNode}

theorem FirstOldest.mem (h : FirstOldest p cs e) : e ∈ cs := by
  obtain ⟨before, after, rfl, -⟩ := h
  simp

theorem FirstOldest.le (h : FirstOldest p cs e) (hx : x ∈ cs) (hp : p x.2) :
    e.2.lastAccess ≤ x.2.lastAccess := by
  obtain ⟨before, after, rfl, -, hbefore, hafter⟩ := h
  rcases List.mem_append.mp hx with hx | hx
  · exact (hbefore x hx hp).le
  · rcases List.mem_cons.mp hx with rfl | hx
    · exact Nat.le_refl _
    · exact hafter x hx hp

theorem FirstOldest.head (hp : p x.2) (h : ∀ y ∈ cs, p y.2 → x.2.lastAccess ≤ y.2.lastAccess) :
    FirstOldest p (x :: cs) x := by
  refine ⟨[], cs, rfl, hp, fun y hy => ?_, h⟩
  cases hy

theorem FirstOldest.skip (h : FirstOldest p cs e) (hx : p x.2 → e.2.lastAccess < x.2.lastAccess) :
    FirstOldest p (x :: cs) e := by
  obtain ⟨before, after, rfl, hp, hbefore, hafter⟩ := h
  refine ⟨x :: before, after, rfl, hp, fun y hy => ?_, hafter⟩
  rcases List.mem_cons.mp hy with rfl | hy
  · exact hx
  · exact hbefore y hy

theorem directLeaves_cons (x : Σ _ : Token, RadixNode) (cs : List (Σ _ : Token, RadixNode)) :
    directLeaves (x :: cs) = if x.2.isLeaf then
      (directLeaves cs).orderedInsert (fun a b => a.2 ≤ b.2) (x.1, x.2.lastAccess)
      else directLeaves cs := by
  unfold directLeaves
  by_cases h : x.2.isLeaf <;> simp [h]

/-- The first of the direct leaves is the first leaf accessed longest ago, if any. -/
theorem directLeaves_head (cs : List (Σ _ : Token, RadixNode)) :
    match (directLeaves cs).head? with
    | some (key, access) => ∃ leaf : RadixNode, leaf.lastAccess = access ∧
        FirstOldest (fun n => n.isLeaf = true) cs ⟨key, leaf⟩
    | none => ∀ e ∈ cs, e.2.isLeaf = false := by
  induction cs with
  | nil => exact fun _ he => nomatch he
  | cons x cs ih =>
    obtain ⟨k, c⟩ := x
    rw [directLeaves_cons]
    by_cases hl : c.isLeaf = true
    · simp only [hl, if_true]
      cases hd : directLeaves cs with
      | nil =>
        rw [hd] at ih
        refine ⟨c, rfl, .head hl fun y hy hy' => ?_⟩
        rw [ih y hy] at hy'
        cases hy'
      | cons y rest =>
        rw [hd] at ih
        obtain ⟨leaf, hacc, hfirst⟩ := ih
        rw [List.orderedInsert_cons]
        by_cases hle : c.lastAccess ≤ y.2
        · rw [if_pos hle]
          exact ⟨c, rfl, .head hl fun z hz hz' => hle.trans (hacc ▸ hfirst.le hz hz')⟩
        · rw [if_neg hle]
          exact ⟨leaf, hacc, hfirst.skip fun _ => by show leaf.lastAccess < c.lastAccess; omega⟩
    · simp only [hl, if_false, Bool.false_eq_true]
      cases hd : directLeaves cs with
      | nil =>
        rw [hd] at ih
        intro e he
        rcases List.mem_cons.mp he with rfl | he
        · simpa using hl
        · exact ih e he
      | cons y rest =>
        rw [hd] at ih
        obtain ⟨leaf, hacc, hfirst⟩ := ih
        exact ⟨leaf, hacc, hfirst.skip fun h => absurd h hl⟩

/-- What a scan of the children comes to: the candidate so far when none is older,
else the first oldest of those below which a leaf was found. -/
theorem oldestBelow_cases (best : Option (List Token × List BlockId)) (bestAccess : Nat) :
    (oldestBelow cs best bestAccess = best ∧
      ∀ e ∈ cs, (findLruLeaf e.2).isSome → bestAccess ≤ e.2.lastAccess) ∨
    ∃ key child path blocks, oldestBelow cs best bestAccess = some (key :: path, blocks) ∧
      findLruLeaf child = some (path, blocks) ∧ child.lastAccess < bestAccess ∧
      FirstOldest (fun n => (findLruLeaf n).isSome) cs ⟨key, child⟩ := by
  induction cs generalizing best bestAccess with
  | nil => exact .inl ⟨rfl, fun _ he => nomatch he⟩
  | cons x cs ih =>
    obtain ⟨k, c⟩ := x
    rw [oldestBelow]
    cases hf : findLruLeaf c with
    | none =>
      rcases ih best bestAccess with ⟨hbest, hall⟩ | ⟨key, child, path, blocks, h, hc, hlt, hfirst⟩
      · refine .inl ⟨hbest, fun e he hs => ?_⟩
        rcases List.mem_cons.mp he with rfl | he
        · simp [hf] at hs
        · exact hall e he hs
      · exact .inr ⟨key, child, path, blocks, h, hc, hlt, hfirst.skip fun hs => by simp [hf] at hs⟩
    | some found =>
      obtain ⟨path, blocks⟩ := found
      by_cases hlt : c.lastAccess < bestAccess
      · simp only [hlt, if_true]
        rcases ih (some (k :: path, blocks)) c.lastAccess with
          ⟨hbest, hall⟩ | ⟨key, child, path', blocks', h, hc, hlt', hfirst⟩
        · exact .inr ⟨k, c, path, blocks, hbest, hf, hlt, .head (by simp [hf]) hall⟩
        · exact .inr ⟨key, child, path', blocks', h, hc, hlt'.trans hlt, hfirst.skip fun _ => hlt'⟩
      · simp only [hlt, if_false]
        rcases ih best bestAccess with ⟨hbest, hall⟩ | ⟨key, child, path, blocks, h, hc, hlt', hfirst⟩
        · refine .inl ⟨hbest, fun e he hs => ?_⟩
          rcases List.mem_cons.mp he with rfl | he
          · exact Nat.le_of_not_lt hlt
          · exact hall e he hs
        · refine .inr ⟨key, child, path, blocks, h, hc, hlt', hfirst.skip fun _ => ?_⟩
          exact Nat.lt_of_lt_of_le hlt' (Nat.le_of_not_lt hlt)

theorem findLruLeaf_eq (node : RadixNode) : findLruLeaf node =
    match (directLeaves node.children).head? with
    | some (key, _) => (node.child? key).map fun child => ([key], child.blocks)
    | none => oldestBelow node.children none (2 ^ 64 - 1) := by
  cases node with
  | mk tokens blocks children access hash => rw [findLruLeaf]; rfl

/-- `find_lru_leaf` comes to a direct leaf child, or to a leaf below a child when
no child is a leaf. -/
theorem findLruLeaf_some (h : Keyed node) (hf : findLruLeaf node = some (path, blocks)) :
    (∃ key leaf, FirstOldest (fun n => n.isLeaf = true) node.children ⟨key, leaf⟩ ∧
      path = [key] ∧ blocks = leaf.blocks) ∨
    (∀ e ∈ node.children, e.2.isLeaf = false) ∧ ∃ key child rest,
      FirstOldest (fun n => (findLruLeaf n).isSome) node.children ⟨key, child⟩ ∧
      child.lastAccess < 2 ^ 64 - 1 ∧ findLruLeaf child = some (rest, blocks) ∧
      path = key :: rest := by
  have hhead := directLeaves_head node.children
  rw [findLruLeaf_eq] at hf
  cases hd : (directLeaves node.children).head? with
  | some first =>
    rw [hd] at hf hhead
    obtain ⟨leaf, -, hfirst⟩ := hhead
    have hc : node.child? first.1 = some leaf := List.mem_dlookup h.nodupKeys hfirst.mem
    simp only [hc, Option.map_some, Option.some.injEq, Prod.mk.injEq] at hf
    exact .inl ⟨first.1, leaf, hfirst, hf.1.symm, hf.2.symm⟩
  | none =>
    rw [hd] at hf hhead
    refine .inr ⟨hhead, ?_⟩
    rcases @oldestBelow_cases node.children none (2 ^ 64 - 1) with
      ⟨hnone, -⟩ | ⟨key, child, rest, blocks', h, hc, hlt, hfirst⟩
    · cases hnone.symm.trans hf
    · cases h.symm.trans hf
      exact ⟨key, child, rest, hfirst, hlt, hc, rfl⟩

/-- `find_lru_leaf` comes to nothing when no child is a leaf and every child with
something to find below was accessed at the last reading of the clock. -/
theorem findLruLeaf_none (h : Keyed node) (hf : findLruLeaf node = none) :
    (∀ e ∈ node.children, e.2.isLeaf = false) ∧
      ∀ e ∈ node.children, (findLruLeaf e.2).isSome → 2 ^ 64 - 1 ≤ e.2.lastAccess := by
  have hhead := directLeaves_head node.children
  rw [findLruLeaf_eq] at hf
  cases hd : (directLeaves node.children).head? with
  | some first =>
    rw [hd] at hf hhead
    obtain ⟨leaf, -, hfirst⟩ := hhead
    have hc : node.child? first.1 = some leaf := List.mem_dlookup h.nodupKeys hfirst.mem
    simp [hc] at hf
  | none =>
    rw [hd] at hf hhead
    rcases @oldestBelow_cases node.children none (2 ^ 64 - 1) with
      ⟨-, hall⟩ | ⟨key, child, rest, blocks', h, -⟩
    · exact ⟨hhead, hall⟩
    · cases h.symm.trans hf

theorem isLeafOf_findLruLeaf (h : Keyed node) (hf : findLruLeaf node = some (path, blocks)) :
    IsLeafOf node path blocks := by
  induction h generalizing path with
  | @mk node hn hs ih =>
    have hat {key : Token} {c : RadixNode} (hc : ⟨key, c⟩ ∈ node.children) (rest : List Token) :
        nodeAt node (key :: rest) = nodeAt c rest := by
      rw [nodeAt, show node.child? key = some c from List.mem_dlookup hn hc]
      rfl
    rcases findLruLeaf_some (.mk hn hs) hf with
      ⟨key, leaf, hfirst, rfl, rfl⟩ | ⟨-, key, child, rest, hfirst, -, hc, rfl⟩
    · obtain ⟨-, -, -, hl, -⟩ := id hfirst
      exact ⟨by simp, leaf, hat hfirst.mem [], hl, rfl⟩
    · obtain ⟨-, leaf, hleaf, hl⟩ := ih _ hfirst.mem hc
      exact ⟨by simp, leaf, (hat hfirst.mem rest).trans hleaf, hl⟩

end Search

/-- The loop of `evict` takes leaves out, and its fuel outlasts the tree. -/
theorem evictLoop_removal (k fuel : Nat) (root : RadixNode) (freed : List BlockId)
    (h : Keyed root) (hfuel : countNodes root < fuel) :
    let r := RadixPrefixCache.evictLoop k fuel root freed
    ∃ gone, r.1 = freed ++ gone.flatMap Prod.snd ∧ Removal root gone r.2 ∧
      (k ≤ r.1.length ∨ findLruLeaf r.2 = none) := by
  induction fuel generalizing root freed with
  | zero => omega
  | succ fuel ih =>
    simp only [RadixPrefixCache.evictLoop]
    split
    · cases hf : findLruLeaf root with
      | none => exact ⟨[], by simp, .nil root, .inr hf⟩
      | some found =>
        obtain ⟨path, blocks⟩ := found
        have hleaf := isLeafOf_findLruLeaf h hf
        obtain ⟨hne, leaf, hat, hl, -⟩ := id hleaf
        have hcount := countNodes_removePath path hne hat hl
        obtain ⟨gone, hfreed, hr, hend⟩ := ih (removePath root path).1 (freed ++ blocks)
          (keyed_removePath path h) (by omega)
        refine ⟨(path, blocks) :: gone, ?_, .cons hleaf hr, hend⟩
        rw [hfreed, List.flatMap_cons, List.append_assoc]
    · rename_i hfull
      exact ⟨[], by simp, .nil root, .inl (Nat.le_of_not_lt hfull)⟩

end JustApi.Inference.RadixRemoval
