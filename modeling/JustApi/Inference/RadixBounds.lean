import JustApi.Inference.RadixRuns

/-! # Slices of the radix tree

`insert_node` and `lookup_node` once more, with every slice and every index checked and an
error where the recursion goes deeper than it has levels. No check fails in a run, since a
node has at least the blocks its tokens fill. -/
namespace JustApi.Inference.RadixBounds
open JustApi.Lib.Result JustApi.Inference.KvCache JustApi.Inference.RadixCache
open JustApi.Inference.RadixEntries JustApi.Inference.RadixRemoval JustApi.Inference.RadixRuns
open JustApi.Inference.RadixCorrect (Op)
open JustApi.Inference.RadixWalks (Removal matchedTokens evictFilter_removal)
open JustApi.Inference.RadixTrie (Trie Labelled nodeAt cut_edge insertNode_adds lookupNode_reread
  reread_touch trie_leaf)
open RadixNode

inductive Fault where
  | panic (p : Panic)
  | tooDeep
  deriving DecidableEq, Repr

/-- `xs[i]` -/
def index {α : Type} (xs : List α) (i : Nat) : Except Fault α :=
  match xs[i]? with
  | some x => .ok x
  | none => .error (.panic .indexOutOfBounds)

/-- `&xs[i..]` -/
def dropping {α : Type} (xs : List α) (i : Nat) : Except Fault (List α) :=
  (sliceFrom xs i).mapError .panic

/-- `&xs[..i]` -/
def taking {α : Type} (xs : List α) (i : Nat) : Except Fault (List α) :=
  (sliceTo xs i).mapError .panic

/-- `insert_node` -/
def checkedInsert : Nat → RadixNode → List Token → List BlockId → Nat → Except Fault RadixNode
  | 0, _, _, _, _ => .error .tooDeep
  | fuel + 1, node, tokens, blocks, now =>
    if tokens.isEmpty then .ok (node.touch now)
    else do
      let first ← index tokens 0
      match node.child? first with
      | some child =>
        let cp := commonPrefixLen tokens child.tokens
        if cp = child.tokens.length then
          let tokens' ← dropping tokens cp
          let blocks' ← dropping blocks (cp / BLOCK_SIZE)
          let child' ← checkedInsert fuel child tokens' blocks' now
          pure (node.setChild first child')
        else
          let edge ← dropping child.tokens cp
          let below ← dropping child.blocks (cp / BLOCK_SIZE)
          let split := mk edge below child.children child.lastAccess (hashTokens edge)
          let key ← index split.tokens 0
          let top := mk (child.tokens.take cp) (child.blocks.take (cp / BLOCK_SIZE))
            [⟨key, split⟩] child.lastAccess (hashTokens (child.tokens.take cp))
          let tokens' ← dropping tokens cp
          let blocks' ← dropping blocks (cp / BLOCK_SIZE)
          let child' ← checkedInsert fuel top tokens' blocks' now
          pure (node.setChild first child')
      | none => pure (node.setChild first (RadixNode.new tokens blocks now))

/-- `lookup_node` -/
def checkedLookup : Nat → RadixNode → List Token → Nat → Except Fault (RadixNode × Found)
  | 0, _, _, _ => .error .tooDeep
  | fuel + 1, node, tokens, now =>
    if tokens.isEmpty then .ok (node, ⟨0, [], false⟩)
    else do
      let first ← index tokens 0
      match node.child? first with
      | none => pure (node, ⟨0, [], false⟩)
      | some child =>
        let cp := commonPrefixLen tokens child.tokens
        if cp = child.tokens.length then
          let matched ← taking tokens cp
          if child.tokenHash ≠ hashTokens matched then pure (node, ⟨0, [], true⟩)
          else
            let tokens' ← dropping tokens cp
            let (child', out) ← checkedLookup fuel (child.touch now) tokens' now
            pure (node.setChild first child',
              ⟨cp + out.matched, child.blocks ++ out.blocks, out.collision⟩)
        else if 0 < cp then
          let bs ← taking child.blocks (cp / BLOCK_SIZE)
          pure (node.setChild first (child.touch now), ⟨cp, bs, false⟩)
        else pure (node, ⟨0, [], false⟩)

section Checks

variable {α : Type} {xs : List α} {i : Nat}

theorem dropping_ok (h : i ≤ xs.length) : dropping xs i = .ok (xs.drop i) := by
  rw [dropping, sliceFrom_ok h]
  rfl

theorem taking_ok (h : i ≤ xs.length) : taking xs i = .ok (xs.take i) := by
  rw [taking, sliceTo_ok h]
  rfl

theorem index_zero {x : α} (h : xs.head? = some x) : index xs 0 = .ok x := by
  rw [index, ← List.head?_eq_getElem?, h]

end Checks

/-! ## The two walks -/

section Walks

variable {fuel now : Nat} {node child : RadixNode} {tokens : List Token} {blocks : List BlockId}
  {first : Token}

theorem not_isEmpty (hf : tokens.head? = some first) : ¬ tokens.isEmpty = true := by
  intro h
  rw [List.isEmpty_iff.mp h] at hf
  cases hf

theorem checkedInsert_none (hf : tokens.head? = some first) (hc : node.child? first = none) :
    checkedInsert (fuel + 1) node tokens blocks now =
      .ok (node.setChild first (RadixNode.new tokens blocks now)) := by
  simp only [checkedInsert, if_neg (not_isEmpty hf), index_zero hf, ok_bind, hc]
  rfl

theorem checkedInsert_full (hf : tokens.head? = some first) (hc : node.child? first = some child)
    (hcp : commonPrefixLen tokens child.tokens = child.tokens.length)
    (hb : child.tokens.length / BLOCK_SIZE ≤ blocks.length) :
    checkedInsert (fuel + 1) node tokens blocks now =
      (checkedInsert fuel child (tokens.drop child.tokens.length)
        (blocks.drop (child.tokens.length / BLOCK_SIZE)) now).map (node.setChild first) := by
  have hle : child.tokens.length ≤ tokens.length := hcp ▸ commonPrefixLen_le_left _ _
  simp only [checkedInsert, if_neg (not_isEmpty hf), index_zero hf, ok_bind, hc, hcp, if_true,
    dropping_ok hle, dropping_ok hb]
  rfl

theorem checkedInsert_split {cp : Nat} (hf : tokens.head? = some first)
    (hc : node.child? first = some child) (hcp : commonPrefixLen tokens child.tokens = cp)
    (hne : cp ≠ child.tokens.length) (hcb : cp / BLOCK_SIZE ≤ child.blocks.length)
    (hb : cp / BLOCK_SIZE ≤ blocks.length) :
    checkedInsert (fuel + 1) node tokens blocks now =
      (let split := mk (child.tokens.drop cp) (child.blocks.drop (cp / BLOCK_SIZE)) child.children
        child.lastAccess (hashTokens (child.tokens.drop cp))
      let top := mk (child.tokens.take cp) (child.blocks.take (cp / BLOCK_SIZE))
        [⟨split.tokens.headD first, split⟩] child.lastAccess (hashTokens (child.tokens.take cp))
      (checkedInsert fuel top (tokens.drop cp) (blocks.drop (cp / BLOCK_SIZE)) now).map
        (node.setChild first)) := by
  have hle : cp ≤ tokens.length := hcp ▸ commonPrefixLen_le_left _ _
  have hlt : cp < child.tokens.length :=
    Nat.lt_of_le_of_ne (hcp ▸ commonPrefixLen_le_right _ _) hne
  have hkey : (child.tokens.drop cp).head? = some ((child.tokens.drop cp).headD first) := by
    rw [List.drop_eq_getElem_cons hlt]
    rfl
  have hsplit := @index_zero _ (mk (child.tokens.drop cp) (child.blocks.drop (cp / BLOCK_SIZE))
    child.children child.lastAccess (hashTokens (child.tokens.drop cp))).tokens _ hkey
  simp only [checkedInsert, if_neg (not_isEmpty hf), index_zero hf, ok_bind, hc, hcp, if_neg hne,
    dropping_ok hle, dropping_ok hlt.le, dropping_ok hcb, dropping_ok hb, hsplit]
  rfl

theorem checkedLookup_none (hf : tokens.head? = some first) (hc : node.child? first = none) :
    checkedLookup (fuel + 1) node tokens now = .ok (node, ⟨0, [], false⟩) := by
  simp only [checkedLookup, if_neg (not_isEmpty hf), index_zero hf, ok_bind, hc]
  rfl

theorem checkedLookup_full (hf : tokens.head? = some first) (hc : node.child? first = some child)
    (hcp : commonPrefixLen tokens child.tokens = child.tokens.length)
    (hh : child.tokenHash = hashTokens child.tokens) :
    checkedLookup (fuel + 1) node tokens now =
      (checkedLookup fuel (child.touch now) (tokens.drop child.tokens.length) now).map fun r =>
        (node.setChild first r.1,
          ⟨child.tokens.length + r.2.matched, child.blocks ++ r.2.blocks, r.2.collision⟩) := by
  have hle : child.tokens.length ≤ tokens.length := hcp ▸ commonPrefixLen_le_left _ _
  have htake := take_commonPrefixLen tokens child.tokens
  rw [hcp, List.take_length] at htake
  simp only [checkedLookup, if_neg (not_isEmpty hf), index_zero hf, ok_bind, hc, hcp, if_true,
    taking_ok hle, dropping_ok hle, htake, hh, ne_eq, not_true_eq_false, if_false]
  rfl

theorem checkedLookup_inside (hf : tokens.head? = some first) (hc : node.child? first = some child)
    (hcp : commonPrefixLen tokens child.tokens ≠ child.tokens.length)
    (hpos : 0 < commonPrefixLen tokens child.tokens)
    (hb : commonPrefixLen tokens child.tokens / BLOCK_SIZE ≤ child.blocks.length) :
    checkedLookup (fuel + 1) node tokens now = .ok (node.setChild first (child.touch now),
      ⟨commonPrefixLen tokens child.tokens,
        child.blocks.take (commonPrefixLen tokens child.tokens / BLOCK_SIZE), false⟩) := by
  simp only [checkedLookup, if_neg (not_isEmpty hf), index_zero hf, ok_bind, hc, if_neg hcp,
    if_pos hpos, taking_ok hb]
  rfl

end Walks

theorem mapError_map {α β ε ε' : Type} (x : Except ε α) (f : α → β) (g : ε → ε') :
    (x.map f).mapError g = (x.mapError g).map f := by
  cases x <;> rfl

/-- The checks of an insertion that the model leaves out never fail, and the recursion ends. -/
theorem checkedInsert_eq (fuel : Nat) (node : RadixNode) (tokens : List Token)
    (blocks : List BlockId) (now : Nat) (h : Trie node) (hfuel : tokens.length < fuel)
    (hb : tokens.length / BLOCK_SIZE ≤ blocks.length) :
    checkedInsert fuel node tokens blocks now =
      (insertNode fuel node tokens blocks now).mapError .panic := by
  induction fuel generalizing node tokens blocks with
  | zero => omega
  | succ fuel ih =>
    cases hf : tokens.head? with
    | none =>
      rw [List.head?_eq_none_iff] at hf
      subst hf
      rfl
    | some first =>
      cases hc : node.child? first with
      | none =>
        rw [checkedInsert_none hf hc, insertNode_none hf hc]
        rfl
      | some child =>
        obtain ⟨hk, hchild⟩ := h.child hc
        obtain ⟨cp, hcp⟩ : ∃ cp, commonPrefixLen tokens child.tokens = cp := ⟨_, rfl⟩
        have hpos : 0 < cp := hcp ▸ commonPrefixLen_pos hf hk.head
        have hle : cp ≤ tokens.length := hcp ▸ commonPrefixLen_le_left _ _
        have hcr : cp ≤ child.tokens.length := hcp ▸ commonPrefixLen_le_right _ _
        have hcb : cp / BLOCK_SIZE ≤ child.blocks.length :=
          (Nat.div_le_div_right hcr).trans hk.room
        have hbb : cp / BLOCK_SIZE ≤ blocks.length := (Nat.div_le_div_right hle).trans hb
        have hrest : (tokens.drop cp).length / BLOCK_SIZE ≤
            (blocks.drop (cp / BLOCK_SIZE)).length := by
          rw [List.length_drop, List.length_drop]
          simp only [BLOCK_SIZE] at hb ⊢
          omega
        have hless : (tokens.drop cp).length < fuel := by
          rw [List.length_drop]
          omega
        by_cases hfull : cp = child.tokens.length
        · subst hfull
          rw [checkedInsert_full hf hc hcp hbb, insertNode_full hf hc hcp hbb, mapError_map,
            ih child _ _ hchild hless hrest]
        · obtain ⟨-, -, htop, -⟩ := @cut_edge child first first cp hk hchild hpos (by omega)
          rw [checkedInsert_split hf hc hcp hfull hcb hbb, insertNode_split hf hc hcp hfull hcb hbb]
          dsimp only at htop ⊢
          rw [mapError_map, ih _ _ _ htop hless hrest]

theorem checkedLookup_eq (fuel : Nat) (node : RadixNode) (tokens : List Token) (now : Nat)
    (h : Trie node) (hfuel : tokens.length < fuel) :
    checkedLookup fuel node tokens now = (lookupNode fuel node tokens now).mapError .panic := by
  induction fuel generalizing node tokens with
  | zero => omega
  | succ fuel ih =>
    cases hf : tokens.head? with
    | none =>
      rw [List.head?_eq_none_iff] at hf
      subst hf
      rfl
    | some first =>
      cases hc : node.child? first with
      | none =>
        rw [checkedLookup_none hf hc, lookupNode_none hf hc]
        rfl
      | some child =>
        obtain ⟨hk, hchild⟩ := h.child hc
        have hpos := commonPrefixLen_pos hf hk.head
        by_cases hcp : commonPrefixLen tokens child.tokens = child.tokens.length
        · have hless : (tokens.drop child.tokens.length).length < fuel := by
            have hle := commonPrefixLen_le_left tokens child.tokens
            rw [List.length_drop]
            omega
          rw [checkedLookup_full hf hc hcp hk.hash, lookupNode_full hf hc hcp hk.hash, mapError_map,
            ih _ _ (reread_touch hchild now).trie hless]
        · have hb : commonPrefixLen tokens child.tokens / BLOCK_SIZE ≤ child.blocks.length :=
            (Nat.div_le_div_right (commonPrefixLen_le_right _ _)).trans hk.room
          rw [checkedLookup_inside hf hc hcp hpos hb, lookupNode_inside hf hc hcp hpos hb]
          rfl

/-! ## Runs -/

/-- The cache after a lookup that left `root` and found `out`. -/
def settle (c : RadixPrefixCache) (root : RadixNode) (out : Found) : RadixPrefixCache :=
  let c := { c with root := root, clock := c.tick }
  if out.collision then { c with hashCollisions := c.hashCollisions + 1, misses := c.misses + 1 }
  else if 0 < out.matched then
    { c with hits := c.hits + 1, tokensSaved := c.tokensSaved + out.matched }
  else { c with misses := c.misses + 1 }

/-- A call with all its checks. -/
def checkedExec (c : RadixPrefixCache) : Op → Except Fault RadixPrefixCache
  | .insert tokens blocks =>
    if tokens.length = blocks.length * BLOCK_SIZE then
      (checkedInsert (tokens.length + 1) c.root tokens blocks c.tick).map fun root =>
        { c with root := root, clock := c.tick }
    else .error (.panic .blockMisalignment)
  | .lookup tokens =>
    (checkedLookup (tokens.length + 1) c.root tokens c.tick).map fun r => settle c r.1 r.2
  | .evict order k => .ok (c.evict order k).2
  | .evictFilter order k keep => .ok (c.evictFilter order k keep).2

/-- `tokens.len() == blocks.len() * BLOCK_SIZE` -/
def WholeBlocks : Op → Prop
  | .insert tokens blocks => tokens.length = blocks.length * BLOCK_SIZE
  | _ => True

/-- The slices of a node are in range, and its children have edges, under their first tokens. -/
structure Bounded (node : RadixNode) : Prop where
  room : node.tokens.length / BLOCK_SIZE ≤ node.blocks.length
  edges : ∀ e ∈ node.children, e.2.tokens ≠ [] ∧ e.2.tokens.head? = some e.1

/-- A trie below a root without an edge. -/
structure Rooted (node : RadixNode) : Prop where
  trie : Trie node
  tokens : node.tokens = []
  hash : node.tokenHash = hashTokens []

section Steps

variable {c c' : RadixPrefixCache} {op : Op}

theorem rooted_new : Rooted RadixPrefixCache.new.root := ⟨trie_leaf _ _ _, rfl, rfl⟩

theorem Rooted.same {node node' : RadixNode} (h : Rooted node) (hs : SameEdge node node')
    (ht : Trie node') : Rooted node' :=
  ⟨ht, hs.1.trans h.tokens, hs.2.2.trans h.hash⟩

theorem Rooted.pruned {gone : List (List Token × List BlockId)} (order : HashOrder)
    (h : Rooted c.root) (hr : Removal (order.apply c.root) gone c'.root) :
    Rooted c'.root := by
  obtain ⟨hp, hk⟩ := pruned_of_removal order (keyed_of_trie h.trie) hr
  obtain ⟨n, hn, hl⟩ := hp [] c'.root rfl
  cases hn
  exact h.same (label_eq_iff.mp hl).1 (hp.trie h.trie hk)

/-- What a lookup in a trie finds is what the tokens alone match. -/
theorem lookup_settles (h : Trie c.root) (q : List Token) : ∃ root out,
    lookupNode (q.length + 1) c.root q c.tick = .ok (root, out) ∧
      out.matched = matchedTokens c q ∧ out.collision = false ∧
      SameEdge c.root root ∧ Trie root ∧
      c.lookup q = .ok (if out.matched = 0 then none else some (out.matched, out.blocks),
        settle c root out) := by
  obtain ⟨root, out, hl, hm, hcol, hr⟩ := lookupNode_reread (q.length + 1) c.root q c.tick h
  refine ⟨root, out, hl, hm, hcol, hr.same, hr.trie, ?_⟩
  simp only [RadixPrefixCache.lookup, hl, settle, hcol, Bool.false_eq_true, if_false]
  by_cases hz : out.matched = 0
  · rw [if_neg (by omega), if_pos hz, if_neg (by omega)]
  · rw [if_pos (by omega), if_neg hz, if_pos (by omega)]

theorem settle_root (c : RadixPrefixCache) (root : RadixNode) (out : Found) :
    (settle c root out).root = root := by
  unfold settle
  split
  · rfl
  · split <;> rfl

/-- A call passes all its checks. -/
theorem Rooted.step (h : Rooted c.root) (hop : WholeBlocks op) :
    ∃ c', checkedExec c op = .ok c' ∧ exec c op = .ok c' ∧ Rooted c'.root := by
  cases op with
  | insert tokens blocks =>
    have hlen : tokens.length = blocks.length * BLOCK_SIZE := hop
    have hb : tokens.length / BLOCK_SIZE ≤ blocks.length := by
      rw [hlen, Nat.mul_div_cancel _ blockSize_pos]
    obtain ⟨root, hroot, ha⟩ := insertNode_adds (tokens.length + 1) c.root tokens blocks c.tick
      h.trie (Nat.lt_succ_self _) hb
    refine ⟨{ c with root := root, clock := c.tick }, ?_, ?_, h.same ha.same ha.trie⟩
    · rw [checkedExec, if_pos hlen, checkedInsert_eq _ _ _ _ _ h.trie (Nat.lt_succ_self _) hb, hroot]
      rfl
    · rw [exec, RadixPrefixCache.insert, if_pos hlen, hroot]
  | lookup q =>
    obtain ⟨root, out, hl, -, -, hs, ht, hlook⟩ := lookup_settles h.trie q
    refine ⟨settle c root out, ?_, ?_, ?_⟩
    · rw [checkedExec, checkedLookup_eq _ _ _ _ h.trie (Nat.lt_succ_self _), hl]
      rfl
    · rw [exec, hlook]
      rfl
    · rw [settle_root]
      exact h.same hs ht
  | evict order k =>
    obtain ⟨gone, -, hr, -⟩ := evict_removal order k (keyed_of_trie h.trie)
    exact ⟨_, rfl, rfl, h.pruned order hr⟩
  | evictFilter order k keep =>
    obtain ⟨gone, -, hr, -⟩ :=
      evictFilter_removal order k keep (keyed_listed order (keyed_of_trie h.trie))
    exact ⟨_, rfl, rfl, h.pruned order hr⟩

/-- Every node of a trie is bounded. -/
theorem Rooted.bounded {node n : RadixNode} {path : List Token} (h : Rooted node)
    (hat : nodeAt node path = some n) : Bounded n := by
  have hbelow {node n : RadixNode} {path : List Token} (ht : Trie node)
      (hroom : node.tokens.length / BLOCK_SIZE ≤ node.blocks.length)
      (hat : nodeAt node path = some n) : Bounded n := by
    induction path generalizing node with
    | nil =>
      cases hat
      refine ⟨hroom, fun e he => ⟨fun hnil => ?_, (ht.labelled e he).head⟩⟩
      have hhead := (ht.labelled e he).head
      rw [hnil] at hhead
      cases hhead
    | cons key path ih =>
      obtain ⟨child, hc, hat⟩ := Option.bind_eq_some_iff.mp hat
      obtain ⟨hk, hchild⟩ := ht.child hc
      exact ih hchild hk.room hat
  refine hbelow h.trie ?_ hat
  rw [h.tokens]
  exact Nat.zero_le _

theorem Rooted.run {ops : List Op} (h : Rooted c.root) (hops : ∀ op ∈ ops, WholeBlocks op) :
    ∃ c', ops.foldlM checkedExec c = .ok c' ∧ ops.foldlM exec c = .ok c' ∧ Rooted c'.root := by
  induction ops generalizing c with
  | nil => exact ⟨c, rfl, rfl, h⟩
  | cons op ops ih =>
    obtain ⟨c₁, hc, he, h₁⟩ := h.step (hops op List.mem_cons_self)
    obtain ⟨c', hcs, hes, h'⟩ := ih h₁ fun o ho => hops o (List.mem_cons_of_mem _ ho)
    exact ⟨c', by rw [foldlM_cons, hc]; exact hcs, by rw [foldlM_cons, he]; exact hes, h'⟩

end Steps

/-- After any calls, of which none fails a check, the nodes of the tree are bounded. -/
theorem slices_in_bounds (ops : List Op) (hops : ∀ op ∈ ops, WholeBlocks op) :
    ∃ c, ops.foldlM checkedExec .new = .ok c ∧ ops.foldlM exec .new = .ok c ∧
      ∀ path n, nodeAt c.root path = some n → Bounded n := by
  obtain ⟨c, hc, he, h⟩ := rooted_new.run hops
  exact ⟨c, hc, he, fun path n hat => h.bounded hat⟩

/-- Prompts that part in the middle of a block, twice. -/
def unaligned : List Op :=
  [.insert ((List.range 32).map UInt32.ofNat) [10, 11],
    .insert ((List.range 24 ++ List.range 8).map UInt32.ofNat) [20, 21],
    .insert ((List.range 5 ++ List.range 11).map UInt32.ofNat) [30],
    .lookup ((List.range 29).map UInt32.ofNat), .evict .listed 1]

theorem slices_in_bounds_unaligned : (∀ op ∈ unaligned, WholeBlocks op) ∧
    ∃ c, unaligned.foldlM checkedExec .new = .ok c ∧ unaligned.foldlM exec .new = .ok c ∧
      ∀ path n, nodeAt c.root path = some n → Bounded n := by
  have hops : ∀ op ∈ unaligned, WholeBlocks op := by
    simp [unaligned, WholeBlocks, BLOCK_SIZE]
  exact ⟨hops, slices_in_bounds unaligned hops⟩

end JustApi.Inference.RadixBounds
