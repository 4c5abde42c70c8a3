import JustApi.Lib.Assoc
import JustApi.Inference.RadixCache

/-! # What a radix tree stores

A block-aligned tree is a map from block-aligned token prefixes to blocks:
`entries` lists it, each block with the tokens from the root to its end. On an
aligned tree `lookup` reads the entries along the query, `insert` adds the ones
that are missing, and the evictions remove those of the leaves they drop. -/
namespace JustApi.Inference.RadixEntries
open JustApi.Lib.Assoc JustApi.Lib.Result JustApi.Inference.KvCache JustApi.Inference.RadixCache
open RadixNode

/-- A block with the tokens from the root to its end. -/
abbrev Entry := List Token × BlockId

/-- Entries seen from further up, `path` above. -/
def under (path : List Token) (es : List Entry) : List Entry :=
  es.map fun e => (path ++ e.1, e.2)

/-- The blocks of a run of tokens, each with the tokens it ends. -/
def blockPaths : List Token → List BlockId → List Entry
  | _, [] => []
  | ts, b :: bs =>
    (ts.take BLOCK_SIZE, b) :: under (ts.take BLOCK_SIZE) (blockPaths (ts.drop BLOCK_SIZE) bs)

mutual
def entries : RadixNode → List Entry
  | mk _ _ children _ _ => entriesBelow children
def entriesBelow : List (Σ _ : Token, RadixNode) → List Entry
  | [] => []
  | ⟨_, c⟩ :: rest => (blockPaths c.tokens c.blocks ++ under c.tokens (entries c)) ++ entriesBelow rest
end

/-- The entries of a child: its own edge and what is below it. -/
def edge (c : RadixNode) : List Entry := blockPaths c.tokens c.blocks ++ under c.tokens (entries c)

theorem entriesBelow_eq (cs : List (Σ _ : Token, RadixNode)) :
    entriesBelow cs = cs.flatMap fun e => edge e.2 := by
  induction cs with
  | nil => rfl
  | cons e rest ih =>
    obtain ⟨k, c⟩ := e
    simp [entriesBelow, edge, ih]

theorem entries_eq (node : RadixNode) :
    entries node = node.children.flatMap fun e => edge e.2 := by
  cases node with
  | mk tokens blocks children access hash => exact entriesBelow_eq children

@[simp] theorem under_nil_path (es : List Entry) : under [] es = es := by simp [under]

@[simp] theorem under_nil (path : List Token) : under path [] = [] := rfl

@[simp] theorem under_append (path : List Token) (es fs : List Entry) :
    under path (es ++ fs) = under path es ++ under path fs := by simp [under]

@[simp] theorem under_under (p q : List Token) (es : List Entry) :
    under p (under q es) = under (p ++ q) es := by simp [under, Function.comp_def]

@[simp] theorem under_map_snd (path : List Token) (es : List Entry) :
    (under path es).map Prod.snd = es.map Prod.snd := by simp [under, Function.comp_def]

theorem under_drop (path : List Token) (es : List Entry) (n : Nat) :
    (under path es).drop n = under path (es.drop n) := by simp [under]

theorem under_perm {path : List Token} {es fs : List Entry} (h : es.Perm fs) :
    (under path es).Perm (under path fs) := h.map _

theorem mem_under {path p : List Token} {b : BlockId} {es : List Entry} :
    (p, b) ∈ under path es ↔ ∃ q, (q, b) ∈ es ∧ p = path ++ q := by
  simp only [under, List.mem_map, Prod.mk.injEq]
  constructor
  · rintro ⟨⟨q, c⟩, hm, hp, rfl⟩
    exact ⟨q, hm, hp.symm⟩
  · rintro ⟨q, hm, rfl⟩
    exact ⟨(q, b), hm, rfl, rfl⟩

@[simp] theorem blockPaths_map_snd (ts : List Token) (bs : List BlockId) :
    (blockPaths ts bs).map Prod.snd = bs := by
  induction bs generalizing ts with
  | nil => rfl
  | cons b bs ih => simp [blockPaths, ih]

@[simp] theorem blockPaths_length (ts : List Token) (bs : List BlockId) :
    (blockPaths ts bs).length = bs.length := by
  rw [← List.length_map (f := Prod.snd), blockPaths_map_snd]

theorem succ_blocks (n : Nat) : (n + 1) * BLOCK_SIZE = BLOCK_SIZE + n * BLOCK_SIZE := by
  rw [Nat.succ_mul, Nat.add_comm]

theorem mem_blockPaths {ts p : List Token} {bs : List BlockId} {b : BlockId} :
    (p, b) ∈ blockPaths ts bs ↔ ∃ j, bs[j]? = some b ∧ p = ts.take ((j + 1) * BLOCK_SIZE) := by
  induction bs generalizing ts p with
  | nil => simp [blockPaths]
  | cons c bs ih =>
    simp only [blockPaths, List.mem_cons, Prod.mk.injEq, mem_under, ih]
    constructor
    · rintro (⟨rfl, rfl⟩ | ⟨q, ⟨j, hj, rfl⟩, rfl⟩)
      · exact ⟨0, rfl, by simp⟩
      · refine ⟨j + 1, by simpa using hj, ?_⟩
        rw [← List.take_add, succ_blocks (j + 1)]
    · rintro ⟨j, hj, rfl⟩
      cases j with
      | zero => exact .inl ⟨by simp, by simpa using hj.symm⟩
      | succ j =>
        refine .inr ⟨(ts.drop BLOCK_SIZE).take ((j + 1) * BLOCK_SIZE), ⟨j, by simpa using hj, rfl⟩, ?_⟩
        rw [← List.take_add, succ_blocks (j + 1)]

/-- The blocks of an edge cut at a block boundary. -/
theorem blockPaths_split (n : Nat) (ts : List Token) (bs : List BlockId)
    (hlen : n * BLOCK_SIZE ≤ ts.length) :
    blockPaths ts bs = blockPaths (ts.take (n * BLOCK_SIZE)) (bs.take n) ++
      under (ts.take (n * BLOCK_SIZE)) (blockPaths (ts.drop (n * BLOCK_SIZE)) (bs.drop n)) := by
  induction n generalizing ts bs with
  | zero => simp [blockPaths]
  | succ n ih =>
    cases bs with
    | nil => simp [blockPaths]
    | cons b bs =>
      have hn := succ_blocks n
      have hlen' : n * BLOCK_SIZE ≤ (ts.drop BLOCK_SIZE).length := by
        rw [List.length_drop]; omega
      have hmin : min BLOCK_SIZE (BLOCK_SIZE + n * BLOCK_SIZE) = BLOCK_SIZE := by omega
      simp only [blockPaths, List.take_succ_cons, List.drop_succ_cons, hn, List.take_take, hmin,
        ih (ts.drop BLOCK_SIZE) bs hlen', under_append, under_under, List.drop_drop,
        List.cons_append]
      rw [List.drop_take, Nat.add_sub_cancel_left, List.take_add]

/-- Leaving out the blocks up to a boundary and some more beyond it. -/
theorem blockPaths_drop {n k : Nat} {ts : List Token} {bs : List BlockId}
    (hts : n * BLOCK_SIZE ≤ ts.length) (hbs : n ≤ bs.length) : (blockPaths ts bs).drop (n + k) =
      under (ts.take (n * BLOCK_SIZE))
        ((blockPaths (ts.drop (n * BLOCK_SIZE)) (bs.drop n)).drop k) := by
  have hn : (blockPaths (ts.take (n * BLOCK_SIZE)) (bs.take n)).length = n := by
    rw [blockPaths_length, List.length_take, Nat.min_eq_left hbs]
  rw [blockPaths_split n ts bs hts, ← List.drop_drop, List.drop_left' hn, under_drop]

/-! ## The common prefix of two runs of tokens -/

theorem commonPrefixLen_le_left (a b : List Token) : commonPrefixLen a b ≤ a.length := by
  induction a generalizing b with
  | nil => simp [commonPrefixLen]
  | cons x a ih =>
    cases b with
    | nil => simp [commonPrefixLen]
    | cons y b =>
      simp only [commonPrefixLen]
      split
      · have := ih b
        simp only [List.length_cons]
        omega
      · omega

theorem commonPrefixLen_le_right (a b : List Token) : commonPrefixLen a b ≤ b.length := by
  induction a generalizing b with
  | nil => simp [commonPrefixLen]
  | cons x a ih =>
    cases b with
    | nil => simp [commonPrefixLen]
    | cons y b =>
      simp only [commonPrefixLen]
      split
      · have := ih b
        simp only [List.length_cons]
        omega
      · omega

theorem take_commonPrefixLen (a b : List Token) :
    a.take (commonPrefixLen a b) = b.take (commonPrefixLen a b) := by
  induction a generalizing b with
  | nil => simp [commonPrefixLen]
  | cons x a ih =>
    cases b with
    | nil => simp [commonPrefixLen]
    | cons y b =>
      simp only [commonPrefixLen]
      split
      · rename_i hxy
        simp [ih b, hxy]
      · simp

/-- The runs go different ways after their common prefix. -/
theorem head_ne_after_commonPrefix {a b : List Token} {x y : Token}
    (hx : (a.drop (commonPrefixLen a b)).head? = some x)
    (hy : (b.drop (commonPrefixLen a b)).head? = some y) : x ≠ y := by
  induction a generalizing b with
  | nil => simp at hx
  | cons u a ih =>
    cases b with
    | nil => simp at hy
    | cons v b =>
      simp only [commonPrefixLen] at hx hy
      split at hx
      · rename_i huv
        rw [if_pos huv] at hy
        exact ih (by simpa using hx) (by simpa using hy)
      · rename_i huv
        rw [if_neg huv] at hy
        simp only [List.drop_zero, List.head?_cons, Option.some.injEq] at hx hy
        rw [← hx, ← hy]
        exact huv

theorem commonPrefixLen_pos {a b : List Token} {k : Token} (ha : a.head? = some k)
    (hb : b.head? = some k) : 0 < commonPrefixLen a b := by
  cases a with
  | nil => simp at ha
  | cons x a =>
    cases b with
    | nil => simp at hb
    | cons y b =>
      simp only [List.head?_cons, Option.some.injEq] at ha hb
      simp [commonPrefixLen, ha, hb]

/-- A run that begins both is no longer than their common prefix. -/
theorem length_le_commonPrefixLen {p a b : List Token} (ha : p <+: a) (hb : p <+: b) :
    p.length ≤ commonPrefixLen a b := by
  induction p generalizing a b with
  | nil => simp
  | cons x p ih =>
    obtain ⟨a, rfl⟩ := ha
    obtain ⟨b, rfl⟩ := hb
    have := ih (List.prefix_append p a) (List.prefix_append p b)
    simp only [List.cons_append, commonPrefixLen, if_true, List.length_cons]
    omega

/-! ## Aligned trees -/

/-- A child keyed by the first token of its edge, with one block per
`BLOCK_SIZE` tokens and the hash of its tokens. -/
structure EdgeOk (key : Token) (c : RadixNode) : Prop where
  head : c.tokens.head? = some key
  length : c.tokens.length = c.blocks.length * BLOCK_SIZE
  hash : c.tokenHash = hashTokens c.tokens

/-- A match along the edge covers no more blocks than the edge has. -/
theorem EdgeOk.div_le {key : Token} {c : RadixNode} (h : EdgeOk key c) (tokens : List Token) :
    commonPrefixLen tokens c.tokens / BLOCK_SIZE ≤ c.blocks.length := by
  have hle := commonPrefixLen_le_right tokens c.tokens
  rw [h.length, Nat.mul_comm] at hle
  exact Nat.div_le_of_le_mul hle

theorem EdgeOk.blocks_ne_nil {key : Token} {c : RadixNode} (h : EdgeOk key c) : c.blocks ≠ [] := by
  intro hb
  have hlen := h.length
  rw [hb, List.length_nil, Nat.zero_mul] at hlen
  have hhead := h.head
  rw [List.length_eq_zero_iff.mp hlen] at hhead
  cases hhead

/-- Every node below is block aligned, as the cache documents its nodes to be. -/
inductive Aligned : RadixNode → Prop
  | mk {node : RadixNode} : node.children.NodupKeys →
      (∀ e ∈ node.children, EdgeOk e.1 e.2) → (∀ e ∈ node.children, Aligned e.2) → Aligned node

theorem Aligned.nodupKeys {node : RadixNode} (h : Aligned node) : node.children.NodupKeys := by
  cases h with
  | mk hn _ _ => exact hn

theorem Aligned.edgeOk {node : RadixNode} (h : Aligned node) :
    ∀ e ∈ node.children, EdgeOk e.1 e.2 := by
  cases h with
  | mk _ he _ => exact he

theorem Aligned.subtree {node : RadixNode} (h : Aligned node) :
    ∀ e ∈ node.children, Aligned e.2 := by
  cases h with
  | mk _ _ hb => exact hb

theorem Aligned.child {node c : RadixNode} {k : Token} (h : Aligned node)
    (hc : node.child? k = some c) : EdgeOk k c ∧ Aligned c :=
  have hm := List.of_mem_dlookup hc
  ⟨h.edgeOk _ hm, h.subtree _ hm⟩

theorem aligned_of_children_eq {node node' : RadixNode} (h : Aligned node)
    (hc : node'.children = node.children) : Aligned node' :=
  .mk (hc ▸ h.nodupKeys) (by rw [hc]; exact h.edgeOk) (by rw [hc]; exact h.subtree)

theorem Aligned.touch {node : RadixNode} (h : Aligned node) (now : Nat) :
    Aligned (node.touch now) := aligned_of_children_eq h rfl

theorem Aligned.setChild {node c : RadixNode} {k : Token} (h : Aligned node) (hk : EdgeOk k c)
    (hc : Aligned c) : Aligned (node.setChild k c) := by
  refine .mk (List.kinsert_nodupKeys k c h.nodupKeys) ?_ ?_
  · intro e he
    rcases mem_of_mem_kinsert he with rfl | he
    · exact hk
    · exact h.edgeOk e he
  · intro e he
    rcases mem_of_mem_kinsert he with rfl | he
    · exact hc
    · exact h.subtree e he

/-- Entries by child: the one looked up, and the rest. -/
theorem entries_perm_child {node c : RadixNode} {k : Token} (h : node.child? k = some c) :
    (entries node).Perm (edge c ++ (node.children.kerase k).flatMap fun e => edge e.2) := by
  rw [entries_eq]
  exact (perm_cons_kerase h).flatMap_right _

theorem entries_setChild (node c : RadixNode) (k : Token) :
    entries (node.setChild k c) = edge c ++ (node.children.kerase k).flatMap fun e => edge e.2 := by
  rw [entries_eq]
  rfl

/-- New entries of one child are new entries of the node. -/
theorem entries_grow {node c c' : RadixNode} {k : Token} {new : List Entry}
    (hc : node.child? k = some c) (he : (edge c').Perm (edge c ++ new)) :
    (entries (node.setChild k c')).Perm (entries node ++ new) := by
  rw [entries_setChild]
  refine (he.append_right _).trans ?_
  rw [List.append_assoc]
  refine (List.Perm.append_left (edge c) List.perm_append_comm).trans ?_
  rw [← List.append_assoc]
  exact (entries_perm_child hc).symm.append_right new

theorem entries_touch (c : RadixNode) (now : Nat) : entries (c.touch now) = entries c := by
  cases c
  rfl

/-- An edge as far as its label and blocks go. -/
def SameEdge (c c' : RadixNode) : Prop :=
  c'.tokens = c.tokens ∧ c'.blocks = c.blocks ∧ c'.tokenHash = c.tokenHash

theorem SameEdge.edgeOk {c c' : RadixNode} {k : Token} (h : SameEdge c c') (hk : EdgeOk k c) :
    EdgeOk k c' := by
  obtain ⟨ht, hb, hh⟩ := h
  exact ⟨ht ▸ hk.head, by rw [ht, hb]; exact hk.length, by rw [ht, hh]; exact hk.hash⟩

theorem SameEdge.edge_perm {c c' : RadixNode} {new : List Entry} (h : SameEdge c c')
    (he : (entries c').Perm (entries c ++ new)) :
    (edge c').Perm (edge c ++ under c.tokens new) := by
  obtain ⟨ht, hb, -⟩ := h
  simp only [edge, ht, hb, List.append_assoc]
  refine List.Perm.append_left _ ?_
  rw [← under_append]
  exact under_perm he

/-! ## Insertion -/

/-- How many of the tokens are on the tree already. -/
def matchLen : Nat → RadixNode → List Token → Nat
  | 0, _, _ => 0
  | fuel + 1, node, tokens =>
    match tokens with
    | [] => 0
    | first :: _ =>
      match node.child? first with
      | none => 0
      | some child =>
        let cp := commonPrefixLen tokens child.tokens
        if cp = child.tokens.length then cp + matchLen fuel child (tokens.drop cp) else cp

theorem sliceFrom_ok {α : Type} {xs : List α} {i : Nat} (h : i ≤ xs.length) :
    sliceFrom xs i = .ok (xs.drop i) := if_pos h

theorem sliceTo_ok {α : Type} {xs : List α} {i : Nat} (h : i ≤ xs.length) :
    sliceTo xs i = .ok (xs.take i) := if_pos h

section Equations

variable {fuel now : Nat} {node child : RadixNode} {tokens : List Token} {blocks : List BlockId}
  {first : Token}

theorem matchLen_nil (fuel : Nat) (node : RadixNode) : matchLen fuel node [] = 0 := by
  cases fuel <;> rfl

theorem matchLen_none (hf : tokens.head? = some first) (hc : node.child? first = none) :
    matchLen (fuel + 1) node tokens = 0 := by
  obtain ⟨rest, rfl⟩ := List.head?_eq_some_iff.mp hf
  simp [matchLen, hc]

theorem matchLen_full (hf : tokens.head? = some first) (hc : node.child? first = some child)
    (hcp : commonPrefixLen tokens child.tokens = child.tokens.length) :
    matchLen (fuel + 1) node tokens =
      child.tokens.length + matchLen fuel child (tokens.drop child.tokens.length) := by
  obtain ⟨rest, rfl⟩ := List.head?_eq_some_iff.mp hf
  simp [matchLen, hc, hcp]

theorem matchLen_inside (hf : tokens.head? = some first) (hc : node.child? first = some child)
    (hcp : commonPrefixLen tokens child.tokens ≠ child.tokens.length) :
    matchLen (fuel + 1) node tokens = commonPrefixLen tokens child.tokens := by
  obtain ⟨rest, rfl⟩ := List.head?_eq_some_iff.mp hf
  simp [matchLen, hc, hcp]

theorem insertNode_none (hf : tokens.head? = some first) (hc : node.child? first = none) :
    insertNode (fuel + 1) node tokens blocks now =
      .ok (node.setChild first (RadixNode.new tokens blocks now)) := by
  obtain ⟨rest, rfl⟩ := List.head?_eq_some_iff.mp hf
  simp [insertNode, hc]

theorem insertNode_full (hf : tokens.head? = some first) (hc : node.child? first = some child)
    (hcp : commonPrefixLen tokens child.tokens = child.tokens.length)
    (hb : child.tokens.length / BLOCK_SIZE ≤ blocks.length) :
    insertNode (fuel + 1) node tokens blocks now =
      (insertNode fuel child (tokens.drop child.tokens.length)
        (blocks.drop (child.tokens.length / BLOCK_SIZE)) now).map (node.setChild first) := by
  obtain ⟨rest, rfl⟩ := List.head?_eq_some_iff.mp hf
  simp only [insertNode, hc, hcp, if_true, sliceFrom_ok hb, bind, Except.bind, pure, Except.pure]
  split <;> rename_i heq <;> rw [heq] <;> rfl

theorem insertNode_split {cp : Nat} (hf : tokens.head? = some first)
    (hc : node.child? first = some child) (hcp : commonPrefixLen tokens child.tokens = cp)
    (hne : cp ≠ child.tokens.length) (hcb : cp / BLOCK_SIZE ≤ child.blocks.length)
    (hb : cp / BLOCK_SIZE ≤ blocks.length) :
    insertNode (fuel + 1) node tokens blocks now =
      (let split := mk (child.tokens.drop cp) (child.blocks.drop (cp / BLOCK_SIZE)) child.children
        child.lastAccess (hashTokens (child.tokens.drop cp))
      let top := mk (child.tokens.take cp) (child.blocks.take (cp / BLOCK_SIZE))
        [⟨split.tokens.headD first, split⟩] child.lastAccess (hashTokens (child.tokens.take cp))
      (insertNode fuel top (tokens.drop cp) (blocks.drop (cp / BLOCK_SIZE)) now).map
        (node.setChild first)) := by
  obtain ⟨rest, rfl⟩ := List.head?_eq_some_iff.mp hf
  simp only [insertNode, hc, hcp, if_neg hne, sliceFrom_ok hb, sliceFrom_ok hcb, bind, Except.bind,
    pure, Except.pure]
  split <;> rename_i heq <;> rw [heq] <;> rfl

theorem matchLen_touch (fuel : Nat) (node : RadixNode) (tokens : List Token) (now : Nat) :
    matchLen fuel (node.touch now) tokens = matchLen fuel node tokens := by
  cases fuel with
  | zero => rfl
  | succ fuel => cases tokens <;> rfl

theorem lookupNode_none (hf : tokens.head? = some first) (hc : node.child? first = none) :
    lookupNode (fuel + 1) node tokens now = .ok (node, ⟨0, [], false⟩) := by
  obtain ⟨rest, rfl⟩ := List.head?_eq_some_iff.mp hf
  simp [lookupNode, hc]

theorem lookupNode_full (hf : tokens.head? = some first) (hc : node.child? first = some child)
    (hcp : commonPrefixLen tokens child.tokens = child.tokens.length)
    (hh : child.tokenHash = hashTokens child.tokens) :
    lookupNode (fuel + 1) node tokens now =
      (lookupNode fuel (child.touch now) (tokens.drop child.tokens.length) now).map fun r =>
        (node.setChild first r.1,
          ⟨child.tokens.length + r.2.matched, child.blocks ++ r.2.blocks, r.2.collision⟩) := by
  have htake := take_commonPrefixLen tokens child.tokens
  rw [hcp, List.take_length] at htake
  obtain ⟨rest, rfl⟩ := List.head?_eq_some_iff.mp hf
  simp only [lookupNode, hc, hcp, if_true, htake, hh, ne_eq, not_true_eq_false, if_false, bind,
    Except.bind, pure, Except.pure]
  split <;> rename_i heq <;> rw [heq] <;> rfl

theorem lookupNode_inside (hf : tokens.head? = some first) (hc : node.child? first = some child)
    (hcp : commonPrefixLen tokens child.tokens ≠ child.tokens.length)
    (hpos : 0 < commonPrefixLen tokens child.tokens)
    (hb : commonPrefixLen tokens child.tokens / BLOCK_SIZE ≤ child.blocks.length) :
    lookupNode (fuel + 1) node tokens now = .ok (node.setChild first (child.touch now),
      ⟨commonPrefixLen tokens child.tokens,
        child.blocks.take (commonPrefixLen tokens child.tokens / BLOCK_SIZE), false⟩) := by
  obtain ⟨rest, rfl⟩ := List.head?_eq_some_iff.mp hf
  simp only [lookupNode, hc, if_neg hcp, if_pos hpos, sliceTo_ok hb]
  rfl

end Equations

/-- Cutting an aligned edge at a block boundary gives two aligned edges with the
entries of the one. -/
theorem split_edge {c : RadixNode} {k first : Token} {n : Nat} (hk : EdgeOk k c) (hc : Aligned c)
    (hpos : 0 < n) (hn : n * BLOCK_SIZE < c.tokens.length) :
    let split := mk (c.tokens.drop (n * BLOCK_SIZE)) (c.blocks.drop n) c.children c.lastAccess
      (hashTokens (c.tokens.drop (n * BLOCK_SIZE)))
    let top := mk (c.tokens.take (n * BLOCK_SIZE)) (c.blocks.take n)
      [⟨split.tokens.headD first, split⟩] c.lastAccess (hashTokens (c.tokens.take (n * BLOCK_SIZE)))
    top.tokens = c.tokens.take (n * BLOCK_SIZE) ∧ EdgeOk k top ∧ Aligned top ∧
      edge top = edge c ∧
      ∀ t d, top.child? t = some d → (c.tokens.drop (n * BLOCK_SIZE)).head? = some t := by
  intro split top
  have hlen := hk.length
  have hB := blockSize_pos
  have hnb : n ≤ c.blocks.length := by
    by_contra hgt
    have : c.blocks.length * BLOCK_SIZE ≤ n * BLOCK_SIZE := Nat.mul_le_mul_right _ (by omega)
    omega
  have hsplit : EdgeOk (split.tokens.headD first) split := by
    refine ⟨?_, ?_, rfl⟩
    · show (c.tokens.drop (n * BLOCK_SIZE)).head? =
        some ((c.tokens.drop (n * BLOCK_SIZE)).headD first)
      cases hd : c.tokens.drop (n * BLOCK_SIZE) with
      | nil =>
        have := congrArg List.length hd
        simp only [List.length_drop, List.length_nil] at this
        omega
      | cons x rest => rfl
    · show (c.tokens.drop (n * BLOCK_SIZE)).length = (c.blocks.drop n).length * BLOCK_SIZE
      rw [List.length_drop, List.length_drop, hlen, Nat.sub_mul]
  refine ⟨rfl, ⟨?_, ?_, rfl⟩, ?_, ?_, ?_⟩
  · show (c.tokens.take (n * BLOCK_SIZE)).head? = some k
    rw [List.head?_take, if_neg (by have := Nat.mul_pos hpos hB; omega)]
    exact hk.head
  · show (c.tokens.take (n * BLOCK_SIZE)).length = (c.blocks.take n).length * BLOCK_SIZE
    rw [List.length_take, List.length_take, Nat.min_eq_left (by omega), Nat.min_eq_left hnb]
  · refine .mk (List.nodupKeys_singleton _) ?_ ?_
    · intro e he
      rw [List.mem_singleton.mp he]
      exact hsplit
    · intro e he
      rw [List.mem_singleton.mp he]
      exact aligned_of_children_eq hc rfl
  · have hentries : entries top = edge split := by
      rw [entries_eq]
      exact List.append_nil _
    have hbelow : entries split = entries c := by rw [entries_eq, entries_eq]; rfl
    show blockPaths (c.tokens.take (n * BLOCK_SIZE)) (c.blocks.take n) ++
      under (c.tokens.take (n * BLOCK_SIZE)) (entries top) = edge c
    rw [hentries]
    show _ ++ under (c.tokens.take (n * BLOCK_SIZE))
      (blockPaths (c.tokens.drop (n * BLOCK_SIZE)) (c.blocks.drop n) ++
        under (c.tokens.drop (n * BLOCK_SIZE)) (entries split)) = edge c
    rw [hbelow, under_append, under_under, List.take_append_drop, ← List.append_assoc,
      ← blockPaths_split n _ _ (by omega)]
    rfl
  · intro t d ht
    obtain ⟨rfl, -⟩ := Sigma.mk.inj (List.mem_singleton.mp (List.of_mem_dlookup ht))
    exact hsplit.head

/-- An insertion succeeds and adds exactly the blocks of the tokens that were not
on the tree yet. -/
def Inserts (fuel : Nat) (node : RadixNode) (tokens : List Token) (blocks : List BlockId)
    (now : Nat) : Prop :=
  ∃ node', insertNode fuel node tokens blocks now = .ok node' ∧ SameEdge node node' ∧
    Aligned node' ∧ (entries node').Perm (entries node ++
      (blockPaths tokens blocks).drop (matchLen fuel node tokens / BLOCK_SIZE))

section Insertion

variable {fuel now : Nat} {node child : RadixNode} {tokens : List Token} {blocks : List BlockId}
  {first : Token}

/-- Where no edge starts with the first token, the tokens become a new leaf. -/
theorem inserts_none (h : Aligned node) (hlen : tokens.length = blocks.length * BLOCK_SIZE)
    (hf : tokens.head? = some first) (hc : node.child? first = none) :
    Inserts (fuel + 1) node tokens blocks now := by
  have hleaf : Aligned (RadixNode.new tokens blocks now) :=
    .mk List.nodupKeys_nil (fun _ he => nomatch he) (fun _ he => nomatch he)
  refine ⟨_, insertNode_none hf hc, ⟨rfl, rfl, rfl⟩, h.setChild ⟨hf, hlen, rfl⟩ hleaf, ?_⟩
  rw [matchLen_none hf hc, entries_setChild, entries_eq node,
    List.kerase_of_notMem_keys (List.dlookup_eq_none.mp hc)]
  have hedge : edge (RadixNode.new tokens blocks now) = blockPaths tokens blocks := by
    show blockPaths tokens blocks ++ under tokens [] = _
    simp
  rw [hedge]
  simpa using List.perm_append_comm

/-- The whole edge is consumed and the rest goes below it. -/
theorem inserts_full (h : Aligned node) (hlen : tokens.length = blocks.length * BLOCK_SIZE)
    (hf : tokens.head? = some first) (hc : node.child? first = some child)
    (hcp : commonPrefixLen tokens child.tokens = child.tokens.length)
    (hbelow : Inserts fuel child (tokens.drop child.tokens.length)
      (blocks.drop child.blocks.length) now) :
    Inserts (fuel + 1) node tokens blocks now := by
  obtain ⟨hk, hchild⟩ := h.child hc
  have hB := blockSize_pos
  have hle := commonPrefixLen_le_left tokens child.tokens
  have htake := take_commonPrefixLen tokens child.tokens
  rw [hcp] at hle htake
  rw [List.take_length] at htake
  have hn : child.tokens.length / BLOCK_SIZE = child.blocks.length := by
    rw [hk.length, Nat.mul_div_cancel _ hB]
  have hb : child.blocks.length ≤ blocks.length := by
    rw [hk.length, hlen] at hle
    exact Nat.le_of_mul_le_mul_right hle hB
  obtain ⟨child', hins, hsame, hal, hperm⟩ := hbelow
  refine ⟨node.setChild first child', ?_, ⟨rfl, rfl, rfl⟩,
    h.setChild (hsame.edgeOk hk) hal, ?_⟩
  · rw [insertNode_full hf hc hcp (hn ▸ hb), hn, hins]
    rfl
  · refine entries_grow hc ?_
    have hdiv : (child.tokens.length + matchLen fuel child
        (tokens.drop child.tokens.length)) / BLOCK_SIZE = child.blocks.length +
        matchLen fuel child (tokens.drop child.tokens.length) / BLOCK_SIZE := by
      rw [hk.length, Nat.mul_comm, Nat.mul_add_div hB]
    rw [matchLen_full hf hc hcp, hdiv, blockPaths_drop (hk.length ▸ hle) hb, ← hk.length, htake]
    exact hsame.edge_perm hperm

/-- The edge is cut at the block boundary where the tokens leave it. -/
theorem inserts_split {n : Nat} (h : Aligned node)
    (hlen : tokens.length = blocks.length * BLOCK_SIZE) (hfuel : tokens.length < fuel + 1)
    (hf : tokens.head? = some first) (hc : node.child? first = some child)
    (hcp : commonPrefixLen tokens child.tokens = n * BLOCK_SIZE)
    (hne : n * BLOCK_SIZE ≠ child.tokens.length)
    (ih : ∀ top, Aligned top → matchLen fuel top (tokens.drop (n * BLOCK_SIZE)) = 0 →
      Inserts fuel top (tokens.drop (n * BLOCK_SIZE)) (blocks.drop n) now) :
    Inserts (fuel + 1) node tokens blocks now := by
  obtain ⟨hk, hchild⟩ := h.child hc
  have hB := blockSize_pos
  have hdiv : n * BLOCK_SIZE / BLOCK_SIZE = n := Nat.mul_div_cancel _ hB
  have hpos : 0 < n * BLOCK_SIZE := hcp ▸ commonPrefixLen_pos hf hk.head
  have hle : n * BLOCK_SIZE ≤ tokens.length := hcp ▸ commonPrefixLen_le_left tokens child.tokens
  have hcr : n * BLOCK_SIZE ≤ child.tokens.length :=
    hcp ▸ commonPrefixLen_le_right tokens child.tokens
  have htake : tokens.take (n * BLOCK_SIZE) = child.tokens.take (n * BLOCK_SIZE) :=
    hcp ▸ take_commonPrefixLen tokens child.tokens
  have hcb : n ≤ child.blocks.length := Nat.le_of_mul_le_mul_right (hk.length ▸ hcr) hB
  have hb : n ≤ blocks.length := Nat.le_of_mul_le_mul_right (hlen ▸ hle) hB
  have hm : matchLen (fuel + 1) node tokens = n * BLOCK_SIZE :=
    (matchLen_inside hf hc (hcp ▸ hne)).trans hcp
  obtain ⟨httok, htk, htal, htedge, htkey⟩ :=
    @split_edge child first first n hk hchild (Nat.pos_of_mul_pos_right hpos) (by omega)
  have hins := @insertNode_split fuel now _ _ _ blocks _ _ hf hc hcp hne (hdiv.symm ▸ hcb)
    (hdiv.symm ▸ hb)
  rw [hdiv] at hins
  dsimp only at httok htk htal htedge htkey hins
  generalize RadixNode.mk (child.tokens.take (n * BLOCK_SIZE)) (child.blocks.take n) _
    child.lastAccess (hashTokens (child.tokens.take (n * BLOCK_SIZE))) = top at *
  -- past the cut the tokens differ from the one edge there
  have hzero : matchLen fuel top (tokens.drop (n * BLOCK_SIZE)) = 0 := by
    cases hd : (tokens.drop (n * BLOCK_SIZE)).head? with
    | none =>
      rw [List.head?_eq_none_iff.mp hd]
      exact matchLen_nil fuel top
    | some t =>
      have htop : top.child? t = none := by
        cases ht : top.child? t with
        | none => rfl
        | some d =>
          exact absurd rfl (head_ne_after_commonPrefix (hcp ▸ hd) (hcp ▸ htkey t d ht))
      obtain ⟨fuel, rfl⟩ : ∃ f, fuel = f + 1 := ⟨fuel - 1, by omega⟩
      exact matchLen_none hd htop
  obtain ⟨child', hchild', hsame, hal, hperm⟩ := ih top htal hzero
  refine ⟨node.setChild first child', by rw [hins, hchild']; rfl, ⟨rfl, rfl, rfl⟩,
    h.setChild (hsame.edgeOk htk) hal, ?_⟩
  refine entries_grow hc ?_
  have hnew := hsame.edge_perm hperm
  rw [hm, hdiv, ← Nat.add_zero n, blockPaths_drop hle hb, htake, ← httok]
  rwa [hzero, htedge] at hnew

end Insertion

/-- An insertion whose match ends on a block boundary adds the blocks beyond it. -/
theorem insertNode_aligned (fuel : Nat) (node : RadixNode) (tokens : List Token)
    (blocks : List BlockId) (now : Nat) (h : Aligned node) (hfuel : tokens.length < fuel)
    (hlen : tokens.length = blocks.length * BLOCK_SIZE)
    (hmatch : matchLen fuel node tokens % BLOCK_SIZE = 0) :
    Inserts fuel node tokens blocks now := by
  induction fuel generalizing node tokens blocks with
  | zero => omega
  | succ fuel ih =>
    cases hf : tokens.head? with
    | none =>
      rw [List.head?_eq_none_iff] at hf
      subst hf
      have hb : blocks = [] := by
        cases blocks with
        | nil => rfl
        | cons b bs => simp [BLOCK_SIZE] at hlen
      subst hb
      exact ⟨node.touch now, rfl, ⟨rfl, rfl, rfl⟩, h.touch now, by simp [entries_touch, blockPaths]⟩
    | some first =>
      cases hc : node.child? first with
      | none => exact inserts_none h hlen hf hc
      | some child =>
        obtain ⟨hk, hchild⟩ := h.child hc
        have hpos := commonPrefixLen_pos hf hk.head
        have hle := commonPrefixLen_le_left tokens child.tokens
        by_cases hcp : commonPrefixLen tokens child.tokens = child.tokens.length
        · rw [matchLen_full hf hc hcp, hk.length, Nat.mul_add_mod_self_right] at hmatch
          refine inserts_full h hlen hf hc hcp (ih child _ _ hchild ?_ ?_ ?_)
          · rw [List.length_drop]; omega
          · rw [List.length_drop, List.length_drop, hlen, hk.length, Nat.sub_mul]
          · rw [hk.length]; exact hmatch
        · rw [matchLen_inside hf hc hcp] at hmatch
          obtain ⟨n, hn⟩ := Nat.dvd_of_mod_eq_zero hmatch
          rw [Nat.mul_comm] at hn
          refine inserts_split h hlen hfuel hf hc hn (hn ▸ hcp) fun top htop hzero =>
            ih top _ _ htop ?_ ?_ (by rw [hzero]; rfl)
          · rw [List.length_drop]; omega
          · rw [List.length_drop, List.length_drop, hlen, Nat.sub_mul]

end JustApi.Inference.RadixEntries
