import Mathlib.Algebra.GroupWithZero.Nat
import Mathlib.Data.List.Dedup
import JustApi.Inference.RadixWalks

/-! # The radix tree as a trie

What a tree says about tokens alone, whatever its edges do to the blocks: it
stores a set of non-empty token runs, each once, and that set is the prefixes of
what was inserted. Edges may be cut anywhere here, so a node only has to carry
enough blocks for the slices taken of them to be in range. -/
namespace JustApi.Inference.RadixTrie
open JustApi.Lib.Assoc JustApi.Lib.Result JustApi.Inference.KvCache JustApi.Inference.RadixCache
open JustApi.Inference.RadixEntries JustApi.Inference.RadixWalks
open RadixNode

/-- The non-empty prefixes of a run of tokens, shortest first. -/
def prefixes : List Token → List (List Token)
  | [] => []
  | t :: ts => [t] :: (prefixes ts).map (t :: ·)

theorem prefixes_append (a b : List Token) :
    prefixes (a ++ b) = prefixes a ++ (prefixes b).map (a ++ ·) := by
  induction a with
  | nil => simp [prefixes]
  | cons t a ih => simp [prefixes, ih, Function.comp_def]

theorem mem_prefixes {p ts : List Token} : p ∈ prefixes ts ↔ p ≠ [] ∧ p <+: ts := by
  induction ts generalizing p with
  | nil =>
    constructor
    · intro h
      cases h
    · rintro ⟨hne, hp⟩
      exact absurd (List.prefix_nil.mp hp) hne
  | cons t ts ih =>
    simp only [prefixes, List.mem_cons, List.mem_map, ih]
    constructor
    · rintro (rfl | ⟨r, ⟨-, hr⟩, rfl⟩)
      · exact ⟨by simp, by simp⟩
      · exact ⟨by simp, by simpa using hr⟩
    · rintro ⟨hne, hp⟩
      cases p with
      | nil => exact absurd rfl hne
      | cons x r =>
        obtain ⟨rfl, hr⟩ := List.cons_prefix_cons.mp hp
        cases r with
        | nil => exact .inl rfl
        | cons y r => exact .inr ⟨y :: r, ⟨by simp, hr⟩, rfl⟩

theorem prefixes_length (ts : List Token) : (prefixes ts).length = ts.length := by
  induction ts with
  | nil => rfl
  | cons t ts ih => simp [prefixes, ih]

theorem prefixes_nodup (ts : List Token) : (prefixes ts).Nodup := by
  induction ts with
  | nil => exact List.nodup_nil
  | cons t ts ih =>
    refine List.nodup_cons.mpr ⟨?_, ih.map fun a b h => (List.cons.inj h).2⟩
    intro hm
    obtain ⟨r, hr, he⟩ := List.mem_map.mp hm
    exact (mem_prefixes.mp hr).1 (List.cons.inj he).2

/-! ## The token runs of a tree -/

mutual
/-- The token runs that end somewhere below a node. -/
def paths : RadixNode → List (List Token)
  | mk _ _ children _ _ => pathsBelow children
def pathsBelow : List (Σ _ : Token, RadixNode) → List (List Token)
  | [] => []
  | ⟨_, c⟩ :: rest => (prefixes c.tokens ++ (paths c).map (c.tokens ++ ·)) ++ pathsBelow rest
end

/-- The token runs of a child: those that end on its edge and those further down. -/
def branch (c : RadixNode) : List (List Token) := prefixes c.tokens ++ (paths c).map (c.tokens ++ ·)

theorem paths_eq (node : RadixNode) : paths node = node.children.flatMap fun e => branch e.2 := by
  have below (cs : List (Σ _ : Token, RadixNode)) :
      pathsBelow cs = cs.flatMap fun e => branch e.2 := by
    induction cs with
    | nil => rfl
    | cons e rest ih =>
      obtain ⟨k, c⟩ := e
      simp [pathsBelow, branch, ih]
  cases node with
  | mk tokens blocks children access hash => exact below children

theorem mem_branch {c : RadixNode} {p : List Token} :
    p ∈ branch c ↔ p ∈ prefixes c.tokens ∨ ∃ r ∈ paths c, p = c.tokens ++ r := by
  simp only [branch, List.mem_append, List.mem_map, eq_comm]

/-- A child keyed by the first token of its edge, with the hash of its tokens and
at least the blocks its tokens fill. -/
structure Labelled (key : Token) (c : RadixNode) : Prop where
  head : c.tokens.head? = some key
  room : c.tokens.length / BLOCK_SIZE ≤ c.blocks.length
  hash : c.tokenHash = hashTokens c.tokens

inductive Trie : RadixNode → Prop
  | mk {node : RadixNode} : node.children.NodupKeys →
      (∀ e ∈ node.children, Labelled e.1 e.2) → (∀ e ∈ node.children, Trie e.2) → Trie node

section Trie

variable {node c : RadixNode} {k : Token} {p : List Token}

theorem Trie.nodupKeys (h : Trie node) : node.children.NodupKeys := by
  cases h with
  | mk hn _ _ => exact hn

theorem Trie.labelled (h : Trie node) : ∀ e ∈ node.children, Labelled e.1 e.2 := by
  cases h with
  | mk _ hl _ => exact hl

theorem Trie.subtree (h : Trie node) : ∀ e ∈ node.children, Trie e.2 := by
  cases h with
  | mk _ _ hs => exact hs

theorem Trie.child (h : Trie node) (hc : node.child? k = some c) : Labelled k c ∧ Trie c :=
  have hm := List.of_mem_dlookup hc
  ⟨h.labelled _ hm, h.subtree _ hm⟩

theorem Trie.of_children_eq {node' : RadixNode} (h : Trie node)
    (hc : node'.children = node.children) : Trie node' :=
  .mk (hc ▸ h.nodupKeys) (by rw [hc]; exact h.labelled) (by rw [hc]; exact h.subtree)

theorem Trie.setChild (h : Trie node) (hk : Labelled k c) (hc : Trie c) :
    Trie (node.setChild k c) := by
  refine .mk (List.kinsert_nodupKeys k c h.nodupKeys) ?_ ?_
  · intro e he
    rcases mem_of_mem_kinsert he with rfl | he
    · exact hk
    · exact h.labelled e he
  · intro e he
    rcases mem_of_mem_kinsert he with rfl | he
    · exact hc
    · exact h.subtree e he

theorem trie_leaf (tokens : List Token) (blocks : List BlockId) (now : Nat) :
    Trie (RadixNode.new tokens blocks now) :=
  .mk List.nodupKeys_nil (fun _ he => nomatch he) (fun _ he => nomatch he)

/-- Every run of a branch starts with the key of the branch. -/
theorem Labelled.head_branch (hk : Labelled k c) (hp : p ∈ branch c) : p.head? = some k := by
  have hne : c.tokens ≠ [] := by
    intro hnil
    have := hk.head
    rw [hnil] at this
    cases this
  rcases mem_branch.mp hp with hp | ⟨r, -, rfl⟩
  · obtain ⟨hp0, t, ht⟩ := mem_prefixes.mp hp
    rw [← hk.head, ← ht, List.head?_append_of_ne_nil p hp0]
  · rw [List.head?_append_of_ne_nil _ hne]
    exact hk.head

/-- A stored run is found under its first token. -/
theorem Trie.mem_paths (h : Trie node) :
    p ∈ paths node ↔ ∃ k c, p.head? = some k ∧ node.child? k = some c ∧ p ∈ branch c := by
  rw [paths_eq, List.mem_flatMap]
  constructor
  · rintro ⟨⟨k, c⟩, he, hp⟩
    exact ⟨k, c, (h.labelled _ he).head_branch hp, List.mem_dlookup h.nodupKeys he, hp⟩
  · rintro ⟨k, c, -, hc, hp⟩
    exact ⟨⟨k, c⟩, List.of_mem_dlookup hc, hp⟩

theorem Trie.ne_nil (h : Trie node) (hp : p ∈ paths node) : p ≠ [] := by
  obtain ⟨k, c, hk, -⟩ := h.mem_paths.mp hp
  rintro rfl
  cases hk

theorem child?_setChild (node c : RadixNode) (k t : Token) :
    (node.setChild k c).child? t = if t = k then some c else node.child? t := by
  show (node.children.kinsert k c).dlookup t = _
  by_cases ht : t = k
  · subst ht
    rw [List.dlookup_kinsert, if_pos rfl]
  · rw [List.dlookup_kinsert_ne ht, if_neg ht]
    rfl

theorem mem_paths_setChild (h : Trie node) (hk : Labelled k c) (hc : Trie c) :
    p ∈ paths (node.setChild k c) ↔ p ∈ branch c ∨ (p.head? ≠ some k ∧ p ∈ paths node) := by
  rw [(h.setChild hk hc).mem_paths, h.mem_paths]
  simp only [child?_setChild]
  constructor
  · rintro ⟨t, d, ht, hd, hp⟩
    split at hd
    · cases hd
      exact .inl hp
    · refine .inr ⟨fun he => ?_, t, d, ht, hd, hp⟩
      rw [ht] at he
      cases he
      contradiction
  · rintro (hp | ⟨hne, t, d, ht, hd, hp⟩)
    · exact ⟨k, c, hk.head_branch hp, if_pos rfl, hp⟩
    · have htk : t ≠ k := fun he => hne (he ▸ ht)
      exact ⟨t, d, ht, by rw [if_neg htk]; exact hd, hp⟩

end Trie

/-- Each run is stored once. -/
theorem Trie.paths_nodup {node : RadixNode} (h : Trie node) : (paths node).Nodup := by
  induction h with
  | mk hn hl hs ih =>
    rw [paths_eq, List.nodup_flatMap]
    refine ⟨fun e he => ?_, ?_⟩
    · refine (prefixes_nodup _).append ((ih e he).map fun a b => List.append_cancel_left) ?_
      -- a run that goes on below the edge is longer than the edge
      intro p hp hp'
      obtain ⟨r, hr, rfl⟩ := List.mem_map.mp hp'
      have hle := (mem_prefixes.mp hp).2.length_le
      have hpos := List.length_pos_iff.mpr ((hs e he).ne_nil hr)
      rw [List.length_append] at hle
      omega
    · refine List.Pairwise.imp_of_mem ?_ (List.nodupKeys_iff_pairwise.mp hn)
      intro e f he hf hne p hp hp'
      have hke := (hl e he).head_branch hp
      rw [(hl f hf).head_branch hp'] at hke
      exact hne (Option.some.inj hke).symm

theorem cachedTokens_eq (node : RadixNode) :
    cachedTokens node = node.tokens.length + (node.children.map fun e => cachedTokens e.2).sum := by
  have below (cs : List (Σ _ : Token, RadixNode)) :
      cachedTokensBelow cs = (cs.map fun e => cachedTokens e.2).sum := by
    induction cs with
    | nil => rfl
    | cons e rest ih =>
      obtain ⟨k, c⟩ := e
      simp [cachedTokensBelow, ih]
  cases node with
  | mk tokens blocks children access hash =>
    rw [cachedTokens, below]
    rfl

/-- Counting the tokens of the edges counts the stored runs. -/
theorem Trie.cachedTokens_eq_length {node : RadixNode} (h : Trie node) :
    cachedTokens node = node.tokens.length + (paths node).length := by
  induction h with
  | mk hn hl hs ih =>
    rw [cachedTokens_eq, paths_eq, List.length_flatMap]
    congr 2
    refine List.map_congr_left fun e he => ?_
    rw [ih e he, branch, List.length_append, prefixes_length, List.length_map]

/-! ## Insertion -/

/-- The tree after an insertion: the stored runs and the prefixes of `tokens`. -/
structure Adds (node node' : RadixNode) (tokens : List Token) : Prop where
  same : SameEdge node node'
  trie : Trie node'
  paths : ∀ p, p ∈ paths node' ↔ p ∈ paths node ∨ p ∈ prefixes tokens

theorem SameEdge.labelled {c c' : RadixNode} {k : Token} (h : SameEdge c c') (hk : Labelled k c) :
    Labelled k c' := by
  obtain ⟨ht, hb, hh⟩ := h
  exact ⟨ht ▸ hk.head, by rw [ht, hb]; exact hk.room, by rw [ht, hh]; exact hk.hash⟩

section Insertion

variable {fuel now : Nat} {node child : RadixNode} {tokens : List Token} {blocks : List BlockId}
  {first : Token}

theorem adds_leaf (h : Trie node) (hb : tokens.length / BLOCK_SIZE ≤ blocks.length)
    (hf : tokens.head? = some first) (hc : node.child? first = none) :
    Adds node (node.setChild first (RadixNode.new tokens blocks now)) tokens := by
  have hk : Labelled first (RadixNode.new tokens blocks now) := ⟨hf, hb, rfl⟩
  have hbranch : branch (RadixNode.new tokens blocks now) = prefixes tokens := List.append_nil _
  refine ⟨⟨rfl, rfl, rfl⟩, h.setChild hk (trie_leaf _ _ _), fun p => ?_⟩
  rw [mem_paths_setChild h hk (trie_leaf _ _ _), hbranch]
  constructor
  · rintro (hp | ⟨-, hp⟩)
    · exact .inr hp
    · exact .inl hp
  · rintro (hp | hp)
    · refine .inr ⟨fun he => ?_, hp⟩
      obtain ⟨k, c, hk, hck, -⟩ := h.mem_paths.mp hp
      rw [he] at hk
      cases hk
      rw [hc] at hck
      cases hck
    · exact .inl hp

/-- Adding the rest of the tokens below a child that stores the same runs as the
one there adds all of them. -/
theorem Adds.setChild {top child' : RadixNode} {rest : List Token} (h : Trie node)
    (hc : node.child? first = some child) (hk : Labelled first top)
    (hbranch : branch top = branch child) (ha : Adds top child' rest) :
    Adds node (node.setChild first child') (top.tokens ++ rest) := by
  have hk' := SameEdge.labelled ha.same hk
  refine ⟨⟨rfl, rfl, rfl⟩, h.setChild hk' ha.trie, fun p => ?_⟩
  have hnew : p ∈ branch child' ↔ p ∈ branch child ∨ p ∈ prefixes (top.tokens ++ rest) := by
    rw [← hbranch, mem_branch, mem_branch, ha.same.1, prefixes_append, List.mem_append]
    simp only [ha.paths, List.mem_map]
    constructor
    · rintro (hp | ⟨r, hr | hr, rfl⟩)
      · exact .inl (.inl hp)
      · exact .inl (.inr ⟨r, hr, rfl⟩)
      · exact .inr (.inr ⟨r, hr, rfl⟩)
    · rintro ((hp | ⟨r, hr, rfl⟩) | (hp | ⟨r, hr, rfl⟩))
      · exact .inl hp
      · exact .inr ⟨r, .inl hr, rfl⟩
      · exact .inl hp
      · exact .inr ⟨r, .inr hr, rfl⟩
  rw [mem_paths_setChild h hk' ha.trie, hnew]
  constructor
  · rintro ((hp | hp) | ⟨-, hp⟩)
    · exact .inl (h.mem_paths.mpr ⟨first, child, (h.child hc).1.head_branch hp, hc, hp⟩)
    · exact .inr hp
    · exact .inl hp
  · rintro (hp | hp)
    · by_cases he : p.head? = some first
      · obtain ⟨k, c, hk, hck, hpc⟩ := h.mem_paths.mp hp
        rw [he] at hk
        cases hk
        rw [hc] at hck
        cases hck
        exact .inl (.inl hpc)
      · exact .inr ⟨he, hp⟩
    · exact .inl (.inr hp)

/-- Cutting an edge anywhere keeps the runs stored along and below it. -/
theorem cut_edge {c : RadixNode} {k first : Token} {n : Nat} (hk : Labelled k c) (hc : Trie c)
    (hpos : 0 < n) (hn : n < c.tokens.length) :
    let split := mk (c.tokens.drop n) (c.blocks.drop (n / BLOCK_SIZE)) c.children c.lastAccess
      (hashTokens (c.tokens.drop n))
    let top := mk (c.tokens.take n) (c.blocks.take (n / BLOCK_SIZE))
      [⟨split.tokens.headD first, split⟩] c.lastAccess (hashTokens (c.tokens.take n))
    top.tokens = c.tokens.take n ∧ Labelled k top ∧ Trie top ∧ branch top = branch c := by
  intro split top
  have hroom := hk.room
  have hsplit : Labelled (split.tokens.headD first) split := by
    refine ⟨?_, ?_, rfl⟩
    · show (c.tokens.drop n).head? = some ((c.tokens.drop n).headD first)
      cases hd : c.tokens.drop n with
      | nil =>
        have := congrArg List.length hd
        simp only [List.length_drop, List.length_nil] at this
        omega
      | cons x rest => rfl
    · show (c.tokens.drop n).length / BLOCK_SIZE ≤ (c.blocks.drop (n / BLOCK_SIZE)).length
      rw [List.length_drop, List.length_drop]
      simp only [BLOCK_SIZE] at hroom ⊢
      omega
  refine ⟨rfl, ⟨?_, ?_, rfl⟩, ?_, ?_⟩
  · show (c.tokens.take n).head? = some k
    rw [List.head?_take, if_neg (by omega)]
    exact hk.head
  · show (c.tokens.take n).length / BLOCK_SIZE ≤ (c.blocks.take (n / BLOCK_SIZE)).length
    rw [List.length_take, List.length_take]
    simp only [BLOCK_SIZE] at hroom ⊢
    omega
  · refine .mk (List.nodupKeys_singleton _) ?_ ?_
    · intro e he
      rw [List.mem_singleton.mp he]
      exact hsplit
    · intro e he
      rw [List.mem_singleton.mp he]
      exact hc.of_children_eq rfl
  · have htop : paths top = branch split := by
      rw [paths_eq]
      exact List.append_nil _
    have hbelow : paths split = paths c := by rw [paths_eq, paths_eq]; rfl
    show prefixes (c.tokens.take n) ++ (paths top).map (c.tokens.take n ++ ·) = branch c
    rw [htop]
    show _ ++ (prefixes (c.tokens.drop n) ++ (paths split).map (c.tokens.drop n ++ ·)).map
      (c.tokens.take n ++ ·) = branch c
    rw [hbelow, List.map_append, List.map_map, ← List.append_assoc, ← prefixes_append,
      List.take_append_drop]
    simp only [Function.comp_def, ← List.append_assoc, List.take_append_drop]
    rfl

end Insertion

/-- An insertion never slices out of range and adds exactly the prefixes of its
tokens. -/
theorem insertNode_adds (fuel : Nat) (node : RadixNode) (tokens : List Token)
    (blocks : List BlockId) (now : Nat) (h : Trie node) (hfuel : tokens.length < fuel)
    (hb : tokens.length / BLOCK_SIZE ≤ blocks.length) :
    ∃ node', insertNode fuel node tokens blocks now = .ok node' ∧ Adds node node' tokens := by
  induction fuel generalizing node tokens blocks with
  | zero => omega
  | succ fuel ih =>
    cases hf : tokens.head? with
    | none =>
      rw [List.head?_eq_none_iff] at hf
      subst hf
      refine ⟨node.touch now, rfl, ⟨rfl, rfl, rfl⟩, h.of_children_eq rfl, fun p => ?_⟩
      rw [paths_eq, paths_eq]
      simp [prefixes, RadixNode.touch, RadixNode.children]
    | some first =>
      cases hc : node.child? first with
      | none => exact ⟨_, insertNode_none hf hc, adds_leaf h hb hf hc⟩
      | some child =>
        obtain ⟨hk, hchild⟩ := h.child hc
        obtain ⟨cp, hcp⟩ : ∃ cp, commonPrefixLen tokens child.tokens = cp := ⟨_, rfl⟩
        have hpos : 0 < cp := hcp ▸ commonPrefixLen_pos hf hk.head
        have hle : cp ≤ tokens.length := hcp ▸ commonPrefixLen_le_left tokens child.tokens
        have hcr : cp ≤ child.tokens.length := hcp ▸ commonPrefixLen_le_right tokens child.tokens
        have htake : tokens.take cp = child.tokens.take cp :=
          hcp ▸ take_commonPrefixLen tokens child.tokens
        have hcb : cp / BLOCK_SIZE ≤ child.blocks.length :=
          (Nat.div_le_div_right hcr).trans hk.room
        have hbb : cp / BLOCK_SIZE ≤ blocks.length := (Nat.div_le_div_right hle).trans hb
        have hrest : (tokens.drop cp).length / BLOCK_SIZE ≤
            (blocks.drop (cp / BLOCK_SIZE)).length := by
          rw [List.length_drop, List.length_drop]
          simp only [BLOCK_SIZE] at hb ⊢
          omega
        have hless : (tokens.drop cp).length < fuel := by rw [List.length_drop]; omega
        by_cases hfull : cp = child.tokens.length
        · obtain ⟨child', hins, ha⟩ := ih child (tokens.drop cp) _ hchild hless hrest
          refine ⟨node.setChild first child', ?_, ?_⟩
          · rw [insertNode_full hf hc (hcp.trans hfull) (hfull ▸ hbb), ← hfull, hins]
            rfl
          · have := ha.setChild h hc hk rfl
            rwa [← List.take_append_drop cp tokens, htake, hfull, List.take_length, ← hfull]
        · obtain ⟨httok, htk, httrie, htbranch⟩ :=
            @cut_edge child first first cp hk hchild hpos (by omega)
          have hins := @insertNode_split fuel now _ _ _ blocks _ _ hf hc hcp hfull hcb hbb
          dsimp only at httok htk httrie htbranch hins
          generalize RadixNode.mk (child.tokens.take cp) (child.blocks.take (cp / BLOCK_SIZE)) _
            child.lastAccess (hashTokens (child.tokens.take cp)) = top at *
          obtain ⟨child', hins', ha⟩ := ih top (tokens.drop cp) _ httrie hless hrest
          refine ⟨node.setChild first child', by rw [hins, hins']; rfl, ?_⟩
          have := ha.setChild h hc htk htbranch
          rwa [httok, ← htake, List.take_append_drop] at this

/-! ## Lookup -/

/-- The node reached by following child keys. -/
def nodeAt : RadixNode → List Token → Option RadixNode
  | node, [] => some node
  | node, key :: keys => (node.child? key).bind (nodeAt · keys)

/-- All of a node but its access time and its children. -/
def content (node : RadixNode) : List Token × List BlockId × UInt64 :=
  (node.tokens, node.blocks, node.tokenHash)

/-- Two trees with the same nodes, access times apart. -/
def SameContent (node node' : RadixNode) : Prop :=
  ∀ keys, (nodeAt node' keys).map content = (nodeAt node keys).map content

theorem SameContent.rfl {node : RadixNode} : SameContent node node := fun _ => Eq.refl _

theorem sameContent_touch (node : RadixNode) (now : Nat) : SameContent node (node.touch now) := by
  intro keys
  cases keys <;> rfl

theorem SameContent.setChild {node c c' : RadixNode} {k : Token} (hc : node.child? k = some c)
    (h : SameContent c c') : SameContent node (node.setChild k c') := by
  intro keys
  cases keys with
  | nil => rfl
  | cons key keys =>
    simp only [nodeAt, child?_setChild]
    by_cases hk : key = k
    · subst hk
      rw [if_pos (Eq.refl _), hc]
      exact h keys
    · rw [if_neg hk]

/-- The tree after a lookup: the same nodes, storing the same runs. -/
structure Reread (node node' : RadixNode) : Prop where
  same : SameEdge node node'
  trie : Trie node'
  paths : ∀ p, p ∈ paths node' ↔ p ∈ paths node
  content : SameContent node node'

theorem Reread.rfl {node : RadixNode} (h : Trie node) : Reread node node :=
  ⟨⟨Eq.refl _, Eq.refl _, Eq.refl _⟩, h, fun _ => Iff.rfl, .rfl⟩

theorem reread_touch {node : RadixNode} (h : Trie node) (now : Nat) :
    Reread node (node.touch now) where
  same := ⟨Eq.refl _, Eq.refl _, Eq.refl _⟩
  trie := h.of_children_eq (Eq.refl _)
  paths p := by
    rw [paths_eq, paths_eq]
    exact Iff.rfl
  content := sameContent_touch node now

theorem Reread.setChild {node c c' : RadixNode} {k : Token} (h : Trie node)
    (hc : node.child? k = some c) (hr : Reread c c') : Reread node (node.setChild k c') := by
  obtain ⟨hk, hct⟩ := h.child hc
  have ha : Adds c c' [] := ⟨hr.same, hr.trie, fun p => by simp [hr.paths p, prefixes]⟩
  have hset := ha.setChild h hc hk (Eq.refl _)
  refine ⟨⟨Eq.refl _, Eq.refl _, Eq.refl _⟩, hset.trie, fun p => ?_, hr.content.setChild hc⟩
  rw [hset.paths, List.append_nil, or_iff_left_iff_imp]
  -- the edge itself was there before
  intro hp
  have hpb : p ∈ branch c := mem_branch.mpr (.inl hp)
  exact h.mem_paths.mpr ⟨k, c, hk.head_branch hpb, hc, hpb⟩

/-- A lookup walks as far as the tree matches and leaves its content alone. -/
theorem lookupNode_reread (fuel : Nat) (node : RadixNode) (tokens : List Token) (now : Nat)
    (h : Trie node) : ∃ node' out, lookupNode fuel node tokens now = .ok (node', out) ∧
      out.matched = matchLen fuel node tokens ∧ out.collision = false ∧ Reread node node' := by
  induction fuel generalizing node tokens with
  | zero => exact ⟨node, _, rfl, rfl, rfl, .rfl h⟩
  | succ fuel ih =>
    cases hf : tokens.head? with
    | none =>
      rw [List.head?_eq_none_iff] at hf
      subst hf
      exact ⟨node, _, rfl, (matchLen_nil _ _).symm, rfl, .rfl h⟩
    | some first =>
      cases hc : node.child? first with
      | none => exact ⟨node, _, lookupNode_none hf hc, (matchLen_none hf hc).symm, rfl, .rfl h⟩
      | some child =>
        obtain ⟨hk, hchild⟩ := h.child hc
        by_cases hcp : commonPrefixLen tokens child.tokens = child.tokens.length
        · have htouch := reread_touch hchild now
          obtain ⟨child', out, hl, hm, hcol, hr⟩ :=
            ih (child.touch now) (tokens.drop child.tokens.length) htouch.trie
          refine ⟨node.setChild first child',
            ⟨child.tokens.length + out.matched, child.blocks ++ out.blocks, out.collision⟩,
            by rw [lookupNode_full hf hc hcp hk.hash, hl]; rfl, ?_, hcol, ?_⟩
          · rw [matchLen_full hf hc hcp, hm, matchLen_touch]
          · refine Reread.setChild h hc ⟨?_, hr.trie, ?_, ?_⟩
            · exact hr.same
            · exact fun p => (hr.paths p).trans (htouch.paths p)
            · exact fun keys => (hr.content keys).trans (htouch.content keys)
        · have hb : commonPrefixLen tokens child.tokens / BLOCK_SIZE ≤ child.blocks.length :=
            (Nat.div_le_div_right (commonPrefixLen_le_right _ _)).trans hk.room
          exact ⟨_, _, lookupNode_inside hf hc hcp (commonPrefixLen_pos hf hk.head) hb,
            (matchLen_inside hf hc hcp).symm, rfl, .setChild h hc (reread_touch hchild now)⟩

/-- The part of the tokens a lookup matches is a stored run. -/
theorem take_matchLen_mem {fuel : Nat} {node : RadixNode} {tokens : List Token} (h : Trie node)
    (hpos : matchLen fuel node tokens ≠ 0) :
    tokens.take (matchLen fuel node tokens) ∈ paths node := by
  induction fuel generalizing node tokens with
  | zero => exact absurd rfl hpos
  | succ fuel ih =>
    cases hf : tokens.head? with
    | none =>
      rw [List.head?_eq_none_iff.mp hf] at hpos
      exact absurd (matchLen_nil _ _) hpos
    | some first =>
      cases hc : node.child? first with
      | none => exact absurd (matchLen_none hf hc) hpos
      | some child =>
        obtain ⟨hk, hchild⟩ := h.child hc
        have htake := take_commonPrefixLen tokens child.tokens
        suffices hb : tokens.take (matchLen (fuel + 1) node tokens) ∈ branch child from
          h.mem_paths.mpr ⟨first, child, hk.head_branch hb, hc, hb⟩
        by_cases hcp : commonPrefixLen tokens child.tokens = child.tokens.length
        · rw [hcp, List.take_length] at htake
          rw [matchLen_full hf hc hcp, List.take_add, htake, mem_branch]
          by_cases hz : matchLen fuel child (tokens.drop child.tokens.length) = 0
          · have hne : child.tokens ≠ [] := by
              intro hnil
              have := hk.head
              rw [hnil] at this
              cases this
            rw [hz, List.take_zero, List.append_nil]
            exact .inl (mem_prefixes.mpr ⟨hne, List.prefix_rfl⟩)
          · exact .inr ⟨_, ih hchild hz, rfl⟩
        · rw [matchLen_inside hf hc hcp, mem_branch, mem_prefixes]
          refine .inl ⟨?_, htake ▸ List.take_prefix _ _⟩
          have hcp0 := commonPrefixLen_pos hf hk.head
          have hlen := commonPrefixLen_le_left tokens child.tokens
          apply List.ne_nil_of_length_pos
          rw [List.length_take]
          omega

/-- A lookup goes as far as any stored run goes along with its tokens. -/
theorem le_matchLen {fuel : Nat} {node : RadixNode} {tokens p : List Token} (h : Trie node)
    (hfuel : tokens.length < fuel) (hp : p ∈ paths node) (hpre : p <+: tokens) :
    p.length ≤ matchLen fuel node tokens := by
  induction fuel generalizing node tokens p with
  | zero => omega
  | succ fuel ih =>
    obtain ⟨first, child, hfp, hc, hb⟩ := h.mem_paths.mp hp
    obtain ⟨hk, hchild⟩ := h.child hc
    have hf : tokens.head? = some first := by
      obtain ⟨t, rfl⟩ := hpre
      rw [List.head?_append, hfp]
      rfl
    have hcp0 := commonPrefixLen_pos hf hk.head
    rcases mem_branch.mp hb with hb | ⟨r, hr, rfl⟩
    · have hle := length_le_commonPrefixLen hpre (mem_prefixes.mp hb).2
      by_cases hcp : commonPrefixLen tokens child.tokens = child.tokens.length
      · rw [matchLen_full hf hc hcp]
        omega
      · rwa [matchLen_inside hf hc hcp]
    · have hcp : commonPrefixLen tokens child.tokens = child.tokens.length := by
        refine Nat.le_antisymm (commonPrefixLen_le_right _ _) ?_
        exact length_le_commonPrefixLen ((List.prefix_append _ _).trans hpre) List.prefix_rfl
      obtain ⟨t, rfl⟩ := hpre
      have hrest : r <+: ((child.tokens ++ r) ++ t).drop child.tokens.length := by
        rw [List.append_assoc, List.drop_left]
        exact List.prefix_append _ _
      have hlen := hcp ▸ commonPrefixLen_le_left ((child.tokens ++ r) ++ t) child.tokens
      have := ih hchild (by rw [List.length_drop]; omega) hr hrest
      rw [matchLen_full hf hc hcp, List.length_append]
      omega

/-! ## Runs -/

inductive Op where
  | insert (tokens : List Token) (blocks : List BlockId)
  | lookup (tokens : List Token)

def exec (c : RadixPrefixCache) : Op → Except Panic RadixPrefixCache
  | .insert tokens blocks => c.insert tokens blocks
  | .lookup tokens => (c.lookup tokens).map Prod.snd

/-- `tokens.len() == blocks.len() * BLOCK_SIZE` -/
def Op.WholeBlocks : Op → Prop
  | .insert tokens blocks => tokens.length = blocks.length * BLOCK_SIZE
  | .lookup _ => True

/-- The token runs inserted by a list of operations. -/
def inserted : List Op → List (List Token)
  | [] => []
  | .insert tokens _ :: ops => tokens :: inserted ops
  | .lookup _ :: ops => inserted ops

/-- The longest common prefix of `q` with one of the runs. -/
def longestMatch (runs : List (List Token)) (q : List Token) : Nat :=
  (runs.map (commonPrefixLen q)).foldr max 0

/-- The non-empty prefixes of the runs, each once. -/
def distinctPrefixes (runs : List (List Token)) : List (List Token) :=
  (runs.flatMap prefixes).dedup

/-- A cache whose tree is the trie of `runs`. -/
structure Stores (c : RadixPrefixCache) (runs : List (List Token)) : Prop where
  trie : Trie c.root
  root : c.root.tokens = []
  paths : ∀ p, p ∈ paths c.root ↔ ∃ ts ∈ runs, p ∈ prefixes ts

theorem stores_new : Stores .new [] where
  trie := trie_leaf _ _ _
  root := rfl
  paths p := by simp [RadixPrefixCache.new, paths_eq, RadixNode.new, RadixNode.children]

theorem Stores.insert {c : RadixPrefixCache} {runs : List (List Token)} {tokens : List Token}
    {blocks : List BlockId} (h : Stores c runs) (hlen : tokens.length = blocks.length * BLOCK_SIZE) :
    ∃ c', c.insert tokens blocks = .ok c' ∧ Stores c' (tokens :: runs) := by
  have hb : tokens.length / BLOCK_SIZE ≤ blocks.length := by
    rw [hlen, Nat.mul_div_cancel _ blockSize_pos]
  obtain ⟨root, hroot, ha⟩ := insertNode_adds (tokens.length + 1) c.root tokens blocks c.tick
    h.trie (Nat.lt_succ_self _) hb
  refine ⟨{ c with root := root, clock := c.tick }, ?_, ha.trie, ha.same.1.trans h.root, ?_⟩
  · rw [RadixPrefixCache.insert, if_pos hlen, hroot]
  · intro p
    rw [ha.paths, h.paths]
    simp [or_comm]

theorem le_longestMatch {runs : List (List Token)} {ts : List Token} (q : List Token)
    (hts : ts ∈ runs) : commonPrefixLen q ts ≤ longestMatch runs q := by
  induction runs with
  | nil => cases hts
  | cons r runs ih =>
    rcases List.mem_cons.mp hts with rfl | hts
    · exact Nat.le_max_left _ _
    · exact (ih hts).trans (Nat.le_max_right _ _)

theorem longestMatch_le {runs : List (List Token)} {q : List Token} {n : Nat}
    (h : ∀ ts ∈ runs, commonPrefixLen q ts ≤ n) : longestMatch runs q ≤ n := by
  induction runs with
  | nil => exact Nat.zero_le _
  | cons r runs ih =>
    exact Nat.max_le.mpr ⟨h r List.mem_cons_self, ih fun ts hts => h ts (List.mem_cons_of_mem _ hts)⟩

theorem Stores.matchLen_eq {c : RadixPrefixCache} {runs : List (List Token)} (h : Stores c runs)
    (q : List Token) : matchLen (q.length + 1) c.root q = longestMatch runs q := by
  apply Nat.le_antisymm
  · by_cases hz : matchLen (q.length + 1) c.root q = 0
    · rw [hz]
      exact Nat.zero_le _
    · obtain ⟨ts, hts, hp⟩ := (h.paths _).mp (take_matchLen_mem h.trie hz)
      refine Nat.le_trans ?_ (le_longestMatch q hts)
      have hle := length_le_commonPrefixLen ( List.take_prefix _ q) (mem_prefixes.mp hp).2
      rwa [List.length_take, Nat.min_eq_left (matchLen_le _ _ _)] at hle
  · refine longestMatch_le fun ts hts => ?_
    by_cases hz : commonPrefixLen q ts = 0
    · rw [hz]
      exact Nat.zero_le _
    · have hlen : (q.take (commonPrefixLen q ts)).length = commonPrefixLen q ts := by
        rw [List.length_take, Nat.min_eq_left (commonPrefixLen_le_left q ts)]
      have hp : q.take (commonPrefixLen q ts) ∈ RadixTrie.paths c.root := by
        refine (h.paths _).mpr ⟨ts, hts, mem_prefixes.mpr ⟨?_, ?_⟩⟩
        · exact List.ne_nil_of_length_pos (by omega)
        · rw [take_commonPrefixLen]
          exact List.take_prefix _ ts
      have hle := le_matchLen h.trie (Nat.lt_add_one _) hp ( List.take_prefix _ q)
      rwa [hlen] at hle

/-- What a lookup answers: the length of the longest match, and nothing when no
token matches. -/
theorem Stores.lookup {c : RadixPrefixCache} {runs : List (List Token)} (h : Stores c runs)
    (q : List Token) : ∃ r c', c.lookup q = .ok (r, c') ∧
      r.map Prod.fst = (if longestMatch runs q = 0 then none else some (longestMatch runs q)) ∧
      SameContent c.root c'.root ∧ Stores c' runs := by
  obtain ⟨root, out, hl, hm, hcol, hr⟩ :=
    lookupNode_reread (q.length + 1) c.root q c.tick h.trie
  rw [h.matchLen_eq] at hm
  have hstores (c' : RadixPrefixCache) (hroot : c'.root = root) : Stores c' runs := by
    refine ⟨hroot ▸ hr.trie, ?_, fun p => ?_⟩
    · rw [hroot, hr.same.1, h.root]
    · rw [hroot, hr.paths, h.paths]
  simp only [RadixPrefixCache.lookup, hl, hcol, Bool.false_eq_true, if_false]
  by_cases hz : longestMatch runs q = 0
  · rw [if_neg (by omega), if_pos hz]
    exact ⟨none, _, rfl, rfl, hr.content, hstores _ rfl⟩
  · rw [if_pos (by omega), if_neg hz, hm]
    exact ⟨some _, _, rfl, rfl, hr.content, hstores _ rfl⟩

theorem Stores.paths_perm {c : RadixPrefixCache} {runs : List (List Token)} (h : Stores c runs) :
    (RadixTrie.paths c.root).Perm (distinctPrefixes runs) := by
  refine (List.perm_ext_iff_of_nodup h.trie.paths_nodup (List.nodup_dedup _)).mpr fun p => ?_
  rw [h.paths, List.mem_dedup, List.mem_flatMap]

theorem Stores.of_mem_iff {c : RadixPrefixCache} {runs runs' : List (List Token)}
    (h : Stores c runs) (hmem : ∀ ts, ts ∈ runs' ↔ ts ∈ runs) : Stores c runs' :=
  ⟨h.trie, h.root, fun p => by simp only [h.paths, hmem]⟩

/-- Every operation succeeds, and the tree goes on storing what was inserted. -/
theorem Stores.run {c : RadixPrefixCache} {runs : List (List Token)} {ops : List Op}
    (h : Stores c runs) (hops : ∀ op ∈ ops, op.WholeBlocks) :
    ∃ c', ops.foldlM exec c = .ok c' ∧ Stores c' (runs ++ inserted ops) := by
  induction ops generalizing c runs with
  | nil => exact ⟨c, rfl, by simpa [inserted] using h⟩
  | cons op ops ih =>
    have hrest : ∀ op ∈ ops, op.WholeBlocks := fun o ho => hops o (List.mem_cons_of_mem _ ho)
    cases op with
    | insert tokens blocks =>
      obtain ⟨c₁, hc₁, h₁⟩ := h.insert (hops _ List.mem_cons_self)
      obtain ⟨c', hrun, h'⟩ := ih h₁ hrest
      refine ⟨c', ?_, h'.of_mem_iff fun ts => ?_⟩
      · rw [List.foldlM_cons, exec, hc₁]
        exact hrun
      · exact List.perm_middle.mem_iff
    | lookup q =>
      obtain ⟨r, c₁, hc₁, -, -, h₁⟩ := h.lookup q
      obtain ⟨c', hrun, h'⟩ := ih h₁ hrest
      refine ⟨c', ?_, h'⟩
      rw [List.foldlM_cons, exec, hc₁]
      exact hrun

/-- **The tree is the trie of what was inserted.** Whatever insertions of whole
blocks and lookups a cache has seen, none of them panicked; a lookup reports the
longest common prefix with an inserted run, nothing if that is empty, and leaves
every node's tokens and blocks as they are; the non-empty prefixes of the
inserted runs are stored once each, and `cachedTokens` counts them. -/
theorem tree_is_trie_of_inserted (ops : List Op) (hops : ∀ op ∈ ops, op.WholeBlocks) :
    ∃ c, ops.foldlM exec .new = .ok c ∧
      (∀ q, ∃ r c', c.lookup q = .ok (r, c') ∧ r.map Prod.fst =
        (if longestMatch (inserted ops) q = 0 then none else some (longestMatch (inserted ops) q)) ∧
        SameContent c.root c'.root) ∧
      (paths c.root).Perm (distinctPrefixes (inserted ops)) ∧
      c.cachedTokens = (distinctPrefixes (inserted ops)).length := by
  obtain ⟨c, hrun, h⟩ := stores_new.run hops
  refine ⟨c, hrun, fun q => ?_, h.paths_perm, ?_⟩
  · obtain ⟨r, c', hl, hr, hsame, -⟩ := h.lookup q
    exact ⟨r, c', hl, hr, hsame⟩
  · rw [RadixPrefixCache.cachedTokens, h.trie.cachedTokens_eq_length, h.root,
      h.paths_perm.length_eq]
    exact Nat.zero_add _

/-- A prompt, one that leaves it in the middle of a block, and a lookup between. -/
theorem tree_is_trie_of_inserted_mid_block :
    let ops : List Op := [.insert (List.range 32 |>.map UInt32.ofNat) [10, 11],
      .lookup (List.range 20 |>.map UInt32.ofNat),
      .insert ((List.range 24 ++ List.range 8).map UInt32.ofNat) [20, 21]]
    (∀ op ∈ ops, op.WholeBlocks) ∧ ∃ c, ops.foldlM exec .new = .ok c ∧
      (∀ q, ∃ r c', c.lookup q = .ok (r, c') ∧ r.map Prod.fst =
        (if longestMatch (inserted ops) q = 0 then none else some (longestMatch (inserted ops) q)) ∧
        SameContent c.root c'.root) ∧
      (paths c.root).Perm (distinctPrefixes (inserted ops)) ∧
      c.cachedTokens = (distinctPrefixes (inserted ops)).length := by
  intro ops
  have hops : ∀ op ∈ ops, op.WholeBlocks := by
    simp [ops, Op.WholeBlocks, BLOCK_SIZE]
  exact ⟨hops, tree_is_trie_of_inserted ops hops⟩

end JustApi.Inference.RadixTrie
