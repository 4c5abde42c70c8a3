import JustApi.Inference.EvictionConserves

/-! # The order in which `evict` takes leaves

`find_lru_leaf` prefers a leaf child to anything deeper and compares the other
children by their own access time, so the loop goes through the tree in a fixed
order: at every node the leaf children by access time, then the others by access
time, each after all that is below it. The leaves taken are the oldest at their time,
and come oldest first, exactly when this order is one of non-decreasing access. -/
namespace JustApi.Inference.EvictionOrder
open JustApi.Lib.Run JustApi.Inference.KvCache JustApi.Inference.RadixCache
open JustApi.Inference.RadixWalks JustApi.Inference.RadixRemoval JustApi.Inference.RadixRuns
open JustApi.Inference.EvictionConserves
open JustApi.Inference.RadixCorrect (Op ramp)
open JustApi.Inference.RadixTrie (Trie)
open RadixNode

/-! ## The turns of the loop -/

/-- A turn of the loop: the tree it begins with, and what it finds there. -/
structure Turn where
  tree : RadixNode
  found : Option (List Token × List BlockId)

/-- The leaf the turn takes. -/
def Turn.leaf (t : Turn) : Option RadixNode := t.found.bind fun found => nodeAt t.tree found.1

/-- The turns of `evictLoop`. -/
def evictTurns (k : Nat) : Nat → RadixNode → List BlockId → List Turn
  | 0, _, _ => []
  | fuel + 1, root, freed =>
    if freed.length < k then
      match findLruLeaf root with
      | some (path, blocks) =>
        ⟨root, some (path, blocks)⟩ ::
          evictTurns k fuel (removePath root path).1 (freed ++ blocks)
      | none => [⟨root, none⟩]
    else []

/-- The turns of `evict`. -/
def turns (c : RadixPrefixCache) (ord : HashOrder) (k : Nat) : List Turn :=
  evictTurns k (countNodes (ord.apply c.root) + 1) (ord.apply c.root) []

/-- The leaves taken, in order. -/
def taken (ts : List Turn) : List RadixNode := ts.filterMap Turn.leaf

/-- While there are nodes, the turn takes a leaf, and none was accessed before it. -/
def TakesOldest (t : Turn) : Prop :=
  t.tree.children ≠ [] → ∃ leaf, t.leaf = some leaf ∧ leaf.isLeaf = true ∧
    ∀ l ∈ collectLeaves t.tree [], leaf.lastAccess ≤ l.access

/-- Every turn of `evict` takes the leaf accessed longest ago, and the blocks come
from leaves in non-decreasing order of last use. -/
structure EvictsOldest (c : RadixPrefixCache) (ord : HashOrder) (k : Nat) : Prop where
  oldest : ∀ t ∈ turns c ord k, TakesOldest t
  blocks : (c.evict ord k).1 = (taken (turns c ord k)).flatMap RadixNode.blocks
  inOrder : ((taken (turns c ord k)).map lastAccess).Pairwise (· ≤ ·)

/-! ## The order of a tree -/

/-- Leaves go before other nodes, and older ones first. -/
def Before (a b : Bool × Nat) : Prop := if a.1 = b.1 then a.2 ≤ b.2 else a.1 = true

instance : DecidableRel Before := fun a b =>
  inferInstanceAs (Decidable (if a.1 = b.1 then a.2 ≤ b.2 else a.1 = true))

/-- Whether a node is a leaf, and when it was accessed. -/
def rank (node : RadixNode) : Bool × Nat := (node.isLeaf, node.lastAccess)

/-- The children as `evict` goes through them; of two alike the one listed first. -/
def evictionOrder (cs : List (Σ _ : Token, RadixNode)) : List (Σ _ : Token, RadixNode) :=
  cs.insertionSort fun a b => Before (rank a.2) (rank b.2)

mutual
/-- The access times of the nodes below a node. -/
def accessesBelow : RadixNode → List Nat
  | mk _ _ children _ _ => accessesOf children
def accessesOf : List (Σ _ : Token, RadixNode) → List Nat
  | [] => []
  | ⟨_, child⟩ :: rest => child.lastAccess :: accessesBelow child ++ accessesOf rest
end

/-- Nothing was accessed later than a node above it, and where `evict` goes through
`a` before its sibling `b`, nothing below `b` was accessed earlier than `a`. -/
inductive Graded : RadixNode → Prop
  | mk {node : RadixNode} : (∀ e ∈ node.children, Graded e.2) →
      (∀ e ∈ node.children, ∀ t ∈ accessesBelow e.2, t ≤ e.2.lastAccess) →
      (evictionOrder node.children).Pairwise
        (fun a b => ∀ t ∈ accessesBelow b.2, a.2.lastAccess ≤ t) → Graded node

mutual
/-- The access times of the nodes below a node in the order they are taken. -/
def drain : RadixNode → List Nat
  | mk _ _ children _ _ =>
    ((branches children).insertionSort fun a b => Before a.1 b.1).flatMap
      fun branch => branch.2 ++ [branch.1.2]
def branches : List (Σ _ : Token, RadixNode) → List ((Bool × Nat) × List Nat)
  | [] => []
  | ⟨_, child⟩ :: rest => (rank child, drain child) :: branches rest
end

theorem branches_eq (cs : List (Σ _ : Token, RadixNode)) :
    branches cs = cs.map fun e => (rank e.2, drain e.2) := by
  induction cs with
  | nil => rfl
  | cons e rest ih =>
    obtain ⟨k, c⟩ := e
    rw [branches, ih, List.map_cons]

theorem drain_eq (node : RadixNode) : drain node =
    (evictionOrder node.children).flatMap fun e => drain e.2 ++ [e.2.lastAccess] := by
  have hsort (cs : List (Σ _ : Token, RadixNode)) :
      (branches cs).insertionSort (fun a b => Before a.1 b.1) =
        (evictionOrder cs).map fun e => (rank e.2, drain e.2) := by
    rw [branches_eq, evictionOrder]
    exact (List.map_insertionSort (fun a b : Σ _ : Token, RadixNode => Before (rank a.2) (rank b.2))
      (fun a b : (Bool × Nat) × List Nat => Before a.1 b.1) (fun e => (rank e.2, drain e.2)) cs
      fun _ _ _ _ => Iff.rfl).symm
  cases node with
  | mk tokens blocks children access hash =>
    rw [drain, hsort, List.flatMap_map]
    rfl

theorem accessesBelow_eq (node : RadixNode) : accessesBelow node =
    node.children.flatMap fun e => e.2.lastAccess :: accessesBelow e.2 := by
  have below (cs : List (Σ _ : Token, RadixNode)) :
      accessesOf cs = cs.flatMap fun e => e.2.lastAccess :: accessesBelow e.2 := by
    induction cs with
    | nil => rfl
    | cons e rest ih =>
      obtain ⟨k, c⟩ := e
      rw [accessesOf, ih, List.flatMap_cons]
  cases node with
  | mk tokens blocks children access hash => exact below children

variable {node : RadixNode} {cs : List (Σ _ : Token, RadixNode)} {e : Σ _ : Token, RadixNode}
  {t : Nat}

theorem mem_evictionOrder : e ∈ evictionOrder cs ↔ e ∈ cs := List.mem_insertionSort _

theorem mem_accessesBelow : t ∈ accessesBelow node ↔
    ∃ e ∈ node.children, t = e.2.lastAccess ∨ t ∈ accessesBelow e.2 := by
  simp only [accessesBelow_eq node, List.mem_flatMap, List.mem_cons]

/-- The order goes through every node below. -/
theorem mem_drain (h : Keyed node) : t ∈ drain node ↔ t ∈ accessesBelow node := by
  induction h with
  | @mk node hn hs ih =>
    rw [mem_accessesBelow, drain_eq, List.mem_flatMap]
    constructor
    · intro ⟨e, he, ht⟩
      have he := mem_evictionOrder.mp he
      rw [List.mem_append, List.mem_singleton, ih e he] at ht
      exact ⟨e, he, ht.symm⟩
    · intro ⟨e, he, ht⟩
      refine ⟨e, mem_evictionOrder.mpr he, ?_⟩
      rw [List.mem_append, List.mem_singleton, ih e he]
      exact ht.symm

theorem access_mem_below (h : Keyed node) {path : List Token} {l : Leaf}
    (hl : l ∈ collectLeaves node path) : l.access ∈ accessesBelow node := by
  induction h generalizing path with
  | @mk node hn hs ih =>
    rw [collectLeaves_eq] at hl
    obtain ⟨e, he, hl⟩ := List.mem_flatMap.mp hl
    refine mem_accessesBelow.mpr ⟨e, he, ?_⟩
    split at hl
    · rw [List.mem_singleton.mp hl]
      exact .inl rfl
    · exact .inr (ih e he hl)

theorem before_total (a b : Bool × Nat) : Before a b ∨ Before b a := by
  obtain ⟨la, ta⟩ := a
  obtain ⟨lb, tb⟩ := b
  cases la <;> cases lb <;> simp [Before] <;> omega

theorem Before.trans {a b c : Bool × Nat} (hab : Before a b) (hbc : Before b c) : Before a c := by
  obtain ⟨la, ta⟩ := a
  obtain ⟨lb, tb⟩ := b
  obtain ⟨lc, tc⟩ := c
  cases la <;> cases lb <;> cases lc <;> simp_all [Before] <;> omega

theorem evictionOrder_sorted (cs : List (Σ _ : Token, RadixNode)) :
    (evictionOrder cs).Pairwise fun a b => Before (rank a.2) (rank b.2) := by
  have htotal : Std.Total fun a b : Σ _ : Token, RadixNode => Before (rank a.2) (rank b.2) :=
    ⟨fun a b => before_total _ _⟩
  have htrans : IsTrans (Σ _ : Token, RadixNode) fun a b => Before (rank a.2) (rank b.2) :=
    ⟨fun a b c => Before.trans⟩
  exact List.pairwise_insertionSort _ cs

/-- A node with children has a time below it. -/
theorem exists_access_below (hl : node.isLeaf = false) : ∃ t, t ∈ accessesBelow node := by
  cases hc : node.children with
  | nil =>
    rw [isLeaf, hc] at hl
    cases hl
  | cons e rest =>
    exact ⟨e.2.lastAccess, mem_accessesBelow.mpr ⟨e, by rw [hc]; exact List.mem_cons_self, .inl rfl⟩⟩

/-- Of two siblings the first is taken before the second and all below it. -/
theorem le_of_before {a b : RadixNode} (hab : Before (rank a) (rank b))
    (hup : ∀ t ∈ accessesBelow b, t ≤ b.lastAccess)
    (hapart : ∀ t ∈ accessesBelow b, a.lastAccess ≤ t) : a.lastAccess ≤ b.lastAccess := by
  by_cases hb : b.isLeaf = true
  · simp only [Before, rank, hb] at hab
    split at hab
    · exact hab
    · contradiction
  · obtain ⟨t, ht⟩ := exists_access_below (by simpa using hb)
    exact (hapart t ht).trans (hup t ht)

/-- The order of a tree is one of non-decreasing access exactly when it is graded. -/
theorem graded_iff (h : Keyed node) : Graded node ↔ (drain node).Pairwise (· ≤ ·) := by
  induction h with
  | @mk node hn hs ih =>
    have hone (e : Σ _ : Token, RadixNode) (he : e ∈ node.children) :
        (drain e.2 ++ [e.2.lastAccess]).Pairwise (· ≤ ·) ↔
          Graded e.2 ∧ ∀ t ∈ accessesBelow e.2, t ≤ e.2.lastAccess := by
      rw [List.pairwise_append, ih e he]
      simp only [List.pairwise_singleton, List.mem_singleton, forall_eq, true_and,
        mem_drain (hs e he)]
    rw [drain_eq, List.pairwise_flatMap]
    constructor
    · intro hg
      cases hg with
      | mk hsub hup hapart =>
        refine ⟨fun e he => ?_, ?_⟩
        · have he := mem_evictionOrder.mp he
          exact (hone e he).mpr ⟨hsub e he, hup e he⟩
        · refine ((evictionOrder_sorted _).and hapart).imp_of_mem ?_
          intro a b ha hb ⟨hbefore, hab⟩ x hx y hy
          have ha := mem_evictionOrder.mp ha
          have hb := mem_evictionOrder.mp hb
          have hxa : x ≤ a.2.lastAccess := by
            rcases List.mem_append.mp hx with hx | hx
            · exact hup a ha x ((mem_drain (hs a ha)).mp hx)
            · exact (List.mem_singleton.mp hx).le
          have hay : a.2.lastAccess ≤ y := by
            rcases List.mem_append.mp hy with hy | hy
            · exact hab y ((mem_drain (hs b hb)).mp hy)
            · rw [List.mem_singleton.mp hy]
              exact le_of_before hbefore (hup b hb) hab
          exact hxa.trans hay
    · intro ⟨hall, hcross⟩
      refine .mk (fun e he => ?_) (fun e he => ?_) ?_
      · exact ((hone e he).mp (hall e (mem_evictionOrder.mpr he))).1
      · exact ((hone e he).mp (hall e (mem_evictionOrder.mpr he))).2
      · refine hcross.imp_of_mem ?_
        intro a b _ hb hab t ht
        have hb := mem_evictionOrder.mp hb
        exact hab _ (List.mem_append_right _ (List.mem_singleton.mpr rfl)) t
          (List.mem_append_left _ ((mem_drain (hs b hb)).mpr ht))

/-! ## The loop goes through the order -/

/-- Sorting takes the first least element to the front. -/
theorem insertionSort_first {α : Type*} {r : α → α → Prop} [DecidableRel r] {before after : List α}
    {a : α} (hbefore : ∀ x ∈ before, ¬ r x a) (hafter : ∀ x ∈ after, r a x) :
    (before ++ a :: after).insertionSort r = a :: (before ++ after).insertionSort r := by
  induction before with
  | nil => exact List.insertionSort_cons_of_forall_rel r hafter
  | cons x before ih =>
    have hx := hbefore x List.mem_cons_self
    rw [List.cons_append, List.insertionSort_cons,
      ih fun y hy => hbefore y (List.mem_cons_of_mem _ hy), List.orderedInsert_of_not_le _ _ hx]
    rfl

theorem kerase_middle {before after : List (Σ _ : Token, RadixNode)} {key : Token} {c : RadixNode}
    (hn : (before ++ ⟨key, c⟩ :: after).NodupKeys) :
    (before ++ ⟨key, c⟩ :: after).kerase key = before ++ after := by
  have hnot : key ∉ before.keys := by
    intro hmem
    rw [List.NodupKeys, List.keys, List.map_append, List.nodup_append] at hn
    exact hn.2.2 _ hmem key (by simp) rfl
  have hhead : List.kerase key (⟨key, c⟩ :: after) = after :=
    List.kerase_cons_eq (s := (⟨key, c⟩ : Σ _ : Token, RadixNode)) rfl
  rw [List.kerase_append_right hnot, hhead]

/-- The child the search goes to is the first of the order when the others it
considers are alike and those it passes over come after leaves. -/
theorem evictionOrder_first {p : RadixNode → Prop} {key : Token} {c : RadixNode}
    (hn : cs.NodupKeys) (hfirst : FirstOldest p cs ⟨key, c⟩)
    (halike : ∀ x ∈ cs, p x.2 → x.2.isLeaf = c.isLeaf)
    (hother : ∀ x ∈ cs, ¬ p x.2 → c.isLeaf = true ∧ x.2.isLeaf = false) :
    evictionOrder cs = ⟨key, c⟩ :: evictionOrder (cs.kerase key) := by
  obtain ⟨before, after, rfl, -, hbefore, hafter⟩ := hfirst
  rw [kerase_middle hn]
  refine insertionSort_first (fun x hx => ?_) fun x hx => ?_
  · have hmem : x ∈ before ++ ⟨key, c⟩ :: after := List.mem_append_left _ hx
    by_cases hp : p x.2
    · have hlt := hbefore x hx hp
      simp only [Before, rank, halike x hmem hp, if_true]
      exact Nat.not_le.mpr hlt
    · obtain ⟨hc, hl⟩ := hother x hmem hp
      simp [Before, rank, hc, hl]
  · have hmem : x ∈ before ++ ⟨key, c⟩ :: after :=
      List.mem_append_right _ (List.mem_cons_of_mem _ hx)
    by_cases hp : p x.2
    · have hle := hafter x hx hp
      simp only [Before, rank, halike x hmem hp, if_true]
      exact hle
    · obtain ⟨hc, hl⟩ := hother x hmem hp
      simp [Before, rank, hc, hl]

theorem drain_leaf (hl : node.isLeaf = true) : drain node = [] := by
  rw [drain_eq, List.isEmpty_iff.mp hl]
  rfl

/-- A turn takes the first node of the order. -/
theorem drain_step {path : List Token} {blocks : List BlockId} (h : Keyed node)
    (hb : BeforeLastReading node) (hf : findLruLeaf node = some (path, blocks)) :
    ∃ leaf, nodeAt node path = some leaf ∧ leaf.isLeaf = true ∧ leaf.blocks = blocks ∧
      drain node = leaf.lastAccess :: drain (removePath node path).1 := by
  induction h generalizing path with
  | @mk node hn hs ih =>
    rcases findLruLeaf_some (.mk hn hs) hf with
      ⟨key, leaf, hfirst, rfl, rfl⟩ | ⟨hinner, key, child, rest, hfirst, -, hc, rfl⟩
    · -- a leaf child
      have hkey : node.child? key = some leaf := List.mem_dlookup hn hfirst.mem
      have hl : leaf.isLeaf = true := by
        obtain ⟨-, -, -, hl, -⟩ := hfirst
        exact hl
      have horder : evictionOrder node.children =
          ⟨key, leaf⟩ :: evictionOrder (node.children.kerase key) := by
        refine evictionOrder_first hn hfirst (fun x _ hx => hx.trans hl.symm) fun x _ hx => ?_
        exact ⟨hl, by simpa using hx⟩
      refine ⟨leaf, nodeAt_cons hkey [], hl, rfl, ?_⟩
      rw [removePath_single hkey, drain_eq, horder, List.flatMap_cons, drain_leaf hl,
        drain_eq (node.withChildren _)]
      rfl
    · -- no child is a leaf, and in each there is something to find
      have hkey : node.child? key = some child := List.mem_dlookup hn hfirst.mem
      have hfound : ∀ x ∈ node.children, (findLruLeaf x.2).isSome := by
        intro x hx
        by_contra hnone
        have hnil := children_of_findLruLeaf_none (hs x hx) (hb.child (List.mem_dlookup hn hx))
          (by simpa using hnone)
        have := hinner x hx
        rw [isLeaf, hnil] at this
        cases this
      have horder : evictionOrder node.children =
          ⟨key, child⟩ :: evictionOrder (node.children.kerase key) := by
        refine evictionOrder_first hn hfirst (fun x hx _ => ?_) fun x hx hx' =>
          absurd (hfound x hx) hx'
        rw [hinner x hx, hinner _ hfirst.mem]
      obtain ⟨leaf, hat, hl, hblocks, hdrain⟩ := ih _ hfirst.mem (hb.child hkey) hc
      have hrest : rest ≠ [] := (isLeafOf_findLruLeaf (hs _ hfirst.mem) hc).1
      obtain ⟨-, ha⟩ := removePath_same rest child
      -- the child stays in front, as it is or as a leaf
      have hfront : ∀ x ∈ node.children.kerase key,
          Before (rank (removePath child rest).1) (rank x.2) := by
        intro x hx
        have hmem := (List.kerase_sublist key node.children).subset hx
        have hle := hfirst.le hmem (hfound x hmem)
        simp only [Before, rank, hinner x hmem, ha]
        split
        · exact hle
        · rename_i hleaf
          simpa using hleaf
      have horder' : evictionOrder (node.setChild key (removePath child rest).1).children =
          ⟨key, (removePath child rest).1⟩ :: evictionOrder (node.children.kerase key) :=
        List.insertionSort_cons_of_forall_rel _ hfront
      refine ⟨leaf, (nodeAt_cons hkey rest).trans hat, hl, hblocks, ?_⟩
      rw [removePath_cons hkey hrest, drain_eq, horder, drain_eq (node.setChild _ _), horder',
        List.flatMap_cons, List.flatMap_cons, hdrain, ha]
      rfl

/-! ## The whole loop -/

theorem evictTurns_blocks (k fuel : Nat) (root : RadixNode) (freed : List BlockId)
    (h : Keyed root) : (RadixPrefixCache.evictLoop k fuel root freed).1 =
      freed ++ (taken (evictTurns k fuel root freed)).flatMap RadixNode.blocks := by
  induction fuel generalizing root freed with
  | zero => simp [RadixPrefixCache.evictLoop, evictTurns, taken]
  | succ fuel ih =>
    simp only [RadixPrefixCache.evictLoop, evictTurns]
    split
    · cases hf : findLruLeaf root with
      | none => simp [taken, Turn.leaf]
      | some found =>
        obtain ⟨path, blocks⟩ := found
        obtain ⟨-, leaf, hat, -, rfl⟩ := isLeafOf_findLruLeaf h hf
        have htaken (ts : List Turn) :
            taken (⟨root, some (path, leaf.blocks)⟩ :: ts) = leaf :: taken ts := by
          simp [taken, Turn.leaf, hat]
        simp only [htaken, List.flatMap_cons]
        rw [ih _ _ (keyed_removePath path h), List.append_assoc]
    · simp [taken]

/-- A loop that ends short of what it was asked for ends with a turn that finds
nothing. -/
theorem last_turn (k fuel : Nat) (root : RadixNode) (freed : List BlockId)
    (h : Keyed root) (hfuel : countNodes root < fuel)
    (hfew : (RadixPrefixCache.evictLoop k fuel root freed).1.length < k) :
    ⟨(RadixPrefixCache.evictLoop k fuel root freed).2, none⟩ ∈ evictTurns k fuel root freed := by
  induction fuel generalizing root freed with
  | zero => omega
  | succ fuel ih =>
    simp only [RadixPrefixCache.evictLoop, evictTurns] at hfew ⊢
    split
    · rename_i hroom
      rw [if_pos hroom] at hfew
      cases hf : findLruLeaf root with
      | none => exact List.mem_singleton.mpr rfl
      | some found =>
        obtain ⟨path, blocks⟩ := found
        simp only [hf] at hfew
        obtain ⟨hne, leaf, hat, hl, -⟩ := isLeafOf_findLruLeaf h hf
        have hcount := countNodes_removePath path hne hat hl
        exact List.mem_cons_of_mem _ (ih _ _ (keyed_removePath path h) (by omega) hfew)
    · rename_i hroom
      rw [if_neg hroom] at hfew
      exact absurd hfew hroom

/-- The turns take the nodes in the order of the tree, and all of them when asked for
more blocks than there are. -/
theorem taken_drain (k fuel : Nat) (root : RadixNode) (freed : List BlockId)
    (h : Keyed root) (hb : BeforeLastReading root) (hfuel : countNodes root < fuel) :
    (taken (evictTurns k fuel root freed)).map lastAccess <+: drain root ∧
      (freed.length + (blockIds root).length < k →
        (taken (evictTurns k fuel root freed)).map lastAccess = drain root) := by
  induction fuel generalizing root freed with
  | zero => omega
  | succ fuel ih =>
    simp only [evictTurns]
    split
    · cases hf : findLruLeaf root with
      | none =>
        have hnil : drain root = [] := by
          rw [drain_eq, children_of_findLruLeaf_none h hb hf]
          rfl
        simp [taken, Turn.leaf, hnil]
      | some found =>
        obtain ⟨path, blocks⟩ := found
        obtain ⟨leaf, hat, hl, rfl, hdrain⟩ := drain_step h hb hf
        have hleaf := isLeafOf_findLruLeaf h hf
        have hcount := countNodes_removePath path hleaf.1 hat hl
        have hids : (blockIds root).length =
            leaf.blocks.length + (blockIds (removePath root path).1).length := by
          simpa using (Removal.blockIds (.cons hleaf (.nil _)) h).length_eq
        have htaken (ts : List Turn) :
            taken (⟨root, some (path, leaf.blocks)⟩ :: ts) = leaf :: taken ts := by
          simp [taken, Turn.leaf, hat]
        obtain ⟨hpre, hall⟩ := ih (removePath root path).1 (freed ++ leaf.blocks)
          (keyed_removePath path h) (hb.pruned (pruned_removePath path h)) (by omega)
        simp only [htaken, List.map_cons, hdrain]
        refine ⟨List.cons_prefix_cons.mpr ⟨rfl, hpre⟩, fun hk => ?_⟩
        rw [hall (by rw [List.length_append]; omega)]
    · rename_i hfull
      exact ⟨List.nil_prefix, fun hk => absurd (Nat.lt_of_le_of_lt (Nat.le_add_right _ _) hk) hfull⟩

/-- In a graded tree every turn takes the oldest leaf. -/
theorem takesOldest_of_sorted (k fuel : Nat) (root : RadixNode) (freed : List BlockId)
    (h : Keyed root) (hb : BeforeLastReading root) (hsorted : (drain root).Pairwise (· ≤ ·)) :
    ∀ t ∈ evictTurns k fuel root freed, TakesOldest t := by
  induction fuel generalizing root freed with
  | zero => exact fun _ ht => nomatch ht
  | succ fuel ih =>
    simp only [evictTurns]
    split
    · cases hf : findLruLeaf root with
      | none =>
        intro t ht hne
        rw [List.mem_singleton.mp ht] at hne
        exact absurd (children_of_findLruLeaf_none h hb hf) hne
      | some found =>
        obtain ⟨path, blocks⟩ := found
        obtain ⟨leaf, hat, hl, -, hdrain⟩ := drain_step h hb hf
        have hrest := hsorted
        rw [hdrain, List.pairwise_cons] at hrest
        intro t ht
        rcases List.mem_cons.mp ht with rfl | ht
        · refine fun _ => ⟨leaf, hat, hl, fun l hcollected => ?_⟩
          have hmem := (mem_drain h).mpr (access_mem_below h hcollected)
          rw [hdrain] at hmem
          rcases List.mem_cons.mp hmem with heq | hmem
          · exact heq.ge
          · exact hrest.1 _ hmem
        · exact ih _ _ (keyed_removePath path h) (hb.pruned (pruned_removePath path h)) hrest.2 t ht
    · exact fun _ ht => nomatch ht

theorem evictsOldest_iff {c : RadixPrefixCache} (h : Trie c.root) (ord : HashOrder) :
    (∀ k, EvictsOldest c ord k) ↔
      BeforeLastReading c.root ∧ Graded (ord.apply c.root) := by
  have hk := keyed_listed ord (keyed_of_trie h)
  have hlisted (hb : BeforeLastReading c.root) : BeforeLastReading (ord.apply c.root) :=
    hb.pruned (pruned_reorder (ord.reorder c.root) (keyed_of_trie h))
  rw [graded_iff hk]
  constructor
  · intro hall
    have hb : BeforeLastReading c.root := by
      by_contra hb
      obtain ⟨k, hfew, hleft⟩ := stalls h hb ord
      have hlast := last_turn k _ _ [] hk (Nat.lt_succ_self _) hfew
      obtain ⟨leaf, htaken, -⟩ := (hall k).oldest _ hlast fun hnil =>
        hleft (nodes_eq_zero.mpr hnil)
      cases htaken
    refine ⟨hb, ?_⟩
    have hdrain := (taken_drain ((blockIds (ord.apply c.root)).length + 1) _ _ [] hk (hlisted hb)
      (Nat.lt_succ_self _)).2 (by simp)
    rw [← hdrain]
    exact (hall _).inOrder
  · intro ⟨hb, hsorted⟩ k
    obtain ⟨hpre, -⟩ := taken_drain k _ _ [] hk (hlisted hb) (Nat.lt_succ_self _)
    refine ⟨takesOldest_of_sorted k _ _ [] hk (hlisted hb) hsorted, ?_, ?_⟩
    · exact evictTurns_blocks k _ (ord.apply c.root) [] hk
    · exact hsorted.sublist hpre.sublist

/-- **When `evict` takes the oldest leaf.** In every state of every run, in whatever
order its maps are: every turn of every `evict` takes the leaf accessed longest ago,
and the leaves come oldest first, exactly when no inner node was accessed at the last
reading of the clock and the tree is graded. -/
theorem evicts_oldest_iff (tr : List (Op × RadixPrefixCache)) (hrun : Along Step .new tr) :
    ∀ c ∈ visited .new tr, ∀ ord, (∀ k, EvictsOldest c ord k) ↔
      BeforeLastReading c.root ∧ Graded (ord.apply c.root) := by
  intro c hc ord
  exact evictsOldest_iff (trie_visited hrun c hc) ord

/-- Three prompts of a block each: a tree of leaves. -/
theorem evicts_oldest_iff_three_prompts :
    let tr := replay exec RadixPrefixCache.new [.insert (ramp 0 16) [1], .insert (ramp 100 16) [2],
      .insert (ramp 200 16) [3]]
    tr.length = 3 ∧ ∀ c ∈ visited RadixPrefixCache.new tr, ∀ ord, (∀ k, EvictsOldest c ord k) ↔
      BeforeLastReading c.root ∧ Graded (ord.apply c.root) :=
  ⟨by decide +kernel, evicts_oldest_iff _ (along_replay exec _ _)⟩

/-- Two prompts that share their first block, and a later one of its own. -/
def apart : List Op := [.insert (ramp 0 16 ++ ramp 100 16) [1, 2],
  .insert (ramp 0 16 ++ ramp 200 16) [1, 3], .insert (ramp 300 16) [4]]

/-- `evict` takes the leaf of the third insertion, with one of the first in the tree. -/
theorem evict_takes_newest : ∃ tr : List (Op × RadixPrefixCache), Along Step .new tr ∧
    tr.map Prod.fst = apart ∧ ∃ c ∈ visited .new tr, (c.evict .listed 1).1 = [4] ∧
      ¬ EvictsOldest c .listed 1 := by
  have hrun : ((final exec .new apart).evict .listed 1).1 = [4] ∧
      (turns (final exec .new apart) .listed 1).map (fun t =>
        (t.tree.isLeaf, t.leaf.map lastAccess, (collectLeaves t.tree []).map Leaf.access)) =
        [(false, some 3, [3, 2, 1])] := by
    decide +kernel
  obtain ⟨hfreed, hturns⟩ := hrun
  refine ⟨_, along_replay exec .new apart, rfl, _, final_mem_visited exec _ _, hfreed, ?_⟩
  intro hall
  obtain ⟨t, ht, hshape⟩ := List.map_eq_singleton_iff.mp hturns
  simp only [Prod.mk.injEq] at hshape
  obtain ⟨hinner, htaken, hleaves⟩ := hshape
  have hne : t.tree.children ≠ [] := by
    intro hnil
    rw [isLeaf, hnil] at hinner
    cases hinner
  have hmem : t ∈ turns (final exec .new apart) .listed 1 := ht ▸ List.mem_singleton.mpr rfl
  obtain ⟨leaf, hleaf, -, holdest⟩ := hall.oldest t hmem hne
  rw [hleaf] at htaken
  obtain ⟨l, hl, haccess⟩ : ∃ l ∈ collectLeaves t.tree [], l.access = 1 := by
    refine List.mem_map.mp ?_
    rw [hleaves]
    simp
  have hle := holdest l hl
  have hthree : leaf.lastAccess = 3 := Option.some.inj htaken
  omega

end JustApi.Inference.EvictionOrder
