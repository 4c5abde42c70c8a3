import Mathlib.Data.List.Sigma
import Mathlib.Data.List.Sort
import JustApi.Lib.Result
import JustApi.Inference.KvCache

/-! # The radix-tree prefix cache

Each node carries an edge label `tokens` and the KV blocks along it; children
are keyed by the first token of their edge. A `HashMap` of children is its list
of entries in iteration order. That order is not fixed by the contents, so the
two calls that iterate, `evict` and `evictFilter`, take the order the maps have
at that moment as an argument (`HashOrder`). Slices of block lists are checked,
since nothing in the code keeps their bounds. -/
namespace JustApi.Inference.RadixCache
open JustApi.Inference.KvCache

abbrev Token := UInt32

inductive RadixNode where
  | mk (tokens : List Token) (blocks : List BlockId) (children : List (Σ _ : Token, RadixNode))
      (lastAccess : Nat) (tokenHash : UInt64)
  deriving Repr

/-- FNV-1a over the token ids. -/
def hashTokens (tokens : List Token) : UInt64 :=
  tokens.foldl (fun h t => (h ^^^ t.toUInt64) * 0x100000001b3) 0xcbf29ce484222325

namespace RadixNode

def tokens : RadixNode → List Token | mk tokens _ _ _ _ => tokens
def blocks : RadixNode → List BlockId | mk _ blocks _ _ _ => blocks
def children : RadixNode → List (Σ _ : Token, RadixNode) | mk _ _ children _ _ => children
def lastAccess : RadixNode → Nat | mk _ _ _ lastAccess _ => lastAccess
def tokenHash : RadixNode → UInt64 | mk _ _ _ _ tokenHash => tokenHash

def new (tokens : List Token) (blocks : List BlockId) (now : Nat) : RadixNode :=
  mk tokens blocks [] now (hashTokens tokens)

def isLeaf (node : RadixNode) : Bool := node.children.isEmpty

def touch (node : RadixNode) (now : Nat) : RadixNode :=
  mk node.tokens node.blocks node.children now node.tokenHash

def withChildren (node : RadixNode) (children : List (Σ _ : Token, RadixNode)) : RadixNode :=
  mk node.tokens node.blocks children node.lastAccess node.tokenHash

def child? (node : RadixNode) (key : Token) : Option RadixNode := node.children.dlookup key

def setChild (node : RadixNode) (key : Token) (child : RadixNode) : RadixNode :=
  node.withChildren (node.children.kinsert key child)

end RadixNode

open RadixNode

def commonPrefixLen : List Token → List Token → Nat
  | a :: as, b :: bs => if a = b then commonPrefixLen as bs + 1 else 0
  | _, _ => 0

/-- `&xs[i..]` -/
def sliceFrom {α : Type} (xs : List α) (i : Nat) : Except Panic (List α) :=
  if i ≤ xs.length then .ok (xs.drop i) else .error .sliceOutOfRange

/-- `&xs[..i]` -/
def sliceTo {α : Type} (xs : List α) (i : Nat) : Except Panic (List α) :=
  if i ≤ xs.length then .ok (xs.take i) else .error .sliceOutOfRange

/-- Insert `(tokens, blocks)` under `node`. Every level of the recursion consumes
a token, so `tokens.length + 1` levels are enough. -/
def insertNode : Nat → RadixNode → List Token → List BlockId → Nat → Except Panic RadixNode
  | 0, node, _, _, _ => .ok node
  | fuel + 1, node, tokens, blocks, now =>
    match tokens with
    | [] => .ok (node.touch now)
    | first :: _ =>
      match node.child? first with
      | some child =>
        let cp := commonPrefixLen tokens child.tokens
        if cp = child.tokens.length then do
          -- whole child edge consumed
          let rest ← sliceFrom blocks (cp / BLOCK_SIZE)
          let child' ← insertNode fuel child (tokens.drop cp) rest now
          pure (node.setChild first child')
        else do
          -- divergence mid-edge: split the child at `cp`
          let below ← sliceFrom child.blocks (cp / BLOCK_SIZE)
          let split := mk (child.tokens.drop cp) below child.children child.lastAccess
            (hashTokens (child.tokens.drop cp))
          let top := mk (child.tokens.take cp) (child.blocks.take (cp / BLOCK_SIZE))
            [⟨split.tokens.headD first, split⟩] child.lastAccess (hashTokens (child.tokens.take cp))
          let rest ← sliceFrom blocks (cp / BLOCK_SIZE)
          let child' ← insertNode fuel top (tokens.drop cp) rest now
          pure (node.setChild first child')
      | none => .ok (node.setChild first (RadixNode.new tokens blocks now))

/-- What a walk accumulates in `out`: tokens matched, their blocks, and whether a
content hash disagreed. -/
structure Found where
  matched : Nat
  blocks : List BlockId
  collision : Bool
  deriving DecidableEq, Repr

/-- Walk the longest match of `tokens` below `node`, refreshing the nodes on it. -/
def lookupNode : Nat → RadixNode → List Token → Nat → Except Panic (RadixNode × Found)
  | 0, node, _, _ => .ok (node, ⟨0, [], false⟩)
  | fuel + 1, node, tokens, now =>
    match tokens with
    | [] => .ok (node, ⟨0, [], false⟩)
    | first :: _ =>
      match node.child? first with
      | none => .ok (node, ⟨0, [], false⟩)
      | some child =>
        let cp := commonPrefixLen tokens child.tokens
        if cp = child.tokens.length then
          if child.tokenHash ≠ hashTokens (tokens.take cp) then .ok (node, ⟨0, [], true⟩)
          else do
            let (child', out) ← lookupNode fuel (child.touch now) (tokens.drop cp) now
            pure (node.setChild first child',
              ⟨cp + out.matched, child.blocks ++ out.blocks, out.collision⟩)
        else if 0 < cp then do
          -- the prompt ends, or leaves the edge, inside this node
          let bs ← sliceTo child.blocks (cp / BLOCK_SIZE)
          pure (node.setChild first (child.touch now), ⟨cp, bs, false⟩)
        else .ok (node, ⟨0, [], false⟩)

/-! ## Traversals -/

mutual
def countNodes : RadixNode → Nat
  | mk _ _ children _ _ => countChildren children
def countChildren : List (Σ _ : Token, RadixNode) → Nat
  | [] => 0
  | ⟨_, child⟩ :: rest => 1 + countNodes child + countChildren rest
end

mutual
def cachedTokens : RadixNode → Nat
  | mk tokens _ children _ _ => tokens.length + cachedTokensBelow children
def cachedTokensBelow : List (Σ _ : Token, RadixNode) → Nat
  | [] => 0
  | ⟨_, child⟩ :: rest => cachedTokens child + cachedTokensBelow rest
end

mutual
def verifyHashes : RadixNode → Bool
  | mk tokens _ children _ tokenHash => tokenHash == hashTokens tokens && verifyChildren children
def verifyChildren : List (Σ _ : Token, RadixNode) → Bool
  | [] => true
  | ⟨_, child⟩ :: rest => verifyHashes child && verifyChildren rest
end

/-- The keys of the leaf children, least recently used first. -/
def directLeaves (children : List (Σ _ : Token, RadixNode)) : List (Token × Nat) :=
  ((children.filter fun e => e.2.isLeaf).map fun e => (e.1, e.2.lastAccess)).insertionSort
    (fun a b => a.2 ≤ b.2)

mutual
/-- A leaf to evict: a direct leaf child if there is one, else the leaf found
below the child accessed longest ago. The path is the child keys from here. -/
def findLruLeaf : RadixNode → Option (List Token × List BlockId)
  | mk _ _ children _ _ =>
    match (directLeaves children).head? with
    | some (key, _) => (children.dlookup key).map fun child => ([key], child.blocks)
    | none => oldestBelow children none (2 ^ 64 - 1)
def oldestBelow : List (Σ _ : Token, RadixNode) → Option (List Token × List BlockId) → Nat →
    Option (List Token × List BlockId)
  | [], best, _ => best
  | ⟨key, child⟩ :: rest, best, bestAccess =>
    match findLruLeaf child with
    | some (path, blocks) =>
      if child.lastAccess < bestAccess then
        oldestBelow rest (some (key :: path, blocks)) child.lastAccess
      else oldestBelow rest best bestAccess
    | none => oldestBelow rest best bestAccess
end

/-- A leaf as `collectLeaves` reports it: access time, key path, blocks. -/
structure Leaf where
  access : Nat
  path : List Token
  blocks : List BlockId
  deriving DecidableEq, Repr

mutual
def collectLeaves : RadixNode → List Token → List Leaf
  | mk _ _ children _ _, path => collectBelow children path
def collectBelow : List (Σ _ : Token, RadixNode) → List Token → List Leaf
  | [], _ => []
  | ⟨key, child⟩ :: rest, path =>
    (if child.isLeaf then [⟨child.lastAccess, path ++ [key], child.blocks⟩]
      else collectLeaves child (path ++ [key])) ++ collectBelow rest path
end

/-- Remove the leaf at `path`; reports whether there was one. -/
def removePath : RadixNode → List Token → RadixNode × Bool
  | node, [] => (node, false)
  | node, key :: rest =>
    match node.child? key with
    | none => (node, false)
    | some child =>
      match rest with
      | [] => (node.withChildren (node.children.kerase key), true)
      | _ :: _ => (node.setChild key (removePath child rest).1, (removePath child rest).2)

/-! ## The cache -/

/-- The same tree with the entries of its maps listed in another order. -/
inductive Reorder : RadixNode → RadixNode → Prop
  | refl (node : RadixNode) : Reorder node node
  | trans {a b c : RadixNode} : Reorder a b → Reorder b c → Reorder a c
  | perm (node : RadixNode) {children : List (Σ _ : Token, RadixNode)} :
      node.children.Perm children → Reorder node (node.withChildren children)
  | child (node : RadixNode) {before after : List (Σ _ : Token, RadixNode)} {key : Token}
      {c c' : RadixNode} : node.children = before ++ ⟨key, c⟩ :: after → Reorder c c' →
      Reorder node (node.withChildren (before ++ ⟨key, c'⟩ :: after))

/-- The iteration order the maps of a tree happen to have. -/
structure HashOrder where
  apply : RadixNode → RadixNode
  reorder : ∀ node, Reorder node (apply node)

/-- The order in which the entries are listed. -/
def HashOrder.listed : HashOrder := ⟨id, .refl⟩

structure RadixPrefixCache where
  root : RadixNode
  hits : Nat
  misses : Nat
  hashCollisions : Nat
  tokensSaved : Nat
  clock : Nat
  deriving Repr

namespace RadixPrefixCache

def new : RadixPrefixCache := ⟨RadixNode.new [] [] 0, 0, 0, 0, 0, 0⟩

def nodes (c : RadixPrefixCache) : Nat := countNodes c.root

def cachedTokens (c : RadixPrefixCache) : Nat := RadixCache.cachedTokens c.root

/-- The next reading of the clock, a `u64` without overflow checks. -/
def tick (c : RadixPrefixCache) : Nat := (c.clock + 1) % 2 ^ 64

/-- `tokens.len()` must equal `blocks.len() * BLOCK_SIZE`. -/
def insert (c : RadixPrefixCache) (tokens : List Token) (blocks : List BlockId) :
    Except Panic RadixPrefixCache :=
  if tokens.length = blocks.length * BLOCK_SIZE then
    match insertNode (tokens.length + 1) c.root tokens blocks c.tick with
    | .error e => .error e
    | .ok root => .ok { c with root := root, clock := c.tick }
  else .error .blockMisalignment

def lookup (c : RadixPrefixCache) (tokens : List Token) :
    Except Panic (Option (Nat × List BlockId) × RadixPrefixCache) :=
  match lookupNode (tokens.length + 1) c.root tokens c.tick with
  | .error e => .error e
  | .ok (root, out) =>
    let c := { c with root := root, clock := c.tick }
    if out.collision then
      .ok (none, { c with hashCollisions := c.hashCollisions + 1, misses := c.misses + 1 })
    else if 0 < out.matched then
      .ok (some (out.matched, out.blocks),
        { c with hits := c.hits + 1, tokensSaved := c.tokensSaved + out.matched })
    else .ok (none, { c with misses := c.misses + 1 })

/-- The loop of `evict`; every turn removes a node of the tree. -/
def evictLoop (k : Nat) : Nat → RadixNode → List BlockId → List BlockId × RadixNode
  | 0, root, freed => (freed, root)
  | fuel + 1, root, freed =>
    if freed.length < k then
      match findLruLeaf root with
      | some (path, blocks) => evictLoop k fuel (removePath root path).1 (freed ++ blocks)
      | none => (freed, root)
    else (freed, root)

def evict (c : RadixPrefixCache) (ord : HashOrder) (k : Nat) : List BlockId × RadixPrefixCache :=
  let root := ord.apply c.root
  ((evictLoop k (countNodes root + 1) root []).1,
    { c with root := (evictLoop k (countNodes root + 1) root []).2 })

/-- The loop of `evictFilter` over the sorted leaves. `keep` may answer
differently from call to call, so it also gets the number of calls before. -/
def evictLeaves (k : Nat) (keep : Nat → List BlockId → Bool) :
    List Leaf → Nat → RadixNode → List BlockId → List BlockId × RadixNode
  | [], _, root, freed => (freed, root)
  | leaf :: rest, calls, root, freed =>
    if k ≤ freed.length then (freed, root)
    else if keep calls leaf.blocks then
      evictLeaves k keep rest (calls + 1) (removePath root leaf.path).1 (freed ++ leaf.blocks)
    else evictLeaves k keep rest (calls + 1) root freed

def evictFilter (c : RadixPrefixCache) (ord : HashOrder) (k : Nat)
    (keep : Nat → List BlockId → Bool) : List BlockId × RadixPrefixCache :=
  let root := ord.apply c.root
  let leaves := (collectLeaves root []).insertionSort (fun a b => a.access ≤ b.access)
  ((evictLeaves k keep leaves 0 root []).1,
    { c with root := (evictLeaves k keep leaves 0 root []).2 })

end RadixPrefixCache

end JustApi.Inference.RadixCache
