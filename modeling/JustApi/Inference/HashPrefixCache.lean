import JustApi.Lib.Assoc
import JustApi.Inference.RadixCache

/-! # The hash-based prefix cache

Every prefix of an inserted sequence is filed under the hash of its tokens, and a
query is answered from its longest prefix down to its first block. An entry is
written once; a prefix that comes later under the same hash is dropped. -/
namespace JustApi.Inference.HashPrefixCache
open JustApi.Lib JustApi.Inference.KvCache
open JustApi.Inference.RadixCache (Token hashTokens)

structure PrefixCache where
  /-- `prefix_hash(tokens, n_blocks)` to the blocks. -/
  entries : AList fun _ : UInt64 => List BlockId
  /-- `prefix_hash` to the number of tokens the prefix covers. -/
  prefixLengths : AList fun _ : UInt64 => Nat
  hits : Nat
  misses : Nat

/-- `n.div_ceil(BLOCK_SIZE)` -/
def divCeilBlocks (n : Nat) : Nat := (n + BLOCK_SIZE - 1) / BLOCK_SIZE

/-- The hash of the first `numTokens` of `tokens`, or of all when there are fewer. -/
def prefixHash (tokens : List Token) (numTokens : Nat) : UInt64 :=
  hashTokens (tokens.take (min tokens.length numTokens))

namespace PrefixCache

def new : PrefixCache := ⟨∅, ∅, 0, 0⟩

/-- One turn of the loop of `insert`. -/
def insertPrefix (tokens : List Token) (blocks : List BlockId) (c : PrefixCache) (n : Nat) :
    PrefixCache :=
  let h := prefixHash tokens (n * BLOCK_SIZE)
  match c.entries.lookup h with
  | some _ => c
  | none => { c with
      entries := c.entries.insert h (blocks.take n)
      prefixLengths := c.prefixLengths.insert h (n * BLOCK_SIZE) }

def insert (c : PrefixCache) (tokens : List Token) (blocks : List BlockId) : PrefixCache :=
  (List.range' 1 blocks.length).foldl (insertPrefix tokens blocks) c

/-- The loop of `lookup`, from `n` blocks down. -/
def lookupFrom (c : PrefixCache) (tokens : List Token) : Nat → Option (Nat × List BlockId)
  | 0 => none
  | n + 1 =>
    match c.entries.lookup (prefixHash tokens ((n + 1) * BLOCK_SIZE)) with
    | some blocks => some ((n + 1) * BLOCK_SIZE, blocks)
    | none => lookupFrom c tokens n

def lookup (c : PrefixCache) (tokens : List Token) : Option (Nat × List BlockId) × PrefixCache :=
  match c.lookupFrom tokens (divCeilBlocks tokens.length) with
  | some found => (some found, { c with hits := c.hits + 1 })
  | none => (none, { c with misses := c.misses + 1 })

end PrefixCache

/-- Tokens with the blocks inserted for them. -/
abbrev Insert := List Token × List BlockId

/-- The cache after some calls of `insert`. -/
def cacheOf (inserts : List Insert) : PrefixCache :=
  inserts.foldl (fun c x => c.insert x.1 x.2) .new

/-! ## What is filed -/

/-- The prefixes of one insert: after each of its blocks the tokens up to there, all of
them after the last one. -/
def prefixes (x : Insert) : List Insert :=
  (List.range' 1 x.2.length).map fun n => (x.1.take (n * BLOCK_SIZE), x.2.take n)

def inserted (inserts : List Insert) : List Insert := inserts.flatMap prefixes

/-- The blocks that come first under a hash. -/
def firstUnder (inserts : List Insert) (h : UInt64) : Option (List BlockId) :=
  List.dlookup h
    ((inserted inserts).map fun k => (⟨hashTokens k.1, k.2⟩ : Σ _ : UInt64, List BlockId))

theorem prefixHash_eq (tokens : List Token) (n : Nat) :
    prefixHash tokens n = hashTokens (tokens.take n) := by
  rw [prefixHash, Nat.min_comm, ← List.take_eq_take_min]

/-- One turn of `insert` files a prefix that is the first under its hash. -/
theorem insertPrefix_entries (tokens : List Token) (blocks : List BlockId) (c : PrefixCache)
    (n : Nat) : (c.insertPrefix tokens blocks n).entries =
      Assoc.insertNew c.entries (hashTokens (tokens.take (n * BLOCK_SIZE))) (blocks.take n) := by
  rw [← prefixHash_eq]
  cases h : c.entries.lookup (prefixHash tokens (n * BLOCK_SIZE)) with
  | some w => simp only [PrefixCache.insertPrefix, Assoc.insertNew, h]
  | none => simp only [PrefixCache.insertPrefix, Assoc.insertNew, h]

theorem insert_entries (c : PrefixCache) (x : Insert) : (c.insert x.1 x.2).entries =
    (prefixes x).foldl (fun m k => Assoc.insertNew m (hashTokens k.1) k.2) c.entries := by
  have hturns : ∀ (ns : List Nat) (c : PrefixCache),
      (ns.foldl (PrefixCache.insertPrefix x.1 x.2) c).entries =
        ns.foldl (fun m n => Assoc.insertNew m (hashTokens (x.1.take (n * BLOCK_SIZE)))
          (x.2.take n)) c.entries := by
    intro ns
    induction ns with
    | nil => exact fun _ => rfl
    | cons n rest ih =>
      intro c
      rw [List.foldl_cons, List.foldl_cons, ih, insertPrefix_entries]
  rw [PrefixCache.insert, hturns, prefixes, List.foldl_map]

/-- An entry of the cache holds the blocks that came first under its hash. -/
theorem cacheOf_entries (inserts : List Insert) (h : UInt64) :
    (cacheOf inserts).entries.lookup h = firstUnder inserts h := by
  have hall : ∀ c : PrefixCache, (inserts.foldl (fun c x => c.insert x.1 x.2) c).entries =
      (inserted inserts).foldl (fun m k => Assoc.insertNew m (hashTokens k.1) k.2) c.entries := by
    unfold inserted
    induction inserts with
    | nil => exact fun _ => rfl
    | cons x rest ih =>
      intro c
      rw [List.foldl_cons, ih, insert_entries, List.flatMap_cons, List.foldl_append]
  have hkeyed := Assoc.lookup_foldl_insertNew
    ((inserted inserts).map fun k => (⟨hashTokens k.1, k.2⟩ : Σ _ : UInt64, List BlockId)) ∅ h
  rw [List.foldl_map, AList.lookup_empty, Option.none_or] at hkeyed
  rw [cacheOf, hall]
  exact hkeyed

/-- What is first under a hash is a prefix of that hash that was inserted. -/
theorem firstUnder_mem {inserts : List Insert} {h : UInt64} {bs : List BlockId}
    (hb : firstUnder inserts h = some bs) :
    ∃ k ∈ inserted inserts, hashTokens k.1 = h ∧ k.2 = bs := by
  obtain ⟨k, hk, he⟩ := List.mem_map.mp (List.of_mem_dlookup hb)
  cases he
  exact ⟨k, hk, rfl, rfl⟩

theorem firstUnder_isSome {inserts : List Insert} {k : Insert} (hk : k ∈ inserted inserts) :
    (firstUnder inserts (hashTokens k.1)).isSome := by
  rw [firstUnder, List.dlookup_isSome, List.keys, List.map_map]
  exact List.mem_map.mpr ⟨k, hk, rfl⟩

/-! ## What a lookup finds -/

/-- The lookup stops at the longest prefix whose hash is there. -/
theorem lookupFrom_iff (c : PrefixCache) (tokens : List Token) (max m : Nat) (bs : List BlockId) :
    c.lookupFrom tokens max = some (m, bs) ↔ ∃ n, 0 < n ∧ n ≤ max ∧ m = n * BLOCK_SIZE ∧
      c.entries.lookup (hashTokens (tokens.take (n * BLOCK_SIZE))) = some bs ∧
      ∀ n', n < n' → n' ≤ max →
        c.entries.lookup (hashTokens (tokens.take (n' * BLOCK_SIZE))) = none := by
  induction max with
  | zero =>
    refine iff_of_false (fun h => nomatch h) ?_
    intro h
    obtain ⟨n, hpos, hle, -⟩ := h
    omega
  | succ max ih =>
    rw [PrefixCache.lookupFrom, prefixHash_eq]
    cases he : c.entries.lookup (hashTokens (tokens.take ((max + 1) * BLOCK_SIZE))) with
    | some bs' =>
      constructor
      · intro h
        cases h
        exact ⟨max + 1, Nat.succ_pos max, Nat.le_refl _, rfl, he, fun n' hlt hle => by omega⟩
      · intro h
        obtain ⟨n, -, hle, rfl, hn, hlonger⟩ := h
        have hlast : n = max + 1 := by
          by_contra hne
          have hnone := hlonger (max + 1) (by omega) (Nat.le_refl _)
          rw [he] at hnone
          cases hnone
        rw [hlast, he] at hn
        cases hn
        rw [hlast]
    | none =>
      rw [ih]
      constructor
      · intro h
        obtain ⟨n, hpos, hle, hm, hn, hlonger⟩ := h
        refine ⟨n, hpos, Nat.le_succ_of_le hle, hm, hn, fun n' hlt hle' => ?_⟩
        rcases Nat.lt_or_ge max n' with hgt | hle''
        · rw [show n' = max + 1 by omega]
          exact he
        · exact hlonger n' hlt hle''
      · intro h
        obtain ⟨n, hpos, hle, hm, hn, hlonger⟩ := h
        refine ⟨n, hpos, ?_, hm, hn, fun n' hlt hle' => hlonger n' hlt (Nat.le_succ_of_le hle')⟩
        by_contra hgt
        rw [show n = max + 1 by omega, he] at hn
        cases hn

/-- What `lookup` returns, in terms of the inserts. -/
theorem lookup_iff (inserts : List Insert) (q : List Token) (m : Nat) (bs : List BlockId) :
    ((cacheOf inserts).lookup q).1 = some (m, bs) ↔
      ∃ n, 0 < n ∧ n ≤ divCeilBlocks q.length ∧ m = n * BLOCK_SIZE ∧
        firstUnder inserts (hashTokens (q.take (n * BLOCK_SIZE))) = some bs ∧
        ∀ n', n < n' → n' ≤ divCeilBlocks q.length →
          firstUnder inserts (hashTokens (q.take (n' * BLOCK_SIZE))) = none := by
  have hfound : ((cacheOf inserts).lookup q).1 =
      (cacheOf inserts).lookupFrom q (divCeilBlocks q.length) := by
    unfold PrefixCache.lookup
    split <;> simp_all
  rw [hfound, lookupFrom_iff]
  simp only [cacheOf_entries]

end JustApi.Inference.HashPrefixCache
