import JustApi.Inference.RadixBounds

/-! # The guard against hash collisions

Runs of the prefix cache with the answers of their lookups. A lookup compares the hash
that was stored with an edge with that of the tokens it has just matched with the edge. -/
namespace JustApi.Inference.RadixHashes
open JustApi.Lib.Result JustApi.Inference.KvCache JustApi.Inference.RadixCache
open JustApi.Inference.RadixBounds
open JustApi.Inference.RadixCorrect (Op)
open JustApi.Inference.RadixRuns (exec)
open JustApi.Inference.RadixTrie (Trie)
open JustApi.Inference.RadixWalks (matchedTokens)
open RadixNode

/-- A cache with the matched lengths its lookups have answered. -/
structure Answered where
  cache : RadixPrefixCache
  answers : List (Option Nat)

def Answered.new : Answered := ⟨.new, []⟩

def answer (s : Answered) : Op → Except Panic Answered
  | .lookup tokens =>
    (s.cache.lookup tokens).map fun r => ⟨r.2, s.answers ++ [r.1.map Prod.fst]⟩
  | op => (exec s.cache op).map fun c => ⟨c, s.answers⟩

/-- The tokens that lookups have matched. -/
def matchedSum (answers : List (Option Nat)) : Nat := (answers.map fun n => n.getD 0).sum

theorem verifyHashes_eq (node : RadixNode) : verifyHashes node =
    (node.tokenHash == hashTokens node.tokens && node.children.all fun e => verifyHashes e.2) := by
  have below (cs : List (Σ _ : Token, RadixNode)) :
      verifyChildren cs = cs.all fun e => verifyHashes e.2 := by
    induction cs with
    | nil => rfl
    | cons e rest ih =>
      obtain ⟨k, c⟩ := e
      simp [verifyChildren, ih]
  cases node with
  | mk tokens blocks children access hash =>
    rw [verifyHashes, below]
    rfl

/-- The hashes below the root of a trie are those of its edges. -/
theorem verifyHashes_of_trie {node : RadixNode} (h : Trie node)
    (hhash : node.tokenHash = hashTokens node.tokens) : verifyHashes node = true := by
  induction h with
  | mk _ hl _ ih =>
    rw [verifyHashes_eq, hhash, beq_self_eq_true, Bool.true_and, List.all_eq_true]
    intro e he
    exact ih e he (hl e he).hash

/-- The counters are those of the answers. -/
structure Counted (s : Answered) : Prop where
  rooted : Rooted s.cache.root
  collisions : s.cache.hashCollisions = 0
  lookups : s.cache.hits + s.cache.misses = s.answers.length
  saved : s.cache.tokensSaved = matchedSum s.answers

section Steps

variable {s : Answered} {op : Op}

theorem counted_new : Counted .new := ⟨rooted_new, rfl, rfl, rfl⟩

/-- Only lookups count. -/
theorem counters_exec {c c' : RadixPrefixCache} (hop : ∀ q, op ≠ .lookup q)
    (h : exec c op = .ok c') : c'.hashCollisions = c.hashCollisions ∧ c'.hits = c.hits ∧
      c'.misses = c.misses ∧ c'.tokensSaved = c.tokensSaved := by
  cases op with
  | insert tokens blocks =>
    have hins : c.insert tokens blocks = .ok c' := h
    rw [RadixPrefixCache.insert] at hins
    split at hins
    · split at hins
      · cases hins
      · cases hins
        exact ⟨rfl, rfl, rfl, rfl⟩
    · cases hins
  | lookup q => exact absurd rfl (hop q)
  | evict order k =>
    cases h
    exact ⟨rfl, rfl, rfl, rfl⟩
  | evictFilter order k keep =>
    cases h
    exact ⟨rfl, rfl, rfl, rfl⟩

theorem Counted.other (h : Counted s) (hop : WholeBlocks op) (hlook : ∀ q, op ≠ .lookup q) :
    ∃ c', exec s.cache op = .ok c' ∧ Counted ⟨c', s.answers⟩ := by
  obtain ⟨c', -, hexec, hroot⟩ := h.rooted.step hop
  obtain ⟨hcol, hhits, hmisses, hsaved⟩ := counters_exec hlook hexec
  refine ⟨c', hexec, hroot, hcol.trans h.collisions, ?_, hsaved.trans h.saved⟩
  rw [← h.lookups, hhits, hmisses]

/-- A lookup answers what the tokens match, hashes or not. -/
theorem Counted.lookup (h : Counted s) (q : List Token) : ∃ bs c',
    s.cache.lookup q = .ok (if matchedTokens s.cache q = 0 then none
      else some (matchedTokens s.cache q, bs), c') ∧
    Counted ⟨c', s.answers ++
      [if matchedTokens s.cache q = 0 then none else some (matchedTokens s.cache q)]⟩ := by
  obtain ⟨root, out, -, hm, hcol, hs, ht, hlook⟩ := lookup_settles h.rooted.trie q
  rw [hm] at hlook
  have hcount := h.lookups
  have hsum := h.saved
  refine ⟨out.blocks, settle s.cache root out, hlook, ?_, ?_, ?_, ?_⟩
  · rw [settle_root]
    exact h.rooted.same hs ht
  all_goals
    simp only [settle, hcol, Bool.false_eq_true, if_false, hm]
    by_cases hz : matchedTokens s.cache q = 0
  · rw [if_neg (by omega)]
    exact h.collisions
  · rw [if_pos (by omega)]
    exact h.collisions
  · rw [if_neg (by omega), List.length_append, List.length_singleton, ← hcount]
    exact (Nat.add_assoc _ _ _).symm
  · rw [if_pos (by omega), List.length_append, List.length_singleton, ← hcount]
    exact Nat.add_right_comm _ _ _
  · rw [if_neg (by omega), if_pos hz]
    simpa [matchedSum] using hsum
  · rw [if_pos (by omega), if_neg hz]
    simpa [matchedSum] using hsum

/-- A call succeeds and is counted. -/
theorem Counted.step (h : Counted s) (hop : WholeBlocks op) :
    ∃ s', answer s op = .ok s' ∧ Counted s' := by
  by_cases hlook : ∃ q, op = .lookup q
  · obtain ⟨q, rfl⟩ := hlook
    obtain ⟨bs, c', hl, hc⟩ := h.lookup q
    refine ⟨_, ?_, hc⟩
    rw [answer, hl, Except.map]
    split <;> rfl
  · have hne : ∀ q, op ≠ .lookup q := fun q hq => hlook ⟨q, hq⟩
    obtain ⟨c', hexec, hc⟩ := h.other hop hne
    refine ⟨_, ?_, hc⟩
    rw [answer, hexec]
    · rfl
    · exact hne

end Steps

/-- After any calls every stored hash is the right one, no lookup was rejected for its hash,
none would be, and the counters count the lookups and what they matched. -/
theorem guard_never_fires (ops : List Op) (hops : ∀ op ∈ ops, WholeBlocks op) :
    ∃ s, ops.foldlM answer .new = .ok s ∧ verifyHashes s.cache.root = true ∧
      s.cache.hashCollisions = 0 ∧
      (∀ q, ∃ bs c', s.cache.lookup q = .ok (if matchedTokens s.cache q = 0 then none
        else some (matchedTokens s.cache q, bs), c')) ∧
      s.cache.hits + s.cache.misses = s.answers.length ∧
      s.cache.tokensSaved = matchedSum s.answers := by
  obtain ⟨s, hs, h⟩ := foldlM_preserves (fun s op hop h => h.step (hops op hop)) counted_new
  refine ⟨s, hs, ?_, h.collisions, fun q => ?_, h.lookups, h.saved⟩
  · apply verifyHashes_of_trie h.rooted.trie
    rw [h.rooted.hash, h.rooted.tokens]
  · obtain ⟨bs, c', hl, -⟩ := h.lookup q
    exact ⟨bs, c', hl⟩

theorem guard_never_fires_unaligned : (∀ op ∈ unaligned, WholeBlocks op) ∧
    ∃ s, unaligned.foldlM answer .new = .ok s ∧ verifyHashes s.cache.root = true ∧
      s.cache.hashCollisions = 0 ∧
      (∀ q, ∃ bs c', s.cache.lookup q = .ok (if matchedTokens s.cache q = 0 then none
        else some (matchedTokens s.cache q, bs), c')) ∧
      s.cache.hits + s.cache.misses = s.answers.length ∧
      s.cache.tokensSaved = matchedSum s.answers := by
  have hops : ∀ op ∈ unaligned, WholeBlocks op := by
    simp [unaligned, WholeBlocks, BLOCK_SIZE]
  exact ⟨hops, guard_never_fires unaligned hops⟩

end JustApi.Inference.RadixHashes
