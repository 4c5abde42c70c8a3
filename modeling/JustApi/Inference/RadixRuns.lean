import JustApi.Inference.RadixCorrect
import JustApi.Inference.RadixRemoval

/-! # Runs of the prefix cache

The four operations in any order, whatever the order of the maps and the filters.
The tree is a trie in every state, and an eviction takes leaves out of it. -/
namespace JustApi.Inference.RadixRuns
open JustApi.Lib.Run JustApi.Lib.Result JustApi.Inference.KvCache JustApi.Inference.RadixCache
open JustApi.Inference.RadixWalks JustApi.Inference.RadixRemoval
open JustApi.Inference.RadixCorrect (Op)
open JustApi.Inference.RadixTrie (Trie insertNode_adds lookupNode_reread trie_leaf)

def exec (c : RadixPrefixCache) : Op → Except Panic RadixPrefixCache
  | .insert tokens blocks => c.insert tokens blocks
  | .lookup tokens => (c.lookup tokens).map Prod.snd
  | .evict order k => .ok (c.evict order k).2
  | .evictFilter order k keep => .ok (c.evictFilter order k keep).2

def Step (c : RadixPrefixCache) (op : Op) (c' : RadixPrefixCache) : Prop := exec c op = .ok c'

variable {c c' : RadixPrefixCache}

theorem keyed_listed (ord : HashOrder) (h : Keyed c.root) : Keyed (ord.apply c.root) :=
  (child?_reorder (ord.reorder c.root) h).1

/-- `evict` takes leaves out until it has enough blocks or finds no leaf. -/
theorem evict_removal (ord : HashOrder) (k : Nat) (h : Keyed c.root) :
    ∃ gone, (c.evict ord k).1 = gone.flatMap Prod.snd ∧
      Removal (ord.apply c.root) gone (c.evict ord k).2.root ∧
      (k ≤ (c.evict ord k).1.length ∨ findLruLeaf (c.evict ord k).2.root = none) := by
  obtain ⟨gone, hfreed, hr, hend⟩ := evictLoop_removal k (countNodes (ord.apply c.root) + 1)
    (ord.apply c.root) [] (keyed_listed ord h) (Nat.lt_succ_self _)
  exact ⟨gone, hfreed, hr, hend⟩

/-- What is left after leaves were taken out of the tree as its maps list it. -/
theorem pruned_of_removal {gone : List (List Token × List BlockId)} (ord : HashOrder)
    (h : Keyed c.root) (hr : Removal (ord.apply c.root) gone c'.root) :
    Pruned c.root c'.root ∧ Keyed c'.root :=
  ⟨(pruned_reorder (ord.reorder c.root) h).trans (Removal.pruned hr (keyed_listed ord h)),
    Removal.keyed hr (keyed_listed ord h)⟩

/-- A step that leaves part of the tree keeps it a trie. -/
theorem trie_of_removal {gone : List (List Token × List BlockId)} (ord : HashOrder)
    (h : Trie c.root) (hr : Removal (ord.apply c.root) gone c'.root) : Trie c'.root := by
  obtain ⟨hp, hk⟩ := pruned_of_removal ord (keyed_of_trie h) hr
  exact hp.trie h hk

theorem trie_step {op : Op} (h : Trie c.root) (hstep : Step c op c') : Trie c'.root := by
  cases op with
  | insert tokens blocks =>
    have hins : c.insert tokens blocks = .ok c' := hstep
    rw [RadixPrefixCache.insert] at hins
    split at hins
    · rename_i hlen
      have hb : tokens.length / BLOCK_SIZE ≤ blocks.length := by
        rw [hlen, Nat.mul_div_cancel _ blockSize_pos]
      obtain ⟨root, hroot, ha⟩ := insertNode_adds (tokens.length + 1) c.root tokens blocks c.tick h
        (Nat.lt_succ_self _) hb
      rw [hroot] at hins
      cases hins
      exact ha.trie
    · cases hins
  | lookup tokens =>
    obtain ⟨⟨r, d⟩, hl, rfl⟩ := map_eq_ok.mp hstep
    obtain ⟨root, out, hlook, -, -, hr⟩ :=
      lookupNode_reread (tokens.length + 1) c.root tokens c.tick h
    have hroot : d.root = root := by
      simp only [RadixPrefixCache.lookup, hlook] at hl
      split at hl
      · cases hl
        rfl
      · split at hl <;> cases hl <;> rfl
    exact hroot ▸ hr.trie
  | evict order k =>
    cases hstep
    obtain ⟨gone, -, hr, -⟩ := evict_removal order k (keyed_of_trie h)
    exact trie_of_removal order h hr
  | evictFilter order k keep =>
    cases hstep
    obtain ⟨gone, -, hr, -⟩ := evictFilter_removal order k keep (keyed_listed order (keyed_of_trie h))
    exact trie_of_removal order h hr

/-- The tree of every state of every run is a trie. -/
theorem trie_visited {tr : List (Op × RadixPrefixCache)} (hrun : Along Step .new tr) :
    ∀ c ∈ visited .new tr, Trie c.root :=
  Along.invariant (I := fun c => Trie c.root) (fun _ _ _ h hstep => trie_step h hstep)
    (trie_leaf _ _ _) hrun

end JustApi.Inference.RadixRuns
