import JustApi.Inference.HashPrefixCache

/-! # When a hit of the prefix cache is a true prefix

The last block of an inserted sequence may be filled in part. It is filed under the
hash of fewer tokens than its blocks have room for, and a query of just these tokens is
told the room. Besides, two prefixes may share a hash. Nothing else goes wrong. -/
namespace JustApi.Inference.HashPrefixCache
open JustApi.Inference.KvCache
open JustApi.Inference.RadixCache (Token hashTokens)

variable {inserts : List Insert} {q : List Token} {m n : Nat} {bs : List BlockId}

/-- As many blocks as the tokens take. -/
def WellSized (inserts : List Insert) : Prop :=
  ∀ x ∈ inserts, x.2.length = divCeilBlocks x.1.length

/-- The hit `(m, bs)` stands for a prefix of the query that was inserted with these
blocks, and no longer one was inserted. -/
structure TruePrefix (inserts : List Insert) (q : List Token) (m : Nat) (bs : List BlockId) :
    Prop where
  within : m ≤ q.length
  blocks : bs.length * BLOCK_SIZE = m
  inserted : ∃ x ∈ inserts, x.1.take m = q.take m ∧ x.2.take bs.length = bs
  longest : ∀ n, n * BLOCK_SIZE ≤ q.length →
    (∃ x ∈ inserts, x.1.take (n * BLOCK_SIZE) = q.take (n * BLOCK_SIZE)) → n * BLOCK_SIZE ≤ m

/-- The query ends inside a block, and a prefix with the hash of all of it was
inserted. -/
def Overshoots (inserts : List Insert) (q : List Token) : Prop :=
  q.length % BLOCK_SIZE ≠ 0 ∧ ∃ k ∈ inserted inserts, hashTokens k.1 = hashTokens q

/-- Under the hash of the longest aligned prefix of the query that is found, blocks came
first that no insert of these tokens has. -/
def Collides (inserts : List Insert) (q : List Token) : Prop :=
  ∃ n bs, 0 < n ∧ n * BLOCK_SIZE ≤ q.length ∧
    firstUnder inserts (hashTokens (q.take (n * BLOCK_SIZE))) = some bs ∧
    (∀ n', n < n' → n' * BLOCK_SIZE ≤ q.length →
      ∀ k ∈ inserted inserts, hashTokens k.1 ≠ hashTokens (q.take (n' * BLOCK_SIZE))) ∧
    (q.take (n * BLOCK_SIZE), bs) ∉ inserted inserts

/-! ## Inserted prefixes -/

theorem firstUnder_eq_none {h : UInt64} :
    firstUnder inserts h = none ↔ ∀ k ∈ inserted inserts, hashTokens k.1 ≠ h := by
  constructor
  · rintro hnone k hk rfl
    have hsome := firstUnder_isSome hk
    rw [hnone] at hsome
    cases hsome
  · intro hne
    cases hb : firstUnder inserts h with
    | none => rfl
    | some bs =>
      obtain ⟨k, hk, he, -⟩ := firstUnder_mem hb
      exact absurd he (hne k hk)

theorem mem_inserted {k : Insert} : k ∈ inserted inserts ↔ ∃ x ∈ inserts, ∃ n, 0 < n ∧
    n ≤ x.2.length ∧ (x.1.take (n * BLOCK_SIZE), x.2.take n) = k := by
  simp only [inserted, prefixes, List.mem_flatMap, List.mem_map, List.mem_range'_1]
  constructor
  · intro h
    obtain ⟨x, hx, n, hn, rfl⟩ := h
    exact ⟨x, hx, n, by omega, by omega, rfl⟩
  · intro h
    obtain ⟨x, hx, n, hpos, hle, rfl⟩ := h
    exact ⟨x, hx, n, by omega, rfl⟩

theorem le_divCeilBlocks {len : Nat} (hpos : 0 < n) :
    n ≤ divCeilBlocks len ↔ (n - 1) * BLOCK_SIZE < len := by
  simp only [divCeilBlocks, BLOCK_SIZE]
  omega

/-- An inserted prefix that fills its blocks has the blocks of its length. -/
theorem aligned_blocks {x : Insert} {n' : Nat} (hx : x.2.length = divCeilBlocks x.1.length)
    (hpos : 0 < n') (hle : n' ≤ x.2.length)
    (hlen : (x.1.take (n' * BLOCK_SIZE)).length = n * BLOCK_SIZE) : n' = n := by
  rw [hx, le_divCeilBlocks hpos] at hle
  rw [List.length_take] at hlen
  simp only [BLOCK_SIZE] at hle hlen
  omega

/-- An aligned prefix of an insert is filed under its hash. -/
theorem inserted_of_prefix {x : Insert} (hx : x ∈ inserts)
    (hsize : x.2.length = divCeilBlocks x.1.length) (hpos : 0 < n)
    (hq : n * BLOCK_SIZE ≤ q.length)
    (he : x.1.take (n * BLOCK_SIZE) = q.take (n * BLOCK_SIZE)) :
    (q.take (n * BLOCK_SIZE), x.2.take n) ∈ inserted inserts := by
  have hlen := congrArg List.length he
  rw [List.length_take, List.length_take] at hlen
  refine mem_inserted.mpr ⟨x, hx, n, hpos, ?_, by rw [he]⟩
  rw [hsize, le_divCeilBlocks hpos]
  simp only [BLOCK_SIZE] at hlen hq ⊢
  omega

/-! ## Hits -/

/-- A lookup that stops inside the query, at blocks of an insert of these tokens, is
true. -/
theorem truePrefix_of_inserted (hsize : WellSized inserts) (hpos : 0 < n)
    (hn : n * BLOCK_SIZE ≤ q.length)
    (hlonger : ∀ n', n < n' → n' * BLOCK_SIZE ≤ q.length →
      firstUnder inserts (hashTokens (q.take (n' * BLOCK_SIZE))) = none)
    (hmem : (q.take (n * BLOCK_SIZE), bs) ∈ inserted inserts) :
    TruePrefix inserts q (n * BLOCK_SIZE) bs := by
  obtain ⟨x, hx, n', hpos', hle, he⟩ := mem_inserted.mp hmem
  rw [Prod.mk.injEq] at he
  have hlen : (x.1.take (n' * BLOCK_SIZE)).length = n * BLOCK_SIZE := by
    rw [he.1, List.length_take, Nat.min_eq_left hn]
  obtain rfl : n' = n := aligned_blocks (hsize x hx) hpos' hle hlen
  have hbs : bs.length = n' := by rw [← he.2, List.length_take, Nat.min_eq_left hle]
  refine ⟨hn, by rw [hbs], ⟨x, hx, he.1, by rw [hbs, he.2]⟩, fun k hk hex => ?_⟩
  obtain ⟨y, hy, hey⟩ := hex
  by_contra hgt
  have hlt : n' < k := Nat.lt_of_mul_lt_mul_right (Nat.lt_of_not_le hgt)
  have hin := inserted_of_prefix hy (hsize y hy) (Nat.lt_trans hpos hlt) hk hey
  exact firstUnder_eq_none.mp (hlonger k hlt hk) _ hin rfl

/-- A prefix that reaches beyond the query is the query. -/
theorem take_beyond (h : q.length < n * BLOCK_SIZE) : q.take (n * BLOCK_SIZE) = q :=
  List.take_of_length_le (Nat.le_of_lt h)

/-- Only the last prefix of a query can reach beyond it, when the query ends inside a
block. -/
theorem beyond {len : Nat} (hpos : 0 < n) (hle : n ≤ divCeilBlocks len)
    (hgt : len < n * BLOCK_SIZE) : len % BLOCK_SIZE ≠ 0 := by
  rw [le_divCeilBlocks hpos] at hle
  simp only [BLOCK_SIZE] at hle hgt ⊢
  omega

/-- Where the query itself is not found, only the prefixes inside it count. -/
theorem none_up_to (hover : ¬ Overshoots inserts q)
    (h : ∀ n', n < n' → n' * BLOCK_SIZE ≤ q.length →
      firstUnder inserts (hashTokens (q.take (n' * BLOCK_SIZE))) = none) :
    ∀ n', n < n' → n' ≤ divCeilBlocks q.length →
      firstUnder inserts (hashTokens (q.take (n' * BLOCK_SIZE))) = none := by
  intro n' hlt hle
  rcases Nat.lt_or_ge q.length (n' * BLOCK_SIZE) with hgt | hin
  · rw [take_beyond hgt, firstUnder_eq_none]
    intro k hk he
    exact hover ⟨beyond (Nat.zero_lt_of_lt hlt) hle hgt, k, hk, he⟩
  · exact h n' hlt hin

theorem not_overshoots
    (htrue : ∀ m bs, ((cacheOf inserts).lookup q).1 = some (m, bs) → TruePrefix inserts q m bs) :
    ¬ Overshoots inserts q := by
  intro h
  obtain ⟨hmod, k, hk, he⟩ := h
  have hpos : 0 < divCeilBlocks q.length ∧
      q.length < divCeilBlocks q.length * BLOCK_SIZE := by
    simp only [divCeilBlocks, BLOCK_SIZE] at hmod ⊢
    omega
  have hsome := firstUnder_isSome hk
  rw [he, ← take_beyond hpos.2] at hsome
  obtain ⟨bs, hbs⟩ := Option.isSome_iff_exists.mp hsome
  have hfound := (lookup_iff inserts q _ bs).mpr
    ⟨_, hpos.1, Nat.le_refl _, rfl, hbs, fun n' hlt hle => absurd hle (Nat.not_le_of_lt hlt)⟩
  exact Nat.not_le_of_lt hpos.2 (htrue _ bs hfound).within

theorem not_collides (hsize : WellSized inserts) (hover : ¬ Overshoots inserts q)
    (htrue : ∀ m bs, ((cacheOf inserts).lookup q).1 = some (m, bs) → TruePrefix inserts q m bs) :
    ¬ Collides inserts q := by
  intro h
  obtain ⟨n, bs, hpos, hn, hbs, hlonger, hnot⟩ := h
  have hle : n ≤ divCeilBlocks q.length := by
    rw [le_divCeilBlocks hpos]
    simp only [BLOCK_SIZE] at hn ⊢
    omega
  have hfound := (lookup_iff inserts q _ bs).mpr ⟨n, hpos, hle, rfl, hbs,
    none_up_to hover fun n' hlt hin => firstUnder_eq_none.mpr (hlonger n' hlt hin)⟩
  have hp := htrue _ bs hfound
  obtain ⟨x, hx, htake, hblocks⟩ := hp.inserted
  have hlen : bs.length = n := Nat.eq_of_mul_eq_mul_right blockSize_pos hp.blocks
  have hin := inserted_of_prefix hx (hsize x hx) hpos hn htake
  rw [← hlen, hblocks, hlen] at hin
  exact hnot hin

/-- **When hits are true prefixes.** After any inserts, every hit of a query is a true
prefix exactly when the query does not end inside a block at an inserted prefix, and
what came first under the hash of the prefix that is found are its own blocks. -/
theorem lookup_truePrefix_iff (inserts : List Insert) (q : List Token)
    (hsize : WellSized inserts) :
    (∀ m bs, ((cacheOf inserts).lookup q).1 = some (m, bs) → TruePrefix inserts q m bs) ↔
      ¬ Overshoots inserts q ∧ ¬ Collides inserts q := by
  constructor
  · intro htrue
    have hover := not_overshoots htrue
    exact ⟨hover, not_collides hsize hover htrue⟩
  · rintro ⟨hover, hcoll⟩ m bs hfound
    obtain ⟨n, hpos, hle, rfl, hbs, hlonger⟩ := (lookup_iff inserts q m bs).mp hfound
    have hin : n * BLOCK_SIZE ≤ q.length := by
      by_contra hgt
      have hgt := Nat.lt_of_not_le hgt
      rw [take_beyond hgt] at hbs
      obtain ⟨k, hk, he, -⟩ := firstUnder_mem hbs
      exact hover ⟨beyond hpos hle hgt, k, hk, he⟩
    have hinside : ∀ n', n < n' → n' * BLOCK_SIZE ≤ q.length →
        firstUnder inserts (hashTokens (q.take (n' * BLOCK_SIZE))) = none := by
      intro n' hlt hn'
      refine hlonger n' hlt ?_
      rw [le_divCeilBlocks (Nat.zero_lt_of_lt hlt)]
      simp only [BLOCK_SIZE] at hn' ⊢
      omega
    refine truePrefix_of_inserted hsize hpos hin hinside ?_
    by_contra hnot
    exact hcoll ⟨n, bs, hpos, hin, hbs,
      fun n' hlt hn' => firstUnder_eq_none.mp (hinside n' hlt hn'), hnot⟩

/-- Two blocks of a longer prompt. -/
theorem lookup_truePrefix_longerPrompt :
    let inserts : List Insert := [((List.range 32).map UInt32.ofNat, [10, 20])]
    let q : List Token := (List.range 40).map UInt32.ofNat
    ((cacheOf inserts).lookup q).1 = some (32, [10, 20]) ∧
    ((∀ m bs, ((cacheOf inserts).lookup q).1 = some (m, bs) → TruePrefix inserts q m bs) ↔
      ¬ Overshoots inserts q ∧ ¬ Collides inserts q) :=
  ⟨by decide +kernel, lookup_truePrefix_iff _ _ fun x hx => by rw [List.mem_singleton.mp hx]; rfl⟩

/-- Sixteen tokens, and sixteen others with the same hash. -/
def twins : List Token × List Token :=
  (2216829733 :: List.replicate 15 0, 316529882 :: 2499804749 :: List.replicate 14 0)

/-- Three tokens are found to match sixteen, and a prompt is given the blocks of
another one. -/
theorem lookup_false_prefix :
    ((cacheOf [([0, 1, 2], [1])]).lookup [0, 1, 2]).1 = some (16, [1]) ∧
    ((cacheOf [(twins.1, [1])]).lookup twins.2).1 = some (16, [1]) ∧
    (¬ ∀ m bs, ((cacheOf [([0, 1, 2], [1])]).lookup [0, 1, 2]).1 = some (m, bs) →
      TruePrefix [([0, 1, 2], [1])] [0, 1, 2] m bs) ∧
    ¬ ∀ m bs, ((cacheOf [(twins.1, [1])]).lookup twins.2).1 = some (m, bs) →
      TruePrefix [(twins.1, [1])] twins.2 m bs := by
  have hpart : ((cacheOf [([0, 1, 2], [1])]).lookup [0, 1, 2]).1 = some (16, [1]) := by
    decide +kernel
  have htwin : ((cacheOf [(twins.1, [1])]).lookup twins.2).1 = some (16, [1]) := by
    decide +kernel
  refine ⟨hpart, htwin, fun hall => ?_, fun hall => ?_⟩
  · exact absurd (hall 16 [1] hpart).within (by decide)
  · obtain ⟨x, hx, htake, -⟩ := (hall 16 [1] htwin).inserted
    rw [List.mem_singleton.mp hx] at htake
    exact absurd htake (by decide)

end JustApi.Inference.HashPrefixCache
