import JustApi.Inference.KvExclusivity

/-! # The clock sweep

When an allocation fails, and which block it evicts. In every run of the pool's
operations the hand points into the pool and the free list names its blocks, so one
sweep probes every block once, beginning at the hand. -/
namespace JustApi.Inference.ClockSweep
open JustApi.Lib.Run JustApi.Lib.Result JustApi.Inference.KvCache
open JustApi.Inference.KvExclusivity (Op)
open KvBlockPool

/-- A call of the pool; one that breaks an assert ends the run. -/
def exec (p : KvBlockPool) : Op → Except Panic KvBlockPool
  | .alloc => p.alloc.map Prod.snd
  | .retain b => p.retain b
  | .reclaim b => p.reclaim b
  | .release b hash => p.release b hash
  | .freeCached b => p.freeCached b
  | .pin b => p.pin b
  | .unpin b => p.unpin b
  | .evict target => .ok (p.evict target).2

def Step (p : KvBlockPool) (op : Op) (q : KvBlockPool) : Prop := exec p op = .ok q

/-- The block is the first evictable one at or after the hand, in cyclic order. -/
def FirstEvictable (p : KvBlockPool) (b : BlockId) : Prop :=
  ∃ offset < p.capacity, (p.clockHand + offset) % p.capacity = b ∧ p.evictable b = true ∧
    ∀ o < offset, p.evictable ((p.clockHand + o) % p.capacity) = false

/-- The hand and the free list stay within the pool. -/
structure Placed (p : KvBlockPool) : Prop where
  hand : p.clockHand < p.capacity
  free : ∀ b ∈ p.free, b < p.capacity

variable {p q : KvBlockPool} {b : BlockId}

/-! ## One sweep -/

/-- The sweep takes the first evictable block and leaves the hand just past it. -/
theorem evictOne_first (h : p.evictOne = (some b, q)) : FirstEvictable p b ∧
    q.clockHand = (b + 1) % p.capacity ∧ q.capacity = p.capacity ∧
    ∀ c, c ≠ b → q.metas[c]? = p.metas[c]? := by
  unfold evictOne at h
  split at h
  · cases h
  rename_i idx hfind
  cases h
  obtain ⟨hev, before, after, horder, hskip⟩ := List.find?_eq_some_iff_append.mp hfind
  have hprobe : ∀ o c, p.clockOrder[o]? = some c →
      o < p.capacity ∧ (p.clockHand + o) % p.capacity = c := by
    intro o c ho
    obtain ⟨hlt, hget⟩ := List.getElem?_eq_some_iff.mp ho
    simp [clockOrder] at hlt hget
    exact ⟨hlt, hget⟩
  refine ⟨?_, rfl, capacity_setMeta p b BlockMeta.new, ?_⟩
  · obtain ⟨hlt, hb⟩ := hprobe before.length b (by simp [horder])
    refine ⟨before.length, hlt, hb, hev, fun o ho => ?_⟩
    have hget : p.clockOrder[o]? = some before[o] := by
      rw [horder, List.getElem?_append_left ho, List.getElem?_eq_getElem ho]
    rw [(hprobe o _ hget).2]
    simpa using hskip _ (List.getElem_mem ho)
  · intro c hc
    exact List.getElem?_set_ne (Ne.symm hc)

theorem evictOne_none_eq (h : p.evictOne = (none, q)) :
    q.metas = p.metas ∧ q.free = p.free ∧ q.clockHand = p.clockHand % p.capacity := by
  unfold evictOne at h
  split at h
  · cases h
    exact ⟨rfl, rfl, rfl⟩
  · cases h

theorem FirstEvictable.lt (h : FirstEvictable p b) : b < p.capacity := by
  obtain ⟨offset, hlt, rfl, -⟩ := h
  exact Nat.mod_lt _ (by omega)

theorem Placed.evictOne (h : Placed p) : Placed p.evictOne.2 := by
  cases he : p.evictOne with
  | mk r q =>
    have hpos : 0 < p.capacity := Nat.lt_of_le_of_lt (Nat.zero_le _) h.hand
    cases r with
    | none =>
      obtain ⟨hmetas, hfree, hhand⟩ := evictOne_none_eq he
      have hcap : q.capacity = p.capacity := congrArg List.length hmetas
      refine ⟨?_, ?_⟩
      · rw [hhand, hcap]
        exact Nat.mod_lt _ hpos
      · rw [hfree, hcap]
        exact h.free
    | some b =>
      obtain ⟨hfirst, hhand, hcap, -⟩ := evictOne_first he
      obtain ⟨-, -, hv, -⟩ := evictOne_some he
      have hfree : q.free = b :: p.free := congrArg View.free hv
      refine ⟨?_, ?_⟩
      · rw [hhand, hcap]
        exact Nat.mod_lt _ hpos
      · rw [hfree, hcap]
        intro c hc
        rcases List.mem_cons.mp hc with rfl | hc
        · exact hfirst.lt
        · exact h.free c hc

theorem Placed.evictLoop (h : Placed p) (target : Nat) : Placed (evictLoop target p).2 := by
  induction target generalizing p with
  | zero => exact h
  | succ target ih =>
    have hone := h.evictOne
    cases he : p.evictOne with
    | mk r q =>
      rw [he] at hone
      cases r with
      | none => simpa [KvBlockPool.evictLoop, he] using hone
      | some b => simpa [KvBlockPool.evictLoop, he] using ih hone

/-- Only blocks that nobody references or pins are evicted. -/
theorem evictLoop_evictable (target : Nat) (p : KvBlockPool) :
    ∀ b ∈ (evictLoop target p).1, p.refCount b = 0 ∧ p.pinned b = false := by
  induction target generalizing p with
  | zero => intro b hb; cases hb
  | succ target ih =>
    cases he : p.evictOne with
    | mk r q =>
      cases r with
      | none => simp [KvBlockPool.evictLoop, he]
      | some b =>
        obtain ⟨-, -, hv, -⟩ := evictOne_some he
        obtain ⟨⟨-, -, -, hev, -⟩, -⟩ := evictOne_first he
        have hrc : q.refCount = p.refCount := congrArg View.refCount hv
        have hpin : q.pinned = p.pinned := congrArg View.pinned hv
        intro c hc
        simp only [KvBlockPool.evictLoop, he, List.mem_cons] at hc
        rcases hc with rfl | hc
        · exact evictable_iff.mp hev
        · simpa only [hrc, hpin] using ih q c hc

/-! ## The pool in a run -/

theorem placed_new (capacity : Nat) : Placed (.new capacity) := by
  have hcap : (KvBlockPool.new capacity).capacity = min (max capacity 1) MAX_BLOCKS := by
    simp [KvBlockPool.new, KvBlockPool.capacity]
  refine ⟨?_, ?_⟩
  · rw [hcap]
    show 0 < min (max capacity 1) MAX_BLOCKS
    simp [MAX_BLOCKS]
  · intro b hb
    rw [hcap]
    simpa [KvBlockPool.new] using hb

/-- An operation that leaves the hand, with the table it makes. -/
theorem Placed.same (h : Placed p) (hhand : q.clockHand = p.clockHand)
    (hcap : q.capacity = p.capacity) (hfree : ∀ b ∈ q.free, b ∈ p.free ∨ b < p.capacity) :
    Placed q where
  hand := by rw [hhand, hcap]; exact h.hand
  free b hb := by
    rw [hcap]
    rcases hfree b hb with hb | hb
    · exact h.free b hb
    · exact hb

theorem handOut_hand {r : Option BlockId} (h : p.handOut b = .ok (r, q)) :
    q.clockHand = p.clockHand ∧ q.free = p.free ∧ q.capacity = p.capacity ∧
      ∀ c, c ≠ b → q.metas[c]? = p.metas[c]? := by
  obtain ⟨-, m, -, -, hk⟩ := withMeta_ok h
  cases hk
  exact ⟨rfl, rfl, capacity_setMeta p b _, fun c hc => List.getElem?_set_ne (Ne.symm hc)⟩

/-- The three ways an allocation can go, with the hand and the table. -/
theorem alloc_spec (h : Placed p) : ∃ r q, p.alloc = .ok (r, q) ∧ Placed q ∧
    ((∃ b rest, p.free = b :: rest ∧ r = some b) ∨
      (p.free = [] ∧ p.evictOrder = [] ∧ r = none ∧ q.metas = p.metas) ∨
      (∃ b, p.free = [] ∧ p.evictOrder ≠ [] ∧ r = some b ∧ FirstEvictable p b ∧
        q.clockHand = (b + 1) % p.capacity ∧ ∀ c, c ≠ b → q.metas[c]? = p.metas[c]?)) := by
  cases hf : p.free with
  | cons b rest =>
    have hb : b < ({ p with free := rest } : KvBlockPool).capacity := h.free b (by simp [hf])
    obtain ⟨q, hq⟩ := handOut_succeeds hb
    obtain ⟨hhand, hfree, hcap, -⟩ := handOut_hand hq
    refine ⟨some b, q, by simp [alloc, hf, hq], h.same hhand hcap ?_, .inl ⟨b, rest, rfl, rfl⟩⟩
    intro c hc
    rw [hfree] at hc
    exact .inl (by simp [hf, show c ∈ rest from hc])
  | nil =>
    have hone := h.evictOne
    cases he : p.evictOne with
    | mk r p' =>
      rw [he] at hone
      cases r with
      | none =>
        exact ⟨none, p', by simp [alloc, hf, he], hone,
          .inr (.inl ⟨rfl, (evictOne_none he).2, rfl, (evictOne_none_eq he).1⟩)⟩
      | some b =>
        obtain ⟨hfirst, hhand, hcap, hmetas⟩ := evictOne_first he
        obtain ⟨-, -, -, rest, horder, -⟩ := evictOne_some he
        obtain ⟨q, hq⟩ := handOut_succeeds (p := p') (b := b) (hcap ▸ hfirst.lt)
        obtain ⟨hhand', hfree', hcap', hmetas'⟩ := handOut_hand hq
        refine ⟨some b, q, by simp [alloc, hf, he, hq], hone.same hhand' hcap' ?_,
          .inr (.inr ⟨b, rfl, by simp [horder], rfl, hfirst, hhand'.trans hhand, ?_⟩)⟩
        · intro c hc
          exact .inl (hfree' ▸ hc)
        · intro c hc
          rw [hmetas' c hc, hmetas c hc]

theorem placed_step (h : Placed p) {op : Op} (hs : Step p op q) : Placed q := by
  -- the operations on one block do not move the hand
  have single : ∀ b m, (p.setMeta b m).capacity = p.capacity := capacity_setMeta p
  cases op with
  | alloc =>
    obtain ⟨r, q', ha, hq', -⟩ := alloc_spec h
    simp only [Step, exec, ha, Except.map, Except.ok.injEq] at hs
    exact hs ▸ hq'
  | retain b =>
    obtain ⟨-, m, -, -, hk⟩ := withMeta_ok hs
    split at hk <;> cases hk
    exact h.same rfl (single b _) fun _ hc => .inl hc
  | reclaim b =>
    obtain ⟨-, m, -, -, hk⟩ := withMeta_ok hs
    split at hk <;> cases hk
    exact h.same rfl (single b _) fun _ hc => .inl hc
  | release b hash =>
    obtain ⟨-, m, -, -, hk⟩ := withMeta_ok hs
    split at hk
    · split at hk <;> cases hk
      · exact h.same rfl (single b _) fun _ hc => .inl hc
      · exact h.same rfl (single b _) fun _ hc => .inl hc
    · cases hk
  | freeCached b =>
    obtain ⟨hb, m, -, -, hk⟩ := withMeta_ok hs
    split at hk <;> cases hk
    refine h.same rfl (single b _) fun c hc => ?_
    rcases List.mem_cons.mp hc with rfl | hc
    · exact .inr hb
    · exact .inl hc
  | pin b =>
    obtain ⟨-, m, -, -, hk⟩ := withMeta_ok hs
    cases hk
    exact h.same rfl (single b _) fun _ hc => .inl hc
  | unpin b =>
    obtain ⟨-, m, -, -, hk⟩ := withMeta_ok hs
    cases hk
    exact h.same rfl (single b _) fun _ hc => .inl hc
  | evict target =>
    cases hs
    exact h.evictLoop target

theorem no_evictable_iff : p.evictOrder = [] ↔
    ∀ b < p.capacity, 0 < p.refCount b ∨ p.pinned b = true := by
  rw [evictOrder_eq_nil_iff]
  refine forall₂_congr fun b _ => ?_
  cases hrc : p.refCount b <;> simp

/-- **Allocation fails only when it must.** In every state of every run that breaks no
assert: `alloc` returns nothing exactly when the free list is empty and every block is
referenced or pinned, and then changes no block; when it evicts, it takes the first
evictable block at or after the hand in cyclic order, leaves the hand just past it and
changes no other block; and so does every turn of `evict`, which therefore never takes
a block in use or pinned. -/
theorem alloc_fails_only_when_it_must (capacity : Nat) (tr : List (Op × KvBlockPool))
    (hrun : Along Step (.new capacity) tr) : ∀ p ∈ visited (.new capacity) tr,
    (∃ r q, p.alloc = .ok (r, q) ∧
      (r = none ↔ p.free = [] ∧ ∀ b < p.capacity, 0 < p.refCount b ∨ p.pinned b = true) ∧
      (r = none → q.metas = p.metas) ∧
      (p.free = [] → ∀ b, r = some b → FirstEvictable p b ∧
        q.clockHand = (b + 1) % p.capacity ∧ ∀ c, c ≠ b → q.metas[c]? = p.metas[c]?)) ∧
    (∀ b q, p.evictOne = (some b, q) → FirstEvictable p b ∧ q.clockHand = (b + 1) % p.capacity) ∧
    (∀ target, ∀ b ∈ (evictLoop target p).1, p.refCount b = 0 ∧ p.pinned b = false) := by
  intro p hp
  have h : Placed p :=
    hrun.invariant (I := Placed) (fun _ _ _ h hs => placed_step h hs) (placed_new capacity) p hp
  refine ⟨?_, fun b q he => ?_, fun target => evictLoop_evictable target p⟩
  · obtain ⟨r, q, ha, -, hcases⟩ := alloc_spec h
    refine ⟨r, q, ha, ?_⟩
    rw [← no_evictable_iff]
    rcases hcases with ⟨b, rest, hf, rfl⟩ | ⟨hf, ho, rfl, hm⟩ | ⟨b, hf, ho, rfl, hfirst⟩
    · simp [hf]
    · simp [hf, ho, hm]
    · simpa [hf, ho] using hfirst
  · obtain ⟨hfirst, hhand, -⟩ := evictOne_first he
    exact ⟨hfirst, hhand⟩

/-- A pool of two: both blocks in use, then one released and taken again. -/
theorem alloc_fails_only_when_it_must_full_pool :
    ∃ tr : List (Op × KvBlockPool), tr.map Prod.fst = [.alloc, .alloc, .alloc, .release 1 7] ∧
      (tr.map fun e => (e.2.alloc.toOption.map Prod.fst).join) = [some 1, none, none, some 1] ∧
      ∀ p ∈ visited (.new 2) tr, ∃ r q, p.alloc = .ok (r, q) ∧
        (r = none ↔ p.free = [] ∧ ∀ b < p.capacity, 0 < p.refCount b ∨ p.pinned b = true) := by
  obtain ⟨tr, hrun, hops, hgets⟩ : ∃ tr, Along Step (.new 2) tr ∧
      tr.map Prod.fst = [.alloc, .alloc, .alloc, .release 1 7] ∧
      (tr.map fun e => (e.2.alloc.toOption.map Prod.fst).join) = [some 1, none, none, some 1] :=
    ⟨[(.alloc, _), (.alloc, _), (.alloc, _), (.release 1 7, _)], ⟨rfl, rfl, rfl, rfl, trivial⟩,
      rfl, rfl⟩
  refine ⟨tr, hops, hgets, fun p hp => ?_⟩
  obtain ⟨⟨r, q, ha, hiff, -⟩, -⟩ := alloc_fails_only_when_it_must 2 tr hrun p hp
  exact ⟨r, q, ha, hiff⟩

end JustApi.Inference.ClockSweep
