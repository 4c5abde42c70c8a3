import JustApi.Inference.RadixEntries

/-! # Who owns a block

The scheduler moves blocks between the free list, running sequences and the
prefix cache. `Ledger` is what it keeps about them, `Apart` says that free, held
and cached blocks do not get in each other's way, and each movement of blocks is a
show of the ledger that keeps it so. `Owned` adds that no block is left for the
pool's own sweep, which every movement keeps as well but one: a sequence handed over
to another scheduler leaves its blocks unpinned. -/
namespace JustApi.Inference.BlockLedger
open JustApi.Inference.KvCache JustApi.Inference.RadixCache JustApi.Inference.RadixEntries
open Function (update)

/-- `f` with the value `x` on all of `bs`. -/
def setOn {β : Type} (bs : List BlockId) (x : β) (f : BlockId → β) : BlockId → β :=
  fun b => if b ∈ bs then x else f b

section SetOn

variable {β : Type} {bs : List BlockId} {b : BlockId} {x : β} {f : BlockId → β}

@[simp] theorem setOn_nil : setOn [] x f = f := by
  funext c
  simp [setOn]

theorem setOn_mem (h : b ∈ bs) : setOn bs x f b = x := if_pos h

theorem setOn_notMem (h : b ∉ bs) : setOn bs x f b = f b := if_neg h

theorem setOn_cons : setOn (b :: bs) x f = setOn bs x (update f b x) := by
  funext c
  by_cases hc : c ∈ bs
  · rw [setOn_mem hc, setOn_mem (List.mem_cons_of_mem _ hc)]
  · by_cases hcb : c = b
    · subst hcb
      rw [setOn_notMem hc, Function.update_self, setOn_mem List.mem_cons_self]
    · rw [setOn_notMem hc, Function.update_of_ne hcb, setOn_notMem (by simp [hc, hcb])]

/-- Setting what is set already changes nothing. -/
theorem setOn_eq_self (h : ∀ c ∈ bs, f c = x) : setOn bs x f = f := by
  funext c
  by_cases hc : c ∈ bs
  · rw [setOn_mem hc, h c hc]
  · rw [setOn_notMem hc]

end SetOn

/-- The block table with the live references of the prefix cache. -/
structure Ledger where
  view : View
  refs : BlockId → Nat

/-- A prompt with the blocks it holds, in position order. -/
abbrev Holder := List Token × List BlockId

/-- The blocks of all holders. -/
def heldBlocks (hs : List Holder) : List BlockId := hs.flatMap Prod.snd

@[simp] theorem heldBlocks_cons (h : Holder) (hs : List Holder) :
    heldBlocks (h :: hs) = h.2 ++ heldBlocks hs := rfl

/-- The blocks a cached tree stands for. -/
def treeBlocks (es : List Entry) : List BlockId := es.map Prod.snd

theorem mem_treeBlocks {es : List Entry} {b : BlockId} :
    b ∈ treeBlocks es ↔ ∃ p, (p, b) ∈ es := by
  simp [treeBlocks]

/-- Free, held and cached blocks are told apart: free blocks are unused, a cached
block has one reference while a live sequence uses it and none otherwise, and a held
block that is cached sits where the holder's own prompt has it. -/
structure Apart (l : Ledger) (es : List Entry) (hs : List Holder) : Prop where
  freeNodup : l.view.free.Nodup
  free : ∀ b ∈ l.view.free,
    b < l.view.capacity ∧ l.view.refCount b = 0 ∧ l.view.pinned b = false
  treeNodup : (treeBlocks es).Nodup
  tree : ∀ b ∈ treeBlocks es,
    b < l.view.capacity ∧ b ∉ l.view.free ∧ l.view.refCount b = l.refs b
  refs : ∀ b, l.refs b ≠ 0 → l.refs b = 1 ∧ b ∈ treeBlocks es
  heldNodup : (heldBlocks hs).Nodup
  held : ∀ b ∈ heldBlocks hs, b < l.view.capacity ∧ l.view.refCount b = 1
  path : ∀ h ∈ hs, ∀ (j : Nat) (b : BlockId), h.2[j]? = some b → b ∈ treeBlocks es →
    (j + 1) * BLOCK_SIZE ≤ h.1.length ∧ (h.1.take ((j + 1) * BLOCK_SIZE), b) ∈ es

/-- Blocks move freely between the free list, the holders `hs` and the cached
entries `es`: free blocks are unused, what the sweep could take is free already,
a cached block has one reference while a live sequence uses it and none otherwise,
and a held block that is cached sits where the holder's own prompt has it. -/
structure Owned (l : Ledger) (es : List Entry) (hs : List Holder) : Prop where
  freeNodup : l.view.free.Nodup
  free : ∀ b ∈ l.view.free,
    b < l.view.capacity ∧ l.view.refCount b = 0 ∧ l.view.pinned b = false
  unused : ∀ b < l.view.capacity, l.view.refCount b = 0 →
    b ∈ l.view.free ∨ l.view.pinned b = true
  treeNodup : (treeBlocks es).Nodup
  tree : ∀ b ∈ treeBlocks es,
    b < l.view.capacity ∧ b ∉ l.view.free ∧ l.view.refCount b = l.refs b
  refs : ∀ b, l.refs b ≠ 0 → l.refs b = 1 ∧ b ∈ treeBlocks es
  heldNodup : (heldBlocks hs).Nodup
  held : ∀ b ∈ heldBlocks hs, b < l.view.capacity ∧ l.view.refCount b = 1
  path : ∀ h ∈ hs, ∀ (j : Nat) (b : BlockId), h.2[j]? = some b → b ∈ treeBlocks es →
    (j + 1) * BLOCK_SIZE ≤ h.1.length ∧ (h.1.take ((j + 1) * BLOCK_SIZE), b) ∈ es

theorem Owned.apart {l : Ledger} {es : List Entry} {hs : List Holder} (h : Owned l es hs) :
    Apart l es hs :=
  ⟨h.freeNodup, h.free, h.treeNodup, h.tree, h.refs, h.heldNodup, h.held, h.path⟩

theorem Apart.owned {l : Ledger} {es : List Entry} {hs : List Holder} (h : Apart l es hs)
    (hunused : ∀ b < l.view.capacity, l.view.refCount b = 0 →
      b ∈ l.view.free ∨ l.view.pinned b = true) : Owned l es hs :=
  ⟨h.freeNodup, h.free, hunused, h.treeNodup, h.tree, h.refs, h.heldNodup, h.held, h.path⟩

namespace Apart

variable {l : Ledger} {es es' : List Entry} {hs hs' : List Holder} {prompt : List Token}
  {bs : List BlockId} {b : BlockId}

theorem perm (h : Apart l es hs) (hp : es'.Perm es) : Apart l es' hs := by
  have hmem : ∀ b, b ∈ treeBlocks es' ↔ b ∈ treeBlocks es := fun b => (hp.map _).mem_iff
  refine ⟨h.freeNodup, h.free, (hp.map _).nodup_iff.mpr h.treeNodup, ?_, ?_, h.heldNodup, h.held, ?_⟩
  · exact fun b hb => h.tree b ((hmem b).mp hb)
  · exact fun b hb => ⟨(h.refs b hb).1, (hmem b).mpr (h.refs b hb).2⟩
  · intro hd hhd j b hj hb
    obtain ⟨hle, he⟩ := h.path hd hhd j b hj ((hmem b).mp hb)
    exact ⟨hle, hp.mem_iff.mpr he⟩

/-- The order of the holders does not matter. -/
theorem permHolders (h : Apart l es hs) (hp : hs'.Perm hs) : Apart l es hs' :=
  ⟨h.freeNodup, h.free, h.treeNodup, h.tree, h.refs,
    (hp.flatMap_right _).nodup_iff.mpr h.heldNodup,
    fun b hb => h.held b ((hp.flatMap_right _).mem_iff.mp hb),
    fun hd hhd => h.path hd (hp.mem_iff.mp hhd)⟩

/-- A holder may be forgotten; its blocks then stay referenced for good. -/
theorem forget {hd : Holder} (h : Apart l es (hd :: hs)) : Apart l es hs :=
  ⟨h.freeNodup, h.free, h.treeNodup, h.tree, h.refs,
    (List.nodup_append'.mp h.heldNodup).2.1,
    fun b hb => h.held b (List.mem_append_right _ hb),
    fun hd' hhd' => h.path hd' (List.mem_cons_of_mem _ hhd')⟩

/-- A sequence starts with no blocks. -/
theorem start (h : Apart l es hs) (prompt : List Token) : Apart l es ((prompt, []) :: hs) :=
  ⟨h.freeNodup, h.free, h.treeNodup, h.tree, h.refs, h.heldNodup, h.held,
    fun hd hhd j b hj => by
      rcases List.mem_cons.mp hhd with rfl | hhd
      · simp at hj
      · exact h.path hd hhd j b hj⟩

/-- A block has one entry in the tree. -/
theorem entry_unique (h : (treeBlocks es).Nodup) {p q : List Token} (hp : (p, b) ∈ es)
    (hq : (q, b) ∈ es) : p = q :=
  congrArg Prod.fst (List.inj_on_of_nodup_map h hp hq rfl)

theorem free_not_held (h : Apart l es hs) (hb : b ∈ l.view.free) : b ∉ heldBlocks hs := by
  intro hh
  have := (h.free b hb).2.1
  rw [(h.held b hh).2] at this
  cases this

end Apart

/-! ## Movements of blocks -/

namespace Ledger

/-- A sequence takes cached blocks over. -/
def restore (l : Ledger) (bs : List BlockId) : Ledger :=
  ⟨{ l.view with refCount := setOn bs 1 l.view.refCount, pinned := setOn bs false l.view.pinned },
    setOn bs 1 l.refs⟩

/-- The top of the free list is handed out. -/
def handOut (l : Ledger) (b : BlockId) (rest : List BlockId) : Ledger :=
  { l with view := { l.view with free := rest, refCount := update l.view.refCount b 1 } }

/-- Cached blocks go back to the free list. -/
def giveBack (l : Ledger) (bs : List BlockId) : Ledger :=
  ⟨{ l.view with free := bs.reverse ++ l.view.free, pinned := setOn bs false l.view.pinned },
    setOn bs 0 l.refs⟩

/-- A sequence leaves blocks to the cache. -/
def settle (l : Ledger) (bs : List BlockId) : Ledger :=
  ⟨{ l.view with refCount := setOn bs 0 l.view.refCount, pinned := setOn bs true l.view.pinned },
    setOn bs 0 l.refs⟩

/-- A sequence is handed over and its blocks stay behind, unreferenced. -/
def vacate (l : Ledger) (bs : List BlockId) : Ledger :=
  ⟨{ l.view with refCount := setOn bs 0 l.view.refCount }, setOn bs 0 l.refs⟩

end Ledger

/-- The blocks the tree has along a prompt, in position order. -/
def OnPath (es : List Entry) (prompt : List Token) (bs : List BlockId) : Prop :=
  ∀ (j : Nat) (b : BlockId), bs[j]? = some b →
    (j + 1) * BLOCK_SIZE ≤ prompt.length ∧ (prompt.take ((j + 1) * BLOCK_SIZE), b) ∈ es

section OnPath

variable {es : List Entry} {prompt : List Token} {bs : List BlockId} {b : BlockId}

theorem OnPath.mem (h : OnPath es prompt bs) (hb : b ∈ bs) : b ∈ treeBlocks es := by
  obtain ⟨j, hj⟩ := List.mem_iff_getElem?.mp hb
  exact mem_treeBlocks.mpr ⟨_, (h j b hj).2⟩

/-- OnPath a prompt no block comes twice: its two places have paths of different
lengths. -/
theorem OnPath.nodup (hnd : (treeBlocks es).Nodup) (h : OnPath es prompt bs) : bs.Nodup := by
  rw [List.nodup_iff_injective_getElem]
  intro i j hij
  have hij : bs[(i : Nat)] = bs[(j : Nat)] := hij
  obtain ⟨hi, hie⟩ := h i bs[(i : Nat)] (List.getElem?_eq_getElem i.2)
  obtain ⟨hj, hje⟩ := h j bs[(j : Nat)] (List.getElem?_eq_getElem j.2)
  rw [← hij] at hje
  have hpath := Apart.entry_unique hnd hie hje
  have hlen := congrArg List.length hpath
  rw [List.length_take, List.length_take, Nat.min_eq_left hi, Nat.min_eq_left hj] at hlen
  have := Nat.eq_of_mul_eq_mul_right blockSize_pos hlen
  exact Fin.ext (by omega)

end OnPath

namespace Apart

variable {l : Ledger} {es es' gone : List Entry} {hs : List Holder} {prompt : List Token}
  {bs rest : List BlockId} {b : BlockId}

theorem restore (h : Apart l es hs) (ha : OnPath es prompt bs) (hz : ∀ b ∈ bs, l.refs b = 0) :
    Apart (l.restore bs) es ((prompt, bs) :: hs) := by
  have hzero : ∀ b ∈ bs, l.view.refCount b = 0 := fun b hb =>
    (h.tree b (OnPath.mem ha hb)).2.2.trans (hz b hb)
  have hfree : ∀ b ∈ l.view.free, b ∉ bs := fun b hb hbs =>
    (h.tree b (OnPath.mem ha hbs)).2.1 hb
  refine ⟨h.freeNodup, ?_, h.treeNodup, ?_, ?_, ?_, ?_, ?_⟩
  · intro b hb
    simp only [Ledger.restore, setOn_notMem (hfree b hb)]
    exact h.free b hb
  · intro b hb
    refine ⟨(h.tree b hb).1, (h.tree b hb).2.1, ?_⟩
    by_cases hbs : b ∈ bs
    · simp only [Ledger.restore, setOn_mem hbs]
    · simp only [Ledger.restore, setOn_notMem hbs]
      exact (h.tree b hb).2.2
  · intro b hb
    by_cases hbs : b ∈ bs
    · exact ⟨setOn_mem hbs, OnPath.mem ha hbs⟩
    · simp only [Ledger.restore, setOn_notMem hbs] at hb ⊢
      exact h.refs b hb
  · refine List.nodup_append'.mpr ⟨OnPath.nodup h.treeNodup ha, h.heldNodup, fun b hb hh => ?_⟩
    have := (h.held b hh).2
    rw [hzero b hb] at this
    cases this
  · intro b hb
    by_cases hbs : b ∈ bs
    · exact ⟨(h.tree b (OnPath.mem ha hbs)).1, setOn_mem hbs⟩
    · simp only [Ledger.restore, setOn_notMem hbs]
      exact h.held b ((List.mem_append.mp hb).resolve_left hbs)
  · intro hd hhd j b hj hb
    rcases List.mem_cons.mp hhd with rfl | hhd
    · exact ha j b hj
    · exact h.path hd hhd j b hj hb

theorem handOut (h : Apart l es ((prompt, bs) :: hs)) (hf : l.view.free = b :: rest) :
    Apart (l.handOut b rest) es ((prompt, bs ++ [b]) :: hs) := by
  have hnd := h.freeNodup
  rw [hf, List.nodup_cons] at hnd
  have hbfree : b ∈ l.view.free := hf ▸ List.mem_cons_self
  have hsub : ∀ c ∈ rest, c ∈ l.view.free := fun c hc => hf ▸ List.mem_cons_of_mem _ hc
  have htree : ∀ c ∈ treeBlocks es, c ≠ b := by
    rintro c hc rfl
    exact (h.tree c hc).2.1 hbfree
  have hheld := h.free_not_held hbfree
  refine ⟨hnd.2, ?_, h.treeNodup, ?_, h.refs, ?_, ?_, ?_⟩
  · intro c hc
    have hcb : c ≠ b := fun he => hnd.1 (he ▸ hc)
    simp only [Ledger.handOut, Function.update_of_ne hcb]
    exact h.free c (hsub c hc)
  · intro c hc
    obtain ⟨hlt, hnot, hrc⟩ := h.tree c hc
    refine ⟨hlt, fun hcr => hnot (hsub c hcr), ?_⟩
    simp only [Ledger.handOut, Function.update_of_ne (htree c hc)]
    exact hrc
  · rw [heldBlocks_cons, List.append_assoc]
    refine (List.perm_middle.nodup_iff).mpr (List.nodup_cons.mpr ⟨hheld, h.heldNodup⟩)
  · intro c hc
    by_cases hcb : c = b
    · subst hcb
      exact ⟨(h.free c hbfree).1, by simp [Ledger.handOut]⟩
    · simp only [Ledger.handOut, Function.update_of_ne hcb]
      refine h.held c ?_
      simpa [hcb] using hc
  · intro hd hhd j c hj hc
    rcases List.mem_cons.mp hhd with rfl | hhd
    · refine h.path (prompt, bs) List.mem_cons_self j c ?_ hc
      rcases Nat.lt_or_ge j bs.length with hlt | hge
      · simpa [List.getElem?_append_left hlt] using hj
      · exfalso
        have : c = b := by
          have hmem := List.mem_of_getElem? hj
          rw [List.getElem?_append_right hge] at hj
          simpa using List.mem_of_getElem? hj
        exact htree c hc this
    · exact h.path hd (List.mem_cons_of_mem _ hhd) j c hj hc

theorem giveBack (h : Apart l es hs) (hp : es.Perm (gone ++ es'))
    (hz : ∀ b ∈ treeBlocks gone, l.refs b = 0) : Apart (l.giveBack (treeBlocks gone)) es' hs := by
  have hpb : (treeBlocks es).Perm (treeBlocks gone ++ treeBlocks es') := by
    simpa [treeBlocks] using hp.map Prod.snd
  obtain ⟨hgone, hkept, hdisj⟩ := List.nodup_append'.mp (hpb.nodup_iff.mp h.treeNodup)
  have hg : ∀ b ∈ treeBlocks gone, b ∈ treeBlocks es := fun b hb =>
    hpb.mem_iff.mpr (List.mem_append_left _ hb)
  have hk : ∀ b ∈ treeBlocks es', b ∈ treeBlocks es := fun b hb =>
    hpb.mem_iff.mpr (List.mem_append_right _ hb)
  have hrefs : (l.giveBack (treeBlocks gone)).refs = l.refs := setOn_eq_self hz
  refine ⟨?_, ?_, hkept, ?_, ?_, h.heldNodup, h.held, ?_⟩
  · refine List.nodup_append'.mpr ⟨List.nodup_reverse.mpr hgone, h.freeNodup, fun b hb hbf => ?_⟩
    exact (h.tree b (hg b (List.mem_reverse.mp hb))).2.1 hbf
  · intro b hb
    by_cases hbg : b ∈ treeBlocks gone
    · obtain ⟨hlt, -, hrc⟩ := h.tree b (hg b hbg)
      exact ⟨hlt, hrc.trans (hz b hbg), setOn_mem hbg⟩
    · have hbf : b ∈ l.view.free := (List.mem_append.mp hb).resolve_left
        fun hr => hbg (List.mem_reverse.mp hr)
      simp only [Ledger.giveBack, setOn_notMem hbg]
      exact h.free b hbf
  · intro b hb
    obtain ⟨hlt, hnot, hrc⟩ := h.tree b (hk b hb)
    refine ⟨hlt, fun hm => ?_, by rw [hrefs]; exact hrc⟩
    rcases List.mem_append.mp hm with hm | hm
    · exact hdisj (List.mem_reverse.mp hm) hb
    · exact hnot hm
  · intro b hb
    rw [hrefs] at hb ⊢
    obtain ⟨h1, hm⟩ := h.refs b hb
    refine ⟨h1, (List.mem_append.mp (hpb.mem_iff.mp hm)).resolve_left fun hbg => ?_⟩
    rw [hz b hbg] at hb
    exact hb rfl
  · intro hd hhd j b hj hb
    obtain ⟨hle, he⟩ := h.path hd hhd j b hj (hk b hb)
    refine ⟨hle, (List.mem_append.mp (hp.mem_iff.mp he)).resolve_left fun hm => ?_⟩
    exact hdisj (List.mem_map_of_mem hm) hb

/-- The entries an insertion adds for a leaving sequence are of blocks that were
not in the tree, once the insertion skips all that is. -/
theorem fresh_notMem {blocks : List BlockId} {n k : Nat} (h : Apart l es ((prompt, blocks) :: hs))
    (hk : ∀ p b, (p, b) ∈ es → p <+: prompt.take (n * BLOCK_SIZE) → p.length ≤ k * BLOCK_SIZE)
    (hb : b ∈ (blocks.take n).drop k) : b ∉ treeBlocks es := by
  intro hm
  obtain ⟨i, hi⟩ := List.mem_iff_getElem?.mp hb
  rw [List.getElem?_drop, List.getElem?_take] at hi
  split at hi
  · rename_i hlt
    obtain ⟨hle, he⟩ := h.path (prompt, blocks) List.mem_cons_self (k + i) b hi hm
    have hin : (k + i + 1) * BLOCK_SIZE ≤ n * BLOCK_SIZE := Nat.mul_le_mul_right _ (by omega)
    have hlen := hk _ _ he (List.take_prefix_take_left hin)
    rw [List.length_take, Nat.min_eq_left hle] at hlen
    have := Nat.le_of_mul_le_mul_right hlen blockSize_pos
    omega
  · cases hi

theorem settle {blocks : List BlockId} {n k : Nat} (h : Apart l es ((prompt, blocks) :: hs))
    (hk : ∀ p b, (p, b) ∈ es → p <+: prompt.take (n * BLOCK_SIZE) → p.length ≤ k * BLOCK_SIZE) :
    Apart (l.settle (blocks.take n))
      (es ++ (blockPaths (prompt.take (n * BLOCK_SIZE)) (blocks.take n)).drop k) hs := by
  obtain ⟨hown, hothers, hdisj⟩ := List.nodup_append'.mp h.heldNodup
  have htree : treeBlocks (es ++ (blockPaths (prompt.take (n * BLOCK_SIZE)) (blocks.take n)).drop k) =
      treeBlocks es ++ (blocks.take n).drop k := by
    simp [treeBlocks]
  have hheld : ∀ b ∈ blocks.take n, b < l.view.capacity ∧ l.view.refCount b = 1 := fun b hb =>
    h.held b (List.mem_append_left _ (List.mem_of_mem_take hb))
  have hnotfree : ∀ b ∈ blocks.take n, b ∉ l.view.free := fun b hb hf =>
    h.free_not_held hf (List.mem_append_left _ (List.mem_of_mem_take hb))
  have hother : ∀ b ∈ heldBlocks hs, b ∉ blocks.take n := fun b hb hbn =>
    hdisj (List.mem_of_mem_take hbn) hb
  refine ⟨h.freeNodup, ?_, ?_, ?_, ?_, hothers, ?_, ?_⟩
  · intro b hb
    have hbn : b ∉ blocks.take n := fun hbn => hnotfree b hbn hb
    simp only [Ledger.settle, setOn_notMem hbn]
    exact h.free b hb
  · rw [htree]
    refine List.nodup_append'.mpr ⟨h.treeNodup, ?_, fun b hb hbn => h.fresh_notMem hk hbn hb⟩
    exact hown.sublist ((List.drop_sublist _ _).trans (List.take_sublist _ _))
  · rw [htree]
    intro b hb
    by_cases hbn : b ∈ blocks.take n
    · refine ⟨(hheld b hbn).1, hnotfree b hbn, ?_⟩
      simp only [Ledger.settle, setOn_mem hbn]
    · have hbt : b ∈ treeBlocks es :=
        (List.mem_append.mp hb).resolve_right fun hd => hbn (List.mem_of_mem_drop hd)
      simp only [Ledger.settle, setOn_notMem hbn]
      exact h.tree b hbt
  · rw [htree]
    intro b hb
    by_cases hbn : b ∈ blocks.take n
    · rw [show (l.settle (blocks.take n)).refs b = 0 from setOn_mem hbn] at hb
      exact absurd rfl hb
    · simp only [Ledger.settle, setOn_notMem hbn] at hb ⊢
      exact ⟨(h.refs b hb).1, List.mem_append_left _ (h.refs b hb).2⟩
  · intro b hb
    simp only [Ledger.settle, setOn_notMem (hother b hb)]
    exact h.held b (List.mem_append_right _ hb)
  · rw [htree]
    intro hd hhd j b hj hb
    have hbh : b ∈ heldBlocks hs := List.mem_flatMap.mpr ⟨hd, hhd, List.mem_of_getElem? hj⟩
    have hbt : b ∈ treeBlocks es :=
      (List.mem_append.mp hb).resolve_right fun hd' => hother b hbh (List.mem_of_mem_drop hd')
    obtain ⟨hle, he⟩ := h.path hd (List.mem_cons_of_mem _ hhd) j b hj hbt
    exact ⟨hle, List.mem_append_left _ he⟩

theorem vacate (h : Apart l es ((prompt, bs) :: hs)) : Apart (l.vacate bs) es hs := by
  obtain ⟨-, hothers, hdisj⟩ := List.nodup_append'.mp h.heldNodup
  have hother : ∀ b ∈ heldBlocks hs, b ∉ bs := fun b hb hbs => hdisj hbs hb
  refine ⟨h.freeNodup, ?_, h.treeNodup, ?_, ?_, hothers, ?_, h.forget.path⟩
  · intro b hb
    have hbs : b ∉ bs := fun hbs => h.free_not_held hb (List.mem_append_left _ hbs)
    simp only [Ledger.vacate, setOn_notMem hbs]
    exact h.free b hb
  · intro b hb
    refine ⟨(h.tree b hb).1, (h.tree b hb).2.1, ?_⟩
    by_cases hbs : b ∈ bs
    · simp only [Ledger.vacate, setOn_mem hbs]
    · simp only [Ledger.vacate, setOn_notMem hbs]
      exact (h.tree b hb).2.2
  · intro b hb
    by_cases hbs : b ∈ bs
    · exact absurd (setOn_mem hbs) hb
    · simp only [Ledger.vacate, setOn_notMem hbs] at hb ⊢
      exact h.refs b hb
  · intro b hb
    simp only [Ledger.vacate, setOn_notMem (hother b hb)]
    exact h.held b (List.mem_append_right _ hb)

end Apart

namespace Owned

variable {l : Ledger} {es es' gone : List Entry} {hs hs' : List Holder} {prompt : List Token}
  {bs rest : List BlockId} {b : BlockId}

theorem perm (h : Owned l es hs) (hp : es'.Perm es) : Owned l es' hs :=
  (h.apart.perm hp).owned h.unused

theorem permHolders (h : Owned l es hs) (hp : hs'.Perm hs) : Owned l es hs' :=
  (h.apart.permHolders hp).owned h.unused

theorem forget {hd : Holder} (h : Owned l es (hd :: hs)) : Owned l es hs :=
  h.apart.forget.owned h.unused

theorem start (h : Owned l es hs) (prompt : List Token) : Owned l es ((prompt, []) :: hs) :=
  (h.apart.start prompt).owned h.unused

theorem restore (h : Owned l es hs) (ha : OnPath es prompt bs) (hz : ∀ b ∈ bs, l.refs b = 0) :
    Owned (l.restore bs) es ((prompt, bs) :: hs) := by
  refine (h.apart.restore ha hz).owned fun b hlt h0 => ?_
  have hb : b ∉ bs := fun hb => by
    rw [show (l.restore bs).view.refCount b = 1 from setOn_mem hb] at h0
    cases h0
  simp only [Ledger.restore, setOn_notMem hb] at h0 ⊢
  exact h.unused b hlt h0

theorem handOut (h : Owned l es ((prompt, bs) :: hs)) (hf : l.view.free = b :: rest) :
    Owned (l.handOut b rest) es ((prompt, bs ++ [b]) :: hs) := by
  refine (h.apart.handOut hf).owned fun c hlt h0 => ?_
  by_cases hcb : c = b
  · subst hcb
    simp [Ledger.handOut] at h0
  · simp only [Ledger.handOut, Function.update_of_ne hcb] at h0 ⊢
    rcases h.unused c hlt h0 with hc | hc
    · rw [hf] at hc
      exact .inl ((List.mem_cons.mp hc).resolve_left hcb)
    · exact .inr hc

theorem giveBack (h : Owned l es hs) (hp : es.Perm (gone ++ es'))
    (hz : ∀ b ∈ treeBlocks gone, l.refs b = 0) : Owned (l.giveBack (treeBlocks gone)) es' hs := by
  refine (h.apart.giveBack hp hz).owned fun b hlt h0 => ?_
  by_cases hbg : b ∈ treeBlocks gone
  · exact .inl (List.mem_append_left _ (List.mem_reverse.mpr hbg))
  · simp only [Ledger.giveBack, setOn_notMem hbg]
    exact (h.unused b hlt h0).imp_left (List.mem_append_right _)

theorem settle {blocks : List BlockId} {n k : Nat} (h : Owned l es ((prompt, blocks) :: hs))
    (hk : ∀ p b, (p, b) ∈ es → p <+: prompt.take (n * BLOCK_SIZE) → p.length ≤ k * BLOCK_SIZE) :
    Owned (l.settle (blocks.take n))
      (es ++ (blockPaths (prompt.take (n * BLOCK_SIZE)) (blocks.take n)).drop k) hs := by
  refine (h.apart.settle hk).owned fun b hlt h0 => ?_
  by_cases hbn : b ∈ blocks.take n
  · exact .inr (setOn_mem hbn)
  · simp only [Ledger.settle, setOn_notMem hbn] at h0 ⊢
    exact h.unused b hlt h0

end Owned

/-! ## Nothing is lost -/

/-- Every block is free, held or cached, and live references are held ones. -/
structure Complete (l : Ledger) (es : List Entry) (hs : List Holder) : Prop where
  cover : ∀ b < l.view.capacity,
    b ∈ l.view.free ∨ b ∈ heldBlocks hs ∨ b ∈ treeBlocks es
  live : ∀ b, l.refs b ≠ 0 → b ∈ heldBlocks hs

/-- `Owned`, and `Complete` as well where `exact` asks for it. The movements of an
admission keep both; only a sequence that leaves or is dropped can lose blocks. -/
structure Kept (exact : Prop) (l : Ledger) (es : List Entry) (hs : List Holder) : Prop where
  owned : Owned l es hs
  complete : exact → Complete l es hs

namespace Kept

variable {exact : Prop} {l : Ledger} {es es' gone : List Entry} {hs hs' : List Holder}
  {prompt : List Token} {bs rest : List BlockId} {b : BlockId}

theorem perm (h : Kept exact l es hs) (hp : es'.Perm es) : Kept exact l es' hs :=
  ⟨h.owned.perm hp, fun hx => ⟨fun b hb => ((h.complete hx).cover b hb).imp_right
    (Or.imp_right ((hp.map _).mem_iff.mpr)), (h.complete hx).live⟩⟩

theorem permHolders (h : Kept exact l es hs) (hp : hs'.Perm hs) : Kept exact l es hs' := by
  have hmem : ∀ b, b ∈ heldBlocks hs' ↔ b ∈ heldBlocks hs := fun b => (hp.flatMap_right _).mem_iff
  refine ⟨h.owned.permHolders hp, fun hx => ⟨fun b hb => ?_, fun b hb => ?_⟩⟩
  · exact ((h.complete hx).cover b hb).imp_right (Or.imp_left (hmem b).mpr)
  · exact (hmem b).mpr ((h.complete hx).live b hb)

theorem start (h : Kept exact l es hs) (prompt : List Token) :
    Kept exact l es ((prompt, []) :: hs) :=
  ⟨h.owned.start prompt, fun hx => ⟨(h.complete hx).cover, (h.complete hx).live⟩⟩

theorem restore (h : Kept exact l es hs) (ha : OnPath es prompt bs) (hz : ∀ b ∈ bs, l.refs b = 0) :
    Kept exact (l.restore bs) es ((prompt, bs) :: hs) := by
  refine ⟨h.owned.restore ha hz, fun hx => ⟨fun b hb => ?_, fun b hb => ?_⟩⟩
  · exact ((h.complete hx).cover b hb).imp_right (Or.imp_left (List.mem_append_right _))
  · by_cases hbs : b ∈ bs
    · exact List.mem_append_left _ hbs
    · rw [show (l.restore bs).refs b = l.refs b from setOn_notMem hbs] at hb
      exact List.mem_append_right _ ((h.complete hx).live b hb)

theorem handOut (h : Kept exact l es ((prompt, bs) :: hs)) (hf : l.view.free = b :: rest) :
    Kept exact (l.handOut b rest) es ((prompt, bs ++ [b]) :: hs) := by
  have hsub : ∀ c ∈ heldBlocks ((prompt, bs) :: hs), c ∈ heldBlocks ((prompt, bs ++ [b]) :: hs) := by
    intro c hc
    rcases List.mem_append.mp hc with hc | hc
    · exact List.mem_append_left _ (List.mem_append_left _ hc)
    · exact List.mem_append_right _ hc
  refine ⟨h.owned.handOut hf, fun hx => ⟨fun c hc => ?_, fun c hc => ?_⟩⟩
  · rcases (h.complete hx).cover c hc with hc | hc | hc
    · rw [hf] at hc
      rcases List.mem_cons.mp hc with rfl | hc
      · exact .inr (.inl (by simp))
      · exact .inl hc
    · exact .inr (.inl (hsub c hc))
    · exact .inr (.inr hc)
  · exact hsub c ((h.complete hx).live c hc)

theorem giveBack (h : Kept exact l es hs) (hp : es.Perm (gone ++ es'))
    (hz : ∀ b ∈ treeBlocks gone, l.refs b = 0) :
    Kept exact (l.giveBack (treeBlocks gone)) es' hs := by
  refine ⟨h.owned.giveBack hp hz, fun hx => ⟨fun c hc => ?_, fun c hc => ?_⟩⟩
  · rcases (h.complete hx).cover c hc with hc | hc | hc
    · exact .inl (List.mem_append_right _ hc)
    · exact .inr (.inl hc)
    · obtain ⟨p, hpc⟩ := mem_treeBlocks.mp hc
      rcases List.mem_append.mp (hp.mem_iff.mp hpc) with hg | hk
      · exact .inl (List.mem_append_left _ (List.mem_reverse.mpr (mem_treeBlocks.mpr ⟨p, hg⟩)))
      · exact .inr (.inr (mem_treeBlocks.mpr ⟨p, hk⟩))
  · rw [show (l.giveBack (treeBlocks gone)).refs = l.refs from setOn_eq_self hz] at hc
    exact (h.complete hx).live c hc

/-- A sequence leaves nothing behind when all its blocks are cached and those the
insertion skips are in the tree already. -/
theorem settle {blocks : List BlockId} {n k : Nat} (h : Kept exact l es ((prompt, blocks) :: hs))
    (hk : ∀ p b, (p, b) ∈ es → p <+: prompt.take (n * BLOCK_SIZE) → p.length ≤ k * BLOCK_SIZE)
    (hclean : exact → blocks.length ≤ n ∧ ∀ b ∈ blocks.take k, b ∈ treeBlocks es) :
    Kept exact (l.settle (blocks.take n))
      (es ++ (blockPaths (prompt.take (n * BLOCK_SIZE)) (blocks.take n)).drop k) hs := by
  refine ⟨h.owned.settle hk, fun hx => ?_⟩
  obtain ⟨hall, hskip⟩ := hclean hx
  have htake : blocks.take n = blocks := List.take_of_length_le hall
  have htree : treeBlocks (es ++ (blockPaths (prompt.take (n * BLOCK_SIZE)) blocks).drop k) =
      treeBlocks es ++ blocks.drop k := by
    simp [treeBlocks]
  rw [htake]
  refine ⟨fun c hc => ?_, fun c hc => ?_⟩
  · rw [htree]
    rcases (h.complete hx).cover c hc with hc | hc | hc
    · exact .inl hc
    · rcases List.mem_append.mp hc with hc | hc
      · refine .inr (.inr (List.mem_append.mpr ?_))
        rw [← List.take_append_drop k blocks] at hc
        exact (List.mem_append.mp hc).imp_left (hskip c)
      · exact .inr (.inl hc)
    · exact .inr (.inr (List.mem_append_left _ hc))
  · have hcb : c ∉ blocks := fun hcb => hc (setOn_mem hcb)
    rw [show (l.settle blocks).refs c = l.refs c from setOn_notMem hcb] at hc
    exact (List.mem_append.mp ((h.complete hx).live c hc)).resolve_left hcb

theorem forget {hd : Holder} (h : Kept exact l es (hd :: hs)) (hempty : exact → hd.2 = []) :
    Kept exact l es hs := by
  refine ⟨h.owned.forget, fun hx => ?_⟩
  have hcomp := h.complete hx
  have heq : heldBlocks (hd :: hs) = heldBlocks hs := by simp [hempty hx]
  exact ⟨heq ▸ hcomp.cover, heq ▸ hcomp.live⟩

end Kept

end JustApi.Inference.BlockLedger
