import JustApi.Lib.Run
import JustApi.Inference.HandoffFrame

/-! # Room for the tokens of a sequence

Blocks are reserved when a sequence joins the batch, for its prompt or for the tokens
it is transferred with, and never later. So a sequence has room for what it has
computed as long as no step is answered when the reserved blocks are full. -/
namespace JustApi.Inference.SequenceRoom
open JustApi.Lib.Run JustApi.Lib.Result JustApi.Inference.KvCache JustApi.Inference.RadixCache
open JustApi.Inference.Scheduling JustApi.Inference.Scheduling.Scheduler
open JustApi.Inference.FifoService JustApi.Inference.Handoff

variable {F : Type} {s t : Scheduler F}

/-- A call of a driver that answers steps with one token each. -/
def OneToken : Call F → Prop
  | .op (.onStepComplete _ n) => n = 1
  | _ => True

def Step (s : Scheduler F) (call : Call F) (t : Scheduler F) : Prop :=
  OneToken call ∧ perform s call = .ok t

/-- Every running sequence has blocks for the positions prefilled or restored and for
the tokens generated. -/
def HasRoom (s : Scheduler F) : Prop :=
  ∀ r ∈ s.running, blocksFor (r.numPrefilled + r.numGenerated) ≤ r.seq.blocks.length

/-- The positions a sequence has once its prompt is computed. -/
def positions (r : RunningSeq F) : Nat :=
  (if r.state = .prefilling then r.prompt.length else r.numPrefilled) + r.numGenerated

/-- A step is answered only for a sequence whose prompt and tokens do not end at a
block boundary; and the token count a sequence is transferred with does not
overflow. -/
def Fits (s : Scheduler F) : Call F → Prop
  | .op (.onStepComplete seqId _) =>
    ∀ r ∈ s.running, r.seq.id = seqId → positions r % BLOCK_SIZE ≠ 0
  | .admitTransferred x => x.numPrefilled + x.numGenerated < 2 ^ 64
  | _ => True

instance (s : Scheduler F) (call : Call F) : Decidable (Fits s call) :=
  match call with
  | .op (.onStepComplete seqId _) => inferInstanceAs (Decidable
      (∀ r ∈ s.running, r.seq.id = seqId → positions r % BLOCK_SIZE ≠ 0))
  | .admitTransferred x => inferInstanceAs (Decidable (x.numPrefilled + x.numGenerated < 2 ^ 64))
  | .op (.addRequest _) | .op (.schedule _) | .op (.cancel _) | .takeCompletedPrefill =>
    .isTrue trivial

theorem blocksFor_le_iff {n m : Nat} : blocksFor n ≤ m ↔ n ≤ m * BLOCK_SIZE := by
  unfold blocksFor BLOCK_SIZE
  omega

/-- The blocks of a sequence cover its positions, and its prefill is within its
prompt. -/
structure Covered (r : RunningSeq F) : Prop where
  room : positions r ≤ r.seq.blocks.length * BLOCK_SIZE
  within : r.state = .prefilling → r.numPrefilled ≤ r.prompt.length

theorem Covered.hasRoom {r : RunningSeq F} (h : Covered r) :
    blocksFor (r.numPrefilled + r.numGenerated) ≤ r.seq.blocks.length := by
  refine blocksFor_le_iff.mpr (Nat.le_trans ?_ h.room)
  unfold positions
  split
  · exact Nat.add_le_add_right (h.within ‹_›) _
  · exact Nat.le_refl _

theorem covered_of_became {req : NewRequest F} {r : RunningSeq F} (h : Became req r) :
    Covered r := by
  obtain ⟨seq, n, -, hlen, rfl⟩ := h
  have htotal : req.prompt.length ≤ totalBlocks req.prompt * BLOCK_SIZE :=
    blocksFor_le_iff.mp (Nat.le_refl _)
  have hblocks : totalBlocks req.prompt * BLOCK_SIZE ≤ seq.blocks.length * BLOCK_SIZE :=
    Nat.mul_le_mul_right _ (hlen ▸ Nat.le_max_right _ _)
  have hrestored : n * BLOCK_SIZE ≤ seq.blocks.length * BLOCK_SIZE :=
    Nat.mul_le_mul_right _ (hlen ▸ Nat.le_max_left _ _)
  by_cases hdone : req.prompt.length ≤ n * BLOCK_SIZE
  · exact ⟨by simpa [positions, start, hdone] using hrestored, by simp [start, hdone]⟩
  · refine ⟨?_, fun _ => ?_⟩
    · simpa [positions, start, hdone] using Nat.le_trans htotal hblocks
    · simp only [start]
      omega

theorem growBlocks_seq {n : Nat} {seq seq' : Sequence} {pool pool' : KvBlockPool} {ok : Bool}
    (h : growBlocks n seq pool = .ok (ok, seq', pool')) (hok : ok = true) :
    seq'.blocks.length = seq.blocks.length + n := by
  induction n generalizing seq pool with
  | zero =>
    cases h
    rfl
  | succ n ih =>
    obtain ⟨⟨got, seq₁, pool₁⟩, hg, h⟩ := bind_eq_ok.mp h
    have hlen := (grow_seq hg).1
    cases got with
    | some b =>
      rw [ih h, hlen, Option.toList_some, List.length_singleton]
      omega
    | none =>
      cases h
      cases hok

theorem covered_resume {x : TransferableSequence F} {seq : Sequence} {pool pool' : KvBlockPool}
    {id : Nat} (hfit : x.numPrefilled + x.numGenerated < 2 ^ 64)
    (h : growBlocks (blocksFor (totalTokens x)) (.new id) pool = .ok (true, seq, pool')) :
    Covered (resume x seq) := by
  have htotal : totalTokens x = x.numPrefilled + x.numGenerated := Nat.mod_eq_of_lt hfit
  have hlen := growBlocks_seq h rfl
  refine ⟨?_, fun hstate => nomatch hstate⟩
  have hroom : totalTokens x ≤ blocksFor (totalTokens x) * BLOCK_SIZE :=
    blocksFor_le_iff.mp (Nat.le_refl _)
  simp only [positions, resume, Sequence.advance, hlen]
  simpa [Sequence.new, htotal] using hroom

/-- Feeding a chunk changes where the prefill is, not where the sequence will end. -/
theorem covered_of_fed {rs rs' : List (RunningSeq F)} {steps : List PrefillStep}
    (h : Fed rs steps rs') (hc : ∀ r ∈ rs, Covered r) : ∀ r ∈ rs', Covered r := by
  induction h with
  | nil => exact hc
  | same r _ ih =>
    rw [List.forall_mem_cons] at hc ⊢
    exact ⟨hc.1, ih hc.2⟩
  | @switch r _ _ _ hstate hle _ ih =>
    rw [List.forall_mem_cons] at hc ⊢
    have hroom := hc.1.room
    have hin := hc.1.within hstate
    refine ⟨⟨?_, fun h => nomatch h⟩, ih hc.2⟩
    simp only [positions, hstate, if_true] at hroom
    simp only [positions, reduceCtorEq, if_false]
    omega
  | @feed r _ _ _ n hstate _ hle _ ih =>
    rw [List.forall_mem_cons] at hc ⊢
    have hroom := hc.1.room
    simp only [positions, hstate, if_true] at hroom
    refine ⟨⟨?_, fun _ => hle⟩, ih hc.2⟩
    simp only [positions, Scheduler.feed]
    split
    · simp only [reduceCtorEq, if_false]
      omega
    · exact hroom

/-- A token more fits when the positions do not end at a block boundary. -/
theorem Covered.answered {r : RunningSeq F} (h : Covered r)
    (hfit : positions r % BLOCK_SIZE ≠ 0) : Covered { r with
      numGenerated := usize (r.numGenerated + 1)
      seq := r.seq.advance 1 } := by
  refine ⟨?_, h.within⟩
  have hmod : usize (r.numGenerated + 1) ≤ r.numGenerated + 1 := Nat.mod_le _ _
  have hroom := h.room
  have hlt : positions r < r.seq.blocks.length * BLOCK_SIZE :=
    Nat.lt_of_le_of_ne hroom fun he => hfit (he ▸ Nat.mul_mod_left _ _)
  simp only [positions, Sequence.advance] at hlt ⊢
  omega

theorem covered_onStepComplete {seqId : Nat} (hc : ∀ r ∈ s.running, Covered r)
    (hfit : ∀ r ∈ s.running, r.seq.id = seqId → positions r % BLOCK_SIZE ≠ 0) :
    ∀ r ∈ (s.onStepComplete seqId 1).running, Covered r := by
  unfold onStepComplete
  split
  · exact hc
  · rename_i i hi
    obtain ⟨hlt, hid, -⟩ := List.findIdx?_eq_some_iff_getElem.mp hi
    intro r hr
    obtain ⟨j, hj⟩ := List.mem_iff_getElem?.mp hr
    rw [List.getElem?_modify] at hj
    obtain ⟨q, hq, he⟩ := Option.map_eq_some_iff.mp hj
    have hmem := List.mem_of_getElem? hq
    split at he
    · rename_i hij
      subst hij he
      rw [List.getElem?_eq_getElem hlt] at hq
      cases hq
      exact (hc _ hmem).answered (hfit _ hmem (by simpa using hid))
    · rw [← he]
      exact hc q hmem

theorem covered_step {call : Call F} (hc : ∀ r ∈ s.running, Covered r) (hone : OneToken call)
    (hx : perform s call = .ok t) (hfit : Fits s call) : ∀ r ∈ t.running, Covered r := by
  cases call with
  | op op =>
    cases op with
    | addRequest req =>
      cases hx
      exact hc
    | schedule order =>
      obtain ⟨⟨sch, t'⟩, hs, rfl⟩ := map_eq_ok.mp hx
      obtain ⟨reqs, -, hall, hfed, -⟩ := schedule_batch hs
      refine covered_of_fed hfed fun r hr => ?_
      rcases List.mem_append.mp hr with hr | hr
      · exact hc r (List.mem_of_mem_filter hr)
      · obtain ⟨req, -, hb⟩ := became_of_mem hall hr
        exact covered_of_became hb
    | onStepComplete seqId n =>
      cases hone
      cases hx
      exact covered_onStepComplete hc hfit
    | cancel seqId =>
      rw [(cancel_running hx).1]
      exact fun r hr => hc r (List.mem_of_mem_eraseP hr)
  | takeCompletedPrefill =>
    obtain ⟨⟨taken, t'⟩, ht, rfl⟩ := map_eq_ok.mp hx
    obtain ⟨-, -, hf, -⟩ := takeCompletedPrefill_ok ht
    rw [hf.running]
    exact fun r hr => hc r (List.mem_of_mem_filter hr)
  | admitTransferred x =>
    obtain ⟨ok, seq, pool, hg, -, rfl⟩ := admitTransferred_ok hx
    cases ok with
    | false => exact hc
    | true =>
      intro r hr
      rcases List.mem_append.mp hr with hr | hr
      · exact hc r hr
      · rw [List.mem_singleton.mp hr]
        exact covered_resume hfit hg

/-- **Every sequence has room, as long as no step is answered at a block boundary.**
In every run whose driver answers a step with one token, and answers none for a
sequence whose prompt and generated tokens fill its blocks, every running sequence
holds blocks for all positions prefilled, restored or generated, in every state. -/
theorem every_sequence_has_room (config : SchedulerConfig) (pool : KvBlockPool)
    (tr : List (Call F × Scheduler F)) (hrun : Along Step (.new config pool) tr)
    (hfit : Along (fun s call _ => Fits s call) (.new config pool) tr) :
    ∀ s ∈ visited (.new config pool) tr, HasRoom s := by
  intro s hs r hr
  refine (Along.invariant (I := fun s => ∀ r ∈ s.running, Covered r) ?_ ?_ (hrun.and hfit)
    s hs r hr).hasRoom
  · rintro s call t hc ⟨⟨hone, hx⟩, hfit⟩
    exact covered_step hc hone hx hfit
  · exact fun r hr => nomatch hr

/-- A prompt of `n` tokens with two tokens to generate. -/
def twoTokens (n : Nat) : NewRequest Unit :=
  ⟨0, (List.range n).map UInt32.ofNat, ⟨2, (), (), 0, []⟩, 0, []⟩

/-- The request is prefilled, decodes and leaves. -/
def prefillAndDecode (n : Nat) : List (Call Unit) :=
  [.op (.addRequest (twoTokens n)), .op (.schedule .listed), .op (.onStepComplete 1 1),
    .op (.schedule .listed), .op (.onStepComplete 1 1), .op (.schedule .listed)]

theorem every_sequence_has_room_uneven_prompt :
    (replay perform (.new .default (.new 4)) (prefillAndDecode 20)).length = 6 ∧
      ∀ s ∈ visited (.new .default (.new 4))
        (replay perform (.new .default (.new 4)) (prefillAndDecode 20)), HasRoom s :=
  ⟨by decide +kernel, every_sequence_has_room _ _ _
    (along_replay_labels perform _ _ (by simp [prefillAndDecode, OneToken])) (by decide +kernel)⟩

/-- A prompt that fills its block: the token of its prefill has nowhere to go. -/
theorem first_token_without_room :
    ∃ tr, Along Step (.new .default (.new 4)) tr ∧
      tr.map Prod.fst = [.op (.addRequest (twoTokens 16)), .op (.schedule .listed),
        .op (.onStepComplete 1 1)] ∧
      ∃ s ∈ visited (.new .default (.new 4)) tr, ∃ r ∈ s.running,
        (r.numPrefilled, r.numGenerated, r.seq.blocks.length) = (16, 1, 1) ∧ ¬ HasRoom s := by
  refine ⟨replay perform (.new .default (.new 4)) [.op (.addRequest (twoTokens 16)),
      .op (.schedule .listed), .op (.onStepComplete 1 1)],
    along_replay_labels perform _ _ (by simp [OneToken]), rfl, _, final_mem_visited perform _ _, ?_⟩
  have hr : ∃ r ∈ (final perform (.new .default (.new 4)) [.op (.addRequest (twoTokens 16)),
      .op (.schedule .listed), .op (.onStepComplete 1 1)]).running,
      (r.numPrefilled, r.numGenerated, r.seq.blocks.length) = (16, 1, 1) :=
    of_decide_eq_true (by decide +kernel)
  obtain ⟨r, hmem, he⟩ := hr
  refine ⟨r, hmem, he, fun hroom => ?_⟩
  have := hroom r hmem
  simp only [Prod.mk.injEq] at he
  rw [he.1, he.2.1, he.2.2] at this
  exact absurd this (by decide)

end JustApi.Inference.SequenceRoom
