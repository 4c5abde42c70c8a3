import Mathlib.Algebra.Order.Field.Rat
import JustApi.Inference.SpecDecodeTree

/-! # Speculation against plain greedy decoding

At temperature zero both schemes emit the target's own tokens. The tree scheme
stops where plain decoding stops. The draft-target scheme does not look for stop
tokens among its corrections; `oneByOne` says what it does, a token at a time, and
from it follows exactly when it agrees with plain decoding. -/
namespace JustApi.Inference.SpecLossless
open JustApi.Lib.Result JustApi.Inference.LanguageModel JustApi.Inference.SpecDecode
open JustApi.Inference.SpecDecodeTree

/-- Plain decoding by a next-token function: the tokens and why it ended. -/
def greedy (next : List UInt32 → UInt32) (stop : List UInt32) :
    Nat → List UInt32 → List UInt32 × FinishReason
  | 0, _ => ([], .length)
  | n + 1, context =>
    let tok := next context
    if tok ∈ stop then ([tok], .stop)
    else
      let out := greedy next stop n (context ++ [tok])
      (tok :: out.1, out.2)

/-- Tokens in front of the rest of a stream. -/
def before (toks : List UInt32) (rest : List UInt32 × FinishReason) : List UInt32 × FinishReason :=
  (toks ++ rest.1, rest.2)

@[simp] theorem before_nil (rest : List UInt32 × FinishReason) : before [] rest = rest := rfl

@[simp] theorem before_before (toks toks' : List UInt32) (rest : List UInt32 × FinishReason) :
    before toks (before toks' rest) = before (toks ++ toks') rest := by
  simp [before]

/-- What is left of a stream when a part of a turn has ended it, or has not. -/
def restOf (finish : Option FinishReason) (rest : List UInt32 × FinishReason) :
    List UInt32 × FinishReason :=
  match finish with
  | some f => ([], f)
  | none => rest

section Following

variable {F R : Type} {st st' st'' : Decoding F R} {a b c : List UInt32 × FinishReason}

/-- Between two states a decoding loop emitted, to the sink and onto the context,
the tokens by which the stream `a` is ahead of `b`. -/
def Follows (st st' : Decoding F R) (a b : List UInt32 × FinishReason) : Prop :=
  ∃ toks, st'.out.map GeneratedToken.id = st.out.map GeneratedToken.id ++ toks ∧
    st'.context = st.context ++ toks ∧ st'.emitted = st.emitted + toks.length ∧ a = before toks b

theorem Follows.refl (st : Decoding F R) (a : List UInt32 × FinishReason) : Follows st st a a :=
  ⟨[], by simp, by simp, rfl, rfl⟩

theorem Follows.trans (h : Follows st st' a b) (h' : Follows st' st'' b c) :
    Follows st st'' a c := by
  obtain ⟨toks, hout, hctx, hem, rfl⟩ := h
  obtain ⟨toks', hout', hctx', hem', rfl⟩ := h'
  exact ⟨toks ++ toks', by rw [hout', hout, List.append_assoc],
    by rw [hctx', hctx, List.append_assoc], by rw [hem', hem, List.length_append, Nat.add_assoc],
    before_before _ _ _⟩

/-- A loop whose turns follow `stream`, the tokens still to come from a context,
emits that stream. -/
theorem decodeLoop_follows {maxTokens : Nat}
    {round : Decoding F R → Except ModelError (Option FinishReason × Decoding F R)}
    (stream : Nat → List UInt32 → List UInt32 × FinishReason)
    (hzero : ∀ context, stream 0 context = ([], .length))
    (hround : ∀ st, st.emitted < maxTokens → ∃ finish st', round st = .ok (finish, st') ∧
      st.emitted < st'.emitted ∧ st'.emitted ≤ maxTokens ∧
      Follows st st' (stream (maxTokens - st.emitted) st.context)
        (restOf finish (stream (maxTokens - st'.emitted) st'.context)))
    (fuel : Nat) (st : Decoding F R) (hle : st.emitted ≤ maxTokens)
    (hfuel : maxTokens ≤ st.emitted + fuel) :
    ∃ finish st', decodeLoop maxTokens round fuel st = .ok (finish, st') ∧
      (st'.out.map GeneratedToken.id, finish) =
        before (st.out.map GeneratedToken.id) (stream (maxTokens - st.emitted) st.context) := by
  have hdone : ∀ st : Decoding F R, ¬ st.emitted < maxTokens →
      (st.out.map GeneratedToken.id, FinishReason.length) =
        before (st.out.map GeneratedToken.id) (stream (maxTokens - st.emitted) st.context) := by
    intro st hlt
    rw [show maxTokens - st.emitted = 0 by omega, hzero]
    simp [before]
  induction fuel generalizing st with
  | zero => exact ⟨.length, st, rfl, hdone st (by omega)⟩
  | succ fuel ih =>
    by_cases hlt : st.emitted < maxTokens
    · obtain ⟨finish, st', hr, hmore, hle', toks, hout, -, -, hstream⟩ := hround st hlt
      simp only [decodeLoop, if_pos hlt, hr, ok_bind]
      rw [hstream, before_before, ← hout]
      cases finish with
      | some f => exact ⟨f, st', rfl, by simp [before, restOf]⟩
      | none => exact ih st' hle' (by omega)
    · exact ⟨.length, st, by simp [decodeLoop, hlt], hdone st hlt⟩

end Following

section Greedy

variable {F R : Type} [Floating F]

/-- At temperature zero the sampler takes the argmax and leaves the generator
alone. -/
theorem sampleToken_greedy [Rng R F] {logits : List F} {params : SamplingParams F} (rng : R)
    (ht : params.temperature = 0) : sampleToken logits params rng = (argmax logits, rng) := by
  unfold sampleToken
  rw [ht, Floating.zero_lt_threshold]
  cases logits with
  | nil => rfl
  | cons x rest => simp

/-- A token the sink takes follows the stream that has it in front. -/
theorem follows_push (st : Decoding F R) (tok : UInt32) (finish : Option FinishReason)
    (a : List UInt32 × FinishReason) :
    Follows st ((st.offer acceptAll tok finish).2.push tok) (before [tok] a) a :=
  ⟨[tok], by simp [Decoding.offer, Decoding.push], rfl, rfl, rfl⟩

/-! ## The tree scheme -/

theorem greedy_of_pos {next : List UInt32 → UInt32} {stop : List UInt32} {n : Nat} (hn : 0 < n)
    (context : List UInt32) : greedy next stop n context =
      before [next context] (restOf (if next context ∈ stop then some .stop else none)
        (greedy next stop (n - 1) (context ++ [next context]))) := by
  obtain ⟨n, rfl⟩ : ∃ m, n = m + 1 := ⟨n - 1, by omega⟩
  simp only [greedy, Nat.add_sub_cancel]
  split <;> rfl

/-- The first `n` tokens of the next-token function. -/
def chain (next : List UInt32 → UInt32) : List UInt32 → Nat → List UInt32
  | _, 0 => []
  | context, n + 1 => next context :: chain next (context ++ [next context]) n

variable {params : SamplingParams F} (next : List UInt32 → UInt32)

theorem emit_acceptAll (st : Decoding F R) (tok : UInt32) :
    emit params acceptAll st tok = (if tok ∈ params.stopTokens then some .stop else none,
      (st.offer acceptAll tok (if tok ∈ params.stopTokens then some .stop else none)).2.push tok) := by
  simp [emit, Decoding.offer, acceptAll]

/-- Emitting the target's token is a step of plain decoding. -/
theorem emit_follows (st : Decoding F R) (hlt : st.emitted < params.maxTokens) :
    ∃ finish st', emit params acceptAll st (next st.context) = (finish, st') ∧
      st'.emitted = st.emitted + 1 ∧ finish ≠ some .cancelled ∧
      st'.context = st.context ++ [next st.context] ∧
      Follows st st' (greedy next params.stopTokens (params.maxTokens - st.emitted) st.context)
        (restOf finish
          (greedy next params.stopTokens (params.maxTokens - st'.emitted) st'.context)) := by
  refine ⟨_, _, emit_acceptAll st _, rfl, ?_, rfl, ?_⟩
  · split <;> simp
  · rw [greedy_of_pos (by omega), show params.maxTokens - st.emitted - 1 =
      params.maxTokens - (st.emitted + 1) by omega]
    exact follows_push st _ _ _

/-- Emitting accepted tokens of the target is plain decoding, up to the first stop
token, the limit or the last of them. -/
theorem emitAccepted_follows (n : Nat) (st : Decoding F R) (hle : st.emitted ≤ params.maxTokens) :
    ∃ finish st', emitAccepted params acceptAll (chain next st.context n) st = (finish, st') ∧
      st.emitted ≤ st'.emitted ∧ st'.emitted ≤ params.maxTokens ∧
      (finish ≠ none → st.emitted < st'.emitted) ∧
      (finish = none → st'.emitted < params.maxTokens →
        st'.context = st.context ++ chain next st.context n) ∧
      Follows st st' (greedy next params.stopTokens (params.maxTokens - st.emitted) st.context)
        (restOf finish
          (greedy next params.stopTokens (params.maxTokens - st'.emitted) st'.context)) := by
  induction n generalizing st with
  | zero => exact ⟨none, st, rfl, Nat.le_refl _, hle, by simp, by simp [chain], .refl st _⟩
  | succ n ih =>
    by_cases hlt : st.emitted < params.maxTokens
    · obtain ⟨finish, st₁, he, hem, -, hctx, hfol⟩ := emit_follows next st hlt
      simp only [chain, emitAccepted, if_neg (Nat.not_le.mpr hlt), he]
      cases finish with
      | some f => exact ⟨some f, st₁, rfl, by omega, by omega, by omega, by simp, hfol⟩
      | none =>
        obtain ⟨finish, st₂, he', hle', hmax', hfin, hall, hfol'⟩ := ih st₁ (by omega)
        rw [hctx] at he' hall
        refine ⟨finish, st₂, he', by omega, hmax', fun h => by have := hfin h; omega, ?_,
          hfol.trans hfol'⟩
        intro hn hl
        rw [hall hn hl, List.append_assoc]
        rfl
    · refine ⟨none, st, ?_, Nat.le_refl _, hle, by simp, fun _ h => absurd h hlt, .refl st _⟩
      simp only [chain, emitAccepted, if_pos (Nat.not_lt.mp hlt)]

end Greedy

section Tree

variable {F R : Type} [Floating F] [Rng R F] {params : SamplingParams F}
  (target draft : List UInt32 → List F)

/-- The next token of a model at temperature zero. -/
def nextToken (logits : List UInt32 → List F) (context : List UInt32) : UInt32 :=
  argmax (logits context)

theorem sampleToken_nextToken (ht : params.temperature = 0) (logits : List UInt32 → List F)
    (context : List UInt32) (rng : R) :
    sampleToken (logits context) params rng = (nextToken logits context, rng) :=
  sampleToken_greedy rng ht

theorem targetToken_greedy (ht : params.temperature = 0) (context : List UInt32) (rng : R) :
    targetToken (.ofTotal target) params context rng = .ok (nextToken target context, rng) := by
  simp only [targetToken, Model.forwardLogits_ofTotal, ok_bind, sampleToken_nextToken ht target]
  rfl

/-- Whatever the tree, a walk accepts a part of the target's own chain and ends with
the token after it. -/
theorem walk_chain (ht : params.temperature = 0) (depth : Nat) (context : List UInt32)
    (frontier : List (TreeNode F)) (accepted : List UInt32) (rng : R) :
    ∃ n, walk (.ofTotal target) params depth context frontier accepted rng =
      .ok (⟨accepted ++ chain (nextToken target) context n,
        some (nextToken target (context ++ chain (nextToken target) context n)),
        accepted.length + n⟩, rng) := by
  induction depth generalizing context frontier accepted with
  | zero =>
    refine ⟨0, ?_⟩
    simp only [walk, targetToken_greedy target ht, ok_bind, chain, List.append_nil]
    rfl
  | succ depth ih =>
    simp only [walk, targetToken_greedy target ht, ok_bind]
    split
    · refine ⟨0, ?_⟩
      simp only [chain, List.append_nil]
      rfl
    · split
      · refine ⟨1, ?_⟩
        rfl
      · rename_i node _ _
        obtain ⟨n, hn⟩ := ih (context ++ [nextToken target context]) node.children
          (accepted ++ [nextToken target context])
        refine ⟨n + 1, ?_⟩
        rw [hn]
        simp [chain, Nat.add_assoc, Nat.add_comm 1 n]

/-- A draft that never fails expands to some tree. -/
theorem expand_succeeds (branch depth : Nat) (context : List UInt32) :
    ∃ nodes, expand (.ofTotal draft) branch depth context = .ok nodes := by
  induction depth generalizing context with
  | zero => exact ⟨[], rfl⟩
  | succ depth ih =>
    simp only [expand, Model.forwardLogits_ofTotal, ok_bind]
    refine mapM_succeeds fun c _ => ?_
    obtain ⟨children, hc⟩ := ih (context ++ [c.1])
    exact ⟨TreeNode.mk c.1 c.2 children, by rw [hc]; rfl⟩

theorem buildDraftTree_succeeds (context : List UInt32) (gamma branch : Nat) :
    ∃ tree, buildDraftTree (.ofTotal draft) context gamma branch = .ok tree := by
  unfold buildDraftTree
  split
  · exact ⟨_, rfl⟩
  · obtain ⟨nodes, hn⟩ := expand_succeeds draft branch gamma context
    exact ⟨⟨nodes, gamma, branch⟩, by rw [hn]; rfl⟩

/-- A turn of the tree scheme is plain decoding. -/
theorem treeRound_follows (ht : params.temperature = 0) (gamma branch : Nat) (st : Decoding F R)
    (hlt : st.emitted < params.maxTokens) :
    ∃ finish st', treeRound (.ofTotal target) (.ofTotal draft) params gamma branch acceptAll st =
        .ok (finish, st') ∧ st.emitted < st'.emitted ∧ st'.emitted ≤ params.maxTokens ∧
      Follows st st'
        (greedy (nextToken target) params.stopTokens (params.maxTokens - st.emitted) st.context)
        (restOf finish (greedy (nextToken target) params.stopTokens
          (params.maxTokens - st'.emitted) st'.context)) := by
  obtain ⟨tree, htree⟩ := buildDraftTree_succeeds draft st.context gamma branch
  obtain ⟨n, hwalk⟩ := walk_chain target ht tree.gamma st.context tree.roots [] st.rng
  simp only [treeRound, htree, verifyTree, hwalk, ok_bind, List.nil_append]
  generalize hst : ({ st with rng := st.rng, stats := _ } : Decoding F R) = st₀
  have hem : st₀.emitted = st.emitted := by rw [← hst]
  have hctx : st₀.context = st.context := by rw [← hst]
  have hstart : ∀ {st' a b}, Follows st₀ st' a b → Follows st st' a b := by
    rw [← hst]
    exact fun h => h
  rw [← hem, ← hctx]
  rw [← hem] at hlt
  obtain ⟨finish, st₁, he, hle₁, hmax₁, hfin, hall, hfol⟩ :=
    emitAccepted_follows (nextToken target) n st₀ (Nat.le_of_lt hlt)
  rw [he]
  cases finish with
  | some f => exact ⟨some f, st₁, rfl, hfin (by simp), hmax₁, hstart hfol⟩
  | none =>
    by_cases hend : params.maxTokens ≤ st₁.emitted
    · refine ⟨some .length, st₁, by simp [hend]; rfl, by omega, hmax₁, hstart (hfol.trans ?_)⟩
      rw [show params.maxTokens - st₁.emitted = 0 by omega]
      exact .refl st₁ _
    · simp only [if_neg hend]
      rw [← hall rfl (by omega)]
      obtain ⟨finish, st₂, he₂, hem₂, hnc, -, hfol₂⟩ :=
        emit_follows (nextToken target) st₁ (Nat.not_le.mp hend)
      simp only [he₂, if_neg hnc]
      exact ⟨finish, _, rfl, by change st₀.emitted < st₂.emitted; omega,
        by change st₂.emitted ≤ _; omega, hstart (hfol.trans hfol₂)⟩

end Tree

/-! ## The draft-target scheme -/

section OneByOne

variable (target draft : List UInt32 → UInt32) (stop : List UInt32) (gamma : Nat)

/-- The draft-target scheme a token at a time. `room` is how many more tokens the
draft may propose in the current block. Where the block is over, or the draft would
stop, the target's token is the bonus token; elsewhere it is an accepted draft or a
correction, and nobody asks whether it is a stop token. -/
def oneByOne : Nat → List UInt32 → Nat → List UInt32 × FinishReason
  | 0, _, _ => ([], .length)
  | n + 1, context, room =>
    let tok := target context
    if room = 0 ∨ draft context ∈ stop then
      before [tok] (restOf (if tok ∈ stop then some .stop else none)
        (oneByOne n (context ++ [tok]) gamma))
    else before [tok] (oneByOne n (context ++ [tok]) (if draft context = tok then room - 1 else gamma))

/-- The context after `n` tokens of the target. -/
def contextAt : List UInt32 → Nat → List UInt32
  | context, 0 => context
  | context, n + 1 => contextAt (context ++ [target context]) n

/-- The room left in the block that position `n` falls into: a new block starts
after the bonus token and after a correction. -/
def roomAt : List UInt32 → Nat → Nat → Nat
  | _, room, 0 => room
  | context, room, n + 1 =>
    roomAt (context ++ [target context])
      (if room = 0 ∨ draft context ∈ stop ∨ draft context ≠ target context then gamma else room - 1) n

/-- The first stop token among the next `limit` tokens of the target, if there is
one, comes where the draft's block is over or the draft proposes a stop token too. -/
def StopAtBlockEnd (limit : Nat) (context : List UInt32) (room : Nat) : Prop :=
  ∀ n < limit, (∀ m < n, target (contextAt target context m) ∉ stop) →
    target (contextAt target context n) ∈ stop →
    roomAt target draft stop gamma context room n = 0 ∨ draft (contextAt target context n) ∈ stop

variable {target draft stop gamma}

theorem stopAtBlockEnd_succ {limit room : Nat} {context : List UInt32} :
    StopAtBlockEnd target draft stop gamma (limit + 1) context room ↔
      if target context ∈ stop then room = 0 ∨ draft context ∈ stop
      else StopAtBlockEnd target draft stop gamma limit (context ++ [target context])
        (if room = 0 ∨ draft context ∈ stop ∨ draft context ≠ target context then gamma
          else room - 1) := by
  split
  · rename_i htok
    constructor
    · exact fun h => h 0 (Nat.succ_pos _) (fun _ hm => absurd hm (Nat.not_lt_zero _)) htok
    · intro h n _ hbefore _
      cases n with
      | zero => exact h
      | succ n => exact absurd htok (hbefore 0 (Nat.succ_pos _))
  · rename_i htok
    constructor
    · intro h n hn hbefore hstop
      refine h (n + 1) (Nat.succ_lt_succ hn) (fun m hm => ?_) hstop
      cases m with
      | zero => exact htok
      | succ m => exact hbefore m (Nat.lt_of_succ_lt_succ hm)
    · intro h n hn hbefore hstop
      cases n with
      | zero => exact absurd hstop htok
      | succ n =>
        exact h n (Nat.lt_of_succ_lt_succ hn) (fun m hm => hbefore (m + 1) (Nat.succ_lt_succ hm))
          hstop

/-- A stream of this scheme that says nothing did not stop. -/
theorem oneByOne_ne_stopped (n : Nat) (context : List UInt32) (room : Nat) :
    oneByOne target draft stop gamma n context room ≠ ([], .stop) := by
  cases n with
  | zero => simp [oneByOne]
  | succ n =>
    intro h
    have := congrArg Prod.fst h
    simp only [oneByOne] at this
    split at this <;> simp [before] at this

/-- The scheme agrees with plain decoding exactly when the first stop token comes at
the end of a block. -/
theorem oneByOne_eq_greedy_iff (n : Nat) (context : List UInt32) (room : Nat) :
    oneByOne target draft stop gamma n context room = greedy target stop n context ↔
      StopAtBlockEnd target draft stop gamma n context room := by
  induction n generalizing context room with
  | zero => exact ⟨fun _ n hn => absurd hn (Nat.not_lt_zero _), fun _ => rfl⟩
  | succ n ih =>
    have hcons : ∀ tok a b, before [tok] a = before [tok] b ↔ a = b := by
      intro tok a b
      simp [before, Prod.ext_iff]
    rw [stopAtBlockEnd_succ, greedy_of_pos (Nat.succ_pos n), Nat.succ_sub_one]
    simp only [oneByOne]
    by_cases htok : target context ∈ stop
    · simp only [if_pos htok]
      by_cases hbonus : room = 0 ∨ draft context ∈ stop
      · simp only [if_pos hbonus, restOf, iff_true_right hbonus]
      · simp only [if_neg hbonus, hcons, restOf, iff_false_right hbonus]
        exact oneByOne_ne_stopped _ _ _
    · simp only [if_neg htok]
      by_cases hbonus : room = 0 ∨ draft context ∈ stop
      · have hnew : room = 0 ∨ draft context ∈ stop ∨ draft context ≠ target context :=
          hbonus.imp_right .inl
        simp only [if_pos hbonus, if_pos hnew, hcons, restOf, ih]
      · by_cases hacc : draft context = target context
        · have hnew : ¬ (room = 0 ∨ draft context ∈ stop ∨ draft context ≠ target context) := by
            rintro (hroom | hdraft | hne)
            · exact hbonus (.inl hroom)
            · exact hbonus (.inr hdraft)
            · exact hne hacc
          simp only [if_neg hbonus, if_neg hnew, if_pos hacc, hcons, restOf, ih]
        · have hnew : room = 0 ∨ draft context ∈ stop ∨ draft context ≠ target context :=
            .inr (.inr hacc)
          simp only [if_neg hbonus, if_pos hnew, if_neg hacc, hcons, restOf, ih]

/-- The tokens the draft proposes from a context, with `room` in the block and
`left` tokens to go. -/
inductive Drafted (draft : List UInt32 → UInt32) (stop : List UInt32) :
    List UInt32 → Nat → Nat → List UInt32 → Prop
  | done {context : List UInt32} {room left : Nat} :
      room = 0 ∨ left = 0 ∨ draft context ∈ stop → Drafted draft stop context room left []
  | more {context ds : List UInt32} {room left : Nat} : draft context ∉ stop →
      Drafted draft stop (context ++ [draft context]) room left ds →
      Drafted draft stop context (room + 1) (left + 1) (draft context :: ds)

end OneByOne

section DraftTarget

variable {F R : Type} [Floating F] [Rng R F] {params : SamplingParams F}
  (target draft : List UInt32 → List F)

theorem propose_drafted (ht : params.temperature = 0) (emitted gamma left : Nat)
    (context drafted : List UInt32) (rng : R)
    (hleft : emitted + drafted.length + left = params.maxTokens) :
    ∃ ds, propose (.ofTotal draft) params emitted gamma context drafted rng =
        .ok (drafted ++ ds, rng) ∧
      Drafted (nextToken draft) params.stopTokens context gamma left ds := by
  induction gamma generalizing context drafted left with
  | zero => exact ⟨[], by simp [propose], .done (.inl rfl)⟩
  | succ gamma ih =>
    cases left with
    | zero =>
      refine ⟨[], ?_, .done (.inr (.inl rfl))⟩
      rw [propose, if_pos (by omega), List.append_nil]
    | succ left =>
      rw [propose, if_neg (by omega)]
      simp only [Model.forwardLogits_ofTotal, ok_bind, sampleToken_nextToken ht draft,
        List.contains_iff_mem]
      by_cases hstop : nextToken draft context ∈ params.stopTokens
      · refine ⟨[], ?_, .done (.inr (.inr hstop))⟩
        rw [if_pos hstop, List.append_nil]
        rfl
      · obtain ⟨ds, hp, hd⟩ := ih left (context ++ [nextToken draft context])
          (drafted ++ [nextToken draft context]) (by simp; omega)
        refine ⟨nextToken draft context :: ds, ?_, .more hstop hd⟩
        rw [if_neg hstop, hp, List.append_assoc]
        rfl

/-- Taking or correcting one draft is a step of the scheme. -/
theorem verify_cons (ht : params.temperature = 0) (dtok : UInt32) (rest : List UInt32)
    (st : Decoding F R) : ∃ st', st'.emitted = st.emitted + 1 ∧
      st'.context = st.context ++ [nextToken target st.context] ∧
      (∀ a, Follows st st' (before [nextToken target st.context] a) a) ∧
      verify (.ofTotal target) params acceptAll (dtok :: rest) st =
        if nextToken target st.context = dtok then
          verify (.ofTotal target) params acceptAll rest st'
        else .ok (.rejected, st') := by
  have hfol := follows_push st (nextToken target st.context) none
  simp only [verify, Model.forwardLogits_ofTotal, ok_bind, sampleToken_nextToken ht target]
  by_cases hacc : nextToken target st.context = dtok
  · simp only [if_pos hacc]
    let counted : Decoding F R :=
      { st with stats := { st.stats with totalAccepted := st.stats.totalAccepted + 1 } }
    exact ⟨(counted.offer acceptAll (nextToken target st.context) none).2.push
      (nextToken target st.context), rfl, rfl, hfol, rfl⟩
  · simp only [if_neg hacc]
    exact ⟨_, rfl, rfl, hfol, rfl⟩

/-- Verifying a block follows the scheme up to the first correction or the end of
the block. -/
theorem verify_follows (ht : params.temperature = 0) (gamma : Nat) {ds context : List UInt32}
    {room left : Nat} (hd : Drafted (nextToken draft) params.stopTokens context room left ds)
    (st : Decoding F R) (hctx : st.context = context)
    (hleft : st.emitted + left = params.maxTokens) :
    ∃ verdict st' room', verify (.ofTotal target) params acceptAll ds st = .ok (verdict, st') ∧
      st.emitted ≤ st'.emitted ∧ st'.emitted ≤ params.maxTokens ∧
      Follows st st'
        (oneByOne (nextToken target) (nextToken draft) params.stopTokens gamma
          (params.maxTokens - st.emitted) st.context room)
        (oneByOne (nextToken target) (nextToken draft) params.stopTokens gamma
          (params.maxTokens - st'.emitted) st'.context room') ∧
      (verdict = .rejected ∧ room' = gamma ∧ st.emitted < st'.emitted ∨
        verdict = .accepted ∧ (room' = 0 ∨ params.maxTokens ≤ st'.emitted ∨
          nextToken draft st'.context ∈ params.stopTokens)) := by
  induction hd generalizing st with
  | @done context room left hend =>
    refine ⟨.accepted, st, room, rfl, Nat.le_refl _, by omega, .refl st _, .inr ⟨rfl, ?_⟩⟩
    obtain h | h | h := hend
    · exact .inl h
    · exact .inr (.inl (by omega))
    · exact .inr (.inr (by rwa [hctx]))
  | @more context ds room left hstop _ ih =>
    subst hctx
    obtain ⟨st₁, hem, hctx₁, hfol, heq⟩ := verify_cons target ht
      (nextToken draft st.context) ds st
    -- one step of the scheme: the block is not over and the draft does not stop
    have hone : oneByOne (nextToken target) (nextToken draft) params.stopTokens gamma
        (params.maxTokens - st.emitted) st.context (room + 1) =
        before [nextToken target st.context] (oneByOne (nextToken target) (nextToken draft)
          params.stopTokens gamma (params.maxTokens - st₁.emitted) st₁.context
          (if nextToken draft st.context = nextToken target st.context then room else gamma)) := by
      rw [show params.maxTokens - st.emitted = (params.maxTokens - st₁.emitted) + 1 by omega, hctx₁]
      simp [oneByOne, hstop]
    rw [heq, hone]
    by_cases hacc : nextToken target st.context = nextToken draft st.context
    · rw [if_pos hacc, if_pos hacc.symm]
      obtain ⟨verdict, st', room', hv, hle, hmax, hfol', hend⟩ :=
        ih st₁ (by rw [hctx₁, hacc]) (by omega)
      refine ⟨verdict, st', room', hv, by omega, hmax, (hfol _).trans hfol', ?_⟩
      obtain ⟨h, hr, -⟩ | h := hend
      · exact .inl ⟨h, hr, by omega⟩
      · exact .inr h
    · rw [if_neg hacc, if_neg (Ne.symm hacc)]
      exact ⟨.rejected, st₁, gamma, rfl, by omega, by omega, hfol _, .inl ⟨rfl, rfl, by omega⟩⟩

/-- The bonus token is a step of the scheme at the end of a block. -/
theorem bonus_follows (ht : params.temperature = 0) (gamma : Nat) {room : Nat}
    (st : Decoding F R) (hlt : st.emitted < params.maxTokens)
    (hend : room = 0 ∨ nextToken draft st.context ∈ params.stopTokens) :
    ∃ finish st', bonus (.ofTotal target) params acceptAll st = .ok (finish, st') ∧
      st'.emitted = st.emitted + 1 ∧
      Follows st st'
        (oneByOne (nextToken target) (nextToken draft) params.stopTokens gamma
          (params.maxTokens - st.emitted) st.context room)
        (restOf finish (oneByOne (nextToken target) (nextToken draft) params.stopTokens gamma
          (params.maxTokens - st'.emitted) st'.context gamma)) := by
  have hfol := follows_push st (nextToken target st.context)
    (if nextToken target st.context ∈ params.stopTokens then some .stop else none)
  have hbonus : bonus (.ofTotal target) params acceptAll st =
      .ok (if nextToken target st.context ∈ params.stopTokens then some .stop else none,
        let st := (st.offer acceptAll (nextToken target st.context)
          (if nextToken target st.context ∈ params.stopTokens then some .stop else none)).2.push
            (nextToken target st.context)
        { st with stats := { st.stats with extraEmitted := st.stats.extraEmitted + 1 } }) := by
    simp only [bonus, Model.forwardLogits_ofTotal, ok_bind, sampleToken_nextToken ht target,
      List.contains_iff_mem]
    rfl
  refine ⟨_, _, hbonus, rfl, ?_⟩
  rw [show params.maxTokens - st.emitted = (params.maxTokens - (st.emitted + 1)) + 1 by omega]
  simp only [oneByOne, if_pos hend]
  exact hfol _

/-- A turn of the draft-target scheme starts a new block and follows it. -/
theorem specRound_follows (ht : params.temperature = 0) (gamma : Nat) (st : Decoding F R)
    (hlt : st.emitted < params.maxTokens) :
    ∃ finish st', specRound (.ofTotal target) (.ofTotal draft) params gamma acceptAll st =
        .ok (finish, st') ∧ st.emitted < st'.emitted ∧ st'.emitted ≤ params.maxTokens ∧
      Follows st st'
        (oneByOne (nextToken target) (nextToken draft) params.stopTokens gamma
          (params.maxTokens - st.emitted) st.context gamma)
        (restOf finish (oneByOne (nextToken target) (nextToken draft) params.stopTokens gamma
          (params.maxTokens - st'.emitted) st'.context gamma)) := by
  obtain ⟨ds, hp, hd⟩ := propose_drafted draft ht st.emitted gamma
    (params.maxTokens - st.emitted) st.context [] st.rng (by simp; omega)
  simp only [specRound, hp, ok_bind, List.nil_append]
  generalize hst : ({ st with rng := st.rng, stats := _ } : Decoding F R) = st₀
  have hem : st₀.emitted = st.emitted := by rw [← hst]
  have hctx : st₀.context = st.context := by rw [← hst]
  have hstart : ∀ {st' a b}, Follows st₀ st' a b → Follows st st' a b := by
    rw [← hst]
    exact fun h => h
  obtain ⟨verdict, st₁, room', hv, hle, hmax, hfol, hend⟩ :=
    verify_follows target draft ht gamma hd st₀ hctx (by omega)
  rw [← hem, ← hctx, hv]
  simp only [ok_bind]
  obtain ⟨rfl, rfl, hmore⟩ | ⟨rfl, hover⟩ := hend
  · exact ⟨none, st₁, rfl, hmore, hmax, hstart hfol⟩
  · by_cases hlt₁ : st₁.emitted < params.maxTokens
    · obtain ⟨finish, st₂, hb, hem₂, hfol₂⟩ := bonus_follows target draft ht gamma
        st₁ hlt₁ (hover.imp_right fun h => h.resolve_left (by omega))
      simp only [if_pos hlt₁, hb]
      exact ⟨finish, st₂, rfl, by omega, by omega, hstart (hfol.trans hfol₂)⟩
    · simp only [if_neg hlt₁]
      refine ⟨none, st₁, rfl, by omega, hmax, hstart (hfol.trans ?_)⟩
      rw [show params.maxTokens - st₁.emitted = 0 by omega]
      exact .refl st₁ _

end DraftTarget

section Witness

/-- Rational logits. Greedy decoding only compares them. -/
instance : Floating Rat where
  lt a b := decide (a < b)
  le a b := decide (a ≤ b)
  cmp a b := some (if a < b then .lt else if b < a then .gt else .eq)
  max a b := if a < b then b else a
  exp a := 1 + a + a * a / 2
  negInfinity := -3.4e38
  zero_lt_threshold := by decide +kernel

instance : Rng UInt64 Rat where
  seedFromU64 seed := seed
  gen s := (s.toNat / 2 ^ 64, s * 6364136223846793005 + 1442695040888963407)

end Witness

end JustApi.Inference.SpecLossless
