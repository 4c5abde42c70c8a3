import Mathlib.Algebra.Order.Field.Basic
import JustApi.Inference.SpecLossless

/-! # What the speculation statistics count

The two schemes bump their counters at different points of a turn. For each of them,
by how much a turn moves the count of emitted tokens away from the tokens the sink was
passed, and from it for which runs the statistics are exact. -/
namespace JustApi.Inference.SpecDecode.AcceptanceStats

/-- Total tokens emitted. -/
def tokensEmitted (stats : AcceptanceStats) : Nat := stats.totalAccepted + stats.extraEmitted

/-- The draft acceptance rate, before its rounding to an `f64`. -/
def acceptanceRate (stats : AcceptanceStats) : ℚ :=
  if stats.totalDraft = 0 then 0 else stats.totalAccepted / stats.totalDraft

theorem acceptanceRate_mem {stats : AcceptanceStats} (h : stats.totalAccepted ≤ stats.totalDraft) :
    0 ≤ stats.acceptanceRate ∧ stats.acceptanceRate ≤ 1 := by
  unfold acceptanceRate
  split
  · simp
  · have hpos : (0 : ℚ) < stats.totalDraft := by
      have : 0 < stats.totalDraft := by omega
      exact_mod_cast this
    have hle : (stats.totalAccepted : ℚ) ≤ stats.totalDraft := by exact_mod_cast h
    exact ⟨div_nonneg (Nat.cast_nonneg _) hpos.le, (div_le_one hpos).mpr hle⟩

end JustApi.Inference.SpecDecode.AcceptanceStats

namespace JustApi.Inference.SpecStatistics
open JustApi.Lib.Result JustApi.Inference.LanguageModel JustApi.Inference.SpecDecode
open JustApi.Inference.SpecDecodeTree

section Loop

variable {F R : Type} {maxTokens : Nat}
  {round : Decoding F R → Except ModelError (Option FinishReason × Decoding F R)}

/-- The states in which the loop takes a turn. -/
def heads (maxTokens : Nat)
    (round : Decoding F R → Except ModelError (Option FinishReason × Decoding F R)) :
    Nat → Decoding F R → List (Decoding F R)
  | 0, _ => []
  | fuel + 1, st =>
    if st.emitted < maxTokens then
      st :: match round st with
        | .ok (none, st') => heads maxTokens round fuel st'
        | _ => []
    else []

/-- The statistics agree with the tokens the sink was passed. -/
def Exact (stats : AcceptanceStats) (out : List (GeneratedToken F)) : Prop :=
  stats.tokensEmitted = out.length ∧ stats.totalAccepted ≤ stats.totalDraft ∧
    0 ≤ stats.acceptanceRate ∧ stats.acceptanceRate ≤ 1

theorem exact_iff {stats : AcceptanceStats} {out : List (GeneratedToken F)} :
    Exact stats out ↔ stats.tokensEmitted = out.length ∧ stats.totalAccepted ≤ stats.totalDraft := by
  constructor
  · intro ⟨hcount, hle, _⟩
    exact ⟨hcount, hle⟩
  · intro ⟨hcount, hle⟩
    exact ⟨hcount, hle, AcceptanceStats.acceptanceRate_mem hle⟩

/-- A turn is taken in the first state, and the others follow it. -/
theorem decodeLoop_turn {fuel : Nat} {st st' : Decoding F R} {finish : FinishReason}
    (hlt : st.emitted < maxTokens)
    (h : decodeLoop maxTokens round (fuel + 1) st = .ok (finish, st')) :
    (round st = .ok (some finish, st') ∧ heads maxTokens round (fuel + 1) st = [st]) ∨
      ∃ u, round st = .ok (none, u) ∧ decodeLoop maxTokens round fuel u = .ok (finish, st') ∧
        heads maxTokens round (fuel + 1) st = st :: heads maxTokens round fuel u := by
  rw [decodeLoop, if_pos hlt] at h
  obtain ⟨⟨ended, u⟩, hround, h⟩ := bind_eq_ok.mp h
  rw [heads, if_pos hlt, hround]
  cases ended with
  | some f =>
    cases h
    exact .inl ⟨rfl, rfl⟩
  | none => exact .inr ⟨u, rfl, h, rfl⟩

/-- What every turn from a state that meets `C` keeps, a loop whose turns all start in
such states keeps. -/
theorem decodeLoop_invariant {C I : Decoding F R → Prop}
    (hstep : ∀ st finish st', st.emitted < maxTokens → C st → I st →
      round st = .ok (finish, st') → I st') {fuel : Nat} {st st' : Decoding F R}
    {finish : FinishReason} (hall : ∀ u ∈ heads maxTokens round fuel st, C u) (hst : I st)
    (h : decodeLoop maxTokens round fuel st = .ok (finish, st')) : I st' := by
  induction fuel generalizing st with
  | zero => cases h; exact hst
  | succ fuel ih =>
    by_cases hlt : st.emitted < maxTokens
    · rcases decodeLoop_turn hlt h with ⟨hround, hheads⟩ | ⟨u, hround, hrest, hheads⟩
      · exact hstep st _ st' hlt (hall st (by simp [hheads])) hst hround
      · rw [hheads, List.forall_mem_cons] at hall
        exact ih hall.2 (hstep st _ u hlt hall.1 hst hround) hrest
    · rw [decodeLoop, if_neg hlt] at h
      cases h
      exact hst

/-- When no turn lowers a gap, and a turn keeps it exactly if it starts in a state that
meets `C`, then the loop keeps it exactly if all its turns do. -/
theorem decodeLoop_gap {C : Decoding F R → Prop} (gap : Decoding F R → ℤ)
    (hstep : ∀ st finish st', st.emitted < maxTokens → round st = .ok (finish, st') →
      gap st ≤ gap st' ∧ (gap st' = gap st ↔ C st)) {fuel : Nat} {st st' : Decoding F R}
    {finish : FinishReason} (h : decodeLoop maxTokens round fuel st = .ok (finish, st')) :
    gap st ≤ gap st' ∧ (gap st' = gap st ↔ ∀ u ∈ heads maxTokens round fuel st, C u) := by
  induction fuel generalizing st with
  | zero =>
    cases h
    simp [heads]
  | succ fuel ih =>
    by_cases hlt : st.emitted < maxTokens
    · rcases decodeLoop_turn hlt h with ⟨hround, hheads⟩ | ⟨u, hround, hrest, hheads⟩
      · simpa [hheads] using hstep st _ st' hlt hround
      · obtain ⟨hle, hiff⟩ := hstep st _ u hlt hround
        obtain ⟨hle', hiff'⟩ := ih hrest
        rw [hheads, List.forall_mem_cons, ← hiff, ← hiff']
        omega
    · rw [decodeLoop, if_neg hlt] at h
      cases h
      simp [heads, hlt]

/-- As every turn emits a token, more turns than tokens are never taken. -/
theorem decodeLoop_enough
    (hstep : ∀ st st', st.emitted < maxTokens → round st = .ok (none, st') →
      st.emitted < st'.emitted) (more : Nat) {fuel : Nat} {st : Decoding F R}
    (hfuel : maxTokens ≤ st.emitted + fuel) :
    decodeLoop maxTokens round (fuel + more) st = decodeLoop maxTokens round fuel st := by
  induction fuel generalizing st with
  | zero =>
    cases more with
    | zero => rfl
    | succ more =>
      have hend : ¬ st.emitted < maxTokens := by omega
      simp [decodeLoop, hend]
  | succ fuel ih =>
    rw [Nat.add_right_comm, decodeLoop, decodeLoop]
    split
    · rename_i hlt
      cases hround : round st with
      | error e => rfl
      | ok r =>
        obtain ⟨ended, u⟩ := r
        cases ended with
        | some f => rfl
        | none =>
          have := hstep st u hlt hround
          exact ih (by omega)
    · rfl

theorem decodeLoop_returns (maxTokens : Nat) (hround : ∀ st, ∃ r, round st = .ok r) (fuel : Nat)
    (st : Decoding F R) : ∃ r, decodeLoop maxTokens round fuel st = .ok r := by
  induction fuel generalizing st with
  | zero => exact ⟨_, rfl⟩
  | succ fuel ih =>
    obtain ⟨⟨ended, u⟩, hr⟩ := hround st
    rw [decodeLoop]
    split
    · rw [hr, ok_bind]
      cases ended with
      | some f => exact ⟨_, rfl⟩
      | none => exact ih u
    · exact ⟨_, rfl⟩

end Loop

section DraftTarget

variable {F R : Type} [Floating F] [Rng R F] {target draft : Model F} {params : SamplingParams F}
  {gamma : Nat}

/-- The target samples the drafted tokens one after the other. -/
def Agrees (target : Model F) (params : SamplingParams F) :
    List UInt32 → List UInt32 → R → Prop
  | _, [], _ => True
  | context, dtok :: rest, rng => ∃ logits, target.forwardLogits context = .ok logits ∧
      (sampleToken logits params rng).1 = dtok ∧
      Agrees target params (context ++ [dtok]) rest (sampleToken logits params rng).2

/-- The block drafted in this turn is not rejected. -/
def BlockTaken (target draft : Model F) (params : SamplingParams F) (gamma : Nat)
    (st : Decoding F R) : Prop :=
  ∃ drafted rng, propose draft params st.emitted gamma st.context [] st.rng = .ok (drafted, rng) ∧
    Agrees target params st.context drafted rng

/-- How a verified block moves the counters: by the drafts taken, and after these comes
the correction, which no counter sees. -/
structure Verifies (agrees : Prop) (drafted : Nat) (verdict : Verdict) (st st' : Decoding F R) :
    Prop where
  ended : (verdict = .accepted ∧ agrees) ∨ (verdict = .rejected ∧ ¬ agrees)
  counters : ∃ taken ≤ drafted,
    st'.stats = { st.stats with totalAccepted := st.stats.totalAccepted + taken } ∧
    st'.out.length = st.out.length + taken + (if verdict = .rejected then 1 else 0) ∧
    st'.emitted = st.emitted + taken + (if verdict = .rejected then 1 else 0) ∧
    (verdict = .accepted → taken = drafted)

theorem verify_spec {drafted : List UInt32} {st st' : Decoding F R} {verdict : Verdict}
    (h : verify target params acceptAll drafted st = .ok (verdict, st')) :
    Verifies (Agrees target params st.context drafted st.rng) drafted.length verdict st st' := by
  induction drafted generalizing st with
  | nil =>
    cases h
    exact ⟨.inl ⟨rfl, trivial⟩, 0, Nat.le_refl 0, rfl, by simp, by simp, by simp⟩
  | cons dtok rest ih =>
    obtain ⟨logits, hlogits, h⟩ := bind_eq_ok.mp h
    by_cases htok : (sampleToken logits params st.rng).1 = dtok
    · simp only [htok, if_true, Decoding.offer, acceptAll, Decoding.push] at h
      obtain ⟨hended, taken, hle, hstats, hout, hemitted, hall⟩ := ih h
      have hagrees : Agrees target params st.context (dtok :: rest) st.rng ↔
          Agrees target params (st.context ++ [dtok]) rest (sampleToken logits params st.rng).2 := by
        simp [Agrees, hlogits, htok]
      refine ⟨by rwa [hagrees], taken + 1, by simpa using hle, ?_, ?_, ?_, ?_⟩
      · rw [hstats]
        simp [Nat.add_comm, Nat.add_left_comm]
      · simp only [List.length_append, List.length_singleton] at hout
        omega
      · simp only at hemitted
        omega
      · intro hv
        simp [hall hv]
    · simp only [htok, if_false, Decoding.offer, acceptAll, Decoding.push] at h
      cases h
      refine ⟨.inr ⟨rfl, ?_⟩, 0, Nat.zero_le _, by simp, by simp, by simp, by simp⟩
      simp [Agrees, hlogits, htok]

/-- The bonus token is counted. -/
theorem bonus_spec {finish : Option FinishReason} {st st' : Decoding F R}
    (h : bonus target params acceptAll st = .ok (finish, st')) :
    st'.stats = { st.stats with extraEmitted := st.stats.extraEmitted + 1 } ∧
      st'.out.length = st.out.length + 1 ∧ st'.emitted = st.emitted + 1 := by
  obtain ⟨logits, -, h⟩ := bind_eq_ok.mp h
  cases h
  exact ⟨rfl, by simp [Decoding.push], rfl⟩

/-- A turn: the tokens passed to the sink outnumber the counted ones by one more
exactly when the block is rejected, and never are more drafts taken than proposed. -/
theorem specRound_spec {finish : Option FinishReason} {st st' : Decoding F R}
    (hlt : st.emitted < params.maxTokens)
    (h : specRound target draft params gamma acceptAll st = .ok (finish, st')) :
    st.emitted < st'.emitted ∧
    st.out.length + st'.stats.tokensEmitted ≤ st'.out.length + st.stats.tokensEmitted ∧
    (st'.out.length + st.stats.tokensEmitted = st.out.length + st'.stats.tokensEmitted ↔
      BlockTaken target draft params gamma st) ∧
    (st.stats.totalAccepted ≤ st.stats.totalDraft →
      st'.stats.totalAccepted ≤ st'.stats.totalDraft) := by
  obtain ⟨⟨drafted, rng⟩, hpropose, h⟩ := bind_eq_ok.mp h
  obtain ⟨⟨verdict, u⟩, hverify, h⟩ := bind_eq_ok.mp h
  obtain ⟨hended, taken, hle, hstats, hout, hemitted, hall⟩ := verify_spec hverify
  have hblock : BlockTaken target draft params gamma st ↔
      Agrees target params st.context drafted rng := by
    simp only at hpropose
    simp [BlockTaken, hpropose]
  rw [hblock]
  rcases hended with ⟨rfl, hagrees⟩ | ⟨rfl, hnot⟩
  · simp only at hagrees hout hemitted hstats h
    by_cases hroom : u.emitted < params.maxTokens
    · rw [if_pos hroom] at h
      obtain ⟨hstats', hout', hemitted'⟩ := bonus_spec h
      simp_all [AcceptanceStats.tokensEmitted]
      omega
    · rw [if_neg hroom] at h
      cases h
      simp_all [AcceptanceStats.tokensEmitted]
      omega
  · simp only at hnot hout hemitted hstats h
    cases h
    simp_all [AcceptanceStats.tokensEmitted]
    omega

end DraftTarget

section Emission

variable {F R : Type} [Floating F] {params : SamplingParams F}

/-- What is emitted of an accepted path, and when it is all of it. -/
theorem emitAccepted_spec {toks : List UInt32} {finish : Option FinishReason}
    {st st' : Decoding F R} (h : emitAccepted params acceptAll toks st = (finish, st'))
    (hle : st.emitted ≤ params.maxTokens) :
    ∃ n ≤ toks.length, st'.stats = st.stats ∧ st'.out.length = st.out.length + n ∧
      st'.emitted = st.emitted + n ∧ (finish ≠ none → 0 < n) ∧
      (n = toks.length ↔ st.emitted + toks.length ≤ params.maxTokens ∧
        ∀ tok ∈ toks.dropLast, tok ∉ params.stopTokens) := by
  induction toks generalizing st with
  | nil =>
    cases h
    exact ⟨0, Nat.le_refl 0, rfl, rfl, rfl, by simp, by simpa using hle⟩
  | cons tok rest ih =>
    rw [emitAccepted] at h
    by_cases hend : params.maxTokens ≤ st.emitted
    · rw [if_pos hend] at h
      cases h
      refine ⟨0, Nat.zero_le _, rfl, rfl, rfl, by simp, ?_⟩
      simp only [List.length_cons]
      omega
    · rw [if_neg hend, SpecLossless.emit_acceptAll] at h
      by_cases hstop : tok ∈ params.stopTokens
      · simp only [hstop, if_true] at h
        cases h
        refine ⟨1, by simp, rfl, by simp [Decoding.offer, Decoding.push], rfl, by simp, ?_⟩
        cases rest with
        | nil =>
          simp
          omega
        | cons next rest => simp [hstop]
      · simp only [hstop, if_false] at h
        have hle' : ((st.offer acceptAll tok none).2.push tok).emitted ≤ params.maxTokens := by
          simp only [Decoding.push, Decoding.offer]
          omega
        obtain ⟨n, hn, hstats, hout, hemitted, hfin, hall⟩ := ih h hle'
        simp only [Decoding.push, Decoding.offer, List.length_append,
          List.length_singleton] at hstats hout hemitted hall
        refine ⟨n + 1, by simpa using hn, hstats, by omega, by omega, by simp, ?_⟩
        rw [List.length_cons, Nat.add_right_cancel_iff, hall, Nat.add_assoc, Nat.add_comm 1]
        cases rest with
        | nil => simp
        | cons next rest => simp [hstop]

end Emission

section Tree

variable {F R : Type} [Floating F] [Rng R F] {target draft : Model F} {params : SamplingParams F}
  {gamma branch : Nat}

/-- The path accepted in this turn is emitted whole: it fits below `max_tokens`, and
only its last token may be a stop token. -/
def PathEmitted (target draft : Model F) (params : SamplingParams F) (gamma branch : Nat)
    (st : Decoding F R) : Prop :=
  ∃ tree v rng, buildDraftTree draft st.context gamma branch = .ok tree ∧
    verifyTree target tree st.context params st.rng = .ok (v, rng) ∧
    st.emitted + v.accepted.length ≤ params.maxTokens ∧
    ∀ tok ∈ v.accepted.dropLast, tok ∉ params.stopTokens

/-- A walk accepts at most one token per level, counts what it accepts, and ends with
one more. -/
theorem walk_spec {depth : Nat} {context accepted : List UInt32} {frontier : List (TreeNode F)}
    {rng rng' : R} {v : Verified}
    (h : walk target params depth context frontier accepted rng = .ok (v, rng')) :
    v.count = v.accepted.length ∧ v.accepted.length ≤ accepted.length + depth ∧
      v.bonusOrCorrection.isSome = true := by
  induction depth generalizing context accepted frontier rng with
  | zero =>
    obtain ⟨⟨tok, r⟩, -, h⟩ := bind_eq_ok.mp h
    cases h
    simp
  | succ depth ih =>
    obtain ⟨⟨tok, r⟩, -, h⟩ := bind_eq_ok.mp h
    dsimp only at h
    split at h
    · cases h
      simp
    · split at h
      · obtain ⟨⟨next, r'⟩, -, h⟩ := bind_eq_ok.mp h
        cases h
        simp
      · obtain ⟨hcount, hle, hsome⟩ := ih h
        exact ⟨hcount, by simp at hle; omega, hsome⟩

theorem gamma_buildDraftTree {context : List UInt32} {tree : DraftTree F}
    (h : buildDraftTree draft context gamma branch = .ok tree) : tree.gamma ≤ gamma := by
  unfold buildDraftTree at h
  split at h
  · cases h
    exact Nat.zero_le gamma
  · obtain ⟨roots, -, h⟩ := bind_eq_ok.mp h
    cases h
    exact Nat.le_refl gamma

/-- A turn: the counted tokens outnumber those passed to the sink by more exactly when
the accepted path is cut. -/
theorem treeRound_spec {finish : Option FinishReason} {st st' : Decoding F R}
    (hlt : st.emitted < params.maxTokens)
    (h : treeRound target draft params gamma branch acceptAll st = .ok (finish, st')) :
    st.emitted < st'.emitted ∧
    st'.out.length + st.stats.tokensEmitted ≤ st.out.length + st'.stats.tokensEmitted ∧
    (st'.out.length + st.stats.tokensEmitted = st.out.length + st'.stats.tokensEmitted ↔
      PathEmitted target draft params gamma branch st) ∧
    (PathEmitted target draft params gamma branch st →
      st.stats.totalAccepted ≤ st.stats.totalDraft →
        st'.stats.totalAccepted ≤ st'.stats.totalDraft) := by
  obtain ⟨tree, htree, h⟩ := bind_eq_ok.mp h
  obtain ⟨⟨v, rng⟩, hverify, h⟩ := bind_eq_ok.mp h
  obtain ⟨hcount, hdepth, hsome⟩ := walk_spec hverify
  have hgamma := gamma_buildDraftTree htree
  have hpath : PathEmitted target draft params gamma branch st ↔
      st.emitted + v.accepted.length ≤ params.maxTokens ∧
        ∀ tok ∈ v.accepted.dropLast, tok ∉ params.stopTokens := by
    simp [PathEmitted, htree, hverify]
  rw [hpath]
  dsimp only at h
  split at h
  · rename_i f u hemit
    obtain ⟨n, hn, hstats, hout, hemitted, hfin, hall⟩ := emitAccepted_spec hemit (Nat.le_of_lt hlt)
    cases h
    have := hfin (by simp)
    simp only at hout hemitted hall
    rw [← hall]
    simp [hstats, hout, hemitted, hcount, AcceptanceStats.tokensEmitted] at *
    omega
  · rename_i u hemit
    obtain ⟨n, hn, hstats, hout, hemitted, -, hall⟩ := emitAccepted_spec hemit (Nat.le_of_lt hlt)
    simp only at hout hemitted hall
    rw [← hall]
    by_cases hend : params.maxTokens ≤ u.emitted
    · rw [if_pos hend] at h
      cases h
      simp [hstats, hout, hemitted, hcount, AcceptanceStats.tokensEmitted] at *
      omega
    · rw [if_neg hend] at h
      obtain ⟨tok, htok⟩ := Option.isSome_iff_exists.mp hsome
      have hkept : (if tok ∈ params.stopTokens then some .stop else none) ≠
          some FinishReason.cancelled := by split <;> simp
      rw [htok] at h
      dsimp only at h
      rw [SpecLossless.emit_acceptAll, if_neg hkept] at h
      cases h
      simp [hstats, hout, hemitted, hcount, AcceptanceStats.tokensEmitted, Decoding.push,
        Decoding.offer] at *
      omega

end Tree

/-! ## Both schemes return -/

section Returns

variable {F R : Type} [Floating F] [Rng R F] (params : SamplingParams F)
  (target draft : List UInt32 → List F)

theorem propose_returns (emitted gamma : Nat) (context drafted : List UInt32) (rng : R) :
    ∃ r, propose (.ofTotal draft) params emitted gamma context drafted rng = .ok r := by
  induction gamma generalizing context drafted rng with
  | zero => exact ⟨_, rfl⟩
  | succ gamma ih =>
    rw [propose]
    split
    · exact ⟨_, rfl⟩
    · simp only [Model.forwardLogits_ofTotal, ok_bind]
      split
      · exact ⟨_, rfl⟩
      · exact ih _ _ _

theorem verify_returns (drafted : List UInt32) (st : Decoding F R) :
    ∃ r, verify (.ofTotal target) params acceptAll drafted st = .ok r := by
  induction drafted generalizing st with
  | nil => exact ⟨_, rfl⟩
  | cons dtok rest ih =>
    simp only [verify, Model.forwardLogits_ofTotal, ok_bind]
    split
    · exact ih _
    · exact ⟨_, rfl⟩

theorem specRound_returns (gamma : Nat) (st : Decoding F R) :
    ∃ r, specRound (.ofTotal target) (.ofTotal draft) params gamma acceptAll st = .ok r := by
  obtain ⟨⟨drafted, rng⟩, hpropose⟩ :=
    propose_returns params draft st.emitted gamma st.context [] st.rng
  simp only [specRound, hpropose, ok_bind]
  obtain ⟨⟨verdict, u⟩, hverify⟩ := verify_returns params target drafted
    { st with rng := rng, stats :=
      { st.stats with
        steps := st.stats.steps + 1
        totalDraft := st.stats.totalDraft + drafted.length } }
  rw [hverify, ok_bind]
  cases verdict with
  | cancelled => exact ⟨_, rfl⟩
  | rejected => exact ⟨_, rfl⟩
  | accepted =>
    dsimp only
    split
    · exact ⟨_, rfl⟩
    · exact ⟨_, rfl⟩

theorem walk_returns (depth : Nat) (context accepted : List UInt32) (frontier : List (TreeNode F))
    (rng : R) : ∃ r, walk (.ofTotal target) params depth context frontier accepted rng = .ok r := by
  induction depth generalizing context accepted frontier rng with
  | zero => exact ⟨_, rfl⟩
  | succ depth ih =>
    simp only [walk, targetToken, Model.forwardLogits_ofTotal, ok_bind]
    dsimp only [pure, Except.pure]
    simp only [ok_bind]
    split
    · exact ⟨_, rfl⟩
    · split
      · exact ⟨_, rfl⟩
      · exact ih _ _ _ _

theorem treeRound_returns (gamma branch : Nat) (st : Decoding F R) :
    ∃ r, treeRound (.ofTotal target) (.ofTotal draft) params gamma branch acceptAll st = .ok r := by
  obtain ⟨tree, htree⟩ := SpecLossless.buildDraftTree_succeeds draft st.context gamma branch
  obtain ⟨⟨v, rng⟩, hwalk⟩ := walk_returns params target tree.gamma st.context []
    tree.roots st.rng
  simp only [treeRound, htree, verifyTree, hwalk, ok_bind]
  split
  · exact ⟨_, rfl⟩
  · split
    · exact ⟨_, rfl⟩
    · split
      · exact ⟨_, rfl⟩
      · exact ⟨_, rfl⟩

end Returns

section Exactness

variable {F R : Type} [Floating F] [Rng R F]

/-- Where a run of the draft-target scheme begins. -/
def specStart (R : Type) [Rng R F] (prompt : List UInt32) (seed : UInt64) : Decoding F R :=
  ⟨prompt, 0, Rng.seedFromU64 F seed, .default, []⟩

def treeStart (R : Type) [Rng R F] (prompt : List UInt32) (branch : Nat) (seed : UInt64) :
    Decoding F R :=
  ⟨prompt, 0, Rng.seedFromU64 F seed, .withTreeBranch branch, []⟩

/-- The loop-head states of a run of the draft-target scheme. -/
def specHeads (R : Type) [Rng R F] (target draft : Model F) (prompt : List UInt32)
    (params : SamplingParams F) (gamma : Nat) (seed : UInt64) : List (Decoding F R) :=
  heads params.maxTokens (specRound target draft params gamma acceptAll) params.maxTokens
    (specStart R prompt seed)

def treeHeads (R : Type) [Rng R F] (target draft : Model F) (prompt : List UInt32)
    (params : SamplingParams F) (gamma branch : Nat) (seed : UInt64) : List (Decoding F R) :=
  heads params.maxTokens (treeRound target draft params gamma branch acceptAll) params.maxTokens
    (treeStart R prompt branch seed)

/-- The bound on the turns is never what ends a run. -/
theorem turns_enough (target draft : Model F) (params : SamplingParams F) (gamma branch more : Nat)
    (st : Decoding F R) :
    decodeLoop params.maxTokens (specRound target draft params gamma acceptAll)
        (params.maxTokens + more) st =
      decodeLoop params.maxTokens (specRound target draft params gamma acceptAll)
        params.maxTokens st ∧
    decodeLoop params.maxTokens (treeRound target draft params gamma branch acceptAll)
        (params.maxTokens + more) st =
      decodeLoop params.maxTokens (treeRound target draft params gamma branch acceptAll)
        params.maxTokens st :=
  ⟨decodeLoop_enough (fun _ _ hlt h => (specRound_spec hlt h).1) more (Nat.le_add_left _ _),
    decodeLoop_enough (fun _ _ hlt h => (treeRound_spec hlt h).1) more (Nat.le_add_left _ _)⟩

theorem spec_exact_iff {target draft : Model F} {prompt : List UInt32} {params : SamplingParams F}
    {gamma : Nat} {seed : UInt64} {finish : FinishReason} {stats : AcceptanceStats}
    {out : List (GeneratedToken F)}
    (h : speculativeGenerate R target draft prompt params gamma seed acceptAll =
      .ok (finish, stats, out)) :
    Exact stats out ↔ ∀ st ∈ specHeads R target draft prompt params gamma seed,
      BlockTaken target draft params gamma st := by
  obtain ⟨⟨f, st⟩, hloop, h⟩ := bind_eq_ok.mp h
  cases h
  have hgap := (decodeLoop_gap (C := BlockTaken target draft params gamma)
    (fun st => (st.out.length : ℤ) - st.stats.tokensEmitted)
    (fun st finish st' hlt hround => by
      obtain ⟨-, hle, hiff, -⟩ := specRound_spec hlt hround
      rw [← hiff]
      omega) hloop).2
  have hle : st.stats.totalAccepted ≤ st.stats.totalDraft :=
    decodeLoop_invariant (C := fun _ => True)
      (I := fun st => st.stats.totalAccepted ≤ st.stats.totalDraft)
      (fun st finish st' hlt _ hI hround => (specRound_spec hlt hround).2.2.2 hI)
      (fun _ _ => trivial) (Nat.le_refl 0) hloop
  rw [exact_iff, and_iff_left hle, specHeads, specStart, ← hgap]
  simp [AcceptanceStats.tokensEmitted, AcceptanceStats.default]
  omega

theorem tree_exact_iff {target draft : Model F} {prompt : List UInt32} {params : SamplingParams F}
    {gamma branch : Nat} {seed : UInt64} {finish : FinishReason} {stats : AcceptanceStats}
    {out : List (GeneratedToken F)}
    (h : speculativeGenerateTree R target draft prompt params gamma branch seed acceptAll =
      .ok (finish, stats, out)) :
    Exact stats out ↔ ∀ st ∈ treeHeads R target draft prompt params gamma branch seed,
      PathEmitted target draft params gamma branch st := by
  obtain ⟨⟨f, st⟩, hloop, h⟩ := bind_eq_ok.mp h
  cases h
  have hgap := (decodeLoop_gap (C := PathEmitted target draft params gamma branch)
    (fun st => (st.stats.tokensEmitted : ℤ) - st.out.length)
    (fun st finish st' hlt hround => by
      obtain ⟨-, hle, hiff, -⟩ := treeRound_spec hlt hround
      rw [← hiff]
      omega) hloop).2
  rw [exact_iff, treeHeads, treeStart, ← hgap]
  constructor
  · intro ⟨hcount, _⟩
    simp [AcceptanceStats.tokensEmitted, AcceptanceStats.withTreeBranch,
      AcceptanceStats.default] at *
    omega
  · intro hcount
    have hle : st.stats.totalAccepted ≤ st.stats.totalDraft :=
      decodeLoop_invariant (I := fun st => st.stats.totalAccepted ≤ st.stats.totalDraft)
        (fun st finish st' hlt hC hI hround => (treeRound_spec hlt hround).2.2.2 hC hI)
        (hgap.mp hcount) (Nat.le_refl 0) hloop
    simp [AcceptanceStats.tokensEmitted, AcceptanceStats.withTreeBranch,
      AcceptanceStats.default] at *
    omega

end Exactness

section Examples

/-- A prompt to go on from, at temperature zero, for two tokens. -/
def twoTokens : SamplingParams Rat :=
  { maxTokens := 2, temperature := 0, topP := 1, topK := 0, stopTokens := [] }

/-- A model of two tokens that always answers the one. -/
def always (tok : Nat) : Model Rat := .ofTotal fun _ => [0, 0].set tok 1

/-- A model of one token. -/
def single : Model Rat := .ofTotal fun _ => [1]

/-- What the statistics of a run count as emitted, accepted and proposed, and how many
tokens the sink was passed. -/
def counts {F : Type} (run : Except ModelError (FinishReason × AcceptanceStats ×
    List (GeneratedToken F))) : Except ModelError (Nat × Nat × Nat × Nat) :=
  run.map fun r => (r.2.1.tokensEmitted, r.2.1.totalAccepted, r.2.1.totalDraft, r.2.2.length)

theorem counts_eq_ok {F : Type} {run : Except ModelError (FinishReason × AcceptanceStats ×
    List (GeneratedToken F))} {emitted accepted proposed passed : Nat}
    (h : counts run = .ok (emitted, accepted, proposed, passed)) :
    ∃ finish stats out, run = .ok (finish, stats, out) ∧
      stats.tokensEmitted = emitted ∧ stats.totalAccepted = accepted ∧
      stats.totalDraft = proposed ∧ out.length = passed := by
  obtain ⟨⟨finish, stats, out⟩, hrun, h⟩ := map_eq_ok.mp h
  simp only [Prod.mk.injEq] at h
  exact ⟨finish, stats, out, hrun, h⟩

end Examples

end JustApi.Inference.SpecStatistics
