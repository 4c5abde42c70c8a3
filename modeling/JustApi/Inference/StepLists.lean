import JustApi.Inference.SchedulerFrame

/-! # The work a step lists and its answers

Which sequences stand in the prefill and in the decode list of a step, and what
answering every entry with one token does to the batch. -/
namespace JustApi.Inference.Scheduling
open JustApi.Lib.Result JustApi.Inference.KvCache JustApi.Inference.RadixCache

variable {F : Type}

namespace Scheduler

/-! ## The prefill list -/

/-- What one pass of the prefill loop does to a sequence. -/
inductive Passed (r : RunningSeq F) : RunningSeq F → Prop
  | same : Passed r r
  | switch : r.state = .prefilling → r.prompt.length ≤ r.numPrefilled →
      Passed r { r with state := .decoding }
  | feed {n : Nat} : r.state = .prefilling → 0 < n → r.numPrefilled + n ≤ r.prompt.length →
      Passed r (feed r n)

theorem Fed.passed {rs rs' : List (RunningSeq F)} {steps : List PrefillStep}
    (h : Fed rs steps rs') : List.Forall₂ Passed rs rs' := by
  induction h with
  | nil => exact .nil
  | same r _ ih => exact .cons .same ih
  | switch hs hle _ ih => exact .cons (.switch hs hle) ih
  | feed hs hn hle _ ih => exact .cons (.feed hs hn hle) ih

namespace Passed

variable {r r' : RunningSeq F}

theorem seq (h : Passed r r') : r'.seq = r.seq := by
  cases h <;> rfl

theorem params (h : Passed r r') : r'.params = r.params := by
  cases h <;> rfl

theorem prompt (h : Passed r r') : r'.prompt = r.prompt := by
  cases h <;> rfl

theorem numGenerated (h : Passed r r') : r'.numGenerated = r.numGenerated := by
  cases h <;> rfl

/-- A sequence that decodes is passed over. -/
theorem of_decoding (h : Passed r r') (hr : r.state = .decoding) : r' = r := by
  cases h with
  | same => rfl
  | switch hs _ => rw [hr] at hs; cases hs
  | feed hs _ _ => rw [hr] at hs; cases hs

end Passed

/-- A member of the batch after the pass comes from one before it. -/
theorem exists_of_passed {rs rs' : List (RunningSeq F)} {r' : RunningSeq F}
    (h : List.Forall₂ Passed rs rs') (hr' : r' ∈ rs') : ∃ r ∈ rs, Passed r r' := by
  induction h with
  | nil => cases hr'
  | cons hp _ ih =>
    rcases List.mem_cons.mp hr' with rfl | hr'
    · exact ⟨_, List.mem_cons_self, hp⟩
    · obtain ⟨r, hr, hp⟩ := ih hr'
      exact ⟨r, List.mem_cons_of_mem _ hr, hp⟩

/-- The steps are of prefilling sequences, in the order of the batch. -/
theorem Fed.steps_sublist {rs rs' : List (RunningSeq F)} {steps : List PrefillStep}
    (h : Fed rs steps rs') : (steps.map PrefillStep.seqId).Sublist
      ((rs.filter fun r => r.state = .prefilling).map fun r => r.seq.id) := by
  induction h with
  | nil => exact List.Sublist.refl _
  | same r _ ih =>
    rw [List.filter_cons]
    split
    · exact ih.cons _
    · exact ih
  | switch hs _ _ ih =>
    rw [List.filter_cons_of_pos (by simpa using hs)]
    exact ih.cons _
  | feed hs _ _ _ ih =>
    rw [List.filter_cons_of_pos (by simpa using hs)]
    exact ih.cons_cons _

/-! ## The decode list -/

/-- How many sequences a step lists for decoding at most. -/
def decodeShare (config : SchedulerConfig) (rs : List (RunningSeq F)) : Nat :=
  min (rs.countP fun r => r.state = .decoding) config.maxNumBatchedTokens

theorem buildSchedule_decode (s : Scheduler F) (blocked : Bool) :
    (s.buildSchedule blocked).1.decode =
      (((s.buildSchedule blocked).2.running.filter fun r => r.state = .decoding).take
        (decodeShare s.config s.running)).map fun r => r.seq.id := rfl

/-- The decoding sequences of a batch are decoding after the pass. -/
theorem countP_le_of_passed {rs rs' : List (RunningSeq F)} (h : List.Forall₂ Passed rs rs') :
    rs.countP (fun r => r.state = .decoding) ≤
      (rs'.filter fun r => r.state = .decoding).length := by
  rw [← List.countP_eq_length_filter]
  induction h with
  | nil => exact Nat.le_refl _
  | @cons r r' rs rs' hp _ ih =>
    rw [List.countP_cons, List.countP_cons]
    refine Nat.add_le_add ih ?_
    by_cases hr : r.state = .decoding
    · rw [hp.of_decoding hr]
    · simp [hr]

/-- A sequence that is still prefilling, with none behind it that decodes, does not
get a place in the decode list of the same step: the places are as many as there
were decoding sequences before it. -/
theorem not_mem_decode {pre post rs' : List (RunningSeq F)} {r : RunningSeq F} {k : Nat}
    (h : List.Forall₂ Passed (pre ++ r :: post) rs')
    (hnd : ((pre ++ r :: post).map fun r => r.seq.id).Nodup) (hr : r.state = .prefilling)
    (hpost : ∀ q ∈ post, q.state = .prefilling)
    (hk : k ≤ (pre ++ r :: post).countP fun r => r.state = .decoding) :
    r.seq.id ∉ ((rs'.filter fun r => r.state = .decoding).take k).map fun r => r.seq.id := by
  have hnone : (r :: post).countP (fun r => r.state = .decoding) = 0 := by
    refine List.countP_eq_zero.mpr fun q hq => ?_
    rcases List.mem_cons.mp hq with rfl | hq
    · simp [hr]
    · simp [hpost q hq]
  rw [List.countP_append, hnone, Nat.add_zero] at hk
  -- the part of the batch before `r`, after the pass
  have hpre : List.Forall₂ Passed pre (rs'.take pre.length) := by
    simpa using List.forall₂_take pre.length h
  have hsplit := List.take_append_drop pre.length rs'
  have hle := Nat.le_trans hk (countP_le_of_passed hpre)
  rw [← hsplit, List.filter_append, List.take_append_of_le_length hle]
  intro hmem
  obtain ⟨q, hq, hid⟩ := List.mem_map.mp hmem
  obtain ⟨q₀, hq₀, hp⟩ := exists_of_passed hpre (List.mem_of_mem_filter (List.mem_of_mem_take hq))
  rw [List.map_append] at hnd
  refine List.disjoint_of_nodup_append hnd (List.mem_map_of_mem hq₀) ?_
  rw [← hp.seq, hid]
  exact List.mem_cons_self

/-- The sequences of the batch when the work of a step is listed. -/
def batch (s : Scheduler F) (order : HashOrder) : List (RunningSeq F) :=
  (s.running.filter fun r => !finished s.config r) ++ s.admittedBy order

/-- The lists of a scheduling step come from its batch. -/
theorem schedule_lists {s t : Scheduler F} {order : HashOrder} {sch : Schedule}
    (h : s.schedule order = .ok (sch, t)) :
    Fed (s.batch order) sch.prefill t.running ∧
      sch.decode = ((t.running.filter fun r => r.state = .decoding).take
        (decodeShare s.config (s.batch order))).map fun r => r.seq.id := by
  obtain ⟨-, -, -, hfed, -⟩ := schedule_batch h
  obtain ⟨u, v, adm, blocked, hr, ha, rfl, rfl⟩ := schedule_ok h
  have hf := retire_frame hr
  obtain ⟨reqs, joined, -, hrun, -, hc, -⟩ := admitLoop_joins ha
  have hbatch : s.batch order = v.running := by
    simp only [batch, admittedBy, hr, ha, hrun, List.drop_left, hf.running]
    rfl
  refine ⟨hfed, ?_⟩
  rw [buildSchedule_decode, hbatch, hc.trans hf.config]
  rfl

/-- The sequences a schedule lists, once for each answer they get. -/
def listed (sch : Schedule) : List Nat := sch.prefill.map PrefillStep.seqId ++ sch.decode

/-- Who is listed runs after the step. -/
theorem listed_subset {s t : Scheduler F} {order : HashOrder} {sch : Schedule}
    (h : s.schedule order = .ok (sch, t)) : listed sch ⊆ t.runningIds := by
  obtain ⟨hfed, hdec⟩ := schedule_lists h
  intro id hid
  rcases List.mem_append.mp hid with hid | hid
  · have hm := (hfed.steps_sublist.trans (List.filter_sublist.map _)).subset hid
    rwa [← hfed.ids] at hm
  · rw [hdec] at hid
    exact (((List.take_sublist _ _).trans List.filter_sublist).map _).subset hid

section Counts

variable {s t : Scheduler F} {order : HashOrder} {sch : Schedule} {r : RunningSeq F}

theorem count_prefill_le_one (h : s.schedule order = .ok (sch, t))
    (hnd : ((s.batch order).map fun r => r.seq.id).Nodup) (id : Nat) :
    (sch.prefill.map PrefillStep.seqId).count id ≤ 1 := by
  have hsub := (schedule_lists h).1.steps_sublist
  exact List.nodup_iff_count_le_one.mp (hnd.sublist (hsub.trans (List.filter_sublist.map _))) id

theorem count_decode_le_one (h : s.schedule order = .ok (sch, t))
    (hnd : ((s.batch order).map fun r => r.seq.id).Nodup) (id : Nat) : sch.decode.count id ≤ 1 := by
  obtain ⟨hfed, hdec⟩ := schedule_lists h
  refine List.nodup_iff_count_le_one.mp ?_ id
  rw [hdec]
  rw [← hfed.ids] at hnd
  exact hnd.sublist (((List.take_sublist _ _).trans List.filter_sublist).map _)

/-- A decoding sequence has no prefill step. -/
theorem not_mem_prefill (h : s.schedule order = .ok (sch, t))
    (hnd : ((s.batch order).map fun r => r.seq.id).Nodup) (hr : r ∈ s.batch order)
    (hstate : r.state = .decoding) : r.seq.id ∉ sch.prefill.map PrefillStep.seqId := by
  intro hm
  obtain ⟨q, hq, hid⟩ := List.mem_map.mp ((schedule_lists h).1.steps_sublist.subset hm)
  obtain ⟨hq, hpre⟩ := List.mem_filter.mp hq
  have : q = r := List.inj_on_of_nodup_map hnd hq hr hid
  subst this
  rw [hstate] at hpre
  simp at hpre

/-- A sequence is listed twice only when its prefill ends in this step in front of a
decoding sequence. -/
theorem count_listed_le_one {pre post : List (RunningSeq F)} (h : s.schedule order = .ok (sch, t))
    (hnd : ((s.batch order).map fun r => r.seq.id).Nodup) (hb : s.batch order = pre ++ r :: post)
    (hpost : r.state = .prefilling → ∀ q ∈ post, q.state = .prefilling) :
    (listed sch).count r.seq.id ≤ 1 := by
  rw [listed, List.count_append]
  have hp := count_prefill_le_one h hnd r.seq.id
  have hd := count_decode_le_one h hnd r.seq.id
  cases hstate : r.state with
  | decoding =>
    have hmem : r ∈ s.batch order := by rw [hb]; exact List.mem_append_right _ List.mem_cons_self
    rw [List.count_eq_zero.mpr (not_mem_prefill h hnd hmem hstate)]
    omega
  | prefilling =>
    obtain ⟨hfed, hdec⟩ := schedule_lists h
    rw [hb] at hfed hnd hdec
    have hnot : r.seq.id ∉ sch.decode := by
      rw [hdec]
      exact not_mem_decode hfed.passed hnd hstate (hpost hstate) (Nat.min_le_left _ _)
    rw [List.count_eq_zero.mpr hnot]
    omega

end Counts

/-! ## Answers -/

/-- A sequence with one more token. -/
def bump (r : RunningSeq F) : RunningSeq F :=
  { r with numGenerated := usize (r.numGenerated + 1), seq := r.seq.advance 1 }

/-- When ids are not shared, a completed step is a change of the one sequence with
that id. -/
theorem onStepComplete_map {s : Scheduler F} {seqId : Nat} (hnd : s.runningIds.Nodup) :
    s.onStepComplete seqId 1 =
      { s with running := s.running.map fun r => if r.seq.id = seqId then bump r else r } := by
  have hmap : ∀ rs : List (RunningSeq F), (rs.map fun r => r.seq.id).Nodup →
      (rs.findIdx? fun r => r.seq.id == seqId).elim rs (fun i => rs.modify i bump) =
        rs.map fun r => if r.seq.id = seqId then bump r else r := by
    intro rs
    induction rs with
    | nil => exact fun _ => rfl
    | cons r rest ih =>
      intro hnd
      rw [List.map_cons, List.nodup_cons] at hnd
      rw [List.findIdx?_cons, List.map_cons]
      by_cases hr : r.seq.id = seqId
      · have hrest : (rest.map fun r => if r.seq.id = seqId then bump r else r) = rest := by
          refine (List.map_congr_left fun q hq => if_neg fun he => hnd.1 ?_).trans (List.map_id _)
          rw [hr, ← he]
          exact List.mem_map_of_mem hq
        simp [hr, hrest]
      · have := ih hnd.2
        cases hf : rest.findIdx? fun r => r.seq.id == seqId with
        | none =>
          rw [hf] at this
          simp [hr, ← this]
        | some i =>
          rw [hf] at this
          simp [hr, ← this]
  have := hmap s.running hnd
  rw [onStepComplete_eq, ← this]
  unfold onStepComplete
  cases s.running.findIdx? fun r => r.seq.id == seqId with
  | none => rfl
  | some i => rfl

/-- Answer every listed sequence with one token. -/
def answer (s : Scheduler F) (ids : List Nat) : Scheduler F :=
  ids.foldl (fun s id => s.onStepComplete id 1) s

theorem bump_id (r : RunningSeq F) : (bump r).seq.id = r.seq.id := rfl

theorem answer_eq (s : Scheduler F) (ids : List Nat) :
    s.answer ids = { s with running := (s.answer ids).running } := by
  induction ids generalizing s with
  | nil => rfl
  | cons id rest ih =>
    obtain ⟨rs, hrs⟩ : ∃ rs, s.onStepComplete id 1 = { s with running := rs } :=
      ⟨_, onStepComplete_eq s id 1⟩
    show (s.onStepComplete id 1).answer rest =
      { s with running := ((s.onStepComplete id 1).answer rest).running }
    rw [hrs]
    exact ih _

/-- What answers do not show in stays. -/
theorem answer_map {β : Type} {g : RunningSeq F → β} (s : Scheduler F) (ids : List Nat)
    (hg : ∀ (r : RunningSeq F) (k : Nat),
      g { r with numGenerated := k, seq := r.seq.advance 1 } = g r) :
    (s.answer ids).running.map g = s.running.map g := by
  induction ids generalizing s with
  | nil => rfl
  | cons id rest ih => exact (ih _).trans (onStepComplete_running s id 1 hg)

theorem answer_ids (s : Scheduler F) (ids : List Nat) :
    (s.answer ids).runningIds = s.runningIds := answer_map s ids fun _ _ => rfl

/-- What holds of a sequence with so many answers to come, and is handed on by an
answer, holds at the end with none to come. -/
theorem answer_induction {I : Nat → RunningSeq F → Prop} {s : Scheduler F} {ids : List Nat}
    (hbump : ∀ n r, I (n + 1) r → I n (bump r)) (hnd : s.runningIds.Nodup)
    (hs : ∀ r ∈ s.running, I (ids.count r.seq.id) r) : ∀ r ∈ (s.answer ids).running, I 0 r := by
  induction ids generalizing s with
  | nil => simpa [answer] using hs
  | cons id rest ih =>
    have hids : (s.onStepComplete id 1).runningIds = s.runningIds :=
      onStepComplete_running s id 1 fun _ _ => rfl
    refine ih (s := s.onStepComplete id 1) (hids ▸ hnd) fun r hr => ?_
    rw [onStepComplete_map hnd] at hr
    obtain ⟨q, hq, rfl⟩ := List.mem_map.mp hr
    have hi := hs q hq
    by_cases he : q.seq.id = id
    · rw [if_pos he, bump_id, he]
      rw [he, List.count_cons_self] at hi
      exact hbump _ _ hi
    · rw [if_neg he]
      rwa [List.count_cons_of_ne (Ne.symm he)] at hi

end Scheduler

end JustApi.Inference.Scheduling
