import JustApi.Lib.Run
import JustApi.Lib.Tables
import JustApi.Lib.Semaphores

/-! # The bulkhead

`BulkheadMiddleware` lets a number of requests through at a time. Another one waits for a
permit up to `maxWait` and is then refused. A request can be dropped at any time, by a
timeout around the chain or with its connection. -/
namespace JustApi.Core.Bulkhead
open JustApi.Lib.Run JustApi.Lib.Semaphores JustApi.Lib.Tables

/-- `maxWait` in the ticks of the clock. -/
structure BulkheadConfig where
  maxConcurrent : Nat
  maxWait : Nat
  deriving DecidableEq, Repr

/-- The answer of the handler behind, or `503`. -/
inductive Answer (R : Type) where
  | passed (result : R)
  | refused (detail : String)
  deriving DecidableEq, Repr

inductive Phase (R : Type) where
  | waiting
  | running
  | answered (answer : Answer R)
  | dropped
  deriving DecidableEq, Repr

structure Call (R : Type) where
  arrived : Nat
  phase : Phase R
  deriving DecidableEq, Repr

/-- `refusals` is a record of the calls that were refused, and when. -/
structure World (config : BulkheadConfig) (R : Type) where
  now : Nat
  semaphore : Semaphore config.maxConcurrent
  calls : List (Call R)
  refusals : List (Nat × Nat)
  deriving DecidableEq

inductive Event (R : Type) where
  | tick
  | handle
  | granted (i : Nat)
  | expire (i : Nat)
  | finish (i : Nat) (result : R)
  | drop (i : Nat)
  deriving DecidableEq, Repr

section Steps

variable {config : BulkheadConfig} {R : Type}

namespace World

def new : World config R := ⟨0, .new, [], []⟩

def setPhase (w : World config R) (i : Nat) (phase : Phase R) : World config R :=
  { w with calls := w.calls.modify i fun c => { c with phase } }

end World

def refusal : String :=
  "\x7b\"detail\":\"too many concurrent requests — bulkhead limit reached\"\x7d"

def exec (w : World config R) : Event R → Except Disabled (World config R)
  | .tick => .ok { w with now := w.now + 1 }
  | .handle =>
    let i := w.calls.length
    let semaphore := w.semaphore.acquire i
    .ok { w with
      semaphore
      calls := w.calls ++ [⟨w.now, if i ∈ semaphore.holders then .running else .waiting⟩] }
  | .granted i =>
    match w.calls[i]? with
    | some ⟨_, .waiting⟩ =>
      if i ∈ w.semaphore.holders then .ok (w.setPhase i .running) else .error .disabled
    | _ => .error .disabled
  -- the permit is looked at before the clock
  | .expire i =>
    match w.calls[i]? with
    | some ⟨arrived, .waiting⟩ =>
      if i ∉ w.semaphore.holders ∧ arrived + config.maxWait ≤ w.now then
        .ok { w.setPhase i (.answered (.refused refusal)) with
          semaphore := w.semaphore.leave i, refusals := w.refusals ++ [(i, w.now)] }
      else .error .disabled
    | _ => .error .disabled
  | .finish i result =>
    match w.calls[i]? with
    | some ⟨_, .running⟩ =>
      .ok { w.setPhase i (.answered (.passed result)) with semaphore := w.semaphore.leave i }
    | _ => .error .disabled
  | .drop i =>
    match w.calls[i]? with
    | some ⟨_, .waiting⟩ | some ⟨_, .running⟩ =>
      .ok { w.setPhase i .dropped with semaphore := w.semaphore.leave i }
    | _ => .error .disabled

def Step (w : World config R) (event : Event R) (w' : World config R) : Prop :=
  exec w event = .ok w'

end Steps

/-! ## What a step can do -/

variable {config : BulkheadConfig} {R : Type} {w w' : World config R} {event : Event R} {i : Nat}

def Phase.isOver : Phase R → Bool
  | .answered _ | .dropped => true
  | .waiting | .running => false

def Phase.isRunning : Phase R → Bool
  | .running => true
  | .waiting | .answered _ | .dropped => false

/-- The steps, each with its guard. A call that ends gives back what it has. -/
inductive Move (w : World config R) : Event R → World config R → Prop
  | tick : Move w .tick { w with now := w.now + 1 }
  | handle : Move w .handle { w with
      semaphore := w.semaphore.acquire w.calls.length
      calls := w.calls ++ [⟨w.now,
        if w.calls.length ∈ (w.semaphore.acquire w.calls.length).holders then .running
        else .waiting⟩] }
  | granted {i : Nat} {c : Call R} : w.calls[i]? = some c → c.phase = .waiting →
      i ∈ w.semaphore.holders → Move w (.granted i) (w.setPhase i .running)
  | expire {i : Nat} {c : Call R} : w.calls[i]? = some c → c.phase = .waiting →
      i ∉ w.semaphore.holders → c.arrived + config.maxWait ≤ w.now →
      Move w (.expire i) { w.setPhase i (.answered (.refused refusal)) with
        semaphore := w.semaphore.leave i, refusals := w.refusals ++ [(i, w.now)] }
  | leave {event : Event R} {i : Nat} {c : Call R} (phase : Phase R) : w.calls[i]? = some c →
      c.phase.isOver = false → phase.isOver = true → (∀ detail, phase ≠ .answered (.refused detail)) →
      (∀ i, event ≠ .expire i) →
      Move w event { w.setPhase i phase with semaphore := w.semaphore.leave i }

theorem exec_move (h : exec w event = .ok w') : Move w event w' := by
  unfold exec at h
  cases event with
  | tick =>
    cases h
    exact .tick
  | handle =>
    cases h
    exact .handle
  | granted i =>
    dsimp only at h
    split at h
    · rename_i hi
      split at h
      · rename_i hin
        cases h
        exact .granted hi rfl hin
      · cases h
    · cases h
  | expire i =>
    dsimp only at h
    split at h
    · rename_i hi
      split at h
      · rename_i hguard
        cases h
        exact .expire hi rfl hguard.1 hguard.2
      · cases h
    · cases h
  | finish i result =>
    dsimp only at h
    split at h
    · rename_i hi
      cases h
      exact .leave (.answered (.passed result)) hi rfl rfl (by simp) (by simp)
    · cases h
  | drop i =>
    dsimp only at h
    split at h
    · rename_i hi
      cases h
      exact .leave .dropped hi rfl rfl (by simp) (by simp)
    · rename_i hi
      cases h
      exact .leave .dropped hi rfl rfl (by simp) (by simp)
    · cases h

/-! ## Permits and refusals -/

structure Sound (w : World config R) : Prop where
  open_ : ∀ i, i ∈ w.semaphore.holders ++ w.semaphore.waiting ↔
    ∃ c, w.calls[i]? = some c ∧ c.phase.isOver = false
  permits : ∀ (i : Nat) (c : Call R), w.calls[i]? = some c → c.phase.isRunning = true →
    i ∈ w.semaphore.holders
  refusals : ∀ r ∈ w.refusals, ∃ c, w.calls[r.1]? = some c ∧ c.arrived + config.maxWait ≤ r.2
  refused : ∀ (i : Nat) (c : Call R), w.calls[i]? = some c →
    (∃ detail, c.phase = .answered (.refused detail)) → ∃ t, (i, t) ∈ w.refusals

theorem sound_new : Sound (World.new : World config R) := by
  refine ⟨?_, ?_, ?_, ?_⟩ <;> simp [World.new]

/-- A step of one call, which keeps its place or leaves. -/
theorem Sound.modify (h : Sound w) {c : Call R} {phase : Phase R}
    {semaphore : Semaphore config.maxConcurrent} {refusals : List (Nat × Nat)}
    (hi : w.calls[i]? = some c)
    (hopen : ∀ j, j ∈ semaphore.holders ++ semaphore.waiting ↔
      if i = j then phase.isOver = false else j ∈ w.semaphore.holders ++ w.semaphore.waiting)
    (hkept : ∀ j ∈ w.semaphore.holders, i ≠ j → j ∈ semaphore.holders)
    (hnew : phase.isRunning = true → i ∈ semaphore.holders)
    (hsub : w.refusals ⊆ refusals)
    (hrefusals : ∀ r ∈ refusals, r ∈ w.refusals ∨ r.1 = i ∧ c.arrived + config.maxWait ≤ r.2)
    (hrefused : (∃ detail, phase = .answered (.refused detail)) → ∃ t, (i, t) ∈ refusals) :
    Sound { w.setPhase i phase with semaphore, refusals } := by
  refine ⟨fun j => ?_, fun j c' hj hrunning => ?_, fun r hr => ?_, fun j c' hj href => ?_⟩
  · change j ∈ semaphore.holders ++ semaphore.waiting ↔
      ∃ c', (w.calls.modify i fun c => { c with phase })[j]? = some c' ∧ c'.phase.isOver = false
    rw [hopen]
    split
    · rename_i heq
      subst heq
      simp [hi]
    · rename_i hne
      simp [hne, h.open_ j]
  · obtain ⟨old, hold, rfl⟩ := getElem?_modify.mp hj
    split at hrunning
    · rename_i heq
      exact heq ▸ hnew hrunning
    · rename_i hne
      exact hkept j (h.permits j old hold hrunning) hne
  · rcases hrefusals r hr with hold | ⟨rfl, hlate⟩
    · obtain ⟨c', hc', hlate⟩ := h.refusals r hold
      refine ⟨_, getElem?_modify_of_some hc', ?_⟩
      split <;> exact hlate
    · refine ⟨_, getElem?_modify_of_some hi, ?_⟩
      rw [if_pos rfl]
      exact hlate
  · obtain ⟨old, hold, rfl⟩ := getElem?_modify.mp hj
    split at href
    · rename_i heq
      exact heq ▸ hrefused href
    · obtain ⟨t, ht⟩ := h.refused j old hold href
      exact ⟨t, hsub ht⟩

theorem Sound.handle (h : Sound w) : Sound { w with
    semaphore := w.semaphore.acquire w.calls.length
    calls := w.calls ++ [⟨w.now,
      if w.calls.length ∈ (w.semaphore.acquire w.calls.length).holders then .running
      else .waiting⟩] } := by
  refine ⟨fun j => ?_, fun j c hj hrunning => ?_, fun r hr => ?_, fun j c hj href => ?_⟩
  · refine (w.semaphore.mem_acquire _ j).trans ⟨?_, ?_⟩
    · rintro (rfl | hj)
      · refine ⟨_, getElem?_concat.mpr (.inr ⟨rfl, rfl⟩), ?_⟩
        split <;> rfl
      · obtain ⟨c, hc, hover⟩ := (h.open_ j).mp hj
        exact ⟨c, getElem?_concat_of_some hc _, hover⟩
    · intro hex
      obtain ⟨c, hc, hover⟩ := hex
      rcases getElem?_concat.mp hc with hc | ⟨hj, -⟩
      · exact .inr ((h.open_ j).mpr ⟨c, hc, hover⟩)
      · exact .inl hj
  · rcases getElem?_concat.mp hj with hj | ⟨rfl, rfl⟩
    · exact (w.semaphore.holders_acquire _).1 (h.permits j c hj hrunning)
    · by_contra hout
      rw [if_neg hout] at hrunning
      cases hrunning
  · obtain ⟨c, hc, hlate⟩ := h.refusals r hr
    exact ⟨c, getElem?_concat_of_some hc _, hlate⟩
  · rcases getElem?_concat.mp hj with hj | ⟨-, rfl⟩
    · exact h.refused j c hj href
    · obtain ⟨detail, hphase⟩ := href
      split at hphase <;> cases hphase

theorem Sound.move (h : Sound w) (hmove : Move w event w') : Sound w' := by
  cases hmove with
  | tick => exact ⟨h.open_, h.permits, h.refusals, h.refused⟩
  | handle => exact h.handle
  | @granted i c hi hphase hin =>
    refine h.modify hi (fun j => ?_) (fun j hj _ => hj) (fun _ => hin) (List.Subset.refl _)
      (fun r hr => .inl hr) (by simp)
    split
    · rename_i heq
      exact iff_of_true (heq ▸ List.mem_append_left _ hin) rfl
    · rfl
  | @expire i c hi hphase hout hlate =>
    refine h.modify hi (fun j => ?_) (fun j hj _ => ?_) (by simp [Phase.isRunning])
      (List.subset_append_left _ _) (fun r hr => ?_)
      (fun _ => ⟨w.now, List.mem_append_right _ List.mem_cons_self⟩)
    · rw [w.semaphore.mem_leave]
      split <;> simp [*, Phase.isOver, eq_comm]
    · rwa [Semaphore.holders_leave_of_not_mem hout]
    · refine (List.mem_append.mp hr).imp_right fun hr => ?_
      obtain rfl := List.mem_singleton.mp hr
      exact ⟨rfl, hlate⟩
  | @leave _ i c phase hi hopen hover hpassed _ =>
    refine h.modify hi (fun j => ?_) (fun j hj hne => ?_) (fun hrunning => ?_)
      (List.Subset.refl _) (fun r hr => .inl hr) (fun href => ?_)
    · rw [w.semaphore.mem_leave]
      split <;> simp [*, eq_comm]
    · by_cases hin : i ∈ w.semaphore.holders
      · exact (w.semaphore.mem_holders_leave hin).mpr (.inl ⟨Ne.symm hne, hj⟩)
      · rwa [Semaphore.holders_leave_of_not_mem hin]
    · cases phase with
      | running => cases hover
      | waiting | answered | dropped => cases hrunning
    · obtain ⟨detail, hphase⟩ := href
      exact absurd hphase (hpassed detail)

/-! ## Runs -/

/-- What the bulkhead promises: no more calls run than there are permits, only a call that
has waited its time is refused, and a permit is held only for a call that is not over. -/
structure Bounded (w : World config R) : Prop where
  running : w.calls.countP (fun c => c.phase.isRunning) ≤ config.maxConcurrent
  refused : ∀ (i : Nat) (c : Call R) (detail : String), w.calls[i]? = some c →
    c.phase = .answered (.refused detail) → c.arrived + config.maxWait ≤ w.now
  held : ∀ i ∈ w.semaphore.holders, ∃ c, w.calls[i]? = some c ∧ c.phase.isOver = false

/-- The clock does not go back. -/
theorem past_refusals {tr : List (Event R × World config R)} (hrun : Along Step .new tr) :
    ∀ w ∈ visited .new tr, ∀ r ∈ w.refusals, r.2 ≤ w.now := by
  refine hrun.invariant (I := fun w : World config R => ∀ r ∈ w.refusals, r.2 ≤ w.now)
    (fun w event w' h hstep => ?_) (by simp [World.new])
  cases exec_move hstep with
  | tick => exact fun r hr => Nat.le_succ_of_le (h r hr)
  | handle | granted | leave => exact h
  | expire =>
    intro r hr
    rcases List.mem_append.mp hr with hr | hr
    · exact h r hr
    · obtain rfl := List.mem_singleton.mp hr
      exact Nat.le_refl _

/-- In every state of every run the bulkhead keeps its promise, and it refuses a call only
while all its permits are held. -/
theorem bulkhead_bounded {tr : List (Event R × World config R)} (hrun : Along Step .new tr) :
    (∀ w ∈ visited .new tr, Bounded w) ∧
      Along (fun w event _ => ∀ i, event = .expire i →
        w.semaphore.holders.length = config.maxConcurrent) .new tr := by
  have hkeep : ∀ (w : World config R) event w', Sound w → Step w event w' → Sound w' :=
    fun _ _ _ h hstep => h.move (exec_move hstep)
  constructor
  · intro w hw
    have h := hrun.invariant hkeep sound_new w hw
    refine ⟨Nat.le_trans (countP_le_length h.permits) w.semaphore.bounded, ?_, ?_⟩
    · intro i c detail hc hphase
      obtain ⟨t, ht⟩ := h.refused i c hc ⟨detail, hphase⟩
      obtain ⟨c', hc', hlate⟩ := h.refusals _ ht
      rw [hc] at hc'
      cases hc'
      exact Nat.le_trans hlate (past_refusals hrun w hw _ ht)
    · exact fun i hi => (h.open_ i).mp (List.mem_append_left _ hi)
  · refine hrun.of_invariant (I := Sound) (fun w event w' h hstep => ⟨hkeep w event w' h hstep, ?_⟩)
      sound_new
    rintro i rfl
    cases exec_move hstep with
    | @expire _ c hi hphase hout =>
      have hin := (h.open_ i).mpr ⟨c, hi, by simp [hphase, Phase.isOver]⟩
      rcases List.mem_append.mp hin with hin | hin
      · exact absurd hin hout
      · exact w.semaphore.full (List.ne_nil_of_mem hin)
    | @leave _ j c phase _ _ _ _ hevent => exact absurd rfl (hevent i)

/-- One permit: the second call is refused after two ticks, the third gets the permit. -/
def threeCalls : List (Event Nat) :=
  [.handle, .handle, .tick, .handle, .tick, .expire 1, .finish 0 7, .granted 2, .tick, .finish 2 8]

theorem bulkhead_bounded_threeCalls :
    let w := final exec (World.new : World ⟨1, 2⟩ Nat) threeCalls
    w.calls = [⟨0, .answered (.passed 7)⟩, ⟨0, .answered (.refused refusal)⟩,
      ⟨1, .answered (.passed 8)⟩] ∧ Bounded w := by
  intro w
  exact ⟨by decide +kernel,
    (bulkhead_bounded (along_replay exec .new threeCalls)).1 w (final_mem_visited _ _ _)⟩

end JustApi.Core.Bulkhead
