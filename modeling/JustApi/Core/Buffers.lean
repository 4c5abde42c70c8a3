import JustApi.Core.Http
import JustApi.Lib.Run
import Mathlib.Logic.Function.Basic

/-! # Pooled buffers

`BufferPool`, with the calls to `acquire` and `release` as its steps. A step of `acquire` is
labelled with the buffer it returns. -/
namespace JustApi.Core.Buffers
open JustApi.Core.Http JustApi.Lib.Run

/-- A `Vec<u8>`. -/
structure Buffer where
  bytes : Bytes
  capacity : Nat
  fits : bytes.length ≤ capacity

def Buffer.clear (buf : Buffer) : Buffer := ⟨[], buf.capacity, Nat.zero_le _⟩

def Buffer.withCapacity (capacity : Nat) : Buffer := ⟨[], capacity, Nat.zero_le _⟩

def bucketSize : Fin 4 → Nat
  | 0 => 1024
  | 1 => 4096
  | 2 => 16384
  | 3 => 65536

def bucketIndex (minSize : Nat) : Fin 4 :=
  ((List.finRange 4).find? fun i => minSize ≤ bucketSize i).getD 3

structure BufferPool where
  /-- The buffer pushed last comes first. -/
  buckets : Fin 4 → List Buffer
  maxPerBucket : Nat

namespace BufferPool

def withMaxPerBucket (maxPerBucket : Nat) : BufferPool := ⟨fun _ => [], maxPerBucket⟩

def new : BufferPool := withMaxPerBucket 128

def setBucket (pool : BufferPool) (idx : Fin 4) (bucket : List Buffer) : BufferPool :=
  { pool with buckets := Function.update pool.buckets idx bucket }

@[simp] theorem setBucket_self (pool : BufferPool) (idx : Fin 4) (bucket : List Buffer) :
    (pool.setBucket idx bucket).buckets idx = bucket := Function.update_self ..

@[simp] theorem setBucket_of_ne {i idx : Fin 4} (h : i ≠ idx) (pool : BufferPool)
    (bucket : List Buffer) : (pool.setBucket idx bucket).buckets i = pool.buckets i :=
  Function.update_of_ne h ..

@[simp] theorem setBucket_maxPerBucket (pool : BufferPool) (idx : Fin 4) (bucket : List Buffer) :
    (pool.setBucket idx bucket).maxPerBucket = pool.maxPerBucket := rfl

def acquire (pool : BufferPool) (minSize : Nat) : Buffer × BufferPool :=
  let idx := bucketIndex minSize
  match pool.buckets idx with
  | [] => (.withCapacity (bucketSize idx), pool)
  | buf :: rest => (buf, pool.setBucket idx rest)

def release (pool : BufferPool) (buf : Buffer) : BufferPool :=
  let buf := buf.clear
  let idx := bucketIndex buf.capacity
  if (pool.buckets idx).length < pool.maxPerBucket then
    pool.setBucket idx (buf :: pool.buckets idx)
  else pool

end BufferPool

inductive Call where
  | acquire (minSize : Nat) (got : Buffer)
  | release (buf : Buffer)

def Step (s : BufferPool) : Call → BufferPool → Prop
  | .acquire minSize got, t => s.acquire minSize = (got, t)
  | .release buf, t => s.release buf = t

/-! ## The law -/

/-- What `acquire` returns is empty and large enough. -/
def Honours (_ : BufferPool) (call : Call) (_ : BufferPool) : Prop :=
  match call with
  | .acquire minSize got => got.bytes = [] ∧ minSize ≤ got.capacity
  | .release _ => True

def Bounded (pool : BufferPool) : Prop := ∀ i, (pool.buckets i).length ≤ pool.maxPerBucket

/-- The buffer filed last under the size, if there is one, has that size; and if there is none
the size is that of a bucket at most. -/
def Served (s : BufferPool) (call : Call) (_ : BufferPool) : Prop :=
  match call with
  | .acquire minSize _ =>
    match s.buckets (bucketIndex minSize) with
    | [] => minSize ≤ 65536
    | buf :: _ => minSize ≤ buf.capacity
  | .release _ => True

/-! ## Steps -/

variable {s t : BufferPool} {call : Call} {buf got : Buffer} {minSize : Nat} {i : Fin 4}

theorem bucketSize_le (i : Fin 4) : bucketSize i ≤ 65536 := by
  match i with
  | 0 | 1 | 2 | 3 => decide

/-- Below the largest bucket sizes are rounded up. -/
theorem le_bucketSize (h : minSize ≤ 65536) : minSize ≤ bucketSize (bucketIndex minSize) := by
  unfold bucketIndex
  cases hfind : (List.finRange 4).find? fun i => minSize ≤ bucketSize i with
  | none => exact h
  | some i =>
    have hle := List.find?_some hfind
    exact of_decide_eq_true hle

theorem le_bucketSize_iff : minSize ≤ bucketSize (bucketIndex minSize) ↔ minSize ≤ 65536 :=
  ⟨fun h => Nat.le_trans h (bucketSize_le _), le_bucketSize⟩

/-- What a call does to the buckets: one of them loses the buffer that is returned, or gets the
one that is released. -/
theorem step_cases (h : Step s call t) :
    (∃ minSize, call = .acquire minSize (.withCapacity (bucketSize (bucketIndex minSize))) ∧
      s.buckets (bucketIndex minSize) = [] ∧ t = s) ∨
    (∃ minSize got rest, call = .acquire minSize got ∧
      s.buckets (bucketIndex minSize) = got :: rest ∧
      t = s.setBucket (bucketIndex minSize) rest) ∨
    ∃ buf, call = .release buf ∧ (t = s ∨
      (s.buckets (bucketIndex buf.capacity)).length < s.maxPerBucket ∧
      t = s.setBucket (bucketIndex buf.capacity)
        (buf.clear :: s.buckets (bucketIndex buf.capacity))) := by
  cases call with
  | acquire minSize got =>
    unfold Step BufferPool.acquire at h
    cases hbucket : s.buckets (bucketIndex minSize) with
    | nil =>
      simp only [hbucket] at h
      cases h
      exact .inl ⟨minSize, rfl, hbucket, rfl⟩
    | cons top rest =>
      simp only [hbucket] at h
      cases h
      exact .inr (.inl ⟨minSize, _, rest, rfl, hbucket, rfl⟩)
  | release buf =>
    refine .inr (.inr ⟨buf, rfl, ?_⟩)
    have h : s.release buf = t := h
    unfold BufferPool.release at h
    dsimp only at h
    split at h
    · rename_i hlt
      exact .inr ⟨hlt, h.symm⟩
    · exact .inl h.symm

/-- Buffers of a pool satisfy what a step keeps of every released one. -/
def AllBuffers (P : Fin 4 → Buffer → Prop) (pool : BufferPool) : Prop :=
  ∀ i, ∀ buf ∈ pool.buckets i, P i buf

theorem AllBuffers.step {P : Fin 4 → Buffer → Prop} (hs : AllBuffers P s) (h : Step s call t)
    (hrelease : ∀ buf, call = .release buf → P (bucketIndex buf.capacity) buf.clear) :
    AllBuffers P t := by
  rcases step_cases h with ⟨minSize, _, _, ht⟩ | ⟨minSize, got, rest, _, hbucket, ht⟩ |
    ⟨buf, hcall, ht⟩
  · rw [ht]
    exact hs
  · rw [ht]
    intro i buf hbuf
    by_cases hi : i = bucketIndex minSize
    · subst hi
      rw [BufferPool.setBucket_self] at hbuf
      refine hs _ buf ?_
      rw [hbucket]
      exact List.mem_cons_of_mem _ hbuf
    · rw [BufferPool.setBucket_of_ne hi] at hbuf
      exact hs i buf hbuf
  · rcases ht with ht | ⟨_, ht⟩
    · rw [ht]
      exact hs
    · rw [ht]
      intro i other hother
      by_cases hi : i = bucketIndex buf.capacity
      · subst hi
        rw [BufferPool.setBucket_self] at hother
        rcases List.mem_cons.mp hother with he | hother
        · rw [he]
          exact hrelease buf hcall
        · exact hs _ other hother
      · rw [BufferPool.setBucket_of_ne hi] at hother
        exact hs i other hother

theorem Bounded.step (hs : Bounded s) (h : Step s call t) : Bounded t := by
  rcases step_cases h with ⟨_, _, _, ht⟩ | ⟨minSize, got, rest, _, hbucket, ht⟩ | ⟨buf, _, ht⟩
  · rw [ht]
    exact hs
  · rw [ht]
    intro i
    by_cases hi : i = bucketIndex minSize
    · subst hi
      rw [BufferPool.setBucket_self]
      have hlength := hs (bucketIndex minSize)
      rw [hbucket] at hlength
      exact Nat.le_of_succ_le hlength
    · rw [BufferPool.setBucket_of_ne hi]
      exact hs i
  · rcases ht with ht | ⟨hlt, ht⟩
    · rw [ht]
      exact hs
    · rw [ht]
      intro i
      by_cases hi : i = bucketIndex buf.capacity
      · subst hi
        rw [BufferPool.setBucket_self]
        exact hlt
      · rw [BufferPool.setBucket_of_ne hi]
        exact hs i

/-- Released buffers are cleared. -/
def AllEmpty : BufferPool → Prop := AllBuffers fun _ buf => buf.bytes = []

theorem AllEmpty.step (hs : AllEmpty s) (h : Step s call t) : AllEmpty t :=
  AllBuffers.step hs h fun _ _ => rfl

theorem served_empty (h : s.buckets (bucketIndex minSize) = []) :
    Served s (.acquire minSize got) t ↔ minSize ≤ 65536 := by
  simp only [Served, h]

theorem served_top {rest : List Buffer} (h : s.buckets (bucketIndex minSize) = buf :: rest) :
    Served s (.acquire minSize got) t ↔ minSize ≤ buf.capacity := by
  simp only [Served, h]

/-- In a pool of empty buffers a call honours the size it is given exactly when it is served. -/
theorem honours_iff (hs : AllEmpty s) (h : Step s call t) :
    Honours s call t ↔ Served s call t := by
  rcases step_cases h with ⟨minSize, hcall, hbucket, _⟩ | ⟨minSize, got, rest, hcall, hbucket, _⟩ |
    ⟨buf, hcall, _⟩
  · rw [hcall, served_empty hbucket]
    exact (and_iff_right rfl).trans le_bucketSize_iff
  · rw [hcall, served_top hbucket]
    refine and_iff_right (hs (bucketIndex minSize) got ?_)
    rw [hbucket]
    exact List.mem_cons_self
  · rw [hcall]
    exact Iff.rfl

/-! ## Runs -/

section Runs

variable {maxPerBucket : Nat} {tr : List (Call × BufferPool)}

theorem allBuffers_start (P : Fin 4 → Buffer → Prop) :
    AllBuffers P (.withMaxPerBucket maxPerBucket) := fun _ _ h => by cases h

/-- **The buffer pool.** In a run every buffer is empty and of the size asked for, and no
bucket is overfull, exactly when every request is served. -/
theorem buffers_honour_size_iff (hrun : Along Step (.withMaxPerBucket maxPerBucket) tr) :
    (Along Honours (.withMaxPerBucket maxPerBucket) tr ∧
      ∀ pool ∈ visited (.withMaxPerBucket maxPerBucket) tr, Bounded pool) ↔
      Along Served (.withMaxPerBucket maxPerBucket) tr := by
  have hbounded : ∀ pool ∈ visited (.withMaxPerBucket maxPerBucket) tr, Bounded pool :=
    hrun.invariant (fun _ _ _ hs h => hs.step h) fun _ => Nat.zero_le _
  rw [and_iff_left hbounded]
  exact Along.congr_of_invariant (fun _ _ _ hs h => ⟨AllEmpty.step hs h, honours_iff hs h⟩)
    (allBuffers_start _) hrun

/-- A buffer is released and handed out again. -/
def reuseRun (capacity minSize : Nat) : List (Call × BufferPool) :=
  let filed := BufferPool.new.release (.withCapacity capacity)
  [(.release (.withCapacity capacity), filed),
    (.acquire minSize (.withCapacity capacity), (filed.acquire minSize).2)]

theorem reuseRun_steps {capacity minSize : Nat}
    (h : bucketIndex minSize = bucketIndex capacity) :
    Along Step .new (reuseRun capacity minSize) := by
  have hfiled : BufferPool.new.release (.withCapacity capacity) =
      BufferPool.new.setBucket (bucketIndex capacity) [.withCapacity capacity] := rfl
  refine ⟨rfl, ?_, trivial⟩
  rw [Step, hfiled, BufferPool.acquire]
  simp only [h, BufferPool.setBucket_self]

/-- A buffer of 4096 bytes is large enough for 3000. -/
theorem buffers_honour_size_reused : Along Honours .new (reuseRun 4096 3000) ∧
    ∀ pool ∈ visited .new (reuseRun 4096 3000), Bounded pool := by
  have hserved : Along Served .new (reuseRun 4096 3000) := by
    refine ⟨trivial, ?_, trivial⟩
    exact (served_top rfl).mpr (show 3000 ≤ 4096 by decide)
  have hrun : Along Step (.withMaxPerBucket 128) (reuseRun 4096 3000) := reuseRun_steps rfl
  exact (buffers_honour_size_iff hrun).mpr hserved

/-- One of 2048 bytes is filed with those of 4096; and no bucket is for 100000. -/
theorem undersized_buffers :
    (Along Step .new (reuseRun 2048 4000) ∧ ¬ Along Honours .new (reuseRun 2048 4000)) ∧
    (Along Step .new [(.acquire 100000 (.withCapacity 65536), .new)] ∧
      ¬ Along Honours .new [(.acquire 100000 (.withCapacity 65536), .new)]) := by
  refine ⟨⟨reuseRun_steps rfl, fun h => ?_⟩, ⟨⟨rfl, trivial⟩, fun h => ?_⟩⟩
  · exact absurd (show 4000 ≤ 2048 from h.2.1.2) (by decide)
  · exact absurd (show 100000 ≤ 65536 from h.1.2) (by decide)

/-- A request that some bucket is for, or the release of a buffer that fills its bucket. -/
def Proper : Call → Prop
  | .acquire minSize _ => minSize ≤ 65536
  | .release buf => bucketSize (bucketIndex buf.capacity) ≤ buf.capacity

/-- Such calls are always served. -/
theorem served_of_proper (hrun : Along Step (.withMaxPerBucket maxPerBucket) tr)
    (hproper : Along (fun _ call _ => Proper call) (.withMaxPerBucket maxPerBucket) tr) :
    Along Served (.withMaxPerBucket maxPerBucket) tr := by
  have hstart : AllBuffers (fun i buf => bucketSize i ≤ buf.capacity)
      (.withMaxPerBucket maxPerBucket) := allBuffers_start _
  refine (hrun.and hproper).of_invariant ?_ hstart
  intro s call t hs h
  obtain ⟨h, hcall⟩ := h
  refine ⟨AllBuffers.step hs h fun buf he => ?_, ?_⟩
  · rw [he] at hcall
    exact hcall
  · cases call with
    | release buf => trivial
    | acquire minSize got =>
      cases hbucket : s.buckets (bucketIndex minSize) with
      | nil => exact (served_empty hbucket).mpr hcall
      | cons top rest =>
        have htop := hs (bucketIndex minSize) top (by rw [hbucket]; exact List.mem_cons_self)
        exact (served_top hbucket).mpr (Nat.le_trans (le_bucketSize hcall) htop)

end Runs

end JustApi.Core.Buffers
