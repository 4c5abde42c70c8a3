import Mathlib.Algebra.Group.Nat.Defs
import Mathlib.Algebra.Order.Field.Rat
import Mathlib.Data.List.Induction
import Mathlib.Tactic.NormNum

/-! # The latency histogram

`LatencyHist`, its snapshot, and what `prometheus` prints of it. Latencies and their sum
are exact; the counters are those of the code. -/
namespace JustApi.Core.Metrics

def latencyBucketsMs : List Rat := [1, 5 / 2, 5, 10, 25, 50, 100, 250, 500, 1000, 2500, 5000, 10000]

structure LatencyHist where
  buckets : List UInt64
  count : UInt64
  /-- In microseconds. -/
  sumMs : UInt64
  deriving DecidableEq, Repr

/-- `as u64` -/
def asU64 (x : Rat) : UInt64 := .ofNat (min x.floor.toNat (2 ^ 64 - 1))

namespace LatencyHist

def new : LatencyHist := ⟨latencyBucketsMs.map fun _ => 0, 0, 0⟩

/-- `fetch_add` wraps. -/
def record (h : LatencyHist) (latencyMs : Rat) : LatencyHist where
  count := h.count + 1
  sumMs := h.sumMs + asU64 (latencyMs * 1000)
  buckets :=
    match latencyBucketsMs.findIdx? (latencyMs ≤ ·) with
    | some i => h.buckets.modify i (· + 1)
    | none => h.buckets

def recorded (latencies : List Rat) : LatencyHist := latencies.foldl record new

end LatencyHist

structure MetricsSnapshot where
  latencyCount : UInt64
  latencySumMs : Rat
  latencyBuckets : List UInt64
  deriving DecidableEq, Repr

def snapshot (h : LatencyHist) : MetricsSnapshot := ⟨h.count, h.sumMs.toNat / 1000, h.buckets⟩

/-- The lines of the histogram in a text for Prometheus. -/
structure Histogram where
  count : UInt64
  sum : Rat
  /-- Each with its `le`, or none for `+Inf`. -/
  buckets : List (Option Rat × UInt64)
  deriving DecidableEq, Repr

/-- `prometheus`, as far as the histogram goes. -/
def prometheus (s : MetricsSnapshot) : Histogram where
  count := s.latencyCount
  sum := s.latencySumMs
  buckets := s.latencyBuckets.zipIdx.map (fun (bucketCount, i) =>
      (latencyBucketsMs[min i (latencyBucketsMs.length - 1)]?, bucketCount)) ++
    [(none, s.latencyCount)]

/-! ## Prometheus histograms -/

/-- How many latencies are at most `b`. -/
def countLe (latencies : List Rat) (b : Rat) : Nat := latencies.countP (· ≤ b)

/-- A histogram as Prometheus defines it. -/
structure Valid (latencies : List Rat) (h : Histogram) : Prop where
  exact : ∀ b n, (some b, n) ∈ h.buckets → n.toNat = countLe latencies b
  nondecreasing : h.buckets.Pairwise fun line later => line.2 ≤ later.2
  infinity : ∀ n, (none, n) ∈ h.buckets ↔ n = h.count

/-- What the documentation of `latency_buckets` says. -/
def Cumulative (latencies : List Rat) (s : MetricsSnapshot) : Prop :=
  s.latencyBuckets.map UInt64.toNat = latencyBucketsMs.map (countLe latencies) ++ [latencies.length]

/-! ## What the buckets count -/

section Buckets

variable {latencies : List Rat} {l b : Rat}

/-- The bucket a latency is counted in. -/
def bucketOf (l : Rat) : Option Rat := latencyBucketsMs.find? (l ≤ ·)

/-- How many latencies are counted in the bucket of `b`. -/
def countIn (latencies : List Rat) (b : Rat) : Nat := latencies.countP (bucketOf · = some b)

/-- Changing the place where something is found changes the value of what is found. -/
theorem modify_findIdx {α β : Type} [DecidableEq α] {bs : List α} (hnodup : bs.Nodup)
    (p : α → Bool) (f : α → β) (g : β → β) :
    (bs.findIdx? p).elim (bs.map f) (fun i => (bs.map f).modify i g) =
      bs.map fun b => if bs.find? p = some b then g (f b) else f b := by
  induction bs with
  | nil => rfl
  | cons b rest ih =>
    obtain ⟨hnot, hrest⟩ := List.nodup_cons.mp hnodup
    rw [List.findIdx?_cons, List.find?_cons]
    cases hp : p b with
    | true =>
      have hother : rest.map (fun c => if some b = some c then g (f c) else f c) = rest.map f := by
        refine List.map_congr_left fun c hc => if_neg fun he => hnot ?_
        rw [Option.some.inj he]
        exact hc
      simp only [if_true, List.map_cons, Option.elim_some, List.modify_zero_cons, hother]
    | false =>
      have hfirst : rest.find? p ≠ some b := fun he => hnot (List.mem_of_find?_eq_some he)
      simp only [Bool.false_eq_true, if_false, List.map_cons, if_neg hfirst, ← ih hrest]
      cases rest.findIdx? p with
      | none => rfl
      | some i => rfl

theorem nodup_latencyBucketsMs : latencyBucketsMs.Nodup := by
  norm_num [latencyBucketsMs]

theorem recorded_concat (latencies : List Rat) (l : Rat) :
    LatencyHist.recorded (latencies ++ [l]) = (LatencyHist.recorded latencies).record l := by
  rw [LatencyHist.recorded, List.foldl_append]
  rfl

/-- Every latency is counted in its bucket. -/
theorem buckets_recorded (latencies : List Rat) : (LatencyHist.recorded latencies).buckets =
    latencyBucketsMs.map fun b => UInt64.ofNat (countIn latencies b) := by
  induction latencies using List.reverseRecOn with
  | nil => rfl
  | append_singleton latencies l ih =>
    have hcount : ∀ b ∈ latencyBucketsMs, (if bucketOf l = some b then
        UInt64.ofNat (countIn latencies b) + 1 else .ofNat (countIn latencies b)) =
          .ofNat (countIn (latencies ++ [l]) b) := by
      intro b _
      rw [countIn, countIn, List.countP_append, List.countP_singleton]
      by_cases hb : bucketOf l = some b
      · rw [if_pos hb, if_pos (decide_eq_true hb), UInt64.ofNat_add]
        rfl
      · rw [if_neg hb, if_neg (by simp [hb])]
        rfl
    have hmodify := modify_findIdx nodup_latencyBucketsMs (l ≤ ·)
      (fun b => UInt64.ofNat (countIn latencies b)) (· + 1)
    rw [recorded_concat, LatencyHist.record, ih, ← List.map_congr_left hcount]
    refine Eq.trans ?_ hmodify
    cases latencyBucketsMs.findIdx? (l ≤ ·) with
    | none => rfl
    | some i => rfl

theorem count_recorded (latencies : List Rat) :
    (LatencyHist.recorded latencies).count = .ofNat latencies.length := by
  induction latencies using List.reverseRecOn with
  | nil => rfl
  | append_singleton latencies l ih =>
    rw [recorded_concat, LatencyHist.record, ih, List.length_append, UInt64.ofNat_add]
    rfl

theorem le_of_bucketOf (h : bucketOf l = some b) : l ≤ b := by
  have hle := List.find?_some h
  exact of_decide_eq_true hle

/-- All bounds but the last. -/
def smallBounds : List Rat := latencyBucketsMs.dropLast

theorem le_of_mem_smallBounds (h : b ∈ smallBounds) : b ≤ 5000 := by
  have hall : smallBounds.all (· ≤ 5000) = true := by decide +kernel
  exact of_decide_eq_true (List.all_eq_true.mp hall b h)

theorem le_of_mem_bounds (h : b ∈ latencyBucketsMs) : b = 10000 ∨ b ≤ 5000 := by
  rw [show latencyBucketsMs = smallBounds ++ [10000] from rfl] at h
  rcases List.mem_append.mp h with h | h
  · exact .inr (le_of_mem_smallBounds h)
  · exact .inl (List.mem_singleton.mp h)

theorem bucketOf_eq (l : Rat) :
    bucketOf l = (smallBounds.find? (l ≤ ·)).or (if l ≤ 10000 then some 10000 else none) := by
  rw [bucketOf, show latencyBucketsMs = smallBounds ++ [10000] from rfl, List.find?_append,
    List.find?_singleton]
  simp only [decide_eq_true_eq]

theorem bucketOf_of_le (h : l ≤ 5000) : ∃ b ≤ 5000, bucketOf l = some b := by
  rw [bucketOf_eq]
  cases hfind : smallBounds.find? (l ≤ ·) with
  | none =>
    have hmem : (5000 : Rat) ∈ smallBounds := by decide +kernel
    exact absurd (decide_eq_true h) (List.find?_eq_none.mp hfind 5000 hmem)
  | some b => exact ⟨b, le_of_mem_smallBounds (List.mem_of_find?_eq_some hfind), rfl⟩

theorem bucketOf_of_gt (h : 5000 < l) : bucketOf l = if l ≤ 10000 then some 10000 else none := by
  have hnone : smallBounds.find? (l ≤ ·) = none := by
    refine List.find?_eq_none.mpr fun b hb => ?_
    have hle := le_of_mem_smallBounds hb
    exact fun hlb => absurd (of_decide_eq_true hlb) (not_le_of_gt (lt_of_le_of_lt hle h))
  rw [bucketOf_eq, hnone, Option.none_or]

/-- The last bucket counts what is above all other bounds. -/
theorem bucketOf_eq_last : bucketOf l = some 10000 ↔ 5000 < l ∧ l ≤ 10000 := by
  constructor
  · intro h
    refine ⟨lt_of_not_ge fun hle => ?_, le_of_bucketOf h⟩
    obtain ⟨b, hb, hbucket⟩ := bucketOf_of_le hle
    rw [h] at hbucket
    rw [← Option.some.inj hbucket] at hb
    exact absurd hb (by norm_num)
  · intro ⟨hlt, hle⟩
    rw [bucketOf_of_gt hlt, if_pos hle]

theorem countLe_eq (latencies : List Rat) :
    countLe latencies 10000 = countIn latencies 10000 + countLe latencies 5000 := by
  induction latencies with
  | nil => rfl
  | cons l rest ih =>
    unfold countLe countIn at ih ⊢
    rw [List.countP_cons, List.countP_cons, List.countP_cons, ih]
    simp only [decide_eq_true_eq, bucketOf_eq_last]
    by_cases hsmall : l ≤ 5000
    · have hle : l ≤ 10000 := le_trans hsmall (by norm_num)
      rw [if_pos hle, if_neg fun h => absurd hsmall (not_le_of_gt h.1), if_pos hsmall]
      omega
    · have hlt : 5000 < l := lt_of_not_ge hsmall
      simp only [hlt, true_and, if_neg hsmall]
      omega

/-- Without small latencies the other buckets stay empty. -/
theorem countIn_eq_zero (hall : ∀ l ∈ latencies, 5000 < l) (hb : b ≤ 5000) :
    countIn latencies b = 0 := by
  refine List.countP_eq_zero.mpr fun l hl => ?_
  rw [decide_eq_true_eq]
  exact fun h => absurd (le_trans (le_of_bucketOf h) hb) (not_le_of_gt (hall l hl))

theorem countLe_eq_zero (hall : ∀ l ∈ latencies, 5000 < l) (hb : b ≤ 5000) :
    countLe latencies b = 0 := by
  refine List.countP_eq_zero.mpr fun l hl => ?_
  rw [decide_eq_true_eq]
  exact fun h => absurd (le_trans h hb) (not_le_of_gt (hall l hl))

theorem countLe_pos {m : Rat} (hm : m ∈ latencies) (hle : m ≤ b) : 0 < countLe latencies b :=
  List.countP_pos_iff.mpr ⟨m, hm, decide_eq_true hle⟩

end Buckets

/-! ## What is printed -/

section Lines

variable {latencies : List Rat} {b : Rat}

theorem buckets_prometheus (latencies : List Rat) :
    (prometheus (snapshot (LatencyHist.recorded latencies))).buckets =
      latencyBucketsMs.map (fun b => (some b, UInt64.ofNat (countIn latencies b))) ++
        [(none, .ofNat latencies.length)] := by
  simp only [prometheus, snapshot, buckets_recorded, count_recorded]
  rfl

theorem count_prometheus (latencies : List Rat) :
    (prometheus (snapshot (LatencyHist.recorded latencies))).count = .ofNat latencies.length :=
  count_recorded latencies

theorem mem_lines {n : UInt64} :
    (some b, n) ∈ (prometheus (snapshot (LatencyHist.recorded latencies))).buckets ↔
      b ∈ latencyBucketsMs ∧ .ofNat (countIn latencies b) = n := by
  rw [buckets_prometheus, List.mem_append, List.mem_map, List.mem_singleton]
  constructor
  · intro h
    rcases h with ⟨bound, hbound, he⟩ | he
    · cases he
      exact ⟨hbound, rfl⟩
    · cases he
  · intro ⟨hbound, he⟩
    exact .inl ⟨b, hbound, by rw [he]⟩

theorem mem_infinity {n : UInt64} :
    (none, n) ∈ (prometheus (snapshot (LatencyHist.recorded latencies))).buckets ↔
      n = .ofNat latencies.length := by
  rw [buckets_prometheus, List.mem_append, List.mem_map, List.mem_singleton]
  constructor
  · intro h
    rcases h with ⟨bound, _, he⟩ | he
    · cases he
    · cases he
      rfl
  · intro he
    exact .inr (by rw [he])

/-- With one bucket that counts anything the lines do not decrease. -/
theorem nondecreasing_lines (hall : ∀ l ∈ latencies, 5000 < l)
    (hlast : (UInt64.ofNat (countIn latencies 10000)).toNat ≤ latencies.length % 2 ^ 64) :
    (prometheus (snapshot (LatencyHist.recorded latencies))).buckets.Pairwise
      fun line later => line.2 ≤ later.2 := by
  have hzero : ∀ b ≤ 5000, UInt64.ofNat (countIn latencies b) = 0 := fun b hb => by
    rw [countIn_eq_zero hall hb]
    rfl
  rw [buckets_prometheus, List.pairwise_append]
  refine ⟨?_, List.pairwise_singleton _ _, ?_⟩
  · rw [List.pairwise_map, show latencyBucketsMs = smallBounds ++ [10000] from rfl,
      List.pairwise_append]
    refine ⟨List.pairwise_of_forall_mem_list fun b hb c _ => ?_, List.pairwise_singleton _ _,
      fun b hb c _ => ?_⟩
    · rw [hzero b (le_of_mem_smallBounds hb)]
      exact UInt64.zero_le
    · rw [hzero b (le_of_mem_smallBounds hb)]
      exact UInt64.zero_le
  · intro line hline infinity hinfinity
    obtain ⟨b, hb, hline⟩ := List.mem_map.mp hline
    rw [← hline, List.mem_singleton.mp hinfinity]
    rcases le_of_mem_bounds hb with hb | hb
    · rw [hb, UInt64.le_iff_toNat_le, UInt64.toNat_ofNat']
      exact hlast
    · rw [hzero b hb]
      exact UInt64.zero_le

/-- The bucket lines are those of a histogram exactly when only the last one counts anything,
and the counters have not wrapped around too far. -/
theorem valid_iff (latencies : List Rat) :
    Valid latencies (prometheus (snapshot (LatencyHist.recorded latencies))) ↔
      (∀ l ∈ latencies, 5000 < l) ∧ countLe latencies 10000 ≤ latencies.length % 2 ^ 64 := by
  constructor
  · intro h
    have hmem : (10000 : Rat) ∈ latencyBucketsMs := by decide +kernel
    have hlast := h.exact 10000 _ (mem_lines.mpr ⟨hmem, rfl⟩)
    have hle : (UInt64.ofNat (countIn latencies 10000)).toNat ≤ countIn latencies 10000 := by
      rw [UInt64.toNat_ofNat']
      exact Nat.mod_le _ _
    have hsplit := countLe_eq latencies
    constructor
    · intro l hl
      refine lt_of_not_ge fun hsmall => ?_
      have hpos := countLe_pos hl hsmall
      omega
    · have hpairs := h.nondecreasing
      rw [buckets_prometheus, List.pairwise_append] at hpairs
      obtain ⟨_, _, hinfinity⟩ := hpairs
      have hbounded := hinfinity _ (List.mem_map_of_mem hmem) _ (.head _)
      rw [UInt64.le_iff_toNat_le, hlast, UInt64.toNat_ofNat'] at hbounded
      exact hbounded
  · intro ⟨hall, hcount⟩
    have hsplit := countLe_eq latencies
    rw [countLe_eq_zero hall (le_refl 5000), Nat.add_zero] at hsplit
    have hlast : (UInt64.ofNat (countIn latencies 10000)).toNat = countIn latencies 10000 := by
      rw [UInt64.toNat_ofNat', ← hsplit]
      exact Nat.mod_eq_of_lt (Nat.lt_of_le_of_lt hcount (Nat.mod_lt _ (by decide)))
    refine ⟨fun b n hline => ?_, ?_, fun n => ?_⟩
    · obtain ⟨hb, he⟩ := mem_lines.mp hline
      rw [← he]
      rcases le_of_mem_bounds hb with hb | hb
      · rw [hb, hlast, hsplit]
      · rw [countIn_eq_zero hall hb, countLe_eq_zero hall hb]
        rfl
    · refine nondecreasing_lines hall ?_
      rw [hlast, ← hsplit]
      exact hcount
    · rw [mem_infinity, count_prometheus]

/-- **The latency histogram.** The bucket lines and the snapshot are never both right. -/
theorem histogram_never_valid (latencies : List Rat) :
    ¬ (Valid latencies (prometheus (snapshot (LatencyHist.recorded latencies))) ∧
      Cumulative latencies (snapshot (LatencyHist.recorded latencies))) ∧
    (Valid latencies (prometheus (snapshot (LatencyHist.recorded latencies))) ↔
      (∀ l ∈ latencies, 5000 < l) ∧ countLe latencies 10000 ≤ latencies.length % 2 ^ 64) := by
  refine ⟨fun h => ?_, valid_iff latencies⟩
  have hlength := congrArg List.length h.2
  rw [snapshot, buckets_recorded, List.length_map, List.length_map, List.length_append,
    List.length_map] at hlength
  rw [List.length_singleton] at hlength
  exact absurd hlength (Nat.ne_of_lt (Nat.lt_succ_self _))

/-- Latencies of three and twenty milliseconds. -/
theorem buckets_not_cumulative :
    (snapshot (LatencyHist.recorded [3, 20])).latencyBuckets =
      [0, 0, 1, 0, 1, 0, 0, 0, 0, 0, 0, 0, 0] ∧
    (some 10, 0) ∈ (prometheus (snapshot (LatencyHist.recorded [3, 20]))).buckets ∧
    ¬ Valid [3, 20] (prometheus (snapshot (LatencyHist.recorded [3, 20]))) ∧
    ¬ Cumulative [3, 20] (snapshot (LatencyHist.recorded [3, 20])) := by
  have hline : (some 10, 0) ∈ (prometheus (snapshot (LatencyHist.recorded [3, 20]))).buckets := by
    decide +kernel
  refine ⟨by decide +kernel, hline, fun h => ?_, fun h => ?_⟩
  · exact absurd (h.exact 10 0 hline) (by decide +kernel)
  · exact absurd (congrArg List.length h) (by decide +kernel)

end Lines

end JustApi.Core.Metrics
