import JustApi.Core.Compress

/-! # The order of the candidates

The candidates are sorted by quality, and by preference where qualities do not differ. A
quality that is no number differs from none. -/
namespace JustApi.Core.Compress
open JustApi.Lib.Float64 JustApi.Lib.Comparators

variable {features : Features} {a b c : Candidate} {va vb vc : Int}

/-! ## The comparison -/

theorem comparator_number (ha : a.quality = .number va) (hb : b.quality = .number vb) :
    comparator features a b = (F64.compareUnits vb va).then
      (compare (preferenceOrder features a.name) (preferenceOrder features b.name)) := by
  rw [comparator, ha, hb]
  rfl

/-- Without a number on one side preference decides. -/
theorem comparator_nan (h : a.quality = .nan ∨ b.quality = .nan) :
    comparator features a b =
      compare (preferenceOrder features a.name) (preferenceOrder features b.name) := by
  have hnone : b.quality.partialCmp a.quality = none := by
    rcases h with h | h
    · rw [h]
      cases b.quality <;> rfl
    · rw [h]
      rfl
  rw [comparator, hnone]
  rfl

theorem isLE_then (o o' : Ordering) : (o.then o').isLE ↔ o = .lt ∨ o = .eq ∧ o'.isLE := by
  cases o <;> simp

theorem comparator_isLE_number (ha : a.quality = .number va) (hb : b.quality = .number vb) :
    (comparator features a b).isLE ↔ vb < va ∨
      va = vb ∧ preferenceOrder features a.name ≤ preferenceOrder features b.name := by
  rw [comparator_number ha hb, isLE_then, F64.compareUnits_eq_lt, F64.compareUnits_eq_eq,
    Nat.isLE_compare, eq_comm (a := vb)]

theorem comparator_isLE_nan (h : a.quality = .nan ∨ b.quality = .nan) :
    (comparator features a b).isLE ↔
      preferenceOrder features a.name ≤ preferenceOrder features b.name := by
  rw [comparator_nan h, Nat.isLE_compare]

theorem comparator_swap (a b : Candidate) :
    comparator features a b = (comparator features b a).swap := by
  cases ha : a.quality with
  | nan => rw [comparator_nan (.inl ha), comparator_nan (.inr ha), Nat.compare_swap]
  | number va =>
    cases hb : b.quality with
    | nan => rw [comparator_nan (.inr hb), comparator_nan (.inl hb), Nat.compare_swap]
    | number vb =>
      rw [comparator_number ha hb, comparator_number hb ha, Ordering.swap_then, Nat.compare_swap,
        F64.compareUnits_swap]

/-! ## When it is an order -/

/-- The one has more quality than the other. -/
def Better (x y : Candidate) : Prop := y.quality.partialCmp x.quality = some .lt

theorem better_iff {x y : Candidate} :
    Better x y ↔ ∃ vx vy, x.quality = .number vx ∧ y.quality = .number vy ∧ vy < vx := by
  unfold Better
  cases hx : x.quality with
  | nan => cases y.quality <;> simp [F64.partialCmp]
  | number vx =>
    cases hy : y.quality with
    | nan => simp [F64.partialCmp]
    | number vy => simp [F64.partialCmp, F64.compareUnits_eq_lt]

/-- No candidate without a number as its quality stands in the order of preference between
one of less quality and one of more that is not preferred to it. -/
def NanApart (features : Features) (cs : List Candidate) : Prop :=
  ∀ x ∈ cs, ∀ n ∈ cs, ∀ y ∈ cs, Better x y → n.quality = .nan →
    ¬ (preferenceOrder features y.name ≤ preferenceOrder features n.name ∧
      preferenceOrder features n.name ≤ preferenceOrder features x.name)

theorem comparator_trans {cs : List Candidate} (h : NanApart features cs) (ha : a ∈ cs) (hb : b ∈ cs)
    (hc : c ∈ cs) (hab : (comparator features a b).isLE) (hbc : (comparator features b c).isLE) :
    (comparator features a c).isLE := by
  cases hqa : a.quality with
  | nan =>
    rw [comparator_isLE_nan (.inl hqa)] at hab ⊢
    by_contra hac
    cases hqb : b.quality with
    | nan =>
      rw [comparator_isLE_nan (.inl hqb)] at hbc
      omega
    | number vb =>
      cases hqc : c.quality with
      | nan =>
        rw [comparator_isLE_nan (.inr hqc)] at hbc
        omega
      | number vc =>
        rw [comparator_isLE_number hqb hqc] at hbc
        rcases hbc with hlt | ⟨-, hle⟩
        · exact h b hb a ha c hc (better_iff.mpr ⟨vb, vc, hqb, hqc, hlt⟩) hqa ⟨by omega, hab⟩
        · omega
  | number va =>
    cases hqc : c.quality with
    | nan =>
      rw [comparator_isLE_nan (.inr hqc)] at hbc ⊢
      by_contra hac
      cases hqb : b.quality with
      | nan =>
        rw [comparator_isLE_nan (.inr hqb)] at hab
        omega
      | number vb =>
        rw [comparator_isLE_number hqa hqb] at hab
        rcases hab with hlt | ⟨-, hle⟩
        · exact h a ha c hc b hb (better_iff.mpr ⟨va, vb, hqa, hqb, hlt⟩) hqc ⟨hbc, by omega⟩
        · omega
    | number vc =>
      rw [comparator_isLE_number hqa hqc]
      cases hqb : b.quality with
      | nan =>
        rw [comparator_isLE_nan (.inr hqb)] at hab
        rw [comparator_isLE_nan (.inl hqb)] at hbc
        rcases lt_trichotomy vc va with hlt | heq | hgt
        · exact .inl hlt
        · exact .inr ⟨heq.symm, by omega⟩
        · exact absurd ⟨hab, hbc⟩ (h c hc b hb a ha (better_iff.mpr ⟨vc, va, hqc, hqa, hgt⟩) hqb)
      | number vb =>
        rw [comparator_isLE_number hqa hqb] at hab
        rw [comparator_isLE_number hqb hqc] at hbc
        rcases hab with hab | ⟨rfl, hab⟩
        · rcases hbc with hbc | ⟨rfl, -⟩
          · exact .inl (hbc.trans hab)
          · exact .inl hab
        · rcases hbc with hbc | ⟨rfl, hbc⟩
          · exact .inl hbc
          · exact .inr ⟨rfl, hab.trans hbc⟩

theorem strictWeakOn_comparator_iff {cs : List Candidate} :
    StrictWeakOn (comparator features) cs ↔ NanApart features cs := by
  constructor
  · intro h x hx n hn y hy hbetter hnan hbetween
    obtain ⟨vx, vy, hqx, hqy, hlt⟩ := better_iff.mp hbetter
    have hyx := h.trans hy hn hx ((comparator_isLE_nan (.inr hnan)).mpr hbetween.1)
      ((comparator_isLE_nan (.inl hnan)).mpr hbetween.2)
    rw [comparator_isLE_number hqy hqx] at hyx
    rcases hyx with hyx | ⟨heq, -⟩
    · exact absurd hlt hyx.not_gt
    · exact hlt.ne heq
  · intro h
    rw [strictWeakOn_iff]
    exact ⟨fun a _ b _ => comparator_swap a b, fun a ha b hb c hc => comparator_trans h ha hb hc⟩

/-! ## What is sorted first -/

/-- The encoding of an order of preference. -/
def chosenAt (features : Features) : Nat → Encoding
  | 0 => .brotli
  | 1 => .zstd
  | 2 => .gzip
  | 3 => .deflate
  | 4 => if features.brotli then .brotli else if features.zstd then .zstd else .gzip
  | _ => .identity

theorem chosen_eq (features : Features) (name : String) :
    chosen features name = chosenAt features (preferenceOrder features name) := by
  unfold chosen preferenceOrder
  by_cases hbr : name = "br" ∧ features.brotli
  · rw [if_pos hbr, if_pos hbr, chosenAt]
  rw [if_neg hbr, if_neg hbr]
  by_cases hzstd : name = "zstd" ∧ features.zstd
  · rw [if_pos hzstd, if_pos hzstd, chosenAt]
  rw [if_neg hzstd, if_neg hzstd]
  by_cases hgzip : name = "gzip" ∨ name = "x-gzip"
  · rw [if_pos hgzip, if_pos hgzip, chosenAt]
  rw [if_neg hgzip, if_neg hgzip]
  by_cases hdeflate : name = "deflate"
  · rw [if_pos hdeflate, if_pos hdeflate, chosenAt]
  rw [if_neg hdeflate, if_neg hdeflate]
  by_cases hstar : name = "*"
  · rw [if_pos hstar, if_pos hstar, chosenAt]
  · rw [if_neg hstar, if_neg hstar, chosenAt]
    all_goals decide

theorem chosen_of_tie (h : comparator features a b = .eq) :
    chosen features a.name = chosen features b.name := by
  have hpreference : compare (preferenceOrder features a.name) (preferenceOrder features b.name) =
      .eq := by
    unfold comparator at h
    exact (Ordering.then_eq_eq.mp h).2
  rw [chosen_eq, chosen_eq, Nat.compare_eq_eq.mp hpreference]

theorem candidates_perm {parts parts' : List (List Char)} (h : parts'.Perm parts) :
    (candidates parts').Perm (candidates parts) :=
  (h.map entry).filter isCandidate

/-- An order of the candidates, whose first one gives the encoding that it gives when the
entries of the header are ordered in another way. -/
structure OrderedChoice (features : Features) (headerValue : String) : Prop where
  order : StrictWeakOn (comparator features) (candidates (parts headerValue))
  choice : ∀ parts', parts'.Perm (parts headerValue) →
    choose features (candidates parts') = fromAcceptEncoding features headerValue

/-- The very candidate that is sorted first does not depend on the order of the entries. -/
structure OrderedFirst (features : Features) (headerValue : String) : Prop where
  order : StrictWeakOn (comparator features) (candidates (parts headerValue))
  first : ∀ parts', parts'.Perm (parts headerValue) →
    (sortBy (comparator features) (candidates parts')).head? =
      (sortBy (comparator features) (candidates (parts headerValue))).head?

/-- Two candidates that both come after none are the same. -/
def NoTie (features : Features) (cs : List Candidate) : Prop :=
  ∀ a b, IsFirst (comparator features) cs a → IsFirst (comparator features) cs b → a = b

theorem heads_tie {cs cs' : List Candidate} (h : StrictWeakOn (comparator features) cs)
    (hperm : cs'.Perm cs) :
    (sortBy (comparator features) cs').head? = none ∧ (sortBy (comparator features) cs).head? = none ∨
      ∃ a b, (sortBy (comparator features) cs').head? = some a ∧
        (sortBy (comparator features) cs).head? = some b ∧
        IsFirst (comparator features) cs a ∧ IsFirst (comparator features) cs b := by
  have h' : StrictWeakOn (comparator features) cs' := h.mono fun x hx => hperm.mem_iff.mp hx
  cases hb : (sortBy (comparator features) cs).head? with
  | none =>
    have hnil := head?_sortBy_eq_none.mp hb
    rw [hnil, List.perm_nil] at hperm
    exact .inl ⟨head?_sortBy_eq_none.mpr hperm, rfl⟩
  | some b =>
    cases ha : (sortBy (comparator features) cs').head? with
    | none =>
      have hnil := head?_sortBy_eq_none.mp ha
      rw [hnil, List.nil_perm] at hperm
      rw [head?_sortBy_eq_none.mpr hperm] at hb
      cases hb
    | some a =>
      exact .inr ⟨a, b, rfl, rfl, (isFirst_head h' ha).perm hperm.symm, isFirst_head h hb⟩

theorem orderedChoice_iff (headerValue : String) :
    OrderedChoice features headerValue ↔ NanApart features (candidates (parts headerValue)) := by
  rw [← strictWeakOn_comparator_iff]
  constructor
  · exact OrderedChoice.order
  · intro h
    refine ⟨h, fun parts' hperm => ?_⟩
    rw [fromAcceptEncoding, choose, choose]
    rcases heads_tie h (candidates_perm hperm) with ⟨ha, hb⟩ | ⟨a, b, ha, hb, hfirst, hfirst'⟩
    · rw [ha, hb]
    · rw [ha, hb]
      exact chosen_of_tie (hfirst.tie h hfirst')

/-- Whatever comes after none can be sorted first, by putting its entry first. -/
theorem exists_perm_head {ps : List (List Char)}
    (h : IsFirst (comparator features) (candidates ps) a) :
    ∃ ps', ps'.Perm ps ∧ (sortBy (comparator features) (candidates ps')).head? = some a := by
  obtain ⟨hmem, hcandidate⟩ := List.mem_filter.mp h.1
  obtain ⟨part, hpart, rfl⟩ := List.mem_map.mp hmem
  obtain ⟨before, after, rfl⟩ := List.append_of_mem hpart
  have hperm : (part :: (before ++ after)).Perm (before ++ part :: after) :=
    List.perm_middle.symm
  refine ⟨_, hperm, ?_⟩
  have hcons : candidates (part :: (before ++ after)) =
      entry part :: candidates (before ++ after) := by
    rw [candidates, List.map_cons, List.filter_cons_of_pos hcandidate]
    rfl
  have hfirst := h.perm (candidates_perm hperm)
  rw [hcons] at hfirst ⊢
  exact head?_sortBy_of_isFirst hfirst

theorem orderedFirst_iff (headerValue : String) :
    OrderedFirst features headerValue ↔ NanApart features (candidates (parts headerValue)) ∧
      NoTie features (candidates (parts headerValue)) := by
  rw [← strictWeakOn_comparator_iff]
  constructor
  · intro h
    refine ⟨h.order, fun a b ha hb => ?_⟩
    obtain ⟨ps, hps, hheada⟩ := exists_perm_head ha
    obtain ⟨ps', hps', hheadb⟩ := exists_perm_head hb
    have hsame := (h.first ps hps).trans (h.first ps' hps').symm
    rw [hheada, hheadb] at hsame
    exact Option.some.inj hsame
  · intro h
    refine ⟨h.1, fun parts' hperm => ?_⟩
    rcases heads_tie h.1 (candidates_perm hperm) with ⟨ha, hb⟩ | ⟨a, b, ha, hb, hfirst, hfirst'⟩
    · rw [ha, hb]
    · rw [ha, hb, h.2 a b hfirst hfirst']

/-- **The order of the candidates.** The comparison orders the candidates, and what comes
first gives the same encoding in every order of the entries, exactly if no quality that is
no number stands in the way; it is the same candidate exactly if besides none tie for the
first place. -/
theorem candidates_ordered_iff (features : Features) (headerValue : String) :
    (OrderedChoice features headerValue ↔ NanApart features (candidates (parts headerValue))) ∧
      (OrderedFirst features headerValue ↔ NanApart features (candidates (parts headerValue)) ∧
        NoTie features (candidates (parts headerValue))) :=
  ⟨orderedChoice_iff headerValue, orderedFirst_iff headerValue⟩

/-- `nan` is neither below nor above the qualities around it. -/
theorem nan_breaks_order : ¬ StrictWeakOn (comparator ⟨true, true⟩)
    (candidates (parts "gzip;q=0.1, deflate;q=nan, *;q=0.9")) := by
  intro h
  have hapart := strictWeakOn_comparator_iff.mp h
  refine hapart (entry "*;q=0.9".toList) ?_ (entry "deflate;q=nan".toList) ?_
    (entry "gzip;q=0.1".toList) ?_ ?_ ?_ ?_
  · decide +kernel
  · decide +kernel
  · decide +kernel
  · show F64.partialCmp _ _ = _
    decide +kernel
  · decide +kernel
  · decide +kernel

end JustApi.Core.Compress
