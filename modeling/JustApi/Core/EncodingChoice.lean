import JustApi.Core.EncodingOrder

/-! # The chosen encoding

What a header asks for, and when the first of the sorted candidates is that. The
candidates are entries: refused ones are gone before `*` is read, `*` stands for no
encoding that has an entry, and `identity` is never one. -/
namespace JustApi.Core.Compress
open JustApi.Lib.Text JustApi.Lib.Float64 JustApi.Lib.Comparators

/-! ## What the client asks for -/

def isSupported (features : Features) : Encoding → Bool
  | .brotli => features.brotli
  | .zstd => features.zstd
  | .gzip | .deflate | .identity => true

def ownNames : Encoding → List String
  | .brotli => ["br"]
  | .zstd => ["zstd"]
  | .gzip => ["gzip", "x-gzip"]
  | .deflate => ["deflate"]
  | .identity => ["identity"]

/-- br > zstd > gzip > deflate > identity -/
def rank : Encoding → Nat
  | .brotli => 0
  | .zstd => 1
  | .gzip => 2
  | .deflate => 3
  | .identity => 4

def entries (headerValue : String) : List Candidate := (parts headerValue).map entry

/-- The entries with one of the names. -/
def given (names : List String) (es : List Candidate) : List Candidate :=
  es.filter fun c => c.name ∈ names

/-- Zero without one. -/
def maxQuality (cs : List Candidate) : Int :=
  cs.foldr (fun c v => if v ≤ c.quality.value then c.quality.value else v) 0

/-- The largest quality given to one of the names. -/
def best (names : List String) (es : List Candidate) : Int := maxQuality (given names es)

abbrev own (es : List Candidate) (e : Encoding) : Int := best (ownNames e) es

abbrev star (es : List Candidate) : Int := best ["*"] es

def Listed (es : List Candidate) (e : Encoding) : Prop := given (ownNames e) es ≠ []

instance (es : List Candidate) (e : Encoding) : Decidable (Listed es e) :=
  inferInstanceAs (Decidable (_ ≠ _))

/-- The quality of an encoding: of its own entry, else of `*`, else one for `identity`. -/
def qualityOf (es : List Candidate) (e : Encoding) : Int :=
  if Listed es e then own es e
  else if given ["*"] es ≠ [] then star es
  else if e = .identity then 2 ^ 1074
  else 0

/-- No entry of the encoding has quality zero. -/
def NotRefused (es : List Candidate) (e : Encoding) : Prop :=
  ∀ c ∈ given (ownNames e) es, c.quality ≠ .zero

/-- The encoding is one the build has and the client accepts, and none is better. -/
structure Negotiated (features : Features) (es : List Candidate) (e : Encoding) : Prop where
  supported : isSupported features e
  acceptable : 0 < qualityOf es e
  maximal : ∀ e', isSupported features e' → qualityOf es e' ≤ qualityOf es e
  preferred : ∀ e', isSupported features e' → qualityOf es e' = qualityOf es e → rank e ≤ rank e'
  notRefused : NotRefused es e

/-- A decimal number in `[0, 1]`. -/
def IsDecimal (text : List Char) : Prop :=
  ∃ whole fraction, (text = whole ++ '.' :: fraction ∨ text = whole ∧ fraction = []) ∧
    (∀ c ∈ whole ++ fraction, c.isDigit) ∧ whole ++ fraction ≠ [] ∧
    F64.digitsValue (whole ++ fraction) ≤ 10 ^ fraction.length

def DecimalQualities (headerValue : String) : Prop :=
  ∀ part ∈ parts headerValue, ∀ text ∈ qualityTexts part, IsDecimal text

/-! ## What leads the entries -/

section Leading

variable (features : Features) (es : List Candidate)

/-- A compression of the build that is listed, with no entry above it. -/
structure Leads (e : Encoding) : Prop where
  compression : e ≠ .identity
  supported : isSupported features e
  positive : 0 < own es e
  star : star es ≤ own es e
  others : ∀ e', e' ≠ .identity → own es e' ≤ own es e
  ties : ∀ e', e' ≠ .identity → isSupported features e' → own es e' = own es e →
    rank e ≤ rank e'

/-- `*` has more quality than every compression of the build that is listed. -/
structure StarLeads : Prop where
  positive : 0 < star es
  listed : ∀ e, e ≠ .identity → isSupported features e → own es e < star es
  missing : ∀ e, e ≠ .identity → own es e ≤ star es

/-- A compression that the build does not have is above everything else. -/
def MissingLeads : Prop :=
  ∃ e, e ≠ .identity ∧ ¬ isSupported features e ∧ 0 < own es e ∧ star es < own es e ∧
    ∀ e', e' ≠ .identity → isSupported features e' → own es e' < own es e

/-- No compression is accepted. -/
def NothingLeads : Prop := star es ≤ 0 ∧ ∀ e, e ≠ .identity → own es e ≤ 0

/-- What the choice overlooks makes no difference. -/
structure Heard : Prop where
  /-- `identity` is not better, an entry with zero is not passed over, and `*` gives no
  preferred encoding as much. -/
  listed : ∀ e, Leads features es e → qualityOf es .identity ≤ own es e ∧ NotRefused es e ∧
    ∀ e', e' ≠ .identity → isSupported features e' → ¬ Listed es e' →
      star es < own es e ∨ rank e ≤ rank e'
  /-- `*` stands for the preferred encoding, or everything is listed and that is the best. -/
  star : StarLeads features es →
    ¬ Listed es (chosen features "*") ∧ qualityOf es .identity ≤ star es ∨
      0 < own es (chosen features "*") ∧ NotRefused es (chosen features "*") ∧
        ∀ e, isSupported features e → Listed es e ∧ own es e ≤ own es (chosen features "*")
  missing : MissingLeads features es →
    ∀ e, e ≠ .identity → isSupported features e → qualityOf es e < qualityOf es .identity
  identity : MissingLeads features es ∨ NothingLeads es →
    0 < qualityOf es .identity ∧ NotRefused es .identity

end Leading

/-! ## Qualities -/

section Qualities

variable {es : List Candidate} {names : List String} {c : Candidate} {v : Int}

theorem mem_given : c ∈ given names es ↔ c ∈ es ∧ c.name ∈ names := by
  rw [given, List.mem_filter, decide_eq_true_iff]

theorem maxQuality_cons (d : Candidate) (ds : List Candidate) :
    maxQuality (d :: ds) =
      if maxQuality ds ≤ d.quality.value then d.quality.value else maxQuality ds := rfl

theorem le_maxQuality {cs : List Candidate} (h : c ∈ cs) : c.quality.value ≤ maxQuality cs := by
  induction cs with
  | nil => cases h
  | cons d ds ih =>
    rw [maxQuality_cons]
    rcases List.mem_cons.mp h with rfl | hrest
    · split <;> omega
    · have := ih hrest
      split <;> omega

theorem maxQuality_le {cs : List Candidate} (h : ∀ c ∈ cs, c.quality.value ≤ v) (hv : 0 ≤ v) :
    maxQuality cs ≤ v := by
  induction cs with
  | nil => exact hv
  | cons d ds ih =>
    rw [maxQuality_cons]
    split
    · exact h d List.mem_cons_self
    · exact ih fun c hc => h c (List.mem_cons_of_mem d hc)

theorem exists_maxQuality {cs : List Candidate} (h : 0 < maxQuality cs) :
    ∃ c ∈ cs, c.quality.value = maxQuality cs := by
  induction cs with
  | nil => exact absurd h (lt_irrefl _)
  | cons d ds ih =>
    rw [maxQuality_cons] at h ⊢
    split at h
    · rename_i hle
      exact ⟨d, List.mem_cons_self, (if_pos hle).symm⟩
    · rename_i hle
      obtain ⟨c, hc, hv⟩ := ih h
      exact ⟨c, List.mem_cons_of_mem d hc, hv.trans (if_neg hle).symm⟩

theorem le_best (h : c ∈ given names es) : c.quality.value ≤ best names es := le_maxQuality h

/-- The best quality is that of an entry. -/
theorem exists_best (h : 0 < best names es) :
    ∃ c ∈ given names es, c.quality.value = best names es := exists_maxQuality h

theorem best_of_not_given (h : given names es = []) : best names es = 0 := by
  rw [best, h]
  rfl

theorem listed_of_pos {e : Encoding} (h : 0 < own es e) : Listed es e := by
  intro hnil
  rw [own, best_of_not_given hnil] at h
  exact lt_irrefl _ h

theorem qualityOf_listed {e : Encoding} (h : Listed es e) : qualityOf es e = own es e := if_pos h

theorem qualityOf_unlisted {e : Encoding} (h : ¬ Listed es e) (he : e ≠ .identity) :
    qualityOf es e = star es ∧ given ["*"] es ≠ [] ∨ qualityOf es e = 0 ∧ star es = 0 := by
  rw [qualityOf, if_neg h, if_neg he]
  by_cases hstar : given ["*"] es = []
  · exact .inr ⟨if_neg (not_not_intro hstar), best_of_not_given hstar⟩
  · exact .inl ⟨if_pos hstar, hstar⟩

end Qualities

/-! ## The names -/

section Names

variable {features : Features} {e e' : Encoding} {name : String}

theorem rank_inj (h : rank e = rank e') : e = e' := by
  cases e <;> cases e' <;> first | rfl | exact absurd h (by decide)

theorem rank_le_identity (e : Encoding) : rank e ≤ rank .identity := by
  cases e <;> decide

/-- The names of the header are those of the compressions, and `*`. -/
theorem mem_names_iff : name ∈ names ↔ name = "*" ∨ ∃ e, e ≠ .identity ∧ name ∈ ownNames e := by
  constructor
  · intro h
    simp only [names, List.mem_cons, List.not_mem_nil, or_false] at h
    rcases h with rfl | rfl | rfl | rfl | rfl | rfl
    · exact .inr ⟨.brotli, by decide, by decide⟩
    · exact .inr ⟨.zstd, by decide, by decide⟩
    · exact .inr ⟨.gzip, by decide, by decide⟩
    · exact .inr ⟨.gzip, by decide, by decide⟩
    · exact .inr ⟨.deflate, by decide, by decide⟩
    · exact .inl rfl
  · intro h
    rcases h with rfl | ⟨e, he, hname⟩
    · decide
    · cases e with
      | identity => exact absurd rfl he
      | brotli | zstd | deflate =>
        rw [List.mem_singleton.mp hname]
        decide
      | gzip =>
        simp only [ownNames, List.mem_cons, List.not_mem_nil, or_false] at hname
        rcases hname with rfl | rfl <;> decide

theorem preferenceOrder_own (he : e ≠ .identity) (h : name ∈ ownNames e) :
    preferenceOrder features name = if isSupported features e then rank e else 5 := by
  cases e with
  | identity => exact absurd rfl he
  | brotli =>
    rw [List.mem_singleton.mp h, isSupported]
    cases hb : features.brotli <;> simp [preferenceOrder, hb, rank]
  | zstd =>
    rw [List.mem_singleton.mp h, isSupported]
    cases hz : features.zstd <;> simp [preferenceOrder, hz, rank]
  | deflate =>
    rw [List.mem_singleton.mp h]
    simp [preferenceOrder, isSupported, rank]
  | gzip =>
    simp only [ownNames, List.mem_cons, List.not_mem_nil, or_false] at h
    rcases h with rfl | rfl <;> simp [preferenceOrder, isSupported, rank]

theorem preferenceOrder_star : preferenceOrder features "*" = 4 := by
  simp [preferenceOrder]

theorem chosen_own (he : e ≠ .identity) (h : name ∈ ownNames e) :
    chosen features name = if isSupported features e then e else .identity := by
  rw [chosen_eq, preferenceOrder_own he h]
  split
  · cases e <;> first | rfl | exact absurd rfl he
  · rfl

/-- `*` is taken for the preferred encoding of the build. -/
theorem chosen_star (features : Features) : chosen features "*" ≠ .identity ∧
    isSupported features (chosen features "*") ∧
    ∀ e, isSupported features e → rank (chosen features "*") ≤ rank e := by
  rw [chosen_eq, preferenceOrder_star]
  obtain ⟨brotli, zstd⟩ := features
  refine ⟨?_, ?_, fun e => ?_⟩
  · cases brotli <;> cases zstd <;> decide
  · cases brotli <;> cases zstd <;> decide
  · cases brotli <;> cases zstd <;> cases e <;> decide

end Names

/-! ## The first candidate -/

section First

variable {features : Features} {es : List Candidate} {names : List String} {m c : Candidate}
  {e : Encoding}

/-- Every quality is a number. -/
def NoNan (es : List Candidate) : Prop := ∀ c ∈ es, c.quality ≠ .nan

theorem NoNan.number (h : NoNan es) (hc : c ∈ es) : c.quality = .number c.quality.value := by
  cases hq : c.quality with
  | nan => exact absurd hq (h c hc)
  | number v => rfl

theorem le_zero_iff (v : Int) : (F64.number v).le .zero ↔ v ≤ 0 := by
  change (F64.compareUnits v 0).isLE ↔ v ≤ 0
  exact F64.compareUnits_isLE

theorem isCandidate_iff (h : NoNan es) (hc : c ∈ es) :
    isCandidate c ↔ 0 < c.quality.value ∧ c.name ∈ Compress.names := by
  have hle : c.quality.le .zero ↔ c.quality.value ≤ 0 := by
    conv_lhs => rw [h.number hc]
    exact le_zero_iff _
  rw [isCandidate, Bool.and_eq_true, decide_eq_true_iff, decide_eq_true_iff, hle, not_le]

theorem nanApart_of_noNan (h : NoNan es) : NanApart features (es.filter isCandidate) :=
  fun _ _ n hn _ _ _ hnan => absurd hnan (h n (List.mem_of_mem_filter hn))

/-- How the first candidate compares to an entry. -/
theorem first_le (h : NoNan es) (hm : IsFirst (comparator features) (es.filter isCandidate) m)
    (hc : c ∈ es) (hpos : 0 < c.quality.value) (hname : c.name ∈ Compress.names) :
    c.quality.value < m.quality.value ∨ m.quality.value = c.quality.value ∧
      preferenceOrder features m.name ≤ preferenceOrder features c.name := by
  have hin : c ∈ es.filter isCandidate :=
    List.mem_filter.mpr ⟨hc, (isCandidate_iff h hc).mpr ⟨hpos, hname⟩⟩
  exact (comparator_isLE_number (h.number (List.mem_of_mem_filter hm.1)) (h.number hc)).mp (hm.2 c hin)

theorem first_entry (h : NoNan es)
    (hm : IsFirst (comparator features) (es.filter isCandidate) m) :
    m ∈ es ∧ 0 < m.quality.value ∧ m.name ∈ Compress.names := by
  obtain ⟨hmem, hcandidate⟩ := List.mem_filter.mp hm.1
  exact ⟨hmem, (isCandidate_iff h hmem).mp hcandidate⟩

/-- No name of the header has more quality than the first candidate. -/
theorem best_le_first (h : NoNan es)
    (hm : IsFirst (comparator features) (es.filter isCandidate) m)
    (hnames : ∀ name ∈ names, name ∈ Compress.names) : best names es ≤ m.quality.value := by
  obtain ⟨-, hpos, -⟩ := first_entry h hm
  refine maxQuality_le (fun c hc => ?_) hpos.le
  obtain ⟨hmem, hname⟩ := mem_given.mp hc
  by_cases hc0 : 0 < c.quality.value
  · rcases first_le h hm hmem hc0 (hnames _ hname) with hlt | ⟨heq, -⟩
    · exact hlt.le
    · exact heq.ge
  · exact (not_lt.mp hc0).trans hpos.le

/-- Names with as much quality are not preferred to it. -/
theorem first_preferred (h : NoNan es)
    (hm : IsFirst (comparator features) (es.filter isCandidate) m)
    (hnames : ∀ name ∈ names, name ∈ Compress.names) (heq : best names es = m.quality.value) :
    ∃ name ∈ names, preferenceOrder features m.name ≤ preferenceOrder features name := by
  obtain ⟨-, hpos, -⟩ := first_entry h hm
  obtain ⟨c, hc, hv⟩ := exists_best (heq ▸ hpos)
  obtain ⟨hmem, hname⟩ := mem_given.mp hc
  rw [heq] at hv
  rcases first_le h hm hmem (hv ▸ hpos) (hnames _ hname) with hlt | ⟨-, hle⟩
  · exact absurd hv hlt.ne
  · exact ⟨c.name, hname, hle⟩

theorem ownNames_known (he : e ≠ .identity) : ∀ name ∈ ownNames e, name ∈ Compress.names :=
  fun _ hname => mem_names_iff.mpr (.inr ⟨e, he, hname⟩)

theorem star_known : ∀ name ∈ ["*"], name ∈ Compress.names := by decide

/-- Of names with as much quality as the first candidate. -/
theorem first_preferred_own (h : NoNan es)
    (hm : IsFirst (comparator features) (es.filter isCandidate) m) (he : e ≠ .identity)
    (heq : own es e = m.quality.value) :
    preferenceOrder features m.name ≤ if isSupported features e then rank e else 5 := by
  obtain ⟨name, hname, hle⟩ := first_preferred h hm (ownNames_known he) heq
  rwa [preferenceOrder_own he hname] at hle

/-- What the code chooses, by what leads. -/
theorem choose_cases (features : Features) (h : NoNan es) :
    (∃ e, Leads features es e ∧ choose features (es.filter isCandidate) = e) ∨
    (StarLeads features es ∧ choose features (es.filter isCandidate) = chosen features "*") ∨
    ((MissingLeads features es ∨ NothingLeads es) ∧
      choose features (es.filter isCandidate) = .identity) := by
  unfold choose
  cases hhead : (sortBy (comparator features) (es.filter isCandidate)).head? with
  | none =>
    have hnone := head?_sortBy_eq_none.mp hhead
    have hle : ∀ names : List String, (∀ name ∈ names, name ∈ Compress.names) →
        best names es ≤ 0 := by
      intro names hnames
      refine maxQuality_le (fun c hc => ?_) le_rfl
      obtain ⟨hmem, hname⟩ := mem_given.mp hc
      by_contra hpos
      have hin := (isCandidate_iff h hmem).mpr ⟨not_le.mp hpos, hnames _ hname⟩
      exact absurd (List.mem_filter.mpr ⟨hmem, hin⟩) (by rw [hnone]; exact List.not_mem_nil)
    exact .inr (.inr ⟨.inr ⟨hle _ star_known, fun e he => hle _ (ownNames_known he)⟩, rfl⟩)
  | some m =>
    have hm : IsFirst (comparator features) (es.filter isCandidate) m :=
      isFirst_head (strictWeakOn_comparator_iff.mpr (nanApart_of_noNan h)) hhead
    obtain ⟨hmem, hpos, hname⟩ := first_entry h hm
    have hstar : star es ≤ m.quality.value := best_le_first h hm star_known
    have hown : ∀ e, e ≠ .identity → own es e ≤ m.quality.value :=
      fun e he => best_le_first h hm (ownNames_known he)
    dsimp only
    rcases mem_names_iff.mp hname with hstarName | ⟨e, he, hname⟩
    · have heq : star es = m.quality.value :=
        hstar.antisymm (le_best (mem_given.mpr ⟨hmem, by rw [hstarName]; decide⟩))
      rw [hstarName]
      refine .inr (.inl ⟨⟨heq ▸ hpos, fun e he hsup => ?_, fun e he => heq ▸ hown e he⟩, rfl⟩)
      refine (heq ▸ hown e he).lt_of_ne fun htie => ?_
      have hle := first_preferred_own h hm he (htie.trans heq)
      rw [hstarName, preferenceOrder_star, if_pos hsup] at hle
      cases e <;> first | exact he rfl | exact absurd hle (by decide)
    · have heq : own es e = m.quality.value :=
        (hown e he).antisymm (le_best (mem_given.mpr ⟨hmem, hname⟩))
      rw [chosen_own he hname]
      by_cases hsup : isSupported features e
      · refine .inl ⟨e, ⟨he, hsup, heq ▸ hpos, heq ▸ hstar, fun e' he' => heq ▸ hown e' he', ?_⟩,
          if_pos hsup⟩
        intro e' he' hsup' htie
        have hle := first_preferred_own h hm he' (htie.trans heq)
        rwa [preferenceOrder_own he hname, if_pos hsup, if_pos hsup'] at hle
      · rw [if_neg hsup]
        refine .inr (.inr ⟨.inl ⟨e, he, hsup, heq ▸ hpos, ?_, fun e' he' hsup' => ?_⟩, rfl⟩)
        · refine (heq ▸ hstar).lt_of_ne fun htie => ?_
          obtain ⟨name, hstarName, hle⟩ := first_preferred h hm star_known (htie.trans heq)
          rw [List.mem_singleton.mp hstarName, preferenceOrder_own he hname, if_neg hsup,
            preferenceOrder_star] at hle
          exact absurd hle (by decide)
        · refine (heq ▸ hown e' he').lt_of_ne fun htie => ?_
          have hle := first_preferred_own h hm he' (htie.trans heq)
          rw [preferenceOrder_own he hname, if_neg hsup, if_pos hsup'] at hle
          exact absurd (hle.trans (rank_le_identity e')) (by decide)

end First

/-! ## What is heard -/

section Heard

variable {features : Features} {es : List Candidate} {e e' : Encoding}

theorem Leads.unique (h : Leads features es e) (h' : Leads features es e') : e = e' := by
  have heq : own es e = own es e' :=
    (h'.others e h.compression).antisymm (h.others e' h'.compression)
  exact rank_inj ((h.ties e' h'.compression h'.supported heq.symm).antisymm
    (h'.ties e h.compression h.supported heq))

theorem Leads.not_star (h : Leads features es e) : ¬ StarLeads features es :=
  fun hstar => (hstar.listed e h.compression h.supported).not_ge h.star

theorem Leads.not_rest (h : Leads features es e) :
    ¬ (MissingLeads features es ∨ NothingLeads es) := by
  intro hrest
  rcases hrest with ⟨u, hu, -, -, -, hlt⟩ | ⟨-, hle⟩
  · exact (hlt e h.compression h.supported).not_ge (h.others u hu)
  · exact h.positive.not_ge (hle e h.compression)

theorem StarLeads.not_rest (h : StarLeads features es) :
    ¬ (MissingLeads features es ∨ NothingLeads es) := by
  intro hrest
  rcases hrest with ⟨u, hu, -, -, hlt, -⟩ | ⟨hle, -⟩
  · exact hlt.not_ge (h.missing u hu)
  · exact h.positive.not_ge hle

theorem negotiated_leads_iff (h : Leads features es e) :
    Negotiated features es e ↔ Heard features es := by
  have hlisted := listed_of_pos h.positive
  have hquality := qualityOf_listed hlisted
  constructor
  · intro hn
    refine ⟨?_, fun hstar => absurd hstar h.not_star,
      fun hmissing => absurd (.inl hmissing) h.not_rest, fun hrest => absurd hrest h.not_rest⟩
    intro e' he'
    obtain rfl := h.unique he'
    refine ⟨hquality ▸ hn.maximal .identity rfl, hn.notRefused, ?_⟩
    intro e' hcompression hsup hunlisted
    by_cases hlt : star es < own es e
    · exact .inl hlt
    · have heq : star es = own es e := h.star.antisymm (not_lt.mp hlt)
      refine .inr (hn.preferred e' hsup ?_)
      rcases qualityOf_unlisted hunlisted hcompression with ⟨hq, -⟩ | ⟨-, hbot⟩
      · rw [hq, heq, hquality]
      · rw [hbot] at heq
        exact absurd (heq ▸ h.positive) (lt_irrefl _)
  · intro hheard
    obtain ⟨hidentity, hrefused, hpreferred⟩ := hheard.listed e h
    have hcompare : ∀ e', isSupported features e' → qualityOf es e' ≤ own es e ∧
        (qualityOf es e' = own es e → rank e ≤ rank e') := by
      intro e' hsup
      by_cases hcompression : e' = .identity
      · rw [hcompression]
        exact ⟨hidentity, fun _ => rank_le_identity e⟩
      by_cases hlisted' : Listed es e'
      · rw [qualityOf_listed hlisted']
        exact ⟨h.others e' hcompression, h.ties e' hcompression hsup⟩
      · rcases qualityOf_unlisted hlisted' hcompression with ⟨hq, -⟩ | ⟨hq, -⟩
        · rw [hq]
          refine ⟨h.star, fun htie => ?_⟩
          exact (hpreferred e' hcompression hsup hlisted').resolve_left htie.not_lt
        · rw [hq]
          exact ⟨h.positive.le, fun htie => absurd htie h.positive.ne⟩
    exact ⟨h.supported, hquality ▸ h.positive, fun e' hsup => hquality ▸ (hcompare e' hsup).1,
      fun e' hsup htie => (hcompare e' hsup).2 (htie.trans hquality), hrefused⟩

theorem negotiated_star_iff (h : StarLeads features es) :
    Negotiated features es (chosen features "*") ↔ Heard features es := by
  obtain ⟨hcompression, hsup, hpreferred⟩ := chosen_star features
  have hstar : given ["*"] es ≠ [] := by
    intro hnil
    have hpos := h.positive
    rw [star, best_of_not_given hnil] at hpos
    exact lt_irrefl _ hpos
  have hunlisted : ∀ e, e ≠ .identity → ¬ Listed es e → qualityOf es e = star es := by
    intro e he hno
    rw [qualityOf, if_neg hno, if_pos hstar]
  constructor
  · intro hn
    refine ⟨fun e he => absurd h he.not_star, fun _ => ?_,
      fun hmissing => absurd (.inl hmissing) h.not_rest, fun hrest => absurd hrest h.not_rest⟩
    by_cases hlisted : Listed es (chosen features "*")
    · have hquality := qualityOf_listed hlisted
      refine .inr ⟨hquality ▸ hn.acceptable, hn.notRefused, fun e hsup' => ?_⟩
      have hmax := hn.maximal e hsup'
      rw [hquality] at hmax
      by_cases hlisted' : Listed es e
      · exact ⟨hlisted', qualityOf_listed hlisted' ▸ hmax⟩
      · rw [qualityOf, if_neg hlisted', if_pos hstar] at hmax
        exact absurd hmax (h.listed _ hcompression hsup).not_ge
    · refine .inl ⟨hlisted, ?_⟩
      rw [← hunlisted _ hcompression hlisted]
      exact hn.maximal .identity rfl
  · intro hheard
    rcases hheard.star h with ⟨hno, hidentity⟩ | ⟨hpos, hrefused, hall⟩
    · have hquality := hunlisted _ hcompression hno
      refine ⟨hsup, hquality ▸ h.positive, fun e hsup' => ?_, fun e hsup' _ => hpreferred e hsup', ?_⟩
      · rw [hquality]
        by_cases he : e = .identity
        · rw [he]
          exact hidentity
        by_cases hlisted : Listed es e
        · rw [qualityOf_listed hlisted]
          exact (h.listed e he hsup').le
        · exact (hunlisted e he hlisted).le
      · intro c hc
        exact absurd (List.ne_nil_of_mem hc) (not_not_intro (not_not.mp hno))
    · have hquality := qualityOf_listed (hall _ hsup).1
      refine ⟨hsup, hquality ▸ hpos, fun e hsup' => ?_, fun e hsup' _ => hpreferred e hsup', hrefused⟩
      rw [hquality, qualityOf_listed (hall e hsup').1]
      exact (hall e hsup').2

theorem negotiated_identity_iff (h : MissingLeads features es ∨ NothingLeads es) :
    Negotiated features es .identity ↔ Heard features es := by
  constructor
  · intro hn
    refine ⟨fun e he => absurd h he.not_rest, fun hstar => absurd h hstar.not_rest, ?_,
      fun _ => ⟨hn.acceptable, hn.notRefused⟩⟩
    intro _ e he hsup
    refine (hn.maximal e hsup).lt_of_ne fun htie => he ?_
    exact rank_inj ((rank_le_identity e).antisymm (hn.preferred e hsup htie))
  · intro hheard
    obtain ⟨hpos, hrefused⟩ := hheard.identity h
    have hless : ∀ e, e ≠ .identity → isSupported features e →
        qualityOf es e < qualityOf es .identity := by
      rcases h with hmissing | ⟨hstar, hown⟩
      · exact hheard.missing hmissing
      · intro e he _
        refine lt_of_le_of_lt ?_ hpos
        by_cases hlisted : Listed es e
        · rw [qualityOf_listed hlisted]
          exact hown e he
        · rcases qualityOf_unlisted hlisted he with ⟨hq, -⟩ | ⟨hq, -⟩
          · rw [hq]
            exact hstar
          · exact hq.le
    refine ⟨rfl, hpos, fun e hsup => ?_, fun e hsup htie => ?_, hrefused⟩
    · by_cases he : e = .identity
      · rw [he]
      · exact (hless e he hsup).le
    · by_cases he : e = .identity
      · rw [he]
      · exact absurd htie (hless e he hsup).ne

/-- With numbers as qualities. -/
theorem negotiated_iff (h : NoNan es) :
    Negotiated features es (choose features (es.filter isCandidate)) ↔ Heard features es := by
  rcases choose_cases features h with ⟨e, hleads, he⟩ | ⟨hstar, he⟩ | ⟨hrest, he⟩
  · rw [he]
    exact negotiated_leads_iff hleads
  · rw [he]
    exact negotiated_star_iff hstar
  · rw [he]
    exact negotiated_identity_iff hrest

end Heard

/-! ## Headers -/

theorem noNan_of_decimal {headerValue : String} (h : DecimalQualities headerValue) :
    NoNan (entries headerValue) := by
  intro c hc
  obtain ⟨part, hpart, rfl⟩ := List.mem_map.mp hc
  have htexts := h part hpart
  rw [entry, quality]
  rcases List.eq_nil_or_concat (qualityTexts part) with hnil | ⟨texts, text, hlast⟩
  · rw [hnil]
    exact F64.noConfusion
  · rw [List.concat_eq_append] at hlast
    obtain ⟨whole, fraction, htext, hdigits, hne, -⟩ :=
      htexts text (hlast ▸ List.mem_append_right texts List.mem_cons_self)
    obtain ⟨v, hv⟩ := F64.parse_decimal htext hdigits hne
    rw [hlast, List.foldl_append, List.foldl_cons, List.foldl_nil, hv, Option.getD_some]
    exact F64.noConfusion

/-- **Content negotiation.** On headers whose qualities are decimal numbers the encoding is
the one the client prefers exactly if what the code overlooks makes no difference. -/
theorem encoding_negotiated_iff (features : Features) (headerValue : String)
    (h : DecimalQualities headerValue) :
    Negotiated features (entries headerValue) (fromAcceptEncoding features headerValue) ↔
      Heard features (entries headerValue) :=
  negotiated_iff (noNan_of_decimal h)

theorem isDecimal_half : IsDecimal "0.5".toList :=
  ⟨['0'], ['5'], .inl rfl, List.all_eq_true.mp rfl, by decide, by decide⟩

theorem encoding_negotiated_iff_half : DecimalQualities "gzip, br;q=0.5" ∧
    fromAcceptEncoding ⟨true, true⟩ "gzip, br;q=0.5" = .gzip ∧
    (Negotiated ⟨true, true⟩ (entries "gzip, br;q=0.5")
        (fromAcceptEncoding ⟨true, true⟩ "gzip, br;q=0.5") ↔
      Heard ⟨true, true⟩ (entries "gzip, br;q=0.5")) := by
  have hdecimal : DecimalQualities "gzip, br;q=0.5" := by
    have hall : ∀ part ∈ parts "gzip, br;q=0.5", ∀ text ∈ qualityTexts part,
        text = "0.5".toList := by
      decide +kernel
    intro part hpart text htext
    rw [hall part hpart text htext]
    exact isDecimal_half
  exact ⟨hdecimal, by decide +kernel, encoding_negotiated_iff ⟨true, true⟩ _ hdecimal⟩

/-- `*` is read as the encoding that is refused. -/
theorem refused_encoding_chosen :
    fromAcceptEncoding ⟨true, true⟩ "br;q=0, *" = .brotli ∧
      qualityOf (entries "br;q=0, *") .brotli = 0 ∧
      ¬ Negotiated ⟨true, true⟩ (entries "br;q=0, *")
        (fromAcceptEncoding ⟨true, true⟩ "br;q=0, *") := by
  have hchosen : fromAcceptEncoding ⟨true, true⟩ "br;q=0, *" = .brotli := by decide +kernel
  have hquality : qualityOf (entries "br;q=0, *") .brotli = 0 := by decide +kernel
  refine ⟨hchosen, hquality, fun hn => ?_⟩
  have hpos := hn.acceptable
  rw [hchosen, hquality] at hpos
  exact lt_irrefl _ hpos

end JustApi.Core.Compress
