import Mathlib.Data.List.AList
import Mathlib.Data.List.MinMax
import JustApi.Lib.Text

/-! # Fallback responses

`FallbackPolicy`: responses by path prefix, for when a handler fails. The policy keeps
them in a `HashMap`, and a lookup goes through that in the order of its hashes. -/
namespace JustApi.Core.Fallbacks
open JustApi.Lib.Text

structure FallbackEntry where
  status : Nat
  body : String
  contentType : String
  deriving DecidableEq, Repr

structure FallbackPolicy where
  fallbacks : AList fun _ : String => FallbackEntry
  defaultFallback : Option FallbackEntry

namespace FallbackPolicy

def new : FallbackPolicy := ⟨∅, none⟩

def add (policy : FallbackPolicy) (pathPrefix : String) (entry : FallbackEntry) : FallbackPolicy :=
  { policy with fallbacks := policy.fallbacks.insert pathPrefix entry }

def withDefault (policy : FallbackPolicy) (entry : FallbackEntry) : FallbackPolicy :=
  { policy with defaultFallback := some entry }

/-- What a lookup finds when the map yields its entries as in `iter`. -/
def get (policy : FallbackPolicy) (iter : List (Σ _ : String, FallbackEntry)) (path : String) :
    Option FallbackEntry :=
  match iter.find? fun e => startsWith path e.1 with
  | some e => some e.2
  | none => policy.defaultFallback

end FallbackPolicy

/-- The policy that calls of `add` build, with a default or without. -/
def policyOf (default : Option FallbackEntry) (adds : List (String × FallbackEntry)) :
    FallbackPolicy :=
  adds.foldl (fun policy a => policy.add a.1 a.2)
    (default.elim FallbackPolicy.new FallbackPolicy.new.withDefault)

/-- What is looked up for a path: the entry of its longest prefix, or the default. -/
def Selected (default : Option FallbackEntry) (adds : List (String × FallbackEntry))
    (path : String) : Option FallbackEntry → Prop
  | some entry =>
    (∃ a ∈ adds, a.2 = entry ∧ startsWith path a.1 = true ∧
      ∀ b ∈ adds, startsWith path b.1 = true → b.1.length ≤ a.1.length) ∨
    (∀ a ∈ adds, startsWith path a.1 = false) ∧ default = some entry
  | none => (∀ a ∈ adds, startsWith path a.1 = false) ∧ default = none

/-- Whatever order the entries are added and yielded in, a lookup gives the one of the
longest prefix. -/
def WellDefined (default : Option FallbackEntry) (adds : List (String × FallbackEntry))
    (path : String) : Prop :=
  ∃ entry, Selected default adds path entry ∧
    ∀ adds', adds'.Perm adds → ∀ iter, iter.Perm (policyOf default adds').fallbacks.entries →
      (policyOf default adds').get iter path = entry

variable {default : Option FallbackEntry} {adds : List (String × FallbackEntry)} {path : String}

/-! ## The map -/

/-- An entry as the map holds it. -/
def keyed (a : String × FallbackEntry) : Σ _ : String, FallbackEntry := ⟨a.1, a.2⟩

theorem defaultFallback_foldl (policy : FallbackPolicy) (adds : List (String × FallbackEntry)) :
    (adds.foldl (fun policy a => policy.add a.1 a.2) policy).defaultFallback =
      policy.defaultFallback := by
  induction adds generalizing policy with
  | nil => rfl
  | cons a rest ih => exact ih _

theorem entries_foldl (policy : FallbackPolicy) (hnd : (adds.map Prod.fst).Nodup)
    (hnew : ∀ a ∈ adds, a.1 ∉ policy.fallbacks) :
    (adds.foldl (fun policy a => policy.add a.1 a.2) policy).fallbacks.entries.Perm
      (adds.map keyed ++ policy.fallbacks.entries) := by
  induction adds generalizing policy with
  | nil => exact List.Perm.refl _
  | cons a rest ih =>
    obtain ⟨hnot, hnd⟩ := List.nodup_cons.mp hnd
    have ha : a.1 ∉ policy.fallbacks := hnew a List.mem_cons_self
    have hrest : ∀ b ∈ rest, b.1 ∉ (policy.add a.1 a.2).fallbacks := by
      intro b hb hin
      rcases AList.mem_insert _ |>.mp hin with he | hin
      · exact hnot (he ▸ List.mem_map_of_mem hb)
      · exact hnew b (List.mem_cons_of_mem _ hb) hin
    have hentries : (policy.add a.1 a.2).fallbacks.entries = keyed a :: policy.fallbacks.entries :=
      AList.entries_insert_of_notMem ha
    rw [List.foldl_cons, List.map_cons, List.cons_append]
    refine (ih _ hnd hrest).trans ?_
    rw [hentries]
    exact List.perm_middle

theorem defaultFallback_policyOf (default : Option FallbackEntry)
    (adds : List (String × FallbackEntry)) : (policyOf default adds).defaultFallback = default := by
  rw [policyOf, defaultFallback_foldl]
  cases default <;> rfl

/-- The map holds what was added. -/
theorem entries_policyOf (hnd : (adds.map Prod.fst).Nodup) :
    (policyOf default adds).fallbacks.entries.Perm (adds.map keyed) := by
  have hempty : (default.elim FallbackPolicy.new FallbackPolicy.new.withDefault).fallbacks = ∅ := by
    cases default <;> rfl
  have h := entries_foldl (default.elim FallbackPolicy.new FallbackPolicy.new.withDefault) hnd
    fun a _ => by rw [hempty]; exact AList.notMem_empty a.1
  rwa [hempty, AList.empty_entries, List.append_nil] at h

/-- In whatever order they were added, the map yields the entries that were added. -/
theorem mem_iter {adds' : List (String × FallbackEntry)}
    {iter : List (Σ _ : String, FallbackEntry)} (hnd : (adds.map Prod.fst).Nodup)
    (hperm : adds'.Perm adds) (hiter : iter.Perm (policyOf default adds').fallbacks.entries)
    {e : Σ _ : String, FallbackEntry} : e ∈ iter ↔ ∃ a ∈ adds, keyed a = e := by
  have hnd' : (adds'.map Prod.fst).Nodup := (hperm.map Prod.fst).nodup_iff.mpr hnd
  rw [hiter.mem_iff, (entries_policyOf hnd').mem_iff, (hperm.map keyed).mem_iff, List.mem_map]

/-! ## Lookups -/

theorem exists_longest (h : ∃ a ∈ adds, startsWith path a.1 = true) :
    ∃ a ∈ adds, startsWith path a.1 = true ∧
      ∀ b ∈ adds, startsWith path b.1 = true → b.1.length ≤ a.1.length := by
  obtain ⟨a, ha, hpath⟩ := h
  have hne : (adds.filter fun a => startsWith path a.1).argmax (fun a => a.1.length) ≠ none := by
    rw [ne_eq, List.argmax_eq_none]
    exact List.ne_nil_of_mem (List.mem_filter.mpr ⟨ha, hpath⟩)
  obtain ⟨m, hm⟩ := Option.ne_none_iff_exists'.mp hne
  obtain ⟨hmem, hmpath⟩ := List.mem_filter.mp (List.argmax_mem hm)
  refine ⟨m, hmem, hmpath, fun b hb hbpath => ?_⟩
  exact List.le_of_mem_argmax (f := fun a : String × FallbackEntry => a.1.length)
    (List.mem_filter.mpr ⟨hb, hbpath⟩) hm

/-- The entry that comes first in the iteration is found. -/
theorem get_first (default : Option FallbackEntry) {a : String × FallbackEntry}
    (hnd : (adds.map Prod.fst).Nodup) (ha : a ∈ adds)
    (hpath : startsWith path a.1 = true) :
    ∃ iter, iter.Perm (policyOf default adds).fallbacks.entries ∧
      (policyOf default adds).get iter path = some a.2 := by
  refine ⟨keyed a :: (policyOf default adds).fallbacks.entries.erase (keyed a), ?_, ?_⟩
  · refine (List.perm_cons_erase ?_).symm
    exact (entries_policyOf hnd).mem_iff.mpr (List.mem_map_of_mem ha)
  · rw [FallbackPolicy.get, List.find?_cons_of_pos (by exact hpath)]
    rfl

/-- When the matching prefixes share their entry, it is found in every iteration. -/
theorem get_matching {adds' : List (String × FallbackEntry)} {a : String × FallbackEntry}
    {iter : List (Σ _ : String, FallbackEntry)} (hnd : (adds.map Prod.fst).Nodup)
    (hperm : adds'.Perm adds) (hiter : iter.Perm (policyOf default adds').fallbacks.entries)
    (ha : a ∈ adds) (hpath : startsWith path a.1 = true)
    (hsame : ∀ b ∈ adds, startsWith path b.1 = true → b.2 = a.2) :
    (policyOf default adds').get iter path = some a.2 := by
  cases hfind : iter.find? fun e => startsWith path e.1 with
  | none =>
    have ha' : keyed a ∈ iter := (mem_iter hnd hperm hiter).mpr ⟨a, ha, rfl⟩
    exact absurd hpath (List.find?_eq_none.mp hfind (keyed a) ha')
  | some e =>
    obtain ⟨b, hb, rfl⟩ := (mem_iter hnd hperm hiter).mp (List.mem_of_find?_eq_some hfind)
    have hbpath : startsWith path b.1 = true := by simpa [keyed] using List.find?_some hfind
    rw [FallbackPolicy.get, hfind, ← hsame b hb hbpath]
    rfl

theorem get_default {adds' : List (String × FallbackEntry)}
    {iter : List (Σ _ : String, FallbackEntry)} (hnd : (adds.map Prod.fst).Nodup)
    (hperm : adds'.Perm adds) (hiter : iter.Perm (policyOf default adds').fallbacks.entries)
    (hnone : ∀ a ∈ adds, startsWith path a.1 = false) :
    (policyOf default adds').get iter path = default := by
  have hfind : (iter.find? fun e => startsWith path e.1) = none := by
    rw [List.find?_eq_none]
    intro e he
    obtain ⟨a, ha, rfl⟩ := (mem_iter hnd hperm hiter).mp he
    rw [show startsWith path (keyed a).1 = false from hnone a ha]
    exact Bool.false_ne_true
  rw [FallbackPolicy.get, hfind]
  exact defaultFallback_policyOf default adds'

/-- **Fallback selection.** The lookup of a path is well defined exactly when all the
prefixes that it starts with have the same entry. -/
theorem fallback_selection_iff (default : Option FallbackEntry)
    (adds : List (String × FallbackEntry)) (hnd : (adds.map Prod.fst).Nodup) (path : String) :
    WellDefined default adds path ↔
      ∀ a ∈ adds, ∀ b ∈ adds, startsWith path a.1 = true → startsWith path b.1 = true →
        a.2 = b.2 := by
  constructor
  · intro hdefined a ha b hb hapath hbpath
    obtain ⟨entry, -, hall⟩ := hdefined
    obtain ⟨iter, hiter, hget⟩ := get_first default hnd ha hapath
    obtain ⟨iter', hiter', hget'⟩ := get_first default hnd hb hbpath
    have he : entry = some a.2 := (hall adds (List.Perm.refl _) iter hiter).symm.trans hget
    have he' : entry = some b.2 := (hall adds (List.Perm.refl _) iter' hiter').symm.trans hget'
    exact Option.some.inj (he.symm.trans he')
  · intro hsame
    by_cases hex : ∃ a ∈ adds, startsWith path a.1 = true
    · obtain ⟨m, hm, hmpath, hlongest⟩ := exists_longest hex
      refine ⟨some m.2, .inl ⟨m, hm, rfl, hmpath, hlongest⟩, ?_⟩
      intro adds' hperm iter hiter
      exact get_matching hnd hperm hiter hm hmpath fun b hb hbpath => hsame b hb m hm hbpath hmpath
    · have hnone : ∀ a ∈ adds, startsWith path a.1 = false := by
        intro a ha
        exact Bool.eq_false_iff.mpr fun h => hex ⟨a, ha, h⟩
      refine ⟨default, ?_, fun adds' hperm iter hiter => get_default hnd hperm hiter hnone⟩
      cases default with
      | some entry => exact .inr ⟨hnone, rfl⟩
      | none => exact ⟨hnone, rfl⟩

def notice (body : String) : FallbackEntry := ⟨503, body, "text/plain"⟩

theorem fallback_selection_iff_siblings :
    WellDefined none [("/api", notice "api"), ("/users", notice "users")] "/users/7" :=
  (fallback_selection_iff none [("/api", notice "api"), ("/users", notice "users")] (by decide)
    "/users/7").mpr (by decide)

theorem nested_prefixes_not_defined :
    ¬ ∀ default adds path, (adds.map Prod.fst).Nodup → WellDefined default adds path := by
  intro hall
  obtain ⟨entry, -, hget⟩ :=
    hall none [("/", notice "site"), ("/api", notice "api")] "/api/users" (by decide)
  have hsite : entry = some (notice "site") :=
    (hget _ (List.Perm.refl _) [keyed ("/", notice "site"), keyed ("/api", notice "api")]
      (by decide)).symm.trans (by decide)
  have hapi : entry = some (notice "api") :=
    (hget _ (List.Perm.refl _) [keyed ("/api", notice "api"), keyed ("/", notice "site")]
      (by decide)).symm.trans (by decide)
  exact absurd (hsite.symm.trans hapi) (by decide)

end JustApi.Core.Fallbacks
