import Mathlib.Data.List.AList
import Mathlib.Data.List.Sigma
import Mathlib.Data.List.Perm.Basic

/-! # Association lists up to order

A map listed as its entries: looking a key up exposes the entry at the head of
a permutation of the list, which is how an update of one entry is compared with
the map before. -/
namespace JustApi.Lib.Assoc

variable {α : Type*} {β : α → Type*} [DecidableEq α] {l : List (Sigma β)} {k : α} {v w : β k}

theorem perm_cons_kerase (h : l.dlookup k = some v) : l.Perm (⟨k, v⟩ :: l.kerase k) := by
  have hk : k ∈ l.keys := List.mem_keys_of_mem (List.of_mem_dlookup h)
  obtain ⟨b, before, after, hnot, hl, he⟩ := List.exists_of_kerase hk
  have hv : b = v := by
    rw [hl, List.dlookup_append, List.dlookup_eq_none.mpr hnot] at h
    simpa using h
  subst hv
  rw [he, hl]
  exact List.perm_middle

theorem mem_of_mem_kinsert {e : Sigma β} (h : e ∈ l.kinsert k w) : e = ⟨k, w⟩ ∨ e ∈ l := by
  rcases List.mem_cons.mp h with h | h
  · exact .inl h
  · exact .inr ((List.kerase_sublist k l).subset h)

/-- Inserting the entries of a map one after the other. -/
theorem lookup_foldl_insert (hl : l.NodupKeys) (m : AList β) (k : α) :
    (l.foldl (fun m e => m.insert e.1 e.2) m).lookup k = (l.dlookup k).or (m.lookup k) := by
  induction l generalizing m with
  | nil => rfl
  | cons e rest ih =>
    obtain ⟨hnot, hrest⟩ := List.nodupKeys_cons.mp hl
    rw [List.foldl_cons, ih hrest]
    by_cases hk : k = e.1
    · subst hk
      rw [List.dlookup_eq_none.mpr hnot, AList.lookup_insert, List.dlookup_cons_eq]
      rfl
    · rw [AList.lookup_insert_ne hk, List.dlookup_cons_ne _ _ hk]

/-- Insert unless the key is there: the first writer wins. -/
def insertNew (m : AList β) (k : α) (v : β k) : AList β :=
  match m.lookup k with
  | some _ => m
  | none => m.insert k v

theorem lookup_insertNew (m : AList β) (k : α) (v : β k) :
    (insertNew m k v).lookup k = (m.lookup k).or (some v) := by
  unfold insertNew
  cases h : m.lookup k with
  | some w => simpa using h
  | none => simp

theorem lookup_insertNew_ne {k' : α} (m : AList β) (v : β k) (h : k' ≠ k) :
    (insertNew m k v).lookup k' = m.lookup k' := by
  unfold insertNew
  split
  · rfl
  · exact AList.lookup_insert_ne h

/-- Of entries inserted one after the other the first of each key stays. -/
theorem lookup_foldl_insertNew (l : List (Sigma β)) (m : AList β) (k : α) :
    (l.foldl (fun m e => insertNew m e.1 e.2) m).lookup k = (m.lookup k).or (l.dlookup k) := by
  induction l generalizing m with
  | nil => simp
  | cons e rest ih =>
    rw [List.foldl_cons, ih]
    by_cases hk : k = e.1
    · subst hk
      rw [lookup_insertNew, List.dlookup_cons_eq, Option.or_assoc, Option.some_or]
    · rw [lookup_insertNew_ne m e.2 hk, List.dlookup_cons_ne _ _ hk]

/-- The entries whose values satisfy `p`. -/
def retain (p : ∀ k, β k → Bool) (m : AList β) : AList β :=
  ⟨m.entries.filter fun e => p e.1 e.2, m.nodupKeys.sublist List.filter_sublist⟩

theorem mem_lookup_retain {p : ∀ k, β k → Bool} {m : AList β} :
    v ∈ (retain p m).lookup k ↔ v ∈ m.lookup k ∧ p k v = true := by
  rw [AList.mem_lookup_iff, AList.mem_lookup_iff]
  exact List.mem_filter

end JustApi.Lib.Assoc
