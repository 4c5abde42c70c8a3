import Mathlib.Order.Lattice
import Mathlib.Data.List.Basic

/-! # Maps as sorted lists

A map listed as its entries, with the keys in increasing order, so that maps with the same
entries are the same list. -/
namespace JustApi.Lib.SortedMap

section Maps

variable {κ α : Type*} [LinearOrder κ]

def Sorted (map : List (κ × α)) : Prop := map.Pairwise fun e e' => e.1 < e'.1

def get (map : List (κ × α)) (key : κ) : Option α := (map.find? fun e => e.1 = key).map Prod.snd

/-- An entry takes the place of one that has its key. -/
def insert (key : κ) (value : α) : List (κ × α) → List (κ × α)
  | [] => [(key, value)]
  | e :: map =>
    if key < e.1 then (key, value) :: e :: map
    else if key = e.1 then (key, value) :: map
    else e :: insert key value map

def remove (map : List (κ × α)) (key : κ) : List (κ × α) := map.filter fun e => e.1 ≠ key

/-- The map of a list of entries, of which the first counts for its key. -/
def ofList (entries : List (κ × α)) : List (κ × α) :=
  entries.foldr (fun e map => insert e.1 e.2 map) []

theorem get_cons (e : κ × α) (map : List (κ × α)) (key : κ) :
    get (e :: map) key = if e.1 = key then some e.2 else get map key := by
  unfold get
  by_cases h : e.1 = key <;> simp [h]

@[simp] theorem get_nil (key : κ) : get ([] : List (κ × α)) key = none := rfl

theorem get_append (map map' : List (κ × α)) (key : κ) :
    get (map ++ map') key = (get map key).or (get map' key) := by
  unfold get
  rw [List.find?_append]
  cases map.find? fun e => e.1 = key <;> rfl

theorem get_eq_none {map : List (κ × α)} {key : κ} :
    get map key = none ↔ ∀ e ∈ map, e.1 ≠ key := by
  simp [get]

theorem get_of_not_mem {map : List (κ × α)} {key : κ} (h : key ∉ map.map Prod.fst) :
    get map key = none :=
  get_eq_none.mpr fun _ hmem heq => h (heq ▸ List.mem_map_of_mem hmem)

theorem mem_of_get {map : List (κ × α)} {key : κ} {value : α} (h : get map key = some value) :
    (key, value) ∈ map := by
  unfold get at h
  obtain ⟨e, hfind, rfl⟩ := Option.map_eq_some_iff.mp h
  have hkey : e.1 = key := by simpa using List.find?_some hfind
  exact hkey ▸ List.mem_of_find?_eq_some hfind

theorem get_insert (map : List (κ × α)) (key key' : κ) (value : α) :
    get (insert key value map) key' = if key = key' then some value else get map key' := by
  induction map with
  | nil => rw [insert, get_cons]
  | cons e map ih =>
    unfold insert
    split
    · rw [get_cons]
    · split
      case isTrue h =>
        rw [get_cons, get_cons, ← h]
        dsimp only
        split <;> rfl
      case isFalse h =>
        rw [get_cons, get_cons, ih]
        by_cases he : e.1 = key'
        · rw [if_pos he, if_pos he, if_neg fun hk => h (hk.trans he.symm)]
        · rw [if_neg he, if_neg he]

theorem mem_insert {map : List (κ × α)} {key : κ} {value : α} {e : κ × α}
    (h : e ∈ insert key value map) : e = (key, value) ∨ e ∈ map := by
  induction map with
  | nil => exact .inl (List.mem_singleton.mp h)
  | cons head map ih =>
    unfold insert at h
    split at h
    · exact List.mem_cons.mp h
    · split at h
      · exact (List.mem_cons.mp h).imp_right fun h => List.mem_cons_of_mem _ h
      · rcases List.mem_cons.mp h with h | h
        · exact .inr (h ▸ List.mem_cons_self)
        · exact (ih h).imp_right fun h => List.mem_cons_of_mem _ h

theorem sorted_insert {map : List (κ × α)} (h : Sorted map) (key : κ) (value : α) :
    Sorted (insert key value map) := by
  induction map with
  | nil => exact List.pairwise_singleton _ _
  | cons e map ih =>
    obtain ⟨hhead, htail⟩ := List.pairwise_cons.mp h
    unfold insert
    split
    case isTrue hlt =>
      refine List.pairwise_cons.mpr ⟨fun e' he' => ?_, h⟩
      rcases List.mem_cons.mp he' with rfl | he'
      · exact hlt
      · exact hlt.trans (hhead e' he')
    case isFalse hle =>
      split
      case isTrue heq =>
        refine List.pairwise_cons.mpr ⟨fun e' he' => ?_, htail⟩
        exact heq ▸ hhead e' he'
      case isFalse hne =>
        refine List.pairwise_cons.mpr ⟨fun e' he' => ?_, ih htail⟩
        rcases mem_insert he' with rfl | he'
        · exact lt_of_le_of_ne (not_lt.mp hle) (Ne.symm hne)
        · exact hhead e' he'

theorem get_remove (map : List (κ × α)) (key key' : κ) :
    get (remove map key) key' = if key = key' then none else get map key' := by
  induction map with
  | nil => simp [remove]
  | cons e map ih =>
    unfold remove at ih ⊢
    by_cases he : e.1 = key
    · rw [List.filter_cons_of_neg (by simpa using he), ih, get_cons, he]
      split <;> rfl
    · rw [List.filter_cons_of_pos (by simpa using he), get_cons, get_cons, ih]
      by_cases hk : e.1 = key'
      · rw [if_pos hk, if_pos hk, if_neg fun h => he (hk.trans h.symm)]
      · rw [if_neg hk, if_neg hk]

theorem sorted_remove {map : List (κ × α)} (h : Sorted map) (key : κ) :
    Sorted (remove map key) := h.filter _

theorem get_ofList (entries : List (κ × α)) (key : κ) :
    get (ofList entries) key = get entries key := by
  induction entries with
  | nil => rfl
  | cons e entries ih =>
    rw [get_cons, ← ih]
    exact get_insert _ _ _ _

theorem sorted_ofList (entries : List (κ × α)) : Sorted (ofList entries) := by
  induction entries with
  | nil => exact List.Pairwise.nil
  | cons e entries ih => exact sorted_insert ih e.1 e.2

/-- The first key of a sorted map is the least. -/
theorem get_head {e : κ × α} {map : List (κ × α)} (h : Sorted (e :: map)) {key : κ} {value : α}
    (hget : get (e :: map) key = some value) : e.1 ≤ key := by
  rcases List.mem_cons.mp (mem_of_get hget) with heq | hmem
  · exact (congrArg Prod.fst heq).ge
  · exact ((List.pairwise_cons.mp h).1 _ hmem).le

/-- Maps are equal if they have the same values. -/
theorem Sorted.ext {map map' : List (κ × α)} (h : Sorted map) (h' : Sorted map')
    (hget : ∀ key, get map key = get map' key) : map = map' := by
  induction map generalizing map' with
  | nil =>
    cases map' with
    | nil => rfl
    | cons e' map' =>
      have he := hget e'.1
      rw [get_cons, if_pos rfl] at he
      cases he
  | cons e map ih =>
    cases map' with
    | nil =>
      have he := hget e.1
      rw [get_cons, if_pos rfl] at he
      cases he
    | cons e' map' =>
      have he := hget e.1
      have he' := hget e'.1
      rw [get_cons, if_pos rfl] at he
      rw [get_cons e', if_pos rfl] at he'
      have hkey : e.1 = e'.1 := le_antisymm (get_head h he') (get_head h' he.symm)
      rw [get_cons, if_pos hkey.symm] at he
      have heq : e = e' := Prod.ext hkey (Option.some.inj he)
      subst heq
      obtain ⟨hhead, htail⟩ := List.pairwise_cons.mp h
      obtain ⟨hhead', htail'⟩ := List.pairwise_cons.mp h'
      rw [ih htail htail' fun key => ?_]
      by_cases hk : e.1 = key
      · rw [get_eq_none.mpr fun e' hmem heq => (hhead e' hmem).ne (hk.trans heq.symm),
          get_eq_none.mpr fun e' hmem heq => (hhead' e' hmem).ne (hk.trans heq.symm)]
      · have hrest := hget key
        rwa [get_cons, get_cons, if_neg hk, if_neg hk] at hrest

end Maps

end JustApi.Lib.SortedMap
