import Mathlib.Data.List.Basic

/-! # Texts with brackets and quotes

A scanner that knows how deep it is in brackets and whether it is in quotes, and a reader
that takes the elements of a list apart with it. -/
namespace JustApi.Lib.Brackets

inductive Mode where
  | plain
  | quoted
  | escaped
  deriving DecidableEq, Repr

@[ext] structure Scan where
  depth : Nat
  mode : Mode
  deriving DecidableEq, Repr

namespace Scan

def next (s : Scan) (c : Char) : Scan :=
  match s.mode with
  | .escaped => ⟨s.depth, .quoted⟩
  | .quoted =>
    if c = '\\' then ⟨s.depth, .escaped⟩ else if c = '"' then ⟨s.depth, .plain⟩ else s
  | .plain =>
    if c = '"' then ⟨s.depth, .quoted⟩
    else if c = '[' ∨ c = '\x7b' then ⟨s.depth + 1, .plain⟩
    else if c = ']' ∨ c = '\x7d' then ⟨s.depth - 1, .plain⟩
    else s

def after (s : Scan) (cs : List Char) : Scan := cs.foldl next s

@[simp] theorem after_nil (s : Scan) : s.after [] = s := rfl

@[simp] theorem after_cons (s : Scan) (c : Char) (cs : List Char) :
    s.after (c :: cs) = (s.next c).after cs := rfl

theorem after_append (s : Scan) (cs ds : List Char) : s.after (cs ++ ds) = (s.after cs).after ds :=
  List.foldl_append

end Scan

/-- What parts or ends the elements of a list. -/
def Parts (c : Char) : Prop := c = ',' ∨ c = ']' ∨ c = '\x7d'

instance (c : Char) : Decidable (Parts c) := inferInstanceAs (Decidable (_ ∨ _))

/-- A text that neither leaves the level `d` nor parts elements there. -/
def Inside (d : Nat) : Scan → List Char → Prop
  | _, [] => True
  | s, c :: rest => d ≤ s.depth ∧ (s = ⟨d, .plain⟩ → ¬ Parts c) ∧ Inside d (s.next c) rest

@[simp] theorem inside_nil (d : Nat) (s : Scan) : Inside d s [] := trivial

theorem inside_append {d : Nat} {s : Scan} {cs ds : List Char} :
    Inside d s (cs ++ ds) ↔ Inside d s cs ∧ Inside d (s.after cs) ds := by
  induction cs generalizing s with
  | nil => simp
  | cons c cs ih => simp [Inside, ih, and_assoc]

/-- A level further in, nothing is parted here. -/
theorem Inside.outer {d : Nat} {s : Scan} {cs : List Char} (h : Inside (d + 1) s cs) :
    Inside d s cs := by
  induction cs generalizing s with
  | nil => trivial
  | cons c cs ih =>
    obtain ⟨hdepth, -, hrest⟩ := h
    refine ⟨by omega, ?_, ih hrest⟩
    rintro rfl
    exact absurd hdepth (Nat.not_succ_le_self d)

/-- One element of a list, at whatever level the list is. -/
structure Atom (cs : List Char) : Prop where
  inside : ∀ d, Inside d ⟨d, .plain⟩ cs
  level : ∀ d, Scan.after ⟨d, .plain⟩ cs = ⟨d, .plain⟩

theorem Atom.append {cs ds : List Char} (hc : Atom cs) (hd : Atom ds) : Atom (cs ++ ds) where
  inside d := inside_append.mpr ⟨hc.inside d, by rw [hc.level]; exact hd.inside d⟩
  level d := by rw [Scan.after_append, hc.level, hd.level]

/-- A character that the scanner goes over. -/
def Neutral (c : Char) : Prop :=
  c ≠ '"' ∧ c ≠ '[' ∧ c ≠ '\x7b' ∧ c ≠ ']' ∧ c ≠ '\x7d' ∧ c ≠ ','

instance (c : Char) : Decidable (Neutral c) := inferInstanceAs (Decidable (_ ∧ _))

theorem atom_of_neutral {cs : List Char} (h : ∀ c ∈ cs, Neutral c) : Atom cs := by
  induction cs with
  | nil => exact ⟨fun _ => trivial, fun _ => rfl⟩
  | cons c cs ih =>
    obtain ⟨hq, ho, ho', hc, hc', hcomma⟩ := h c List.mem_cons_self
    have htail := ih fun c' hc' => h c' (List.mem_cons_of_mem c hc')
    have hnext : ∀ d, (⟨d, .plain⟩ : Scan).next c = ⟨d, .plain⟩ := by
      intro d
      simp [Scan.next, hq, ho, ho', hc, hc']
    constructor
    · intro d
      refine ⟨Nat.le_refl d, fun _ => ?_, by rw [hnext]; exact htail.inside d⟩
      simp [Parts, hcomma, hc, hc']
    · intro d
      rw [Scan.after_cons, hnext, htail.level]

/-! ## Quotes -/

/-- What may stand between quotes. -/
structure Quotable (cs : List Char) : Prop where
  level : ∀ d, Scan.after ⟨d, .quoted⟩ cs = ⟨d, .quoted⟩
  modes : ∀ d, Inside d ⟨d, .quoted⟩ cs

theorem quotable_nil : Quotable [] := ⟨fun _ => rfl, fun _ => trivial⟩

theorem Quotable.append {cs ds : List Char} (hc : Quotable cs) (hd : Quotable ds) :
    Quotable (cs ++ ds) where
  level d := by rw [Scan.after_append, hc.level, hd.level]
  modes d := inside_append.mpr ⟨hc.modes d, by rw [hc.level]; exact hd.modes d⟩

theorem quotable_char {c : Char} (hq : c ≠ '"') (hb : c ≠ '\\') : Quotable [c] where
  level d := by simp [Scan.next, hq, hb]
  modes d := ⟨Nat.le_refl d, by simp, trivial⟩

theorem quotable_escape (c : Char) : Quotable ['\\', c] where
  level d := by simp [Scan.next]
  modes d := ⟨Nat.le_refl d, by simp, by simp [Inside, Scan.next]⟩

theorem quotable_of_chars {cs : List Char} (h : ∀ c ∈ cs, c ≠ '"' ∧ c ≠ '\\') : Quotable cs := by
  induction cs with
  | nil => exact quotable_nil
  | cons c cs ih =>
    obtain ⟨hq, hb⟩ := h c List.mem_cons_self
    exact (quotable_char hq hb).append (ih fun c' hc' => h c' (List.mem_cons_of_mem c hc'))

theorem Quotable.flatMap {α : Type*} {f : α → List Char} {xs : List α}
    (h : ∀ x ∈ xs, Quotable (f x)) : Quotable (xs.flatMap f) := by
  induction xs with
  | nil => exact quotable_nil
  | cons x xs ih =>
    rw [List.flatMap_cons]
    exact (h x List.mem_cons_self).append (ih fun x' hx' => h x' (List.mem_cons_of_mem x hx'))

theorem Quotable.atom {cs : List Char} (h : Quotable cs) : Atom ('"' :: cs ++ ['"']) where
  inside d := by
    have hopen : (⟨d, .plain⟩ : Scan).next '"' = ⟨d, .quoted⟩ := by simp [Scan.next]
    refine ⟨Nat.le_refl d, fun _ => by decide, ?_⟩
    rw [hopen]
    refine inside_append.mpr ⟨h.modes d, ?_⟩
    rw [h.level]
    exact ⟨Nat.le_refl d, by simp, trivial⟩
  level d := by
    have hopen : (⟨d, .plain⟩ : Scan).next '"' = ⟨d, .quoted⟩ := by simp [Scan.next]
    rw [List.cons_append, Scan.after_cons, hopen, Scan.after_append, h.level]
    simp [Scan.next]

/-! ## Brackets -/

/-- A text between brackets. -/
structure Content (cs : List Char) : Prop where
  inside : ∀ d, Inside d ⟨d + 1, .plain⟩ cs
  level : ∀ d, Scan.after ⟨d, .plain⟩ cs = ⟨d, .plain⟩

theorem Atom.content {cs : List Char} (h : Atom cs) : Content cs :=
  ⟨fun d => (h.inside (d + 1)).outer, h.level⟩

theorem Content.append {cs ds : List Char} (hc : Content cs) (hd : Content ds) :
    Content (cs ++ ds) where
  inside d := inside_append.mpr ⟨hc.inside d, by rw [hc.level]; exact hd.inside d⟩
  level d := by rw [Scan.after_append, hc.level, hd.level]

theorem content_comma : Content [','] where
  inside d := ⟨by simp, by simp, trivial⟩
  level d := by simp [Scan.next]

theorem content_intercalate {separator : List Char} (hsep : Content separator)
    {texts : List (List Char)} (h : ∀ cs ∈ texts, Content cs) :
    Content (separator.intercalate texts) := by
  induction texts with
  | nil => exact ⟨fun _ => trivial, fun _ => rfl⟩
  | cons first rest ih =>
    have hfirst := h first List.mem_cons_self
    cases rest with
    | nil => rwa [List.intercalate_singleton]
    | cons next rest =>
      rw [List.intercalate_cons_cons]
      exact (hfirst.append hsep).append (ih fun cs hcs => h cs (List.mem_cons_of_mem first hcs))

theorem mem_of_mem_intercalate {α : Type*} {separator : List α} {parts : List (List α)} {x : α}
    (h : x ∈ separator.intercalate parts) : x ∈ separator ∨ ∃ part ∈ parts, x ∈ part := by
  induction parts with
  | nil => cases h
  | cons first rest ih =>
    cases rest with
    | nil =>
      rw [List.intercalate_singleton] at h
      exact .inr ⟨first, List.mem_cons_self, h⟩
    | cons next rest =>
      rw [List.intercalate_cons_cons, List.mem_append, List.mem_append] at h
      rcases h with (h | h) | h
      · exact .inr ⟨first, List.mem_cons_self, h⟩
      · exact .inl h
      · rcases ih h with h | ⟨part, hpart, hx⟩
        · exact .inl h
        · exact .inr ⟨part, List.mem_cons_of_mem first hpart, hx⟩

theorem Content.atom {cs : List Char} (h : Content cs) {opening closing : Char}
    (hopening : opening = '[' ∨ opening = '\x7b') (hclosing : closing = ']' ∨ closing = '\x7d') :
    Atom (opening :: cs ++ [closing]) := by
  have hopen : ∀ d, (⟨d, .plain⟩ : Scan).next opening = ⟨d + 1, .plain⟩ := by
    intro d
    rcases hopening with rfl | rfl <;> simp [Scan.next]
  have hclose : ∀ d, (⟨d + 1, .plain⟩ : Scan).next closing = ⟨d, .plain⟩ := by
    intro d
    rcases hclosing with rfl | rfl <;> simp [Scan.next]
  constructor
  · intro d
    refine ⟨Nat.le_refl d, fun _ => ?_, ?_⟩
    · rcases hopening with rfl | rfl <;> decide
    · rw [hopen]
      refine inside_append.mpr ⟨h.inside d, ?_⟩
      rw [h.level]
      exact ⟨by simp, by simp, trivial⟩
  · intro d
    rw [List.cons_append, Scan.after_cons, hopen, Scan.after_append, h.level]
    simp [hclose]

/-! ## Taking a list apart -/

/-- The elements from inside a list on; `element` is what has been read of the present one.
Nothing may come after the list. -/
def readElements : Scan → List Char → List Char → Option (List (List Char))
  | _, _, [] => none
  | s, element, c :: rest =>
    if s = ⟨1, .plain⟩ ∧ c = ',' then (readElements s [] rest).map (element :: ·)
    else if s = ⟨1, .plain⟩ ∧ (c = ']' ∨ c = '\x7d') then
      if rest = [] then some [element] else none
    else readElements (s.next c) (element ++ [c]) rest

/-- The texts of the elements of a list that is complete. -/
def elements : List Char → Option (List (List Char))
  | ['[', ']'] => some []
  | '[' :: rest => readElements ⟨1, .plain⟩ [] rest
  | _ => none

theorem readElements_inside {cs : List Char} {s : Scan} (h : Inside 1 s cs)
    (element rest : List Char) :
    readElements s element (cs ++ rest) = readElements (s.after cs) (element ++ cs) rest := by
  induction cs generalizing s element with
  | nil => simp
  | cons c cs ih =>
    obtain ⟨-, hparts, hrest⟩ := h
    have hcomma : ¬ (s = ⟨1, .plain⟩ ∧ c = ',') := fun ⟨hs, hc⟩ => hparts hs (.inl hc)
    have hclose : ¬ (s = ⟨1, .plain⟩ ∧ (c = ']' ∨ c = '\x7d')) :=
      fun ⟨hs, hc⟩ => hparts hs (.inr hc)
    rw [List.cons_append, readElements, if_neg hcomma, if_neg hclose, ih hrest]
    simp

theorem Atom.readElements {cs : List Char} (h : Atom cs) (element rest : List Char) :
    readElements ⟨1, .plain⟩ element (cs ++ rest) =
      Brackets.readElements ⟨1, .plain⟩ (element ++ cs) rest := by
  rw [readElements_inside (h.inside 1), h.level]

theorem readElements_comma (element rest : List Char) :
    readElements ⟨1, .plain⟩ element (',' :: rest) =
      (readElements ⟨1, .plain⟩ [] rest).map (element :: ·) := by
  simp [readElements]

theorem readElements_close (element : List Char) :
    readElements ⟨1, .plain⟩ element [']'] = some [element] := by
  simp [readElements]

/-- What comes after the first element. -/
theorem readElements_intercalate {first : List Char} {texts : List (List Char)}
    (hfirst : Atom first) (h : ∀ cs ∈ texts, Atom cs) (rest : List Char) :
    readElements ⟨1, .plain⟩ [] ([','].intercalate (first :: texts) ++ rest) =
      (readElements ⟨1, .plain⟩ ((first :: texts).getLast (by simp)) rest).map
        ((first :: texts).dropLast ++ ·) := by
  induction texts generalizing first with
  | nil =>
    rw [List.intercalate_singleton, hfirst.readElements]
    simp
  | cons next texts ih =>
    rw [List.intercalate_cons_cons, List.append_assoc, List.append_assoc, hfirst.readElements,
      List.singleton_append, readElements_comma,
      ih (h next List.mem_cons_self) fun cs hcs => h cs (List.mem_cons_of_mem next hcs)]
    simp [Option.map_map, Function.comp_def]

/-- A list that has been written out is read back. -/
theorem elements_list {texts : List (List Char)} (h : ∀ cs ∈ texts, Atom cs ∧ cs ≠ []) :
    elements ('[' :: [','].intercalate texts ++ [']']) = some texts := by
  cases texts with
  | nil => rfl
  | cons first texts =>
    obtain ⟨hfirst, hne⟩ := h first List.mem_cons_self
    have htexts : ∀ cs ∈ texts, Atom cs := fun cs hcs => (h cs (List.mem_cons_of_mem first hcs)).1
    have hread := readElements_intercalate hfirst htexts [']']
    rw [readElements_close] at hread
    have hnil : [','].intercalate (first :: texts) ≠ [] := by
      cases texts with
      | nil => rwa [List.intercalate_singleton]
      | cons next texts => simp [List.intercalate_cons_cons]
    obtain ⟨c, cs, hcs⟩ := List.exists_cons_of_ne_nil hnil
    have helements : elements ('[' :: [','].intercalate (first :: texts) ++ [']']) =
        readElements ⟨1, .plain⟩ [] ([','].intercalate (first :: texts) ++ [']']) := by
      rw [hcs]
      simp [elements]
    rw [helements, hread]
    simp [List.dropLast_append_getLast]

/-- A list that has been broken off is not complete. -/
theorem elements_open {texts : List (List Char)} (h : ∀ cs ∈ texts, Atom cs) {rest : List Char}
    (hrest : rest = [] ∨ rest = [',']) :
    elements ('[' :: [','].intercalate texts ++ rest) = none := by
  have hnone : ∀ element, readElements ⟨1, .plain⟩ element rest = none := by
    intro element
    rcases hrest with rfl | rfl <;> simp [readElements]
  have hread : readElements ⟨1, .plain⟩ [] ([','].intercalate texts ++ rest) = none := by
    cases texts with
    | nil => exact hnone []
    | cons first texts =>
      rw [readElements_intercalate (h first List.mem_cons_self)
        (fun cs hcs => h cs (List.mem_cons_of_mem first hcs)), hnone]
      rfl
  rw [List.cons_append]
  unfold elements
  split
  · rename_i heq
    have heq : [','].intercalate texts ++ rest = [']'] := by simpa using heq
    rw [heq] at hread
    simp [readElements] at hread
  · rename_i heq
    obtain rfl : [','].intercalate texts ++ rest = _ := by simpa using heq
    exact hread
  · rfl

end JustApi.Lib.Brackets
