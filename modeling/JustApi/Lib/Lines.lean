import Mathlib.Data.List.Infix
import JustApi.Lib.Text
import JustApi.Lib.Trim

/-! # Lines

A text as its lines, what trimming keeps of one, and where a pattern without line breaks
is found in it. -/
namespace JustApi.Lib.Lines
open JustApi.Lib.Text

def splitLines (cs : List Char) : List (List Char) := cs.splitOn '\n'

def joinLines (lines : List (List Char)) : List Char := ['\n'].intercalate lines

def isBlank (cs : List Char) : Bool := cs.all isWhitespace

/-- There is something in it, and its ends are no white space. -/
def IsSolid (p : List Char) : Prop :=
  p ≠ [] ∧ p.dropWhile isWhitespace = p ∧ p.rdropWhile isWhitespace = p

instance (p : List Char) : Decidable (IsSolid p) := inferInstanceAs (Decidable (_ ∧ _ ∧ _))

/-- The first element with a property, and what is around it. -/
theorem takeWhile_dropWhile_split {α : Type*} {p : α → Bool} {before : List α} {x : α}
    (after : List α) (hbefore : ∀ y ∈ before, p y) (hx : ¬ p x) :
    (before ++ x :: after).takeWhile p = before ∧
      (before ++ x :: after).dropWhile p = x :: after := by
  rw [List.takeWhile_append_of_pos hbefore, List.dropWhile_append_of_pos hbefore,
    List.takeWhile_cons_of_neg hx, List.dropWhile_cons_of_neg hx, List.append_nil]
  exact ⟨rfl, rfl⟩

theorem infix_intercalate {α : Type*} {parts : List (List α)} {part : List α} (h : part ∈ parts)
    (separator : List α) : part <:+: separator.intercalate parts := by
  induction parts with
  | nil => cases h
  | cons first rest ih =>
    cases rest with
    | nil => rw [List.mem_singleton.mp h, List.intercalate_singleton]
    | cons next rest =>
      rw [List.intercalate_cons_cons]
      rcases List.mem_cons.mp h with rfl | hrest
      · rw [List.append_assoc]
        exact (List.prefix_append _ _).isInfix
      · exact (ih hrest).trans (List.suffix_append _ _).isInfix

/-! ## Trimming -/

section Trim

variable {x y b p : List Char}

theorem trim_eq (cs : List Char) :
    trim cs = (cs.dropWhile isWhitespace).rdropWhile isWhitespace := rfl

theorem isBlank_iff : isBlank x ↔ ∀ c ∈ x, isWhitespace c := List.all_eq_true

theorem trim_blank (h : isBlank b) : trim b = [] := by
  rw [trim_eq, List.dropWhile_eq_nil_iff.mpr (isBlank_iff.mp h)]
  rfl

theorem trim_blank_append (h : isBlank b) : trim (b ++ x) = trim x := by
  rw [trim_eq, List.dropWhile_append_of_pos (isBlank_iff.mp h), trim_eq]

theorem trim_append_blank (h : isBlank b) : trim (x ++ b) = trim x := by
  by_cases hx : isBlank x
  · rw [trim_blank_append hx, trim_blank hx, trim_blank h]
  · rw [trim_eq, Trim.dropWhile_append_of_not (fun hall => hx (isBlank_iff.mpr hall)),
      Trim.rdropWhile_append_of_all (isBlank_iff.mp h), trim_eq]

/-- A text is blank, what is left when it is trimmed, and blank. -/
theorem trim_edges (x : List Char) : ∃ b b', isBlank b ∧ isBlank b' ∧ x = b ++ (trim x ++ b') :=
  ⟨_, _, isBlank_iff.mpr fun _ => List.mem_takeWhile_imp,
    isBlank_iff.mpr fun _ => List.mem_rtakeWhile_imp, Trim.edges isWhitespace x⟩

theorem trim_trim (x : List Char) : trim (trim x) = trim x := by
  obtain ⟨b, b', hb, hb', hx⟩ := trim_edges x
  conv_rhs => rw [hx, trim_blank_append hb, trim_append_blank hb']

theorem trim_isInfix (x : List Char) : trim x <:+: x := by
  obtain ⟨b, b', -, -, hx⟩ := trim_edges x
  exact ⟨b, b', by rw [List.append_assoc, ← hx]⟩

theorem length_trim_le (x : List Char) : (trim x).length ≤ x.length := (trim_isInfix x).length_le

theorem dropWhile_solid_append (hp : IsSolid p) (y : List Char) :
    (p ++ y).dropWhile isWhitespace = p ++ y := by
  obtain ⟨hne, hfirst, -⟩ := hp
  rw [Trim.dropWhile_append_of_not, hfirst]
  intro hall
  rw [List.dropWhile_eq_nil_iff.mpr hall] at hfirst
  exact hne hfirst.symm

theorem rdropWhile_append_solid (hp : IsSolid p) (x : List Char) :
    (x ++ p).rdropWhile isWhitespace = x ++ p := by
  obtain ⟨hne, -, hlast⟩ := hp
  rw [Trim.rdropWhile_append_of_not, hlast]
  intro hall
  rw [Trim.rdropWhile_eq_nil hall] at hlast
  exact hne hlast.symm

/-- Trimming stops at a solid part. -/
theorem trim_around (hp : IsSolid p) (x y : List Char) :
    trim (x ++ (p ++ y)) = x.dropWhile isWhitespace ++ (p ++ y.rdropWhile isWhitespace) := by
  have hfirst : (x ++ (p ++ y)).dropWhile isWhitespace = x.dropWhile isWhitespace ++ (p ++ y) := by
    by_cases hx : isBlank x
    · rw [List.dropWhile_append_of_pos (isBlank_iff.mp hx), dropWhile_solid_append hp,
        List.dropWhile_eq_nil_iff.mpr (isBlank_iff.mp hx), List.nil_append]
    · rw [Trim.dropWhile_append_of_not fun hall => hx (isBlank_iff.mpr hall)]
  rw [trim_eq, hfirst, ← List.append_assoc, ← List.append_assoc]
  by_cases hy : isBlank y
  · rw [Trim.rdropWhile_append_of_all (isBlank_iff.mp hy), rdropWhile_append_solid hp,
      Trim.rdropWhile_eq_nil (isBlank_iff.mp hy), List.append_nil]
  · rw [Trim.rdropWhile_append_of_not fun hall => hy (isBlank_iff.mpr hall)]

theorem trim_solid (hp : IsSolid p) : trim p = p := by
  have h := trim_around hp [] []
  simpa using h

theorem infix_trim (hp : IsSolid p) (h : p <:+: x) : p <:+: trim x := by
  obtain ⟨before, after, rfl⟩ := h
  rw [List.append_assoc, trim_around hp]
  exact ⟨_, _, List.append_assoc _ _ _⟩

/-- What is around a solid text in a line that is trimmed to it is blank. -/
theorem trim_eq_iff_blank (hp : IsSolid p) (x y : List Char) :
    trim (x ++ (p ++ y)) = p ↔ isBlank x ∧ isBlank y := by
  rw [trim_around hp, isBlank_iff, isBlank_iff, ← List.dropWhile_eq_nil_iff,
    ← List.rdropWhile_eq_nil_iff]
  constructor
  · intro h
    have hlen := congrArg List.length h
    simp only [List.length_append] at hlen
    exact ⟨List.eq_nil_of_length_eq_zero (by omega), List.eq_nil_of_length_eq_zero (by omega)⟩
  · intro h
    rw [h.1, h.2, List.nil_append, List.append_nil]

/-- A solid text is in front of a trimmed text as it is in front of the text. -/
theorem prefix_rdropWhile_iff (hp : IsSolid p) (x : List Char) :
    p <+: x.rdropWhile isWhitespace ↔ p <+: x := by
  constructor
  · intro h
    exact h.trans (List.rdropWhile_prefix _ _)
  · intro h
    obtain ⟨y, rfl⟩ := h
    by_cases hy : isBlank y
    · have hself := rdropWhile_append_solid hp []
      rw [List.nil_append] at hself
      rw [Trim.rdropWhile_append_of_all (isBlank_iff.mp hy), hself]
    · rw [Trim.rdropWhile_append_of_not fun hall => hy (isBlank_iff.mpr hall)]
      exact List.prefix_append _ _

theorem trim_rdropWhile (x : List Char) : trim (x.rdropWhile isWhitespace) = trim x := by
  have hblank : isBlank (x.rtakeWhile isWhitespace) :=
    isBlank_iff.mpr fun _ => List.mem_rtakeWhile_imp
  conv_rhs => rw [← List.rdropWhile_append_rtakeWhile (p := isWhitespace) (l := x),
    trim_append_blank hblank]

theorem dropWhile_of_prefix (hp : IsSolid p) (h : p <+: x) : x.dropWhile isWhitespace = x := by
  obtain ⟨y, rfl⟩ := h
  exact dropWhile_solid_append hp y

end Trim

/-! ## Patterns -/

section Patterns

variable {p x y a b : List Char}

theorem trimStartMatches_suffix (p : List Char) (fuel : Nat) (cs : List Char) :
    trimStartMatches p fuel cs <:+ cs := by
  induction fuel generalizing cs with
  | zero => exact List.suffix_rfl
  | succ fuel ih =>
    unfold trimStartMatches
    split
    · exact (ih _).trans (List.drop_suffix _ _)
    · exact List.suffix_rfl

theorem trimStartMatches_of_not (h : ¬ p <+: x) (fuel : Nat) : trimStartMatches p fuel x = x := by
  cases fuel with
  | zero => rfl
  | succ fuel => rw [trimStartMatches, if_neg h]

theorem trimStartMatches_append (p x : List Char) (fuel : Nat) :
    trimStartMatches p (fuel + 1) (p ++ x) = trimStartMatches p fuel x := by
  rw [trimStartMatches, if_pos (List.prefix_append p x), List.drop_left]

theorem findPattern_some (h : findPattern p x = some (a, b)) : x = a ++ b ∧ p <+: b := by
  induction x generalizing a b with
  | nil =>
    unfold findPattern at h
    split at h
    · rename_i hp
      cases h
      exact ⟨rfl, by rw [hp]⟩
    · cases h
  | cons c rest ih =>
    unfold findPattern at h
    split at h
    · rename_i hp
      cases h
      exact ⟨rfl, hp⟩
    · obtain ⟨q, hq, hab⟩ := Option.map_eq_some_iff.mp h
      cases hab
      obtain ⟨hrest, hb⟩ := ih hq
      exact ⟨by rw [hrest]; rfl, hb⟩

theorem findPattern_isSome (hne : p ≠ []) (x : List Char) : (findPattern p x).isSome ↔ p <:+: x := by
  induction x with
  | nil =>
    rw [findPattern, if_neg hne, List.infix_nil]
    exact iff_of_false (by decide) hne
  | cons c rest ih =>
    rw [findPattern, List.infix_cons_iff]
    split
    · rename_i hp
      exact iff_of_true rfl (.inl hp)
    · rename_i hp
      rw [Option.isSome_map, ih, or_iff_right hp]

/-- The pattern is not in what comes before its first occurrence. -/
theorem findPattern_first (hne : p ≠ []) (h : findPattern p x = some (a, b)) : ¬ p <:+: a := by
  induction x generalizing a b with
  | nil =>
    rw [findPattern, if_neg hne] at h
    cases h
  | cons c rest ih =>
    unfold findPattern at h
    split at h
    · cases h
      exact fun hin => hne (List.infix_nil.mp hin)
    · rename_i hp
      obtain ⟨q, hq, hab⟩ := Option.map_eq_some_iff.mp h
      cases hab
      rw [List.infix_cons_iff]
      intro hin
      rcases hin with hstart | hin
      · obtain ⟨hrest, -⟩ := findPattern_some hq
        apply hp
        rw [hrest]
        exact hstart.trans (List.prefix_append (c :: q.1) q.2)
      · exact ih hq hin

/-- A pattern without a line break does not reach over one. -/
theorem prefix_append_newline (h : '\n' ∉ p) (x y : List Char) :
    p <+: x ++ '\n' :: y ↔ p <+: x := by
  constructor
  · intro hp
    rcases List.prefix_or_prefix_of_prefix hp (List.prefix_append x ('\n' :: y)) with hpx | hxp
    · exact hpx
    · obtain ⟨z, rfl⟩ := hxp
      cases z with
      | nil => rw [List.append_nil]
      | cons c z =>
        obtain ⟨hc, -⟩ := List.cons_prefix_cons.mp ((List.prefix_append_right_inj x).mp hp)
        subst hc
        exact absurd (List.mem_append_right x List.mem_cons_self) h
  · intro hp
    exact hp.trans (List.prefix_append _ _)

theorem findPattern_append_newline (hne : p ≠ []) (h : '\n' ∉ p) (x y : List Char) :
    findPattern p (x ++ '\n' :: y) =
      match findPattern p x with
      | some (a, b) => some (a, b ++ '\n' :: y)
      | none => (findPattern p y).map fun q => (x ++ '\n' :: q.1, q.2) := by
  induction x with
  | nil =>
    have hnot : ¬ p <+: '\n' :: y := by
      intro hp
      rw [← List.nil_append ('\n' :: y), prefix_append_newline h, List.prefix_nil] at hp
      exact hne hp
    simp only [List.nil_append, findPattern, if_neg hnot, if_neg hne]
  | cons c x ih =>
    have hc := prefix_append_newline h (c :: x) y
    rw [List.cons_append] at hc ⊢
    rw [findPattern, findPattern]
    by_cases hp : p <+: c :: x
    · rw [if_pos hp, if_pos (hc.mpr hp)]
      rfl
    · rw [if_neg hp, if_neg (fun hq => hp (hc.mp hq)), ih]
      cases findPattern p x with
      | some q => rfl
      | none =>
        rw [Option.map_map]
        rfl

end Patterns

/-! ## Patterns in lines -/

section PatternsInLines

variable {p line a b : List Char} {before after lines : List (List Char)}

theorem joinLines_cons (line : List Char) (hne : lines ≠ []) :
    joinLines (line :: lines) = line ++ '\n' :: joinLines lines := by
  rw [joinLines, List.intercalate_cons_of_ne_nil hne, List.append_assoc]
  rfl

theorem joinLines_singleton (line : List Char) : joinLines [line] = line :=
  List.intercalate_singleton

theorem joinLines_splitLines (cs : List Char) : joinLines (splitLines cs) = cs :=
  List.intercalate_splitOn '\n'

/-- The first line, and what follows it. -/
theorem joinLines_cons_eq (lines : List (List Char)) :
    ∃ rest, (∀ line, joinLines (line :: lines) = line ++ rest) ∧
      (rest = [] ∧ lines = [] ∨ rest = '\n' :: joinLines lines) := by
  by_cases hne : lines = []
  · subst hne
    exact ⟨[], fun line => by rw [joinLines_singleton, List.append_nil], .inl ⟨rfl, rfl⟩⟩
  · exact ⟨_, fun line => joinLines_cons line hne, .inr rfl⟩

theorem findPattern_joinLines_none (hne : p ≠ []) (h : '\n' ∉ p)
    (hlines : ∀ line ∈ lines, ¬ p <:+: line) : findPattern p (joinLines lines) = none := by
  have hnone : ∀ line ∈ lines, findPattern p line = none := by
    intro line hmem
    rw [← Option.not_isSome_iff_eq_none, findPattern_isSome hne]
    exact hlines line hmem
  clear hlines
  induction lines with
  | nil => rw [joinLines, List.intercalate_nil, findPattern, if_neg hne]
  | cons line lines ih =>
    have hrest := ih fun l hl => hnone l (List.mem_cons_of_mem line hl)
    by_cases hnil : lines = []
    · rw [hnil, joinLines_singleton, hnone line List.mem_cons_self]
    · rw [joinLines_cons line hnil, findPattern_append_newline hne h,
        hnone line List.mem_cons_self, hrest]
      rfl

/-- A pattern is first found in the first line it is in. -/
theorem findPattern_joinLines_some (hne : p ≠ []) (h : '\n' ∉ p)
    (hbefore : ∀ l ∈ before, ¬ p <:+: l) (hline : findPattern p line = some (a, b))
    (after : List (List Char)) :
    findPattern p (joinLines (before ++ line :: after)) =
      some (joinLines (before ++ [a]), joinLines (b :: after)) := by
  induction before with
  | nil =>
    rw [List.nil_append, List.nil_append, joinLines_singleton]
    by_cases hnil : after = []
    · rw [hnil, joinLines_singleton, joinLines_singleton, hline]
    · rw [joinLines_cons line hnil, joinLines_cons b hnil, findPattern_append_newline hne h, hline]
  | cons l before ih =>
    have hl : findPattern p l = none := by
      rw [← Option.not_isSome_iff_eq_none, findPattern_isSome hne]
      exact hbefore l List.mem_cons_self
    rw [List.cons_append, List.cons_append, joinLines_cons l (by simp), joinLines_cons l (by simp),
      findPattern_append_newline hne h, hl, ih fun l' hl' => hbefore l' (List.mem_cons_of_mem l hl')]
    rfl

theorem infix_joinLines (h : line ∈ lines) : line <:+: joinLines lines := infix_intercalate h ['\n']

/-- Blank lines at the start are trimmed away. -/
theorem trim_joinLines_dropWhile (lines : List (List Char)) :
    trim (joinLines (lines.dropWhile isBlank)) = trim (joinLines lines) := by
  induction lines with
  | nil => rfl
  | cons l lines ih =>
    rw [List.dropWhile_cons]
    split
    · rename_i hl
      rw [ih]
      obtain ⟨rest, hjoin, hrest⟩ := joinLines_cons_eq lines
      rw [hjoin, trim_blank_append hl]
      rcases hrest with ⟨rfl, rfl⟩ | rfl
      · rfl
      · exact (trim_blank_append (b := ['\n']) (by decide)).symm
    · rfl

theorem joinLines_concat (hne : lines ≠ []) (line : List Char) :
    joinLines (lines ++ [line]) = joinLines lines ++ '\n' :: line := by
  induction lines with
  | nil => exact absurd rfl hne
  | cons l lines ih =>
    rw [List.cons_append, joinLines_cons l (by simp)]
    by_cases hnil : lines = []
    · rw [hnil, List.nil_append, joinLines_singleton, joinLines_singleton]
    · rw [joinLines_cons l hnil, ih hnil, List.append_assoc]
      rfl

theorem trim_joinLines_concat_blank (h : isBlank line) (lines : List (List Char)) :
    trim (joinLines (lines ++ [line])) = trim (joinLines lines) := by
  by_cases hnil : lines = []
  · rw [hnil, List.nil_append, joinLines_singleton, trim_blank h]
    rfl
  · have hend : isBlank ('\n' :: line) := by
      rw [isBlank, List.all_cons]
      exact h
    rw [joinLines_concat hnil, trim_append_blank hend]

theorem trim_joinLines_blank_cons (h : isBlank line) (lines : List (List Char)) :
    trim (joinLines (line :: lines)) = trim (joinLines lines) := by
  rw [← trim_joinLines_dropWhile, List.dropWhile_cons_of_pos h, trim_joinLines_dropWhile]

/-- What a trimmed text starts with is in its first line. -/
theorem prefix_trim_joinLines (hp : IsSolid p) (hn : '\n' ∉ p) (hline : ¬ isBlank line)
    (after : List (List Char)) :
    p <+: trim (joinLines (line :: after)) ↔ p <+: trim line := by
  obtain ⟨next, hjoin, hnext⟩ := joinLines_cons_eq after
  rw [hjoin, trim_eq, trim_eq, prefix_rdropWhile_iff hp, prefix_rdropWhile_iff hp,
    Trim.dropWhile_append_of_not fun hall => hline (isBlank_iff.mpr hall)]
  rcases hnext with ⟨rfl, -⟩ | rfl
  · rw [List.append_nil]
  · exact prefix_append_newline hn _ _

/-- A first line that is trimmed to a solid text, and what is behind it. -/
theorem trim_joinLines_solid (hp : IsSolid p) (hline : trim line = p) (after : List (List Char)) :
    ∃ rest, trim (joinLines (line :: after)) = p ++ rest ∧ ¬ p <+: rest ∧
      trim rest = trim (joinLines after) := by
  obtain ⟨b, b', hb, hb', he⟩ := trim_edges line
  rw [hline] at he
  obtain ⟨next, hjoin, hnext⟩ := joinLines_cons_eq after
  have hrest : trim (b' ++ next) = trim (joinLines after) := by
    rw [trim_blank_append hb']
    rcases hnext with ⟨rfl, rfl⟩ | rfl
    · rfl
    · exact trim_blank_append (b := ['\n']) (by decide)
  refine ⟨(b' ++ next).rdropWhile isWhitespace, ?_, ?_, ?_⟩
  · rw [hjoin, he, List.append_assoc, List.append_assoc, trim_around hp,
      List.dropWhile_eq_nil_iff.mpr (isBlank_iff.mp hb), List.nil_append]
  · rw [prefix_rdropWhile_iff hp]
    intro hstart
    have hself := dropWhile_of_prefix hp hstart
    rw [List.dropWhile_append_of_pos (isBlank_iff.mp hb')] at hself
    rcases hnext with ⟨rfl, -⟩ | rfl
    · rw [List.append_nil] at hself hstart
      rw [← hself] at hstart
      exact hp.1 (List.prefix_nil.mp hstart)
    · rw [List.dropWhile_cons_of_pos (by decide)] at hself
      have hlen := (List.dropWhile_suffix isWhitespace (l := joinLines after)).length_le
      rw [hself, List.length_append, List.length_cons] at hlen
      omega
  · rw [trim_rdropWhile, hrest]

end PatternsInLines

end JustApi.Lib.Lines
