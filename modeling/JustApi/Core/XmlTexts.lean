import Mathlib.Data.List.Induction
import JustApi.Lib.Lines
import JustApi.Core.XmlRun

/-! # Texts

When the pending text at the end of an element is the character data of its content,
trimmed. -/
namespace JustApi.Core.Xml
open JustApi.Lib.Text JustApi.Lib.Trim
open JustApi.Lib.Lines (trim_eq isBlank_iff trim_blank_append)

/-- Nothing but white space. -/
def Blank (cs : List Char) : Prop := ∀ c ∈ cs, isWhitespace c = true

/-- White space at an edge of a text has nothing but white space on one of its sides. -/
def EdgesClear (children : List Node) : Prop :=
  ∀ before s after, children = before ++ .text s :: after →
    (s.takeWhile xmlSpace = [] ∨ Blank (characterData before) ∨
      Blank (s ++ characterData after)) ∧
    (s.rtakeWhile xmlSpace = [] ∨ Blank (characterData before ++ s) ∨
      Blank (characterData after))

/-- Nothing but white space comes before an element that is not self-closing. -/
def Undropped (children : List Node) : Prop :=
  ∀ before name attributes content after,
    children = before ++ .element name attributes content :: after → Blank (characterData before)

def NoReference (children : List Node) : Prop := ∀ e, Node.reference e ∉ children

theorem blank_nil : Blank [] := fun _ h => absurd h List.not_mem_nil

theorem blank_append {x y : List Char} : Blank (x ++ y) ↔ Blank x ∧ Blank y :=
  List.forall_mem_append

theorem trimRun_eq (s : List Char) : trimRun s = (s.dropWhile xmlSpace).rdropWhile xmlSpace := rfl

theorem isWhitespace_of_xmlSpace {c : Char} (h : xmlSpace c = true) : isWhitespace c = true := by
  have hcases : c = ' ' ∨ c = '\t' ∨ c = '\n' ∨ c = '\r' := by simpa [xmlSpace, or_assoc] using h
  rcases hcases with rfl | rfl | rfl | rfl <;> rfl

/-! ## What is not white space -/

def solid (cs : List Char) : List Char := cs.filter fun c => ¬ isWhitespace c

theorem solid_append (x y : List Char) : solid (x ++ y) = solid x ++ solid y :=
  List.filter_append _ _

theorem solid_eq_nil {cs : List Char} : solid cs = [] ↔ Blank cs := by
  simp [solid, Blank]

theorem solid_trim (cs : List Char) : solid (trim cs) = solid cs := filter_trim cs

theorem solid_of_spaces {cs : List Char} (h : ∀ c ∈ cs, xmlSpace c = true) : solid cs = [] :=
  solid_eq_nil.mpr fun c hc => isWhitespace_of_xmlSpace (h c hc)

theorem solid_trimRun (s : List Char) : solid (trimRun s) = solid s := by
  have hlast : solid ((s.dropWhile xmlSpace).rtakeWhile xmlSpace) = [] :=
    solid_of_spaces fun c hc => List.mem_rtakeWhile_imp hc
  conv_rhs => rw [edges xmlSpace s]
  rw [solid_append, solid_append, solid_of_spaces fun c hc => List.mem_takeWhile_imp hc, hlast,
    List.append_nil, List.nil_append, trimRun_eq]

theorem solid_reference (e : Entity) : solid [e.char] = [e.char] ∧ solid e.name = e.name := by
  cases e <;> decide

theorem characterData_concat (children : List Node) (n : Node) :
    characterData (children ++ [n]) = characterData children ++ n.data := by
  simp [characterData]

theorem buffered_concat (children : List Node) (n : Node) :
    buffered (children ++ [n]) = bufferStep (buffered children) n := by
  rw [buffered, List.foldl_concat]
  rfl

/-- A reference's name does not end with the character it stands for. -/
theorem name_ne_char (x y : List Char) (e : Entity) : x ++ e.name ≠ y ++ [e.char] := by
  intro h
  have hlast := congrArg List.getLast? h
  cases e <;> simp [Entity.name, Entity.char] at hlast

theorem Undropped.of_concat {children : List Node} {n : Node} (h : Undropped children)
    (hn : ∀ name attributes content, n = .element name attributes content →
      Blank (characterData children)) : Undropped (children ++ [n]) := by
  intro before name attributes content after heq
  rcases List.append_eq_append_iff.mp heq with ⟨l, hbefore, hl⟩ | ⟨l, hchildren, hl⟩
  · cases l with
    | nil =>
      rw [List.append_nil] at hbefore
      rw [hbefore]
      exact hn name attributes content (List.cons.inj hl).1
    | cons m l => simp at hl
  · cases l with
    | nil =>
      rw [List.append_nil] at hchildren
      rw [← hchildren]
      exact hn name attributes content (List.cons.inj hl).1.symm
    | cons m l =>
      obtain ⟨hm, -⟩ := List.cons.inj hl
      exact h before name attributes content l (hm ▸ hchildren)

theorem undropped_of_blank {children : List Node} (h : Blank (characterData children)) :
    NoReference children ∧ Undropped children := by
  constructor
  · intro e hmem
    have hblank : Blank [e.char] := fun c hc => h c (List.mem_flatMap.mpr ⟨_, hmem, hc⟩)
    have hsolid := solid_eq_nil.mpr hblank
    rw [(solid_reference e).1] at hsolid
    cases hsolid
  · rintro before name attributes content after rfl
    rw [characterData, List.flatMap_append, blank_append] at h
    exact h.1

theorem NoReference.concat {children : List Node} {n : Node} (h : NoReference children)
    (hn : ∀ e, n ≠ .reference e) : NoReference (children ++ [n]) := by
  intro e hmem
  rcases List.mem_append.mp hmem with hmem | hmem
  · exact h e hmem
  · exact hn e (List.mem_singleton.mp hmem).symm

/-- Where the pending text has what the content has, nothing was dropped and nothing came
from a reference. -/
theorem undropped_of_solid {children : List Node}
    (h : solid (buffered children) = solid (characterData children)) :
    NoReference children ∧ Undropped children := by
  induction children using List.reverseRecOn with
  | nil => exact ⟨fun _ => List.not_mem_nil, fun before _ _ _ _ heq => by simp at heq⟩
  | append_singleton children n ih =>
    rw [buffered_concat, characterData_concat, solid_append] at h
    cases n with
    | element name attributes content =>
      have hblank : Blank (characterData children) :=
        solid_eq_nil.mp (List.append_eq_nil_iff.mp h.symm).1
      obtain ⟨hno, hkept⟩ := undropped_of_blank hblank
      exact ⟨hno.concat fun _ => Node.noConfusion, hkept.of_concat fun _ _ _ _ => hblank⟩
    | selfClosing name attributes =>
      obtain ⟨hno, hkept⟩ := ih (h.trans (List.append_nil _))
      exact ⟨hno.concat fun _ => Node.noConfusion,
        hkept.of_concat fun _ _ _ he => Node.noConfusion he⟩
    | text s =>
      rw [bufferStep, Node.data, solid_append, solid_trimRun] at h
      obtain ⟨hno, hkept⟩ := ih (List.append_cancel_right h)
      exact ⟨hno.concat fun _ => Node.noConfusion,
        hkept.of_concat fun _ _ _ he => Node.noConfusion he⟩
    | cdata s =>
      rw [bufferStep, Node.data, solid_append] at h
      obtain ⟨hno, hkept⟩ := ih (List.append_cancel_right h)
      exact ⟨hno.concat fun _ => Node.noConfusion,
        hkept.of_concat fun _ _ _ he => Node.noConfusion he⟩
    | reference e =>
      rw [bufferStep, Node.data, solid_append, (solid_reference e).1, (solid_reference e).2] at h
      exact absurd h (name_ne_char _ _ e)

/-! ## The pending text -/

/-- What the reader leaves of the character data of a node. -/
def Node.readData : Node → List Char
  | .text s => trimRun s
  | n => n.data

def trimmedData (children : List Node) : List Char := children.flatMap Node.readData

theorem solid_readData (n : Node) : solid n.readData = solid n.data := by
  cases n with
  | text s => exact solid_trimRun s
  | _ => rfl

theorem trimmedData_cons (n : Node) (children : List Node) :
    trimmedData (n :: children) = n.readData ++ trimmedData children := List.flatMap_cons

theorem characterData_cons (n : Node) (children : List Node) :
    characterData (n :: children) = n.data ++ characterData children := List.flatMap_cons

theorem solid_trimmedData (children : List Node) :
    solid (trimmedData children) = solid (characterData children) := by
  induction children with
  | nil => rfl
  | cons n children ih =>
    rw [trimmedData_cons, characterData_cons, solid_append, solid_append, ih, solid_readData]

theorem blank_trimmedData (children : List Node) :
    Blank (trimmedData children) ↔ Blank (characterData children) := by
  rw [← solid_eq_nil, solid_trimmedData, solid_eq_nil]

theorem trimmedData_concat (children : List Node) (n : Node) :
    trimmedData (children ++ [n]) = trimmedData children ++ n.readData := by
  simp [trimmedData]

/-- The pending text lacks no more than white space in front. -/
theorem buffered_suffix {children : List Node} (hno : NoReference children)
    (hkept : Undropped children) :
    ∃ before, Blank before ∧ trimmedData children = before ++ buffered children := by
  induction children using List.reverseRecOn with
  | nil => exact ⟨[], blank_nil, rfl⟩
  | append_singleton children n ih =>
    have hno' : NoReference children := fun e hmem => hno e (List.mem_append_left _ hmem)
    have hkept' : Undropped children := by
      intro before name attributes content after heq
      exact hkept before name attributes content (after ++ [n]) (by rw [heq]; simp)
    obtain ⟨before, hblank, hsplit⟩ := ih hno' hkept'
    rw [trimmedData_concat, buffered_concat]
    cases n with
    | element name attributes content =>
      have hall := hkept children name attributes content [] rfl
      refine ⟨trimmedData children, (blank_trimmedData children).mpr hall, ?_⟩
      rfl
    | selfClosing name attributes => exact ⟨before, hblank, by rw [hsplit]; exact List.append_nil _⟩
    | text s => exact ⟨before, hblank, by rw [hsplit]; exact List.append_assoc _ _ _⟩
    | cdata s => exact ⟨before, hblank, by rw [hsplit]; exact List.append_assoc _ _ _⟩
    | reference e =>
      exact absurd (List.mem_append_right _ (List.mem_singleton_self _)) (hno e)

theorem trim_buffered {children : List Node} (hno : NoReference children)
    (hkept : Undropped children) : trim (buffered children) = trim (trimmedData children) := by
  obtain ⟨before, hblank, hsplit⟩ := buffered_suffix hno hkept
  rw [hsplit, trim_eq, trim_eq, List.dropWhile_append_of_pos hblank]

/-! ## White space at the edges -/

/-- The character data of a content without its white space at the end. -/
abbrev stripped (cs : List Char) : List Char := cs.rdropWhile isWhitespace

theorem stripped_append_blank {x y : List Char} (h : Blank y) : stripped (x ++ y) = stripped x :=
  rdropWhile_append_of_all h

theorem stripped_append {x y : List Char} (h : ¬ Blank y) : stripped (x ++ y) = x ++ stripped y :=
  rdropWhile_append_of_not h

/-- As `EdgesClear`, with something before the content that is not white space if `seen`. -/
def Clear (seen : Prop) (children : List Node) : Prop :=
  ∀ before s after, children = before ++ .text s :: after →
    (s.takeWhile xmlSpace = [] ∨ ¬ seen ∧ Blank (characterData before) ∨
      Blank (s ++ characterData after)) ∧
    (s.rtakeWhile xmlSpace = [] ∨ ¬ seen ∧ Blank (characterData before ++ s) ∨
      Blank (characterData after))

theorem clear_cons {seen : Prop} {n : Node} {children : List Node} :
    Clear seen (n :: children) ↔
      (∀ s, n = .text s →
        (s.takeWhile xmlSpace = [] ∨ ¬ seen ∨ Blank (s ++ characterData children)) ∧
        (s.rtakeWhile xmlSpace = [] ∨ ¬ seen ∧ Blank s ∨ Blank (characterData children))) ∧
      Clear (seen ∨ ¬ Blank n.data) children := by
  have hseen : ∀ x, ¬ (seen ∨ ¬ Blank n.data) ∧ Blank x ↔ ¬ seen ∧ Blank (n.data ++ x) := by
    intro x
    rw [not_or, not_not, and_assoc, blank_append]
  constructor
  · intro h
    constructor
    · rintro s rfl
      have hhead := h [] s children rfl
      simpa [characterData, blank_nil] using hhead
    · rintro before s after rfl
      have htail := h (n :: before) s after rfl
      rw [characterData_cons, List.append_assoc] at htail
      rwa [hseen, hseen]
  · rintro ⟨hhead, htail⟩ before s after heq
    cases before with
    | nil =>
      obtain ⟨rfl, rfl⟩ := List.cons.inj heq
      simpa [characterData, blank_nil] using hhead s rfl
    | cons m before =>
      obtain ⟨rfl, rfl⟩ := List.cons.inj heq
      have hrest := htail before s after rfl
      rw [hseen, hseen, ← List.append_assoc] at hrest
      rwa [characterData_cons]

/-- Of two rests with the same white space at their end, the second lacks some within. -/
structure Thinner (rest rest' : List Char) : Prop where
  blank : Blank rest ↔ Blank rest'
  length : (stripped rest').length ≤ (stripped rest).length

theorem stripped_blank {cs : List Char} (h : Blank cs) : stripped cs = [] := rdropWhile_eq_nil h

/-- White space in front of a rest is missed unless the rest is white space. -/
theorem stripped_gap {x gap rest rest' : List Char} (hgap : Blank gap) (h : Thinner rest rest') :
    stripped (x ++ (gap ++ rest)) = stripped (x ++ rest') ↔
      (gap = [] ∨ Blank rest) ∧ stripped rest = stripped rest' := by
  by_cases hrest : Blank rest
  · rw [stripped_append_blank (blank_append.mpr ⟨hgap, hrest⟩),
      stripped_append_blank (h.blank.mp hrest), stripped_blank hrest,
      stripped_blank (h.blank.mp hrest)]
    simp [hrest]
  · rw [stripped_append fun hb => hrest (blank_append.mp hb).2, stripped_append hrest,
      stripped_append fun hb => hrest (h.blank.mpr hb), List.append_cancel_left_eq]
    constructor
    · intro heq
      have hlength := congrArg List.length heq
      rw [List.length_append] at hlength
      have hnil : gap = [] := List.length_eq_zero_iff.mp (by have := h.length; omega)
      subst hnil
      exact ⟨.inl rfl, heq⟩
    · rintro ⟨hnil, heq⟩
      rw [hnil.resolve_right hrest, heq, List.nil_append]

/-- A text by its edges. -/
theorem text_edges (s : List Char) : ∃ gap, Blank gap ∧ Blank (s.takeWhile xmlSpace) ∧
    s = s.takeWhile xmlSpace ++ (trimRun s ++ gap) ∧
    (¬ Blank s → s.rtakeWhile xmlSpace = gap) ∧
    (s.takeWhile xmlSpace = [] → s.rtakeWhile xmlSpace = gap) := by
  refine ⟨(s.dropWhile xmlSpace).rtakeWhile xmlSpace,
    fun c hc => isWhitespace_of_xmlSpace (List.mem_rtakeWhile_imp hc),
    fun c hc => isWhitespace_of_xmlSpace (List.mem_takeWhile_imp hc), edges xmlSpace s,
    fun hs => ?_, fun hnil => ?_⟩
  · exact (rtakeWhile_dropWhile fun hall => hs fun c hc =>
      isWhitespace_of_xmlSpace (hall c hc)).symm
  · have hsplit := List.takeWhile_append_dropWhile (p := xmlSpace) (l := s)
    rw [hnil, List.nil_append] at hsplit
    rw [hsplit]

theorem stripped_text {s rest rest' : List Char} (h : Thinner rest rest') :
    stripped (s ++ rest) = stripped (trimRun s ++ rest') ↔
      ((s.takeWhile xmlSpace = [] ∨ Blank (s ++ rest)) ∧
        (s.rtakeWhile xmlSpace = [] ∨ Blank rest)) ∧ stripped rest = stripped rest' := by
  obtain ⟨gap, hgap, hlead, hsplit, -, hlast⟩ := text_edges s
  by_cases hnil : s.takeWhile xmlSpace = []
  · rw [hnil, List.nil_append] at hsplit
    have hjoin : s ++ rest = trimRun s ++ (gap ++ rest) := by
      conv_lhs => rw [hsplit]
      exact List.append_assoc _ _ _
    rw [hjoin, stripped_gap hgap h, hlast hnil]
    simp [hnil]
  · have hblank : stripped (s ++ rest) = stripped (trimRun s ++ rest') → Blank (s ++ rest) := by
      intro heq
      by_contra hnot
      refine hnil (List.length_eq_zero_iff.mp ?_)
      have hlength := congrArg List.length hsplit
      rw [List.length_append, List.length_append] at hlength
      by_cases hrest : Blank rest
      · have hcore : ¬ Blank (trimRun s) := by
          rw [← solid_eq_nil, solid_trimRun, solid_eq_nil]
          exact fun hs => hnot (blank_append.mpr ⟨hs, hrest⟩)
        have hs : stripped s = s.takeWhile xmlSpace ++ stripped (trimRun s) := by
          conv_lhs => rw [hsplit]
          rw [← List.append_assoc, stripped_append_blank hgap, stripped_append hcore]
        rw [stripped_append_blank hrest, stripped_append_blank (h.blank.mp hrest), hs] at heq
        have hboth := congrArg List.length heq
        rw [List.length_append] at hboth
        omega
      · rw [stripped_append hrest, stripped_append fun hb => hrest (h.blank.mpr hb)] at heq
        have hboth := congrArg List.length heq
        rw [List.length_append, List.length_append] at hboth
        have := h.length
        omega
    constructor
    · intro heq
      have hall := hblank heq
      have hrest := (blank_append.mp hall).2
      exact ⟨⟨.inr hall, .inr hrest⟩,
        (stripped_blank hrest).trans (stripped_blank (h.blank.mp hrest)).symm⟩
    · rintro ⟨⟨hall, -⟩, -⟩
      have hall := hall.resolve_left hnil
      obtain ⟨hs, hrest⟩ := blank_append.mp hall
      have hcore : Blank (trimRun s) := by
        rw [← solid_eq_nil, solid_trimRun, solid_eq_nil]
        exact hs
      rw [stripped_blank hall, stripped_blank (blank_append.mpr ⟨hcore, h.blank.mp hrest⟩)]

theorem Thinner.text {s rest rest' : List Char} (h : Thinner rest rest') :
    Thinner (s ++ rest) (trimRun s ++ rest') := by
  have hblank : Blank (s ++ rest) ↔ Blank (trimRun s ++ rest') := by
    rw [← solid_eq_nil, ← solid_eq_nil, solid_append, solid_append, solid_trimRun,
      List.append_eq_nil_iff, List.append_eq_nil_iff, solid_eq_nil, solid_eq_nil, h.blank,
      solid_eq_nil]
  refine ⟨hblank, ?_⟩
  obtain ⟨gap, hgap, hlead, hsplit, -⟩ := text_edges s
  by_cases hrest : Blank rest
  · rw [stripped_append_blank hrest, stripped_append_blank (h.blank.mp hrest)]
    conv_rhs => rw [hsplit, ← List.append_assoc, stripped_append_blank hgap]
    by_cases hcore : Blank (trimRun s)
    · rw [stripped_blank hcore]
      exact Nat.zero_le _
    · rw [stripped_append hcore, List.length_append]
      exact Nat.le_add_left _ _
  · rw [stripped_append hrest, stripped_append fun hb => hrest (h.blank.mpr hb),
      List.length_append, List.length_append]
    have hlength := congrArg List.length hsplit
    rw [List.length_append, List.length_append] at hlength
    have := h.length
    omega

theorem Thinner.append {rest rest' : List Char} (h : Thinner rest rest') (x : List Char) :
    Thinner (x ++ rest) (x ++ rest') := by
  refine ⟨by rw [blank_append, blank_append, h.blank], ?_⟩
  by_cases hrest : Blank rest
  · rw [stripped_append_blank hrest, stripped_append_blank (h.blank.mp hrest)]
  · rw [stripped_append hrest, stripped_append fun hb => hrest (h.blank.mpr hb),
      List.length_append, List.length_append]
    exact Nat.add_le_add_left h.length _

theorem thinner (children : List Node) :
    Thinner (characterData children) (trimmedData children) := by
  induction children with
  | nil => exact ⟨Iff.rfl, Nat.le_refl _⟩
  | cons n children ih =>
    rw [characterData_cons, trimmedData_cons]
    cases n with
    | text s => exact ih.text
    | _ => exact ih.append _

/-- A text, or a node the reader leaves as it is. -/
theorem node_cases (n : Node) :
    (∃ s, n = .text s) ∨ n.readData = n.data ∧ ∀ s, n ≠ .text s := by
  cases n with
  | text s => exact .inl ⟨s, rfl⟩
  | _ => exact .inr ⟨rfl, fun _ => Node.noConfusion⟩

theorem clear_text {seen : Prop} {s : List Char} {children : List Node} :
    Clear seen (.text s :: children) ↔
      ((s.takeWhile xmlSpace = [] ∨ ¬ seen ∨ Blank (s ++ characterData children)) ∧
        (s.rtakeWhile xmlSpace = [] ∨ ¬ seen ∧ Blank s ∨ Blank (characterData children))) ∧
      Clear (seen ∨ ¬ Blank s) children := by
  rw [clear_cons]
  refine and_congr_left' ⟨fun h => h s rfl, ?_⟩
  intro h s' heq
  cases heq
  exact h

theorem clear_other {seen : Prop} {n : Node} {children : List Node} (h : ∀ s, n ≠ .text s) :
    Clear seen (n :: children) ↔ Clear (seen ∨ ¬ Blank n.data) children := by
  rw [clear_cons]
  exact and_iff_right fun s hs => absurd hs (h s)

/-- After something that is not white space. -/
theorem stripped_iff (children : List Node) :
    stripped (characterData children) = stripped (trimmedData children) ↔
      Clear True children := by
  induction children with
  | nil => exact ⟨fun _ before _ _ heq => by simp at heq, fun _ => rfl⟩
  | cons n children ih =>
    rw [characterData_cons, trimmedData_cons]
    rcases node_cases n with ⟨s, rfl⟩ | ⟨hread, hne⟩
    · rw [clear_text, true_or, ← ih, not_true, false_or, false_and, false_or]
      exact stripped_text (thinner children)
    · rw [clear_other hne, true_or, ← ih, hread]
      exact (stripped_gap blank_nil (thinner children)).trans
        (and_iff_right (.inl rfl))

theorem trim_of_blank {x y : List Char} (h : Blank x) : trim (x ++ y) = trim y :=
  trim_blank_append (isBlank_iff.mpr h)

theorem trim_of_not_blank {x y : List Char} (h : ¬ Blank x) :
    trim (x ++ y) = stripped (x.dropWhile isWhitespace ++ y) := by
  rw [trim_eq, dropWhile_append_of_not h]

theorem blank_readData (n : Node) : Blank n.readData ↔ Blank n.data := by
  rw [← solid_eq_nil, solid_readData, solid_eq_nil]

/-- The white space in front of a text is missed by nothing that comes before it. -/
theorem trim_text {s rest rest' : List Char} (hs : ¬ Blank s) (h : Thinner rest rest') :
    trim (s ++ rest) = trim (trimRun s ++ rest') ↔
      (s.rtakeWhile xmlSpace = [] ∨ Blank rest) ∧ stripped rest = stripped rest' := by
  obtain ⟨gap, hgap, hlead, hsplit, hlast, -⟩ := text_edges s
  have hcore : ¬ Blank (trimRun s) := (blank_readData (.text s)).not.mpr hs
  have hjoin : trim (s ++ rest) = trim (trimRun s ++ (gap ++ rest)) := by
    conv_lhs => rw [hsplit]
    rw [List.append_assoc, trim_of_blank hlead, List.append_assoc]
  rw [hjoin, trim_of_not_blank hcore, trim_of_not_blank hcore, hlast hs]
  exact stripped_gap hgap h

/-- Trimming each text by itself loses nothing exactly if the edges are clear. -/
theorem trim_trimmedData_iff (children : List Node) :
    trim (characterData children) = trim (trimmedData children) ↔ Clear False children := by
  induction children with
  | nil => exact ⟨fun _ before _ _ heq => by simp at heq, fun _ => rfl⟩
  | cons n children ih =>
    rw [characterData_cons, trimmedData_cons]
    by_cases hblank : Blank n.data
    · rw [trim_of_blank hblank, trim_of_blank ((blank_readData n).mpr hblank), ih]
      rcases node_cases n with ⟨s, rfl⟩ | ⟨hread, hne⟩
      · rw [clear_text]
        simp [show Blank s from hblank]
      · rw [clear_other hne]
        simp [hblank]
    · rcases node_cases n with ⟨s, rfl⟩ | ⟨hread, hne⟩
      · have hs : ¬ Blank s := hblank
        rw [clear_text, eq_true hs, or_true, ← stripped_iff]
        change trim (s ++ _) = trim (trimRun s ++ _) ↔ _
        simpa [hs] using trim_text hs (thinner children)
      · rw [clear_other hne, eq_true hblank, or_true, ← stripped_iff, hread,
          trim_of_not_blank hblank, trim_of_not_blank hblank]
        exact (stripped_gap blank_nil (thinner children)).trans (and_iff_right (.inl rfl))

theorem clear_false_iff (children : List Node) : Clear False children ↔ EdgesClear children := by
  unfold Clear EdgesClear
  simp only [not_false_eq_true, true_and]

/-- The text of an element is kept exactly if nothing is dropped, no reference stands in it
and its edges are clear. -/
theorem text_kept_iff (children : List Node) :
    trim (buffered children) = trim (characterData children) ↔
      NoReference children ∧ Undropped children ∧ EdgesClear children := by
  constructor
  · intro h
    have hsolid := congrArg solid h
    rw [solid_trim, solid_trim] at hsolid
    obtain ⟨hno, hkept⟩ := undropped_of_solid hsolid
    rw [trim_buffered hno hkept] at h
    exact ⟨hno, hkept, (clear_false_iff children).mp ((trim_trimmedData_iff children).mp h.symm)⟩
  · rintro ⟨hno, hkept, hclear⟩
    rw [trim_buffered hno hkept]
    exact ((trim_trimmedData_iff children).mpr ((clear_false_iff children).mpr hclear)).symm

end JustApi.Core.Xml
