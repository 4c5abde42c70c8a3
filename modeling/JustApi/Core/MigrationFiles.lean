import JustApi.Lib.Lines
import JustApi.Core.Migrations

/-! # Migration files

The two sections of a migration file. `parseContent` looks for the markers as text;
`parseLines` is the file format: a marker is a line of its own. -/
namespace JustApi.Core.Migrations
open JustApi.Lib.Text JustApi.Lib.Lines

/-! ## Marker lines -/

def isMarker (marker : String) (line : List Char) : Bool := trim line = marker.toList

/-- The text of the marker is somewhere in the line. -/
def mentions (marker : String) (line : List Char) : Bool := (findPattern marker.toList line).isSome

/-- A section without the marker line in front of it. -/
def sectionLines (marker : String) (lines : List (List Char)) : List (List Char) :=
  match lines.dropWhile isBlank with
  | [] => []
  | line :: rest => if isMarker marker line then rest else line :: rest

def lineSection (marker : String) (lines : List (List Char)) : String :=
  String.ofList (trim (joinLines (sectionLines marker lines)))

def parseLines (content : String) : String × Option String :=
  let lines := splitLines content.toList
  let up := lines.takeWhile fun line => ¬ isMarker "-- DOWN" line
  match lines.dropWhile fun line => ¬ isMarker "-- DOWN" line with
  | [] => (lineSection "-- UP" up, none)
  | _ :: down => (lineSection "-- UP" up, some (lineSection "-- DOWN" down))

def NoMarkerLines (text : String) : Prop :=
  ∀ line ∈ splitLines text.toList, ¬ isMarker "-- UP" line ∧ ¬ isMarker "-- DOWN" line

instance (text : String) : Decidable (NoMarkerLines text) :=
  inferInstanceAs (Decidable (∀ line ∈ splitLines text.toList, _))

def trimmed (text : String) : String := String.ofList (trim text.toList)

/-- A file with both sections. -/
def upDownFile (up down : String) : String := "-- UP\n" ++ up ++ "\n-- DOWN\n" ++ down

/-- The file is split at marker lines, and only there. -/
structure SplitAtMarkerLines (content : String) : Prop where
  lines : parseContent content = parseLines content
  plain : NoMarkerLines content → parseContent content = (trimmed content, none)
  sections : ∀ up down, content = upDownFile up down → NoMarkerLines up → NoMarkerLines down →
    parseContent content = (trimmed up, some (trimmed down))

/-- The marker of a section that starts with the text of one is a line of its own. -/
def StartsAsLine (marker : String) (lines : List (List Char)) : Prop :=
  ∀ line ∈ (lines.dropWhile isBlank).head?, marker.toList <+: trim line → isMarker marker line

/-- The first `-- DOWN` of the file, and what the sections start with, are lines of their
own. -/
def MarkersAreLines (content : String) : Prop :=
  let lines := splitLines content.toList
  let up := lines.takeWhile fun line => ¬ mentions "-- DOWN" line
  match lines.dropWhile fun line => ¬ mentions "-- DOWN" line with
  | [] => StartsAsLine "-- UP" up
  | line :: down =>
    isMarker "-- DOWN" line ∧ StartsAsLine "-- UP" up ∧ StartsAsLine "-- DOWN" down

/-! ## Markers -/

section Markers

variable {marker : String} {line : List Char} {lines : List (List Char)}

theorem up_isSolid : IsSolid "-- UP".toList := by decide

theorem down_isSolid : IsSolid "-- DOWN".toList := by decide

theorem newline_notMem_up : '\n' ∉ "-- UP".toList := by decide

theorem newline_notMem_down : '\n' ∉ "-- DOWN".toList := by decide

theorem isMarker_iff : isMarker marker line ↔ trim line = marker.toList := decide_eq_true_iff

theorem mentions_iff (hm : IsSolid marker.toList) : mentions marker line ↔ marker.toList <:+: line :=
  findPattern_isSome hm.1 line

theorem mentions_of_isMarker (hm : IsSolid marker.toList) (h : isMarker marker line) :
    mentions marker line := by
  rw [mentions_iff hm, ← isMarker_iff.mp h]
  exact trim_isInfix line

theorem not_isBlank_of_mentions (hm : IsSolid marker.toList) (h : mentions marker line) :
    ¬ isBlank line := by
  intro hb
  have htrim := infix_trim hm ((mentions_iff hm).mp h)
  rw [trim_blank hb] at htrim
  exact hm.1 (List.infix_nil.mp htrim)

end Markers

/-! ## Sections -/

section Sections

variable {marker : String}

theorem sectionText_congr {cs cs' : List Char} (h : trim cs = trim cs') :
    sectionText marker cs = sectionText marker cs' := by
  rw [sectionText, sectionText, h]

/-- The section of the lines starts at the first that is not blank. -/
theorem sectionLines_dropWhile (lines : List (List Char)) :
    sectionLines marker (lines.dropWhile isBlank) = sectionLines marker lines := by
  rw [sectionLines, sectionLines, List.dropWhile_idempotent]

/-- A section that does not start with the marker is trimmed. -/
theorem sectionText_of_not {cs : List Char} (h : ¬ marker.toList <+: trim cs) :
    sectionText marker cs = String.ofList (trim cs) := by
  simp only [sectionText, trimStartMatches_of_not h, trim_trim]

/-- A section that starts with the marker loses it, and no more than that if white space
comes next. -/
theorem sectionText_append (hm : IsSolid marker.toList) {cs rest : List Char}
    (h : trim cs = marker.toList ++ rest) (hrest : ¬ marker.toList <+: rest) :
    sectionText marker cs = String.ofList (trim rest) := by
  obtain ⟨fuel, hfuel⟩ : ∃ fuel, (trim cs).length = fuel + 1 := by
    refine Nat.exists_eq_add_one.mpr ?_
    rw [h, List.length_append]
    have := List.length_pos_iff.mpr hm.1
    omega
  simp only [sectionText]
  rw [hfuel, h, trimStartMatches_append, trimStartMatches_of_not hrest]

theorem sectionText_length_lt (hm : IsSolid marker.toList) {cs : List Char}
    (h : marker.toList <+: trim cs) : (sectionText marker cs).toList.length < (trim cs).length := by
  obtain ⟨rest, hrest⟩ := h
  have hpos := List.length_pos_iff.mpr hm.1
  have hlen := congrArg List.length hrest
  rw [List.length_append] at hlen
  obtain ⟨fuel, hfuel⟩ : ∃ fuel, (trim cs).length = fuel + 1 := Nat.exists_eq_add_one.mpr (by omega)
  simp only [sectionText, String.toList_ofList]
  rw [hfuel, ← hrest, trimStartMatches_append]
  have htrim := length_trim_le (trimStartMatches marker.toList fuel rest)
  have hsuffix := (trimStartMatches_suffix marker.toList fuel rest).length_le
  omega

/-- The text and the lines give the same section unless it starts with the text of the
marker in a line with more in it. -/
theorem sectionText_eq_iff (hm : IsSolid marker.toList) (hn : '\n' ∉ marker.toList)
    (lines : List (List Char)) :
    sectionText marker (joinLines lines) = lineSection marker lines ↔ StartsAsLine marker lines := by
  rw [sectionText_congr (trim_joinLines_dropWhile lines).symm, lineSection, ← sectionLines_dropWhile,
    StartsAsLine]
  cases hdrop : lines.dropWhile isBlank with
  | nil =>
    refine iff_of_true ?_ (by intro line hline; cases hline)
    exact sectionText_of_not (fun hp => hm.1 (List.prefix_nil.mp hp))
  | cons line rest =>
    have hline : ¬ isBlank line := by
      have hhead := List.head?_dropWhile_not isBlank lines
      rw [hdrop] at hhead
      simpa using hhead
    have hlines : sectionLines marker (line :: rest) =
        if isMarker marker line then rest else line :: rest := by
      rw [sectionLines, List.dropWhile_cons_of_neg hline]
    have hstart := prefix_trim_joinLines hm hn hline rest
    rw [hlines]
    by_cases hp : marker.toList <+: trim line
    · by_cases hmark : isMarker marker line
      · refine iff_of_true ?_ (by intro l hl _; cases hl; exact hmark)
        obtain ⟨next, hnext, hnot, htrim⟩ := trim_joinLines_solid hm (isMarker_iff.mp hmark) rest
        rw [if_pos hmark, sectionText_append hm hnext hnot, htrim]
      · rw [if_neg hmark]
        refine iff_of_false (fun he => ?_) (fun h => hmark (h line rfl hp))
        have hlt := sectionText_length_lt hm (hstart.mpr hp)
        rw [he, String.toList_ofList] at hlt
        exact lt_irrefl _ hlt
    · have hmark : ¬ isMarker marker line := fun h => hp (by rw [isMarker_iff.mp h])
      rw [if_neg hmark]
      refine iff_of_true ?_ (by intro l hl hpl; cases hl; exact absurd hpl hp)
      exact sectionText_of_not (fun h => hp (hstart.mp h))

theorem sectionText_isInfix (marker : String) (cs : List Char) :
    (sectionText marker cs).toList <:+: cs := by
  simp only [sectionText, String.toList_ofList]
  exact ((trim_isInfix _).trans (trimStartMatches_suffix _ _ _).isInfix).trans (trim_isInfix cs)

theorem mem_sectionLines {lines : List (List Char)} {line : List Char} (hmem : line ∈ lines)
    (hblank : ¬ isBlank line) (hmark : ¬ isMarker marker line) : line ∈ sectionLines marker lines := by
  have hdrop : line ∈ lines.dropWhile isBlank := by
    rw [← List.takeWhile_append_dropWhile (p := isBlank) (l := lines), List.mem_append] at hmem
    exact hmem.resolve_left fun htake => hblank (List.mem_takeWhile_imp htake)
  unfold sectionLines
  cases hlines : lines.dropWhile isBlank with
  | nil =>
    rw [hlines] at hdrop
    cases hdrop
  | cons first rest =>
    rw [hlines] at hdrop
    change line ∈ if isMarker marker first then rest else first :: rest
    split
    · rename_i hfirst
      rcases List.mem_cons.mp hdrop with rfl | hrest
      · exact absurd hfirst hmark
      · exact hrest
    · exact hdrop

theorem toList_lineSection (marker : String) (lines : List (List Char)) :
    (lineSection marker lines).toList = trim (joinLines (sectionLines marker lines)) :=
  String.toList_ofList

theorem lineSection_plain {lines : List (List Char)} (h : ∀ line ∈ lines, ¬ isMarker marker line) :
    lineSection marker lines = String.ofList (trim (joinLines lines)) := by
  have hlines : sectionLines marker lines = lines.dropWhile isBlank := by
    unfold sectionLines
    cases hdrop : lines.dropWhile isBlank with
    | nil => rfl
    | cons first rest =>
      have hfirst : first ∈ lines :=
        (List.dropWhile_suffix isBlank).subset (hdrop ▸ List.mem_cons_self)
      exact if_neg (h first hfirst)
  rw [lineSection, hlines, trim_joinLines_dropWhile]

theorem lineSection_marker (hm : IsSolid marker.toList) (lines : List (List Char)) :
    lineSection marker (marker.toList :: lines) = String.ofList (trim (joinLines lines)) := by
  have hself : isMarker marker marker.toList := isMarker_iff.mpr (trim_solid hm)
  rw [lineSection, sectionLines, List.dropWhile_cons_of_neg
    (not_isBlank_of_mentions hm (mentions_of_isMarker hm hself))]
  exact congrArg (fun lines => String.ofList (trim (joinLines lines))) (if_pos hself)

end Sections

/-! ## Files -/

section Files

variable {content : String} {before after : List (List Char)} {line : List Char}

theorem parseContent_unmarked
    (h : ∀ line ∈ splitLines content.toList, ¬ mentions "-- DOWN" line) :
    parseContent content = (sectionText "-- UP" (joinLines (splitLines content.toList)), none) := by
  have hnone : findPattern "-- DOWN".toList content.toList = none := by
    rw [← joinLines_splitLines content.toList]
    exact findPattern_joinLines_none down_isSolid.1 newline_notMem_down
      fun line hline hin => h line hline ((mentions_iff down_isSolid).mpr hin)
  rw [parseContent, hnone, joinLines_splitLines]

/-- The file is cut in the first line that has the marker's text in it. -/
theorem parseContent_marked (hlines : splitLines content.toList = before ++ line :: after)
    (hbefore : ∀ l ∈ before, ¬ mentions "-- DOWN" l) (hline : mentions "-- DOWN" line) :
    ∃ a b, line = a ++ ("-- DOWN".toList ++ b) ∧
      ¬ "-- DOWN".toList <:+: joinLines (before ++ [a]) ∧
      parseContent content = (sectionText "-- UP" (joinLines (before ++ [a])),
        some (sectionText "-- DOWN" (joinLines (b :: after)))) := by
  obtain ⟨⟨a, rest⟩, hfound⟩ := Option.isSome_iff_exists.mp hline
  obtain ⟨hsplit, b, hrest⟩ := findPattern_some hfound
  have hjoined := findPattern_joinLines_some down_isSolid.1 newline_notMem_down
    (fun l hl hin => hbefore l hl ((mentions_iff down_isSolid).mpr hin)) hfound after
  rw [← hlines, joinLines_splitLines] at hjoined
  refine ⟨a, b, by rw [hsplit, hrest], findPattern_first down_isSolid.1 hjoined, ?_⟩
  obtain ⟨next, hnext, -⟩ := joinLines_cons_eq after
  rw [parseContent, hjoined, hnext, hnext, ← hrest, List.append_assoc]
  rfl

theorem parseLines_fst (content : String) :
    (parseLines content).1 = lineSection "-- UP"
      ((splitLines content.toList).takeWhile fun line => ¬ isMarker "-- DOWN" line) := by
  rw [parseLines]
  split <;> rfl

theorem parseLines_unmarked
    (h : ∀ line ∈ splitLines content.toList, ¬ isMarker "-- DOWN" line) :
    parseLines content = (lineSection "-- UP" (splitLines content.toList), none) := by
  have hall : ∀ line ∈ splitLines content.toList, decide (¬ isMarker "-- DOWN" line) := by
    simpa using h
  simp only [parseLines, List.dropWhile_eq_nil_iff.mpr hall, List.takeWhile_eq_self_iff.mpr hall]

theorem parseLines_marked (hlines : splitLines content.toList = before ++ line :: after)
    (hbefore : ∀ l ∈ before, ¬ isMarker "-- DOWN" l) (hline : isMarker "-- DOWN" line) :
    parseLines content = (lineSection "-- UP" before, some (lineSection "-- DOWN" after)) := by
  obtain ⟨htake, hdrop⟩ := takeWhile_dropWhile_split
    (p := fun line => ¬ isMarker "-- DOWN" line) after
    (by simpa using hbefore) (by simpa using hline)
  simp only [parseLines, hlines, htake, hdrop]

theorem markersAreLines_unmarked
    (h : ∀ line ∈ splitLines content.toList, ¬ mentions "-- DOWN" line) :
    MarkersAreLines content ↔ StartsAsLine "-- UP" (splitLines content.toList) := by
  have hall : ∀ line ∈ splitLines content.toList, decide (¬ mentions "-- DOWN" line) := by
    simpa using h
  simp only [MarkersAreLines, List.dropWhile_eq_nil_iff.mpr hall,
    List.takeWhile_eq_self_iff.mpr hall]

theorem markersAreLines_marked (hlines : splitLines content.toList = before ++ line :: after)
    (hbefore : ∀ l ∈ before, ¬ mentions "-- DOWN" l) (hline : mentions "-- DOWN" line) :
    MarkersAreLines content ↔
      isMarker "-- DOWN" line ∧ StartsAsLine "-- UP" before ∧ StartsAsLine "-- DOWN" after := by
  obtain ⟨htake, hdrop⟩ := takeWhile_dropWhile_split
    (p := fun line => ¬ mentions "-- DOWN" line) after
    (by simpa using hbefore) (by simpa using hline)
  simp only [MarkersAreLines, hlines, htake, hdrop]

/-- A marker's text inside a line before the marker line stays in the section of the lines. -/
theorem infix_parseLines (hlines : splitLines content.toList = before ++ line :: after)
    (hbefore : ∀ l ∈ before, ¬ mentions "-- DOWN" l) (hline : mentions "-- DOWN" line)
    (hmark : ¬ isMarker "-- DOWN" line) :
    "-- DOWN".toList <:+: (parseLines content).1.toList := by
  have hin := (mentions_iff down_isSolid).mp hline
  have hup : ¬ isMarker "-- UP" line := by
    intro hup
    have htrim := infix_trim down_isSolid hin
    rw [isMarker_iff.mp hup] at htrim
    exact absurd htrim.length_le (by decide)
  have hmem : line ∈ (splitLines content.toList).takeWhile fun line => ¬ isMarker "-- DOWN" line := by
    rw [hlines, List.takeWhile_append_of_pos, List.takeWhile_cons_of_pos (by simpa using hmark)]
    · simp
    · intro l hl
      have := fun h => hbefore l hl (mentions_of_isMarker down_isSolid h)
      simpa using this
  have hlineIn := infix_joinLines
    (mem_sectionLines hmem (not_isBlank_of_mentions down_isSolid hline) hup)
  have hsection := infix_trim down_isSolid (hin.trans hlineIn)
  rw [parseLines_fst, toList_lineSection]
  exact hsection

theorem parseContent_eq_parseLines_iff (content : String) :
    parseContent content = parseLines content ↔ MarkersAreLines content := by
  cases hfind : (splitLines content.toList).find? (mentions "-- DOWN") with
  | none =>
    have hno : ∀ line ∈ splitLines content.toList, ¬ mentions "-- DOWN" line :=
      List.find?_eq_none.mp hfind
    have hnoMark : ∀ line ∈ splitLines content.toList, ¬ isMarker "-- DOWN" line :=
      fun line hline h => hno line hline (mentions_of_isMarker down_isSolid h)
    rw [parseContent_unmarked hno, parseLines_unmarked hnoMark, markersAreLines_unmarked hno,
      Prod.mk_inj, and_iff_left rfl]
    exact sectionText_eq_iff up_isSolid newline_notMem_up _
  | some line =>
    obtain ⟨hline, before, after, hlines, hbefore⟩ := List.find?_eq_some_iff_append.mp hfind
    have hbefore : ∀ l ∈ before, ¬ mentions "-- DOWN" l := by simpa using hbefore
    obtain ⟨a, b, hsplit, hnot, hcontent⟩ := parseContent_marked hlines hbefore hline
    rw [markersAreLines_marked hlines hbefore hline]
    by_cases hmark : isMarker "-- DOWN" line
    · have hblank : isBlank a ∧ isBlank b := by
        rw [← trim_eq_iff_blank down_isSolid, ← hsplit]
        exact isMarker_iff.mp hmark
      rw [hcontent, parseLines_marked hlines
        (fun l hl h => hbefore l hl (mentions_of_isMarker down_isSolid h)) hmark,
        sectionText_congr (trim_joinLines_concat_blank hblank.1 before),
        sectionText_congr (trim_joinLines_blank_cons hblank.2 after), Prod.mk_inj, Option.some_inj,
        sectionText_eq_iff up_isSolid newline_notMem_up,
        sectionText_eq_iff down_isSolid newline_notMem_down, and_iff_right hmark]
    · refine iff_of_false (fun he => ?_) (fun h => hmark h.1)
      have hin := infix_parseLines hlines hbefore hline hmark
      rw [← he, hcontent] at hin
      exact hnot (hin.trans (sectionText_isInfix _ _))

theorem parseLines_plain (h : NoMarkerLines content) :
    parseLines content = (trimmed content, none) := by
  rw [parseLines_unmarked fun line hline => (h line hline).2,
    lineSection_plain fun line hline => (h line hline).1, joinLines_splitLines]
  rfl

theorem splitLines_upDownFile (up down : String) :
    splitLines (upDownFile up down).toList =
      ("-- UP".toList :: splitLines up.toList) ++
        "-- DOWN".toList :: splitLines down.toList := by
  have hchars : (upDownFile up down).toList =
      "-- UP".toList ++ '\n' :: (up.toList ++ '\n' :: ("-- DOWN".toList ++ '\n' :: down.toList)) := by
    simp [upDownFile]
  have hlines : ∀ marker : String, '\n' ∉ marker.toList →
      splitLines marker.toList = [marker.toList] :=
    fun marker h => List.splitOn_eq_singleton h
  rw [hchars, splitLines, List.splitOn_append_cons_self, List.splitOn_append_cons_self,
    List.splitOn_append_cons_self, ← splitLines, ← splitLines, ← splitLines, ← splitLines,
    hlines "-- UP" newline_notMem_up, hlines "-- DOWN" newline_notMem_down]
  rfl

theorem parseLines_upDownFile {up down : String} (hup : NoMarkerLines up)
    (hdown : NoMarkerLines down) :
    parseLines (upDownFile up down) = (trimmed up, some (trimmed down)) := by
  rw [parseLines_marked (splitLines_upDownFile up down) ?_ (by decide),
    lineSection_marker up_isSolid, lineSection_plain fun line hline => (hdown line hline).2,
    joinLines_splitLines, joinLines_splitLines]
  · rfl
  · intro l hl
    rcases List.mem_cons.mp hl with rfl | hl
    · decide
    · exact (hup l hl).2

/-- **Migration files.** A file is split at its marker lines, and only there, if the texts
the parser takes for markers are lines of their own. -/
theorem split_at_marker_lines_iff (content : String) :
    SplitAtMarkerLines content ↔ MarkersAreLines content := by
  rw [← parseContent_eq_parseLines_iff]
  constructor
  · exact SplitAtMarkerLines.lines
  · intro h
    refine ⟨h, fun hno => h.trans (parseLines_plain hno), ?_⟩
    intro up down he hup hdown
    subst he
    exact h.trans (parseLines_upDownFile hup hdown)

/-- A comment that starts like a marker. -/
theorem leading_comment_cut :
    ¬ SplitAtMarkerLines "-- UPDATE the roles\nUPDATE roles SET name = 'admin';" := by
  intro h
  have hno : NoMarkerLines "-- UPDATE the roles\nUPDATE roles SET name = 'admin';" := by decide
  exact absurd (h.plain hno) (by decide)

end Files

end JustApi.Core.Migrations
