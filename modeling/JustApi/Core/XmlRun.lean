import Mathlib.Data.List.Induction
import JustApi.Core.Xml

/-! # What the conversion computes

The loop over the events of a tree, as a recursion over the tree: the value of the
mapping, but with texts and attributes as the loop reads them. -/
namespace JustApi.Core.Xml
open JustApi.Lib JustApi.Lib.Text
open JustApi.Core.Crud (Value)

/-! ## Objects -/

/-- Children are inserted one after another. -/
def addMembers (obj : List (String × Value)) (members : List (String × Value)) :
    List (String × Value) :=
  members.foldl (fun obj m => insertMember obj m.1 m.2) obj

theorem tagged_concat (members : List (String × Value)) (m : String × Value) (tag : String) :
    tagged (members ++ [m]) tag =
      if m.1 = tag then tagged members tag ++ [m.2] else tagged members tag := by
  unfold tagged
  by_cases h : m.1 = tag <;> simp [h]

theorem tagged_eq_nil {members : List (String × Value)} {tag : String} :
    tagged members tag = [] ↔ ∀ m ∈ members, m.1 ≠ tag := by
  simp [tagged]

theorem mem_of_mem_tagged {members : List (String × Value)} {tag : String} {value : Value}
    (h : value ∈ tagged members tag) : (tag, value) ∈ members := by
  simpa [tagged] using h

theorem sorted_insertMember {obj : List (String × Value)} (h : SortedMap.Sorted obj)
    (key : String) (value : Value) : SortedMap.Sorted (insertMember obj key value) := by
  unfold insertMember
  split
  · exact SortedMap.sorted_insert (SortedMap.sorted_remove h key) _ _
  · exact SortedMap.sorted_insert h _ _

theorem get_insertMember_ne (obj : List (String × Value)) {key key' : String} (h : key ≠ key')
    (value : Value) : SortedMap.get (insertMember obj key value) key' = SortedMap.get obj key' := by
  unfold insertMember
  split
  · dsimp only
    rw [SortedMap.get_insert, if_neg h, SortedMap.get_remove, if_neg h]
  · rw [SortedMap.get_insert, if_neg h]

theorem get_insertMember_self (obj : List (String × Value)) (key : String) (value : Value) :
    SortedMap.get (insertMember obj key value) key =
      match SortedMap.get obj key with
      | some (.array items) => some (.array (items ++ [value]))
      | some other => some (.array [other, value])
      | none => some value := by
  unfold insertMember
  cases hget : SortedMap.get obj key with
  | none => rw [SortedMap.get_insert, if_pos rfl]
  | some existing =>
    dsimp only
    rw [SortedMap.get_insert, if_pos rfl]
    cases existing <;> rfl

/-- A value that is not an array, as those of elements are. -/
def Plain (value : Value) : Prop := ∀ items, value ≠ .array items

theorem collected_concat {values : List Value} (hplain : ∀ v ∈ values, Plain v)
    (hne : values ≠ []) (value : Value) :
    some (collected (values ++ [value])) =
      match some (collected values) with
      | some (.array items) => some (.array (items ++ [value]))
      | some other => some (.array [other, value])
      | none => some value := by
  cases values with
  | nil => exact absurd rfl hne
  | cons v rest =>
    cases rest with
    | cons w rest => rfl
    | nil =>
      have hv := hplain v (List.mem_singleton_self v)
      show some (Value.array [v, value]) = _
      unfold collected
      cases v with
      | array items => exact absurd rfl (hv items)
      | _ => rfl

theorem sorted_addMembers {obj : List (String × Value)} (h : SortedMap.Sorted obj)
    (members : List (String × Value)) : SortedMap.Sorted (addMembers obj members) := by
  induction members generalizing obj with
  | nil => exact h
  | cons m members ih => exact ih (sorted_insertMember h m.1 m.2)

theorem get_addMembers_ne (obj : List (String × Value)) {members : List (String × Value)}
    {key : String} (h : ∀ m ∈ members, m.1 ≠ key) :
    SortedMap.get (addMembers obj members) key = SortedMap.get obj key := by
  induction members generalizing obj with
  | nil => rfl
  | cons m members ih =>
    have hm := h m List.mem_cons_self
    rw [addMembers, List.foldl_cons]
    exact (ih _ fun m' hm' => h m' (List.mem_cons_of_mem _ hm')).trans
      (get_insertMember_ne obj hm m.2)

/-- What is under a tag. -/
def shared (members : List (String × Value)) (tag : String) : Option Value :=
  if tagged members tag = [] then none else some (collected (tagged members tag))

theorem get_addMembers {obj : List (String × Value)} {members : List (String × Value)}
    (hplain : ∀ m ∈ members, Plain m.2) {key : String} (hobj : SortedMap.get obj key = none) :
    SortedMap.get (addMembers obj members) key = shared members key := by
  induction members using List.reverseRecOn with
  | nil => exact hobj
  | append_singleton members m ih =>
    have ih := ih fun m' hm' => hplain m' (List.mem_append_left _ hm')
    rw [addMembers, List.foldl_concat]
    change SortedMap.get (insertMember (addMembers obj members) m.1 m.2) key = _
    unfold shared
    rw [tagged_concat]
    by_cases hm : m.1 = key
    · subst hm
      rw [get_insertMember_self, ih, if_pos rfl, if_neg (by simp)]
      unfold shared
      by_cases hnil : tagged members m.1 = []
      · rw [if_pos hnil, hnil]
        rfl
      · rw [if_neg hnil]
        refine (collected_concat (fun v hv => ?_) hnil m.2).symm
        exact hplain _ (List.mem_append_left _ (mem_of_mem_tagged hv))
    · rw [get_insertMember_ne _ hm, ih, if_neg hm]
      rfl

theorem get_map_key {keys : List String} {f : String → Value} (key : String) :
    SortedMap.get (keys.map fun k => (k, f k)) key = if key ∈ keys then some (f key) else none := by
  induction keys with
  | nil => rfl
  | cons k keys ih =>
    rw [List.map_cons, SortedMap.get_cons, ih]
    dsimp only
    by_cases h : k = key
    · subst h
      simp
    · simp [h, Ne.symm h]

theorem get_grouped (members : List (String × Value)) (key : String) :
    SortedMap.get (grouped members) key = shared members key := by
  unfold grouped shared
  rw [get_map_key]
  by_cases h : tagged members key = []
  · have hnot : key ∉ (members.map Prod.fst).dedup := by
      simpa using fun value hmem => tagged_eq_nil.mp h (key, value) hmem rfl
    rw [if_neg hnot, if_pos h]
  · have hmem : key ∈ (members.map Prod.fst).dedup := by
      by_contra hnot
      refine h (tagged_eq_nil.mpr fun m hm he => hnot ?_)
      exact List.mem_dedup.mpr (List.mem_map.mpr ⟨m, hm, he⟩)
    rw [if_pos hmem, if_neg h]

/-! ## One element -/

section Elements

variable {coerce : String → Value}

theorem get_foldl_insert (entries : List (String × Value)) (hnodup : (entries.map Prod.fst).Nodup)
    (obj : List (String × Value)) (key : String) :
    SortedMap.get (entries.foldl (fun obj e => SortedMap.insert e.1 e.2 obj) obj) key =
      (SortedMap.get entries key).or (SortedMap.get obj key) := by
  induction entries generalizing obj with
  | nil => rfl
  | cons e entries ih =>
    obtain ⟨hnot, hrest⟩ := List.nodup_cons.mp hnodup
    rw [List.foldl_cons, ih hrest, SortedMap.get_insert, SortedMap.get_cons]
    by_cases hkey : e.1 = key
    · subst hkey
      simp [SortedMap.get_of_not_mem hnot]
    · rw [if_neg hkey, if_neg hkey]

/-- The entries of the attributes. -/
def entries (coerce : String → Value) (attributes : List (String × String)) :
    List (String × Value) := attributes.map fun a => ("@" ++ a.1, coerce a.2)

theorem get_captured {attributes : List (String × String)}
    (hnodup : (attributes.map Prod.fst).Nodup) (key : String) :
    SortedMap.get (captured coerce attributes) key =
      SortedMap.get (entries coerce attributes) key := by
  have hkeys : ((entries coerce attributes).map Prod.fst).Nodup := by
    rw [entries, List.map_map]
    have hcomp : (Prod.fst ∘ fun a : String × String => ("@" ++ a.1, coerce a.2)) =
        ("@" ++ ·) ∘ Prod.fst := rfl
    rw [hcomp, ← List.map_map]
    exact hnodup.map fun s s' h => by simpa using h
  have hfold := get_foldl_insert (entries coerce attributes) hkeys [] key
  rw [SortedMap.get_nil, Option.or_none] at hfold
  rw [← hfold, entries, List.foldl_map]
  rfl

theorem sorted_captured (coerce : String → Value) (attributes : List (String × String)) :
    SortedMap.Sorted (captured coerce attributes) := by
  unfold captured
  generalize hobj : ([] : List (String × Value)) = obj
  have hsorted : SortedMap.Sorted obj := hobj ▸ List.Pairwise.nil
  clear hobj
  induction attributes generalizing obj with
  | nil => exact hsorted
  | cons a attributes ih => exact ih _ (SortedMap.sorted_insert hsorted _ _)

/-- A tag is no key of an attribute. -/
theorem IsTag.ne_attribute {tag : String} (h : IsTag tag) (name : String) : "@" ++ name ≠ tag := by
  rintro rfl
  simp [IsTag, isNameStart] at h

theorem IsTag.ne_text {tag : String} (h : IsTag tag) : tag ≠ "#text" := by
  rintro rfl
  revert h
  unfold IsTag
  decide

theorem get_entries_eq_none (coerce : String → Value) (attributes : List (String × String))
    {key : String}
    (h : ∀ name, "@" ++ name ≠ key) : SortedMap.get (entries coerce attributes) key = none := by
  refine SortedMap.get_eq_none.mpr fun e hmem => ?_
  obtain ⟨a, -, rfl⟩ := List.mem_map.mp hmem
  exact h a.1

theorem get_entries_text (attributes : List (String × String)) :
    SortedMap.get (entries coerce attributes) "#text" = none := by
  refine get_entries_eq_none coerce attributes fun name h => ?_
  have hhead := congrArg (fun s : String => s.toList.head?) h
  simp at hhead

theorem get_withText (obj : List (String × Value)) (text key : String) :
    SortedMap.get (withText coerce obj text) key =
      (SortedMap.get (if text.isEmpty then [] else [("#text", coerce text)]) key).or
        (SortedMap.get obj key) := by
  unfold withText
  split
  · rfl
  · rw [SortedMap.get_insert, SortedMap.get_cons]
    dsimp only
    split <;> rfl

theorem closed_of_get {obj : List (String × Value)} {key : String} {value : Value}
    (hget : SortedMap.get obj key = some value) (hkey : key ≠ "#text") :
    closed obj = .object obj := by
  unfold closed
  have hmem := SortedMap.mem_of_get hget
  rw [if_neg (by simpa using List.ne_nil_of_mem hmem)]
  cases htext : SortedMap.get obj "#text" with
  | none => rfl
  | some text =>
    dsimp only
    rw [if_neg]
    intro hlen
    obtain ⟨e, rfl⟩ := List.length_eq_one_iff.mp hlen
    have he := List.mem_singleton.mp hmem
    have he' := List.mem_singleton.mp (SortedMap.mem_of_get htext)
    exact hkey (congrArg Prod.fst (he.trans he'.symm))

theorem get_element (coerce : String → Value) {attributes : List (String × String)}
    (hnodup : (attributes.map Prod.fst).Nodup) {members : List (String × Value)}
    (htags : ∀ m ∈ members, IsTag m.1) (hplain : ∀ m ∈ members, Plain m.2) (text key : String) :
    SortedMap.get (withText coerce (addMembers (captured coerce attributes) members) text) key =
      SortedMap.get (entries coerce attributes ++ grouped members ++
        if text.isEmpty then [] else [("#text", coerce text)]) key := by
  rw [get_withText, SortedMap.get_append, SortedMap.get_append, get_grouped]
  by_cases hkey : key = "#text"
  · subst hkey
    have hfree : ∀ m ∈ members, m.1 ≠ "#text" := fun m hm => (htags m hm).ne_text
    rw [get_addMembers_ne _ hfree, get_captured hnodup, get_entries_text]
    unfold shared
    rw [if_pos (tagged_eq_nil.mpr hfree)]
    simp
  · have htext : SortedMap.get (if text.isEmpty then [] else [("#text", coerce text)]) key =
        none := by
      split
      · rfl
      · rw [SortedMap.get_cons, if_neg (Ne.symm hkey), SortedMap.get_nil]
    rw [htext, Option.none_or, Option.or_none]
    by_cases htag : ∃ m ∈ members, m.1 = key
    · obtain ⟨m, hm, rfl⟩ := htag
      have hattr := get_entries_eq_none coerce attributes (htags m hm).ne_attribute
      rw [get_addMembers hplain ((get_captured hnodup _).trans hattr), hattr, Option.none_or]
    · have hfree : ∀ m ∈ members, m.1 ≠ key := fun m hm he => htag ⟨m, hm, he⟩
      rw [get_addMembers_ne _ hfree, get_captured hnodup]
      unfold shared
      rw [if_pos (tagged_eq_nil.mpr hfree), Option.or_none]

theorem sorted_element (attributes : List (String × String)) (members : List (String × Value))
    (text : String) : SortedMap.Sorted
      (withText coerce (addMembers (captured coerce attributes) members) text) := by
  have hmembers := sorted_addMembers (sorted_captured coerce attributes) members
  unfold withText
  split
  · exact hmembers
  · exact SortedMap.sorted_insert hmembers _ _

/-- An attribute or a child keeps the text from being all there is. -/
theorem exists_entry (coerce : String → Value) {attributes : List (String × String)}
    {members : List (String × Value)}
    (h : ¬ (attributes.isEmpty ∧ members.isEmpty)) (htags : ∀ m ∈ members, IsTag m.1) :
    ∃ e ∈ entries coerce attributes ++ grouped members, e.1 ≠ "#text" := by
  cases attributes with
  | cons a attributes =>
    refine ⟨("@" ++ a.1, coerce a.2), List.mem_append_left _ List.mem_cons_self, fun he => ?_⟩
    have hhead := congrArg (fun s : String => s.toList.head?) he
    simp at hhead
  | nil =>
    cases members with
    | nil => exact absurd ⟨rfl, rfl⟩ h
    | cons m members =>
      have hkey : m.1 ∈ ((m :: members).map Prod.fst).dedup := List.mem_dedup.mpr List.mem_cons_self
      exact ⟨_, List.mem_append_right _ (List.mem_map_of_mem hkey),
        (htags m List.mem_cons_self).ne_text⟩

/-- What the loop has of an element when it closes is the value of the mapping, for the
attributes, the text and the children that it has read. -/
theorem closed_eq_content {attributes : List (String × String)}
    (hnodup : (attributes.map Prod.fst).Nodup) {members : List (String × Value)}
    (htags : ∀ m ∈ members, IsTag m.1) (hplain : ∀ m ∈ members, Plain m.2) (text : String) :
    closed (withText coerce (addMembers (captured coerce attributes) members) text) =
      content coerce attributes text members := by
  unfold content
  by_cases hnone : attributes.isEmpty ∧ members.isEmpty
  · obtain ⟨rfl, rfl⟩ : attributes = [] ∧ members = [] := by simpa using hnone
    rw [if_pos hnone]
    unfold withText
    split
    · rfl
    · rfl
  · rw [if_neg hnone]
    have hget := get_element coerce hnodup htags hplain text
    obtain ⟨e, hmem, hne⟩ := exists_entry coerce hnone htags
    have hsome : SortedMap.get (withText coerce (addMembers (captured coerce attributes) members)
        text) e.1 ≠ none := by
      rw [hget]
      exact fun hnone => SortedMap.get_eq_none.mp hnone e (List.mem_append_left _ hmem) rfl
    obtain ⟨value, hvalue⟩ := Option.ne_none_iff_exists'.mp hsome
    rw [closed_of_get hvalue hne]
    refine congrArg Value.object (SortedMap.Sorted.ext (sorted_element _ _ _)
      (SortedMap.sorted_ofList _) fun key => ?_)
    rw [hget, SortedMap.get_ofList]
    rfl

end Elements

/-! ## The loop -/

/-- What a node does to the pending text. -/
def bufferStep (buf : List Char) : Node → List Char
  | .element _ _ _ => []
  | .selfClosing _ _ => buf
  | .text s => buf ++ trimRun s
  | .cdata s => buf ++ s
  | .reference e => buf ++ e.name

/-- The pending text at the end of a content. -/
def buffered (children : List Node) : List Char := children.foldl bufferStep []

/-- How the loop reads attributes and texts. -/
def asRead : Reading := ⟨raw, fun children => String.ofList (trim (buffered children))⟩

section Loop

variable {coerce : String → Value} {unescape : List Char → Option (List Char)}

theorem content_plain (hplain : ∀ s, Plain (coerce s)) (attributes : List (String × String))
    (text : String) (members : List (String × Value)) :
    Plain (content coerce attributes text members) := by
  intro items
  unfold content
  split
  · split
    · exact Value.noConfusion
    · exact hplain text items
  · exact Value.noConfusion

theorem value_plain (hplain : ∀ s, Plain (coerce s)) (r : Reading) (n : Node) :
    Plain (n.value coerce r) := by
  cases n with
  | element name attributes children => exact content_plain hplain _ _ _
  | selfClosing name attributes => exact content_plain hplain _ _ _
  | text s => exact fun _ => Value.noConfusion
  | cdata s => exact fun _ => Value.noConfusion
  | reference e => exact fun _ => Value.noConfusion

theorem members_plain (hplain : ∀ s, Plain (coerce s)) (r : Reading) (children : List Node) :
    ∀ m ∈ Node.members coerce r children, Plain m.2 := by
  induction children with
  | nil => exact fun _ h => absurd h List.not_mem_nil
  | cons n children ih =>
    unfold Node.members
    split
    · intro m hm
      rcases List.mem_cons.mp hm with rfl | hm
      · exact value_plain hplain r n
      · exact ih m hm
    · exact ih

theorem members_tags (r : Reading) {children : List Node}
    (hproper : Node.EverywhereIn Proper children) :
    ∀ m ∈ Node.members coerce r children, IsTag m.1 := by
  induction children with
  | nil => exact fun _ h => absurd h List.not_mem_nil
  | cons n children ih =>
    obtain ⟨hn, hrest⟩ := hproper
    unfold Node.members
    split
    case h_1 tag htag =>
      intro m hm
      rcases List.mem_cons.mp hm with rfl | hm
      · cases n with
        | element name attributes children =>
          cases htag
          exact hn.1.1
        | selfClosing name attributes =>
          cases htag
          exact hn.1
        | _ => cases htag
      · exact ih hrest m hm
    case h_2 => exact ih hrest

/-- A frame with some more children. -/
def Frame.with (frame : Frame) (members : List (String × Value)) : Frame :=
  { frame with obj := addMembers frame.obj members }

theorem Frame.with_cons (frame : Frame) (n : Node) (children : List Node) :
    frame.with (Node.members coerce asRead (n :: children)) =
      (frame.with (Node.members coerce asRead [n])).with (Node.members coerce asRead children) := by
  unfold Frame.with addMembers
  cases h : n.tag <;> simp [Node.members, h]

theorem mem_of_mem_trimRun {c : Char} {s : List Char} (h : c ∈ trimRun s) : c ∈ s := by
  unfold trimRun at h
  have hmem := (List.dropWhile_sublist _).mem (List.mem_reverse.mp h)
  exact (List.dropWhile_sublist _).mem (List.mem_reverse.mp hmem)

theorem written_names (attributes : List Attribute) :
    (written attributes).map Prod.fst = attributes.map Attribute.name := by
  simp [written]

theorem empty_eq_content {attributes : List (String × String)}
    (hnodup : (attributes.map Prod.fst).Nodup) :
    (if (captured coerce attributes).isEmpty then .null
      else .object (captured coerce attributes)) = content coerce attributes "" [] := by
  have hnone : ∀ m ∈ ([] : List (String × Value)), IsTag m.1 ∧ Plain m.2 :=
    fun _ h => absurd h List.not_mem_nil
  rw [← closed_eq_content hnodup (fun m hm => (hnone m hm).1) fun m hm => (hnone m hm).2]
  show _ = closed (captured coerce attributes)
  unfold closed
  rw [get_captured hnodup, get_entries_text]

mutual

/-- The events of a node put it into the innermost open element. -/
theorem convert_node (hplain : ∀ s, Plain (coerce s))
    (hunescape : ∀ s, '&' ∉ s → unescape s = some s) :
    (n : Node) → n.Everywhere Proper → (∀ s, n = .text s → '&' ∉ s) →
      ∀ top rest buf tail, convert coerce unescape ⟨top :: rest, buf⟩ (n.events ++ tail) =
        convert coerce unescape
          ⟨top.with (Node.members coerce asRead [n]) :: rest, bufferStep buf n⟩ tail
  | .element name attributes children, hproper, _ => by
    intro top rest buf tail
    obtain ⟨⟨htag, hnodup, htexts⟩, hchildren⟩ := hproper
    rw [← written_names] at hnodup
    change convert coerce unescape
      ⟨⟨name, captured coerce (written attributes)⟩ :: top :: rest, []⟩
      (Node.eventsIn children ++ [.endTag] ++ tail) = _
    rw [List.append_assoc, convert_nodes hplain hunescape children hchildren htexts]
    change convert coerce unescape ⟨insertChild (top :: rest) name (closed (withText coerce
      (addMembers (captured coerce (written attributes)) (Node.members coerce asRead children))
      (flushText (buffered children)))), []⟩ tail = _
    rw [closed_eq_content hnodup (members_tags asRead hchildren)
      (members_plain hplain asRead children)]
    rfl
  | .selfClosing name attributes, hproper, _ => by
    intro top rest buf tail
    have hnodup := hproper.2.1
    rw [← written_names] at hnodup
    change convert coerce unescape ⟨insertChild (top :: rest) name
      (if (captured coerce (written attributes)).isEmpty then .null
        else .object (captured coerce (written attributes))), buf⟩ tail = _
    rw [empty_eq_content hnodup]
    rfl
  | .text s, _, htext => by
    intro top rest buf tail
    change _ = convert coerce unescape ⟨top :: rest, buf ++ trimRun s⟩ tail
    unfold Node.events
    split
    case isTrue hempty =>
      rw [List.isEmpty_iff.mp hempty, List.append_nil]
      rfl
    case isFalse =>
      have hraw : '&' ∉ trimRun s := fun hmem => htext s rfl (mem_of_mem_trimRun hmem)
      change convert coerce unescape
        ⟨top :: rest, buf ++ (unescape (trimRun s)).getD []⟩ tail = _
      rw [hunescape _ hraw]
      rfl
  | .cdata s, _, _ => fun _ _ _ _ => rfl
  | .reference e, _, _ => fun _ _ _ _ => rfl

theorem convert_nodes (hplain : ∀ s, Plain (coerce s))
    (hunescape : ∀ s, '&' ∉ s → unescape s = some s) :
    (children : List Node) → Node.EverywhereIn Proper children →
      (∀ s, .text s ∈ children → '&' ∉ s) →
      ∀ top rest buf tail, convert coerce unescape ⟨top :: rest, buf⟩
          (Node.eventsIn children ++ tail) =
        convert coerce unescape ⟨top.with (Node.members coerce asRead children) :: rest,
          children.foldl bufferStep buf⟩ tail
  | [], _, _ => fun _ _ _ _ => rfl
  | n :: children, hproper, htexts => by
    intro top rest buf tail
    rw [Node.eventsIn, List.append_assoc,
      convert_node hplain hunescape n hproper.1 (fun s hs => htexts s (hs ▸ List.mem_cons_self)),
      convert_nodes hplain hunescape children hproper.2
        (fun s hs => htexts s (List.mem_cons_of_mem _ hs)), ← Frame.with_cons]
    rfl

end

/-- The conversion of a tree whose root is not self-closing: the value of the mapping, with
attributes and texts as they are read. -/
theorem xmlToJson_element (hplain : ∀ s, Plain (coerce s))
    (hunescape : ∀ s, '&' ∉ s → unescape s = some s) {name : String} {attributes : List Attribute}
    {children : List Node} (hproper : (Node.element name attributes children).WellFormed) :
    xmlToJson coerce unescape (Node.element name attributes children).events =
      .ok (.object [(name, (Node.element name attributes children).value coerce asRead)]) := by
  obtain ⟨⟨htag, hnodup, htexts⟩, hchildren⟩ := hproper
  rw [← written_names] at hnodup
  change convert coerce unescape ⟨[⟨name, captured coerce (written attributes)⟩], []⟩
    (Node.eventsIn children ++ [.endTag]) = _
  rw [convert_nodes hplain hunescape children hchildren htexts]
  change Except.ok (Value.object [(name, closed (withText coerce
    (addMembers (captured coerce (written attributes)) (Node.members coerce asRead children))
    (flushText (buffered children))))]) = _
  rw [closed_eq_content hnodup (members_tags asRead hchildren)
    (members_plain hplain asRead children)]
  rfl

/-- A root that is self-closing is never closed. -/
theorem xmlToJson_selfClosing (name : String) (attributes : List Attribute) :
    xmlToJson coerce unescape (Node.selfClosing name attributes).events =
      .error (.error "xml parse failed: incomplete document") := rfl

end Loop

end JustApi.Core.Xml
