import JustApi.Core.XmlTexts

/-! # When the conversion follows its mapping

Two readings of the attributes and texts of a tree give the same value exactly if they
agree at every element. -/
namespace JustApi.Core.Xml
open JustApi.Lib JustApi.Lib.Text
open JustApi.Core.Crud (Value)

/-! ## What a value tells -/

theorem ext_of_get {α : Type} {l l' : List (String × α)} (hnodup : (l.map Prod.fst).Nodup)
    (hkeys : l.map Prod.fst = l'.map Prod.fst)
    (hget : ∀ key, SortedMap.get l key = SortedMap.get l' key) : l = l' := by
  induction l generalizing l' with
  | nil => simpa using hkeys
  | cons e l ih =>
    cases l' with
    | nil => cases hkeys
    | cons e' l' =>
      obtain ⟨hkey, hrest⟩ := List.cons.inj hkeys
      obtain ⟨hnot, htail⟩ := List.nodup_cons.mp hnodup
      have hvalue := hget e.1
      rw [SortedMap.get_cons, if_pos rfl, SortedMap.get_cons, if_pos hkey.symm] at hvalue
      have he : e = e' := Prod.ext hkey (Option.some.inj hvalue)
      subst he
      refine congrArg (e :: ·) (ih htail hrest fun key => ?_)
      by_cases h : e.1 = key
      · subst h
        rw [SortedMap.get_of_not_mem hnot, SortedMap.get_of_not_mem (hrest ▸ hnot)]
      · have hboth := hget key
        rwa [SortedMap.get_cons, SortedMap.get_cons, if_neg h, if_neg h] at hboth

theorem tagged_cons (m : String × Value) (members : List (String × Value)) (tag : String) :
    tagged (m :: members) tag =
      if m.1 = tag then m.2 :: tagged members tag else tagged members tag := by
  unfold tagged
  by_cases h : m.1 = tag <;> simp [h]

theorem length_tagged {members members' : List (String × Value)}
    (h : members.map Prod.fst = members'.map Prod.fst) (tag : String) :
    (tagged members tag).length = (tagged members' tag).length := by
  induction members generalizing members' with
  | nil =>
    cases members' with
    | nil => rfl
    | cons m' members' => cases h
  | cons m members ih =>
    cases members' with
    | nil => cases h
    | cons m' members' =>
      obtain ⟨hkey, hrest⟩ := List.cons.inj h
      rw [tagged_cons, tagged_cons, hkey]
      split
      · rw [List.length_cons, List.length_cons, ih hrest]
      · exact ih hrest

theorem collected_inj {values values' : List Value} (hlength : values.length = values'.length)
    (h : collected values = collected values') : values = values' := by
  cases values with
  | nil => exact (List.length_eq_zero_iff.mp hlength.symm).symm
  | cons v rest =>
    cases values' with
    | nil => cases hlength
    | cons v' rest' =>
      cases rest with
      | nil =>
        cases rest' with
        | nil => exact congrArg (fun v => [v]) h
        | cons w' rest' => cases hlength
      | cons w rest =>
        cases rest' with
        | nil => cases hlength
        | cons w' rest' => exact Value.array.inj h

theorem ext_of_tagged {members members' : List (String × Value)}
    (hkeys : members.map Prod.fst = members'.map Prod.fst)
    (htagged : ∀ tag, tagged members tag = tagged members' tag) : members = members' := by
  induction members generalizing members' with
  | nil => simpa using hkeys
  | cons m members ih =>
    cases members' with
    | nil => cases hkeys
    | cons m' members' =>
      obtain ⟨hkey, hrest⟩ := List.cons.inj hkeys
      have hhead := htagged m.1
      rw [tagged_cons, if_pos rfl, tagged_cons, if_pos hkey.symm] at hhead
      have hm : m = m' := Prod.ext hkey (List.cons.inj hhead).1
      subst hm
      refine congrArg (m :: ·) (ih hrest fun tag => ?_)
      have hboth := htagged tag
      rw [tagged_cons, tagged_cons] at hboth
      split at hboth
      · exact (List.cons.inj hboth).2
      · exact hboth

/-- Children with the same tags and the same values under each of them. -/
theorem ext_of_shared {members members' : List (String × Value)}
    (hkeys : members.map Prod.fst = members'.map Prod.fst)
    (hshared : ∀ m ∈ members, shared members m.1 = shared members' m.1) :
    members = members' := by
  refine ext_of_tagged hkeys fun tag => ?_
  have hlength := length_tagged hkeys tag
  by_cases hnil : tagged members tag = []
  · rw [hnil, List.length_nil] at hlength
    rw [hnil, List.length_eq_zero_iff.mp hlength.symm]
  · have hnil' : tagged members' tag ≠ [] := by
      intro h
      rw [h, List.length_nil] at hlength
      exact hnil (List.length_eq_zero_iff.mp hlength)
    obtain ⟨v, hv⟩ := List.exists_mem_of_ne_nil _ hnil
    have heq := hshared _ (mem_of_mem_tagged hv)
    unfold shared at heq
    rw [if_neg hnil, if_neg hnil'] at heq
    exact collected_inj hlength (Option.some.inj heq)

/-! ## One element -/

/-- The entries of an element's object. -/
def listed (attributes : List (String × String)) (text : String)
    (members : List (String × Value)) : List (String × Value) :=
  entries .string attributes ++ grouped members ++
    if text.isEmpty then [] else [("#text", .string text)]

theorem get_listed_text (attributes : List (String × String)) (text : String)
    {members : List (String × Value)} (htags : ∀ m ∈ members, IsTag m.1) :
    SortedMap.get (listed attributes text members) "#text" =
      if text.isEmpty then none else some (.string text) := by
  unfold listed
  rw [SortedMap.get_append, SortedMap.get_append, get_entries_text, get_grouped]
  unfold shared
  rw [if_pos (tagged_eq_nil.mpr fun m hm => (htags m hm).ne_text)]
  split <;> rfl

theorem get_listed_tag (attributes : List (String × String)) (text : String)
    (members : List (String × Value)) {tag : String} (htag : IsTag tag) :
    SortedMap.get (listed attributes text members) tag = shared members tag := by
  have htext : SortedMap.get (if text.isEmpty then []
      else [("#text", Value.string text)]) tag = none := by
    split
    · rfl
    · rw [SortedMap.get_cons, if_neg htag.ne_text.symm, SortedMap.get_nil]
  unfold listed
  rw [SortedMap.get_append, SortedMap.get_append,
    get_entries_eq_none _ _ htag.ne_attribute, get_grouped, htext, Option.none_or, Option.or_none]

theorem get_entries (attributes : List (String × String)) (name : String) :
    SortedMap.get (entries .string attributes) ("@" ++ name) =
      (SortedMap.get attributes name).map Value.string := by
  induction attributes with
  | nil => rfl
  | cons a attributes ih =>
    rw [entries, List.map_cons, SortedMap.get_cons, SortedMap.get_cons]
    by_cases h : a.1 = name
    · rw [if_pos h, if_pos (by rw [h])]
      rfl
    · rw [if_neg h, if_neg (by simpa using h)]
      exact ih

theorem get_listed_attribute (attributes : List (String × String)) (text : String)
    {members : List (String × Value)} (htags : ∀ m ∈ members, IsTag m.1) (name : String) :
    SortedMap.get (listed attributes text members) ("@" ++ name) =
      (SortedMap.get attributes name).map Value.string := by
  have htext : SortedMap.get (if text.isEmpty then []
      else [("#text", Value.string text)]) ("@" ++ name) = none := by
    split
    · rfl
    · rw [SortedMap.get_cons, if_neg, SortedMap.get_nil]
      intro h
      have hhead := congrArg (fun s : String => s.toList.head?) h
      simp at hhead
  unfold listed
  rw [SortedMap.get_append, SortedMap.get_append, get_entries, get_grouped, htext]
  unfold shared
  rw [if_pos (tagged_eq_nil.mpr fun m hm => ((htags m hm).ne_attribute name).symm)]
  simp

/-- With texts kept as they are, the value of an element tells its attributes, its text and
its children. -/
theorem content_inj {attributes attributes' : List (String × String)} {text text' : String}
    {members members' : List (String × Value)} (hnodup : (attributes.map Prod.fst).Nodup)
    (hnames : attributes.map Prod.fst = attributes'.map Prod.fst)
    (hkeys : members.map Prod.fst = members'.map Prod.fst)
    (htags : ∀ m ∈ members, IsTag m.1) (htags' : ∀ m ∈ members', IsTag m.1)
    (h : content .string attributes text members = content .string attributes' text' members') :
    attributes = attributes' ∧ text = text' ∧ members = members' := by
  have hnone : (attributes'.isEmpty ∧ members'.isEmpty) ↔
      (attributes.isEmpty ∧ members.isEmpty) := by
    rw [List.isEmpty_iff, List.isEmpty_iff, List.isEmpty_iff, List.isEmpty_iff,
      ← List.map_eq_nil_iff (f := Prod.fst), ← hnames, List.map_eq_nil_iff,
      ← List.map_eq_nil_iff (f := Prod.fst) (l := members'), ← hkeys, List.map_eq_nil_iff]
  unfold content at h
  by_cases hempty : attributes.isEmpty ∧ members.isEmpty
  · rw [if_pos hempty, if_pos (hnone.mpr hempty)] at h
    obtain ⟨rfl, rfl⟩ : attributes = [] ∧ members = [] := by simpa using hempty
    obtain ⟨rfl, rfl⟩ : attributes' = [] ∧ members' = [] := by simpa using hnone.mpr hempty
    refine ⟨rfl, ?_, rfl⟩
    rcases hleaf : text.isEmpty with _ | _ <;> rcases hleaf' : text'.isEmpty with _ | _ <;>
      rw [hleaf, hleaf'] at h
    · exact Value.string.inj h
    · cases h
    · cases h
    · rw [String.isEmpty_iff.mp hleaf, String.isEmpty_iff.mp hleaf']
  · rw [if_neg hempty, if_neg fun h => hempty (hnone.mp h)] at h
    have hget : ∀ key, SortedMap.get (listed attributes text members) key =
        SortedMap.get (listed attributes' text' members') key := by
      intro key
      have hofList := congrArg (SortedMap.get · key) (Value.object.inj h)
      rwa [SortedMap.get_ofList, SortedMap.get_ofList] at hofList
    refine ⟨ext_of_get hnodup hnames fun name => ?_, ?_, ext_of_shared hkeys fun m hm => ?_⟩
    · have hname := hget ("@" ++ name)
      rw [get_listed_attribute _ _ htags, get_listed_attribute _ _ htags'] at hname
      exact Option.map_injective (fun _ _ => Value.string.inj) hname
    · have htext := hget "#text"
      rw [get_listed_text _ _ htags, get_listed_text _ _ htags'] at htext
      rcases hleaf : text.isEmpty with _ | _ <;> rcases hleaf' : text'.isEmpty with _ | _ <;>
        rw [hleaf, hleaf'] at htext
      · exact Value.string.inj (Option.some.inj htext)
      · cases htext
      · cases htext
      · rw [String.isEmpty_iff.mp hleaf, String.isEmpty_iff.mp hleaf']
    · have htag := hget m.1
      rwa [get_listed_tag _ _ _ (htags m hm), get_listed_tag _ _ _ (htags m hm)] at htag

/-! ## Trees -/

section Readings

variable {r r' : Reading}

/-- Two readings agree on an element. -/
def Agree (r r' : Reading) (_ : String) (attributes : List Attribute) (children : List Node) :
    Prop :=
  (∀ a ∈ attributes, r.attr a.value = r'.attr a.value) ∧ r.text children = r'.text children

theorem members_keys (coerce : String → Value) (r r' : Reading) (children : List Node) :
    (Node.members coerce r children).map Prod.fst =
      (Node.members coerce r' children).map Prod.fst := by
  induction children with
  | nil => rfl
  | cons n children ih =>
    unfold Node.members
    cases n.tag with
    | none => exact ih
    | some tag => exact congrArg (tag :: ·) ih

theorem read_names (r : Reading) (attributes : List Attribute) :
    (attributes.map fun a => (a.name, r.attr a.value)).map Prod.fst =
      attributes.map Attribute.name := by
  simp

theorem read_eq_iff {attributes : List Attribute} :
    (attributes.map fun a => (a.name, r.attr a.value)) =
        (attributes.map fun a => (a.name, r'.attr a.value)) ↔
      ∀ a ∈ attributes, r.attr a.value = r'.attr a.value := by
  simp

mutual

theorem agree_of_value_eq : (n : Node) → n.Everywhere Proper →
    n.value .string r = n.value .string r' → n.Everywhere (Agree r r')
  | .element name attributes children, hproper, h => by
    have hnodup := hproper.1.2.1
    rw [← read_names r] at hnodup
    obtain ⟨hattrs, htext, hmembers⟩ := content_inj hnodup
      ((read_names r attributes).trans (read_names r' attributes).symm)
      (members_keys .string r r' children) (members_tags r hproper.2) (members_tags r' hproper.2) h
    exact ⟨⟨read_eq_iff.mp hattrs, htext⟩, agree_of_members_eq children hproper.2 hmembers⟩
  | .selfClosing name attributes, hproper, h => by
    have hnodup := hproper.2.1
    rw [← read_names r] at hnodup
    have hnone : ∀ m ∈ ([] : List (String × Value)), IsTag m.1 := fun _ h => absurd h List.not_mem_nil
    obtain ⟨hattrs, htext, -⟩ := content_inj hnodup
      ((read_names r attributes).trans (read_names r' attributes).symm) rfl hnone hnone h
    exact ⟨read_eq_iff.mp hattrs, htext⟩
  | .text s, _, _ => trivial
  | .cdata s, _, _ => trivial
  | .reference e, _, _ => trivial

theorem agree_of_members_eq : (children : List Node) → Node.EverywhereIn Proper children →
    Node.members .string r children = Node.members .string r' children →
      Node.EverywhereIn (Agree r r') children
  | [], _, _ => trivial
  | n :: children, hproper, h => by
    unfold Node.members at h
    cases htag : n.tag with
    | some tag =>
      rw [htag] at h
      obtain ⟨hvalue, hrest⟩ := List.cons.inj h
      exact ⟨agree_of_value_eq n hproper.1 (Prod.mk.inj hvalue).2,
        agree_of_members_eq children hproper.2 hrest⟩
    | none =>
      rw [htag] at h
      refine ⟨?_, agree_of_members_eq children hproper.2 h⟩
      cases n with
      | element name attributes children => cases htag
      | selfClosing name attributes => cases htag
      | _ => trivial

end

mutual

theorem value_eq_of_agree (coerce : String → Value) : (n : Node) → n.Everywhere (Agree r r') →
    n.value coerce r = n.value coerce r'
  | .element name attributes children, h => by
    unfold Node.value
    rw [read_eq_iff.mpr h.1.1, h.1.2, members_eq_of_agree coerce children h.2]
  | .selfClosing name attributes, h => by
    unfold Node.value
    rw [read_eq_iff.mpr h.1, h.2]
  | .text s, _ => rfl
  | .cdata s, _ => rfl
  | .reference e, _ => rfl

theorem members_eq_of_agree (coerce : String → Value) : (children : List Node) →
    Node.EverywhereIn (Agree r r') children →
      Node.members coerce r children = Node.members coerce r' children
  | [], _ => rfl
  | n :: children, h => by
    unfold Node.members
    rw [value_eq_of_agree coerce n h.1, members_eq_of_agree coerce children h.2]

end

end Readings

/-! ## The conversion -/

/-- No reference stands in the element or its attributes, nothing is dropped from its text
and the edges of its texts are clear. -/
def Clean (_ : String) (attributes : List Attribute) (children : List Node) : Prop :=
  (∀ a ∈ attributes, ∀ e, Piece.reference e ∉ a.value) ∧
    NoReference children ∧ Undropped children ∧ EdgesClear children

theorem length_decode_le (value : List Piece) :
    (value.flatMap Piece.decode).length ≤ (value.flatMap Piece.raw).length := by
  induction value with
  | nil => exact Nat.le_refl _
  | cons piece value ih =>
    rw [List.flatMap_cons, List.flatMap_cons, List.length_append, List.length_append]
    refine Nat.add_le_add ?_ ih
    cases piece with
    | text s => exact Nat.le_refl _
    | reference e => exact Nat.succ_le_succ (Nat.zero_le _)

theorem raw_eq_decode_iff (value : List Piece) :
    raw value = decode value ↔ ∀ e, Piece.reference e ∉ value := by
  unfold raw decode
  rw [String.ofList_inj]
  induction value with
  | nil => simp
  | cons piece value ih =>
    rw [List.flatMap_cons, List.flatMap_cons]
    cases piece with
    | text s => simpa [Piece.raw, Piece.decode] using ih
    | reference e =>
      refine ⟨fun h => ?_, fun h => absurd List.mem_cons_self (h e)⟩
      have hlength := congrArg List.length h
      rw [List.length_append, List.length_append] at hlength
      have hrest := length_decode_le value
      simp only [Piece.raw, Piece.decode, List.length_append, List.length_cons,
        List.length_nil] at hlength
      omega

theorem agree_iff_clean : Agree asRead documented = Clean := by
  funext name attributes children
  refine propext (and_congr (forall₂_congr fun a _ => raw_eq_decode_iff a.value) ?_)
  change String.ofList _ = String.ofList _ ↔ _
  rw [String.ofList_inj]
  exact text_kept_iff children

theorem coerce_plain (nearest : Decimal → Option UInt64) (s : String) :
    Plain (coerce nearest s) := by
  intro items
  unfold coerce
  split
  · exact Value.noConfusion
  · split <;> exact Value.noConfusion

theorem follows_iff {coerce : String → Value} (hplain : ∀ s, Plain (coerce s))
    {unescape : List Char → Option (List Char)} (hunescape : ∀ s, '&' ∉ s → unescape s = some s)
    {name : String} {attributes : List Attribute} {children : List Node}
    (hproper : (Node.element name attributes children).WellFormed) :
    Follows coerce unescape name (.element name attributes children) ↔
      (Node.element name attributes children).value coerce asRead =
        (Node.element name attributes children).value coerce documented := by
  unfold Follows
  rw [xmlToJson_element hplain hunescape hproper]
  constructor
  · intro h
    exact (Prod.mk.inj (List.cons.inj (Value.object.inj (Except.ok.inj h))).1).2
  · intro h
    rw [h]

/-- The conversion follows the mapping, and drops no text that a number would not show,
exactly if the root is not self-closing and every element is clean. -/
theorem xml_mapping_iff (nearest : Decimal → Option UInt64)
    {unescape : List Char → Option (List Char)} (hunescape : ∀ s, '&' ∉ s → unescape s = some s)
    (root : Node) {tag : String} (htag : root.tag = some tag) (hproper : root.WellFormed) :
    (Follows (coerce nearest) unescape tag root ∧ Follows .string unescape tag root) ↔
      (∀ name attributes, root ≠ .selfClosing name attributes) ∧ root.Everywhere Clean := by
  have hstring : ∀ s, Plain (.string s) := fun _ _ => Value.noConfusion
  cases root with
  | element name attributes children =>
    cases htag
    rw [follows_iff (coerce_plain nearest) hunescape hproper,
      follows_iff hstring hunescape hproper, ← agree_iff_clean]
    constructor
    · rintro ⟨-, h⟩
      exact ⟨fun _ _ => Node.noConfusion, agree_of_value_eq _ hproper h⟩
    · rintro ⟨-, h⟩
      exact ⟨value_eq_of_agree _ _ h, value_eq_of_agree _ _ h⟩
  | selfClosing name attributes =>
    constructor
    · rintro ⟨h, -⟩
      unfold Follows at h
      rw [xmlToJson_selfClosing] at h
      cases h
    · rintro ⟨h, -⟩
      exact absurd rfl (h name attributes)
  | text s => cases htag
  | cdata s => cases htag
  | reference e => cases htag

/-- `<item id="7"><name>tea</name><name>mate</name><gone/></item>` -/
def item : Node :=
  .element "item" [⟨"id", [.text ['7']]⟩] [.element "name" [] [.text ['t', 'e', 'a']],
    .element "name" [] [.text ['m', 'a', 't', 'e']], .selfClosing "gone" []]

theorem xml_mapping_item :
    Follows (coerce fun _ => none) some "item" item ∧ Follows .string some "item" item := by
  refine (xml_mapping_iff (fun _ => none) (fun _ _ => rfl) item rfl ?_).mpr
    ⟨fun _ _ => Node.noConfusion, ?_⟩
  · have hname : ∀ s : List Char, '&' ∉ s → ∀ s', .text s' ∈ [Node.text s] → '&' ∉ s' := by
      intro s hs s' hmem
      cases List.mem_singleton.mp hmem
      exact hs
    refine ⟨⟨by unfold IsTag; decide, by decide, fun s h => by simp at h⟩,
      ⟨⟨by unfold IsTag; decide, by decide, hname _ (by decide)⟩, trivial, trivial⟩,
      ⟨⟨by unfold IsTag; decide, by decide, hname _ (by decide)⟩, trivial, trivial⟩,
      ⟨by unfold IsTag; decide, by decide, fun s h => by cases h⟩, trivial⟩
  · refine ⟨⟨by simp, (text_kept_iff _).mp (by decide)⟩,
      ⟨⟨by simp, (text_kept_iff _).mp (by decide)⟩, trivial, trivial⟩,
      ⟨⟨by simp, (text_kept_iff _).mp (by decide)⟩, trivial, trivial⟩,
      ⟨by simp, (text_kept_iff _).mp (by decide)⟩, trivial⟩

/-- `<p>due<b></b></p>` loses its text, `<p>&lt;</p>` has the name of its reference as
text and `<p/>` is an error. -/
theorem xml_mapping_fails :
    ¬ Follows (coerce fun _ => none) some "p"
        (.element "p" [] [.text ['d', 'u', 'e'], .element "b" [] []]) ∧
      ¬ Follows (coerce fun _ => none) some "p" (.element "p" [] [.reference .lt]) ∧
      ¬ Follows (coerce fun _ => none) some "p" (.selfClosing "p" []) := by
  refine ⟨fun h => ?_, fun h => ?_, fun h => ?_⟩
  · replace h : Except.ok (Value.object [("p", .object [("b", .null)])]) =
      (Except.ok (.object [("p", .object [("#text", .string "due"), ("b", .null)])]) :
        Except Failure Value) := h
    simp at h
  · replace h : Except.ok (Value.object [("p", .string "lt")]) =
      (Except.ok (.object [("p", .string "<")]) : Except Failure Value) := h
    simp at h
  · cases h

end JustApi.Core.Xml
