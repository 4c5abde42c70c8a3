import JustApi.Core.Utf8
import JustApi.Py.Streams
import JustApi.Py.JsonTexts

/-! # What a client reads from a validated stream

A client that takes the body apart, at its line breaks or as a JSON list, finds the items
that the schema accepts, in order; a list that is not complete does not look complete. -/
namespace JustApi.Py.Streams
open JustApi.Lib.Run JustApi.Lib.Channels JustApi.Lib.Brackets JustApi.Lib.Result
open JustApi.Core.Http (Bytes)
open JustApi.Core.QueryString (asBytes fromUtf8Lossy decodeLossy decodeLossy_flatMap)
open JustApi.Py.JsonTexts (Obj Single dumps single_dumps)

variable {ms ns : List Message} {cs ds : List Char}

/-! ## Messages as text -/

def Message.part : Message → Bytes
  | .ok b => b
  | .error _ => []

/-- The messages are what the text is in UTF-8. -/
def Spells (ms : List Message) (cs : List Char) : Prop :=
  ms.flatMap Message.part = cs.flatMap String.utf8EncodeChar

theorem spells_nil : Spells [] [] := rfl

theorem Spells.append (h : Spells ms cs) (h' : Spells ns ds) : Spells (ms ++ ns) (cs ++ ds) := by
  unfold Spells at h h' ⊢
  rw [List.flatMap_append, List.flatMap_append, h, h']

theorem spells_ok (s : String) : Spells [.ok (asBytes s)] s.toList := by
  simp [Spells, Message.part, asBytes]

theorem spells_error (message : String) : Spells [.error message] [] := rfl

theorem Spells.concat (h : Spells ms cs) (s : String) :
    Spells (ms ++ [.ok (asBytes s)]) (cs ++ s.toList) := h.append (spells_ok s)

theorem Spells.concat_error (h : Spells ms cs) (message : String) :
    Spells (ms ++ [.error message]) cs := by
  simpa using h.append (spells_error message)

/-- What a client has got, as a text. -/
def World.received {Item : Type} (w : World Item) : List Char :=
  (fromUtf8Lossy (w.channel.left.flatMap Message.part)).toList

theorem received_eq {Item : Type} {w : World Item} (h : Spells w.channel.left cs) :
    w.received = cs := by
  unfold Spells at h
  rw [World.received, h, fromUtf8Lossy, decodeLossy_flatMap, String.toList_ofList]

section Formats

variable (validate : String → Except String (List String))

/-- The texts of the items that are accepted. -/
def acceptedTexts (items : List Obj) : List (List Char) :=
  items.filterMap fun x => (checked dumps validate x).toOption.map String.toList

/-- What a client has got of a text that is written out bit by bit. -/
structure ReadsBack (mode : String) (w : World Obj) : Prop where
  valid : ∀ t ∈ acceptedTexts validate w.items, ∃ x ∈ w.items,
    dumps x = .ok (String.ofList t) ∧ validate (String.ofList t) = .ok []
  lines : mode ≠ "array" → ∃ ts, ts <+: acceptedTexts validate w.items ∧
    w.received.splitOn '\n' = ts ++ [[]] ∧
    (w.body ≠ .polled → ts = acceptedTexts validate w.items)
  list : mode = "array" → elements w.received =
    if w.ending = some .stop ∧ w.channel.left = w.script (pumpValidatedStream dumps validate mode)
    then some (acceptedTexts validate w.items) else none

variable {validate} {items : List Obj} {x : Obj} {text : String}

theorem acceptedTexts_concat_ok (h : checked dumps validate x = .ok text) (items : List Obj) :
    acceptedTexts validate (items ++ [x]) = acceptedTexts validate items ++ [text.toList] := by
  simp [acceptedTexts, h, Except.toOption]

theorem acceptedTexts_concat_error {message : String}
    (h : checked dumps validate x = .error message) (items : List Obj) :
    acceptedTexts validate (items ++ [x]) = acceptedTexts validate items := by
  simp [acceptedTexts, h, Except.toOption]

theorem checked_eq_ok (h : checked dumps validate x = .ok text) :
    dumps x = .ok text ∧ validate text = .ok [] := by
  obtain ⟨t, ht, h⟩ := bind_eq_ok.mp h
  obtain ⟨errors, herrors, h⟩ := bind_eq_ok.mp h
  cases errors with
  | nil =>
    cases h
    exact ⟨ht, herrors⟩
  | cons e errors => cases h

theorem exists_of_mem_acceptedTexts {t : List Char} (h : t ∈ acceptedTexts validate items) :
    ∃ x ∈ items, dumps x = .ok (String.ofList t) ∧ validate (String.ofList t) = .ok [] := by
  obtain ⟨x, hx, ht⟩ := List.mem_filterMap.mp h
  cases hchecked : checked dumps validate x with
  | error message => simp [hchecked, Except.toOption] at ht
  | ok text =>
    simp only [hchecked, Except.toOption, Option.map_some, Option.some.injEq] at ht
    rw [← ht, String.ofList_toList]
    exact ⟨x, hx, checked_eq_ok hchecked⟩

theorem single_acceptedTexts {t : List Char} (h : t ∈ acceptedTexts validate items) :
    Single t := by
  obtain ⟨x, -, hdumps, -⟩ := exists_of_mem_acceptedTexts h
  simpa using single_dumps hdumps

/-! ## Lines -/

def lined (ts : List (List Char)) : List Char := ts.flatMap (· ++ ['\n'])

theorem splitOn_lined {ts : List (List Char)} (h : ∀ t ∈ ts, '\n' ∉ t) :
    (lined ts).splitOn '\n' = ts ++ [[]] := by
  have hjoin : lined ts = ['\n'].intercalate (ts ++ [[]]) := by
    clear h
    induction ts with
    | nil => rfl
    | cons t rest ih =>
      obtain ⟨u, us, hus⟩ := List.exists_cons_of_ne_nil
        (List.append_ne_nil_of_right_ne_nil rest (List.cons_ne_nil ([] : List Char) []))
      rw [List.cons_append, hus, List.intercalate_cons_cons, ← hus, ← ih]
      simp [lined]
  rw [hjoin]
  refine List.splitOn_intercalate '\n' (fun t ht => ?_) (by simp)
  rcases List.mem_append.mp ht with ht | ht
  · exact h t ht
  · simp [List.mem_singleton.mp ht]

section Lines

variable {mode : String} (hmode : mode ≠ "array")
include hmode

theorem messages_line (first : Bool) (x : Obj) :
    (pumpValidatedStream dumps validate mode).messages first x =
      match checked dumps validate x with
      | .ok text => [.ok (asBytes (text ++ "\n"))]
      | .error message => [.error message] := by
  cases h : checked dumps validate x <;>
    simp [Pump.messages, pumpValidatedStream, h, hmode, Except.map]

theorem spells_lines (items : List Obj) :
    Spells ((pumpValidatedStream dumps validate mode).frames true items)
      (lined (acceptedTexts validate items)) := by
  induction items using List.reverseRecOn with
  | nil => exact spells_nil
  | append_singleton items x ih =>
    rw [Pump.frames_concat, messages_line hmode]
    cases hchecked : checked dumps validate x with
    | error message =>
      rw [acceptedTexts_concat_error hchecked]
      exact ih.concat_error message
    | ok text =>
      have htext : (text ++ "\n").toList = text.toList ++ ['\n'] := by simp
      rw [acceptedTexts_concat_ok hchecked, lined, List.flatMap_append]
      simpa [htext, lined] using ih.concat (text ++ "\n")

/-- What has been read is some of the lines. -/
theorem spells_some_lines (items : List Obj)
    (h : ms <+: (pumpValidatedStream dumps validate mode).frames true items) :
    ∃ ts, ts <+: acceptedTexts validate items ∧ Spells ms (lined ts) := by
  induction items using List.reverseRecOn with
  | nil =>
    obtain rfl : ms = [] := List.prefix_nil.mp h
    exact ⟨[], List.nil_prefix, spells_nil⟩
  | append_singleton items x ih =>
    have hwhole : Spells _ (lined (acceptedTexts validate (items ++ [x]))) :=
      spells_lines hmode (items ++ [x])
    have hmore : acceptedTexts validate items <+: acceptedTexts validate (items ++ [x]) := by
      simp [acceptedTexts]
    rw [Pump.frames_concat] at h hwhole
    obtain ⟨m, hm⟩ : ∃ m, (pumpValidatedStream dumps validate mode).messages
        (true && items.isEmpty) x = [m] := by
      rw [messages_line hmode]
      cases checked dumps validate x <;> exact ⟨_, rfl⟩
    rw [hm] at h hwhole
    rcases List.prefix_concat_iff.mp h with rfl | h
    · exact ⟨_, List.prefix_rfl, hwhole⟩
    · obtain ⟨ts, hts, hspells⟩ := ih h
      exact ⟨ts, hts.trans hmore, hspells⟩

theorem ends_line (ending : Ending) : (pumpValidatedStream dumps validate mode).ends ending =
    match ending with
    | .raised message => [.error message]
    | .stop | .cancelled => [] := by
  cases ending <;> simp [Pump.ends, pumpValidatedStream, hmode]

end Lines

/-! ## Lists -/

theorem intercalate_concat {separator : List Char} {ts : List (List Char)} (hne : ts ≠ [])
    (t : List Char) :
    separator.intercalate (ts ++ [t]) = separator.intercalate ts ++ (separator ++ t) := by
  induction ts with
  | nil => exact absurd rfl hne
  | cons first rest ih =>
    cases rest with
    | nil => simp [List.intercalate_cons_cons]
    | cons next rest =>
      have hrest := ih (List.cons_ne_nil next rest)
      simp only [List.cons_append, List.intercalate_cons_cons] at hrest ⊢
      rw [hrest]
      simp only [List.append_assoc]

/-- A list that is not complete. -/
def BrokenOff (texts : List (List Char)) (cs : List Char) : Prop :=
  cs = [] ∨ ∃ ts rest, ts <+: texts ∧ (rest = [] ∨ rest = [',']) ∧
    cs = '[' :: [','].intercalate ts ++ rest

theorem BrokenOff.mono {texts texts' : List (List Char)} (h : BrokenOff texts cs)
    (hmore : texts <+: texts') : BrokenOff texts' cs := by
  rcases h with h | ⟨ts, rest, hts, h⟩
  · exact .inl h
  · exact .inr ⟨ts, rest, hts.trans hmore, h⟩

theorem brokenOff_self {texts : List (List Char)} :
    BrokenOff texts ('[' :: [','].intercalate texts) :=
  .inr ⟨texts, [], List.prefix_rfl, .inl rfl, (List.append_nil _).symm⟩

theorem BrokenOff.elements {texts : List (List Char)} (h : BrokenOff texts cs)
    (hatoms : ∀ t ∈ texts, Atom t) : elements cs = none := by
  rcases h with rfl | ⟨ts, rest, hts, hrest, rfl⟩
  · rfl
  · exact elements_open (fun t ht => hatoms t (hts.subset ht)) hrest

section Lists

theorem messages_item (first : Bool) (x : Obj) :
    (pumpValidatedStream dumps validate "array").messages first x =
      match checked dumps validate x with
      | .ok text => (if first then [] else [.ok (asBytes ",")]) ++ [.ok (asBytes text)]
      | .error message => [.error message] := by
  cases h : checked dumps validate x <;> cases first <;>
    simp [Pump.messages, pumpValidatedStream, h, Except.map]

theorem fails_iff (first : Bool) (x : Obj) :
    (pumpValidatedStream dumps validate "array").fails first x = false ↔
      ∃ text, checked dumps validate x = .ok text := by
  cases h : checked dumps validate x <;> simp [Pump.fails, pumpValidatedStream, h, Except.map]

/-- What has been sent before the generator ends. -/
def listed (validate : String → Except String (List String)) (items : List Obj) : List Message :=
  .ok (asBytes "[") :: (pumpValidatedStream dumps validate "array").frames true items

theorem listed_concat_error {message : String} (h : checked dumps validate x = .error message)
    (items : List Obj) :
    listed validate (items ++ [x]) = listed validate items ++ [.error message] := by
  simp [listed, Pump.frames_concat, messages_item, h]

theorem listed_concat_ok (h : checked dumps validate x = .ok text) (hne : items ≠ []) :
    listed validate (items ++ [x]) =
      listed validate items ++ [.ok (asBytes ",")] ++ [.ok (asBytes text)] := by
  simp [listed, Pump.frames_concat, messages_item, h, hne]

theorem listed_first (h : checked dumps validate x = .ok text) :
    listed validate [x] = listed validate [] ++ [.ok (asBytes text)] := by
  simp [listed, Pump.frames, messages_item, h]

theorem acceptedTexts_ne_nil
    (haccepts : (pumpValidatedStream dumps validate "array").accepts true items = true)
    (hne : items ≠ []) : acceptedTexts validate items ≠ [] := by
  cases items using List.reverseRecOn with
  | nil => exact absurd rfl hne
  | append_singleton items x =>
    rw [Pump.accepts_concat, Bool.and_eq_true, Bool.not_eq_true', fails_iff] at haccepts
    obtain ⟨text, htext⟩ := haccepts.2
    rw [acceptedTexts_concat_ok htext]
    simp

theorem spells_listed
    (haccepts : (pumpValidatedStream dumps validate "array").accepts true items = true) :
    Spells (listed validate items) ('[' :: [','].intercalate (acceptedTexts validate items)) := by
  induction items using List.reverseRecOn with
  | nil => exact spells_ok "["
  | append_singleton items x ih =>
    rw [Pump.accepts_concat, Bool.and_eq_true, Bool.not_eq_true', fails_iff] at haccepts
    obtain ⟨hitems, text, htext⟩ := haccepts
    have hspells := ih hitems
    rw [acceptedTexts_concat_ok htext]
    by_cases hne : items = []
    · subst hne
      rw [List.nil_append, listed_first htext]
      simpa [acceptedTexts] using hspells.concat text
    · rw [listed_concat_ok htext hne, intercalate_concat (acceptedTexts_ne_nil hitems hne)]
      simpa using (hspells.concat ",").concat text

/-- What has been read before the generator ends is not complete. -/
theorem brokenOff_of_prefix
    (haccepts : (pumpValidatedStream dumps validate "array").accepts true items.dropLast = true)
    (h : ms <+: listed validate items) :
    ∃ cs, Spells ms cs ∧ BrokenOff (acceptedTexts validate items) cs := by
  induction items using List.reverseRecOn with
  | nil =>
    have h : ms <+: [] ++ [.ok (asBytes "[")] := h
    rcases List.prefix_concat_iff.mp h with rfl | h
    · exact ⟨_, spells_ok "[", brokenOff_self⟩
    · obtain rfl := List.prefix_nil.mp h
      exact ⟨[], spells_nil, .inl rfl⟩
  | append_singleton items x ih =>
    rw [List.dropLast_concat] at haccepts
    have hmore : acceptedTexts validate items <+: acceptedTexts validate (items ++ [x]) := by
      simp [acceptedTexts]
    have hbefore : ms <+: listed validate items →
        ∃ cs, Spells ms cs ∧ BrokenOff (acceptedTexts validate (items ++ [x])) cs := by
      intro h
      obtain ⟨cs, hcs, hbroken⟩ := ih (Pump.accepts_dropLast haccepts) h
      exact ⟨cs, hcs, hbroken.mono hmore⟩
    have hspells := spells_listed haccepts
    cases hchecked : checked dumps validate x with
    | error message =>
      rw [listed_concat_error hchecked] at h
      rcases List.prefix_concat_iff.mp h with rfl | h
      · exact ⟨_, hspells.concat_error message, brokenOff_self.mono hmore⟩
      · exact hbefore h
    | ok text =>
      have haccepts' : (pumpValidatedStream dumps validate "array").accepts true (items ++ [x]) =
          true := by
        rw [Pump.accepts_concat, haccepts, (fails_iff _ x).mpr ⟨text, hchecked⟩]
        rfl
      have hwhole := spells_listed haccepts'
      by_cases hne : items = []
      · subst hne
        rw [List.nil_append, listed_first hchecked] at h hwhole
        rcases List.prefix_concat_iff.mp h with rfl | h
        · exact ⟨_, hwhole, brokenOff_self⟩
        · exact hbefore h
      · rw [listed_concat_ok hchecked hne] at h hwhole
        rcases List.prefix_concat_iff.mp h with rfl | h
        · exact ⟨_, hwhole, brokenOff_self⟩
        rcases List.prefix_concat_iff.mp h with rfl | h
        · exact ⟨_, hspells.concat ",", .inr ⟨_, [','], hmore, .inr rfl, rfl⟩⟩
        · exact hbefore h

end Lists

/-! ## Reading back -/

variable {mode : String} {w : World Obj}

theorem Sending.spells_lines (h : Sending (pumpValidatedStream dumps validate mode) w)
    (hmode : mode ≠ "array") :
    Spells (w.script (pumpValidatedStream dumps validate mode))
      (lined (acceptedTexts validate w.items)) := by
  have hframes : Spells _ (lined (acceptedTexts validate w.items)) :=
    Streams.spells_lines hmode w.items
  have hopening : (pumpValidatedStream dumps validate mode).opening = [] := by
    simp [pumpValidatedStream, hmode]
  have hidle : w.stage = .scheduled ∨ w.stage = .refused →
      Spells [] (lined (acceptedTexts validate w.items)) := by
    intro hstage
    rw [(h.idle hstage).1]
    exact spells_nil
  unfold World.script
  cases hstage : w.stage with
  | scheduled => exact hidle (.inl hstage)
  | refused => exact hidle (.inr hstage)
  | running | finished =>
    simp only [hopening, List.map_nil, List.nil_append]
    cases w.ending with
    | none => simpa using hframes
    | some ending =>
      simp only [Option.map_some, Option.getD_some, ends_line hmode]
      cases ending with
      | stop | cancelled => simpa using hframes
      | raised message => exact hframes.concat_error message

/-- A first part of what is sent in lines. -/
theorem Sending.spells_some_lines (h : Sending (pumpValidatedStream dumps validate mode) w)
    (hmode : mode ≠ "array") (hms : ms <+: w.script (pumpValidatedStream dumps validate mode)) :
    ∃ ts, ts <+: acceptedTexts validate w.items ∧ Spells ms (lined ts) := by
  have hwhole := h.spells_lines hmode
  have hopening : (pumpValidatedStream dumps validate mode).opening = [] := by
    simp [pumpValidatedStream, hmode]
  have hnil : ms <+: [] → ∃ ts, ts <+: acceptedTexts validate w.items ∧ Spells ms (lined ts) := by
    intro hms
    obtain rfl := List.prefix_nil.mp hms
    exact ⟨[], List.nil_prefix, spells_nil⟩
  unfold World.script at hms hwhole
  cases hstage : w.stage with
  | scheduled | refused =>
    rw [hstage] at hms
    exact hnil hms
  | running | finished =>
    simp only [hstage, hopening, List.map_nil, List.nil_append] at hms hwhole
    cases hending : w.ending with
    | none =>
      rw [hending] at hms
      exact Streams.spells_some_lines hmode w.items (by simpa using hms)
    | some ending =>
      simp only [hending, Option.map_some, Option.getD_some, ends_line hmode] at hms hwhole
      cases ending with
      | stop | cancelled => exact Streams.spells_some_lines hmode w.items (by simpa using hms)
      | raised message =>
        rcases List.prefix_concat_iff.mp hms with rfl | hms
        · exact ⟨_, List.prefix_rfl, hwhole⟩
        · exact Streams.spells_some_lines hmode w.items hms

theorem script_array (hstage : w.stage = .running ∨ w.stage = .finished) :
    w.script (pumpValidatedStream dumps validate "array") = listed validate w.items ++
      (w.ending.map (pumpValidatedStream dumps validate "array").ends).getD [] := by
  rcases hstage with hstage | hstage <;>
    simp [World.script, hstage, listed, pumpValidatedStream]

theorem ends_array (ending : Ending) :
    (pumpValidatedStream dumps validate "array").ends ending =
      match ending with
      | .stop => [.ok (asBytes "]")]
      | .raised message => [.error message]
      | .cancelled => [] := by
  cases ending <;> simp [Pump.ends, pumpValidatedStream]

/-- What has been read of a list, before its last bracket. -/
theorem Sending.brokenOff (h : Sending (pumpValidatedStream dumps validate "array") w)
    (hms : ms <+: w.script (pumpValidatedStream dumps validate "array"))
    (hopen : ¬ (w.ending = some .stop ∧
      ms = w.script (pumpValidatedStream dumps validate "array"))) :
    ∃ cs, Spells ms cs ∧ BrokenOff (acceptedTexts validate w.items) cs := by
  by_cases hstage : w.stage = .running ∨ w.stage = .finished
  · rw [script_array hstage] at hms hopen
    have hbefore : ms <+: listed validate w.items → _ := brokenOff_of_prefix h.before
    cases hending : w.ending with
    | none =>
      rw [hending] at hms
      exact hbefore (by simpa using hms)
    | some ending =>
      have hspells := spells_listed (h.accepted (h.ending (by simp [hending])))
      simp only [hending, Option.map_some, Option.getD_some, ends_array] at hms hopen
      cases ending with
      | cancelled => exact hbefore (by simpa using hms)
      | raised message =>
        rcases List.prefix_concat_iff.mp hms with rfl | hms
        · exact ⟨_, hspells.concat_error message, brokenOff_self⟩
        · exact hbefore hms
      | stop =>
        rcases List.prefix_concat_iff.mp hms with hms | hms
        · exact absurd ⟨rfl, hms⟩ hopen
        · exact hbefore hms
  · have hidle : w.stage = .scheduled ∨ w.stage = .refused := by
      cases hw : w.stage <;> simp [hw] at hstage ⊢
    have hscript : w.script (pumpValidatedStream dumps validate "array") = [] := by
      rcases hidle with hidle | hidle <;> simp [World.script, hidle]
    rw [hscript] at hms
    obtain rfl := List.prefix_nil.mp hms
    exact ⟨[], spells_nil, .inl rfl⟩

/-- In every state that a validated stream comes to, what its client has got can be taken
apart: the lines are the items that were accepted first, all of them once the body is over,
and a list is complete only when the generator is exhausted and every part of it has come;
then its elements are the items that were accepted. -/
theorem stream_reads_back {tr : List (Event Obj × World Obj)}
    (hrun : Along (Step (pumpValidatedStream dumps validate mode)) .new tr) :
    ∀ w ∈ visited .new tr, ReadsBack validate mode w := by
  intro w hw
  obtain ⟨hsending, hread⟩ := sound_of_run hrun w hw
  have hdelivered := hsending.delivered hread
  refine ⟨fun t ht => exists_of_mem_acceptedTexts ht, fun hmode => ?_, ?_⟩
  · by_cases hbody : w.body = .polled
    · obtain ⟨ts, hts, hspells⟩ := hsending.spells_some_lines hmode hdelivered.order
      refine ⟨ts, hts, ?_, fun hover => absurd hbody hover⟩
      rw [received_eq hspells]
      exact splitOn_lined fun t ht => (single_acceptedTexts (hts.subset ht)).line
    · have hleft : w.channel.left = w.script (pumpValidatedStream dumps validate mode) := by
        cases hcase : w.body with
        | polled => exact absurd hcase hbody
        | ended => exact (hdelivered.ended hcase).2.1
        | failed message => exact (hdelivered.failed message hcase).1
      have hspells := hsending.spells_lines hmode
      rw [← hleft] at hspells
      refine ⟨_, List.prefix_rfl, ?_, fun _ => rfl⟩
      rw [received_eq hspells]
      exact splitOn_lined fun t ht => (single_acceptedTexts ht).line
  · rintro rfl
    have hatoms : ∀ t ∈ acceptedTexts validate w.items, Atom t :=
      fun t ht => (single_acceptedTexts ht).atom
    split
    · rename_i hwhole
      obtain ⟨hstop, hleft⟩ := hwhole
      have hstage : w.stage = .running ∨ w.stage = .finished := by
        by_contra hstage
        have hidle : w.stage = .scheduled ∨ w.stage = .refused := by
          cases hcase : w.stage <;> simp [hcase] at hstage ⊢
        exact absurd ((hsending.idle hidle).2.1.symm.trans hstop) (by simp)
      have hspells := (spells_listed (hsending.accepted
        (hsending.ending (by simp [hstop])))).concat "]"
      rw [script_array hstage, hstop, Option.map_some, Option.getD_some, ends_array] at hleft
      rw [← hleft] at hspells
      rw [received_eq hspells]
      exact elements_list fun t ht => ⟨hatoms t ht, (single_acceptedTexts ht).nonempty⟩
    · rename_i hopen
      obtain ⟨cs, hspells, hbroken⟩ := hsending.brokenOff hdelivered.order hopen
      rw [received_eq hspells]
      exact hbroken.elements hatoms

/-- A schema that every text meets. -/
def anything : String → Except String (List String) := fun _ => .ok []

/-- The second item has a comma of its own, and the last bracket has not been polled yet. -/
def listStream : List (Event Obj) :=
  [.start, .send, .yield (.str "a]"), .send, .poll, .poll,
    .yield (.list [.int 1, .none]), .send, .send, .poll, .poll, .endsWith .stop, .send]

theorem stream_reads_back_listStream :
    let pump := pumpValidatedStream dumps anything "array"
    let w := final (exec pump) .new listStream
    let w' := final (exec pump) w [.poll]
    String.ofList w.received = "[\"a]\",[1, null]" ∧ elements w.received = none ∧
      elements w'.received = some ["\"a]\"".toList, "[1, null]".toList] ∧
      ReadsBack anything "array" w := by
  intro pump w w'
  exact ⟨by decide +kernel, by decide +kernel, by decide +kernel,
    stream_reads_back (along_replay (exec pump) .new listStream) w (final_mem_visited _ _ _)⟩

end Formats

end JustApi.Py.Streams
