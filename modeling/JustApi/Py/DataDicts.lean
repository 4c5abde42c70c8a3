import JustApi.Py.Replies

/-! # Dicts of data

A dict that is no envelope, and what `serialize_response` makes of it. Which objects are
integers is left open. -/
namespace JustApi.Py.DataDicts
open JustApi.Core.Http (Bytes)
open JustApi.Core.QueryString (asBytes)
open JustApi.Py.Replies

/-- A dict with these entries: it is not marked as a response, and subscripting it gives what
is in it. -/
structure IsDict (v : Value) (entries : List (Option String × Entry)) : Prop where
  base : v.base = .dict entries
  items : v.items = v.base.items
  unmarked : v.marked = false

/-- `{"status": 204}`, with headers or without. -/
def StatusOnly (isInt : Entry → Prop) (entries : List (Option String × Entry)) : Prop :=
  keysWithin ["status", "headers"] entries = true ∧
    ∃ status, entries.lookup (some "status") = some status ∧ isInt status

structure DataDict (isInt : Entry → Prop) (entries : List (Option String × Entry)) : Prop where
  body : entries.lookup (some "body") = none
  response : entries.lookup (some "__response__") = none
  notStatusOnly : ¬ StatusOnly isInt entries

/-- The answer is the dict in JSON. -/
def Answered (v : Value) : Prop :=
  ∃ json, v.dumped = some json ∧ v.serializeResponse = jsonReply json

/-- Every key is a text, and one of them is no word of an envelope. -/
def Recognizable (entries : List (Option String × Entry)) : Prop :=
  (∀ e ∈ entries, e.1.isSome) ∧ ∃ e ∈ entries, e.1 ≠ some "status" ∧ e.1 ≠ some "headers"

section Dicts

variable {isInt : Entry → Prop} {v : Value} {entries : List (Option String × Entry)}

/-- What is not marked goes by its type. -/
theorem IsDict.serializeResponse (h : IsDict v entries) : v.serializeResponse =
    if isEnvelope entries v.items.response then v.items.envelope else v.dumpPath := by
  unfold Value.serializeResponse
  rw [h.base, h.unmarked]
  cases v.own <;> rfl

theorem keysWithin_iff {names : List String} :
    keysWithin names entries = true ↔ ∀ e ∈ entries, ∃ key ∈ names, e.1 = some key := by
  rw [keysWithin, List.all_eq_true]
  refine forall₂_congr fun e _ => ?_
  cases e.1 with
  | none => simp
  | some key => simp

theorem ne_of_lookup_eq_none {key : String} {e : Option String × Entry} (he : e ∈ entries)
    (h : entries.lookup (some key) = none) : e.1 ≠ some key := by
  intro hkey
  have hne := List.lookup_eq_none_iff.mp h e he
  rw [hkey, bne_self_eq_false] at hne
  cases hne

/-- A data dict passes for an envelope unless it is recognizable. -/
theorem DataDict.isEnvelope_iff (h : DataDict isInt entries) :
    isEnvelope entries (entries.lookup (some "__response__")) = true ↔ ¬ Recognizable entries := by
  rw [isEnvelope, h.response]
  by_cases htext : (entries.all fun e => e.1.isSome) = true
  · have hall : ∀ e ∈ entries, e.1.isSome := List.all_eq_true.mp htext
    simp only [if_pos htext, Option.bind_none, Option.getD_none, Bool.false_or, keysWithin_iff]
    constructor
    · rintro hwithin ⟨-, e, he, hstatus, hheaders⟩
      obtain ⟨key, hkey, hsome⟩ := hwithin e he
      have hbody := ne_of_lookup_eq_none he h.body
      have hresponse := ne_of_lookup_eq_none he h.response
      simp only [List.mem_cons, List.not_mem_nil, or_false] at hkey
      rcases hkey with rfl | rfl | rfl | rfl
      · exact hstatus hsome
      · exact hheaders hsome
      · exact hbody hsome
      · exact hresponse hsome
    · intro hnot e he
      by_cases hstatus : e.1 = some "status"
      · exact ⟨"status", by simp, hstatus⟩
      · by_cases hheaders : e.1 = some "headers"
        · exact ⟨"headers", by simp, hheaders⟩
        · exact absurd ⟨hall, e, he, hstatus, hheaders⟩ hnot
  · simp only [if_neg htext, Option.bind_none, Option.getD_none, Bool.false_or, true_iff]
    rintro ⟨hall, -⟩
    exact htext (List.all_eq_true.mpr hall)

/-- A dict is answered with its JSON exactly if it is recognizable and can be dumped. No JSON
text is empty. -/
theorem data_dict_iff (isInt : Entry → Prop) {v : Value} {entries : List (Option String × Entry)}
    (hdict : IsDict v entries) (hdata : DataDict isInt entries) (hdumps : v.dumped ≠ some []) :
    Answered v ↔ Recognizable entries ∧ v.dumped ≠ none := by
  have hitems : v.items.response = entries.lookup (some "__response__") := by
    rw [hdict.items, hdict.base, Base.items]
  have hbody : v.items.body = none := by
    rw [hdict.items, hdict.base, Base.items]
    exact hdata.body
  rw [Answered, hdict.serializeResponse, hitems]
  constructor
  · rintro ⟨json, hjson, hreply⟩
    refine ⟨?_, fun hnone => by rw [hjson] at hnone; cases hnone⟩
    by_contra hnot
    rw [if_pos (hdata.isEnvelope_iff.mpr hnot)] at hreply
    -- an envelope without a body is sent with none
    have hempty : ([] : Bytes) = json := by
      have := congrArg NativeResponse.body hreply
      rwa [Items.envelope, hbody] at this
    exact hdumps (hempty ▸ hjson)
  · rintro ⟨hrecognizable, hdumped⟩
    obtain ⟨json, hjson⟩ := Option.ne_none_iff_exists'.mp hdumped
    refine ⟨json, hjson, ?_⟩
    rw [if_neg fun h => hdata.isEnvelope_iff.mp h hrecognizable, Value.dumpPath, hjson]

end Dicts

/-! ## Some dicts -/

/-- A text. -/
def textEntry (s : String) : Entry where
  isStr := true
  isBytes := false
  isTrue := false
  bool := none
  u16 := none
  headers := none
  text := some s
  bytes := none
  shown := some s
  isStr_of_text := fun _ => rfl
  bytes_of_isStr := fun _ => rfl

/-- A dict that no class adds to. -/
def plainDict (entries : List (Option String × Entry)) (json : String) : Value :=
  ⟨.dict entries, none, some (asBytes json)⟩

/-- `{"status": "ok", "products": 5}` -/
def products : List (Option String × Entry) :=
  [(some "status", textEntry "ok"), (some "products", .ofU16 5)]

/-- `{"status": "alive"}`, which `/live` answers. -/
def alive : List (Option String × Entry) := [(some "status", textEntry "alive")]

/-- `{1: "one", "title": "two"}` -/
def numbered : List (Option String × Entry) :=
  [(none, textEntry "one"), (some "title", textEntry "two")]

/-- The integers that are status codes. -/
def isU16 (e : Entry) : Prop := e.u16 ≠ none

theorem isDict_plainDict (entries : List (Option String × Entry)) (json : String) :
    IsDict (plainDict entries json) entries := ⟨rfl, rfl, rfl⟩

/-- A text is no integer. -/
theorem dataDict_of_text {entries : List (Option String × Entry)}
    (hbody : entries.lookup (some "body") = none)
    (hresponse : entries.lookup (some "__response__") = none)
    (hstatus : ∀ e, entries.lookup (some "status") = some e → e.u16 = none) :
    DataDict isU16 entries :=
  ⟨hbody, hresponse, fun ⟨_, e, he, hint⟩ => hint (hstatus e he)⟩

theorem data_dict_iff_products :
    IsDict (plainDict products "\x7b\"status\":\"ok\",\"products\":5\x7d") products ∧
      DataDict isU16 products ∧
      Answered (plainDict products "\x7b\"status\":\"ok\",\"products\":5\x7d") := by
  have hdict := isDict_plainDict products "\x7b\"status\":\"ok\",\"products\":5\x7d"
  have hdata : DataDict isU16 products := by
    refine dataDict_of_text rfl rfl fun e he => ?_
    cases he
    rfl
  refine ⟨hdict, hdata, (data_dict_iff isU16 hdict hdata ?_).mpr ⟨⟨?_, ?_⟩, ?_⟩⟩
  · decide
  · decide
  · exact ⟨(some "products", .ofU16 5), by simp [products], by decide, by decide⟩
  · exact Option.some_ne_none _

/-- What `/live` answers, an empty dict and one with a number for a key are sent without their
content. -/
theorem dicts_swallowed :
    (DataDict isU16 alive ∧ ¬ Answered (plainDict alive "\x7b\"status\":\"alive\"\x7d")) ∧
      (DataDict isU16 [] ∧ ¬ Answered (plainDict [] "\x7b\x7d")) ∧
      DataDict isU16 numbered ∧
        ¬ Answered (plainDict numbered "\x7b\"1\":\"one\",\"title\":\"two\"\x7d") := by
  have hheaders (v : Value) (h : v.serializeResponse.headers = []) : ¬ Answered v := by
    rintro ⟨json, -, hreply⟩
    rw [hreply] at h
    cases h
  refine ⟨⟨dataDict_of_text rfl rfl fun e he => ?_, hheaders _ rfl⟩,
    ⟨dataDict_of_text rfl rfl fun e he => ?_, hheaders _ rfl⟩,
    dataDict_of_text rfl rfl fun e he => ?_, hheaders _ rfl⟩
  · cases he
    rfl
  · cases he
  · cases he

end JustApi.Py.DataDicts
