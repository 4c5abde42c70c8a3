import JustApi.Py.Replies

/-! # The headers of a response

From a `Response` of the Python package, whose headers are a list, through the map of a
response over TCP to the pairs of strings and the map of a response over HTTP/3. How a time
is written in a cookie is a parameter. -/
namespace JustApi.Py.ResponseHeaders
open JustApi.Core.Http (Bytes)
open JustApi.Core.QueryString (asBytes)
open JustApi.Py.Replies

/-! ## Building a response -/

/-- `s.encode("latin-1")`, which may raise. -/
def latin1 (s : String) : Option Bytes :=
  s.toList.mapM fun c => if c.toNat < 256 then some c.toNat.toUInt8 else none

inductive Expires where
  | text (s : String)
  /-- A number of seconds, or a `datetime`. -/
  | time (seconds : Int)
  deriving DecidableEq, Repr

structure Cookie where
  name : String
  value : String
  maxAge : Option Int
  expires : Option Expires
  path : Option String
  domain : Option String
  secure : Bool
  httponly : Bool
  samesite : Option String
  deriving DecidableEq, Repr

inductive Call where
  | appendHeader (name value : Bytes)
  | setCookie (cookie : Cookie)
  | deleteCookie (name : String) (path domain : Option String)
  deriving DecidableEq, Repr

structure Response where
  headers : List (String × String)
  mediaType : Option String
  calls : List Call
  deriving DecidableEq, Repr

section Building

variable (httpDate : Int → String)

def Expires.text? : Expires → String
  | .text s => s
  | .time seconds => httpDate seconds

/-- An attribute of a cookie, if it is given. -/
def attr (name : String) : Option String → String
  | some value => "; " ++ name ++ "=" ++ value
  | none => ""

def flag (name : String) (on : Bool) : String := if on then "; " ++ name else ""

def Cookie.text (c : Cookie) : String :=
  c.name ++ "=" ++ c.value ++ attr "expires" (c.expires.map (Expires.text? httpDate)) ++
    attr "Max-Age" (c.maxAge.map toString) ++ attr "path" c.path ++
    attr "domain" c.domain ++ flag "secure" c.secure ++ flag "httponly" c.httponly ++
    attr "samesite" c.samesite

/-- `k.lower()` of a token, which is ASCII. -/
def lower (s : String) : String := String.ofList (s.toList.map Char.toLower)

def initHeaders (headers : List (String × String)) (mediaType : Option String) :
    Option RawHeaders := do
  let raw ← headers.mapM fun field => do
    let name ← latin1 (lower field.1)
    let value ← latin1 field.2
    some (name, value)
  match mediaType with
  | some mediaType => do
    let value ← latin1 mediaType
    some (raw ++ [(contentType, value)])
  | none => some raw

def setCookie : Bytes := asBytes "set-cookie"

/-- The header that a call appends. -/
def Call.field : Call → Option (Bytes × Bytes)
  | .appendHeader name value => some (name, value)
  | .setCookie cookie =>
    (latin1 (cookie.text httpDate)).map fun value => (ResponseHeaders.setCookie, value)
  | .deleteCookie name path domain =>
    let cookie : Cookie := ⟨name, "", some 0, some (.text "Thu, 01 Jan 1970 00:00:00 GMT"), path,
      domain, false, false, none⟩
    (latin1 (cookie.text httpDate)).map fun value => (ResponseHeaders.setCookie, value)

/-- The list of headers of a response, unless building it raises. -/
def Response.rawHeaders (r : Response) : Option RawHeaders := do
  let raw ← initHeaders r.headers r.mediaType
  let fields ← r.calls.mapM (Call.field httpDate)
  some (raw ++ fields)

end Building

/-! ## Sending it -/

/-- `http::HeaderMap` as its entries. -/
abbrev HeaderMap := List (Bytes × Bytes)

namespace HeaderMap

def insert (m : HeaderMap) (name value : Bytes) : HeaderMap :=
  m.filter (fun field => field.1 ≠ name) ++ [(name, value)]

def values (m : HeaderMap) (name : Bytes) : List Bytes :=
  (m.filter fun field => field.1 = name).map Prod.snd

end HeaderMap

/-- A header is inserted if its name and its value are valid. -/
def insertField (m : HeaderMap) (field : Bytes × Bytes) : HeaderMap :=
  match headerName field.1, headerValue field.2 with
  | some name, some value => m.insert name value
  | _, _ => m

/-- `nr_to_response` -/
def overTcp (raw : RawHeaders) : HeaderMap := raw.foldl insertField []

/-- `v.to_str().unwrap_or("")` -/
def visible (value : Bytes) : Bytes :=
  if value.all fun b => (32 ≤ b.toNat && b.toNat < 127) || b.toNat = 9 then value else []

/-- `chain_to_http3_handler`: the headers of a response as strings. -/
def http3Pairs (m : HeaderMap) : List (Bytes × Bytes) :=
  m.map fun field => (field.1, visible field.2)

/-- `serve_quic_conn` -/
def overHttp3 (raw : RawHeaders) : HeaderMap := (http3Pairs (overTcp raw)).foldl insertField []

/-! ## The law -/

/-- The values that a list of headers has for a name. -/
def listed (raw : RawHeaders) (name : Bytes) : List Bytes :=
  (raw.filter fun field => headerName field.1 = some name).map Prod.snd

/-- For every name but `content-type` the response carries what the list has. -/
def Carries (m : HeaderMap) (raw : RawHeaders) : Prop :=
  ∀ name, name ≠ contentType → m.values name = listed raw name

/-- All names are tokens and all values are valid. -/
def Valid (raw : RawHeaders) : Prop :=
  ∀ field ∈ raw, headerName field.1 ≠ none ∧ headerValue field.2 = some field.2

/-- A response whose building does not raise, with the list it comes to. -/
structure Built (httpDate : Int → String) (r : Response) where
  raw : RawHeaders
  built : r.rawHeaders httpDate = some raw
  valid : Valid raw

/-- No name but `content-type` is there twice. -/
def Unrepeated (raw : RawHeaders) : Prop :=
  ∀ name, name ≠ contentType → (listed raw name).length ≤ 1

/-- The values, except those of `content-type`, are visible ASCII. -/
def Readable (raw : RawHeaders) : Prop :=
  ∀ name, name ≠ contentType → ∀ value ∈ listed raw name, visible value = value

/-! ## Maps -/

theorem values_insert_self (m : HeaderMap) (name value : Bytes) :
    (m.insert name value).values name = [value] := by
  have hnone : (m.filter fun field => field.1 ≠ name).filter (fun field => field.1 = name) = [] := by
    rw [List.filter_filter, List.filter_eq_nil_iff]
    intro field _
    simp
  rw [HeaderMap.insert, HeaderMap.values, List.filter_append, hnone]
  simp

theorem values_insert_ne {name n : Bytes} (m : HeaderMap) (value : Bytes) (h : n ≠ name) :
    (m.insert name value).values n = m.values n := by
  have hsame : (m.filter fun field => field.1 ≠ name).filter (fun field => field.1 = n) =
      m.filter fun field => field.1 = n := by
    rw [List.filter_filter]
    refine List.filter_congr fun field _ => ?_
    by_cases hn : field.1 = n
    · simp [hn, h]
    · simp [hn]
  rw [HeaderMap.insert, HeaderMap.values, List.filter_append, hsame, HeaderMap.values]
  simp [Ne.symm h]

/-- A header that is inserted stands for its name alone. -/
theorem values_insertField {m : HeaderMap} {field : Bytes × Bytes} (n : Bytes)
    (hname : headerName field.1 ≠ none) (hvalue : headerValue field.2 = some field.2) :
    (insertField m field).values n =
      if headerName field.1 = some n then [field.2] else m.values n := by
  obtain ⟨name, hname⟩ := Option.ne_none_iff_exists'.mp hname
  rw [insertField, hname, hvalue]
  by_cases hn : n = name
  · subst hn
    rw [if_pos rfl]
    exact values_insert_self m n field.2
  · rw [if_neg fun h => hn (Option.some.inj h).symm]
    exact values_insert_ne m field.2 hn

/-- Of several headers of one name the last one stays. -/
theorem values_foldl {raw : RawHeaders} (h : Valid raw) (m : HeaderMap) (n : Bytes) :
    (raw.foldl insertField m).values n =
      ((listed raw n).getLast?.map fun value => [value]).getD (m.values n) := by
  induction raw generalizing m with
  | nil => rfl
  | cons field raw ih =>
    obtain ⟨hname, hvalue⟩ := h field List.mem_cons_self
    have hrest : Valid raw := fun f hf => h f (List.mem_cons_of_mem _ hf)
    rw [List.foldl_cons, ih hrest, values_insertField n hname hvalue]
    by_cases hn : headerName field.1 = some n
    · have hlisted : listed (field :: raw) n = field.2 :: listed raw n := by
        simp [listed, hn]
      rw [if_pos hn, hlisted, List.getLast?_cons]
      cases (listed raw n).getLast? <;> rfl
    · have hlisted : listed (field :: raw) n = listed raw n := by
        simp [listed, hn]
      rw [if_neg hn, hlisted]

theorem values_overTcp {raw : RawHeaders} (h : Valid raw) (n : Bytes) :
    (overTcp raw).values n = (listed raw n).getLast?.toList := by
  rw [overTcp, values_foldl h]
  cases (listed raw n).getLast? <;> rfl

/-- The map is the one of the replies. -/
theorem values_toResponse (nr : NativeResponse) (n : Bytes) :
    (overTcp nr.headers).values n = (nr.toResponse.headers n).toList := by
  have hfold (raw : RawHeaders) (m : HeaderMap) (headers : Bytes → Option Bytes)
      (h : ∀ n, m.values n = (headers n).toList) :
      (raw.foldl insertField m).values n = (raw.foldl insertRaw headers n).toList := by
    induction raw generalizing m headers with
    | nil => exact h n
    | cons field raw ih =>
      refine ih _ _ fun k => ?_
      unfold insertField insertRaw
      cases hname : headerName field.1 with
      | none => exact h k
      | some name =>
        cases hvalue : headerValue field.2 with
        | none => exact h k
        | some value =>
          by_cases hk : k = name
          · subst hk
            simp only [values_insert_self, if_pos]
            rfl
          · simp only [values_insert_ne m value hk, if_neg hk, h]
  exact hfold nr.headers [] (fun _ => none) fun _ => rfl

/-! ## The way over HTTP/3 -/

theorem isTokenByte_lower {b : UInt8} (h : isTokenByte b = true) :
    isTokenByte (lowerByte b) = true ∧ lowerByte (lowerByte b) = lowerByte b := by
  unfold lowerByte
  by_cases hupper : 65 ≤ b.toNat ∧ b.toNat ≤ 90
  · have hsum : (b + 32).toNat = b.toNat + 32 := by
      rw [UInt8.toNat_add]
      exact Nat.mod_eq_of_lt (by have := hupper.2; simp; omega)
    rw [if_pos hupper, if_neg (by omega)]
    refine ⟨?_, rfl⟩
    have hlower : 97 ≤ b.toNat + 32 ∧ b.toNat + 32 ≤ 122 := by omega
    simp [isTokenByte, hsum, hlower]
  · rw [if_neg hupper, if_neg hupper]
    exact ⟨h, rfl⟩

/-- A name is lowered once. -/
theorem headerName_idem {name lowered : Bytes} (h : headerName name = some lowered) :
    headerName lowered = some lowered := by
  unfold headerName at h
  split at h
  · rename_i hok
    obtain ⟨hne, hlen, htoken⟩ := hok
    cases h
    rw [List.all_eq_true] at htoken
    have hok' : ¬ (name.map lowerByte).isEmpty ∧ (name.map lowerByte).length < 65536 ∧
        (name.map lowerByte).all isTokenByte := by
      refine ⟨by simpa using hne, by simpa using hlen, List.all_eq_true.mpr fun b hb => ?_⟩
      obtain ⟨a, ha, rfl⟩ := List.mem_map.mp hb
      exact (isTokenByte_lower (htoken a ha)).1
    rw [headerName, if_pos hok', List.map_map]
    refine congrArg some (List.map_congr_left fun a ha => ?_)
    exact (isTokenByte_lower (htoken a ha)).2
  · cases h

/-- The entries of a map: lowered names, valid values. -/
def Normal (m : HeaderMap) : Prop :=
  ∀ field ∈ m, headerName field.1 = some field.1 ∧ headerValue field.2 = some field.2

theorem Normal.insertField {m : HeaderMap} (h : Normal m) (field : Bytes × Bytes) :
    Normal (insertField m field) := by
  unfold ResponseHeaders.insertField
  split
  · rename_i name value hname hvalue
    intro f hf
    rcases List.mem_append.mp hf with hf | hf
    · exact h f (List.mem_of_mem_filter hf)
    · rw [List.mem_singleton.mp hf]
      refine ⟨headerName_idem hname, ?_⟩
      unfold headerValue at hvalue ⊢
      split at hvalue
      · rename_i hok
        cases hvalue
        exact if_pos hok
      · cases hvalue
  · exact h

theorem normal_overTcp (raw : RawHeaders) : Normal (overTcp raw) := by
  have hfold (raw : RawHeaders) (m : HeaderMap) (h : Normal m) :
      Normal (raw.foldl insertField m) := by
    induction raw generalizing m with
    | nil => exact h
    | cons field raw ih => exact ih _ (h.insertField field)
  exact hfold raw [] fun _ hf => (List.not_mem_nil hf).elim

theorem headerValue_visible {value : Bytes} (h : headerValue value = some value) :
    headerValue (visible value) = some (visible value) := by
  unfold visible
  split
  · exact h
  · rfl

theorem Normal.valid_http3Pairs {m : HeaderMap} (h : Normal m) : Valid (http3Pairs m) := by
  intro field hfield
  obtain ⟨f, hf, rfl⟩ := List.mem_map.mp hfield
  obtain ⟨hname, hvalue⟩ := h f hf
  exact ⟨by rw [hname]; exact Option.some_ne_none _, headerValue_visible hvalue⟩

theorem Normal.listed_http3Pairs {m : HeaderMap} (h : Normal m) (n : Bytes) :
    listed (http3Pairs m) n = (m.values n).map visible := by
  rw [listed, http3Pairs, List.filter_map, HeaderMap.values, List.map_map, List.map_map]
  have hsame : m.filter ((fun field => decide (headerName field.1 = some n)) ∘
      fun field => (field.1, visible field.2)) = m.filter fun field => field.1 = n := by
    refine List.filter_congr fun field hf => ?_
    simp only [Function.comp_apply, (h field hf).1, Option.some.injEq]
  rw [hsame]
  rfl

theorem values_overHttp3 {raw : RawHeaders} (h : Valid raw) (n : Bytes) :
    (overHttp3 raw).values n = ((listed raw n).getLast?.toList).map visible := by
  have hnormal := normal_overTcp raw
  rw [overHttp3, values_foldl hnormal.valid_http3Pairs, hnormal.listed_http3Pairs,
    values_overTcp h]
  cases (listed raw n).getLast? <;> rfl

theorem getLast?_toList_eq_iff {α : Type} {l : List α} : l.getLast?.toList = l ↔ l.length ≤ 1 := by
  cases l with
  | nil => simp
  | cons a l =>
    cases l with
    | nil => simp
    | cons b l =>
      constructor
      · intro h
        have hlen := congrArg List.length h
        simp [List.getLast?_cons] at hlen
      · intro h
        simp at h

/-- A response carries its headers over TCP exactly if no name is there twice, and over HTTP/3
exactly if their values are visible ASCII besides. -/
theorem headers_carried_iff (httpDate : Int → String) (r : Response) (b : Built httpDate r) :
    (Carries (overTcp b.raw) b.raw ↔ Unrepeated b.raw) ∧
      (Carries (overHttp3 b.raw) b.raw ↔ Unrepeated b.raw ∧ Readable b.raw) := by
  constructor
  · refine forall₂_congr fun n _ => ?_
    rw [values_overTcp b.valid, getLast?_toList_eq_iff]
  · rw [Unrepeated, Readable, ← forall₂_and]
    refine forall₂_congr fun n _ => ?_
    rw [values_overHttp3 b.valid]
    constructor
    · intro h
      have hlen := congrArg List.length h
      rw [List.length_map] at hlen
      have hone : (listed b.raw n).length ≤ 1 := by
        rw [← hlen]
        cases (listed b.raw n).getLast? <;> simp
      rw [getLast?_toList_eq_iff.mpr hone] at h
      exact ⟨hone, List.map_inj_left.mp (h.trans (List.map_id _).symm)⟩
    · rintro ⟨hone, hread⟩
      rw [getLast?_toList_eq_iff.mpr hone]
      exact (List.map_inj_left.mpr hread).trans (List.map_id _)

/-! ## Two responses -/

def cookie (name value : String) : Cookie :=
  ⟨name, value, none, none, some "/", none, false, false, none⟩

/-- Two cookies. -/
def signedIn : Response :=
  ⟨[], some "application/json", [.setCookie (cookie "a" "1"), .setCookie (cookie "b" "2")]⟩

/-- A header in Latin-1. -/
def named : Response := ⟨[("X-Name", "Zo\u00eb")], none, []⟩

def signedInHeaders : RawHeaders :=
  [(contentType, asBytes "application/json"), (setCookie, asBytes "a=1; path=/"),
    (setCookie, asBytes "b=2; path=/")]

def namedHeaders : RawHeaders := [(asBytes "x-name", [90, 111, 235])]

/-- Of two cookies one is sent, and a value in Latin-1 is sent as nothing over HTTP/3. -/
theorem headers_lost :
    (signedIn.rawHeaders (fun _ => "") = some signedInHeaders ∧ Valid signedInHeaders ∧
      ¬ Carries (overTcp signedInHeaders) signedInHeaders) ∧
    (named.rawHeaders (fun _ => "") = some namedHeaders ∧ Valid namedHeaders ∧
      ¬ Carries (overHttp3 namedHeaders) namedHeaders) := by
  refine ⟨⟨rfl, ?_, fun h => ?_⟩, rfl, ?_, fun h => ?_⟩
  · unfold Valid
    decide
  · have hcookies := h setCookie (by decide)
    revert hcookies
    decide
  · unfold Valid
    decide
  · have hname := h (asBytes "x-name") (by decide)
    revert hname
    decide

end JustApi.Py.ResponseHeaders
