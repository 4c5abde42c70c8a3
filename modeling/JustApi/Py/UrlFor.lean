import JustApi.Core.Routing
import JustApi.Core.UrlDecoding
import JustApi.Lib.Tally
import JustApi.Py.RouteAlignment
import Mathlib.Data.List.TakeWhile

/-! # Paths of named routes

The two `url_for`, one of the app in Python and one in Rust that requests use, and the router
that a path goes through. The path of a request is not decoded. -/
namespace JustApi.Py.UrlFor
open JustApi.Core.Http JustApi.Core.Routing JustApi.Lib.Tally
open JustApi.Core.QueryString (asBytes toNat_ofNat_of_lt utf8EncodeChar_cases)
open JustApi.Core.UrlDecoding (asChar hexUpper forall_byte)

/-! ## Registration -/

structure Registration where
  method : Method
  path : String
  name : Option String

structure App where
  /-- `_named_routes` in Python and `named_routes` in Rust. -/
  pyNames : AList fun _ : String => String
  rustNames : AList fun _ : String => String
  /-- Of the paths for `GET`. -/
  routeIndices : AList fun _ : String => Nat
  router : Router Nat
  /-- `handlers.len()` -/
  handlers : Nat

namespace App

def new : App := ⟨∅, ∅, ∅, ⟨∅, [], some 0⟩, 0⟩

def setPyName (app : App) (r : Registration) : App :=
  match r.name with
  | none => app
  | some name => { app with pyNames := app.pyNames.insert name r.path }

def setRustName (app : App) (r : Registration) : App :=
  match r.name with
  | none => app
  | some name => { app with rustNames := app.rustNames.insert name r.path }

variable {E : Type} (mx : Matchit E Nat)

/-- `router.insert` with the id of a new handler. -/
def insertRoute (app : App) (r : Registration) : Except E Unit × App :=
  let (result, router) := app.router.insert mx r.method r.path app.handlers
  (result, { app with router := router, handlers := app.handlers + 1 })

/-- The registration in Rust. For `GET` a path that is there already gets a new handler, and the
name comes last; the other methods set the name before the router sees the path. -/
def rustRegister (app : App) (r : Registration) : Except E Unit × App :=
  if r.method = .get then
    match app.routeIndices.lookup r.path with
    | some _ => (.ok (), app.setRustName r)
    | none =>
      match { app with
        routeIndices := app.routeIndices.insert r.path app.handlers }.insertRoute mx r with
      | (.error e, app) => (.error e, app)
      | (.ok _, app) => (.ok (), app.setRustName r)
  else (app.setRustName r).insertRoute mx r

/-- Most functions set the name first, and all of them when the route is recorded at the end. -/
def register (app : App) (r : Registration) : Except E Unit × App :=
  let first := if r.method ∈ [.extension "QUERY", .trace] then app else app.setPyName r
  match first.rustRegister mx r with
  | (.error e, app) => (.error e, app)
  | (.ok _, app) => (.ok (), app.setPyName r)

/-- The app after the registrations; those that raise have been caught. -/
def after (calls : List Registration) : App :=
  calls.foldl (fun app r => (app.register mx r).2) .new

end App

/-- A registration that its name stands for, and the id that the router has for its path. -/
structure IsNamed {E : Type} (mx : Matchit E Nat) (calls : List Registration) (name : String)
    (r : Registration) (id : Nat) : Prop where
  named : r.name = some name
  registered : ∃ before later, calls = before ++ r :: later ∧
    ((App.after mx before).register mx r).1 = .ok () ∧
    ∀ r' ∈ later, r'.name = some name → r'.path = r.path
  routed : (r.path, id) ∈ (App.after mx calls).router.routesOf r.method

/-! ## The paths -/

inductive UrlError where
  /-- A `KeyError` for the name of the route. -/
  | noRoute (name : String)
  /-- A `KeyError` for a parameter. -/
  | missing (parameter : String)
  /-- A `TypeError`. -/
  | multipleValues (argument : String)
  | notImplemented
  deriving DecidableEq, Repr

/-- Letters, digits and `_.-~` -/
def unreserved (c : Char) : Bool := c.isAlphanum || c ∈ ['_', '.', '-', '~']

def quoteByte (b : UInt8) : List Char :=
  if unreserved (asChar b) then [asChar b]
  else ['%', hexUpper (b.toNat / 16), hexUpper (b.toNat % 16)]

/-- `quote(s, safe="")` -/
def quote (s : String) : List Char := (asBytes s).flatMap quoteByte

/-- `re.sub(r"{([^}]+)}", repl, path)`, inside a brace with what has been read since. -/
def pySub (value : String → Option (List Char)) :
    Option (List Char) → List Char → Except UrlError (List Char)
  | none, [] => .ok []
  | some key, [] => .ok ('{' :: key)
  | none, c :: rest =>
    if c = '{' then pySub value (some []) rest else (pySub value none rest).map (c :: ·)
  | some key, c :: rest =>
    if c = '}' then
      if key = [] then (pySub value none rest).map ('{' :: '}' :: ·)
      else
        match value (String.ofList key) with
        | none => .error (.missing (String.ofList key))
        | some v => (pySub value none rest).map (v ++ ·)
    else pySub value (some (key ++ [c])) rest

/-- The loop in Rust: a missing parameter keeps its placeholder. -/
def rustSub (value : String → Option (List Char)) : Option (List Char) → List Char → List Char
  | none, [] => []
  | some key, [] => (value (String.ofList key)).getD ('{' :: key ++ ['}'])
  | none, c :: rest =>
    if c = '{' then rustSub value (some []) rest else c :: rustSub value none rest
  | some key, c :: rest =>
    if c = '}' then
      (value (String.ofList key)).getD ('{' :: key ++ ['}']) ++ rustSub value none rest
    else rustSub value (some (key ++ [c])) rest

section Paths

variable (app : App) (name : String) (params : AList fun _ : String => String)

/-- `app.url_for(name, **params)` -/
def App.urlFor : Except UrlError String :=
  if "self" ∈ params then .error (.multipleValues "self")
  else if "name" ∈ params then .error (.multipleValues "name")
  else
    match app.pyNames.lookup name with
    | none => .error (.noRoute name)
    | some path => (pySub (fun p => (params.lookup p).map quote) none path.toList).map String.ofList

/-- `url_for` of the app in Rust. -/
def App.rustUrlFor : Except UrlError String :=
  match app.rustNames.lookup name with
  | none => .error (.noRoute name)
  | some template =>
    .ok (String.ofList (rustSub (fun key => (params.lookup key).map String.toList) none
      template.toList))

/-- `request.url_for(name, **params)`; the request of a batch has no app. -/
def App.requestUrlFor (batched : Bool) : Except UrlError String :=
  if "name" ∈ params then .error (.multipleValues "name")
  else if batched then .error .notImplemented
  else app.rustUrlFor name params

end Paths

/-- `request.path_params` -/
def pathParams (params : List (String × String)) : AList fun _ : String => String :=
  params.foldl (fun d e => d.insert e.1 e.2) ∅

/-! ## Templates -/

inductive Segment where
  | literal (text : List Char)
  | placeholder (name : String)
  deriving DecidableEq, Repr

namespace Segment

def chars : Segment → List Char
  | literal text => text
  | placeholder name => '{' :: name.toList ++ ['}']

/-- The text of one segment of a path, without braces; a name is not a catch-all's. -/
def WellFormed : Segment → Prop
  | literal text => ∀ c ∈ text, c ∉ ['/', '?', '#', '{', '}']
  | placeholder name => name ≠ "" ∧ name.toList.head? ≠ some '*' ∧
      ∀ c ∈ name.toList, c ∉ ['/', '{', '}']

def expand (value : String → List Char) : Segment → List Char
  | literal text => text
  | placeholder name => value name

def name? : Segment → Option String
  | literal _ => none
  | placeholder name => some name

end Segment

structure Template where
  segments : List Segment
  ne : segments ≠ []
  wf : ∀ s ∈ segments, s.WellFormed

/-- Each part with a slash before it. -/
def slashed (parts : List (List Char)) : List Char := parts.flatMap fun part => '/' :: part

def Template.text (t : Template) : String := String.ofList (slashed (t.segments.map Segment.chars))

def Template.names (t : Template) : List String := t.segments.filterMap Segment.name?

/-- What the parts of a path are bound to. -/
def bindParts : List Segment → List (List Char) → Option (List (String × String))
  | [], [] => some []
  | .literal text :: segments, part :: parts =>
    if part = text then bindParts segments parts else none
  | .placeholder name :: segments, part :: parts =>
    if part = [] then none
    else (bindParts segments parts).map ((name, String.ofList part) :: ·)
  | _, _ => none

def bindPath (segments : List Segment) (path : List Char) : Option (List (String × String)) :=
  match path.splitOn '/' with
  | [] :: parts => bindParts segments parts
  | _ => none

/-- `matchit` finds a route if no other matches the path, and binds each placeholder to the text
of its segment. -/
def BindsSegments {E : Type} (mx : Matchit E Nat) : Prop :=
  ∀ (routes : List (String × Nat)) (t : Template) (id : Nat) (path : String)
    (params : List (String × String)), (t.text, id) ∈ routes →
    (∀ e ∈ routes, e ≠ (t.text, id) → mx.find [e] path = none) →
    bindPath t.segments path.toList = some params → mx.find routes path = some ⟨id, params⟩

/-- The path of a request for `u`: a query or a fragment is not a part of it. -/
def requestPath (u : String) : String :=
  String.ofList (u.toList.takeWhile fun c => c ∉ ['?', '#'])

/-- Both `url_for` give a path that leads back to the route and its parameters. -/
def Inverts {E : Type} (mx : Matchit E Nat) (app : App) (r : Registration) (id : Nat)
    (name : String) (params : AList fun _ : String => String) (batched : Bool) : Prop :=
  ∃ u, app.urlFor name params = .ok u ∧ app.requestUrlFor name params batched = .ok u ∧
    ((∀ e ∈ app.router.routesOf r.method, e ≠ (r.path, id) → mx.find [e] (requestPath u) = none) →
      ∃ bound, app.router.rawResolve mx r.method (requestPath u) = .ok ⟨id, bound⟩ ∧
        ∀ key, (pathParams bound).lookup key = params.lookup key)

/-! ## Quoting -/

section Quoting

variable {c : Char} {s : String}

def quoteChar (c : Char) : List Char := (String.utf8EncodeChar c).flatMap quoteByte

theorem quote_eq (s : String) : quote s = s.toList.flatMap quoteChar := List.flatMap_assoc

theorem lt_of_isAlphanum (h : c.isAlphanum = true) : c.toNat < 128 := by
  have hbelow : ∀ d : Char, d.toNat < 128 → c.val ≤ d.val → c.toNat < 128 :=
    fun d hd hle => Nat.lt_of_le_of_lt (UInt32.le_iff_toNat_le.mp hle) hd
  rcases Bool.or_eq_true_iff.mp h with halpha | hdigit
  · rcases Bool.or_eq_true_iff.mp halpha with hupper | hlower
    · exact hbelow 'Z' (by decide) (of_decide_eq_true hupper).2
    · exact hbelow 'z' (by decide) (of_decide_eq_true (Bool.and_eq_true_iff.mp hlower).2)
  · exact hbelow '9' (by decide) (of_decide_eq_true (Bool.and_eq_true_iff.mp hdigit).2)

theorem lt_of_unreserved (h : unreserved c = true) : c.toNat < 128 := by
  rcases Bool.or_eq_true_iff.mp h with h | h
  · exact lt_of_isAlphanum h
  · have hmem : c ∈ ['_', '.', '-', '~'] := of_decide_eq_true h
    simp only [List.mem_cons, List.not_mem_nil, or_false] at hmem
    rcases hmem with rfl | rfl | rfl | rfl
    all_goals decide

theorem asChar_ofNat (h : c.toNat < 128) : asChar (UInt8.ofNat c.toNat) = c := by
  rw [asChar, toNat_ofNat_of_lt (by omega), Char.ofNat_toNat]

theorem quoteChar_ascii (h : c.toNat < 128) : quoteChar c = quoteByte (UInt8.ofNat c.toNat) := by
  rcases utf8EncodeChar_cases c with ⟨-, hbytes⟩ | ⟨hge, -⟩
  · rw [quoteChar, hbytes, List.flatMap_singleton]
  · omega

theorem quoteChar_unreserved (h : unreserved c = true) : quoteChar c = [c] := by
  have hlt := lt_of_unreserved h
  rw [quoteChar_ascii hlt, quoteByte, asChar_ofNat hlt, if_pos h]

theorem toNat_asChar (b : UInt8) : (asChar b).toNat = b.toNat := by
  revert b
  exact forall_byte (by decide +kernel)

/-- No byte of a character that is quoted is kept. -/
theorem unreserved_byte (h : unreserved c = false) {b : UInt8} (hb : b ∈ String.utf8EncodeChar c) :
    unreserved (asChar b) = false := by
  rcases utf8EncodeChar_cases c with ⟨hlt, hbytes⟩ | ⟨-, hbytes⟩
  · rw [hbytes, List.mem_singleton] at hb
    rw [hb, asChar_ofNat hlt]
    exact h
  · by_contra hkept
    have hlt := lt_of_unreserved (Bool.eq_true_of_not_eq_false hkept)
    have hge := hbytes b hb
    rw [toNat_asChar] at hlt
    omega

theorem length_quoteChar (h : unreserved c = false) : 1 < (quoteChar c).length := by
  obtain ⟨b, rest, hcons⟩ := List.exists_cons_of_ne_nil (String.utf8EncodeChar_ne_nil (c := c))
  have hb := unreserved_byte h (hcons ▸ List.mem_cons_self)
  have hlen : (quoteByte b).length = 3 := by simp [quoteByte, hb]
  rw [quoteChar, hcons, List.flatMap_cons, List.length_append, hlen]
  omega

theorem one_le_length_quoteChar (c : Char) : 1 ≤ (quoteChar c).length := by
  cases h : unreserved c with
  | false => exact (length_quoteChar h).le
  | true => simp [quoteChar_unreserved h]

theorem length_quote (s : String) :
    (quote s).length = (s.toList.map fun c => (quoteChar c).length).sum := by
  rw [quote_eq, List.length_flatMap]

theorem length_eq_sum (s : String) : s.toList.length = (s.toList.map fun _ => 1).sum := by
  simp

theorem quote_of_unreserved (h : ∀ c ∈ s.toList, unreserved c = true) : quote s = s.toList := by
  rw [quote_eq]
  calc s.toList.flatMap quoteChar
      = s.toList.flatMap fun c => [c] :=
        List.flatMap_congr fun c hc => quoteChar_unreserved (h c hc)
    _ = s.toList := List.flatMap_singleton' _

theorem length_le_quote (s : String) : s.toList.length ≤ (quote s).length := by
  rw [length_quote, length_eq_sum]
  exact List.sum_le_sum fun c _ => one_le_length_quoteChar c

/-- Quoting changes the length of anything that it changes. -/
theorem unreserved_of_length (h : s.toList.length = (quote s).length) :
    ∀ c ∈ s.toList, unreserved c = true := by
  intro c hc
  rw [length_quote, length_eq_sum] at h
  have hone := eq_of_sum_map_eq (fun c _ => one_le_length_quoteChar c) h c hc
  by_contra hquoted
  have hmore := length_quoteChar (Bool.eq_false_of_not_eq_true hquoted)
  omega

end Quoting

/-! ## Expansion -/

section Expansion

variable {value : String → Option (List Char)} {f : String → List Char} {out rest : List Char}

theorem pySub_literal {text : List Char} (htext : ∀ c ∈ text, c ≠ '{')
    (hrest : pySub value none rest = .ok out) :
    pySub value none (text ++ rest) = .ok (text ++ out) := by
  induction text with
  | nil => exact hrest
  | cons c text ih =>
    obtain ⟨hc, htext⟩ := List.forall_mem_cons.mp htext
    rw [List.cons_append, pySub, if_neg hc, ih htext]
    rfl

theorem pySub_placeholder (key : List Char) {name v : List Char} (hname : ∀ c ∈ name, c ≠ '}')
    (hne : key ++ name ≠ []) (hv : value (String.ofList (key ++ name)) = some v)
    (hrest : pySub value none rest = .ok out) :
    pySub value (some key) (name ++ '}' :: rest) = .ok (v ++ out) := by
  induction name generalizing key with
  | nil =>
    rw [List.append_nil] at hne hv
    rw [List.nil_append, pySub, if_pos rfl, if_neg hne, hv, hrest]
    rfl
  | cons c name ih =>
    obtain ⟨hc, hname⟩ := List.forall_mem_cons.mp hname
    rw [List.append_cons] at hne hv
    rw [List.cons_append, pySub, if_neg hc]
    exact ih _ hname hne hv

theorem rustSub_literal {text : List Char} (htext : ∀ c ∈ text, c ≠ '{') :
    rustSub value none (text ++ rest) = text ++ rustSub value none rest := by
  induction text with
  | nil => rfl
  | cons c text ih =>
    obtain ⟨hc, htext⟩ := List.forall_mem_cons.mp htext
    rw [List.cons_append, rustSub, if_neg hc, ih htext, List.cons_append]

theorem rustSub_placeholder (key rest : List Char) {name v : List Char}
    (hname : ∀ c ∈ name, c ≠ '}')
    (hv : value (String.ofList (key ++ name)) = some v) :
    rustSub value (some key) (name ++ '}' :: rest) = v ++ rustSub value none rest := by
  induction name generalizing key with
  | nil =>
    rw [List.append_nil] at hv
    rw [List.nil_append, rustSub, if_pos rfl, hv, Option.getD_some]
  | cons c name ih =>
    obtain ⟨hc, hname⟩ := List.forall_mem_cons.mp hname
    rw [List.append_cons] at hv
    rw [List.cons_append, rustSub, if_neg hc]
    exact ih _ hname hv

theorem slashed_cons (part : List Char) (parts : List (List Char)) :
    slashed (part :: parts) = '/' :: part ++ slashed parts := rfl

theorem literal_ne {text : List Char} (h : (Segment.literal text).WellFormed) :
    ∀ c ∈ '/' :: text, c ≠ '{' :=
  List.forall_mem_cons.mpr ⟨by decide, fun c hc heq => h c hc (by simp [heq])⟩

theorem placeholder_ne {name : String} (h : (Segment.placeholder name).WellFormed) :
    ∀ c ∈ name.toList, c ≠ '}' := fun c hc heq => h.2.2 c hc (by simp [heq])

/-- Segment by segment. -/
theorem pySub_slashed {segments : List Segment} (hwf : ∀ s ∈ segments, s.WellFormed)
    (hvalue : ∀ n ∈ segments.filterMap Segment.name?, value n = some (f n)) :
    pySub value none (slashed (segments.map Segment.chars)) =
      .ok (slashed (segments.map (Segment.expand f))) := by
  induction segments with
  | nil => rfl
  | cons s segments ih =>
    obtain ⟨hs, hsegments⟩ := List.forall_mem_cons.mp hwf
    cases s with
    | literal text => exact pySub_literal (literal_ne hs) (ih hsegments hvalue)
    | placeholder name =>
      obtain ⟨hv, hvalue⟩ := List.forall_mem_cons.mp hvalue
      have hbrace := pySub_placeholder [] (placeholder_ne hs) (by simpa using hs.1)
        (by simpa using hv) (ih hsegments hvalue)
      rw [List.map_cons, List.map_cons, slashed_cons, slashed_cons, Segment.chars, Segment.expand]
      simp [pySub, hbrace, Except.map]

theorem rustSub_slashed {segments : List Segment} (hwf : ∀ s ∈ segments, s.WellFormed)
    (hvalue : ∀ n ∈ segments.filterMap Segment.name?, value n = some (f n)) :
    rustSub value none (slashed (segments.map Segment.chars)) =
      slashed (segments.map (Segment.expand f)) := by
  induction segments with
  | nil => rfl
  | cons s segments ih =>
    obtain ⟨hs, hsegments⟩ := List.forall_mem_cons.mp hwf
    cases s with
    | literal text =>
      rw [List.map_cons, List.map_cons, slashed_cons, slashed_cons, Segment.chars, Segment.expand,
        rustSub_literal (literal_ne hs), ih hsegments hvalue]
    | placeholder name =>
      obtain ⟨hv, hvalue⟩ := List.forall_mem_cons.mp hvalue
      have hbrace := rustSub_placeholder [] (slashed (segments.map Segment.chars))
        (placeholder_ne hs) (by simpa using hv)
      rw [ih hsegments hvalue] at hbrace
      rw [List.map_cons, List.map_cons, slashed_cons, slashed_cons, Segment.chars, Segment.expand]
      simp [rustSub, hbrace]

end Expansion

/-! ## Names -/

section Names

variable {E : Type} {mx : Matchit E Nat} {app : App} {name path : String} {r : Registration}

/-- The name leads to the path in both languages. -/
structure Stands (name path : String) (app : App) : Prop where
  py : app.pyNames.lookup name = some path
  rust : app.rustNames.lookup name = some path

theorem setPyName_of_name (h : r.name = some name) :
    app.setPyName r = { app with pyNames := app.pyNames.insert name r.path } := by
  rw [App.setPyName, h]

theorem setRustName_of_name (h : r.name = some name) :
    app.setRustName r = { app with rustNames := app.rustNames.insert name r.path } := by
  rw [App.setRustName, h]

theorem lookup_insert_same {names : AList fun _ : String => String} {key p : String}
    (h : names.lookup name = some path) (hsame : key = name → p = path) :
    (names.insert key p).lookup name = some path := by
  by_cases hkey : key = name
  · rw [hkey, AList.lookup_insert, hsame hkey]
  · rw [AList.lookup_insert_ne (Ne.symm hkey), h]

theorem Stands.setPyName (h : Stands name path app) (hsame : r.name = some name → r.path = path) :
    Stands name path (app.setPyName r) := by
  unfold App.setPyName
  split
  · exact h
  · rename_i key hkey
    exact ⟨lookup_insert_same h.py fun heq => hsame (heq ▸ hkey), h.rust⟩

theorem Stands.setRustName (h : Stands name path app) (hsame : r.name = some name → r.path = path) :
    Stands name path (app.setRustName r) := by
  unfold App.setRustName
  split
  · exact h
  · rename_i key hkey
    exact ⟨h.py, lookup_insert_same h.rust fun heq => hsame (heq ▸ hkey)⟩

theorem Stands.rustRegister (mx : Matchit E Nat) (h : Stands name path app)
    (hsame : r.name = some name → r.path = path) :
    Stands name path (app.rustRegister mx r).2 := by
  unfold App.rustRegister
  split
  · split
    · exact h.setRustName hsame
    · have hroute : Stands name path (App.insertRoute mx { app with
          routeIndices := app.routeIndices.insert r.path app.handlers } r).2 := ⟨h.py, h.rust⟩
      split
      · rename_i hinsert
        rw [hinsert] at hroute
        exact hroute
      · rename_i hinsert
        rw [hinsert] at hroute
        exact hroute.setRustName hsame
  · have hset := h.setRustName hsame
    exact ⟨hset.py, hset.rust⟩

/-- A registration of the name with the same path, or of another. -/
theorem Stands.register (h : Stands name path app) (hsame : r.name = some name → r.path = path) :
    Stands name path (app.register mx r).2 := by
  unfold App.register
  have hfirst : Stands name path
      (if r.method ∈ [.extension "QUERY", .trace] then app else app.setPyName r) := by
    split
    · exact h
    · exact h.setPyName hsame
  have hrust := hfirst.rustRegister mx hsame
  dsimp only
  split
  · rename_i hresult
    rw [hresult] at hrust
    exact hrust
  · rename_i hresult
    rw [hresult] at hrust
    exact hrust.setPyName hsame

theorem rustRegister_rustNames (hname : r.name = some name)
    (hok : (app.rustRegister mx r).1 = .ok ()) :
    (app.rustRegister mx r).2.rustNames.lookup name = some r.path := by
  unfold App.rustRegister at hok ⊢
  split
  · split
    · rw [setRustName_of_name hname, AList.lookup_insert]
    · split
      · rename_i hget _ hnone _ _ _ hinsert
        rw [if_pos hget, hnone, hinsert] at hok
        cases hok
      · rw [setRustName_of_name hname, AList.lookup_insert]
  · rw [setRustName_of_name hname]
    exact AList.lookup_insert _

theorem stands_of_registered (hname : r.name = some name) (hok : (app.register mx r).1 = .ok ()) :
    Stands name r.path (app.register mx r).2 := by
  unfold App.register at hok ⊢
  dsimp only at hok ⊢
  split
  · rename_i hresult
    rw [hresult] at hok
    cases hok
  · rename_i hresult
    have hrust := rustRegister_rustNames hname (congrArg Prod.fst hresult)
    rw [hresult] at hrust
    rw [setPyName_of_name hname]
    exact ⟨AList.lookup_insert _, hrust⟩

/-- Over the registrations that follow. -/
theorem Stands.foldl {later : List Registration} (h : Stands name path app)
    (hlater : ∀ r ∈ later, r.name = some name → r.path = path) :
    Stands name path (later.foldl (fun app r => (app.register mx r).2) app) := by
  induction later generalizing app with
  | nil => exact h
  | cons r later ih =>
    obtain ⟨hr, hlater⟩ := List.forall_mem_cons.mp hlater
    exact ih (h.register hr) hlater

theorem IsNamed.stands {calls : List Registration} {id : Nat} (h : IsNamed mx calls name r id) :
    Stands name r.path (App.after mx calls) := by
  obtain ⟨before, later, rfl, hok, hlater⟩ := h.registered
  rw [App.after, List.foldl_append, List.foldl_cons]
  exact (stands_of_registered h.named hok).foldl hlater

end Names

/-! ## The route tables -/

section Mirroring

open JustApi.Py.RouteTables (Tables Call assign_ok)

variable {E H S : Type} {mx : Matchit E Nat} {schemaJson : S → Option String} {app : App}
  {t t' : Tables H S} {r : Registration}

/-- The app has the indices, the router and the ids of the tables. -/
structure Mirrors (app : App) (t : Tables H S) : Prop where
  indices : ∀ path, t.routeIndices.lookup (.get, path) = app.routeIndices.lookup path
  router : t.router = app.router
  handlers : t.handlers.length = app.handlers

theorem Mirrors.setRustName (h : Mirrors app t) : Mirrors (app.setRustName r) t := by
  unfold App.setRustName
  split
  · exact h
  · exact ⟨h.indices, h.router, h.handlers⟩

theorem Mirrors.insertRoute (app : App) {u : Tables H S} (hindices : ∀ path,
      u.routeIndices.lookup (.get, path) = app.routeIndices.lookup path)
    (hrouter : u.router = app.router) (hhandlers : u.handlers.length = app.handlers + 1)
    (h : Tables.insertRoute mx u r.method r.path app.handlers = (.ok (), t')) :
    (app.insertRoute mx r).1 = .ok () ∧ Mirrors (app.insertRoute mx r).2 t' := by
  unfold Tables.insertRoute at h
  unfold App.insertRoute
  rw [hrouter] at h
  split at h
  · rename_i hinsert
    rw [hinsert]
    obtain ⟨-, rfl⟩ := Prod.mk.inj h
    exact ⟨rfl, hindices, rfl, hhandlers⟩
  · cases (Prod.mk.inj h).1

/-- A path that `GET` has already. -/
theorem Mirrors.again (h : Mirrors app t) (hmethod : r.method = .get) {id : Nat}
    (hid : t.routeIndices.lookup (.get, r.path) = some id)
    (hindices : t'.routeIndices = t.routeIndices) (hrouter : t'.router = t.router)
    (hhandlers : t'.handlers.length = t.handlers.length) :
    (app.rustRegister mx r).1 = .ok () ∧ Mirrors (app.rustRegister mx r).2 t' := by
  have hmirrors : Mirrors app t' :=
    ⟨hindices ▸ h.indices, hrouter.trans h.router, hhandlers.trans h.handlers⟩
  unfold App.rustRegister
  rw [if_pos hmethod, ← h.indices, hid]
  exact ⟨rfl, hmirrors.setRustName⟩

/-- A new path for `GET`. -/
theorem Mirrors.anew (h : Mirrors app t) (hmethod : r.method = .get)
    (hnone : t.routeIndices.lookup (.get, r.path) = none) {u : Tables H S}
    (hindices : u.routeIndices = t.routeIndices.insert (.get, r.path) t.handlers.length)
    (hrouter : u.router = t.router) (hhandlers : u.handlers.length = t.handlers.length + 1)
    (hok : Tables.insertRoute mx u .get r.path t.handlers.length = (.ok (), t')) :
    (app.rustRegister mx r).1 = .ok () ∧ Mirrors (app.rustRegister mx r).2 t' := by
  have hlookup : ∀ path, u.routeIndices.lookup (.get, path) =
      (app.routeIndices.insert r.path app.handlers).lookup path := by
    intro path
    rw [hindices, h.handlers]
    by_cases hpath : path = r.path
    · rw [hpath, AList.lookup_insert, AList.lookup_insert]
    · rw [AList.lookup_insert_ne hpath, AList.lookup_insert_ne fun he => hpath (Prod.mk.inj he).2,
        h.indices]
  rw [h.handlers, ← hmethod] at hok
  rw [h.handlers] at hhandlers
  obtain ⟨hinserted, hmirrors⟩ := Mirrors.insertRoute { app with
    routeIndices := app.routeIndices.insert r.path app.handlers } hlookup
    (hrouter.trans h.router) hhandlers hok
  unfold App.rustRegister
  rw [if_pos hmethod, ← h.indices, hnone]
  dsimp only
  split
  · rename_i hresult
    rw [hresult] at hinserted
    cases hinserted
  · rename_i hresult
    rw [hresult] at hmirrors
    exact ⟨rfl, hmirrors.setRustName⟩

theorem Mirrors.push (h : Mirrors app t) (hmethod : r.method ≠ .get) {bodySchema schema : Option S}
    {batch : Option (Nat × Nat)} {reg : JustApi.Py.RouteTables.Registration H S}
    (hpath : r.path = reg.path)
    (hok : Tables.push mx schemaJson r.method bodySchema schema batch reg t = (.ok (), t')) :
    (app.rustRegister mx r).1 = .ok () ∧ Mirrors (app.rustRegister mx r).2 t' := by
  have hset : Mirrors (app.setRustName r) t := h.setRustName
  unfold App.rustRegister
  rw [if_neg hmethod]
  unfold Tables.push at hok
  dsimp only at hok
  split at hok
  · cases (Prod.mk.inj hok).1
  · split at hok
    · cases (Prod.mk.inj hok).1
    · split at hok
      · cases (Prod.mk.inj hok).1
      · rw [hset.handlers, ← hpath] at hok
        refine Mirrors.insertRoute (app.setRustName r) ?_ ?_ ?_ hok
        · exact hset.indices
        · exact hset.router
        · rw [List.length_append, hset.handlers, List.length_singleton]

theorem Mirrors.get (h : Mirrors app t) (hmethod : r.method = .get)
    {reg : JustApi.Py.RouteTables.Registration H S} (hpath : r.path = reg.path)
    (hok : Tables.get mx schemaJson reg t = (.ok (), t')) :
    (app.rustRegister mx r).1 = .ok () ∧ Mirrors (app.rustRegister mx r).2 t' := by
  unfold Tables.get at hok
  rw [← hpath] at hok
  split at hok
  · cases (Prod.mk.inj hok).1
  · split at hok
    · cases (Prod.mk.inj hok).1
    · split at hok
      · rename_i hid
        obtain ⟨-, hok⟩ := assign_ok hok
        obtain ⟨-, hok⟩ := assign_ok hok
        obtain ⟨-, hok⟩ := assign_ok hok
        obtain ⟨-, hok⟩ := assign_ok hok
        obtain ⟨-, hok⟩ := assign_ok hok
        obtain ⟨-, hok⟩ := assign_ok hok
        obtain ⟨-, rfl⟩ := Prod.mk.inj hok
        exact h.again hmethod hid rfl rfl List.length_set
      · rename_i hnone
        refine h.anew hmethod hnone ?_ ?_ ?_ hok
        · rfl
        · rfl
        · rw [List.length_append, List.length_singleton]

theorem Mirrors.sseNative (h : Mirrors app t) (hmethod : r.method = .get) {count intervalMs : Nat}
    (hok : Tables.sseNative mx r.path count intervalMs t = (.ok (), t')) :
    (app.rustRegister mx r).1 = .ok () ∧ Mirrors (app.rustRegister mx r).2 t' := by
  unfold Tables.sseNative at hok
  split at hok
  · rename_i hid
    obtain ⟨-, hok⟩ := assign_ok hok
    obtain ⟨-, hok⟩ := assign_ok hok
    obtain ⟨-, rfl⟩ := Prod.mk.inj hok
    exact h.again hmethod hid rfl rfl List.length_set
  · rename_i hnone
    refine h.anew hmethod hnone ?_ ?_ ?_ hok
    · rfl
    · rfl
    · rw [List.length_append, List.length_singleton]

/-- What a registration that does not raise does to the tables, it does to the app. -/
theorem Mirrors.exec (h : Mirrors app t) {call : Call H S}
    (hmethod : r.method = (call.route schemaJson).1) (hpath : r.path = (call.route schemaJson).2.1)
    (hok : call.exec mx schemaJson t = (.ok (), t')) :
    (app.rustRegister mx r).1 = .ok () ∧ Mirrors (app.rustRegister mx r).2 t' := by
  have hpush (method : Method) (bodySchema schema : Option S) (batch : Option (Nat × Nat))
      (reg : JustApi.Py.RouteTables.Registration H S) (hne : method ≠ .get)
      (hmethod : r.method = method) (hpath : r.path = reg.path)
      (hok : Tables.push mx schemaJson method bodySchema schema batch reg t = (.ok (), t')) :
      (app.rustRegister mx r).1 = .ok () ∧ Mirrors (app.rustRegister mx r).2 t' := by
    subst hmethod
    exact h.push hne hpath hok
  cases call with
  | get reg => exact h.get hmethod hpath hok
  | post reg => exact hpush .post _ _ _ reg (by decide) hmethod hpath hok
  | put reg => exact hpush .put _ _ _ reg (by decide) hmethod hpath hok
  | patch reg => exact hpush .patch _ _ _ reg (by decide) hmethod hpath hok
  | delete reg => exact hpush .delete none none none reg (by decide) hmethod hpath hok
  | query reg => exact hpush (.extension "QUERY") _ _ _ reg (by decide) hmethod hpath hok
  | head reg => exact hpush .head none none none reg (by decide) hmethod hpath hok
  | options reg => exact hpush .options none none none reg (by decide) hmethod hpath hok
  | trace reg => exact hpush .trace none none none reg (by decide) hmethod hpath hok
  | sseNative path count intervalMs =>
    have hsame : r.path = path := hpath
    subst hsame
    exact h.sseNative hmethod hok

end Mirroring

/-! ## Paths of a template -/

section Templates

variable {t : Template} {params : AList fun _ : String => String} {f g : String → List Char}

/-- The path of a template whose placeholders have these values. -/
def Template.path (t : Template) (f : String → List Char) : List Char :=
  slashed (t.segments.map (Segment.expand f))

/-- The value of a parameter. -/
def valueOf (params : AList fun _ : String => String) (key : String) : String :=
  (params.lookup key).getD ""

theorem length_path (t : Template) (f : String → List Char) :
    (t.path f).length = (t.segments.map fun s => (s.expand f).length + 1).sum := by
  rw [Template.path, slashed, List.flatMap_map, List.length_flatMap]
  rfl

theorem mem_names {name : String} :
    name ∈ t.names ↔ Segment.placeholder name ∈ t.segments := by
  constructor
  · intro h
    obtain ⟨s, hs, hname⟩ := List.mem_filterMap.mp h
    cases s with
    | literal text => cases hname
    | placeholder n => cases hname; exact hs
  · intro h
    exact List.mem_filterMap.mpr ⟨_, h, rfl⟩

/-- Values that are never shorter give the same path only if they are all as long. -/
theorem length_eq_of_path (hle : ∀ n, (f n).length ≤ (g n).length) (h : t.path f = t.path g) :
    ∀ n ∈ t.names, (f n).length = (g n).length := by
  have hexpand : ∀ s ∈ t.segments, (s.expand f).length + 1 ≤ (s.expand g).length + 1 := by
    intro s _
    cases s with
    | literal text => exact Nat.le_refl _
    | placeholder n => exact Nat.succ_le_succ (hle n)
  have htotal := congrArg List.length h
  rw [length_path, length_path] at htotal
  intro n hn
  exact Nat.succ.inj (eq_of_sum_map_eq hexpand htotal _ (mem_names.mp hn))

theorem path_congr (h : ∀ n ∈ t.names, f n = g n) : t.path f = t.path g := by
  have hexpand : t.segments.map (Segment.expand f) = t.segments.map (Segment.expand g) := by
    refine List.map_congr_left fun s hs => ?_
    cases s with
    | literal text => rfl
    | placeholder n => exact h n (mem_names.mpr hs)
  rw [Template.path, hexpand, Template.path]

/-! ## Splitting -/

theorem splitOn_slashed (part : List Char) {parts : List (List Char)} (hpart : '/' ∉ part)
    (hparts : ∀ p ∈ parts, '/' ∉ p) :
    (part ++ slashed parts).splitOn '/' = part :: parts := by
  have hkeep : ∀ p : List Char, '/' ∉ p → ∀ c ∈ p, (c == '/') = false := by
    intro p hp c hc
    exact beq_eq_false_iff_ne.mpr fun heq => hp (heq ▸ hc)
  induction parts generalizing part with
  | nil =>
    rw [slashed, List.flatMap_nil, List.append_nil, List.splitOn_eq_splitOnP]
    exact List.splitOnP_eq_singleton (hkeep part hpart)
  | cons p parts ih =>
    obtain ⟨hp, hparts⟩ := List.forall_mem_cons.mp hparts
    have hrest := ih p hp hparts
    rw [List.splitOn_eq_splitOnP] at hrest ⊢
    rw [slashed_cons, List.cons_append,
      List.splitOnP_append_cons_of_forall_mem (hkeep part hpart) '/' (by simp), hrest]

theorem bindParts_expand {segments : List Segment}
    (hne : ∀ n ∈ segments.filterMap Segment.name?, f n ≠ []) :
    bindParts segments (segments.map (Segment.expand f)) =
      some ((segments.filterMap Segment.name?).map fun n => (n, String.ofList (f n))) := by
  induction segments with
  | nil => rfl
  | cons s segments ih =>
    cases s with
    | literal text =>
      rw [List.map_cons, Segment.expand, bindParts, if_pos rfl]
      exact ih hne
    | placeholder n =>
      obtain ⟨hn, hne⟩ := List.forall_mem_cons.mp hne
      rw [List.map_cons, Segment.expand, bindParts, if_neg hn, ih hne]
      rfl

/-- The path of a template is bound to the values it was made of. -/
theorem bindPath_path (hne : ∀ n ∈ t.names, f n ≠ []) (hslash : ∀ n ∈ t.names, '/' ∉ f n) :
    bindPath t.segments (t.path f) = some (t.names.map fun n => (n, String.ofList (f n))) := by
  have hparts : ∀ p ∈ t.segments.map (Segment.expand f), '/' ∉ p := by
    intro p hp
    obtain ⟨s, hs, rfl⟩ := List.mem_map.mp hp
    cases s with
    | literal text => exact fun hmem => t.wf _ hs '/' hmem (by simp)
    | placeholder n => exact hslash n (mem_names.mpr hs)
  have hsplit := splitOn_slashed [] (by simp) hparts
  rw [List.nil_append] at hsplit
  rw [bindPath, Template.path, hsplit]
  exact bindParts_expand hne

theorem lookup_foldl_insert (values : String → String) (names : List String)
    (d : AList fun _ : String => String) (key : String) :
    ((names.map fun n => (n, values n)).foldl (fun d e => d.insert e.1 e.2) d).lookup key =
      if key ∈ names then some (values key) else d.lookup key := by
  induction names generalizing d with
  | nil => simp
  | cons n names ih =>
    rw [List.map_cons, List.foldl_cons, ih]
    by_cases hmem : key ∈ names
    · simp [hmem]
    · by_cases hkey : key = n
      · subst hkey
        simp [hmem, AList.lookup_insert]
      · simp [hmem, hkey, AList.lookup_insert_ne hkey]

theorem lookup_pathParams (values : String → String) (names : List String) (key : String) :
    (pathParams (names.map fun n => (n, values n))).lookup key =
      if key ∈ names then some (values key) else none := by
  rw [pathParams, lookup_foldl_insert, AList.lookup_empty]

theorem mem_path {c : Char} (h : c ∈ t.path f) :
    c ∉ ['?', '#'] ∨ ∃ n ∈ t.names, c ∈ f n := by
  obtain ⟨part, hpart, hc⟩ := List.mem_flatMap.mp h
  obtain ⟨s, hs, rfl⟩ := List.mem_map.mp hpart
  rcases List.mem_cons.mp hc with rfl | hc
  · exact .inl (by decide)
  · cases s with
    | literal text =>
      have hwf := t.wf _ hs c hc
      simp at hwf
      exact .inl (by simp [hwf])
    | placeholder n => exact .inr ⟨n, mem_names.mpr hs, hc⟩

theorem requestPath_path (h : ∀ n ∈ t.names, ∀ c ∈ f n, unreserved c = true) :
    requestPath (String.ofList (t.path f)) = String.ofList (t.path f) := by
  rw [requestPath, String.toList_ofList, List.takeWhile_eq_self_iff.mpr]
  intro c hc
  rcases mem_path hc with hc | ⟨n, hn, hc⟩
  · exact decide_eq_true hc
  · have hkept := h n hn c hc
    refine decide_eq_true fun hmem => ?_
    simp only [List.mem_cons, List.not_mem_nil, or_false] at hmem
    rcases hmem with rfl | rfl <;> revert hkept <;> decide

end Templates

/-! ## The two paths -/

section Inversion

variable {E : Type} {mx : Matchit E Nat} {app : App} {name : String} {t : Template}
variable {params : AList fun _ : String => String}

theorem lookup_eq_valueOf {n : String} (h : n ∈ params) :
    params.lookup n = some (valueOf params n) := by
  obtain ⟨v, hv⟩ := Option.isSome_iff_exists.mp (AList.lookup_isSome.mpr h)
  rw [valueOf, hv, Option.getD_some]

/-- What holds of every value. -/
theorem forall_lookup_iff (hkeys : ∀ key, key ∈ params ↔ key ∈ t.names) {p : String → Prop} :
    (∀ key v, params.lookup key = some v → p v) ↔ ∀ n ∈ t.names, p (valueOf params n) := by
  constructor
  · exact fun h n hn => h n _ (lookup_eq_valueOf ((hkeys n).mpr hn))
  · intro h key v hlookup
    have hmem : key ∈ params := AList.lookup_isSome.mp (hlookup ▸ rfl)
    have hv := h key ((hkeys key).mp hmem)
    rw [valueOf, hlookup] at hv
    exact hv

/-- The path of a template in Python. -/
def Template.quoted (t : Template) (params : AList fun _ : String => String) : List Char :=
  t.path fun n => quote (valueOf params n)

/-- The path of a template in Rust. -/
def Template.raw (t : Template) (params : AList fun _ : String => String) : List Char :=
  t.path fun n => (valueOf params n).toList

theorem urlFor_eq (hstands : Stands name t.text app) (hkeys : ∀ key, key ∈ params ↔ key ∈ t.names)
    (hself : "self" ∉ params) (hname : "name" ∉ params) :
    app.urlFor name params = .ok (String.ofList (t.quoted params)) := by
  have hsub : pySub (fun p => (params.lookup p).map quote) none
      (slashed (t.segments.map Segment.chars)) = .ok (t.quoted params) := by
    refine pySub_slashed t.wf fun n hn => ?_
    rw [lookup_eq_valueOf ((hkeys n).mpr hn), Option.map_some]
  rw [App.urlFor, if_neg hself, if_neg hname, hstands.py]
  dsimp only
  rw [Template.text, String.toList_ofList, hsub]
  rfl

theorem rustUrlFor_eq (hstands : Stands name t.text app)
    (hkeys : ∀ key, key ∈ params ↔ key ∈ t.names) :
    app.rustUrlFor name params = .ok (String.ofList (t.raw params)) := by
  have hsub : rustSub (fun key => (params.lookup key).map String.toList) none
      (slashed (t.segments.map Segment.chars)) = t.raw params := by
    refine rustSub_slashed t.wf fun n hn => ?_
    rw [lookup_eq_valueOf ((hkeys n).mpr hn), Option.map_some]
  rw [App.rustUrlFor, hstands.rust]
  dsimp only
  rw [Template.text, String.toList_ofList, hsub]

/-- The two are the same if and only if nothing is quoted. -/
theorem quoted_eq_raw_iff :
    t.quoted params = t.raw params ↔
      ∀ n ∈ t.names, ∀ c ∈ (valueOf params n).toList, unreserved c = true := by
  constructor
  · intro h n hn
    exact unreserved_of_length (length_eq_of_path (fun n => length_le_quote _) h.symm n hn)
  · exact fun h => path_congr fun n hn => quote_of_unreserved (h n hn)

theorem urlFor_ok {u : String} (h : app.urlFor name params = .ok u) :
    "self" ∉ params ∧ "name" ∉ params := by
  unfold App.urlFor at h
  split at h
  · cases h
  · split at h
    · cases h
    · exact ⟨‹_›, ‹_›⟩

theorem requestUrlFor_ok {batched : Bool} {u : String}
    (h : app.requestUrlFor name params batched = .ok u) :
    batched = false ∧ app.rustUrlFor name params = .ok u := by
  unfold App.requestUrlFor at h
  split at h
  · cases h
  · cases batched with
    | true => cases h
    | false => exact ⟨rfl, h⟩

theorem rawResolve_of_find {router : Router Nat} {method : Method} {path : String}
    {route : String × Nat} {found : RouteResolution Nat} (hroute : route ∈ router.routesOf method)
    (hfind : mx.find (router.routesOf method) path = some found) :
    router.rawResolve mx method path = .ok found := by
  unfold Router.routesOf at hroute hfind
  unfold Router.rawResolve
  cases hroutes : router.routes.lookup method with
  | none =>
    rw [hroutes] at hroute
    cases hroute
  | some routes =>
    rw [hroutes] at hfind
    have hbind : (some routes).bind (fun routes => mx.find routes path) = some found := hfind
    rw [hbind]

/-- The route of a template is found on a path of it, and its parameters are read back. -/
theorem raw_resolves (hmx : BindsSegments mx) {router : Router Nat} {method : Method} {id : Nat}
    (hrouted : (t.text, id) ∈ router.routesOf method)
    (hkeys : ∀ key, key ∈ params ↔ key ∈ t.names)
    (hne : ∀ key v, params.lookup key = some v → v ≠ "")
    (hkept : ∀ n ∈ t.names, ∀ c ∈ (valueOf params n).toList, unreserved c = true)
    (hothers : ∀ e ∈ router.routesOf method, e ≠ (t.text, id) →
      mx.find [e] (String.ofList (t.raw params)) = none) :
    ∃ bound, router.rawResolve mx method (String.ofList (t.raw params)) = .ok ⟨id, bound⟩ ∧
      ∀ key, (pathParams bound).lookup key = params.lookup key := by
  have hslash : ∀ n ∈ t.names, '/' ∉ (valueOf params n).toList := by
    intro n hn hmem
    have hreserved : unreserved '/' = false := by decide
    rw [hkept n hn '/' hmem] at hreserved
    cases hreserved
  have hnonempty : ∀ n ∈ t.names, (valueOf params n).toList ≠ [] := by
    intro n hn hnil
    have hlookup := lookup_eq_valueOf ((hkeys n).mpr hn)
    exact hne n _ hlookup (String.toList_eq_nil_iff.mp hnil)
  have hbind := bindPath_path hnonempty hslash
  have hfind := hmx _ t id (String.ofList (t.raw params)) _ hrouted hothers
    (by rw [String.toList_ofList]; exact hbind)
  simp only [String.ofList_toList] at hfind
  refine ⟨_, rawResolve_of_find hrouted hfind, fun key => ?_⟩
  rw [lookup_pathParams]
  split
  · rename_i hmem
    exact (lookup_eq_valueOf ((hkeys key).mpr hmem)).symm
  · rename_i hmem
    exact (AList.lookup_eq_none.mpr fun h => hmem ((hkeys key).mp h)).symm

/-- For every named route, both `url_for` invert the routing if and only if the request is not one
of a batch, no parameter is named as one of the arguments, and nothing is quoted. -/
theorem url_for_inverts_iff {E : Type} (mx : Matchit E Nat) (hmx : BindsSegments mx)
    {calls : List Registration} {name : String} {r : Registration} {id : Nat}
    (hnamed : IsNamed mx calls name r id) {t : Template} (htext : r.path = t.text)
    {params : AList fun _ : String => String} (hkeys : ∀ key, key ∈ params ↔ key ∈ t.names)
    (hne : ∀ key v, params.lookup key = some v → v ≠ "") (batched : Bool) :
    Inverts mx (App.after mx calls) r id name params batched ↔
      batched = false ∧ "name" ∉ params ∧ "self" ∉ params ∧
        ∀ key v, params.lookup key = some v → ∀ c ∈ v.toList, unreserved c = true := by
  have hstands := hnamed.stands
  rw [htext] at hstands
  have hrust := rustUrlFor_eq hstands hkeys
  rw [forall_lookup_iff hkeys]
  constructor
  · rintro ⟨u, hpy, hrequest, -⟩
    obtain ⟨hself, hname⟩ := urlFor_ok hpy
    obtain ⟨hbatched, hrequest⟩ := requestUrlFor_ok hrequest
    rw [urlFor_eq hstands hkeys hself hname, ← hrequest, hrust] at hpy
    have heq := String.ofList_injective (Except.ok.inj hpy)
    exact ⟨hbatched, hname, hself, quoted_eq_raw_iff.mp heq⟩
  · rintro ⟨rfl, hname, hself, hkept⟩
    have hpy := urlFor_eq hstands hkeys hself hname
    rw [quoted_eq_raw_iff.mpr hkept] at hpy
    refine ⟨_, hpy, ?_, ?_⟩
    · rw [App.requestUrlFor, if_neg hname]
      exact hrust
    · have hpath : requestPath (String.ofList (t.raw params)) = String.ofList (t.raw params) :=
        requestPath_path hkept
      have hrouted := hnamed.routed
      rw [hpath, htext]
      rw [htext] at hrouted
      exact raw_resolves hmx hrouted hkeys hne hkept

end Inversion

/-! ## An app -/

section Items

def segmentOf : List Char → Segment
  | '{' :: rest => .placeholder (String.ofList rest.dropLast)
  | text => .literal text

def segmentsOf (pattern : String) : List Segment :=
  ((pattern.toList.splitOn '/').drop 1).map segmentOf

/-- The first pattern whose segments are those of the path. -/
def segmentMatchit : Matchit Unit Nat where
  check paths path := if path ∈ paths then .error () else .ok ()
  find routes path := routes.findSome? fun e =>
    (bindPath (segmentsOf e.1) path.toList).map fun params => ⟨e.2, params⟩

theorem segmentOf_chars {s : Segment} (h : s.WellFormed) : segmentOf s.chars = s := by
  cases s with
  | literal text =>
    cases text with
    | nil => rfl
    | cons c text =>
      have hc : c ≠ '{' := fun heq => h c List.mem_cons_self (by simp [heq])
      rw [Segment.chars, segmentOf]
      exact fun rest heq => hc (List.cons.inj heq).1
  | placeholder name => simp [Segment.chars, segmentOf]

theorem segmentsOf_text (t : Template) : segmentsOf t.text = t.segments := by
  have hparts : ∀ p ∈ t.segments.map Segment.chars, '/' ∉ p := by
    intro p hp
    obtain ⟨s, hs, rfl⟩ := List.mem_map.mp hp
    have hwf := t.wf s hs
    cases s with
    | literal text => exact fun hmem => hwf '/' hmem (by simp)
    | placeholder name =>
      intro hmem
      simp only [Segment.chars, List.cons_append, List.mem_cons, List.mem_append,
        List.not_mem_nil, or_false] at hmem
      rcases hmem with h | h | h
      · exact absurd h (by decide)
      · exact hwf.2.2 '/' h (by simp)
      · exact absurd h (by decide)
  have hsplit := splitOn_slashed [] (by simp) hparts
  rw [List.nil_append] at hsplit
  rw [segmentsOf, Template.text, String.toList_ofList, hsplit, List.drop_one, List.tail_cons,
    List.map_map]
  exact (List.map_congr_left fun s hs => segmentOf_chars (t.wf s hs)).trans (List.map_id _)

theorem segmentMatchit_binds : BindsSegments segmentMatchit := by
  intro routes t id path params hmem hothers hbind
  have hroute : (bindPath (segmentsOf t.text) path.toList).map
      (fun params => (⟨id, params⟩ : RouteResolution Nat)) = some ⟨id, params⟩ := by
    rw [segmentsOf_text, hbind]
    rfl
  induction routes with
  | nil => cases hmem
  | cons e routes ih =>
    by_cases he : e = (t.text, id)
    · subst he
      simp only [segmentMatchit] at hroute ⊢
      rw [List.findSome?_cons, hroute]
    · have hnone := hothers e List.mem_cons_self he
      simp only [segmentMatchit] at hnone ih ⊢
      rw [List.findSome?_cons] at hnone ⊢
      split at hnone
      · cases hnone
      · have hrest := ih ((List.mem_cons.mp hmem).resolve_left (Ne.symm he)) fun e' he' =>
          hothers e' (List.mem_cons_of_mem _ he')
        exact hrest

def item : Registration := ⟨.get, "/items/\x7bid\x7d", some "item"⟩

def itemTemplate : Template where
  segments := [.literal "items".toList, .placeholder "id"]
  ne := by simp
  wf := by simp [Segment.WellFormed]

/-- `id=` -/
def idParam (value : String) : AList fun _ : String => String := AList.insert "id" value ∅

theorem item_named : IsNamed segmentMatchit [item] "item" item 0 where
  named := rfl
  registered := ⟨[], [], rfl, rfl, by simp⟩
  routed := by decide

theorem mem_idParam (value : String) (key : String) :
    key ∈ idParam value ↔ key ∈ itemTemplate.names := by
  rw [idParam, AList.mem_insert]
  simp [Template.names, itemTemplate, Segment.name?]
  exact eq_comm

theorem lookup_idParam {value key v : String} (h : (idParam value).lookup key = some v) :
    v = value := by
  by_cases hkey : key = "id"
  · subst hkey
    rw [idParam, AList.lookup_insert] at h
    exact (Option.some.inj h).symm
  · rw [idParam, AList.lookup_insert_ne hkey, AList.lookup_empty] at h
    cases h

theorem url_for_inverts_item :
    Inverts segmentMatchit (App.after segmentMatchit [item]) item 0 "item"
      (idParam "a-1") false := by
  have hne : ∀ key v, (idParam "a-1").lookup key = some v → v ≠ "" := by
    intro key v hv
    rw [lookup_idParam hv]
    decide
  have hkept : ∀ key v, (idParam "a-1").lookup key = some v →
      ∀ c ∈ v.toList, unreserved c = true := by
    intro key v hv
    have hall : "a-1".toList.all unreserved = true := by decide
    rw [lookup_idParam hv]
    exact List.all_eq_true.mp hall
  exact (url_for_inverts_iff segmentMatchit segmentMatchit_binds item_named (t := itemTemplate) rfl
    (mem_idParam _) hne false).mpr ⟨rfl, by decide, by decide, hkept⟩

/-- Python quotes a space and Rust does not. -/
theorem space_quoted_once :
    IsNamed segmentMatchit [item] "item" item 0 ∧ item.path = itemTemplate.text ∧
      (App.after segmentMatchit [item]).urlFor "item" (idParam "a b") = .ok "/items/a%20b" ∧
      (App.after segmentMatchit [item]).requestUrlFor "item" (idParam "a b") false =
        .ok "/items/a b" ∧
      ¬ Inverts segmentMatchit (App.after segmentMatchit [item]) item 0 "item"
        (idParam "a b") false := by
  have hpy : (App.after segmentMatchit [item]).urlFor "item" (idParam "a b") =
      .ok "/items/a%20b" := by rfl
  have hrequest : (App.after segmentMatchit [item]).requestUrlFor "item" (idParam "a b") false =
      .ok "/items/a b" := by rfl
  refine ⟨item_named, rfl, hpy, hrequest, ?_⟩
  rintro ⟨u, hu, hu', -⟩
  rw [hpy] at hu
  rw [hrequest, ← hu] at hu'
  exact absurd (Except.ok.inj hu') (by decide)

end Items

end JustApi.Py.UrlFor
