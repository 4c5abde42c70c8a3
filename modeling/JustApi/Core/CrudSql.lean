import JustApi.Core.Crud

/-! # The SQL of generated routes

A statement is a list of tokens: words of the operation, names and placeholders. What a
route passes to the database is the text of such a list, with one value for each
placeholder, in order, and each value belongs to the column its placeholder is for. -/
namespace JustApi.Core.Crud
open JustApi.Core.Http JustApi.Core.QueryString

inductive Token where
  | fixed (word : String)
  | name (text : String)
  | placeholder (number : Nat)
  deriving DecidableEq, Repr

namespace Token

def text (kind : DbKind) : Token → String
  | .fixed word => word
  | .name text => text
  | .placeholder number => if kind = .postgres then "$" ++ toString number else "?"

def number : Token → Option Nat
  | .placeholder number => some number
  | _ => none

def called : Token → Option String
  | .name text => some text
  | _ => none

end Token

/-- The text of a list of tokens. -/
def textOf (kind : DbKind) (tokens : List Token) : String := String.join (tokens.map (Token.text kind))

/-- The keywords and the punctuation of an operation. -/
def keywords : CrudOp → List String
  | .insert => ["INSERT INTO ", " (", ", ", ") VALUES (", ") RETURNING *"]
  | .select => ["SELECT * FROM ", " WHERE ", " = ", " AND "]
  | .update => ["UPDATE ", " SET ", " = ", ", ", " WHERE ", " RETURNING *"]
  | .delete => ["DELETE FROM ", " WHERE ", " = ", " RETURNING *"]

/-- A name of the spec, a column up to ASCII case, that is an identifier. -/
def Named (spec : CrudSpec) (name : String) : Prop :=
  isValidSqlIdentifier name = true ∧
    (name = spec.table ∨ name = spec.idColumn ∨ ∃ c ∈ spec.columns, eqIgnoreAsciiCase c name = true)

def Permitted (spec : CrudSpec) : Token → Prop
  | .fixed word => word ∈ keywords spec.op
  | .name name => Named spec name
  | .placeholder _ => True

/-- The names that are compared with a placeholder or assigned one. -/
def compared : List Token → List String
  | [] => []
  | t :: rest =>
    match t, rest with
    | .name c, .fixed word :: .placeholder _ :: _ =>
      if word = " = " then c :: compared rest else compared rest
    | _, _ => compared rest

/-- The columns the placeholders are for, in the order of the placeholders. An INSERT has
its columns in a list, after the table. -/
def columnsOf : CrudOp → List Token → List String
  | .insert, tokens => (tokens.filterMap Token.called).tail
  | .select, tokens | .update, tokens | .delete, tokens => compared tokens

/-! ## What a request binds -/

section Bindings

variable (serde : Serde) (spec : CrudSpec) (pathParams : List (String × String))
  (queryString body : Bytes)

def idBinding : List (String × Value) :=
  (idParam pathParams spec.idColumn).toList.map fun v => (spec.idColumn, v)

/-- The columns of the spec that an object has. -/
def present (fields : List (String × Value)) (columns : List String) : List (String × Value) :=
  columns.filterMap fun c => (fields.lookup c).map fun v => (c, v)

def bodyBindings : List (String × Value) :=
  match (serde.fromSlice body).bind Value.asObject with
  | some fields => present fields spec.columns
  | none => []

def queryBindings : List (String × Value) :=
  (parseQuery queryString spec.columns).map fun p => (p.1, .string p.2)

/-- The columns and the values a statement is about, in order. -/
def bindings : List (String × Value) :=
  match spec.op with
  | .insert => bodyBindings serde spec body
  | .select => idBinding spec pathParams ++ queryBindings spec queryString
  | .update => bodyBindings serde spec body ++ idBinding spec pathParams
  | .delete => idBinding spec pathParams

end Bindings

/-- A statement of the spec's operation, made of permitted tokens, with a placeholder for
each value, next to the column of that value. -/
structure WellBound (kind : DbKind) (spec : CrudSpec) (bound : List (String × Value)) (sql : String)
    (params : List Value) (tokens : List Token) : Prop where
  text : sql = textOf kind tokens
  permitted : ∀ t ∈ tokens, Permitted spec t
  numbered : tokens.filterMap Token.number = List.range' 1 params.length
  columns : columnsOf spec.op tokens = bound.map Prod.fst
  values : params = bound.map Prod.snd

/-! ## Lists of tokens -/

/-- Items with a separator. -/
def listed (sep : String) : List (List Token) → List Token
  | [] => []
  | [item] => item
  | item :: next :: rest => item ++ .fixed sep :: listed sep (next :: rest)

def comparison (c : String) (number : Nat) : List Token :=
  [.name c, .fixed " = ", .placeholder number]

/-- Comparisons with the placeholders from `number` on. -/
def comparisons : (number : Nat) → List String → List (List Token)
  | _, [] => []
  | number, c :: rest => comparison c number :: comparisons (number + 1) rest

variable {kind : DbKind} {spec : CrudSpec} {sep : String} {items : List (List Token)}

@[simp] theorem textOf_nil : textOf kind [] = "" := rfl

@[simp] theorem textOf_cons (t : Token) (rest : List Token) :
    textOf kind (t :: rest) = t.text kind ++ textOf kind rest := String.join_cons

@[simp] theorem textOf_append (a b : List Token) :
    textOf kind (a ++ b) = textOf kind a ++ textOf kind b := by
  simp [textOf, String.join_append]

theorem textOf_listed (sep : String) :
    ∀ items, textOf kind (listed sep items) = sep.intercalate (items.map (textOf kind))
  | [] => rfl
  | [item] => String.intercalate_singleton.symm
  | item :: next :: rest => by
    rw [listed, textOf_append, textOf_cons, textOf_listed sep (next :: rest)]
    simp only [List.map_cons, String.intercalate_cons_cons, Token.text, String.append_assoc]

theorem permitted_listed (hsep : sep ∈ keywords spec.op)
    (h : ∀ item ∈ items, ∀ t ∈ item, Permitted spec t) :
    ∀ t ∈ listed sep items, Permitted spec t := by
  fun_induction listed sep items with
  | case1 => simp
  | case2 item => exact h item List.mem_cons_self
  | case3 item next rest ih =>
    intro t ht
    rcases List.mem_append.mp ht with ht | ht
    · exact h item List.mem_cons_self t ht
    · rcases List.mem_cons.mp ht with rfl | ht
      · exact hsep
      · exact ih (fun item hitem => h item (List.mem_cons_of_mem _ hitem)) t ht

/-- Separators say nothing of placeholders or names. -/
theorem filterMap_listed {α : Type} {f : Token → Option α} (hf : ∀ word, f (.fixed word) = none) :
    (listed sep items).filterMap f = items.flatMap fun item => item.filterMap f := by
  fun_induction listed sep items with
  | case1 => rfl
  | case2 item => simp
  | case3 item next rest ih =>
    rw [List.filterMap_append, List.filterMap_cons_none (hf sep), ih]
    rfl

theorem number_listed : (listed sep items).filterMap Token.number =
    items.flatMap fun item => item.filterMap Token.number := filterMap_listed fun _ => rfl

theorem called_listed : (listed sep items).filterMap Token.called =
    items.flatMap fun item => item.filterMap Token.called := filterMap_listed fun _ => rfl

theorem numbers_comparisons (number : Nat) (cs : List String) :
    (comparisons number cs).flatMap (fun item => item.filterMap Token.number) =
      List.range' number cs.length := by
  induction cs generalizing number with
  | nil => rfl
  | cons c rest ih =>
    rw [comparisons, List.flatMap_cons, ih, List.length_cons, List.range'_succ]
    rfl

theorem permitted_comparisons (heq : " = " ∈ keywords spec.op) (number : Nat) {cs : List String}
    (h : ∀ c ∈ cs, Named spec c) :
    ∀ item ∈ comparisons number cs, ∀ t ∈ item, Permitted spec t := by
  induction cs generalizing number with
  | nil => simp [comparisons]
  | cons c rest ih =>
    intro item hitem t ht
    rcases List.mem_cons.mp hitem with rfl | hitem
    · simp only [comparison, List.mem_cons, List.not_mem_nil, or_false] at ht
      obtain rfl | rfl | rfl := ht
      · exact h c List.mem_cons_self
      · exact heq
      · trivial
    · exact ih (number + 1) (fun c hc => h c (List.mem_cons_of_mem _ hc)) item hitem t ht

theorem compared_fixed (word : String) (rest : List Token) :
    compared (.fixed word :: rest) = compared rest := by
  simp [compared]

theorem compared_comparison (c : String) (number : Nat) (rest : List Token) :
    compared (comparison c number ++ rest) = c :: compared rest := by
  simp [comparison, compared]

/-- A name before another word is not compared. -/
theorem compared_name {word : String} (hword : word ≠ " = ") (name : String) (rest : List Token) :
    compared (.name name :: .fixed word :: rest) = compared rest := by
  cases rest with
  | nil => simp [compared]
  | cons t rest => cases t <;> simp [compared, hword]

theorem compared_listed (sep : String) (number : Nat) (cs : List String) (rest : List Token) :
    compared (listed sep (comparisons number cs) ++ rest) = cs ++ compared rest := by
  induction cs generalizing number with
  | nil => rfl
  | cons c cs ih =>
    cases cs with
    | nil => exact compared_comparison c number rest
    | cons c' cs =>
      rw [comparisons, comparisons, listed, List.append_assoc, compared_comparison, List.cons_append,
        compared_fixed, ← comparisons, ih, List.cons_append]
      rfl

/-! ## Names -/

theorem toLower_cases (c : Char) :
    c.toLower = c ∨ c.isUpper = true ∧ c.toLower.isLower = true := by
  delta Char.toLower Char.isUpper Char.isLower
  split
  · rename_i h
    simp only [ge_iff_le, decide_eq_true_eq, Bool.and_eq_true]
    refine .inr ⟨h, ?_⟩
    obtain ⟨hle, hge⟩ := h
    simp only [UInt32.le_iff_toNat_le] at hle hge ⊢
    simp at hle hge ⊢
    omega
  · exact .inl rfl

/-- Case does not matter to what may be in an identifier. -/
theorem identifier_toLower (c : Char) : c.toLower.isAlpha = c.isAlpha ∧
    (c.toLower.isAlpha || c.toLower = '_') = (c.isAlpha || c = '_') ∧
    (c.toLower.isAlphanum || c.toLower = '_') = (c.isAlphanum || c = '_') := by
  obtain hc | ⟨hupper, hlower⟩ := toLower_cases c
  · simp only [hc, and_self]
  · have hc : c.isAlpha = true := Bool.or_eq_true_iff.mpr (.inl hupper)
    have hl : c.toLower.isAlpha = true := Bool.or_eq_true_iff.mpr (.inr hlower)
    simp only [Char.isAlphanum, hc, hl, Bool.true_or, and_self]

/-- What is a valid identifier is one in lower case too. -/
theorem isValidSqlIdentifier_lower (name : String) : isValidSqlIdentifier name =
    isValidSqlIdentifier (String.ofList (name.toList.map Char.toLower)) := by
  unfold isValidSqlIdentifier
  rw [String.toList_ofList]
  cases name.toList with
  | nil => rfl
  | cons first rest =>
    simp only [List.map_cons, List.all_map, Function.comp_def]
    rw [(identifier_toLower first).2.1]
    congr 2
    funext c
    exact (identifier_toLower c).2.2.symm

/-- What is allowed is as good an identifier as the column it stands for. -/
theorem isValid_of_eqIgnoreAsciiCase {c name : String} (h : eqIgnoreAsciiCase c name = true)
    (hc : isValidSqlIdentifier c = true) : isValidSqlIdentifier name = true := by
  have hmap : c.toList.map Char.toLower = name.toList.map Char.toLower := by
    simpa [eqIgnoreAsciiCase] using h
  rwa [isValidSqlIdentifier_lower, ← hmap, ← isValidSqlIdentifier_lower]

section Valid

variable (hvalid : spec.validate = .ok ())
include hvalid

theorem named_table : Named spec spec.table :=
  ⟨(CrudSpec.validate_ok hvalid).1, .inl rfl⟩

theorem named_idColumn : Named spec spec.idColumn :=
  ⟨(CrudSpec.validate_ok hvalid).2.1, .inr (.inl rfl)⟩

theorem named_allowed {name : String} (h : isAllowed spec.columns name = true) :
    Named spec name := by
  obtain ⟨c, hc, heq⟩ := List.any_eq_true.mp h
  exact ⟨isValid_of_eqIgnoreAsciiCase heq ((CrudSpec.validate_ok hvalid).2.2 c hc),
    .inr (.inr ⟨c, hc, heq⟩)⟩

theorem named_column {c : String} (hc : c ∈ spec.columns) : Named spec c :=
  named_allowed hvalid (List.any_eq_true.mpr ⟨c, hc, by simp [eqIgnoreAsciiCase]⟩)

theorem named_present {fields : List (String × Value)} :
    ∀ c ∈ (present fields spec.columns).map Prod.fst, Named spec c := by
  intro c hc
  obtain ⟨p, hp, rfl⟩ := List.mem_map.mp hc
  obtain ⟨c', hc', hlookup⟩ := List.mem_filterMap.mp hp
  obtain ⟨v, -, rfl⟩ := Option.map_eq_some_iff.mp hlookup
  exact named_column hvalid hc'

theorem named_query (queryString : Bytes) :
    ∀ c ∈ (queryBindings spec queryString).map Prod.fst, Named spec c := by
  intro c hc
  simp only [queryBindings, List.map_map, List.mem_map] at hc
  obtain ⟨⟨k, v⟩, hp, rfl⟩ := hc
  exact named_allowed hvalid (isAllowed_of_mem_parseQuery hp)

theorem named_id (pathParams : List (String × String)) :
    ∀ c ∈ (idBinding spec pathParams).map Prod.fst, Named spec c := by
  intro c hc
  simp only [idBinding, List.map_map, List.mem_map] at hc
  obtain ⟨v, -, rfl⟩ := hc
  exact named_idColumn hvalid

end Valid

/-! ## The loops -/

theorem placeholders_take (kind : DbKind) (i n : Nat) :
    (PlaceholderGen.take ⟨kind = .postgres, i⟩ n) =
      ((List.range' (i + 1) n).map fun number => [Token.placeholder number]).map (textOf kind) := by
  induction n generalizing i with
  | zero => rfl
  | succ n ih =>
    rw [PlaceholderGen.take, List.range'_succ, List.map_cons, List.map_cons, ← ih]
    simp [PlaceholderGen.next, Token.text]

/-- The clauses are those of the columns bound so far. -/
structure Clauses.Hold (kind : DbKind) (s : Clauses) (bound : List (String × Value)) : Prop where
  texts : s.texts = (comparisons 1 (bound.map Prod.fst)).map (textOf kind)
  params : s.params = bound.map Prod.snd
  ph : s.ph = ⟨kind = .postgres, bound.length⟩

theorem comparisons_concat (number : Nat) (cs : List String) (c : String) :
    comparisons number (cs ++ [c]) = comparisons number cs ++ [comparison c (number + cs.length)] := by
  induction cs generalizing number with
  | nil => rfl
  | cons c' rest ih =>
    simp only [List.cons_append, comparisons, ih, List.length_cons]
    rw [Nat.add_right_comm, Nat.add_assoc]

theorem Clauses.Hold.push {s : Clauses} {bound : List (String × Value)} (h : s.Hold kind bound)
    (c : String) (v : Value) : (s.push c v).Hold kind (bound ++ [(c, v)]) := by
  refine ⟨?_, ?_, ?_⟩
  · rw [Clauses.push, h.texts, h.ph, List.map_append, List.map_cons, List.map_nil,
      comparisons_concat, List.map_append]
    simp [comparison, Token.text, PlaceholderGen.next, Nat.add_comm, String.append_assoc]
  · simp [Clauses.push, h.params]
  · simp [Clauses.push, h.ph, PlaceholderGen.next]

theorem Clauses.Hold.foldl_push {s : Clauses} {bound : List (String × Value)}
    (h : s.Hold kind bound) (pairs : List (String × String)) :
    (pairs.foldl (fun s p => s.push p.1 (.string p.2)) s).Hold kind
      (bound ++ pairs.map fun p => (p.1, .string p.2)) := by
  induction pairs generalizing s bound with
  | nil => simpa using h
  | cons p rest ih =>
    have hrest := ih (h.push p.1 (.string p.2))
    rwa [List.append_assoc] at hrest

theorem Clauses.Hold.assignments {s : Clauses} {bound : List (String × Value)}
    (h : s.Hold kind bound) (fields : List (String × Value)) (columns : List String) :
    (assignments fields s columns).Hold kind (bound ++ present fields columns) := by
  induction columns generalizing s bound with
  | nil => simpa [present, Crud.assignments] using h
  | cons c rest ih =>
    unfold Crud.assignments
    rw [List.foldl_cons]
    cases hc : fields.lookup c with
    | none =>
      have hpresent : present fields (c :: rest) = present fields rest := by simp [present, hc]
      rw [hpresent]
      exact ih h
    | some v =>
      have hpresent : present fields (c :: rest) = (c, v) :: present fields rest := by
        simp [present, hc]
      have hrest := ih (h.push c v)
      rw [List.append_assoc] at hrest
      rw [hpresent]
      exact hrest

theorem insertable_eq (fields : List (String × Value)) (columns : List String) :
    insertable fields columns =
      ((present fields columns).map Prod.fst, (present fields columns).map Prod.snd) := by
  have hfold : ∀ (columns : List String) (acc : List String × List Value),
      columns.foldl (insertColumn fields) acc =
        (acc.1 ++ (present fields columns).map Prod.fst,
          acc.2 ++ (present fields columns).map Prod.snd) := by
    intro columns
    induction columns with
    | nil => simp [present]
    | cons c rest ih =>
      intro acc
      rw [List.foldl_cons]
      cases hc : fields.lookup c with
      | none => simp [insertColumn, ih, present, hc]
      | some v => simp [insertColumn, ih, present, hc]
  exact hfold columns ([], [])

/-! ## The four statements -/

section Statements

variable {serde : Serde} {pathParams : List (String × String)} {queryString body : Bytes}
  {sql : String} {params : List Value} {answer : Except SqlxError Value → Response}

theorem bodyObject_ok {fields : List (String × Value)} (h : bodyObject serde body = .ok fields) :
    (serde.fromSlice body).bind Value.asObject = some fields := by
  unfold bodyObject at h
  split at h
  · cases h
  · rename_i v hv
    split at h
    · cases h
    · rename_i fields' hobj
      cases h
      rw [hv]
      exact hobj

def insertTokens (table : String) (cs : List String) : List Token :=
  .fixed "INSERT INTO " :: .name table :: .fixed " (" ::
    (listed ", " (cs.map fun c => [.name c]) ++ .fixed ") VALUES (" ::
      (listed ", " ((List.range' 1 cs.length).map fun number => [.placeholder number]) ++
        [.fixed ") RETURNING *"]))

theorem text_insertTokens (kind : DbKind) (table : String) (cs : List String) :
    textOf kind (insertTokens table cs) = "INSERT INTO " ++ table ++ " (" ++ ", ".intercalate cs ++
      ") VALUES (" ++ ", ".intercalate ((placeholderGen kind).take cs.length) ++
        ") RETURNING *" := by
  have hnames : (cs.map fun c => [Token.name c]).map (textOf kind) = cs := by
    simp [Function.comp_def, Token.text]
  rw [placeholderGen, placeholders_take]
  simp only [insertTokens, textOf_cons, textOf_append, textOf_listed, hnames, Token.text, textOf_nil,
    String.append_empty, String.append_assoc]

/-- The words of the operation are permitted. -/
theorem permitted_words {op : CrudOp} (hop : spec.op = op) :
    ∀ word ∈ keywords op, Permitted spec (.fixed word) := by
  intro word h
  rw [← hop] at h
  exact h

theorem permitted_insertTokens (hop : spec.op = .insert) {table : String} {cs : List String}
    (htable : Named spec table) (hcs : ∀ c ∈ cs, Named spec c) :
    ∀ t ∈ insertTokens table cs, Permitted spec t := by
  have hwords := permitted_words hop
  simp only [keywords, List.forall_mem_cons] at hwords
  obtain ⟨hinsert, hopen, hcomma, hvalues, hclose, -⟩ := hwords
  simp only [insertTokens, List.forall_mem_cons, List.forall_mem_append]
  refine ⟨hinsert, htable, hopen, ?_, hvalues, ?_, hclose, by simp⟩
  · refine permitted_listed hcomma ?_
    simpa [Permitted] using hcs
  · refine permitted_listed hcomma fun item hitem t ht => ?_
    obtain ⟨number, -, rfl⟩ := List.mem_map.mp hitem
    rw [List.mem_singleton.mp ht]
    trivial

theorem numbers_insertTokens (table : String) (cs : List String) :
    (insertTokens table cs).filterMap Token.number = List.range' 1 cs.length := by
  simp [insertTokens, List.filterMap_cons, number_listed, Token.number, List.flatMap_map]

theorem columns_insertTokens (table : String) (cs : List String) :
    columnsOf .insert (insertTokens table cs) = cs := by
  simp [columnsOf, insertTokens, List.filterMap_cons, called_listed, Token.called, List.flatMap_map]

/-- Every route that runs an insert binds the columns of the body. -/
theorem wellBound_insert (hop : spec.op = .insert) (hvalid : spec.validate = .ok ())
    {validator : Option (Bytes → Except String Unit)}
    (h : crudInsert serde kind spec body validator = .query sql params answer) :
    ∃ tokens, WellBound kind spec (bodyBindings serde spec body) sql params tokens := by
  unfold crudInsert at h
  split at h
  · cases h
  · split at h
    · cases h
    · rename_i fields hbody
      simp only [insertable_eq] at h
      split at h
      · cases h
      · cases h
        have hbound : bodyBindings serde spec body = present fields spec.columns := by
          rw [bodyBindings, bodyObject_ok hbody]
        rw [hbound]
        refine ⟨insertTokens spec.table ((present fields spec.columns).map Prod.fst),
          ?_, ?_, ?_, ?_, rfl⟩
        · exact (text_insertTokens kind _ _).symm
        · exact permitted_insertTokens hop (named_table hvalid) (named_present hvalid)
        · rw [numbers_insertTokens, List.length_map, List.length_map]
        · rw [hop]
          exact columns_insertTokens _ _

def selectTokens (table : String) (cs : List String) : List Token :=
  .fixed "SELECT * FROM " :: .name table ::
    if cs = [] then [] else .fixed " WHERE " :: listed " AND " (comparisons 1 cs)

theorem text_selectTokens (kind : DbKind) (table : String) (cs : List String) :
    textOf kind (selectTokens table cs) = "SELECT * FROM " ++ table ++
      if (comparisons 1 cs).map (textOf kind) = [] then ""
      else " WHERE " ++ " AND ".intercalate ((comparisons 1 cs).map (textOf kind)) := by
  cases cs with
  | nil => simp [selectTokens, comparisons, Token.text]
  | cons c rest =>
    have hcons : (comparisons 1 (c :: rest)).map (textOf kind) ≠ [] := by simp [comparisons]
    rw [if_neg hcons, selectTokens, if_neg (by simp)]
    simp only [textOf_cons, textOf_listed, Token.text, String.append_assoc]

theorem permitted_selectTokens (hop : spec.op = .select) {table : String} {cs : List String}
    (htable : Named spec table) (hcs : ∀ c ∈ cs, Named spec c) :
    ∀ t ∈ selectTokens table cs, Permitted spec t := by
  have hwords := permitted_words hop
  simp only [keywords, List.forall_mem_cons] at hwords
  obtain ⟨hselect, hwhere, hequals, hand, -⟩ := hwords
  simp only [selectTokens, List.forall_mem_cons]
  refine ⟨hselect, htable, ?_⟩
  split
  · simp
  · rw [List.forall_mem_cons]
    exact ⟨hwhere, permitted_listed hand (permitted_comparisons hequals 1 hcs)⟩

theorem numbers_selectTokens (table : String) (cs : List String) :
    (selectTokens table cs).filterMap Token.number = List.range' 1 cs.length := by
  cases cs with
  | nil => rfl
  | cons c rest =>
    rw [selectTokens, if_neg (by simp)]
    simp only [List.filterMap_cons, Token.number, number_listed, numbers_comparisons]

theorem columns_selectTokens (table : String) (cs : List String) :
    columnsOf .select (selectTokens table cs) = cs := by
  cases cs with
  | nil => rfl
  | cons c rest =>
    rw [selectTokens, if_neg (by simp), columnsOf, compared_fixed, compared_name (by simp)]
    have hlisted := compared_listed " AND " 1 (c :: rest) []
    rwa [List.append_nil, compared, List.append_nil] at hlisted

/-- The comparison with the id, if there is one. -/
theorem hold_id (kind : DbKind) (spec : CrudSpec) (pathParams : List (String × String)) :
    ((idParam pathParams spec.idColumn).elim ⟨[], [], placeholderGen kind⟩
      (Clauses.push ⟨[], [], placeholderGen kind⟩ spec.idColumn)).Hold kind
        (idBinding spec pathParams) := by
  have hstart : Clauses.Hold kind ⟨[], [], placeholderGen kind⟩ [] := ⟨rfl, rfl, rfl⟩
  unfold idBinding
  cases idParam pathParams spec.idColumn with
  | none => exact hstart
  | some v => exact hstart.push spec.idColumn v

theorem wellBound_select (hop : spec.op = .select) (hvalid : spec.validate = .ok ())
    (h : crudSelect serde kind spec pathParams queryString = .query sql params answer) :
    ∃ tokens, WellBound kind spec (idBinding spec pathParams ++ queryBindings spec queryString) sql
      params tokens := by
  have hwheres := (hold_id kind spec pathParams).foldl_push (parseQuery queryString spec.columns)
  simp only [crudSelect, Dispatch.query.injEq] at h
  obtain ⟨rfl, rfl, -⟩ := h
  rw [hwheres.texts, hwheres.params]
  refine ⟨selectTokens spec.table ((idBinding spec pathParams ++
    queryBindings spec queryString).map Prod.fst), ?_, ?_, ?_, ?_, rfl⟩
  · exact (text_selectTokens kind _ _).symm
  · refine permitted_selectTokens hop (named_table hvalid) fun c hc => ?_
    rw [List.map_append] at hc
    exact (List.mem_append.mp hc).elim (named_id hvalid pathParams c)
      (named_query hvalid queryString c)
  · rw [numbers_selectTokens, List.length_map, List.length_map]
    rfl
  · rw [hop]
    exact columns_selectTokens _ _

def updateTokens (table : String) (cs : List String) (id : String) : List Token :=
  .fixed "UPDATE " :: .name table :: .fixed " SET " ::
    (listed ", " (comparisons 1 cs) ++ .fixed " WHERE " ::
      (comparison id (cs.length + 1) ++ [.fixed " RETURNING *"]))

theorem text_updateTokens (kind : DbKind) (table : String) (cs : List String) (id : String) :
    textOf kind (updateTokens table cs id) = "UPDATE " ++ table ++ " SET " ++
      ", ".intercalate ((comparisons 1 cs).map (textOf kind)) ++ " WHERE " ++ id ++ " = " ++
        (PlaceholderGen.next ⟨kind = .postgres, cs.length⟩).1 ++ " RETURNING *" := by
  simp only [updateTokens, comparison, textOf_cons, textOf_append, textOf_listed, Token.text,
    textOf_nil, PlaceholderGen.next, decide_eq_true_eq, String.append_empty, String.append_assoc]

theorem permitted_comparison (hequals : Permitted spec (.fixed " = ")) {id : String}
    (hid : Named spec id) (number : Nat) : ∀ t ∈ comparison id number, Permitted spec t := by
  simp only [comparison, List.forall_mem_cons]
  exact ⟨hid, hequals, trivial, by simp⟩

theorem permitted_updateTokens (hop : spec.op = .update) {table id : String} {cs : List String}
    (htable : Named spec table) (hcs : ∀ c ∈ cs, Named spec c) (hid : Named spec id) :
    ∀ t ∈ updateTokens table cs id, Permitted spec t := by
  have hwords := permitted_words hop
  simp only [keywords, List.forall_mem_cons] at hwords
  obtain ⟨hupdate, hset, hequals, hcomma, hwhere, hreturning, -⟩ := hwords
  simp only [updateTokens, List.forall_mem_cons, List.forall_mem_append]
  exact ⟨hupdate, htable, hset, permitted_listed hcomma (permitted_comparisons hequals 1 hcs),
    hwhere, permitted_comparison hequals hid _, hreturning, by simp⟩

theorem numbers_updateTokens (table : String) (cs : List String) (id : String) :
    (updateTokens table cs id).filterMap Token.number = List.range' 1 (cs.length + 1) := by
  simp only [updateTokens, comparison, List.filterMap_cons, List.filterMap_append, Token.number,
    number_listed, numbers_comparisons, List.filterMap_nil, List.cons_append, List.nil_append]
  rw [List.range'_concat, Nat.one_mul, Nat.add_comm 1]

theorem columns_updateTokens (table : String) (cs : List String) (id : String) :
    columnsOf .update (updateTokens table cs id) = cs ++ [id] := by
  rw [updateTokens, columnsOf, compared_fixed, compared_name (by simp), compared_listed,
    compared_fixed, compared_comparison]
  rfl

theorem wellBound_update (hop : spec.op = .update) (hvalid : spec.validate = .ok ())
    (h : crudUpdate serde kind spec pathParams body = .query sql params answer) :
    ∃ tokens, WellBound kind spec (bodyBindings serde spec body ++ idBinding spec pathParams) sql
      params tokens := by
  unfold crudUpdate at h
  split at h
  · cases h
  · rename_i id hid
    split at h
    · cases h
    · rename_i fields hbody
      have hstart : Clauses.Hold kind ⟨[], [], placeholderGen kind⟩ [] := ⟨rfl, rfl, rfl⟩
      have hsets := hstart.assignments fields spec.columns
      rw [List.nil_append] at hsets
      dsimp only at h
      split at h
      · cases h
      · simp only [Dispatch.query.injEq] at h
        obtain ⟨rfl, rfl, -⟩ := h
        rw [hsets.texts, hsets.params, hsets.ph]
        have hbound : bodyBindings serde spec body ++ idBinding spec pathParams =
            present fields spec.columns ++ [(spec.idColumn, id)] := by
          rw [bodyBindings, bodyObject_ok hbody, idBinding, hid]
          rfl
        rw [hbound]
        refine ⟨updateTokens spec.table ((present fields spec.columns).map Prod.fst) spec.idColumn,
          ?_, ?_, ?_, ?_, ?_⟩
        · rw [text_updateTokens, List.length_map]
        · exact permitted_updateTokens hop (named_table hvalid) (named_present hvalid)
            (named_idColumn hvalid)
        · rw [numbers_updateTokens]
          simp
        · rw [hop, columns_updateTokens]
          simp
        · simp

def deleteTokens (table id : String) : List Token :=
  .fixed "DELETE FROM " :: .name table :: .fixed " WHERE " ::
    (comparison id 1 ++ [.fixed " RETURNING *"])

theorem wellBound_delete (hop : spec.op = .delete) (hvalid : spec.validate = .ok ())
    (h : crudDelete serde kind spec pathParams = .query sql params answer) :
    ∃ tokens, WellBound kind spec (idBinding spec pathParams) sql params tokens := by
  have hwords := permitted_words hop
  simp only [keywords, List.forall_mem_cons] at hwords
  obtain ⟨hdelete, hwhere, hequals, hreturning, -⟩ := hwords
  unfold crudDelete at h
  split at h
  · cases h
  · rename_i id hid
    simp only [Dispatch.query.injEq] at h
    obtain ⟨rfl, rfl, -⟩ := h
    have hbound : idBinding spec pathParams = [(spec.idColumn, id)] := by
      rw [idBinding, hid]
      rfl
    rw [hbound]
    refine ⟨deleteTokens spec.table spec.idColumn, ?_, ?_, rfl, ?_, rfl⟩
    · simp [deleteTokens, comparison, Token.text, placeholderGen, PlaceholderGen.next,
        String.append_assoc]
    · simp only [deleteTokens, List.forall_mem_cons, List.forall_mem_append]
      exact ⟨hdelete, named_table hvalid, hwhere,
        permitted_comparison hequals (named_idColumn hvalid) 1, hreturning, by simp⟩
    · rw [hop, deleteTokens, columnsOf, compared_fixed, compared_name (by simp),
        compared_comparison]
      rfl

/-- **Every generated statement is well bound.** Whatever the path, the query string and
the body, what a route with a valid spec passes to the database is made of the words of
its operation, names of the spec and placeholders, one for each value, and the k-th of
them is for the column of the k-th value. -/
theorem crud_sql_well_bound (serde : Serde) (kind : DbKind) (spec : CrudSpec)
    (pathParams : List (String × String)) (queryString body : Bytes)
    (validator : Option (Bytes → Except String Unit)) (sql : String) (params : List Value)
    (answer : Except SqlxError Value → Response) (hvalid : spec.validate = .ok ())
    (hquery : crudDispatchBytes serde kind spec pathParams queryString body validator =
      .query sql params answer) :
    ∃ tokens, WellBound kind spec (bindings serde spec pathParams queryString body) sql params
      tokens := by
  unfold crudDispatchBytes at hquery
  unfold bindings
  cases hop : spec.op with
  | insert =>
    rw [hop] at hquery
    exact wellBound_insert hop hvalid hquery
  | select =>
    rw [hop] at hquery
    exact wellBound_select hop hvalid hquery
  | update =>
    rw [hop] at hquery
    exact wellBound_update hop hvalid hquery
  | delete =>
    rw [hop] at hquery
    exact wellBound_delete hop hvalid hquery

/-- A search whose query string tries other columns, other cases and more than a value. -/
theorem crud_sql_well_bound_search :
    let spec : CrudSpec := ⟨.select, "users", ["name", "age"], "id"⟩
    let serde : Serde := ⟨fun _ => none, fun _ => ""⟩
    let queryString := asBytes "NAME=x%27+OR+1%3D1&1%3D1=1&age;--=2"
    ∃ sql params tokens, sql = "SELECT * FROM users WHERE id = $1 AND NAME = $2" ∧
      WellBound .postgres spec (bindings serde spec [("ID", "7")] queryString []) sql params
        tokens := by
  intro spec serde queryString
  obtain ⟨tokens, h⟩ := crud_sql_well_bound serde .postgres spec [("ID", "7")] queryString [] none
    _ _ _ (by decide +kernel) rfl
  exact ⟨_, _, tokens, by decide +kernel, h⟩

end Statements

end JustApi.Core.Crud
