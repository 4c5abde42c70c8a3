import JustApi.Core.Crud

/-! # Placeholders

Callers write `?` for every database, and the pool numbers them for PostgreSQL. What a
question mark of a text is can be read from the lexical structure of PostgreSQL; whether
one that stands alone in the code is the operator of JSON values is a matter of grammar,
and left to a parameter. -/
namespace JustApi.Core.Placeholders
open JustApi.Core.Crud

/-! ## The pool -/

/-- The loop of `normalize_sql`, with the number of the latest placeholder. -/
def rewrite (idx : Nat) : List Char → List Char
  | [] => []
  | ch :: rest =>
    if ch = '?' then ("$" ++ toString (idx + 1)).toList ++ rewrite (idx + 1) rest
    else ch :: rewrite idx rest

def normalizeSql (kind : DbKind) (sql : String) : String :=
  if kind ≠ .postgres then sql else String.ofList (rewrite 0 sql.toList)

/-! ## The lexical structure of PostgreSQL -/

/-- What a character begins, or is part of. -/
inductive Role where
  | placeholder
  /-- `$1` and so on -/
  | numbered
  | other
  deriving DecidableEq, Repr

inductive Context where
  | code
  /-- A string or an identifier, up to the same quote. -/
  | quoted (quote : Char) (escapes : Bool)
  | lineComment
  /-- Comments nest. -/
  | blockComment (depth : Nat)
  | dollarQuoted (tag : List Char)
  deriving DecidableEq, Repr

def isIdentifierChar (c : Char) : Bool := c.isAlphanum || c = '_' || 128 ≤ c.toNat

/-- There is a name right before, in which a dollar sign may stand. -/
def afterName (before : List Char) : Bool := before.head?.any fun c => isIdentifierChar c || c = '$'

/-- The quote opens an `E'…'`, in which a backslash quotes the next character. -/
def opensEscapes : List Char → Bool
  | e :: before => (e = 'e' || e = 'E') && ¬ afterName before
  | [] => false

/-- The dollar sign of a number, the delimiter of a dollar-quoted string, or just that. -/
def dollar (after : List Char) : Role × Nat × Context :=
  let digits := after.takeWhile Char.isDigit
  let tag := after.takeWhile isIdentifierChar
  if digits ≠ [] then (.numbered, digits.length, .code)
  else if after.drop tag.length |>.head? |>.any (· = '$') then
    (.other, tag.length + 1, .dollarQuoted tag)
  else (.other, 0, .code)

/-- `?&` and `?|` are operators; `?||` is the concatenation of a parameter. -/
def isOperator (grammar : List Char → List Char → Bool) (before after : List Char) : Bool :=
  match after with
  | '&' :: _ => true
  | '|' :: '|' :: _ => grammar before after
  | '|' :: _ => true
  | _ => grammar before after

/-- The role of a character, how many more belong to its token, and the context behind
it. What is before it is given from the nearest on. -/
def token (grammar : List Char → List Char → Bool) (before : List Char) (c : Char)
    (after : List Char) : Context → Role × Nat × Context
  | .code =>
    if c = '\'' then (.other, 0, .quoted '\'' (opensEscapes before))
    else if c = '"' then (.other, 0, .quoted '"' false)
    else if c = '-' ∧ after.head? = some '-' then (.other, 1, .lineComment)
    else if c = '/' ∧ after.head? = some '*' then (.other, 1, .blockComment 0)
    else if c = '$' ∧ ¬ afterName before then dollar after
    else if c = '?' ∧ ¬ isOperator grammar before after then (.placeholder, 0, .code)
    else (.other, 0, .code)
  | .quoted quote escapes =>
    if c = quote then
      -- a doubled quote stands for one
      if after.head? = some quote then (.other, 1, .quoted quote escapes) else (.other, 0, .code)
    else if escapes ∧ c = '\\' then (.other, 1, .quoted quote escapes)
    else (.other, 0, .quoted quote escapes)
  | .lineComment => (.other, 0, if c = '\n' ∨ c = '\r' then .code else .lineComment)
  | .blockComment depth =>
    if c = '*' ∧ after.head? = some '/' then
      match depth with
      | 0 => (.other, 1, .code)
      | depth + 1 => (.other, 1, .blockComment depth)
    else if c = '/' ∧ after.head? = some '*' then (.other, 1, .blockComment (depth + 1))
    else (.other, 0, .blockComment depth)
  | .dollarQuoted tag =>
    if c = '$' ∧ tag ++ ['$'] <+: after then (.other, tag.length + 1, .code)
    else (.other, 0, .dollarQuoted tag)

/-- The characters of a text and their roles; the first `skip` belong to the last token. -/
def lex (grammar : List Char → List Char → Bool) (skip : Nat) (context : Context)
    (before : List Char) : List Char → List (Char × Role)
  | [] => []
  | c :: after =>
    match skip with
    | skip + 1 => (c, .other) :: lex grammar skip context (c :: before) after
    | 0 =>
      match token grammar before c after context with
      | (role, more, next) => (c, role) :: lex grammar more next (c :: before) after

def roles (grammar : List Char → List Char → Bool) (sql : String) : List (Char × Role) :=
  lex grammar 0 .code [] sql.toList

/-- The `k`-th placeholder is `$k`, and everything else stays. -/
def number (idx : Nat) : List (Char × Role) → List Char
  | [] => []
  | (_, .placeholder) :: rest => ("$" ++ toString (idx + 1)).toList ++ number (idx + 1) rest
  | (c, _) :: rest => c :: number idx rest

/-- The text uses numbers of its own. -/
def Numbered (grammar : List Char → List Char → Bool) (sql : String) : Prop :=
  ∃ c, (c, Role.numbered) ∈ roles grammar sql

instance (grammar : List Char → List Char → Bool) (sql : String) :
    Decidable (Numbered grammar sql) :=
  decidable_of_iff ((roles grammar sql).any fun p => p.2 = .numbered) <| by
    simp [Numbered]

/-- The statement with numbered placeholders. -/
def numberedSql (grammar : List Char → List Char → Bool) (sql : String) : String :=
  if Numbered grammar sql then sql else String.ofList (number 0 (roles grammar sql))

/-- Every question mark is a placeholder, and there is none beside numbers. -/
structure OnlyPlaceholders (grammar : List Char → List Char → Bool) (sql : String) : Prop where
  marks : ∀ role, ('?', role) ∈ roles grammar sql → role = .placeholder
  apart : Numbered grammar sql → '?' ∉ sql.toList

example : ((roles (fun _ _ => false)
    "SELECT '?', \"?\", E'\\'?', $a$?$a$ /* ? /* */ ? */ -- ?\nWHERE j ?& k AND id = ?").filter
      fun p => p.1 = '?').map Prod.snd = List.replicate 8 .other ++ [.placeholder] := by
  decide

/-! ## Rewriting -/

section Rewriting

variable {grammar : List Char → List Char → Bool}

theorem dollar_ne_placeholder (after : List Char) : (dollar after).1 ≠ .placeholder := by
  unfold dollar
  dsimp only
  split
  · exact Role.noConfusion
  · split <;> exact Role.noConfusion

theorem token_placeholder {before after : List Char} {c : Char} {context : Context}
    (h : (token grammar before c after context).1 = .placeholder) : c = '?' := by
  by_contra hc
  refine absurd h ?_
  cases context with
  | code =>
    rw [token, if_neg (fun hq => hc hq.1 : ¬ (c = '?' ∧ _))]
    repeat' split
    all_goals first | exact dollar_ne_placeholder after | exact Role.noConfusion
  | quoted quote escapes =>
    rw [token]
    repeat' split
    all_goals exact Role.noConfusion
  | lineComment => exact Role.noConfusion
  | blockComment depth =>
    rw [token.eq_def]
    dsimp only
    repeat' split
    all_goals exact Role.noConfusion
  | dollarQuoted tag =>
    rw [token]
    split <;> exact Role.noConfusion

theorem lex_map_fst (skip : Nat) (context : Context) (before cs : List Char) :
    (lex grammar skip context before cs).map Prod.fst = cs := by
  induction cs generalizing skip context before with
  | nil => rfl
  | cons c after ih =>
    cases skip with
    | succ skip => rw [lex, List.map_cons, ih]
    | zero => rw [lex, List.map_cons, ih]

theorem lex_placeholder {skip : Nat} {context : Context} {before cs : List Char} {c : Char}
    (h : (c, Role.placeholder) ∈ lex grammar skip context before cs) : c = '?' := by
  induction cs generalizing skip context before with
  | nil => cases h
  | cons ch after ih =>
    cases skip with
    | succ skip =>
      rw [lex, List.mem_cons] at h
      rcases h with h | h
      · cases h
      · exact ih h
    | zero =>
      rw [lex, List.mem_cons] at h
      rcases h with h | h
      · obtain ⟨rfl, hrole⟩ := Prod.mk.inj h
        exact token_placeholder hrole.symm
      · exact ih h

theorem mark_notMem_digits (n : Nat) : '?' ∉ ("$" ++ toString n).toList := by
  rw [String.toList_append, List.mem_append, not_or]
  refine ⟨by decide, fun h => ?_⟩
  rw [Nat.toString_eq_ofList_toDigits, String.toList_ofList] at h
  have hdigit : '?'.isDigit := Nat.isDigit_of_mem_toDigits (b := 10) (by decide) (by decide) h
  exact absurd hdigit (by decide)

/-- No question mark is left. -/
theorem mark_notMem_rewrite (idx : Nat) (cs : List Char) : '?' ∉ rewrite idx cs := by
  induction cs generalizing idx with
  | nil => exact List.not_mem_nil
  | cons ch rest ih =>
    rw [rewrite]
    split
    · rw [List.mem_append, not_or]
      exact ⟨mark_notMem_digits _, ih _⟩
    · rename_i hch
      rw [List.mem_cons, not_or]
      exact ⟨fun he => hch he.symm, ih _⟩

theorem rewrite_eq_self_iff (cs : List Char) : rewrite 0 cs = cs ↔ '?' ∉ cs := by
  constructor
  · intro h
    rw [← h]
    exact mark_notMem_rewrite 0 cs
  · intro h
    induction cs with
    | nil => rfl
    | cons ch rest ih =>
      rw [List.mem_cons, not_or] at h
      rw [rewrite, if_neg fun he => h.1 he.symm, ih h.2]

theorem mark_mem_number {entries : List (Char × Role)} {role : Role} (hrole : role ≠ .placeholder)
    (h : ('?', role) ∈ entries) (idx : Nat) : '?' ∈ number idx entries := by
  induction entries generalizing idx with
  | nil => cases h
  | cons entry rest ih =>
    obtain ⟨c, r⟩ := entry
    rcases List.mem_cons.mp h with he | hrest
    · cases he
      cases role with
      | placeholder => exact absurd rfl hrole
      | numbered => exact List.mem_cons_self
      | other => exact List.mem_cons_self
    · cases r with
      | placeholder => exact List.mem_append_right _ (ih hrest _)
      | numbered => exact List.mem_cons_of_mem c (ih hrest idx)
      | other => exact List.mem_cons_of_mem c (ih hrest idx)

theorem rewrite_eq_number_iff {entries : List (Char × Role)}
    (hmarks : ∀ c, (c, Role.placeholder) ∈ entries → c = '?') (idx : Nat) :
    rewrite idx (entries.map Prod.fst) = number idx entries ↔
      ∀ role, ('?', role) ∈ entries → role = .placeholder := by
  constructor
  · intro h role hmem
    by_contra hrole
    have hin := mark_mem_number hrole hmem idx
    rw [← h] at hin
    exact mark_notMem_rewrite idx _ hin
  · intro h
    induction entries generalizing idx with
    | nil => rfl
    | cons entry rest ih =>
      obtain ⟨c, r⟩ := entry
      have ih := fun idx => ih (fun c hc => hmarks c (List.mem_cons_of_mem _ hc)) idx
        fun role hrole => h role (List.mem_cons_of_mem _ hrole)
      rw [List.map_cons, rewrite]
      by_cases hc : c = '?'
      · subst hc
        obtain rfl := h r List.mem_cons_self
        rw [if_pos rfl, ih, number]
      · rw [if_neg hc, ih]
        cases r with
        | placeholder => exact absurd (hmarks c List.mem_cons_self) hc
        | numbered => rfl
        | other => rfl

theorem mem_of_mem_roles {sql : String} {c : Char} {role : Role} (h : (c, role) ∈ roles grammar sql) :
    c ∈ sql.toList := by
  have hmem := List.mem_map_of_mem (f := Prod.fst) h
  rwa [roles, lex_map_fst] at hmem

end Rewriting

/-- **Placeholders.** On PostgreSQL a statement becomes the one with its placeholders
numbered exactly if every question mark in it is a placeholder, and it has no numbers and
question marks both. -/
theorem placeholders_numbered_iff (grammar : List Char → List Char → Bool) (sql : String) :
    normalizeSql .postgres sql = numberedSql grammar sql ↔ OnlyPlaceholders grammar sql := by
  rw [normalizeSql, if_neg (not_not_intro rfl), numberedSql]
  by_cases hnumbered : Numbered grammar sql
  · rw [if_pos hnumbered, ← String.toList_inj, String.toList_ofList, rewrite_eq_self_iff]
    constructor
    · intro hno
      exact ⟨fun role h => absurd (mem_of_mem_roles h) hno, fun _ => hno⟩
    · intro h
      exact h.apart hnumbered
  · have hiff := rewrite_eq_number_iff
      (fun c (hc : (c, Role.placeholder) ∈ roles grammar sql) => lex_placeholder hc) 0
    rw [roles, lex_map_fst] at hiff
    rw [if_neg hnumbered, String.ofList_inj, roles, hiff]
    constructor
    · intro h
      exact ⟨h, fun hn => absurd hn hnumbered⟩
    · intro h
      exact h.marks

/-- A question mark in a string. -/
theorem literal_rewritten : normalizeSql .postgres "SELECT 'ready?'" = "SELECT 'ready$1'" ∧
    ∀ grammar, numberedSql grammar "SELECT 'ready?'" = "SELECT 'ready?'" :=
  ⟨by decide, fun _ => rfl⟩

end JustApi.Core.Placeholders
