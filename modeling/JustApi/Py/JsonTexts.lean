import JustApi.Lib.Brackets
import JustApi.Lib.Result

/-! # The texts of `json.dumps`

`json.dumps(item, default=str)` on the objects a generator may yield, and that its texts can
be told apart in a list and stand on one line. -/
namespace JustApi.Py.JsonTexts
open JustApi.Lib.Brackets JustApi.Lib.Result

/-- The `repr` of a float, or `NaN`, `Infinity` and `-Infinity`. -/
structure FloatText where
  text : List Char
  nonempty : text ≠ []
  chars : ∀ c ∈ text, c.isAlphanum = true ∨ c = '-' ∨ c = '+' ∨ c = '.'

/-- The key of a dict; `other` is no key that JSON can have. -/
inductive Key where
  | str (s : String)
  | int (i : Int)
  | bool (b : Bool)
  | float (f : FloatText)
  | none
  | other (error : String)

/-- A Python object. `other` is one that the encoder has no case for; what `str` makes of it,
or raises, comes with it. -/
inductive Obj where
  | none
  | bool (b : Bool)
  | int (i : Int)
  | float (f : FloatText)
  | str (s : String)
  | list (items : List Obj)
  | dict (entries : List (Key × Obj))
  | other (str : Except String String)

/-! ## Strings -/

def hexDigit (n : Nat) : Char := "0123456789abcdef".toList.getD n '0'

/-- `\uXXXX`. -/
def unicodeEscape (n : Nat) : List Char :=
  ['\\', 'u', hexDigit (n / 4096 % 16), hexDigit (n / 256 % 16), hexDigit (n / 16 % 16),
    hexDigit (n % 16)]

/-- What `py_encode_basestring_ascii` puts for a character. -/
def escape (c : Char) : List Char :=
  match c with
  | '"' => ['\\', '"']
  | '\\' => ['\\', '\\']
  | '\n' => ['\\', 'n']
  | '\r' => ['\\', 'r']
  | '\t' => ['\\', 't']
  | '\x0c' => ['\\', 'f']
  | '\x08' => ['\\', 'b']
  | c =>
    let n := c.toNat
    if 0x20 ≤ n ∧ n ≤ 0x7E then [c]
    else if n < 0x10000 then unicodeEscape n
    else
      -- a pair of surrogates
      let v := n - 0x10000
      unicodeEscape (0xD800 + v / 1024) ++ unicodeEscape (0xDC00 + v % 1024)

def encodeString (s : String) : List Char := '"' :: s.toList.flatMap escape ++ ['"']

/-! ## Objects -/

def boolText (b : Bool) : List Char := (if b then "true" else "false").toList

def intText (i : Int) : List Char := (toString i).toList

def keyText : Key → Except String (List Char)
  | .str s => .ok (encodeString s)
  | .int i => .ok ('"' :: intText i ++ ['"'])
  | .bool b => .ok ('"' :: boolText b ++ ['"'])
  | .float f => .ok ('"' :: f.text ++ ['"'])
  | .none => .ok "\"null\"".toList
  | .other error => .error error

mutual
def text : Obj → Except String (List Char)
  | .none => .ok "null".toList
  | .bool b => .ok (boolText b)
  | .int i => .ok (intText i)
  | .float f => .ok f.text
  | .str s => .ok (encodeString s)
  | .list items => do
    let texts ← itemTexts items
    .ok ('[' :: [',', ' '].intercalate texts ++ [']'])
  | .dict entries => do
    let texts ← entryTexts entries
    .ok ('\x7b' :: [',', ' '].intercalate texts ++ ['\x7d'])
  | .other str => str.map encodeString
def itemTexts : List Obj → Except String (List (List Char))
  | [] => .ok []
  | x :: rest => do
    let t ← text x
    let ts ← itemTexts rest
    .ok (t :: ts)
def entryTexts : List (Key × Obj) → Except String (List (List Char))
  | [] => .ok []
  | (k, x) :: rest => do
    let key ← keyText k
    let t ← text x
    let ts ← entryTexts rest
    .ok ((key ++ [':', ' '] ++ t) :: ts)
end

def dumps (x : Obj) : Except String String := (text x).map String.ofList

/-! ## One line, one element -/

/-- A text that is one element of a list and stands on one line. -/
structure Single (t : List Char) : Prop where
  atom : Atom t
  line : '\n' ∉ t
  nonempty : t ≠ []

theorem single_of_chars {t : List Char} (hne : t ≠ []) (h : ∀ c ∈ t, Neutral c ∧ c ≠ '\n') :
    Single t :=
  ⟨atom_of_neutral fun c hc => (h c hc).1, fun hmem => (h _ hmem).2 rfl, hne⟩

theorem neutral_of_alphanum {c : Char} (h : c.isAlphanum = true ∨ c = '-' ∨ c = '+' ∨ c = '.') :
    Neutral c ∧ c ≠ '\n' := by
  have hne : ∀ d : Char, ¬ (d.isAlphanum = true ∨ d = '-' ∨ d = '+' ∨ d = '.') → c ≠ d := by
    rintro d hd rfl
    exact hd h
  exact ⟨⟨hne _ (by decide), hne _ (by decide), hne _ (by decide), hne _ (by decide),
    hne _ (by decide), hne _ (by decide)⟩, hne _ (by decide)⟩

theorem single_float (f : FloatText) : Single f.text :=
  single_of_chars f.nonempty fun c hc => neutral_of_alphanum (f.chars c hc)

theorem boolText_chars (b : Bool) :
    ∀ c ∈ boolText b, c.isAlphanum = true ∨ c = '-' ∨ c = '+' ∨ c = '.' := by
  cases b <;> simp [boolText]

theorem nullText_chars :
    ∀ c ∈ "null".toList, c.isAlphanum = true ∨ c = '-' ∨ c = '+' ∨ c = '.' := by
  simp

theorem single_bool (b : Bool) : Single (boolText b) :=
  single_of_chars (by cases b <;> simp [boolText]) fun c hc =>
    neutral_of_alphanum (boolText_chars b c hc)

theorem single_null : Single "null".toList :=
  single_of_chars (by simp) fun c hc => neutral_of_alphanum (nullText_chars c hc)

theorem intText_chars (i : Int) :
    ∀ c ∈ intText i, c.isAlphanum = true ∨ c = '-' ∨ c = '+' ∨ c = '.' := by
  have hnat : ∀ n : Nat, ∀ c ∈ n.repr.toList, c.isAlphanum = true := by
    intro n c hc
    rw [Nat.toList_repr] at hc
    have hdigit := Nat.isDigit_of_mem_toDigits (by decide) (by decide) hc
    simp [Char.isAlphanum, hdigit]
  intro c hc
  cases i with
  | ofNat n => exact .inl (hnat n c hc)
  | negSucc n =>
    have hc : c ∈ ("-" ++ (n + 1).repr).toList := hc
    rw [String.toList_append, List.mem_append] at hc
    rcases hc with hc | hc
    · simp at hc
      exact .inr (.inl hc)
    · exact .inl (hnat (n + 1) c hc)

theorem intText_ne_nil (i : Int) : intText i ≠ [] := by
  cases i with
  | ofNat n =>
    change n.repr.toList ≠ []
    rw [Nat.toList_repr]
    exact Nat.toDigits_ne_nil
  | negSucc n =>
    change ("-" ++ (n + 1).repr).toList ≠ []
    simp

theorem single_int (i : Int) : Single (intText i) :=
  single_of_chars (intText_ne_nil i) fun c hc => neutral_of_alphanum (intText_chars i c hc)

/-! ## Quoted texts -/

theorem hexDigit_mem (n : Nat) : hexDigit n ∈ "0123456789abcdef".toList := by
  unfold hexDigit
  rw [List.getD_eq_getElem?_getD]
  cases h : "0123456789abcdef".toList[n]? with
  | none => decide
  | some c => exact List.mem_of_getElem? h

theorem hexDigit_plain (n : Nat) : hexDigit n ≠ '"' ∧ hexDigit n ≠ '\\' ∧ hexDigit n ≠ '\n' := by
  have h := hexDigit_mem n
  refine ⟨?_, ?_, ?_⟩ <;> intro heq <;> rw [heq] at h <;> revert h <;> decide

/-- A quoted text without line breaks. -/
structure QuotedLine (t : List Char) : Prop where
  quotable : Quotable t
  line : '\n' ∉ t

theorem QuotedLine.append {t u : List Char} (ht : QuotedLine t) (hu : QuotedLine u) :
    QuotedLine (t ++ u) :=
  ⟨ht.quotable.append hu.quotable, by simp [ht.line, hu.line]⟩

theorem QuotedLine.single {t : List Char} (h : QuotedLine t) : Single ('"' :: t ++ ['"']) :=
  ⟨h.quotable.atom, by simp [h.line], by simp⟩

theorem quotedLine_escape {c : Char} (h : c ≠ '\n') : QuotedLine ['\\', c] :=
  ⟨quotable_escape c, by simp [Ne.symm h]⟩

theorem quotedLine_unicodeEscape (n : Nat) : QuotedLine (unicodeEscape n) := by
  have hdigits : Quotable [hexDigit (n / 4096 % 16), hexDigit (n / 256 % 16),
      hexDigit (n / 16 % 16), hexDigit (n % 16)] := by
    refine quotable_of_chars fun c hc => ?_
    simp only [List.mem_cons, List.not_mem_nil, or_false] at hc
    rcases hc with rfl | rfl | rfl | rfl <;> exact ⟨(hexDigit_plain _).1, (hexDigit_plain _).2.1⟩
  refine ⟨(quotable_escape 'u').append hdigits, ?_⟩
  have hne := fun m => Ne.symm (hexDigit_plain m).2.2
  simp [unicodeEscape, hne]

theorem quotedLine_char (c : Char) : QuotedLine (escape c) := by
  unfold escape
  split
  · exact quotedLine_escape (by decide)
  · exact quotedLine_escape (by decide)
  · exact quotedLine_escape (by decide)
  · exact quotedLine_escape (by decide)
  · exact quotedLine_escape (by decide)
  · exact quotedLine_escape (by decide)
  · exact quotedLine_escape (by decide)
  · rename_i hquote hback hline _ _ _ _
    dsimp only
    split
    · exact ⟨quotable_char hquote hback, by simpa using Ne.symm hline⟩
    · split
      · exact quotedLine_unicodeEscape _
      · exact (quotedLine_unicodeEscape _).append (quotedLine_unicodeEscape _)

theorem single_string (s : String) : Single (encodeString s) := by
  refine QuotedLine.single ⟨Quotable.flatMap fun c _ => (quotedLine_char c).quotable, ?_⟩
  intro h
  obtain ⟨c, -, hc⟩ := List.mem_flatMap.mp h
  exact (quotedLine_char c).line hc

theorem single_quoted {t : List Char}
    (h : ∀ c ∈ t, c.isAlphanum = true ∨ c = '-' ∨ c = '+' ∨ c = '.') :
    Single ('"' :: t ++ ['"']) := by
  refine QuotedLine.single ⟨quotable_of_chars fun c hc => ?_, fun hmem => ?_⟩
  · refine ⟨(neutral_of_alphanum (h c hc)).1.1, ?_⟩
    rintro rfl
    exact absurd (h _ hc) (by decide)
  · exact (neutral_of_alphanum (h _ hmem)).2 rfl

theorem single_key {k : Key} {t : List Char} (h : keyText k = .ok t) : Single t := by
  cases k with
  | str s =>
    cases h
    exact single_string s
  | int i =>
    cases h
    exact single_quoted (intText_chars i)
  | bool b =>
    cases h
    exact single_quoted (boolText_chars b)
  | float f =>
    cases h
    exact single_quoted f.chars
  | none =>
    cases h
    exact single_quoted nullText_chars
  | other error => cases h

/-! ## Objects -/

theorem single_brackets {texts : List (List Char)} (h : ∀ t ∈ texts, Single t)
    {opening closing : Char} (hopening : opening = '[' ∨ opening = '\x7b')
    (hclosing : closing = ']' ∨ closing = '\x7d') :
    Single (opening :: [',', ' '].intercalate texts ++ [closing]) := by
  have hsep : Content [',', ' '] :=
    content_comma.append (atom_of_neutral (by simp [Neutral])).content
  refine ⟨(content_intercalate hsep fun t ht => (h t ht).atom.content).atom hopening hclosing, ?_,
    by simp⟩
  intro hmem
  simp only [List.cons_append, List.mem_cons, List.mem_append, List.not_mem_nil, or_false] at hmem
  rcases hmem with hmem | hmem | hmem
  · rcases hopening with rfl | rfl <;> cases hmem
  · rcases mem_of_mem_intercalate hmem with hmem | ⟨t, ht, hmem⟩
    · exact absurd hmem (by decide)
    · exact (h t ht).line hmem
  · rcases hclosing with rfl | rfl <;> cases hmem

theorem single_entry {key t : List Char} (hkey : Single key) (ht : Single t) :
    Single (key ++ [':', ' '] ++ t) := by
  have hcolon : Atom [':', ' '] := atom_of_neutral (by simp [Neutral])
  refine ⟨(hkey.atom.append hcolon).append ht.atom, ?_, by simp⟩
  simp [hkey.line, ht.line]

mutual
theorem single_text : ∀ (x : Obj) {t : List Char}, text x = .ok t → Single t
  | .none, t, h => by
    rw [text] at h
    cases h
    exact single_null
  | .bool b, t, h => by
    rw [text] at h
    cases h
    exact single_bool b
  | .int i, t, h => by
    rw [text] at h
    cases h
    exact single_int i
  | .float f, t, h => by
    rw [text] at h
    cases h
    exact single_float f
  | .str s, t, h => by
    rw [text] at h
    cases h
    exact single_string s
  | .list items, t, h => by
    rw [text] at h
    obtain ⟨texts, htexts, h⟩ := bind_eq_ok.mp h
    cases h
    exact single_brackets (single_items items htexts) (.inl rfl) (.inl rfl)
  | .dict entries, t, h => by
    rw [text] at h
    obtain ⟨texts, htexts, h⟩ := bind_eq_ok.mp h
    cases h
    exact single_brackets (single_entries entries htexts) (.inr rfl) (.inr rfl)
  | .other str, t, h => by
    rw [text] at h
    obtain ⟨s, -, rfl⟩ := map_eq_ok.mp h
    exact single_string s
theorem single_items : ∀ (items : List Obj) {texts : List (List Char)},
    itemTexts items = .ok texts → ∀ t ∈ texts, Single t
  | [], texts, h => by
    rw [itemTexts] at h
    cases h
    simp
  | x :: rest, texts, h => by
    rw [itemTexts] at h
    obtain ⟨t, ht, h⟩ := bind_eq_ok.mp h
    obtain ⟨ts, hts, h⟩ := bind_eq_ok.mp h
    cases h
    exact List.forall_mem_cons.mpr ⟨single_text x ht, single_items rest hts⟩
theorem single_entries : ∀ (entries : List (Key × Obj)) {texts : List (List Char)},
    entryTexts entries = .ok texts → ∀ t ∈ texts, Single t
  | [], texts, h => by
    rw [entryTexts] at h
    cases h
    simp
  | (k, x) :: rest, texts, h => by
    rw [entryTexts] at h
    obtain ⟨key, hkey, h⟩ := bind_eq_ok.mp h
    obtain ⟨t, ht, h⟩ := bind_eq_ok.mp h
    obtain ⟨ts, hts, h⟩ := bind_eq_ok.mp h
    cases h
    exact List.forall_mem_cons.mpr
      ⟨single_entry (single_key hkey) (single_text x ht), single_entries rest hts⟩
end

theorem single_dumps {x : Obj} {s : String} (h : dumps x = .ok s) : Single s.toList := by
  obtain ⟨t, ht, rfl⟩ := map_eq_ok.mp h
  simpa using single_text x ht

end JustApi.Py.JsonTexts
