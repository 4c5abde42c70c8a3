import Mathlib.Data.List.DropRight
import Mathlib.Data.List.Basic

/-! # Formats of texts

The checker for `date-time` that JSON schemas are validated with, against the texts that
RFC 3339 calls a date-time. -/
namespace JustApi.Core.Formats

/-- Not empty, and of ASCII digits. -/
def isNumber (p : List Char) : Bool := ¬ p.isEmpty && p.all Char.isDigit

def splitOnce (sep : Char) (s : List Char) : Option (List Char × List Char) :=
  if sep ∈ s then some (s.takeWhile (· ≠ sep), (s.dropWhile (· ≠ sep)).drop 1) else none

/-- The checker for `date`. -/
def date (s : List Char) : Bool :=
  let ds := s.splitOn '-'
  ds.length = 3 && ds.all isNumber

/-- What the checker for `date-time` asks of the part behind the `T`. -/
def time (s : List Char) : Bool :=
  let s := (s.rdropWhile (· = 'Z')).rdropWhile fun c => c = '+' ∨ c = '-'
  let s := (s.splitOn '.').head?.getD s
  let ts := s.splitOn ':'
  -- of digits, so that a text has as many bytes as characters
  2 ≤ ts.length && ts.length ≤ 3 && ts.all fun p => p.length ≤ 2 && isNumber p

/-- The checker for `date-time`. -/
def dateTime (s : List Char) : Bool :=
  match splitOnce 'T' s with
  | some (d, t) => date d && time t
  | none => false

/-! ## RFC 3339 -/

def isLeapYear (year : Nat) : Bool := year % 4 = 0 && (year % 100 ≠ 0 || year % 400 = 0)

def daysInMonth (year month : Nat) : Nat :=
  if month = 2 then if isLeapYear year then 29 else 28
  else if month ∈ [4, 6, 9, 11] then 30 else 31

def twoDigits (n : Nat) : List Char := [Nat.digitChar (n / 10), Nat.digitChar (n % 10)]

structure FullDate where
  year : Nat
  month : Nat
  day : Nat
  year_lt : year < 10000
  month_le : 1 ≤ month ∧ month ≤ 12
  day_le : 1 ≤ day ∧ day ≤ daysInMonth year month

def FullDate.text (d : FullDate) : List Char :=
  ['-'].intercalate [twoDigits (d.year / 100) ++ twoDigits (d.year % 100), twoDigits d.month,
    twoDigits d.day]

/-- The second 60 is a leap second. -/
structure Clock where
  hour : Nat
  minute : Nat
  second : Nat
  hour_lt : hour < 24
  minute_lt : minute < 60
  second_le : second ≤ 60

def Clock.text (c : Clock) : List Char :=
  [':'].intercalate [twoDigits c.hour, twoDigits c.minute, twoDigits c.second]

inductive Offset where
  | utc
  | numeric (negative : Bool) (hour : Fin 24) (minute : Fin 60)
  deriving DecidableEq, Repr

def Offset.text : Offset → List Char
  | .utc => ['Z']
  | .numeric negative hour minute =>
    (if negative then '-' else '+') :: (twoDigits hour ++ ':' :: twoDigits minute)

/-- The digits of a fraction. -/
abbrev Fraction := { digits : List Char // digits ≠ [] ∧ ∀ c ∈ digits, c.isDigit }

structure DateTime where
  date : FullDate
  clock : Clock
  fraction : Option Fraction
  offset : Offset

def fractionText : Option Fraction → List Char
  | none => []
  | some digits => '.' :: digits.1

def DateTime.text (d : DateTime) : List Char :=
  d.date.text ++ 'T' :: (d.clock.text ++ (fractionText d.fraction ++ d.offset.text))

/-! ## Digits -/

section Digits

variable {x y : List Char} {c sep : Char} {n : Nat}

theorem twoDigits_isDigit (h : n < 100) : ∀ c ∈ twoDigits n, c.isDigit = true := by
  intro c hc
  rcases List.mem_cons.mp hc with rfl | hc
  · rw [Nat.isDigit_digitChar, decide_eq_true_iff]
    omega
  · rw [List.mem_singleton.mp hc, Nat.isDigit_digitChar, decide_eq_true_iff]
    omega

theorem isNumber_iff : isNumber x = true ↔ x ≠ [] ∧ ∀ c ∈ x, c.isDigit = true := by
  simp [isNumber]

theorem isNumber_twoDigits (h : n < 100) : isNumber (twoDigits n) = true :=
  isNumber_iff.mpr ⟨List.cons_ne_nil _ _, twoDigits_isDigit h⟩

theorem notMem_of_isDigit (h : ∀ c ∈ x, c.isDigit = true) (hsep : sep.isDigit = false) :
    sep ∉ x := by
  intro hmem
  rw [h sep hmem] at hsep
  cases hsep

/-- The last character is a digit. -/
def EndsInDigit (x : List Char) : Prop := ∃ before c, x = before ++ [c] ∧ c.isDigit = true

theorem endsInDigit_of_number (hne : x ≠ []) (h : ∀ c ∈ x, c.isDigit = true) :
    EndsInDigit x := by
  obtain ⟨before, c, rfl⟩ := (List.eq_nil_or_concat x).resolve_left hne
  rw [List.concat_eq_append] at h ⊢
  exact ⟨before, c, rfl, h c (List.mem_append_right before List.mem_cons_self)⟩

theorem EndsInDigit.append (h : EndsInDigit y) (x : List Char) : EndsInDigit (x ++ y) := by
  obtain ⟨before, c, rfl, hc⟩ := h
  exact ⟨x ++ before, c, (List.append_assoc x before [c]).symm, hc⟩

/-- Nothing is trimmed behind a digit. -/
theorem EndsInDigit.rdropWhile (h : EndsInDigit x) {p : Char → Bool}
    (hp : ∀ c, c.isDigit = true → p c = false) : x.rdropWhile p = x := by
  obtain ⟨before, c, rfl, hc⟩ := h
  exact List.rdropWhile_concat_neg p before c (by rw [hp c hc]; exact Bool.false_ne_true)

end Digits

/-! ## The checker on RFC 3339 texts -/

section Texts

variable {x y : List Char}

theorem FullDate.parts (d : FullDate) :
    ∀ p ∈ [twoDigits (d.year / 100) ++ twoDigits (d.year % 100), twoDigits d.month,
      twoDigits d.day], isNumber p = true := by
  have hday : d.day < 100 := by
    have h := d.day_le.2
    unfold daysInMonth at h
    split at h <;> split at h <;> omega
  have hmonth := d.month_le
  have hyear := d.year_lt
  intro p hp
  simp only [List.mem_cons, List.not_mem_nil, or_false] at hp
  rcases hp with rfl | rfl | rfl
  · refine isNumber_iff.mpr ⟨by simp [twoDigits], fun c hc => ?_⟩
    rcases List.mem_append.mp hc with hc | hc
    · exact twoDigits_isDigit (by omega) c hc
    · exact twoDigits_isDigit (by omega) c hc
  · exact isNumber_twoDigits (by omega)
  · exact isNumber_twoDigits hday

theorem Clock.parts (c : Clock) :
    ∀ p ∈ [twoDigits c.hour, twoDigits c.minute, twoDigits c.second],
      p.length ≤ 2 ∧ isNumber p = true := by
  have hhour := c.hour_lt
  have hminute := c.minute_lt
  have hsecond := c.second_le
  intro p hp
  simp only [List.mem_cons, List.not_mem_nil, or_false] at hp
  rcases hp with rfl | rfl | rfl
  · exact ⟨Nat.le_refl 2, isNumber_twoDigits (by omega)⟩
  · exact ⟨Nat.le_refl 2, isNumber_twoDigits (by omega)⟩
  · exact ⟨Nat.le_refl 2, isNumber_twoDigits (by omega)⟩

theorem notMem_of_isNumber {sep : Char} (h : isNumber x = true) (hsep : sep.isDigit = false) :
    sep ∉ x := notMem_of_isDigit (isNumber_iff.mp h).2 hsep

/-- A character that is neither in the parts nor between them. -/
theorem notMem_intercalate {sep c : Char} {a b d : List Char} (hsep : c ≠ sep) (ha : c ∉ a)
    (hb : c ∉ b) (hd : c ∉ d) : c ∉ [sep].intercalate [a, b, d] := by
  simp [List.intercalate, ha, hb, hd, hsep]

theorem date_text (d : FullDate) : date d.text = true := by
  have hparts := d.parts
  have hsplit : d.text.splitOn '-' = _ := List.splitOn_intercalate '-'
    (fun p hp => notMem_of_isNumber (hparts p hp) rfl) (List.cons_ne_nil _ _)
  simp only [date, hsplit, Bool.and_eq_true, List.all_eq_true]
  exact ⟨rfl, hparts⟩

theorem notMem_date (d : FullDate) : 'T' ∉ d.text := by
  have hparts := d.parts
  simp only [List.forall_mem_cons] at hparts
  obtain ⟨hyear, hmonth, hday, -⟩ := hparts
  exact notMem_intercalate (by decide) (notMem_of_isNumber hyear rfl)
    (notMem_of_isNumber hmonth rfl) (notMem_of_isNumber hday rfl)

theorem dateTime_append (hx : 'T' ∉ x) : dateTime (x ++ 'T' :: y) = (date x && time y) := by
  have hwhile : ∀ c ∈ x, decide (c ≠ 'T') = true := fun c hc =>
    decide_eq_true fun he => hx (he ▸ hc)
  have hsplit : splitOnce 'T' (x ++ 'T' :: y) = some (x, y) := by
    rw [splitOnce, if_pos (List.mem_append_right x List.mem_cons_self),
      List.takeWhile_append_of_pos hwhile, List.dropWhile_append_of_pos hwhile]
    simp
  rw [dateTime, hsplit]

theorem notMem_clock (c : Clock) (sep : Char) (hsep : sep.isDigit = false) (hne : sep ≠ ':') :
    sep ∉ c.text := by
  have hparts := c.parts
  simp only [List.forall_mem_cons] at hparts
  obtain ⟨hhour, hminute, hsecond, -⟩ := hparts
  exact notMem_intercalate hne (notMem_of_isNumber hhour.2 hsep)
    (notMem_of_isNumber hminute.2 hsep) (notMem_of_isNumber hsecond.2 hsep)

theorem splitOn_clock (c : Clock) : c.text.splitOn ':' =
    [twoDigits c.hour, twoDigits c.minute, twoDigits c.second] :=
  List.splitOn_intercalate ':' (fun p hp => notMem_of_isNumber (c.parts p hp).2 rfl)
    (List.cons_ne_nil _ _)

/-- The pieces of a clock are what the checker asks for. -/
theorem time_of_clock (c : Clock)
    (htrim : ((x.rdropWhile (· = 'Z')).rdropWhile fun c => c = '+' ∨ c = '-') = y)
    (hhead : (y.splitOn '.').head? = some c.text) : time x = true := by
  simp only [time, htrim, hhead, Option.getD_some, splitOn_clock, List.length_cons,
    List.length_nil, Bool.and_eq_true, List.all_eq_true]
  refine ⟨by decide, fun p hp => ?_⟩
  obtain ⟨hlength, hnumber⟩ := c.parts p hp
  exact ⟨decide_eq_true hlength, hnumber⟩

theorem clock_text (c : Clock) : c.text =
    twoDigits c.hour ++ ':' :: (twoDigits c.minute ++ ':' :: twoDigits c.second) := by
  simp [Clock.text, List.intercalate]

theorem endsInDigit_clock (c : Clock) : EndsInDigit c.text := by
  have hsecond : EndsInDigit (twoDigits c.second) :=
    endsInDigit_of_number (List.cons_ne_nil _ _)
      (twoDigits_isDigit (Nat.lt_of_le_of_lt c.second_le (by decide)))
  rw [clock_text]
  exact (((hsecond.append [':']).append (twoDigits c.minute)).append [':']).append
    (twoDigits c.hour)

/-- A fraction behind the clock ends in a digit, as does the clock. -/
theorem endsInDigit_fraction (c : Clock) (f : Option Fraction) :
    EndsInDigit (c.text ++ fractionText f) := by
  cases f with
  | none =>
    rw [fractionText, List.append_nil]
    exact endsInDigit_clock c
  | some digits =>
    obtain ⟨digits, hne, hdigits⟩ := digits
    rw [fractionText, ← List.singleton_append, ← List.append_assoc]
    exact (endsInDigit_of_number hne hdigits).append _

theorem endsInDigit_numeric (x : List Char) (negative : Bool) (hour : Fin 24) (minute : Fin 60) :
    EndsInDigit (x ++ (Offset.numeric negative hour minute).text) := by
  have hminute : EndsInDigit (twoDigits minute) :=
    endsInDigit_of_number (List.cons_ne_nil _ _)
      (twoDigits_isDigit (Nat.lt_trans minute.isLt (by decide)))
  have hsign := ((hminute.append [':']).append (twoDigits hour)).append
    [if negative then '-' else '+']
  exact hsign.append x

/-- Neither trim takes anything from a text that ends in a digit. -/
theorem EndsInDigit.trimmed (h : EndsInDigit x) :
    ((x.rdropWhile (· = 'Z')).rdropWhile fun c => c = '+' ∨ c = '-') = x := by
  have hne : ∀ c sep : Char, sep.isDigit = false → c.isDigit = true → c ≠ sep := by
    intro c sep hsep hc he
    rw [he, hsep] at hc
    cases hc
  rw [h.rdropWhile fun c hc => decide_eq_false (hne c 'Z' rfl hc)]
  exact h.rdropWhile fun c hc => decide_eq_false
    (not_or.mpr ⟨hne c '+' rfl hc, hne c '-' rfl hc⟩)

/-- What stands before the first point, if that belongs to a fraction. -/
theorem head_splitOn_fraction (c : Clock) (digits : Fraction) (y : List Char) :
    ((c.text ++ (fractionText (some digits) ++ y)).splitOn '.').head? = some c.text := by
  rw [fractionText, List.cons_append,
    List.splitOn_append_cons_self_of_not_mem (notMem_clock c '.' rfl (by decide))]
  rfl

theorem time_utc (c : Clock) (f : Option Fraction) :
    time (c.text ++ (fractionText f ++ Offset.utc.text)) = true := by
  refine time_of_clock c (y := c.text ++ fractionText f) ?_ ?_
  · rw [← List.append_assoc, Offset.text, List.rdropWhile_concat_pos _ _ _ (by decide)]
    exact (endsInDigit_fraction c f).trimmed
  · cases f with
    | none =>
      rw [fractionText, List.append_nil,
        List.splitOn_eq_singleton (notMem_clock c '.' rfl (by decide))]
      rfl
    | some digits =>
      have hhead := head_splitOn_fraction c digits []
      rwa [List.append_nil] at hhead

theorem time_fraction (c : Clock) (digits : Fraction) (negative : Bool) (hour : Fin 24)
    (minute : Fin 60) :
    time (c.text ++ (fractionText (some digits) ++ (Offset.numeric negative hour minute).text)) =
      true := by
  refine time_of_clock c ?_
    (head_splitOn_fraction c digits (Offset.numeric negative hour minute).text)
  rw [← List.append_assoc]
  exact (endsInDigit_numeric _ negative hour minute).trimmed

/-- Without a fraction the offset stays behind the seconds, and its colon makes a piece. -/
theorem time_numeric (c : Clock) (negative : Bool) (hour : Fin 24) (minute : Fin 60) :
    time (c.text ++ (fractionText none ++ (Offset.numeric negative hour minute).text)) =
      false := by
  have hdigits : ∀ n < 100, ∀ sep : Char, sep.isDigit = false → sep ∉ twoDigits n :=
    fun n hn sep hsep => notMem_of_isDigit (twoDigits_isDigit hn) hsep
  have hhour := hour.isLt
  have hminute := minute.isLt
  have hclock := c.hour_lt
  have hminutes := c.minute_lt
  have hsecond := c.second_le
  have hsign : ∀ sep : Char, sep ≠ '+' → sep ≠ '-' →
      sep ≠ (if negative then '-' else '+') := by
    intro sep hplus hminus
    cases negative with
    | false => exact hplus
    | true => exact hminus
  have hpoint : '.' ∉ c.text ++ (Offset.numeric negative hour minute).text := by
    rw [Offset.text, List.mem_append, List.mem_cons, List.mem_append, List.mem_cons, not_or,
      not_or, not_or, not_or]
    exact ⟨notMem_clock c '.' rfl (by decide), hsign '.' (by decide) (by decide),
      hdigits hour (by omega) '.' rfl, by decide, hdigits minute (by omega) '.' rfl⟩
  have hsplit : (c.text ++ (Offset.numeric negative hour minute).text).splitOn ':' =
      [twoDigits c.hour, twoDigits c.minute,
        twoDigits c.second ++ (if negative then '-' else '+') :: twoDigits hour,
        twoDigits minute] := by
    have hoffset :
        ':' ∉ twoDigits c.second ++ (if negative then '-' else '+') :: twoDigits hour := by
      rw [List.mem_append, List.mem_cons, not_or, not_or]
      exact ⟨hdigits c.second (by omega) ':' rfl, hsign ':' (by decide) (by decide),
        hdigits hour (by omega) ':' rfl⟩
    have htext : c.text ++ (Offset.numeric negative hour minute).text =
        twoDigits c.hour ++ ':' :: (twoDigits c.minute ++ ':' ::
          ((twoDigits c.second ++ (if negative then '-' else '+') :: twoDigits hour) ++
            ':' :: twoDigits minute)) := by
      simp [clock_text, Offset.text]
    rw [htext, List.splitOn_append_cons_self_of_not_mem (hdigits c.hour (by omega) ':' rfl),
      List.splitOn_append_cons_self_of_not_mem (hdigits c.minute (by omega) ':' rfl),
      List.splitOn_append_cons_self_of_not_mem hoffset,
      List.splitOn_eq_singleton (hdigits minute (by omega) ':' rfl)]
  simp only [time, fractionText, List.nil_append,
    (endsInDigit_numeric c.text negative hour minute).trimmed,
    List.splitOn_eq_singleton hpoint, List.head?_cons, Option.getD_some, hsplit]
  rfl

end Texts

/-- **RFC 3339.** Of the texts of RFC 3339 the checker accepts those in UTC, and those with
a fraction of a second. -/
theorem dateTime_iff (d : DateTime) :
    dateTime d.text = true ↔ d.offset = .utc ∨ d.fraction ≠ none := by
  rw [DateTime.text, dateTime_append (notMem_date d.date), date_text, Bool.true_and]
  cases hoffset : d.offset with
  | utc => exact iff_of_true (time_utc d.clock d.fraction) (.inl rfl)
  | numeric negative hour minute =>
    cases hfraction : d.fraction with
    | some digits =>
      exact iff_of_true (time_fraction d.clock digits negative hour minute)
        (.inr (Option.some_ne_none _))
    | none =>
      rw [time_numeric]
      refine iff_of_false Bool.false_ne_true ?_
      intro h
      rcases h with h | h
      · cases h
      · exact h rfl

/-- Noon in India. -/
theorem numeric_offset_rejected : dateTime "2024-01-01T12:00:00+05:30".toList = false ∧
    (DateTime.text ⟨⟨2024, 1, 1, by decide, by decide, by decide⟩,
      ⟨12, 0, 0, by decide, by decide, by decide⟩, none, .numeric false 5 30⟩) =
      "2024-01-01T12:00:00+05:30".toList := by
  constructor <;> decide +kernel

end JustApi.Core.Formats
