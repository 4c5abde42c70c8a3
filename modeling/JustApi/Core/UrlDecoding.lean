import JustApi.Core.Utf8

/-! # Three percent decoders

The decoder of the CRUD routes is `percentDecode`; requests in Python and the cookie jar
have their own. Each is a loop over bytes whose result is read as UTF-8. -/
namespace JustApi.Core.UrlDecoding
open JustApi.Core.Http JustApi.Core.QueryString

/-- `char::to_digit(16)` -/
def toDigit (c : Char) : Option Nat :=
  if '0' ≤ c ∧ c ≤ '9' then some (c.toNat - '0'.toNat)
  else if 'a' ≤ c ∧ c ≤ 'f' then some (c.toNat - 'a'.toNat + 10)
  else if 'A' ≤ c ∧ c ≤ 'F' then some (c.toNat - 'A'.toNat + 10)
  else none

/-- The cast from `u8` to `char`. -/
def asChar (b : UInt8) : Char := Char.ofNat b.toNat

/-! ## Requests in Python -/

namespace Request

def firstByte (b : UInt8) (rest : Bytes) : UInt8 × Nat :=
  if b = 0x25 then
    match rest with
    | h :: l :: _ =>
      match toDigit (asChar h), toDigit (asChar l) with
      | some hi, some lo => (UInt8.ofNat (hi * 16 + lo), 2)
      | _, _ => (b, 0)
    | _ => (b, 0)
  else (b, 0)

/-- `s.replace('+', " ")` -/
def replacePlus (s : String) : String :=
  String.ofList (s.toList.map fun c => if c = '+' then ' ' else c)

def decodeBytes (s : String) : Bytes := pieces firstByte 0 (asBytes (replacePlus s))

def percentDecode (s : String) : String := fromUtf8Lossy (decodeBytes s)

end Request

/-! ## Cookies -/

namespace Cookies

/-- A digit that is none counts as zero. -/
def firstByte (b : UInt8) (rest : Bytes) : UInt8 × Nat :=
  match rest with
  | h :: l :: _ =>
    if b = 0x25 then
      (UInt8.ofNat ((toDigit (asChar h)).getD 0) * 16 + UInt8.ofNat ((toDigit (asChar l)).getD 0),
        2)
    else if b = 0x2B then (0x20, 0)
    else (b, 0)
  | _ => if b = 0x2B then (0x20, 0) else (b, 0)

def decodeBytes (bytes : Bytes) : Bytes := pieces firstByte 0 bytes

def urlDecode (s : String) : String := fromUtf8Lossy (decodeBytes (asBytes s))

end Cookies

/-! ## What decoding means -/

/-- A percent sign and two hexadecimal digits stand for a byte. -/
def IsEscape (b : UInt8) (rest : Bytes) : Prop :=
  b = 0x25 ∧ ∃ h l after, rest = h :: l :: after ∧ (hexDigit h).isSome ∧ (hexDigit l).isSome

/-- `+` is a space, an escape is its byte, and any other byte is itself. -/
inductive FormDecodes : Bytes → Bytes → Prop where
  | nil : FormDecodes [] []
  | plus {rest out : Bytes} : FormDecodes rest out → FormDecodes (0x2B :: rest) (0x20 :: out)
  | escape {h l hi lo : UInt8} {rest out : Bytes} : hexDigit h = some hi → hexDigit l = some lo →
    FormDecodes rest out → FormDecodes (0x25 :: h :: l :: rest) ((hi * 16 + lo) :: out)
  | literal {b : UInt8} {rest out : Bytes} : b ≠ 0x2B → ¬ IsEscape b rest →
    FormDecodes rest out → FormDecodes (b :: rest) (b :: out)

/-- The three decoders make the same of a text, and what decoding means. -/
structure DecodedAlike (s : String) : Prop where
  crud : FormDecodes (asBytes s) (percentDecodeBytes (asBytes s))
  request : FormDecodes (asBytes s) (Request.decodeBytes s)
  cookies : FormDecodes (asBytes s) (Cookies.decodeBytes (asBytes s))
  equal : percentDecode s = Request.percentDecode s ∧ percentDecode s = Cookies.urlDecode s

/-- Two hexadecimal digits follow every percent sign with two bytes behind it. -/
def WellEscaped (bytes : Bytes) : Prop :=
  ∀ before h l after, bytes = before ++ 0x25 :: h :: l :: after →
    (hexDigit h).isSome ∧ (hexDigit l).isSome

/-! ## Digits -/

theorem forall_byte {p : UInt8 → Prop} (h : ∀ n < 256, p (UInt8.ofNat n)) (b : UInt8) : p b := by
  have hb := h b.toNat b.toNat_lt
  rwa [UInt8.ofNat_toNat] at hb

theorem toDigit_asChar (b : UInt8) : toDigit (asChar b) = (hexDigit b).map UInt8.toNat := by
  revert b
  exact forall_byte (by decide +kernel)

/-- Neither sign is a digit. -/
theorem hexDigit_percent : hexDigit 0x25 = none := rfl

theorem hexDigit_plus : hexDigit 0x2B = none := rfl

theorem hexDigit_space : hexDigit 0x20 = none := rfl

/-- With one digit missing no percent sign comes out. -/
theorem half_escape_ne (b : UInt8) :
    (hexDigit b).getD 0 * 16 + 0 ≠ 0x25 ∧ 0 * 16 + (hexDigit b).getD 0 ≠ (0x25 : UInt8) := by
  revert b
  exact forall_byte (by decide +kernel)

theorem ofNat_digit (b : UInt8) :
    UInt8.ofNat ((toDigit (asChar b)).getD 0) = (hexDigit b).getD 0 := by
  rw [toDigit_asChar]
  cases hexDigit b with
  | none => rfl
  | some d => exact UInt8.ofNat_toNat

/-! ## The decoder of the CRUD routes -/

theorem firstByte_escape {h l hi lo : UInt8} (hh : hexDigit h = some hi) (hl : hexDigit l = some lo)
    (rest : Bytes) : firstByte 0x25 (h :: l :: rest) = (hi * 16 + lo, 2) := by
  simp [firstByte, hh, hl]

theorem firstByte_literal {b : UInt8} {rest : Bytes} (hb : b ≠ 0x2B) (hno : ¬ IsEscape b rest) :
    firstByte b rest = (b, 0) := by
  unfold firstByte
  rw [if_neg hb]
  split
  · rename_i hpercent
    split
    · rename_i h l after
      split
      · rename_i hi lo hh hl
        exact absurd ⟨hpercent, h, l, after, rfl, by rw [hh]; rfl, by rw [hl]; rfl⟩ hno
      · rfl
    · rfl
  · rfl

theorem percentDecodeBytes_spec (bytes : Bytes) (skip : Nat) :
    FormDecodes (bytes.drop skip) (pieces firstByte skip bytes) := by
  induction bytes generalizing skip with
  | nil => simpa [pieces] using FormDecodes.nil
  | cons b rest ih =>
    cases skip with
    | succ skip => exact ih skip
    | zero =>
      rw [List.drop_zero, pieces]
      by_cases hplus : b = 0x2B
      · subst hplus
        exact .plus (ih 0)
      by_cases hescape : IsEscape b rest
      · obtain ⟨rfl, h, l, after, rfl, hh, hl⟩ := hescape
        obtain ⟨hi, hh⟩ := Option.isSome_iff_exists.mp hh
        obtain ⟨lo, hl⟩ := Option.isSome_iff_exists.mp hl
        rw [firstByte_escape hh hl]
        exact .escape hh hl (ih 2)
      · rw [firstByte_literal hplus hescape]
        exact .literal hplus hescape (ih 0)

/-- There is one way to decode. -/
theorem FormDecodes.unique {bytes out out' : Bytes} (h : FormDecodes bytes out)
    (h' : FormDecodes bytes out') : out = out' := by
  induction h generalizing out' with
  | nil =>
    cases h'
    rfl
  | plus _ ih =>
    cases h' with
    | plus h' => rw [ih h']
    | literal hb => exact absurd rfl hb
  | escape hh hl _ ih =>
    cases h' with
    | escape hh' hl' h' =>
      rw [ih h', Option.some.inj (hh.symm.trans hh'), Option.some.inj (hl.symm.trans hl')]
    | literal _ hno =>
      exact absurd ⟨rfl, _, _, _, rfl, by rw [hh]; rfl, by rw [hl]; rfl⟩ hno
  | literal hb hno _ ih =>
    cases h' with
    | plus => exact absurd rfl hb
    | escape hh hl => exact absurd ⟨rfl, _, _, _, rfl, by rw [hh]; rfl, by rw [hl]; rfl⟩ hno
    | literal _ _ h' => rw [ih h']

/-! ## The decoder of Python's requests -/

def plusToSpace (b : UInt8) : UInt8 := if b = 0x2B then 0x20 else b

theorem utf8EncodeChar_replace (c : Char) :
    String.utf8EncodeChar (if c = '+' then ' ' else c) =
      (String.utf8EncodeChar c).map plusToSpace := by
  by_cases hc : c = '+'
  · subst hc
    rfl
  · have hne : ∀ b ∈ String.utf8EncodeChar c, b ≠ 0x2B := by
      intro b hb he
      subst he
      rcases utf8EncodeChar_cases c with ⟨hlt, hbytes⟩ | ⟨-, hge⟩
      · rw [hbytes, List.mem_singleton] at hb
        have hn := congrArg UInt8.toNat hb
        rw [toNat_ofNat_of_lt (by omega)] at hn
        exact hc (by rw [← Char.ofNat_toNat c, ← hn]; rfl)
      · exact absurd (hge _ hb) (by decide)
    rw [if_neg hc]
    refine ((List.map_congr_left fun b hb => ?_).trans (List.map_id _)).symm
    exact if_neg (hne b hb)

theorem asBytes_replacePlus (s : String) :
    asBytes (Request.replacePlus s) = (asBytes s).map plusToSpace := by
  rw [asBytes, Request.replacePlus, String.toList_ofList, asBytes]
  induction s.toList with
  | nil => rfl
  | cons c cs ih =>
    rw [List.map_cons, List.flatMap_cons, List.flatMap_cons, List.map_append, ih,
      utf8EncodeChar_replace]

theorem hexDigit_plusToSpace (b : UInt8) : hexDigit (plusToSpace b) = hexDigit b := by
  unfold plusToSpace
  split
  · rename_i hb
    rw [hb, hexDigit_plus, hexDigit_space]
  · rfl

theorem request_firstByte (b : UInt8) (rest : Bytes) :
    Request.firstByte (plusToSpace b) (rest.map plusToSpace) = firstByte b rest := by
  by_cases hplus : b = 0x2B
  · subst hplus
    rfl
  have hb : plusToSpace b = b := if_neg hplus
  rw [hb]
  unfold Request.firstByte firstByte
  rw [if_neg hplus]
  by_cases hpercent : b = 0x25
  · rw [if_pos hpercent, if_pos hpercent]
    match rest with
    | [] | [_] => rfl
    | h :: l :: _ =>
      simp only [List.map_cons, toDigit_asChar, hexDigit_plusToSpace]
      cases hexDigit h <;> cases hexDigit l <;> simp [UInt8.ofNat_add, UInt8.ofNat_mul]
  · rw [if_neg hpercent, if_neg hpercent]

theorem pieces_map {α : Type} {first first' : UInt8 → Bytes → α × Nat} {g : UInt8 → UInt8}
    (h : ∀ b rest, first' (g b) (rest.map g) = first b rest) (skip : Nat) (bytes : Bytes) :
    pieces first' skip (bytes.map g) = pieces first skip bytes := by
  induction bytes generalizing skip with
  | nil => cases skip <;> rfl
  | cons b rest ih =>
    cases skip with
    | zero => rw [List.map_cons, pieces, pieces, h, ih]
    | succ skip => exact ih skip

/-- Replacing `+` first makes no difference. -/
theorem request_decodeBytes (s : String) :
    Request.decodeBytes s = percentDecodeBytes (asBytes s) := by
  rw [Request.decodeBytes, asBytes_replacePlus, pieces_map request_firstByte]
  rfl

/-! ## The decoder of cookies -/

theorem wellEscaped_cons_of_ne {b : UInt8} (hb : b ≠ 0x25) (rest : Bytes) :
    WellEscaped (b :: rest) ↔ WellEscaped rest := by
  constructor
  · intro hw before h l after he
    exact hw (b :: before) h l after (by rw [he]; rfl)
  · intro hw before h l after he
    cases before with
    | nil => exact absurd (List.cons.inj he).1 hb
    | cons b' before => exact hw before h l after (List.cons.inj he).2

theorem wellEscaped_short {bytes : Bytes} (hlen : bytes.length ≤ 2) : WellEscaped bytes := by
  intro before h l after he
  rw [he] at hlen
  simp at hlen
  omega

theorem wellEscaped_escape {h l : UInt8} (hh : (hexDigit h).isSome) (hl : (hexDigit l).isSome)
    (rest : Bytes) : WellEscaped (0x25 :: h :: l :: rest) ↔ WellEscaped rest := by
  have hne : ∀ d : UInt8, (hexDigit d).isSome → d ≠ 0x25 := by
    intro d hd he
    rw [he, hexDigit_percent] at hd
    cases hd
  have hdigits : WellEscaped (h :: l :: rest) ↔ WellEscaped rest :=
    (wellEscaped_cons_of_ne (hne h hh) _).trans (wellEscaped_cons_of_ne (hne l hl) rest)
  rw [← hdigits]
  constructor
  · intro hw before h' l' after he
    exact hw (0x25 :: before) h' l' after (by rw [he]; rfl)
  · intro hw before h' l' after he
    cases before with
    | nil =>
      obtain ⟨rfl, hrest⟩ := List.cons.inj (List.cons.inj he).2
      obtain ⟨rfl, -⟩ := List.cons.inj hrest
      exact ⟨hh, hl⟩
    | cons b' before => exact hw before h' l' after (List.cons.inj he).2

theorem cookies_firstByte_literal {b : UInt8} (hb : b ≠ 0x25) (rest : Bytes) :
    Cookies.firstByte b rest = firstByte b rest := by
  unfold Cookies.firstByte firstByte
  rw [if_neg hb]
  split
  · rw [if_neg hb]
  · rfl

theorem cookies_firstByte_percent (h l : UInt8) (rest : Bytes) :
    Cookies.firstByte 0x25 (h :: l :: rest) =
      ((hexDigit h).getD 0 * 16 + (hexDigit l).getD 0, 2) := by
  simp only [Cookies.firstByte, ofNat_digit, if_true]

/-- At the first escape that is not one the two decoders part. -/
theorem cookies_eq_iff (bytes : Bytes) (skip : Nat) :
    pieces Cookies.firstByte skip bytes = pieces firstByte skip bytes ↔
      WellEscaped (bytes.drop skip) := by
  induction bytes generalizing skip with
  | nil =>
    rw [List.drop_nil]
    exact iff_of_true (by cases skip <;> rfl) (wellEscaped_short (Nat.zero_le 2))
  | cons b rest ih =>
    cases skip with
    | succ skip => exact ih skip
    | zero =>
      rw [List.drop_zero, pieces, pieces]
      by_cases hb : b = 0x25
      · subst hb
        cases rest with
        | nil => exact iff_of_true rfl (wellEscaped_short (by decide))
        | cons h tail =>
          cases tail with
          | nil =>
            have htail := (ih 0).mpr (wellEscaped_short (by simp))
            exact iff_of_true (congrArg (List.cons 0x25) htail) (wellEscaped_short (by simp))
          | cons l rest =>
            rw [cookies_firstByte_percent]
            by_cases hboth : (hexDigit h).isSome ∧ (hexDigit l).isSome
            · obtain ⟨hi, hh⟩ := Option.isSome_iff_exists.mp hboth.1
              obtain ⟨lo, hl⟩ := Option.isSome_iff_exists.mp hboth.2
              rw [firstByte_escape hh hl, wellEscaped_escape hboth.1 hboth.2, hh, hl,
                Option.getD_some, Option.getD_some, List.cons_inj_right]
              exact ih 2
            · refine iff_of_false (fun he => ?_) fun hw => hboth (hw [] h l rest rfl)
              have hfirst : firstByte 0x25 (h :: l :: rest) = (0x25, 0) := by
                refine firstByte_literal (by decide) fun hesc => hboth ?_
                obtain ⟨-, h', l', after, hrest, hh, hl⟩ := hesc
                cases hrest
                exact ⟨hh, hl⟩
              rw [hfirst] at he
              have hvalue := (List.cons.inj he).1
              cases hh : hexDigit h with
              | none =>
                rw [hh] at hvalue
                exact (half_escape_ne l).2 hvalue
              | some hi =>
                cases hl : hexDigit l with
                | none =>
                  rw [hl] at hvalue
                  exact (half_escape_ne h).1 hvalue
                | some lo => exact hboth ⟨by rw [hh]; rfl, by rw [hl]; rfl⟩
      · have hone : (firstByte b rest).2 = 0 := by
          unfold firstByte
          rw [if_neg hb]
          split <;> rfl
        rw [cookies_firstByte_literal hb, wellEscaped_cons_of_ne hb, List.cons_inj_right, hone]
        exact ih 0

/-! ## Form encoding -/

/-- Letters, digits and `*-._` -/
def formKeeps (b : UInt8) : Bool :=
  (asChar b).isAlphanum || b ∈ [0x2A, 0x2D, 0x2E, 0x5F]

def hexUpper (n : Nat) : Char := (Nat.digitChar n).toUpper

/-- `application/x-www-form-urlencoded` -/
def formEncodeByte (b : UInt8) : List Char :=
  if b = 0x20 then ['+']
  else if formKeeps b then [asChar b]
  else ['%', hexUpper (b.toNat / 16), hexUpper (b.toNat % 16)]

def formEncode (s : String) : String := String.ofList ((asBytes s).flatMap formEncodeByte)

/-- What one byte is encoded as. -/
def encodedByte (b : UInt8) : Bytes := (formEncodeByte b).map fun c => UInt8.ofNat c.toNat

theorem formEncodeByte_ascii (b : UInt8) : ∀ c ∈ formEncodeByte b, c.toNat < 128 := by
  have hall : (formEncodeByte b).all fun c => c.toNat < 128 := by
    revert b
    exact forall_byte (by decide +kernel)
  exact fun c hc => of_decide_eq_true (List.all_eq_true.mp hall c hc)

theorem asBytes_formEncode (s : String) :
    asBytes (formEncode s) = (asBytes s).flatMap encodedByte := by
  rw [formEncode, asBytes_ascii, List.map_flatMap]
  · rfl
  · intro c hc
    obtain ⟨b, -, hc⟩ := List.mem_flatMap.mp hc
    exact formEncodeByte_ascii b c hc

def hexByte (b : UInt8) : UInt8 := UInt8.ofNat (hexUpper b.toNat).toNat

theorem encodedByte_digits (b : UInt8) :
    b = 0x20 ∧ encodedByte b = [0x2B] ∨
      (b ≠ 0x2B ∧ b ≠ 0x25) ∧ encodedByte b = [b] ∨
      encodedByte b = [0x25, hexByte (b / 16), hexByte (b % 16)] ∧
        hexDigit (hexByte (b / 16)) = some (b / 16) ∧
        hexDigit (hexByte (b % 16)) = some (b % 16) ∧ b / 16 * 16 + b % 16 = b := by
  revert b
  exact forall_byte (by decide +kernel)

theorem encodedByte_cases (b : UInt8) :
    b = 0x20 ∧ encodedByte b = [0x2B] ∨
      (b ≠ 0x2B ∧ b ≠ 0x25) ∧ encodedByte b = [b] ∨
      ∃ h l hi lo, encodedByte b = [0x25, h, l] ∧ hexDigit h = some hi ∧ hexDigit l = some lo ∧
        hi * 16 + lo = b :=
  (encodedByte_digits b).imp_right (Or.imp_right fun h => ⟨_, _, _, _, h⟩)

theorem encoded_decodes (bytes : Bytes) : FormDecodes (bytes.flatMap encodedByte) bytes := by
  induction bytes with
  | nil => exact .nil
  | cons b rest ih =>
    rw [List.flatMap_cons]
    rcases encodedByte_cases b with ⟨rfl, hb⟩ | ⟨⟨hplus, hpercent⟩, hb⟩ | ⟨h, l, hi, lo, hb, hh, hl, rfl⟩
    · rw [hb]
      exact .plus ih
    · rw [hb]
      exact .literal hplus (fun hescape => hpercent hescape.1) ih
    · rw [hb]
      exact .escape hh hl ih

theorem encoded_wellEscaped (bytes : Bytes) : WellEscaped (bytes.flatMap encodedByte) := by
  induction bytes with
  | nil => exact wellEscaped_short (by decide)
  | cons b rest ih =>
    rw [List.flatMap_cons]
    rcases encodedByte_cases b with ⟨-, hb⟩ | ⟨⟨-, hpercent⟩, hb⟩ | ⟨h, l, hi, lo, hb, hh, hl, -⟩
    · rw [hb]
      exact (wellEscaped_cons_of_ne (by decide) _).mpr ih
    · rw [hb]
      exact (wellEscaped_cons_of_ne hpercent _).mpr ih
    · rw [hb]
      exact (wellEscaped_escape (by rw [hh]; rfl) (by rw [hl]; rfl) _).mpr ih

/-! ## Agreement -/

theorem decodedAlike_iff (s : String) : DecodedAlike s ↔ WellEscaped (asBytes s) := by
  have hcrud : FormDecodes (asBytes s) (percentDecodeBytes (asBytes s)) :=
    percentDecodeBytes_spec (asBytes s) 0
  constructor
  · intro h
    exact (cookies_eq_iff (asBytes s) 0).mp (h.cookies.unique hcrud)
  · intro hw
    have hcookies : Cookies.decodeBytes (asBytes s) = percentDecodeBytes (asBytes s) :=
      (cookies_eq_iff (asBytes s) 0).mpr hw
    refine ⟨hcrud, ?_, ?_, ?_, ?_⟩
    · rw [request_decodeBytes]
      exact hcrud
    · rw [hcookies]
      exact hcrud
    · rw [Request.percentDecode, request_decodeBytes, percentDecode]
    · rw [Cookies.urlDecode, hcookies, percentDecode]

/-- What was encoded is decoded by all three. -/
theorem decode_formEncode (s : String) :
    percentDecode (formEncode s) = s ∧ Request.percentDecode (formEncode s) = s ∧
      Cookies.urlDecode (formEncode s) = s := by
  have hw : WellEscaped (asBytes (formEncode s)) := by
    rw [asBytes_formEncode]
    exact encoded_wellEscaped _
  have halike := (decodedAlike_iff (formEncode s)).mpr hw
  have hdecodes : FormDecodes (asBytes (formEncode s)) (asBytes s) := by
    rw [asBytes_formEncode]
    exact encoded_decodes _
  have hcrud : percentDecode (formEncode s) = s := by
    rw [percentDecode, halike.crud.unique hdecodes, fromUtf8Lossy_asBytes]
  exact ⟨hcrud, halike.equal.1.symm.trans hcrud, halike.equal.2.symm.trans hcrud⟩

/-- **Percent decoders.** The decoders of requests and of the CRUD routes always agree, and
all three do exactly on the texts without malformed escapes; a form-encoded text is read
back by each of them. -/
theorem percent_decoders_agree_iff (s : String) :
    percentDecode s = Request.percentDecode s ∧ (DecodedAlike s ↔ WellEscaped (asBytes s)) ∧
      percentDecode (formEncode s) = s ∧ Request.percentDecode (formEncode s) = s ∧
        Cookies.urlDecode (formEncode s) = s := by
  refine ⟨?_, decodedAlike_iff s, decode_formEncode s⟩
  rw [Request.percentDecode, request_decodeBytes, percentDecode]

/-- Two letters that are no digits. -/
theorem malformed_escape_differs :
    percentDecode "100%zz" = "100%zz" ∧ Request.percentDecode "100%zz" = "100%zz" ∧
      Cookies.urlDecode "100%zz" ≠ "100%zz" := by
  decide +kernel

end JustApi.Core.UrlDecoding
