import JustApi.Core.Crud
import JustApi.Lib.Float64

/-! # Parameters of prepared statements

What a JSON value is bound as, against what the bound parameter denotes. -/
namespace JustApi.Core.Params
open JustApi.Core.Http JustApi.Core.Crud JustApi.Lib.Float64

/-- A typed parameter. A float is its bits. -/
inductive Param where
  | null
  | bool (value : Bool)
  | int (value : Int64)
  | float (bits : UInt64)
  | text (value : String)
  | bytes (value : Bytes)
  | json (value : Value)
  deriving Repr

def asI64 : Number → Option Int64
  | .int i => if -2 ^ 63 ≤ i ∧ i < 2 ^ 63 then some (.ofInt i) else none
  | .float _ => none

def asF64 : Number → Option UInt64
  | .int i => some (F64.bitsOfInt i)
  | .float bits => some bits

/-- The string an object has under `$bytes`. -/
def bytesMarker (v : Value) : Option String :=
  match v.asObject.bind (List.lookup "$bytes") with
  | some (.string b64) => some b64
  | _ => none

/-- The base64 decoder, and the printer of a number. -/
structure Codec where
  decode : String → Option Bytes
  text : Number → String

variable (codec : Codec)

def Param.ofNumber (n : Number) : Param :=
  match asI64 n with
  | some i => .int i
  | none =>
    match asF64 n with
    | some f => .float f
    | none => .text (codec.text n)

def Param.ofMarker (b64 : String) : Param :=
  match codec.decode b64 with
  | some b => .bytes b
  | none => .text b64

def Param.ofPlain : Value → Param
  | .null => .null
  | .bool b => .bool b
  | .number n => .ofNumber codec n
  | .string s => .text s
  | .array items => .json (.array items)
  | .object fields => .json (.object fields)

/-- `Param::from` -/
def Param.from (v : Value) : Param :=
  match bytesMarker v with
  | some b64 => .ofMarker codec b64
  | none => .ofPlain codec v

/-! ## Lossless binding -/

/-- `{"$bytes": b64}` -/
def marker (b64 : String) : Value := .object [("$bytes", .string b64)]

/-- The value is what the parameter says, nothing more and nothing less. -/
inductive Denotes : Param → Value → Prop where
  | null : Denotes .null .null
  | bool (b : Bool) : Denotes (.bool b) (.bool b)
  | int (i : Int64) : Denotes (.int i) (.number (.int i.toInt))
  | float (bits : UInt64) : Denotes (.float bits) (.number (.float bits))
  | text (s : String) : Denotes (.text s) (.string s)
  | bytes (b64 : String) (b : Bytes) : codec.decode b64 = some b → Denotes (.bytes b) (marker b64)
  | json (v : Value) : Denotes (.json v) v

def FitsI64 (v : Value) : Prop := ∀ i, v = .number (.int i) → -2 ^ 63 ≤ i ∧ i < 2 ^ 63

/-- A string under `$bytes` is all there is in the object, and is base64. -/
def CleanMarker (v : Value) : Prop :=
  ∀ b64, bytesMarker v = some b64 → v = marker b64 ∧ (codec.decode b64).isSome

variable {codec} {v : Value} {b64 : String} {i : Int}

theorem bytesMarker_marker (b64 : String) : bytesMarker (marker b64) = some b64 := by
  simp [bytesMarker, marker, Value.asObject]

theorem asI64_int (h : -2 ^ 63 ≤ i ∧ i < 2 ^ 63) : asI64 (.int i) = some (.ofInt i) := if_pos h

theorem from_marker (h : bytesMarker v = some b64) :
    Param.from codec v = .ofMarker codec b64 := by
  rw [Param.from, h]

theorem from_plain (h : bytesMarker v = none) : Param.from codec v = .ofPlain codec v := by
  rw [Param.from, h]

theorem ofMarker_bytes_iff :
    (∃ b, Param.ofMarker codec b64 = .bytes b) ↔ (codec.decode b64).isSome := by
  unfold Param.ofMarker
  cases codec.decode b64 with
  | none => exact iff_of_false (fun ⟨b, he⟩ => Param.noConfusion he) Bool.false_ne_true
  | some b => exact iff_of_true ⟨b, rfl⟩ rfl

theorem denotes_marker_iff (h : bytesMarker v = some b64) :
    Denotes codec (.ofMarker codec b64) v ↔ v = marker b64 ∧ (codec.decode b64).isSome := by
  constructor
  · intro hdenotes
    unfold Param.ofMarker at hdenotes
    cases hdecode : codec.decode b64 with
    | none =>
      rw [hdecode] at hdenotes
      cases hdenotes
      cases h
    | some b =>
      rw [hdecode] at hdenotes
      cases hdenotes with
      | bytes other _ hother =>
        rw [bytesMarker_marker] at h
        cases h
        exact ⟨rfl, rfl⟩
  · intro ⟨he, hvalid⟩
    obtain ⟨b, hb⟩ := Option.isSome_iff_exists.mp hvalid
    rw [Param.ofMarker, hb, he]
    exact .bytes b64 b hb

theorem denotes_int_iff :
    Denotes codec (.ofNumber codec (.int i)) (.number (.int i)) ↔ -2 ^ 63 ≤ i ∧ i < 2 ^ 63 := by
  constructor
  · intro hdenotes
    by_contra hrange
    rw [Param.ofNumber, asI64, if_neg hrange] at hdenotes
    cases hdenotes
  · intro hrange
    have hint := Int64.toInt_ofInt_of_le hrange.1 hrange.2
    have hdenotes : Denotes codec (.int (.ofInt i)) _ := .int (.ofInt i)
    rw [hint] at hdenotes
    rw [Param.ofNumber, asI64_int hrange]
    exact hdenotes

theorem denotes_plain_iff (h : bytesMarker v = none) :
    Denotes codec (.ofPlain codec v) v ↔ FitsI64 v := by
  cases v with
  | null => exact iff_of_true .null fun i he => Value.noConfusion he
  | bool b => exact iff_of_true (.bool b) fun i he => Value.noConfusion he
  | string s => exact iff_of_true (.text s) fun i he => Value.noConfusion he
  | array items => exact iff_of_true (.json _) fun i he => Value.noConfusion he
  | object fields => exact iff_of_true (.json _) fun i he => Value.noConfusion he
  | number n =>
    cases n with
    | float bits => exact iff_of_true (.float bits) fun i he => by cases he
    | int i =>
      refine denotes_int_iff.trans ⟨fun hrange j he => ?_, fun hfits => hfits i rfl⟩
      cases he
      exact hrange

/-- **Lossless parameters.** A parameter denotes the value it was built from, and is bytes
for a marker of base64, exactly when the value, if an integer, fits in an `i64`, and a
string under `$bytes` is base64 and the only field. -/
theorem from_denotes_iff (codec : Codec) (v : Value) :
    (Denotes codec (Param.from codec v) v ∧
      ∀ b64, v = marker b64 →
        ((∃ b, Param.from codec v = .bytes b) ↔ (codec.decode b64).isSome)) ↔
      FitsI64 v ∧ CleanMarker codec v := by
  have hbytes : ∀ b64, v = marker b64 →
      ((∃ b, Param.from codec v = .bytes b) ↔ (codec.decode b64).isSome) := by
    intro b64 he
    rw [he, from_marker (bytesMarker_marker b64)]
    exact ofMarker_bytes_iff
  rw [and_iff_left hbytes]
  cases hmarker : bytesMarker v with
  | none =>
    have hclean : CleanMarker codec v := fun b64 h => by
      rw [hmarker] at h
      cases h
    rw [from_plain hmarker, denotes_plain_iff hmarker, and_iff_left hclean]
  | some b64 =>
    have hfits : FitsI64 v := fun i he => by
      rw [he] at hmarker
      cases hmarker
    have hclean : CleanMarker codec v ↔ v = marker b64 ∧ (codec.decode b64).isSome := by
      refine ⟨fun h => h b64 hmarker, fun h other hother => ?_⟩
      rw [hmarker] at hother
      cases hother
      exact h
    rw [from_marker hmarker, denotes_marker_iff hmarker, and_iff_right hfits, hclean]

/-- What the decoder does with texts that are not base64. -/
def notBase64 : Codec := ⟨fun _ => none, fun _ => ""⟩

/-- The largest `u64` is bound as `2^64`, and a mistyped payload as text. -/
theorem large_and_mistyped :
    (Param.from notBase64 (.number (.int 18446744073709551615)) = .float 0x43F0000000000000 ∧
      ¬ Denotes notBase64 (.float 0x43F0000000000000) (.number (.int 18446744073709551615))) ∧
    (Param.from notBase64 (marker "not base64!") = .text "not base64!" ∧
      ¬ Denotes notBase64 (.text "not base64!") (marker "not base64!")) := by
  refine ⟨⟨rfl, fun h => ?_⟩, ⟨rfl, fun h => ?_⟩⟩
  · cases h
  · cases h

end JustApi.Core.Params
