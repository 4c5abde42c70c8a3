import Mathlib.Data.List.Forall2
import JustApi.Core.Params

/-! # Claims of a token

The claims that `JwtAuth` leaves in the request go through JSON text to `request.auth`. There
are two converters of JSON values: one for the claims, one for everything else. -/
namespace JustApi.Py.AuthClaims
open JustApi.Core.QueryString (asBytes)
open JustApi.Core.Crud (Value Number Serde)
open JustApi.Core.Params (asI64 asF64)
open JustApi.Lib.Float64

/-- What the converters build. A float is its bits. -/
inductive PyValue where
  | none
  | bool (value : Bool)
  | int (value : Int)
  | float (bits : UInt64)
  | str (value : String)
  | list (items : List PyValue)
  | dict (entries : List (String × PyValue))
  deriving Repr

def asU64 : Number → Option UInt64
  | .int i => if 0 ≤ i ∧ i < 2 ^ 64 then some (.ofNat i.toNat) else none
  | .float _ => none

/-! ## The converters -/

def numberToRequest (n : Number) : PyValue :=
  match asI64 n with
  | some i => .int i.toInt
  | none =>
    match asF64 n with
    | some f => .float f
    | none => .none

mutual
def jsonValueToRequest : Value → PyValue
  | .null => .none
  | .bool b => .bool b
  | .number n => numberToRequest n
  | .string s => .str s
  | .array arr => .list (itemsToRequest arr)
  | .object _ => .none
def itemsToRequest : List Value → List PyValue
  | [] => []
  | item :: rest => jsonValueToRequest item :: itemsToRequest rest
end

def numberToPy (n : Number) : PyValue :=
  match asI64 n with
  | some i => .int i.toInt
  | none =>
    match asU64 n with
    | some u => .int u.toNat
    | none => .float ((asF64 n).getD 0)

mutual
/-- A JSON value, with what a number becomes. The keys of an object are distinct. -/
def toPyWith (number : Number → PyValue) : Value → PyValue
  | .null => .none
  | .bool b => .bool b
  | .number n => number n
  | .string s => .str s
  | .array a => .list (itemsToPyWith number a)
  | .object o => .dict (fieldsToPyWith number o)
def itemsToPyWith (number : Number → PyValue) : List Value → List PyValue
  | [] => []
  | item :: rest => toPyWith number item :: itemsToPyWith number rest
def fieldsToPyWith (number : Number → PyValue) :
    List (String × Value) → List (String × PyValue)
  | [] => []
  | (k, val) :: rest => (k, toPyWith number val) :: fieldsToPyWith number rest
end

def jsonValueToPy : Value → PyValue := toPyWith numberToPy

/-! ## The request -/

/-- `request.auth` of a request built with these claims. -/
def authOf (serde : Serde) (authClaims : Option String) : Option PyValue :=
  match authClaims.bind fun claimsJson => serde.fromSlice (asBytes claimsJson) with
  | some (.object map) => some (.dict (map.map fun e => (e.1, jsonValueToRequest e.2)))
  | _ => none

/-- `request.auth` in a handler. A batched request is built without claims. -/
def auth (serde : Serde) (batched : Bool) (claims : Option Value) : Option PyValue :=
  authOf serde (if batched then none else claims.map serde.text)

/-! ## What they should be -/

def denotedNumber : Number → PyValue
  | .int i => .int i
  | .float bits => .float bits

/-- The Python value that a JSON value denotes. -/
def denoted : Value → PyValue := toPyWith denotedNumber

/-- The value of a number, in the units of an `f64`. JSON has no NaN and no infinity. -/
def PyValue.number : PyValue → Option Int
  | .bool b => some (b.toInt * F64.one.value)
  | .int i => some (i * F64.one.value)
  | .float bits => some (F64.unitsOfBits bits)
  | _ => Option.none

mutual
/-- `==` -/
def pyEq : PyValue → PyValue → Bool
  | .none, .none => true
  | .str s, .str t => s == t
  | .list xs, .list ys => itemsEq xs ys
  | .dict xs, .dict ys => xs.length == ys.length && entriesEq xs ys
  | x, y => x.number.isSome && x.number == y.number
def itemsEq : List PyValue → List PyValue → Bool
  | [], [] => true
  | x :: xs, y :: ys => pyEq x y && itemsEq xs ys
  | _, _ => false
def entriesEq : List (String × PyValue) → List (String × PyValue) → Bool
  | [], _ => true
  | (k, x) :: xs, ys => (match ys.lookup k with
    | some y => pyEq x y
    | none => false) && entriesEq xs ys
end

mutual
/-- No object, and only numbers that meet `p`. -/
def Flat (p : Number → Prop) : Value → Prop
  | .null => True
  | .bool _ => True
  | .number n => p n
  | .string _ => True
  | .array items => FlatItems p items
  | .object _ => False
def FlatItems (p : Number → Prop) : List Value → Prop
  | [] => True
  | item :: rest => Flat p item ∧ FlatItems p rest
end

def numberWithFloat (reread : UInt64 → UInt64) : Number → Number
  | .int i => .int i
  | .float bits => .float (reread bits)

mutual
/-- The value with other floats. -/
def withFloats (reread : UInt64 → UInt64) : Value → Value
  | .null => .null
  | .bool b => .bool b
  | .number n => .number (numberWithFloat reread n)
  | .string s => .string s
  | .array items => .array (itemsWithFloats reread items)
  | .object fields => .object (fieldsWithFloats reread fields)
def itemsWithFloats (reread : UInt64 → UInt64) : List Value → List Value
  | [] => []
  | item :: rest => withFloats reread item :: itemsWithFloats reread rest
def fieldsWithFloats (reread : UInt64 → UInt64) : List (String × Value) → List (String × Value)
  | [] => []
  | (k, val) :: rest => (k, withFloats reread val) :: fieldsWithFloats reread rest
end

/-- An `i64`, or a float that is read back as it was. -/
def Kept (reread : UInt64 → UInt64) : Number → Prop
  | .int i => -2 ^ 63 ≤ i ∧ i < 2 ^ 63
  | .float bits => reread bits = bits

/-- No integer that is a `u64` and no `i64`. -/
def NoLarge : Number → Prop
  | .int i => i < 2 ^ 63 ∨ 2 ^ 64 ≤ i
  | .float _ => True

/-- The same, but for integers that have a float. -/
def LargeHasFloat : Number → Prop
  | .int i => i < 2 ^ 63 ∨ 2 ^ 64 ≤ i ∨ 2 ^ 11 ∣ i
  | .float _ => True

/-! ## Numbers -/

section Numbers

variable {i : Int} {reread : UInt64 → UInt64}

theorem numberToRequest_int (h : -2 ^ 63 ≤ i ∧ i < 2 ^ 63) :
    numberToRequest (.int i) = .int i := by
  rw [numberToRequest, asI64, if_pos h]
  exact congrArg PyValue.int (Int64.toInt_ofInt_of_le h.1 h.2)

theorem numberToRequest_outside (h : ¬ (-2 ^ 63 ≤ i ∧ i < 2 ^ 63)) :
    numberToRequest (.int i) = .float (F64.bitsOfInt i) := by
  rw [numberToRequest, asI64, if_neg h, asF64]

theorem numberToRequest_kept_iff (n : Number) :
    numberToRequest (numberWithFloat reread n) = denotedNumber n ↔ Kept reread n := by
  cases n with
  | float bits => exact PyValue.float.injEq .. ▸ Iff.rfl
  | int i =>
    by_cases h : -2 ^ 63 ≤ i ∧ i < 2 ^ 63
    · exact iff_of_true (numberToRequest_int h) h
    · refine iff_of_false (fun he => ?_) h
      rw [numberWithFloat, numberToRequest_outside h] at he
      cases he

theorem numberToPy_large (hlow : 2 ^ 63 ≤ i) (hhigh : i < 2 ^ 64) :
    numberToPy (.int i) = .int i := by
  have hnat : (i.toNat : Int) = i := Int.toNat_of_nonneg (by omega)
  have hround : (UInt64.ofNat i.toNat).toNat = i.toNat :=
    UInt64.toNat_ofNat_of_lt' (by rw [UInt64.size]; omega)
  rw [numberToPy, asI64, if_neg (by omega), asU64, if_pos (by omega)]
  dsimp only
  rw [hround, hnat]

theorem numberToRequest_eq_numberToPy (n : Number) (h : NoLarge n) :
    numberToRequest n = numberToPy n := by
  cases n with
  | float bits => rfl
  | int i =>
    unfold numberToRequest numberToPy
    by_cases hi64 : -2 ^ 63 ≤ i ∧ i < 2 ^ 63
    · rw [asI64, if_pos hi64]
    · have hu64 : ¬ (0 ≤ i ∧ i < 2 ^ 64) := by
        rcases h with h | h <;> omega
      rw [asI64, if_neg hi64, asU64, if_neg hu64]
      rfl

theorem numberToRequest_same_iff (n : Number) : numberToRequest n = numberToPy n ↔ NoLarge n := by
  refine ⟨fun he => ?_, numberToRequest_eq_numberToPy n⟩
  cases n with
  | float bits => trivial
  | int i =>
    by_contra hlarge
    rw [NoLarge, not_or, Int.not_lt, Int.not_le] at hlarge
    rw [numberToRequest_outside (by omega), numberToPy_large (by omega) (by omega)] at he
    cases he

theorem pyEq_self_number (n : Number) : pyEq (numberToPy n) (numberToPy n) = true := by
  unfold numberToPy
  split
  · simp [pyEq, PyValue.number]
  · split <;> simp [pyEq, PyValue.number]

theorem numberToRequest_pyEq_iff (n : Number) :
    pyEq (numberToRequest n) (numberToPy n) = true ↔ LargeHasFloat n := by
  by_cases h : NoLarge n
  · rw [numberToRequest_eq_numberToPy n h]
    refine iff_of_true (pyEq_self_number n) ?_
    cases n with
    | float bits => trivial
    | int i => exact h.imp_right .inl
  · cases n with
    | float bits => exact absurd trivial h
    | int i =>
      rw [NoLarge, not_or, Int.not_lt, Int.not_le] at h
      obtain ⟨k, rfl⟩ := Int.eq_ofNat_of_zero_le (show 0 ≤ i by omega)
      have hfloat : F64.bitsOfInt (k : Int) = F64.bitsOfNat k := if_neg (by omega)
      have hlarge : LargeHasFloat (.int (k : Int)) ↔ 2 ^ 11 ∣ k := by
        rw [LargeHasFloat]
        omega
      have hunits := F64.unitsOfBits_bitsOfNat_iff (n := k) (by omega) (by omega)
      rw [numberToRequest_outside (by omega), numberToPy_large h.1 h.2, hfloat, hlarge]
      simp [pyEq, PyValue.number, hunits]

end Numbers

/-! ## Trees -/

/-- What there is to an equality of Python values that are built from JSON. -/
structure TreeEq (R : PyValue → PyValue → Prop) : Prop where
  none : R .none .none
  bool : ∀ b, R (.bool b) (.bool b)
  str : ∀ s, R (.str s) (.str s)
  list_iff : ∀ xs ys, R (.list xs) (.list ys) ↔ List.Forall₂ R xs ys
  not_dict : ∀ entries, ¬ R .none (.dict entries)

section Trees

variable {R : PyValue → PyValue → Prop} {number : Number → PyValue} {reread : UInt64 → UInt64}
  {p : Number → Prop}

mutual
/-- An object becomes `None`; what has none is converted as its numbers are. -/
theorem TreeEq.flat_iff (hR : TreeEq R)
    (hnumber : ∀ n, R (numberToRequest (numberWithFloat reread n)) (number n) ↔ p n) :
    ∀ v, R (jsonValueToRequest (withFloats reread v)) (toPyWith number v) ↔ Flat p v
  | .null => iff_of_true hR.none trivial
  | .bool b => iff_of_true (hR.bool b) trivial
  | .number n => hnumber n
  | .string s => iff_of_true (hR.str s) trivial
  | .array items => (hR.list_iff _ _).trans (hR.flatItems_iff hnumber items)
  | .object _ => iff_of_false (hR.not_dict _) id
theorem TreeEq.flatItems_iff (hR : TreeEq R)
    (hnumber : ∀ n, R (numberToRequest (numberWithFloat reread n)) (number n) ↔ p n) :
    ∀ items, List.Forall₂ R (itemsToRequest (itemsWithFloats reread items))
      (itemsToPyWith number items) ↔ FlatItems p items
  | [] => iff_of_true .nil trivial
  | item :: rest => List.forall₂_cons.trans
      (and_congr (hR.flat_iff hnumber item) (hR.flatItems_iff hnumber rest))
end

theorem treeEq_eq : TreeEq Eq where
  none := rfl
  bool _ := rfl
  str _ := rfl
  list_iff xs ys := by rw [PyValue.list.injEq, List.forall₂_eq_eq_eq]
  not_dict _ he := PyValue.noConfusion he

theorem itemsEq_iff : ∀ xs ys,
    itemsEq xs ys = true ↔ List.Forall₂ (fun x y => pyEq x y = true) xs ys
  | [], [] => by simp [itemsEq]
  | [], _ :: _ => by simp [itemsEq]
  | _ :: _, [] => by simp [itemsEq]
  | x :: xs, y :: ys => by simp [itemsEq, itemsEq_iff xs ys]

theorem treeEq_pyEq : TreeEq fun x y => pyEq x y = true where
  none := by simp [pyEq]
  bool b := by simp [pyEq, PyValue.number]
  str s := by simp [pyEq]
  list_iff xs ys := by rw [pyEq, itemsEq_iff]
  not_dict _ := by simp [pyEq, PyValue.number]

mutual
theorem withFloats_id : ∀ v, withFloats id v = v
  | .null => rfl
  | .bool _ => rfl
  | .number (.int _) => rfl
  | .number (.float _) => rfl
  | .string _ => rfl
  | .array items => congrArg Value.array (itemsWithFloats_id items)
  | .object fields => congrArg Value.object (fieldsWithFloats_id fields)
theorem itemsWithFloats_id : ∀ items, itemsWithFloats id items = items
  | [] => rfl
  | item :: rest => congrArg₂ List.cons (withFloats_id item) (itemsWithFloats_id rest)
theorem fieldsWithFloats_id : ∀ fields, fieldsWithFloats id fields = fields
  | [] => rfl
  | (k, val) :: rest =>
    congrArg₂ List.cons (congrArg (k, ·) (withFloats_id val)) (fieldsWithFloats_id rest)
end

/-- Field by field. -/
theorem entries_kept_iff (reread : UInt64 → UInt64) : ∀ fields,
    (fieldsWithFloats reread fields).map (fun e => (e.1, jsonValueToRequest e.2)) =
      fieldsToPyWith denotedNumber fields ↔ ∀ e ∈ fields, Flat (Kept reread) e.2
  | [] => by simp [fieldsWithFloats, fieldsToPyWith]
  | (k, val) :: rest => by
    have hval : jsonValueToRequest (withFloats reread val) = toPyWith denotedNumber val ↔
        Flat (Kept reread) val := treeEq_eq.flat_iff numberToRequest_kept_iff val
    simp [fieldsWithFloats, fieldsToPyWith, hval, entries_kept_iff reread rest]

end Trees

/-- **Claims.** They reach a handler as they are exactly if its requests are not batched, no
field of theirs holds an object, every integer is an `i64` and every float is read back as it
was. The two converters agree exactly on what has no object and no large integer; under `==`
the float of a large integer will do, if it has one. -/
theorem claims_kept_iff (serde : Serde) (reread : UInt64 → UInt64) :
    (∀ (batched : Bool) (fields : List (String × Value)),
      serde.fromSlice (asBytes (serde.text (.object fields))) =
        some (withFloats reread (.object fields)) →
      (auth serde batched (some (.object fields)) = some (denoted (.object fields)) ↔
        batched = false ∧ ∀ e ∈ fields, Flat (Kept reread) e.2)) ∧
    ∀ v, (pyEq (jsonValueToRequest v) (jsonValueToPy v) = true ↔ Flat LargeHasFloat v) ∧
      (jsonValueToRequest v = jsonValueToPy v ↔ Flat NoLarge v) := by
  have hid (n : Number) : numberWithFloat id n = n := by cases n <;> rfl
  have hpyEq (n : Number) : pyEq (numberToRequest (numberWithFloat id n)) (numberToPy n) = true ↔
      LargeHasFloat n := by
    rw [hid, numberToRequest_pyEq_iff]
  have hsame (n : Number) : numberToRequest (numberWithFloat id n) = numberToPy n ↔ NoLarge n := by
    rw [hid, numberToRequest_same_iff]
  refine ⟨fun batched fields hparse => ?_, fun v => ⟨?_, ?_⟩⟩
  · cases batched with
    | true => simp [auth, authOf]
    | false =>
      have hauth : auth serde false (some (.object fields)) = some (.dict
          ((fieldsWithFloats reread fields).map fun e => (e.1, jsonValueToRequest e.2))) := by
        simp [auth, authOf, hparse, withFloats]
      rw [hauth, denoted, toPyWith, Option.some_inj, PyValue.dict.injEq, entries_kept_iff]
      simp
  · have := treeEq_pyEq.flat_iff hpyEq v
    rwa [withFloats_id] at this
  · have := treeEq_eq.flat_iff hsame v
    rwa [withFloats_id] at this

/-! ## Some claims -/

/-- The printer and the parser, on one value. -/
def oneText (v : Value) (json : String) : Serde where
  fromSlice bytes := if bytes = asBytes json then some v else none
  text _ := json

theorem oneText_parse (v : Value) (json : String) :
    (oneText v json).fromSlice (asBytes ((oneText v json).text v)) = some v := if_pos rfl

/-- `{"sub": "alice", "exp": 1700000000, "scopes": ["read"]}` -/
def aliceClaims : List (String × Value) :=
  [("sub", .string "alice"), ("exp", .number (.int 1700000000)),
    ("scopes", .array [.string "read"])]

theorem claims_kept_iff_alice :
    auth (oneText (.object aliceClaims)
        "\x7b\"sub\":\"alice\",\"exp\":1700000000,\"scopes\":[\"read\"]\x7d")
      false (some (.object aliceClaims)) = some (denoted (.object aliceClaims)) := by
  refine ((claims_kept_iff _ id).1 false aliceClaims ?_).mpr ⟨rfl, ?_⟩
  · rw [withFloats_id, oneText_parse]
  · simp [aliceClaims, Flat, FlatItems, Kept]

/-- `{"realm_access": {"roles": ["admin"]}}` -/
def rolesClaims : List (String × Value) :=
  [("realm_access", .object [("roles", .array [.string "admin"])])]

/-- `{"id": 18446744073709551615}` -/
def idClaims : List (String × Value) := [("id", .number (.int 18446744073709551615))]

/-- The object becomes `None` and the largest `u64` the float `2^64`; the other converter keeps
both. A batched route has no claims at all. -/
theorem claims_lost :
    auth (oneText (.object rolesClaims) "\x7b\"realm_access\":\x7b\"roles\":[\"admin\"]\x7d\x7d")
      false (some (.object rolesClaims)) = some (.dict [("realm_access", .none)]) ∧
    denoted (.object rolesClaims) =
      .dict [("realm_access", .dict [("roles", .list [.str "admin"])])] ∧
    auth (oneText (.object idClaims) "\x7b\"id\":18446744073709551615\x7d")
      false (some (.object idClaims)) = some (.dict [("id", .float 0x43F0000000000000)]) ∧
    denoted (.object idClaims) = .dict [("id", .int 18446744073709551615)] ∧
    auth (oneText (.object aliceClaims)
        "\x7b\"sub\":\"alice\",\"exp\":1700000000,\"scopes\":[\"read\"]\x7d")
      true (some (.object aliceClaims)) = none ∧
    ∀ e ∈ rolesClaims ++ idClaims,
      pyEq (jsonValueToRequest e.2) (jsonValueToPy e.2) = false := by
  refine ⟨rfl, rfl, rfl, rfl, rfl, ?_⟩
  decide +kernel

end JustApi.Py.AuthClaims
