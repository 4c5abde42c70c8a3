import JustApi.Core.QueryString

/-! # Reading UTF-8 back

A text that was turned into bytes is what lenient decoding makes of them. -/
namespace JustApi.Core.QueryString
open JustApi.Core.Http

/-! ## Pieces -/

section Pieces

variable {α : Type} (first : UInt8 → Bytes → α × Nat)

theorem pieces_skip (skip : Nat) (bytes : Bytes) :
    pieces first skip bytes = pieces first 0 (bytes.drop skip) := by
  induction bytes generalizing skip with
  | nil => cases skip <;> rfl
  | cons b rest ih =>
    cases skip with
    | zero => rfl
    | succ skip => exact ih skip

theorem pieces_cons (b : UInt8) (rest : Bytes) :
    pieces first 0 (b :: rest) =
      (first b rest).1 :: pieces first 0 (rest.drop (first b rest).2) := by
  rw [pieces, pieces_skip]

end Pieces

/-! ## The bytes of a character -/

theorem toNat_ofNat_of_lt {n : Nat} (h : n < 256) : (UInt8.ofNat n).toNat = n :=
  UInt8.toNat_ofNat_of_lt' h

theorem byte_lt_iff (b k : UInt8) : b < k ↔ b.toNat < k.toNat := UInt8.lt_iff_toNat_lt

theorem byte_le_iff (b k : UInt8) : b ≤ k ↔ b.toNat ≤ k.toNat := UInt8.le_iff_toNat_le

theorem isContinuation_iff (b : UInt8) :
    isContinuation b = true ↔ 128 ≤ b.toNat ∧ b.toNat ≤ 191 := by
  simp [isContinuation, byte_le_iff]

theorem isSecondOf3_iff (b c : UInt8) : isSecondOf3 b c = true ↔
    b.toNat = 224 ∧ 160 ≤ c.toNat ∧ c.toNat ≤ 191 ∨
    (225 ≤ b.toNat ∧ b.toNat ≤ 236) ∧ 128 ≤ c.toNat ∧ c.toNat ≤ 191 ∨
    b.toNat = 237 ∧ 128 ≤ c.toNat ∧ c.toNat ≤ 159 ∨
    (238 ≤ b.toNat ∧ b.toNat ≤ 239) ∧ 128 ≤ c.toNat ∧ c.toNat ≤ 191 := by
  simp [isSecondOf3, isContinuation_iff, byte_le_iff, ← UInt8.toNat_inj, and_assoc, or_assoc]

theorem isSecondOf4_iff (b c : UInt8) : isSecondOf4 b c = true ↔
    b.toNat = 240 ∧ 144 ≤ c.toNat ∧ c.toNat ≤ 191 ∨
    (241 ≤ b.toNat ∧ b.toNat ≤ 243) ∧ 128 ≤ c.toNat ∧ c.toNat ≤ 191 ∨
    b.toNat = 244 ∧ 128 ≤ c.toNat ∧ c.toNat ≤ 143 := by
  simp [isSecondOf4, isContinuation_iff, byte_le_iff, ← UInt8.toNat_inj, and_assoc, or_assoc]

theorem firstChar_one {v : Nat} (h : v ≤ 127) (rest : Bytes) :
    firstChar (UInt8.ofNat v) rest = (Char.ofNat v, 0) := by
  have hb : (UInt8.ofNat v).toNat = v := toNat_ofNat_of_lt (by omega)
  simp only [firstChar, byte_lt_iff, hb, UInt8.reduceToNat]
  rw [if_pos (by omega)]

theorem firstChar_two {v : Nat} (h : 127 < v) (h' : v ≤ 2047) (rest : Bytes) :
    firstChar (UInt8.ofNat (v / 64 % 32 + 192)) (UInt8.ofNat (v % 64 + 128) :: rest) =
      (Char.ofNat v, 1) := by
  have hb : (UInt8.ofNat (v / 64 % 32 + 192)).toNat = v / 64 % 32 + 192 :=
    toNat_ofNat_of_lt (by omega)
  have hc : (UInt8.ofNat (v % 64 + 128)).toNat = v % 64 + 128 := toNat_ofNat_of_lt (by omega)
  have hv : (v / 64 % 32 + 192) % 32 * 64 + (v % 64 + 128) % 64 = v := by omega
  simp only [firstChar, List.getD_cons_zero, byte_lt_iff, byte_le_iff, hb, low6, hc,
    isContinuation_iff, UInt8.reduceToNat]
  rw [if_neg (by omega), if_pos (by omega), if_pos (by omega), hv]

theorem firstChar_three {v : Nat} (h : 2047 < v) (h' : v ≤ 65535)
    (hsurrogate : v < 0xD800 ∨ 0xDFFF < v) (rest : Bytes) :
    firstChar (UInt8.ofNat (v / 4096 % 16 + 224))
        (UInt8.ofNat (v / 64 % 64 + 128) :: UInt8.ofNat (v % 64 + 128) :: rest) =
      (Char.ofNat v, 2) := by
  have hb : (UInt8.ofNat (v / 4096 % 16 + 224)).toNat = v / 4096 % 16 + 224 :=
    toNat_ofNat_of_lt (by omega)
  have hc : (UInt8.ofNat (v / 64 % 64 + 128)).toNat = v / 64 % 64 + 128 :=
    toNat_ofNat_of_lt (by omega)
  have hd : (UInt8.ofNat (v % 64 + 128)).toNat = v % 64 + 128 := toNat_ofNat_of_lt (by omega)
  have hv : (v / 4096 % 16 + 224) % 16 * 4096 + (v / 64 % 64 + 128) % 64 * 64 +
      (v % 64 + 128) % 64 = v := by omega
  simp only [firstChar, List.getD_cons_zero, List.getD_cons_succ, byte_lt_iff, byte_le_iff, hb,
    low6, hc, hd, isSecondOf3_iff, isContinuation_iff, UInt8.reduceToNat]
  rw [if_neg (by omega), if_neg (by omega), if_pos (by omega), if_pos (by omega),
    if_pos (by omega), hv]

theorem firstChar_four {v : Nat} (h : 65535 < v) (h' : v < 0x110000) (rest : Bytes) :
    firstChar (UInt8.ofNat (v / 262144 % 8 + 240))
        (UInt8.ofNat (v / 4096 % 64 + 128) :: UInt8.ofNat (v / 64 % 64 + 128) ::
          UInt8.ofNat (v % 64 + 128) :: rest) =
      (Char.ofNat v, 3) := by
  have hb : (UInt8.ofNat (v / 262144 % 8 + 240)).toNat = v / 262144 % 8 + 240 :=
    toNat_ofNat_of_lt (by omega)
  have hc : (UInt8.ofNat (v / 4096 % 64 + 128)).toNat = v / 4096 % 64 + 128 :=
    toNat_ofNat_of_lt (by omega)
  have hd : (UInt8.ofNat (v / 64 % 64 + 128)).toNat = v / 64 % 64 + 128 :=
    toNat_ofNat_of_lt (by omega)
  have he : (UInt8.ofNat (v % 64 + 128)).toNat = v % 64 + 128 := toNat_ofNat_of_lt (by omega)
  have hv : (v / 262144 % 8 + 240) % 8 * 262144 + (v / 4096 % 64 + 128) % 64 * 4096 +
      (v / 64 % 64 + 128) % 64 * 64 + (v % 64 + 128) % 64 = v := by omega
  simp only [firstChar, List.getD_cons_zero, List.getD_cons_succ, byte_lt_iff, byte_le_iff, hb,
    low6, hc, hd, he, isSecondOf4_iff, isContinuation_iff, UInt8.reduceToNat]
  rw [if_neg (by omega), if_neg (by omega), if_neg (by omega), if_pos (by omega),
    if_pos (by omega), if_pos (by omega), if_pos (by omega), hv]

/-- A character is read back, with all its bytes. -/
theorem firstChar_utf8EncodeChar (c : Char) (rest : Bytes) :
    ∃ b tail, String.utf8EncodeChar c = b :: tail ∧
      firstChar b (tail ++ rest) = (c, tail.length) := by
  have hvalid : c.toNat < 0xD800 ∨ 0xDFFF < c.toNat ∧ c.toNat < 0x110000 := c.valid
  have hv : c.val.toNat = c.toNat := rfl
  have hc : Char.ofNat c.toNat = c := Char.ofNat_toNat c
  simp only [String.utf8EncodeChar, hv]
  split
  · refine ⟨_, _, rfl, ?_⟩
    rw [firstChar_one (by omega), hc]
    rfl
  split
  · exact ⟨_, _, rfl, (firstChar_two (by omega) (by omega) rest).trans (by rw [hc]; rfl)⟩
  split
  · exact ⟨_, _, rfl, (firstChar_three (by omega) (by omega) (by omega) rest).trans (by rw [hc]; rfl)⟩
  · exact ⟨_, _, rfl, (firstChar_four (by omega) (by omega) rest).trans (by rw [hc]; rfl)⟩

/-! ## Texts -/

theorem decodeLossy_utf8EncodeChar (c : Char) (rest : Bytes) :
    decodeLossy (String.utf8EncodeChar c ++ rest) = c :: decodeLossy rest := by
  obtain ⟨b, tail, hbytes, hfirst⟩ := firstChar_utf8EncodeChar c rest
  rw [decodeLossy, hbytes, List.cons_append, pieces_cons, hfirst, List.drop_left]
  rfl

theorem decodeLossy_flatMap (cs : List Char) : decodeLossy (cs.flatMap String.utf8EncodeChar) = cs := by
  induction cs with
  | nil => rfl
  | cons c cs ih => rw [List.flatMap_cons, decodeLossy_utf8EncodeChar, ih]

theorem fromUtf8Lossy_asBytes (s : String) : fromUtf8Lossy (asBytes s) = s := by
  rw [fromUtf8Lossy, asBytes, decodeLossy_flatMap, String.ofList_toList]

/-- A character that is not ASCII has no byte that is. -/
theorem utf8EncodeChar_cases (c : Char) :
    c.toNat < 128 ∧ String.utf8EncodeChar c = [UInt8.ofNat c.toNat] ∨
      128 ≤ c.toNat ∧ ∀ b ∈ String.utf8EncodeChar c, 128 ≤ b.toNat := by
  have hv : c.val.toNat = c.toNat := rfl
  rcases Nat.lt_or_ge c.toNat 128 with h | h
  · refine .inl ⟨h, ?_⟩
    simp only [String.utf8EncodeChar, hv]
    rw [if_pos (by omega)]
  · refine .inr ⟨h, fun b hb => ?_⟩
    simp only [String.utf8EncodeChar, hv] at hb
    rw [if_neg (by omega)] at hb
    split at hb <;> [skip; split at hb] <;> simp only [List.mem_cons, List.not_mem_nil, or_false] at hb
    · rcases hb with rfl | rfl <;> rw [toNat_ofNat_of_lt (by omega)] <;> omega
    · rcases hb with rfl | rfl | rfl <;> rw [toNat_ofNat_of_lt (by omega)] <;> omega
    · rcases hb with rfl | rfl | rfl | rfl <;> rw [toNat_ofNat_of_lt (by omega)] <;> omega

theorem asBytes_ascii {cs : List Char} (h : ∀ c ∈ cs, c.toNat < 128) :
    asBytes (String.ofList cs) = cs.map fun c => UInt8.ofNat c.toNat := by
  rw [asBytes, String.toList_ofList]
  induction cs with
  | nil => rfl
  | cons c cs ih =>
    have hc : c.toNat < 128 := h c List.mem_cons_self
    rw [List.flatMap_cons, List.map_cons, ih fun d hd => h d (List.mem_cons_of_mem _ hd)]
    rcases utf8EncodeChar_cases c with ⟨-, hbytes⟩ | ⟨hge, -⟩
    · rw [hbytes]
      rfl
    · omega

end JustApi.Core.QueryString
