import JustApi.Core.Verification

/-! # What a verification means

The entry of a token is that of the last create which returned it, and it is unused as
long as no verification since then has succeeded. -/
namespace JustApi.Core.Verification

open Lib.Run

variable {token email purpose : String} {maxAgeSecs now : UInt64} {s t : State}

namespace VerificationStore

variable {store : VerificationStore}

theorem verify_cases (token purpose : String) (maxAgeSecs now : UInt64)
    (store : VerificationStore) :
    (store.verify token purpose maxAgeSecs now = (none, store) ∧
      ∀ entry, store.lookup token = some entry → entry.used = true ∨ entry.purpose ≠ purpose) ∨
    ∃ entry, store.lookup token = some entry ∧ entry.used = false ∧ entry.purpose = purpose ∧
      (maxAgeSecs < now - entry.createdAt ∧
          store.verify token purpose maxAgeSecs now = (none, store.erase token) ∨
        now - entry.createdAt ≤ maxAgeSecs ∧
          store.verify token purpose maxAgeSecs now =
            (some entry.email, store.insert token { entry with used := true })) := by
  unfold verify
  split
  · refine .inl ⟨rfl, fun entry hentry => ?_⟩
    cases hentry.symm.trans ‹store.lookup token = none›
  · rename_i entry hentry
    split
    · refine .inl ⟨rfl, fun other hother => .inl ?_⟩
      cases hother.symm.trans hentry
      assumption
    · rename_i hused
      split
      · refine .inl ⟨rfl, fun other hother => .inr ?_⟩
        cases hother.symm.trans hentry
        assumption
      · rename_i hpurpose
        refine .inr ⟨entry, hentry, Bool.not_eq_true _ ▸ hused, not_not.mp hpurpose, ?_⟩
        split
        · exact .inl ⟨‹_›, rfl⟩
        · exact .inr ⟨UInt64.not_lt.mp ‹_›, rfl⟩

theorem verify_eq_some (h : (store.verify token purpose maxAgeSecs now).1 = some email) :
    ∃ entry, store.lookup token = some entry ∧ entry.used = false ∧ entry.purpose = purpose ∧
      entry.email = email ∧ now - entry.createdAt ≤ maxAgeSecs := by
  rcases store.verify_cases token purpose maxAgeSecs now with
    ⟨hverify, -⟩ | ⟨entry, hentry, hused, hpurpose, ⟨-, hverify⟩ | ⟨hage, hverify⟩⟩
  · rw [hverify] at h
    cases h
  · rw [hverify] at h
    cases h
  · rw [hverify] at h
    exact ⟨entry, hentry, hused, hpurpose, Option.some.inj h, hage⟩

theorem lookup_verify_of_ne {other : String} (hother : other ≠ token) :
    (store.verify token purpose maxAgeSecs now).2.lookup other = store.lookup other := by
  rcases store.verify_cases token purpose maxAgeSecs now with
    ⟨hverify, -⟩ | ⟨entry, -, -, -, ⟨-, hverify⟩ | ⟨-, hverify⟩⟩
  · rw [hverify]
  · rw [hverify]
    exact AList.lookup_erase_ne hother
  · rw [hverify]
    exact AList.lookup_insert_ne hother

/-- What a verification leaves was there before, and what it leaves unused was so and is not
what it has returned. -/
theorem of_lookup_verify {other : String} {entry : VerificationEntry}
    (h : (store.verify token purpose maxAgeSecs now).2.lookup other = some entry) :
    ∃ old, store.lookup other = some old ∧ entry = { old with used := entry.used } ∧
      (entry.used = false → old.used = false ∧
        ((store.verify token purpose maxAgeSecs now).1.isSome = true → other ≠ token)) := by
  rcases store.verify_cases token purpose maxAgeSecs now with
    ⟨hverify, -⟩ | ⟨found, hfound, -, -, ⟨-, hverify⟩ | ⟨-, hverify⟩⟩
  · rw [hverify] at h ⊢
    exact ⟨entry, h, rfl, fun hused => ⟨hused, fun hsome => nomatch hsome⟩⟩
  · rw [hverify] at h ⊢
    have hother : other ≠ token := by
      rintro rfl
      cases h.symm.trans (AList.lookup_erase _ _)
    exact ⟨entry, (AList.lookup_erase_ne hother).symm.trans h, rfl,
      fun hused => ⟨hused, fun hsome => nomatch hsome⟩⟩
  · rw [hverify] at h ⊢
    by_cases hother : other = token
    · subst hother
      cases (AList.lookup_insert _).symm.trans h
      exact ⟨found, hfound, rfl, fun hused => nomatch hused⟩
    · exact ⟨entry, (AList.lookup_insert_ne hother).symm.trans h, rfl,
        fun hused => ⟨hused, fun _ => hother⟩⟩

end VerificationStore

namespace Call

def Creates (token : String) : Call → Prop
  | .created c => c.token = token
  | .verified .. => False

/-- A verification of the token that succeeds. -/
def Spends (token : String) : Call → Prop
  | .created _ => False
  | .verified other _ _ _ result => other = token ∧ result.isSome = true

end Call

namespace State

/-- The last create of the token is `c`, with the calls that have returned since. -/
structure LastCreate (s : State) (token : String) (c : Created) (later : List Call) : Prop where
  logged : ∃ earlier, s.log = later ++ .created c :: earlier
  token_eq : c.token = token
  last : ∀ call ∈ later, ¬ call.Creates token

/-- The last create that returned the token was for the address and the purpose and at most
`maxAgeSecs` ago, and no verification of the token has succeeded since. -/
def Backed (s : State) (token email purpose : String) (maxAgeSecs now : UInt64) : Prop :=
  ∃ c later, s.LastCreate token c later ∧ c.email = email ∧ c.purpose = purpose ∧
    c.time ≤ now ∧ now - c.time ≤ maxAgeSecs ∧ ∀ call ∈ later, ¬ call.Spends token

/-- Every entry is that of the last create of its token. -/
def Recorded (s : State) : Prop :=
  ∀ token entry, s.store.lookup token = some entry →
    ∃ c later, s.LastCreate token c later ∧
      entry = ⟨c.email, c.purpose, c.time, entry.used⟩ ∧ c.time.toNat ≤ s.clock ∧
      (entry.used = false → ∀ call ∈ later, ¬ call.Spends token)

theorem LastCreate.cons {c : Created} {later : List Call} {call : Call}
    (h : s.LastCreate token c later) (hlog : t.log = call :: s.log)
    (hcall : ¬ call.Creates token) : t.LastCreate token c (call :: later) := by
  obtain ⟨earlier, hearlier⟩ := h.logged
  refine ⟨⟨earlier, by rw [hlog, hearlier]; rfl⟩, h.token_eq, fun other hother => ?_⟩
  rcases List.mem_cons.mp hother with rfl | hother
  · exact hcall
  · exact h.last other hother

theorem recorded_new : new.Recorded := by
  intro token entry hentry
  cases hentry.symm.trans (AList.lookup_empty token)

/-- A create of any kind. -/
theorem Recorded.create (h : s.Recorded) (c : Created) :
    (⟨s.store.create c.token c.email c.purpose c.time, max s.clock c.time.toNat,
      .created c :: s.log⟩ : State).Recorded := by
  intro token entry hentry
  by_cases htoken : token = c.token
  · subst htoken
    cases (AList.lookup_insert _).symm.trans hentry
    exact ⟨c, [], ⟨⟨s.log, rfl⟩, rfl, fun _ h => (List.not_mem_nil h).elim⟩, rfl,
      Nat.le_max_right _ _, fun _ _ h => (List.not_mem_nil h).elim⟩
  · obtain ⟨d, later, hlast, heq, htime, hunspent⟩ :=
      h token entry ((AList.lookup_insert_ne htoken).symm.trans hentry)
    refine ⟨d, .created c :: later, hlast.cons rfl (Ne.symm htoken), heq,
      Nat.le_trans htime (Nat.le_max_left _ _), fun hused call hcall => ?_⟩
    rcases List.mem_cons.mp hcall with rfl | hcall
    · exact id
    · exact hunspent hused call hcall

/-- A verification keeps entries, and marks that of its token when it succeeds. -/
theorem Recorded.verify (h : s.Recorded) (token purpose : String) (maxAgeSecs now : UInt64) :
    (s.exec (.verify token purpose maxAgeSecs now)).Recorded := by
  intro other entry hentry
  obtain ⟨old, hold, heq, hused⟩ := VerificationStore.of_lookup_verify hentry
  obtain ⟨c, later, hlast, hold', htime, hunspent⟩ := h other old hold
  refine ⟨c, _ :: later, hlast.cons rfl id, ?_, Nat.le_trans htime (Nat.le_max_left _ _),
    fun hunused call hcall => ?_⟩
  · rw [heq, hold']
  · obtain ⟨hunused, hspent⟩ := hused hunused
    rcases List.mem_cons.mp hcall with rfl | hcall
    · exact fun hspends => hspent hspends.2 hspends.1.symm
    · exact hunspent hunused call hcall

theorem Recorded.cleanup (h : s.Recorded) (maxAgeSecs now : UInt64) :
    (s.exec (.cleanup maxAgeSecs now)).Recorded := by
  intro token entry hentry
  obtain ⟨c, later, hlast, heq, htime, hunspent⟩ :=
    h token entry (Lib.Assoc.mem_lookup_retain.mp hentry).1
  exact ⟨c, later, ⟨hlast.logged, hlast.token_eq, hlast.last⟩, heq,
    Nat.le_trans htime (Nat.le_max_left _ _), hunspent⟩

theorem Recorded.exec (h : s.Recorded) (op : Op) : (s.exec op).Recorded := by
  cases op with
  | createToken sample email purpose ttlSecs now =>
    exact h.create ⟨tokenText sample, email, purpose, ttlSecs, now⟩
  | createOtp n email purpose ttlSecs now =>
    exact h.create ⟨otpText n, email, purpose, ttlSecs, now⟩
  | verify token purpose maxAgeSecs now => exact h.verify token purpose maxAgeSecs now
  | cleanup maxAgeSecs now => exact h.cleanup maxAgeSecs now

/-- The clock does not go back: a verification, which reads it while it holds the lock,
reads no less than any call before. -/
def Timely (s : State) : Op → Prop
  | .verify _ _ _ now => s.clock ≤ now.toNat
  | _ => True

/-- A verification that succeeds is backed by a create. -/
def Sound (s : State) : Op → Prop
  | .verify token purpose maxAgeSecs now => ∀ email,
    (s.store.verify token purpose maxAgeSecs now).1 = some email →
      s.Backed token email purpose maxAgeSecs now
  | _ => True

theorem Recorded.sound {op : Op} (h : s.Recorded) (htimely : s.Timely op) : s.Sound op := by
  cases op with
  | createToken | createOtp | cleanup => trivial
  | verify token purpose maxAgeSecs now =>
    intro email hemail
    obtain ⟨entry, hentry, hused, hpurpose, rfl, hage⟩ := VerificationStore.verify_eq_some hemail
    obtain ⟨c, later, hlast, heq, htime, hunspent⟩ := h token entry hentry
    rw [heq] at hpurpose hage
    refine ⟨c, later, hlast, ?_, hpurpose, ?_, hage, hunspent hused⟩
    · rw [heq]
    · exact UInt64.le_iff_toNat_le.mpr (Nat.le_trans htime htimely)

/-- In every run every verification is sound. -/
theorem verifications_sound (tr : List (Op × State))
    (hrun : Along (fun s op t => s.Timely op ∧ s.Step op t) new tr) :
    Along (fun s op _ => s.Sound op) new tr := by
  refine hrun.of_invariant ?_ recorded_new
  rintro s op t h ⟨htimely, rfl⟩
  exact ⟨h.exec op, h.sound htimely⟩

/-- A password that is verified half a minute after it was created. -/
def firstUse : List Op :=
  [.createOtp 7 "a" "login" 600 100, .verify (otpText 7) "login" 600 130]

theorem along_firstUse :
    Along (fun s op t => s.Timely op ∧ s.Step op t) new (replay execOk new firstUse) :=
  ⟨⟨trivial, rfl⟩, ⟨(by decide : 100 ≤ 130), rfl⟩, trivial⟩

theorem verification_sound_firstUse :
    (new.exec (.createOtp 7 "a" "login" 600 100)).Backed (otpText 7) "a" "login" 600 130 :=
  (verifications_sound (replay execOk new firstUse) along_firstUse).2.1 "a" (by decide)

end State

end JustApi.Core.Verification
