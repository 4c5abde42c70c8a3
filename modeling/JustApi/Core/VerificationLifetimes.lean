import JustApi.Core.VerificationTokens

/-! # How long a token is accepted

A token can be lost to a create that draws the same one, or to a verification which finds
it too old; and nothing ends it when its time to live is over. -/
namespace JustApi.Core.Verification

open Lib.Run

variable {s t : State} {c : Created} {later : List Call} {call : Call}

namespace Created

/-- The same token, for the same address and purpose. -/
def Repeats (c : Created) : Call → Prop
  | .created d => d.token = c.token ∧ d.email = c.email ∧ d.purpose = c.purpose
  | .verified .. => False

/-- The first use. -/
def UsedBy (c : Created) : Call → Prop
  | .created _ => False
  | .verified token purpose _ _ result =>
    token = c.token ∧ purpose = c.purpose ∧ result = some c.email

/-- Another draws the token, or it is verified with a `max_age` below its age. -/
def LostTo (c : Created) : Call → Prop
  | .created d => d.token = c.token
  | .verified token purpose maxAgeSecs now _ =>
    token = c.token ∧ purpose = c.purpose ∧ maxAgeSecs < now - c.time

/-- The entry that the create stores. -/
def entry (c : Created) : VerificationEntry := ⟨c.email, c.purpose, c.time, false⟩

end Created

namespace State

/-- The create of `c` is the last for its token, address and purpose; these calls have
returned since. -/
structure Issued (s : State) (c : Created) (later : List Call) : Prop where
  logged : ∃ earlier, s.log = later ++ .created c :: earlier
  last : ∀ call ∈ later, ¬ c.Repeats call

/-- Neither lost nor used. -/
def Stands (c : Created) (later : List Call) : Prop :=
  ∀ call ∈ later, ¬ c.LostTo call ∧ ¬ c.UsedBy call

/-- The store has the entry of what still stands, and else nothing unused for the address
and the purpose. -/
def Keeps (s : State) : Prop :=
  ∀ c later, s.Issued c later →
    (Stands c later → s.store.lookup c.token = some c.entry) ∧
    (¬ Stands c later → ∀ entry, s.store.lookup c.token = some entry → entry.used = false →
      entry.purpose = c.purpose → entry.email ≠ c.email)

theorem keeps_new : new.Keeps := by
  rintro c later ⟨⟨earlier, h⟩, -⟩
  cases later <;> cases h

/-- The calls since the create, before the last of them. -/
theorem Issued.of_cons (h : t.Issued c later) (hlog : t.log = call :: s.log) :
    call = .created c ∧ later = [] ∨
      ∃ rest, later = call :: rest ∧ s.Issued c rest ∧ ¬ c.Repeats call := by
  obtain ⟨earlier, hearlier⟩ := h.logged
  rw [hlog] at hearlier
  rcases List.cons_eq_append_iff.mp hearlier with ⟨hnil, hcons⟩ | ⟨rest, hlater, hrest⟩
  · exact .inl ⟨(List.cons.inj hcons).1.symm, hnil⟩
  · subst hlater
    refine .inr ⟨rest, rfl, ⟨⟨earlier, hrest⟩, fun other hother => ?_⟩, ?_⟩
    · exact h.last other (List.mem_cons_of_mem _ hother)
    · exact h.last call List.mem_cons_self

theorem stands_cons : Stands c (call :: later) ↔
    (¬ c.LostTo call ∧ ¬ c.UsedBy call) ∧ Stands c later := List.forall_mem_cons

theorem Keeps.create (h : s.Keeps) (d : Created) :
    (⟨s.store.create d.token d.email d.purpose d.time, max s.clock d.time.toNat,
      .created d :: s.log⟩ : State).Keeps := by
  intro c later hissued
  rcases hissued.of_cons (s := s) rfl with ⟨hd, rfl⟩ | ⟨rest, rfl, hrest, hrepeats⟩
  · cases hd
    refine ⟨fun _ => AList.lookup_insert _, fun hstands => ?_⟩
    exact (hstands fun _ h => (List.not_mem_nil h).elim).elim
  · by_cases htoken : d.token = c.token
    · refine ⟨fun hstands => ((stands_cons.mp hstands).1.1 htoken).elim,
        fun _ entry hentry _ hpurpose hemail => hrepeats ⟨htoken, ?_⟩⟩
      rw [← htoken] at hentry
      cases (AList.lookup_insert _).symm.trans hentry
      exact ⟨hemail, hpurpose⟩
    · have hlookup : (s.store.create d.token d.email d.purpose d.time).lookup c.token =
          s.store.lookup c.token := AList.lookup_insert_ne (Ne.symm htoken)
      have hstands : Stands c (.created d :: rest) ↔ Stands c rest :=
        stands_cons.trans (and_iff_right ⟨htoken, id⟩)
      change (_ → AList.lookup c.token (s.store.create _ _ _ _) = _) ∧
        (_ → ∀ entry, AList.lookup c.token (s.store.create _ _ _ _) = some entry → _)
      rw [hlookup, hstands]
      exact h c rest hrest

theorem Keeps.verify (h : s.Keeps) (token purpose : String) (maxAgeSecs now : UInt64) :
    (s.exec (.verify token purpose maxAgeSecs now)).Keeps := by
  intro c later hissued
  rcases hissued.of_cons (s := s) rfl with ⟨hcall, -⟩ | ⟨rest, rfl, hrest, -⟩
  · cases hcall
  obtain ⟨hkept, hgone⟩ := h c rest hrest
  rw [stands_cons]
  change (_ → (s.store.verify token purpose maxAgeSecs now).2.lookup c.token = _) ∧
    (_ → ∀ entry, (s.store.verify token purpose maxAgeSecs now).2.lookup c.token = some entry → _)
  by_cases htoken : c.token = token
  · subst htoken
    rcases s.store.verify_cases c.token purpose maxAgeSecs now with
      ⟨hverify, hrefused⟩ | ⟨found, hfound, hused, hpurpose, ⟨hage, hverify⟩ | ⟨-, hverify⟩⟩
    · rw [hverify]
      refine ⟨fun hstands => hkept hstands.2, fun hlost => hgone fun hstands => hlost ⟨?_, hstands⟩⟩
      -- the entry of what stands is refused for its purpose only
      rcases hrefused c.entry (hkept hstands) with hused | hpurpose
      · cases hused
      · exact ⟨fun hl => hpurpose hl.2.1.symm, fun hu => hpurpose hu.2.1.symm⟩
    · rw [hverify]
      refine ⟨fun ⟨⟨hlost, _⟩, hstands⟩ => ?_, fun _ entry hentry => ?_⟩
      · cases hfound.symm.trans (hkept hstands)
        exact (hlost ⟨rfl, hpurpose.symm, hage⟩).elim
      · cases (AList.lookup_erase _ _).symm.trans hentry
    · refine ⟨fun ⟨⟨_, hunused⟩, hstands⟩ => ?_, fun _ entry hentry hused => ?_⟩
      · cases hfound.symm.trans (hkept hstands)
        exact (hunused ⟨rfl, hpurpose.symm, congrArg Prod.fst hverify⟩).elim
      · rw [hverify] at hentry
        cases (AList.lookup_insert _).symm.trans hentry
        cases hused
  · rw [VerificationStore.lookup_verify_of_ne htoken]
    exact ⟨fun hstands => hkept hstands.2, fun hlost => hgone fun hstands =>
      hlost ⟨⟨fun hl => htoken hl.1.symm, fun hu => htoken hu.1.symm⟩, hstands⟩⟩

theorem Keeps.exec {op : Op} (h : s.Keeps) (hop : ∀ maxAgeSecs now, op ≠ .cleanup maxAgeSecs now) :
    (s.exec op).Keeps := by
  cases op with
  | createToken sample email purpose ttlSecs now =>
    exact h.create ⟨tokenText sample, email, purpose, ttlSecs, now⟩
  | createOtp n email purpose ttlSecs now =>
    exact h.create ⟨otpText n, email, purpose, ttlSecs, now⟩
  | verify token purpose maxAgeSecs now => exact h.verify token purpose maxAgeSecs now
  | cleanup maxAgeSecs now => exact (hop maxAgeSecs now rfl).elim

/-- With a `max_age` that is large enough, what stands is what is accepted. -/
theorem Keeps.accepted_iff {maxAgeSecs now : UInt64} (h : s.Keeps) (hissued : s.Issued c later)
    (hage : now - c.time ≤ maxAgeSecs) :
    (s.store.verify c.token c.purpose maxAgeSecs now).1 = some c.email ↔ Stands c later := by
  obtain ⟨hkept, hgone⟩ := h c later hissued
  constructor
  · intro hsome
    obtain ⟨entry, hentry, hused, hpurpose, hemail, -⟩ := VerificationStore.verify_eq_some hsome
    by_contra hstands
    exact hgone hstands entry hentry hused hpurpose hemail
  · intro hstands
    have hentry := hkept hstands
    rcases s.store.verify_cases c.token c.purpose maxAgeSecs now with
      ⟨-, hrefused⟩ | ⟨found, hfound, -, -, ⟨hold, -⟩ | ⟨-, hverify⟩⟩
    · rcases hrefused c.entry hentry with hused | hpurpose
      · cases hused
      · exact (hpurpose rfl).elim
    · cases hfound.symm.trans hentry
      exact (UInt64.not_lt.mpr hage hold).elim
    · cases hfound.symm.trans hentry
      rw [hverify]
      rfl

/-- A verification for the purpose of a token, with a `max_age` of at least its age, accepts
it exactly when it has not been used and its time to live is not over. -/
def Lives (s : State) : Op → Prop
  | .verify token purpose maxAgeSecs now => ∀ c later, s.Issued c later → c.token = token →
    c.purpose = purpose → now - c.time ≤ maxAgeSecs →
      ((s.store.verify token purpose maxAgeSecs now).1 = some c.email ↔
        (∀ call ∈ later, ¬ c.UsedBy call) ∧ now - c.time < c.ttlSecs)
  | _ => True

/-- Such a verification of a token that was not used finds it lost exactly when its time to
live is over. -/
def LosesInTime (s : State) : Op → Prop
  | .verify token purpose maxAgeSecs now => ∀ c later, s.Issued c later → c.token = token →
    c.purpose = purpose → now - c.time ≤ maxAgeSecs → (∀ call ∈ later, ¬ c.UsedBy call) →
      ((∃ call ∈ later, c.LostTo call) ↔ c.ttlSecs ≤ now - c.time)
  | _ => True

theorem stands_iff :
    Stands c later ↔ (∀ call ∈ later, ¬ c.UsedBy call) ∧ ¬ ∃ call ∈ later, c.LostTo call := by
  unfold Stands
  constructor
  · exact fun h => ⟨fun call hcall => (h call hcall).2,
      fun ⟨call, hcall, hl⟩ => (h call hcall).1 hl⟩
  · exact fun h call hcall => ⟨fun hl => h.2 ⟨call, hcall, hl⟩, h.1 call hcall⟩

theorem Keeps.lives_iff {op : Op} (h : s.Keeps) : s.Lives op ↔ s.LosesInTime op := by
  cases op with
  | createToken | createOtp | cleanup => exact Iff.rfl
  | verify token purpose maxAgeSecs now =>
    refine forall_congr' fun c => forall_congr' fun later => forall_congr' fun hissued =>
      forall_congr' fun htoken => forall_congr' fun hpurpose => forall_congr' fun hage => ?_
    subst htoken hpurpose
    rw [h.accepted_iff hissued hage, stands_iff, and_congr_right_iff]
    refine forall_congr' fun _ => ?_
    rw [not_iff_comm, UInt64.not_lt]
    exact iff_comm

/-- A step of creates and verifications. -/
def Uncleaned (s : State) (op : Op) (t : State) : Prop :=
  (∀ maxAgeSecs now, op ≠ .cleanup maxAgeSecs now) ∧ s.Step op t

/-- Tokens live as long as they are to in exactly the runs where each is lost just when its
time is over. -/
theorem tokens_live_iff (tr : List (Op × State)) (hrun : Along Uncleaned new tr) :
    Along (fun s op _ => s.Lives op) new tr ↔ Along (fun s op _ => s.LosesInTime op) new tr := by
  refine hrun.congr_of_invariant ?_ keeps_new
  rintro s op t h ⟨hop, rfl⟩
  exact ⟨h.exec hop, h.lives_iff⟩

theorem tokens_live_firstUse :
    Along (fun s op _ => s.Lives op) new (replay execOk new firstUse) := by
  have hrun : Along Uncleaned new (replay execOk new firstUse) :=
    ⟨⟨fun _ _ h => (nomatch h), rfl⟩, ⟨fun _ _ h => (nomatch h), rfl⟩, trivial⟩
  refine (tokens_live_iff _ hrun).mpr ⟨trivial, ?_, trivial⟩
  rintro c later ⟨⟨earlier, hlog⟩, -⟩ - - - -
  rcases List.cons_eq_append_iff.mp hlog with ⟨rfl, hcons⟩ | ⟨rest, -, hrest⟩
  · cases hcons
    exact iff_of_false (fun ⟨_, hcall, _⟩ => List.not_mem_nil hcall) (by decide)
  · cases rest <;> cases hrest

/-- The second user draws the password of the first, who is then taken for the second. -/
theorem password_lost_to_other :
    ¬ Along (fun s op _ => s.Lives op) new (replay execOk new
      [.createOtp 7 "a" "login" 600 100, .createOtp 7 "b" "login" 600 110,
        .verify (otpText 7) "login" 600 120]) := by
  intro h
  obtain ⟨-, -, h, -⟩ := h
  have hissued : ((new.exec (.createOtp 7 "a" "login" 600 100)).exec
      (.createOtp 7 "b" "login" 600 110)).Issued ⟨otpText 7, "a", "login", 600, 100⟩
        [.created ⟨otpText 7, "b", "login", 600, 110⟩] := by
    refine ⟨⟨[], rfl⟩, fun call hcall => ?_⟩
    rw [List.mem_singleton.mp hcall]
    exact fun hrepeats => absurd hrepeats.2.1 (by decide)
  have hlives := (h _ _ hissued rfl rfl (by decide)).mpr
    ⟨fun call hcall => by rw [List.mem_singleton.mp hcall]; exact id, by decide⟩
  exact absurd hlives (by decide)

end State

end JustApi.Core.Verification
