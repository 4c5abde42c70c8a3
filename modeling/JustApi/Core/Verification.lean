import JustApi.Lib.Assoc
import JustApi.Lib.Run

/-! # Verification tokens

The store of tokens and one-time passwords. An operation is what a call does while it
holds the lock; `create` and `cleanup` have read the clock before they wait for it. -/
namespace JustApi.Core.Verification

structure VerificationEntry where
  email : String
  purpose : String
  createdAt : UInt64
  used : Bool
  deriving DecidableEq

abbrev VerificationStore := AList fun _ : String => VerificationEntry

/-- A character of a token. -/
abbrev Alphanumeric := { c : Char // c.isAlphanum = true }

/-- The 32 characters that are drawn. -/
def tokenText (sample : Fin 32 → Alphanumeric) : String :=
  String.ofList (List.ofFn fun i => (sample i).1)

/-- The number as six digits. -/
def otpText (n : Fin 1000000) : String :=
  let digits := toString n.val
  String.ofList (List.replicate (6 - digits.length) '0') ++ digits

namespace VerificationStore

/-- What both kinds of creation do with the text they have drawn. -/
def create (token email purpose : String) (now : UInt64) (store : VerificationStore) :
    VerificationStore := store.insert token ⟨email, purpose, now, false⟩

def createToken (sample : Fin 32 → Alphanumeric) (email purpose : String) (_ttlSecs now : UInt64)
    (store : VerificationStore) : String × VerificationStore :=
  (tokenText sample, store.create (tokenText sample) email purpose now)

def createOtp (n : Fin 1000000) (email purpose : String) (_ttlSecs now : UInt64)
    (store : VerificationStore) : String × VerificationStore :=
  (otpText n, store.create (otpText n) email purpose now)

def verify (token purpose : String) (maxAgeSecs now : UInt64) (store : VerificationStore) :
    Option String × VerificationStore :=
  match store.lookup token with
  | none => (none, store)
  | some entry =>
    if entry.used then (none, store)
    else if entry.purpose ≠ purpose then (none, store)
    -- the difference wraps as in a build for release
    else if maxAgeSecs < now - entry.createdAt then (none, store.erase token)
    else (some entry.email, store.insert token { entry with used := true })

def cleanup (maxAgeSecs now : UInt64) (store : VerificationStore) : VerificationStore :=
  Lib.Assoc.retain (fun _ entry => now - entry.createdAt ≤ maxAgeSecs) store

end VerificationStore

inductive Op where
  | createToken (sample : Fin 32 → Alphanumeric) (email purpose : String) (ttlSecs now : UInt64)
  | createOtp (n : Fin 1000000) (email purpose : String) (ttlSecs now : UInt64)
  | verify (token purpose : String) (maxAgeSecs now : UInt64)
  | cleanup (maxAgeSecs now : UInt64)

/-- A token with what it was created for. -/
structure Created where
  token : String
  email : String
  purpose : String
  ttlSecs : UInt64
  time : UInt64
  deriving DecidableEq

/-- A call that has returned. -/
inductive Call where
  | created (c : Created)
  | verified (token purpose : String) (maxAgeSecs now : UInt64) (result : Option String)
  deriving DecidableEq

structure State where
  store : VerificationStore
  /-- The latest time that a call has read. -/
  clock : Nat
  /-- The calls that have returned, the last first. -/
  log : List Call

namespace State

def new : State := ⟨∅, 0, []⟩

def exec (s : State) : Op → State
  | .createToken sample email purpose ttlSecs now =>
    let (token, store) := s.store.createToken sample email purpose ttlSecs now
    ⟨store, max s.clock now.toNat, .created ⟨token, email, purpose, ttlSecs, now⟩ :: s.log⟩
  | .createOtp n email purpose ttlSecs now =>
    let (token, store) := s.store.createOtp n email purpose ttlSecs now
    ⟨store, max s.clock now.toNat, .created ⟨token, email, purpose, ttlSecs, now⟩ :: s.log⟩
  | .verify token purpose maxAgeSecs now =>
    let (result, store) := s.store.verify token purpose maxAgeSecs now
    ⟨store, max s.clock now.toNat, .verified token purpose maxAgeSecs now result :: s.log⟩
  | .cleanup maxAgeSecs now => ⟨s.store.cleanup maxAgeSecs now, max s.clock now.toNat, s.log⟩

def Step (s : State) (op : Op) (t : State) : Prop := t = s.exec op

/-- A step as runs are computed from. -/
def execOk (s : State) (op : Op) : Except Lib.Run.Disabled State := .ok (s.exec op)

end State

end JustApi.Core.Verification
