import Mathlib.Algebra.Order.Floor.Div
import JustApi.Lib.Result

/-! # The rate limiter

`RateLimiter::check_limit` with the script it runs in Redis, on one key. The script's
numbers are exact. A call reads the clock once; the key lives on the same clock. -/
namespace JustApi.Core.RateLimit

structure RateLimitResult where
  allowed : Bool
  retryAfterMs : Nat
  deriving DecidableEq, Repr

/-- The parameters of a limit: the burst, and the tokens added per second. -/
structure Limit where
  capacity : Nat
  replenishRate : Nat
  deriving DecidableEq, Repr

/-- The interval per token in microseconds. -/
def Limit.t (limit : Limit) : Nat := 1000000 / limit.replenishRate

/-- The burst in microseconds, a product of 64 bits. -/
def Limit.tau (limit : Limit) : Nat := limit.t * limit.capacity % 2 ^ 64

/-- The value of the key, a theoretical arrival time, and when it expires. -/
structure Entry where
  tat : Nat
  expiresAt : Option Nat
  deriving DecidableEq, Repr

/-- What `GET` finds; `expires` tells whether keys expire at all. -/
def live (expires : Bool) (now : Nat) (key : Option Entry) : Option Entry :=
  key.filter fun e => !expires || e.expiresAt.all (now < ·)

/-- The arrival time a call counts from. -/
def arrival (expires : Bool) (now : Nat) (key : Option Entry) : Nat :=
  max (((live expires now key).map Entry.tat).getD now) now

/-- The script: its reply and the key after it. -/
def script (expires : Bool) (t tau now request : Nat) (key : Option Entry) :
    RateLimitResult × Option Entry :=
  let newTat := arrival expires now key + t * request
  let allowAt : Int := newTat - tau
  if now < allowAt then
    (⟨false, (allowAt - now).toNat ⌈/⌉ 1000⟩, live expires now key)
  else
    let ttl := (newTat - now) ⌈/⌉ 1000000
    (⟨true, 0⟩, some ⟨newTat, if 0 < ttl then some (now + ttl * 1000000) else none⟩)

structure Call where
  limit : Limit
  /-- microseconds since the epoch -/
  now : Nat
  tokens : Nat
  deriving DecidableEq, Repr

def checkLimit (expires : Bool) (key : Option Entry) (call : Call) :
    Except String RateLimitResult × Option Entry :=
  if call.limit.replenishRate = 0 then (.error "replenish_rate must be > 0", key)
  else
    let (result, key) := script expires call.limit.t call.limit.tau call.now call.tokens key
    (.ok result, key)

/-! ## Sequences of calls -/

/-- The results of the calls, one after the other. -/
def results (expires : Bool) : Option Entry → List Call → List (Except String RateLimitResult)
  | _, [] => []
  | key, call :: calls =>
    (checkLimit expires key call).1 :: results expires (checkLimit expires key call).2 calls

/-- The key after the calls. -/
def after (expires : Bool) (key : Option Entry) (calls : List Call) : Option Entry :=
  calls.foldl (fun key call => (checkLimit expires key call).2) key

/-- The call was let through. -/
def Allowed (result : Except String RateLimitResult) : Bool :=
  match result with
  | .ok r => r.allowed
  | .error _ => false

/-- The calls that were allowed. -/
def allowedCalls : Option Entry → List Call → List Call
  | _, [] => []
  | key, call :: calls =>
    let rest := allowedCalls (checkLimit true key call).2 calls
    if Allowed (checkLimit true key call).1 then call :: rest else rest

/-- The tokens of the calls with a reading from `start` to `start + width`. -/
def tokensIn (start width : Nat) (calls : List Call) : Nat :=
  ((calls.filter fun c => start ≤ c.now ∧ c.now ≤ start + width).map Call.tokens).sum

/-- The clock does not go back. -/
def Ordered (calls : List Call) : Prop := calls.Pairwise fun c c' => c.now ≤ c'.now

/-! ## What a call does -/

section Calls

variable {expires : Bool} {key : Option Entry} {call : Call} {now t tau request : Nat}

/-- A key is kept at least until its arrival time has come. -/
def Lasting (key : Option Entry) : Prop :=
  ∀ e ∈ key, ∀ time ∈ e.expiresAt, e.tat ≤ time

theorem live_sub {e : Entry} (h : e ∈ live expires now key) : e ∈ key :=
  (Option.filter_eq_some_iff.mp h).1

theorem Lasting.live (h : Lasting key) : Lasting (live expires now key) :=
  fun e he => h e (live_sub he)

theorem lasting_none : Lasting none := by
  intro e he
  cases he

/-- Without expiry the arrival time is what is stored, if that is still to come. -/
theorem arrival_eternal (now : Nat) (key : Option Entry) :
    arrival false now key = max ((key.map Entry.tat).getD 0) now := by
  have : live false now key = key := by
    cases key <;> rfl
  rw [arrival, this]
  cases key <;> simp

/-- A key that has expired would not have counted. -/
theorem arrival_lasting (h : Lasting key) (now : Nat) :
    arrival true now key = arrival false now key := by
  rw [arrival_eternal]
  cases hlive : live true now key with
  | some e =>
    rw [arrival, hlive, (live_sub hlive : key = some e)]
    rfl
  | none =>
    rw [arrival, hlive]
    cases key with
    | none => simp
    | some e =>
      cases hexpires : e.expiresAt with
      | none => simp [RateLimit.live, Option.filter, hexpires] at hlive
      | some time =>
        have hgone : time ≤ now := by simpa [RateLimit.live, Option.filter, hexpires] using hlive
        have hkept : e.tat ≤ time := h e rfl time hexpires
        simp only [Option.map_none, Option.getD_none, Option.map_some, Option.getD_some]
        omega

theorem le_arrival (expires : Bool) (now : Nat) (key : Option Entry) :
    now ≤ arrival expires now key := Nat.le_max_right _ _

theorem arrival_mono {now' : Nat} (h : Lasting key) (hle : now ≤ now') :
    arrival true now key ≤ arrival true now' key := by
  rw [arrival_lasting h, arrival_lasting h, arrival_eternal, arrival_eternal]
  omega

/-- A call that has purged the key has not changed what comes after. -/
theorem arrival_live {now' : Nat} (h : Lasting key) (hle : now ≤ now') :
    arrival true now' (live true now key) = arrival true now' key := by
  rw [arrival_lasting h.live, arrival_lasting h, arrival_eternal, arrival_eternal]
  cases hlive : live true now key with
  | some e => rw [live_sub hlive]
  | none =>
    have hnow := arrival_lasting h now
    rw [arrival_eternal, arrival, hlive] at hnow
    simp only [Option.map_none, Option.getD_none, Nat.max_self] at hnow ⊢
    omega

/-- Two ways a call can go: refused, it waits for the time it is told; allowed, it
moves the arrival time on. -/
theorem script_cases (expires : Bool) (t tau now request : Nat) (key : Option Entry) :
    (now + tau < arrival expires now key + t * request ∧
      script expires t tau now request key =
        (⟨false, (arrival expires now key + t * request - (now + tau)) ⌈/⌉ 1000⟩,
          live expires now key)) ∨
    (arrival expires now key + t * request ≤ now + tau ∧
      ∃ entry, entry.tat = arrival expires now key + t * request ∧ Lasting (some entry) ∧
        script expires t tau now request key = (⟨true, 0⟩, some entry)) := by
  unfold script
  dsimp only
  split
  · rename_i hlate
    refine .inl ⟨by omega, ?_⟩
    congr 3
    omega
  · rename_i hearly
    refine .inr ⟨by omega, _, rfl, ?_, rfl⟩
    intro e he time htime
    cases he
    dsimp only at htime
    split at htime
    · cases htime
      have hceil := le_smul_ceilDiv (a := 1000000)
        (b := arrival expires now key + t * request - now) (by omega)
      rw [smul_eq_mul] at hceil
      have := le_arrival expires now key
      dsimp only
      omega
    · cases htime

end Calls

end JustApi.Core.RateLimit
