import Mathlib.Algebra.BigOperators.Group.List.Basic
import JustApi.Core.RateLimit

/-! # The rate, and when to come back

How many tokens are let through in a window of time, what `retry_after_ms` promises,
and that it makes no difference that keys expire. -/
namespace JustApi.Core.RateLimit
open JustApi.Lib.Result

variable {key : Option Entry} {call : Call} {limit : Limit}

/-! ## Calls -/

theorem checkLimit_eq (h : call.limit.replenishRate ≠ 0) (expires : Bool) (key : Option Entry) :
    checkLimit expires key call =
      (.ok (script expires call.limit.t call.limit.tau call.now call.tokens key).1,
        (script expires call.limit.t call.limit.tau call.now call.tokens key).2) := by
  rw [checkLimit, if_neg h]

/-- What a call does to a lasting key: it is refused and leaves the key, as far as later
calls can tell, or it is allowed within the burst and moves the arrival time on. -/
theorem checkLimit_cases (call : Call) (h : call.limit.replenishRate ≠ 0) (expires : Bool)
    (key : Option Entry) :
    (call.now + call.limit.tau < arrival expires call.now key + call.limit.t * call.tokens ∧
      checkLimit expires key call =
        (.ok ⟨false, (arrival expires call.now key + call.limit.t * call.tokens -
            (call.now + call.limit.tau)) ⌈/⌉ 1000⟩, live expires call.now key)) ∨
    (arrival expires call.now key + call.limit.t * call.tokens ≤ call.now + call.limit.tau ∧
      ∃ entry, entry.tat = arrival expires call.now key + call.limit.t * call.tokens ∧
        Lasting (some entry) ∧ checkLimit expires key call = (.ok ⟨true, 0⟩, some entry)) := by
  rw [checkLimit_eq h]
  rcases script_cases expires call.limit.t call.limit.tau call.now call.tokens key with
    ⟨hlate, hs⟩ | ⟨hearly, entry, htat, hlast, hs⟩
  · exact .inl ⟨hlate, by rw [hs]⟩
  · exact .inr ⟨hearly, entry, htat, hlast, by rw [hs]⟩

theorem Lasting.checkLimit (h : Lasting key) (call : Call) :
    Lasting (checkLimit true key call).2 := by
  by_cases hrate : call.limit.replenishRate = 0
  · rw [RateLimit.checkLimit, if_pos hrate]
    exact h
  · rcases checkLimit_cases call hrate true key with ⟨-, hc⟩ | ⟨-, entry, -, hlast, hc⟩
    · rw [hc]
      exact h.live
    · rw [hc]
      exact hlast

theorem Lasting.after (h : Lasting key) (calls : List Call) : Lasting (after true key calls) := by
  induction calls generalizing key with
  | nil => exact h
  | cons call calls ih => exact ih (h.checkLimit call)

/-! ## Windows -/

theorem tokensIn_cons (start width : Nat) (calls : List Call) :
    tokensIn start width (call :: calls) =
      (if start ≤ call.now ∧ call.now ≤ start + width then call.tokens else 0) +
        tokensIn start width calls := by
  unfold tokensIn
  by_cases h : start ≤ call.now ∧ call.now ≤ start + width
  · rw [List.filter_cons_of_pos (by simpa using h), if_pos h, List.map_cons, List.sum_cons]
  · rw [List.filter_cons_of_neg (by simpa using h), if_neg h, Nat.zero_add]

/-- What is allowed in a window moves the arrival time through it, and never further
than the burst past its end. -/
theorem window_arrival (hrate : limit.replenishRate ≠ 0) (start width : Nat) {calls : List Call}
    (hlimit : ∀ c ∈ calls, c.limit = limit) (hord : Ordered calls) (h : Lasting key) {clock : Nat}
    (hclock : ∀ c ∈ calls, clock ≤ c.now) :
    tokensIn start width (allowedCalls key calls) = 0 ∨
      limit.t * tokensIn start width (allowedCalls key calls) + max (arrival true clock key) start
        ≤ start + width + limit.tau := by
  induction calls generalizing key clock with
  | nil => exact .inl rfl
  | cons call calls ih =>
    have hcall : call.limit = limit := hlimit call List.mem_cons_self
    have hlater : clock ≤ call.now := hclock call List.mem_cons_self
    obtain ⟨hfrom, hrest⟩ := List.pairwise_cons.mp hord
    have hon : arrival true clock key ≤ arrival true call.now key := arrival_mono h hlater
    have ih := ih (fun c hc => hlimit c (List.mem_cons_of_mem _ hc)) hrest
      (h.checkLimit call) hfrom
    rcases checkLimit_cases call (hcall ▸ hrate) true key with
      ⟨-, hc⟩ | ⟨hearly, entry, htat, hlast, hc⟩
    · have hskip : allowedCalls key (call :: calls) =
          allowedCalls (live true call.now key) calls := by
        simp [allowedCalls, hc, Allowed]
      rw [hskip]
      rw [hc] at ih
      dsimp only at ih
      rw [arrival_live h (Nat.le_refl _)] at ih
      rcases ih with ih | ih
      · exact .inl ih
      · exact .inr (by omega)
    · have htake : allowedCalls key (call :: calls) =
          call :: allowedCalls (some entry) calls := by
        simp [allowedCalls, hc, Allowed]
      rw [hc, arrival_lasting hlast, arrival_eternal] at ih
      simp only [Option.map_some, Option.getD_some] at ih
      rw [htake, tokensIn_cons]
      rw [hcall] at htat hearly
      have hnow := le_arrival true call.now key
      generalize tokensIn start width (allowedCalls (some entry) calls) = later at ih ⊢
      split
      · rename_i hin
        right
        rw [Nat.mul_add]
        rcases ih with rfl | ih
        · omega
        · omega
      · rw [Nat.zero_add]
        rcases ih with rfl | ih
        · exact .inl rfl
        · exact .inr (by omega)

/-- In a window, no more than the burst and what its width makes up for. -/
theorem window_bound (hrate : limit.replenishRate ≠ 0) (start width : Nat) {calls : List Call}
    (hlimit : ∀ c ∈ calls, c.limit = limit) (hord : Ordered calls) :
    limit.t * tokensIn start width (allowedCalls none calls) ≤ limit.tau + width := by
  rcases window_arrival hrate start width hlimit hord lasting_none
    (fun c _ => Nat.zero_le c.now) with h | h
  · rw [h]
    exact Nat.zero_le _
  · omega

/-- A call that is allowed fits in the burst. -/
theorem tokens_le_tau (hrate : limit.replenishRate ≠ 0) {calls : List Call}
    (hlimit : ∀ c ∈ calls, c.limit = limit) :
    ∀ c ∈ allowedCalls key calls, limit.t * c.tokens ≤ limit.tau := by
  induction calls generalizing key with
  | nil =>
    intro c hc
    cases hc
  | cons call calls ih =>
    have hcall : call.limit = limit := hlimit call List.mem_cons_self
    have ih := fun key => @ih key fun c hc => hlimit c (List.mem_cons_of_mem _ hc)
    rcases checkLimit_cases call (hcall ▸ hrate) true key with
      ⟨-, hc⟩ | ⟨hearly, entry, -, -, hc⟩
    · simpa [allowedCalls, hc, Allowed] using ih _
    · have hnow := le_arrival true call.now key
      have hfit : limit.t * call.tokens ≤ limit.tau := by
        rw [hcall] at hearly
        omega
      simpa [allowedCalls, hc, Allowed, hfit] using ih _

theorem mem_of_mem_allowedCalls {calls : List Call} {c : Call} (h : c ∈ allowedCalls key calls) :
    c ∈ calls := by
  induction calls generalizing key with
  | nil => cases h
  | cons call calls ih =>
    simp only [allowedCalls] at h
    split at h
    · rcases List.mem_cons.mp h with rfl | h
      · exact List.mem_cons_self
      · exact List.mem_cons_of_mem _ (ih h)
    · exact List.mem_cons_of_mem _ (ih h)

/-- A window counts no more than all of time does. -/
theorem tokensIn_le {start width horizon : Nat} {calls : List Call}
    (h : ∀ c ∈ calls, c.now ≤ horizon) :
    tokensIn start width calls ≤ tokensIn 0 horizon calls := by
  induction calls with
  | nil => exact Nat.le_refl _
  | cons call calls ih =>
    have ih := ih fun c hc => h c (List.mem_cons_of_mem _ hc)
    have hcall := h call List.mem_cons_self
    rw [tokensIn_cons, tokensIn_cons]
    split <;> split <;> omega

/-- Readings and requests are numbers of 64 bits. -/
def Machine (calls : List Call) : Prop := ∀ c ∈ calls, c.now < 2 ^ 64 ∧ c.tokens < 2 ^ 64

/-- In every window the tokens allowed are at most the burst and what the rate adds. -/
def EnforcesRate (limit : Limit) : Prop :=
  ∀ calls, (∀ c ∈ calls, c.limit = limit) → Machine calls → Ordered calls → ∀ start width,
    1000000 * tokensIn start width (allowedCalls none calls) ≤
      1000000 * limit.capacity + limit.replenishRate * width

/-- The interval per token is exact, or nothing can be had beyond the burst. -/
def ExactRate (limit : Limit) : Prop :=
  limit.replenishRate ∣ 1000000 ∨
    limit.replenishRate < 1000000 ∧ (limit.capacity = 0 ∨ 2 ^ 64 ≤ limit.t * limit.capacity)

instance (limit : Limit) : Decidable (ExactRate limit) :=
  inferInstanceAs (Decidable (_ ∨ _))

theorem tau_le (limit : Limit) : limit.tau ≤ limit.t * limit.capacity := Nat.mod_le _ _

theorem t_pos (hrate : limit.replenishRate ≠ 0) (hlt : limit.replenishRate < 1000000) :
    0 < limit.t := Nat.div_pos (Nat.le_of_lt hlt) (Nat.pos_of_ne_zero hrate)

theorem enforcesRate_of_exact (hrate : limit.replenishRate ≠ 0) (h : ExactRate limit) :
    EnforcesRate limit := by
  intro calls hlimit hmachine hord start width
  have hbound := window_bound hrate start width hlimit hord
  have htau := tau_le limit
  rcases h with hdvd | ⟨hlt, hzero | hwrap⟩
  · have ht : limit.t * limit.replenishRate = 1000000 := Nat.div_mul_cancel hdvd
    calc 1000000 * tokensIn start width (allowedCalls none calls)
        = limit.replenishRate * (limit.t * tokensIn start width (allowedCalls none calls)) := by
          rw [← ht, Nat.mul_comm limit.t, Nat.mul_assoc]
      _ ≤ limit.replenishRate * (limit.t * limit.capacity + width) :=
          Nat.mul_le_mul_left _ (by omega)
      _ = 1000000 * limit.capacity + limit.replenishRate * width := by
          rw [Nat.mul_add, ← Nat.mul_assoc, Nat.mul_comm limit.replenishRate limit.t, ht]
  · have hnone : tokensIn start width (allowedCalls none calls) = 0 := by
      refine List.sum_eq_zero ?_
      intro n hn
      obtain ⟨c, hc, rfl⟩ := List.mem_map.mp hn
      have hfit := tokens_le_tau hrate hlimit c (List.mem_filter.mp hc).1
      rw [hzero, Nat.mul_zero] at htau
      have hzero : limit.t * c.tokens = 0 := by omega
      exact (Nat.mul_eq_zero.mp hzero).resolve_left (t_pos hrate hlt).ne'
    rw [hnone]
    exact Nat.zero_le _
  · have hall := window_bound hrate 0 (2 ^ 64 - 1) hlimit hord
    have hmore : tokensIn start width (allowedCalls none calls) ≤
        tokensIn 0 (2 ^ 64 - 1) (allowedCalls none calls) := tokensIn_le fun c hc => by
      have := (hmachine c (mem_of_mem_allowedCalls hc)).1
      omega
    have hless : limit.t * tokensIn 0 (2 ^ 64 - 1) (allowedCalls none calls) <
        limit.t * limit.capacity := by
      have hmod : limit.tau + 2 ^ 64 ≤ limit.t * limit.capacity := by
        have := Nat.mod_add_div (limit.t * limit.capacity) (2 ^ 64)
        have hdiv : 1 ≤ limit.t * limit.capacity / 2 ^ 64 := Nat.div_pos hwrap (by omega)
        unfold Limit.tau
        omega
      omega
    have := Nat.lt_of_mul_lt_mul_left hless
    calc 1000000 * tokensIn start width (allowedCalls none calls)
        ≤ 1000000 * limit.capacity := Nat.mul_le_mul_left _ (by omega)
      _ ≤ 1000000 * limit.capacity + limit.replenishRate * width := Nat.le_add_right _ _

/-- Otherwise one more token can be had after one interval. -/
theorem exact_of_enforcesRate (hrate : limit.replenishRate ≠ 0) (hcap : limit.capacity < 2 ^ 64)
    (h : EnforcesRate limit) : ExactRate limit := by
  by_contra hnot
  obtain ⟨hdvd, hrest⟩ := not_or.mp hnot
  have hmul : limit.t * limit.replenishRate ≤ 1000000 := Nat.div_mul_le_self _ _
  have hmilli : limit.t ≤ 1000000 := Nat.div_le_self _ _
  have hsmall : limit.t * limit.capacity < 2 ^ 64 ∧ (limit.t = 0 ∨ 0 < limit.capacity) := by
    by_cases hlt : limit.replenishRate < 1000000
    · have hcapacity := not_or.mp fun hor => hrest ⟨hlt, hor⟩
      exact ⟨Nat.lt_of_not_le hcapacity.2, .inr (Nat.pos_of_ne_zero hcapacity.1)⟩
    · have hne : limit.replenishRate ≠ 1000000 := by
        intro he
        exact hdvd (he ▸ Nat.dvd_refl _)
      have ht : limit.t = 0 := Nat.div_eq_of_lt (by omega)
      rw [ht, Nat.zero_mul]
      exact ⟨by omega, .inl rfl⟩
  have htau : limit.tau = limit.t * limit.capacity := Nat.mod_eq_of_lt hsmall.1
  -- all of the burst at once, and one token more an interval later
  have hboth : allowedCalls none [⟨limit, 0, limit.capacity⟩, ⟨limit, limit.t, 1⟩] =
      [⟨limit, 0, limit.capacity⟩, ⟨limit, limit.t, 1⟩] := by
    rcases checkLimit_cases ⟨limit, 0, limit.capacity⟩ hrate true none with
      ⟨hlate, -⟩ | ⟨-, entry, htat, hlast, hc⟩
    · rw [arrival_lasting lasting_none, arrival_eternal] at hlate
      simp only [Option.map_none, Option.getD_none, htau] at hlate
      omega
    · have hfirst : entry.tat = limit.t * limit.capacity := by
        rw [htat, arrival_lasting lasting_none, arrival_eternal]
        simp
      rcases checkLimit_cases ⟨limit, limit.t, 1⟩ hrate true (some entry) with
        ⟨hlate, -⟩ | ⟨-, entry', -, -, hc'⟩
      · rw [arrival_lasting hlast, arrival_eternal] at hlate
        simp only [Option.map_some, Option.getD_some, htau, hfirst, Nat.mul_one] at hlate
        have hle : limit.t ≤ limit.t * limit.capacity := by
          rcases hsmall.2 with hzero | hpos
          · rw [hzero]
            exact Nat.zero_le _
          · exact Nat.le_mul_of_pos_right _ hpos
        omega
      · simp [allowedCalls, hc, hc', Allowed]
  have hwindow := h [⟨limit, 0, limit.capacity⟩, ⟨limit, limit.t, 1⟩] (by simp) (by
    intro c hc
    simp only [List.mem_cons, List.not_mem_nil, or_false] at hc
    rcases hc with rfl | rfl
    · exact ⟨Nat.two_pow_pos 64, hcap⟩
    · dsimp only
      omega) (by simp [Ordered]) 0 limit.t
  rw [hboth, tokensIn_cons, tokensIn_cons] at hwindow
  simp [tokensIn] at hwindow
  refine hdvd ⟨limit.t, ?_⟩
  rw [Nat.mul_comm limit.replenishRate] at hwindow ⊢
  omega

/-- **When the rate is kept.** In every sequence of calls every window lets no more
tokens through than the burst and what the rate adds, exactly when the rate divides a
million, or a rate below a million comes with no burst or one of 64 bits or more. -/
theorem enforces_rate_iff (limit : Limit) (hrate : 1 ≤ limit.replenishRate)
    (hcap : limit.capacity < 2 ^ 64) : EnforcesRate limit ↔ ExactRate limit :=
  ⟨exact_of_enforcesRate (by omega) hcap, enforcesRate_of_exact (by omega)⟩

theorem enforces_rate_ten : EnforcesRate ⟨100, 10⟩ :=
  (enforces_rate_iff ⟨100, 10⟩ (by decide) (by decide)).mpr (by decide)

/-- Three tokens a second, and a burst of one: after a burst the next token is let
through one microsecond early. -/
theorem three_a_second_overruns : ¬ EnforcesRate ⟨1, 3⟩ := by
  intro h
  have hwindow := h [⟨⟨1, 3⟩, 0, 1⟩, ⟨⟨1, 3⟩, 333333, 1⟩, ⟨⟨1, 3⟩, 666666, 1⟩, ⟨⟨1, 3⟩, 999999, 1⟩]
    (by decide) (by unfold Machine; decide) (by unfold Ordered; decide) 0 999999
  revert hwindow
  decide

/-! ## When to come back -/

/-- What the limit does with a request of so many tokens from a history on: after a
refusal it is refused until a millisecond before the time it was told, and allowed from
that time on. -/
def Honest (limit : Limit) (tokens : Nat) : Prop :=
  ∀ history now key r, Ordered (history ++ [⟨limit, now, tokens⟩]) →
    checkLimit true (after true none history) ⟨limit, now, tokens⟩ = (.ok ⟨false, r⟩, key) →
    ∀ later, now ≤ later →
      (now + 1000 * r ≤ later → Allowed (checkLimit true key ⟨limit, later, tokens⟩).1 = true) ∧
      (later + 1000 ≤ now + 1000 * r →
        Allowed (checkLimit true key ⟨limit, later, tokens⟩).1 = false)

/-- It makes no difference that keys expire. -/
def ExpiryInvisible : Prop :=
  ∀ calls, Ordered calls → results true none calls = results false none calls

/-- The product for the burst leaves room for the request. -/
def Fits (limit : Limit) (tokens : Nat) : Prop := limit.t * tokens ≤ limit.tau

instance (limit : Limit) (tokens : Nat) : Decidable (Fits limit tokens) :=
  inferInstanceAs (Decidable (_ ≤ _))

/-- Two keys that count alike for every call from the clock on. -/
def Alike (clock : Nat) (key key' : Option Entry) : Prop :=
  ∀ now, clock ≤ now → arrival true now key = arrival false now key'

/-- Keys that count alike give the same result, and count alike afterwards. -/
theorem Alike.checkLimit {clock : Nat} {key' : Option Entry} (h : Alike clock key key')
    (hkey : Lasting key) (hclock : clock ≤ call.now) :
    (checkLimit true key call).1 = (checkLimit false key' call).1 ∧
      Alike call.now (checkLimit true key call).2 (checkLimit false key' call).2 := by
  by_cases hrate : call.limit.replenishRate = 0
  · rw [RateLimit.checkLimit, RateLimit.checkLimit, if_pos hrate, if_pos hrate]
    exact ⟨rfl, fun now hnow => h now (Nat.le_trans hclock hnow)⟩
  · have hsame := h call.now hclock
    rcases checkLimit_cases call hrate true key with ⟨hlate, hc⟩ | ⟨hearly, entry, htat, hlast, hc⟩ <;>
      rcases checkLimit_cases call hrate false key' with
        ⟨hlate', hc'⟩ | ⟨hearly', entry', htat', hlast', hc'⟩
    · rw [hc, hc', hsame]
      refine ⟨rfl, fun now hnow => ?_⟩
      dsimp only
      rw [arrival_live hkey hnow, h now (Nat.le_trans hclock hnow), arrival_eternal,
        arrival_eternal]
      cases key' <;> rfl
    · omega
    · omega
    · rw [hc, hc']
      refine ⟨rfl, fun now _ => ?_⟩
      dsimp only
      rw [arrival_lasting hlast, arrival_eternal, arrival_eternal, Option.map_some,
        Option.map_some, htat, htat', hsame]

theorem expiryInvisible : ExpiryInvisible := by
  have hall : ∀ (calls : List Call) (clock : Nat) (key key' : Option Entry), Alike clock key key' →
      Lasting key → (∀ c ∈ calls, clock ≤ c.now) → Ordered calls →
      results true key calls = results false key' calls := by
    intro calls
    induction calls with
    | nil =>
      intros
      rfl
    | cons call calls ih =>
      intro clock key key' halike hkey hclock hord
      obtain ⟨hfrom, hrest⟩ := List.pairwise_cons.mp hord
      obtain ⟨hresult, hnext⟩ := halike.checkLimit hkey (hclock call List.mem_cons_self)
      rw [results, results, hresult, ih call.now _ _ hnext (hkey.checkLimit call) hfrom hrest]
  intro calls hord
  refine hall calls 0 none none (fun now _ => ?_) lasting_none (fun _ _ => Nat.zero_le _) hord
  exact arrival_lasting lasting_none now

theorem honest_of_fits {tokens : Nat} (h : Fits limit tokens) : Honest limit tokens := by
  intro history now key r _ hrefused later hlater
  have hlast : Lasting (after true none history) := lasting_none.after history
  by_cases hrate : limit.replenishRate = 0
  · rw [checkLimit, if_pos hrate] at hrefused
    cases hrefused
  · rcases checkLimit_cases ⟨limit, now, tokens⟩ hrate true
      (after true none history) with ⟨hlate, hc⟩ | ⟨-, entry, -, -, hc⟩
    · rw [hc] at hrefused
      dsimp only at hlate hrefused
      obtain ⟨hr, rfl⟩ := Prod.mk.inj hrefused
      have hr : _ = r := congrArg RateLimitResult.retryAfterMs (Except.ok.inj hr)
      dsimp only at hr
      generalize hwait : arrival true now (after true none history) + limit.t * tokens -
        (now + limit.tau) = wait at hr
      have hupper : wait ≤ 1000 * r := (ceilDiv_le_iff_le_mul (by decide)).mp (Nat.le_of_eq hr)
      have hlower : ∀ n, wait ≤ 1000 * n → r ≤ n := fun n hn =>
        hr ▸ (ceilDiv_le_iff_le_mul (by decide)).mpr hn
      have hmono := arrival_mono hlast hlater
      rw [← arrival_live hlast hlater] at hmono
      have hnow := arrival_lasting hlast now
      have hthen := arrival_lasting hlast later
      rw [arrival_eternal] at hnow hthen
      rw [← arrival_live hlast hlater] at hthen
      unfold Fits at h
      rcases checkLimit_cases ⟨limit, later, tokens⟩ hrate true
        (live true now (after true none history)) with ⟨hlate', hc'⟩ | ⟨hearly', entry, -, -, hc'⟩
      · dsimp only at hlate'
        rw [hc']
        refine ⟨fun hfrom => ?_, fun _ => rfl⟩
        omega
      · dsimp only at hearly'
        rw [hc']
        refine ⟨fun _ => rfl, fun hbefore => ?_⟩
        have := hlower (r - 1)
        omega
    · rw [hc] at hrefused
      have hr := congrArg (fun x => x.1) hrefused
      cases hr

/-- A request that does not fit is refused for ever. -/
theorem fits_of_honest {tokens : Nat} (h : Honest limit tokens) : Fits limit tokens := by
  by_contra hnot
  have hrate : limit.replenishRate ≠ 0 := by
    intro hzero
    refine hnot ?_
    simp [Fits, Limit.t, hzero]
  unfold Fits at hnot
  have hnever : ∀ now key, ∃ r, checkLimit true key ⟨limit, now, tokens⟩ =
      (.ok ⟨false, r⟩, live true now key) := by
    intro now key
    have hnow := le_arrival true now key
    rcases checkLimit_cases ⟨limit, now, tokens⟩ hrate true key with
      ⟨-, hc⟩ | ⟨hearly, -⟩
    · exact ⟨_, hc⟩
    · dsimp only at hearly
      omega
  obtain ⟨r, hr⟩ := hnever 0 none
  have hback := (h [] 0 _ r (by simp [Ordered]) hr (1000 * r) (Nat.zero_le _)).1 (by omega)
  obtain ⟨r', hr'⟩ := hnever (1000 * r) (live true 0 none)
  rw [hr'] at hback
  cases hback

end JustApi.Core.RateLimit
