import JustApi.Core.RouteBreakers

/-! # Isolation of routes

The breaker of a path keeps its requests out until its timeout is over, as long as it is
not thrown out of the map for another path before that. -/
namespace JustApi.Core.RouteBreakers
open JustApi.Lib.Run JustApi.Core.Breaker

variable {config : CircuitBreakerConfig} {w w' : World} {event : Event}

/-! ## What is asked of a step -/

/-- The breaker of the path has opened, and its timeout is not over yet. -/
def World.OpenWithin (config : CircuitBreakerConfig) (w : World) (path : String) : Prop :=
  ∃ t, w.opened path = some t ∧ w.now < t + config.openTimeout

/-- A request to a path whose breaker has opened is refused when it asks before the
timeout is over, and its handler is not run. -/
def Rejects (config : CircuitBreakerConfig) (w : World) (event : Event) (w' : World) : Prop :=
  ∀ i request, event = .act i .acquire → w.requests[i]? = some request →
    w.OpenWithin config request.path →
    w'.requests[i]? = some { request with phase := .refused circuitOpenResponse }

/-- The breaker is open, and its timeout is not over yet. -/
def Shut (config : CircuitBreakerConfig) (now : Nat) (breaker : BreakerInner) : Prop :=
  ∃ t, breaker.state = .opened t ∧ now < t + config.openTimeout

/-- A full map does not lose a breaker that keeps requests out; and when the breaker of a
path opens, no request to the path is about to ask an older one. -/
def Spares (config : CircuitBreakerConfig) (w : World) : Event → Prop
  | .tick _ => True
  | .arrive path first =>
    w.breakers.lookup path = none → maxPerRouteBreakers ≤ w.breakers.length →
      ∀ breaker, w.breakers.lookup first = some breaker → ¬ Shut config w.now (w.heap breaker)
  | .act i .record =>
    ∀ request outcome, w.requests[i]? = some request → request.phase = .handled outcome →
      w.opensRoute config request outcome = true →
      ∀ r ∈ w.requests, r.path = request.path → r.phase = .asking → r.breaker = request.breaker
  | .act _ _ => True

/-! ## What every state keeps -/

/-- While a path is shut, the map and the requests that have not asked yet have the
breaker that shuts it. -/
structure Guarded (config : CircuitBreakerConfig) (w : World) : Prop where
  made : ∀ path breaker, w.breakers.lookup path = some breaker → breaker < w.next
  past : ∀ path t, w.opened path = some t → t ≤ w.now
  shut : ∀ path t, w.opened path = some t → w.now < t + config.openTimeout →
    ∃ breaker, w.breakers.lookup path = some breaker ∧ (w.heap breaker).state = .opened t ∧
      ∀ r ∈ w.requests, r.path = path → r.phase = .asking → r.breaker = breaker

theorem Guarded.new (config : CircuitBreakerConfig) : Guarded config (.new config) where
  made path breaker h := by cases h
  past path t h := by cases h
  shut path t h := by cases h

theorem tryAcquire_shut {b : BreakerInner} {t now : Nat} (h : b.state = .opened t)
    (hpast : t ≤ now) (hnow : now < t + config.openTimeout) :
    b.tryAcquire config now = (false, b) := by
  have hlate : ¬ config.openTimeout ≤ now - t := by omega
  simp [BreakerInner.tryAcquire, h, hlate]

theorem recordFailure_opened {b : BreakerInner} {t now : Nat} (h : b.state = .opened t) :
    b.recordFailure config now = b := by
  simp [BreakerInner.recordFailure, h]

theorem recordSuccess_opened {b : BreakerInner} {t : Nat} (h : b.state = .opened t) :
    b.recordSuccess config = b := by
  simp [BreakerInner.recordSuccess, h]

theorem judged_opened {request : Request} {outcome : Except String Http.Response} {t : Nat}
    (h : (w.heap request.breaker).state = .opened t) :
    w.judged config request outcome = w.heap request.breaker := by
  unfold World.judged
  split
  · exact recordFailure_opened h
  · exact recordSuccess_opened h

/-- A breaker opens at the time of the failure. -/
theorem state_of_opens {request : Request} {outcome : Except String Http.Response}
    (h : opens (w.heap request.breaker) (w.judged config request outcome) = true) :
    (w.judged config request outcome).state = .opened w.now := by
  unfold World.judged at h ⊢
  split
  · rename_i hfail
    rw [if_pos hfail] at h
    unfold BreakerInner.recordFailure at h ⊢
    split <;> rename_i hstate
    · split
      · rfl
      · rename_i hfew
        simp [hstate, hfew, opens] at h
    · rfl
    · simp [hstate, opens] at h
  · rename_i hfail
    rw [if_neg hfail] at h
    unfold BreakerInner.recordSuccess at h
    split at h <;> rename_i hstate
    · split at h <;> simp [hstate, opens] at h
    · simp [hstate, opens] at h
    · simp [hstate, opens] at h

theorem lookup_filter_ne {breakers : List (String × Nat)} {path first : String}
    (h : path ≠ first) :
    (breakers.filter fun entry => entry.1 ≠ first).lookup path = breakers.lookup path := by
  induction breakers with
  | nil => rfl
  | cons entry rest ih =>
    obtain ⟨key, breaker⟩ := entry
    by_cases hkey : key = first
    · subst hkey
      rw [List.filter_cons_of_neg (by simp), ih, List.lookup_cons, beq_eq_false_iff_ne.mpr h]
    · rw [List.filter_cons_of_pos (by simpa using hkey), List.lookup_cons, List.lookup_cons, ih]

/-! ## What a step can do -/

/-- The steps, each with its guard. -/
inductive Move (config : CircuitBreakerConfig) (w : World) : Event → World → Prop
  | tick (elapsed : Nat) : Move config w (.tick elapsed) { w with now := w.now + elapsed }
  | hit {path first : String} {breaker : Nat} : w.breakers.lookup path = some breaker →
      Move config w (.arrive path first)
        { w with requests := w.requests ++ [⟨path, breaker, .asking⟩] }
  | miss {path first : String} (breakers : List (String × Nat)) :
      w.breakers.lookup path = none →
      (∀ key, breakers.lookup key = w.breakers.lookup key ∨
        key = first ∧ maxPerRouteBreakers ≤ w.breakers.length ∧ breakers.lookup key = none) →
      Move config w (.arrive path first)
        { w.insertBreaker config breakers path with
          requests := w.requests ++ [⟨path, w.next, .asking⟩] }
  | acquire {i : Nat} {request : Request} {breaker : BreakerInner} (phase : Phase) :
      w.requests[i]? = some request → request.phase = .asking → phase ≠ .asking →
      ((w.heap request.breaker).tryAcquire config w.now).2 = breaker →
      (((w.heap request.breaker).tryAcquire config w.now).1 = false →
        phase = .refused circuitOpenResponse) →
      Move config w (.act i .acquire)
        { w with
          heap := Function.update w.heap request.breaker breaker
          requests := w.requests.set i { request with phase } }
  | record {i : Nat} {request : Request} {outcome : Except String Http.Response} :
      w.requests[i]? = some request → request.phase = .handled outcome →
      Move config w (.act i .record)
        { w with
          heap := Function.update w.heap request.breaker (w.judged config request outcome)
          requests := w.requests.set i { request with phase := .gone }
          opened :=
            if w.opensRoute config request outcome then
              Function.update w.opened request.path (some w.now)
            else w.opened }
  | pass {i : Nat} {request : Request} {action : Action} (phase : Phase) :
      w.requests[i]? = some request → phase ≠ .asking → action ≠ .acquire →
      Move config w (.act i action) (w.setRequest i { request with phase })

theorem lookup_filter_self (breakers : List (String × Nat)) (first : String) :
    (breakers.filter fun entry => entry.1 ≠ first).lookup first = none := by
  rw [List.lookup_eq_none_iff]
  intro entry hmem
  have hne := of_decide_eq_true (List.mem_filter.mp hmem).2
  exact bne_iff_ne.mpr hne.symm

theorem arrive_move {path first : String} (h : Step config w (.arrive path first) w') :
    Move config w (.arrive path first) w' := by
  simp only [Step, exec, World.getBreaker] at h
  cases hlookup : w.breakers.lookup path with
  | some breaker =>
    simp only [hlookup] at h
    cases h
    exact .hit hlookup
  | none =>
    simp only [hlookup] at h
    by_cases hfull : maxPerRouteBreakers ≤ w.breakers.length
    · rw [if_pos hfull] at h
      split at h
      · rename_i hget
        split at hget
        · cases hget
          cases h
          refine .miss _ hlookup fun key => ?_
          by_cases hkey : key = first
          · exact .inr ⟨hkey, hfull, hkey ▸ lookup_filter_self _ _⟩
          · exact .inl (lookup_filter_ne hkey)
        · cases hget
      · cases h
    · rw [if_neg hfull] at h
      cases h
      exact .miss _ hlookup fun key => .inl rfl

/-- What a step can do. -/
theorem Step.move (h : Step config w event w') : Move config w event w' := by
  match event with
  | .tick elapsed =>
    cases h
    exact .tick elapsed
  | .arrive path first => exact arrive_move h
  | .act i action =>
    simp only [Step, exec] at h
    cases hget : w.requests[i]? with
    | none =>
      rw [hget] at h
      cases h
    | some request =>
      rw [hget] at h
      dsimp only at h
      unfold advance at h
      split at h
      · rename_i hphase
        split at h
        · rename_i hask
          cases h
          exact .acquire .handling hget hphase (by simp) (by rw [hask]) (by rw [hask]; simp)
        · rename_i hask
          cases h
          exact .acquire _ hget hphase (by simp) (by rw [hask]) (fun _ => rfl)
      · cases h
        exact .pass _ hget (by simp) (by simp)
      · rename_i hphase
        cases h
        exact .record hget hphase
      · cases h
        exact .pass _ hget (by simp) (by simp)
      · cases h
        exact .pass _ hget (by simp) (by simp)
      · cases h
        exact .pass _ hget (by simp) (by simp)
      · cases h

/-! ## Each step keeps it -/

theorem Guarded.hit (h : Guarded config w) {path : String} {breaker : Nat}
    (hlookup : w.breakers.lookup path = some breaker) :
    Guarded config { w with requests := w.requests ++ [⟨path, breaker, .asking⟩] } where
  made := h.made
  past := h.past
  shut key t ht hnow := by
    obtain ⟨b, hb, hstate, hasking⟩ := h.shut key t ht hnow
    refine ⟨b, hb, hstate, fun r hr hpath hphase => ?_⟩
    rcases List.mem_append.mp hr with hr | hr
    · exact hasking r hr hpath hphase
    · rw [List.mem_singleton.mp hr] at hpath ⊢
      dsimp only at hpath
      rw [hpath, hb] at hlookup
      exact (Option.some.inj hlookup).symm

theorem Guarded.miss (h : Guarded config w) {path first : String}
    {breakers : List (String × Nat)} (hlookup : w.breakers.lookup path = none)
    (hbreakers : ∀ key, breakers.lookup key = w.breakers.lookup key ∨
      key = first ∧ maxPerRouteBreakers ≤ w.breakers.length ∧ breakers.lookup key = none)
    (hspares : Spares config w (.arrive path first)) :
    Guarded config { w.insertBreaker config breakers path with
      requests := w.requests ++ [⟨path, w.next, .asking⟩] } where
  made key breaker hkey := by
    simp only [World.insertBreaker, List.lookup_cons] at hkey
    split at hkey
    · cases hkey
      exact Nat.lt_succ_self _
    · rcases hbreakers key with hsame | ⟨-, -, hnone⟩
      · exact Nat.lt_succ_of_lt (h.made key breaker (hsame ▸ hkey))
      · rw [hnone] at hkey
        cases hkey
  past := h.past
  shut key t ht hnow := by
    obtain ⟨b, hb, hstate, hasking⟩ := h.shut key t ht hnow
    have hkey : key ≠ path := by
      rintro rfl
      rw [hlookup] at hb
      cases hb
    have hkept : breakers.lookup key = some b := by
      rcases hbreakers key with hsame | ⟨rfl, hfull, -⟩
      · rw [hsame, hb]
      · exact absurd ⟨t, hstate, hnow⟩ (hspares hlookup hfull b hb)
    have hne : b ≠ w.next := Nat.ne_of_lt (h.made key b hb)
    refine ⟨b, ?_, ?_, fun r hr hpath hphase => ?_⟩
    · simp only [World.insertBreaker, List.lookup_cons, beq_eq_false_iff_ne.mpr hkey, hkept]
    · simp only [World.insertBreaker, Function.update_of_ne hne, hstate]
    · rcases List.mem_append.mp hr with hr | hr
      · exact hasking r hr hpath hphase
      · rw [List.mem_singleton.mp hr] at hpath
        exact absurd hpath.symm hkey

/-- A request has moved on, and no breaker that keeps requests out has changed. -/
theorem Guarded.moveOn (h : Guarded config w) {i : Nat} {request : Request} {phase : Phase}
    (hphase : phase ≠ .asking)
    {heap : Nat → BreakerInner} {opened : String → Option Nat}
    (hheap : ∀ b t, (w.heap b).state = .opened t → t ≤ w.now → w.now < t + config.openTimeout →
      (heap b).state = .opened t)
    (hopened : ∀ path t, opened path = some t → w.opened path = some t ∨
      t = w.now ∧ ∃ breaker, w.breakers.lookup path = some breaker ∧
        (heap breaker).state = .opened t ∧
        ∀ r ∈ w.requests, r.path = path → r.phase = .asking → r.breaker = breaker) :
    Guarded config
      { w with heap, opened, requests := w.requests.set i { request with phase } } where
  made := h.made
  past path t ht := by
    rcases hopened path t ht with hold | ⟨rfl, -⟩
    · exact h.past path t hold
    · exact Nat.le_refl _
  shut path t ht hnow := by
    have hshut : ∃ breaker, w.breakers.lookup path = some breaker ∧
        (heap breaker).state = .opened t ∧
        ∀ r ∈ w.requests, r.path = path → r.phase = .asking → r.breaker = breaker := by
      rcases hopened path t ht with hold | ⟨rfl, hnew⟩
      · obtain ⟨b, hb, hstate, hasking⟩ := h.shut path t hold hnow
        exact ⟨b, hb, hheap b t hstate (h.past path t hold) hnow, hasking⟩
      · exact hnew
    obtain ⟨b, hb, hstate, hasking⟩ := hshut
    refine ⟨b, hb, hstate, fun r hr hpath hask => ?_⟩
    rcases List.mem_or_eq_of_mem_set hr with hr | rfl
    · exact hasking r hr hpath hask
    · exact absurd hask hphase

theorem Guarded.record (h : Guarded config w) {i : Nat} {request : Request}
    {outcome : Except String Http.Response} (hget : w.requests[i]? = some request)
    (hphase : request.phase = .handled outcome) (hspares : Spares config w (.act i .record)) :
    Guarded config
      { w with
        heap := Function.update w.heap request.breaker (w.judged config request outcome)
        requests := w.requests.set i { request with phase := .gone }
        opened :=
          if w.opensRoute config request outcome then
            Function.update w.opened request.path (some w.now)
          else w.opened } := by
  refine h.moveOn (by simp) (fun b t hstate _ _ => ?_) fun path t ht => ?_
  · by_cases hb : b = request.breaker
    · subst hb
      rw [Function.update_self, judged_opened hstate, hstate]
    · rw [Function.update_of_ne hb, hstate]
  · by_cases hopens : w.opensRoute config request outcome = true
    · rw [if_pos hopens] at ht
      by_cases hpath : path = request.path
      · subst hpath
        rw [Function.update_self] at ht
        cases ht
        obtain ⟨hlookup, hstate⟩ := of_decide_eq_true hopens
        refine .inr ⟨rfl, request.breaker, hlookup, ?_, fun r hr hpath hask => ?_⟩
        · rw [Function.update_self, state_of_opens hstate]
        · exact hspares request outcome hget hphase hopens r hr hpath hask
      · rw [Function.update_of_ne hpath] at ht
        exact .inl ht
    · rw [if_neg hopens] at ht
      exact .inl ht

theorem Guarded.move (h : Guarded config w) (hm : Move config w event w')
    (hspares : Spares config w event) : Guarded config w' := by
  cases hm with
  | tick elapsed =>
    refine ⟨h.made, fun path t ht => ?_, fun path t ht hnow => ?_⟩
    · exact Nat.le_add_right_of_le (h.past path t ht)
    · exact h.shut path t ht (Nat.lt_of_le_of_lt (Nat.le_add_right _ _) hnow)
  | hit hlookup => exact h.hit hlookup
  | miss breakers hlookup hbreakers => exact h.miss hlookup hbreakers hspares
  | @acquire i request breaker phase hget hphase hne hask hrefused =>
    refine h.moveOn hne (fun b t hstate hpast hnow => ?_) fun _ _ ht => .inl ht
    by_cases hb : b = request.breaker
    · subst hb
      rw [Function.update_self, ← hask, tryAcquire_shut hstate hpast hnow, hstate]
    · rw [Function.update_of_ne hb, hstate]
  | record hget hphase => exact h.record hget hphase hspares
  | pass phase hget hne =>
    exact h.moveOn hne (fun _ _ hstate _ _ => hstate) fun _ _ ht => .inl ht

/-- A request asks the breaker that keeps its path shut. -/
theorem Guarded.rejects (h : Guarded config w) (hm : Move config w event w') :
    Rejects config w event w' := by
  rintro i request rfl hget ⟨t, ht, hnow⟩
  obtain ⟨b, -, hstate, hasking⟩ := h.shut request.path t ht hnow
  have hpast := h.past request.path t ht
  cases hm with
  | @acquire _ request' breaker phase hget' hphase hne hask hrefused =>
    rw [hget] at hget'
    cases hget'
    have hb := hasking request (List.mem_of_getElem? hget) rfl hphase
    subst hb
    rw [tryAcquire_shut hstate hpast hnow] at hrefused
    rw [hrefused rfl]
    exact List.getElem?_set_self (List.getElem?_eq_some_iff.mp hget).1
  | pass phase hget' hne hacquire => exact absurd rfl hacquire

/-- One failure opens a breaker, for a second. -/
def strict : CircuitBreakerConfig := ⟨1, 1, 1000, 1⟩

def opensAndRefuses : List Event :=
  [.arrive "/pay" "", .act 0 .acquire, .act 0 (.finish (.error "down")), .act 0 .record,
    .tick 500, .arrive "/pay" "", .act 1 .acquire]

/-! ## What a full map loses -/

theorem mem_keys_of_lookup {breakers : List (String × Nat)} {key : String} {breaker : Nat}
    (h : breakers.lookup key = some breaker) : key ∈ breakers.map Prod.fst := by
  obtain ⟨before, after, rfl, -⟩ := List.lookup_eq_some_iff.mp h
  simp

/-- A request to a path that is not in the map is given a new breaker. -/
theorem arrive_new (config : CircuitBreakerConfig) {path : String} (first : String)
    (hnone : w.breakers.lookup path = none)
    (hfirst : maxPerRouteBreakers ≤ w.breakers.length → first ∈ w.breakers.map Prod.fst) :
    ∃ breakers, Step config w (.arrive path first)
        { w.insertBreaker config breakers path with
          requests := w.requests ++ [⟨path, w.next, .asking⟩] } ∧
      (w.breakers.length < maxPerRouteBreakers → breakers = w.breakers) ∧
      (maxPerRouteBreakers ≤ w.breakers.length →
        breakers = w.breakers.filter fun entry => entry.1 ≠ first) := by
  by_cases hfull : maxPerRouteBreakers ≤ w.breakers.length
  · refine ⟨w.breakers.filter fun entry => entry.1 ≠ first, ?_, fun h => by omega, fun _ => rfl⟩
    simp only [Step, exec, World.getBreaker, hnone, if_pos hfull, if_pos (hfirst hfull)]
    rfl
  · refine ⟨w.breakers, ?_, fun _ => rfl, fun h => absurd h hfull⟩
    simp only [Step, exec, World.getBreaker, hnone, if_neg hfull]
    rfl

/-- A request that is the first one of its path from the start of its breaker on is let
through. -/
theorem new_breaker_admits {path first : String} (hnone : w.breakers.lookup path = none)
    (hfirst : maxPerRouteBreakers ≤ w.breakers.length → first ∈ w.breakers.map Prod.fst)
    (hopen : w.OpenWithin config path) :
    ∃ w₁ event w₂, Leads (Step config) w w₁ ∧ Step config w₁ event w₂ ∧
      ¬ Rejects config w₁ event w₂ := by
  obtain ⟨breakers, harrive, -⟩ := arrive_new config first hnone hfirst
  generalize hw₁ : ({ w.insertBreaker config breakers path with
    requests := w.requests ++ [⟨path, w.next, .asking⟩] } : World) = w₁ at harrive
  have hget : w₁.requests[w.requests.length]? = some ⟨path, w.next, .asking⟩ := by
    rw [← hw₁]
    exact List.getElem?_concat_length
  have hadmit : (w₁.heap w.next).tryAcquire config w₁.now = (true, .new config) := by
    rw [← hw₁]
    simp only [World.insertBreaker, Function.update_self]
    rfl
  have hask : Step config w₁ (.act w.requests.length .acquire)
      { w₁ with
        heap := Function.update w₁.heap w.next (.new config)
        requests := w₁.requests.set w.requests.length ⟨path, w.next, .handling⟩ } := by
    simp only [Step, exec, hget, advance, hadmit]
  refine ⟨w₁, _, _, .single harrive, hask, fun hrejects => ?_⟩
  have hopen₁ : w₁.OpenWithin config path := by
    rw [← hw₁]
    exact hopen
  have hrefused := hrejects _ _ rfl hget hopen₁
  rw [List.getElem?_set_self (List.getElem?_eq_some_iff.mp hget).1] at hrefused
  cases hrefused

/-- A full map can lose any breaker to a new path, and then the next request is let
through. -/
theorem lost_breaker_admits {path other : String} {breaker : Nat}
    (hfull : maxPerRouteBreakers ≤ w.breakers.length)
    (hpath : w.breakers.lookup path = some breaker) (hother : w.breakers.lookup other = none)
    (hopen : w.OpenWithin config path) :
    ∃ w₁ event w₂, Leads (Step config) w w₁ ∧ Step config w₁ event w₂ ∧
      ¬ Rejects config w₁ event w₂ := by
  have hne : path ≠ other := by
    rintro rfl
    rw [hother] at hpath
    cases hpath
  obtain ⟨breakers, harrive, -, hlost⟩ :=
    arrive_new config path hother fun _ => mem_keys_of_lookup hpath
  have hbreakers := hlost hfull
  subst hbreakers
  generalize hw' : ({ w.insertBreaker config
      (w.breakers.filter fun entry => entry.1 ≠ path) other with
    requests := w.requests ++ [⟨other, w.next, .asking⟩] } : World) = w' at harrive
  have hgone : w'.breakers.lookup path = none := by
    rw [← hw']
    simp only [World.insertBreaker, List.lookup_cons, beq_eq_false_iff_ne.mpr hne]
    exact lookup_filter_self _ _
  have hfirst : maxPerRouteBreakers ≤ w'.breakers.length → other ∈ w'.breakers.map Prod.fst := by
    rw [← hw']
    exact fun _ => List.mem_cons_self
  have hopen' : w'.OpenWithin config path := by
    rw [← hw']
    exact hopen
  obtain ⟨w₁, event, w₂, hlead, hrest⟩ := new_breaker_admits hgone hfirst hopen'
  exact ⟨w₁, event, w₂, (Leads.single harrive).trans hlead, hrest⟩

/-! ## The map runs full -/

def filler (n : Nat) : String := String.ofList ('/' :: List.replicate n 'x')

theorem filler_injective {m n : Nat} (h : filler m = filler n) : m = n := by
  have hlength := congrArg List.length (String.ofList_injective h)
  simpa using hlength

theorem fill (config : CircuitBreakerConfig) (n : Nat)
    (hroom : w.breakers.length + n ≤ maxPerRouteBreakers)
    (hnew : ∀ i < n, w.breakers.lookup (filler i) = none) :
    ∃ w', Leads (Step config) w w' ∧ w'.breakers.length = w.breakers.length + n ∧
      w'.opened = w.opened ∧ w'.now = w.now ∧
      ∀ key, (∀ i < n, key ≠ filler i) → w'.breakers.lookup key = w.breakers.lookup key := by
  induction n generalizing w with
  | zero => exact ⟨w, .refl _ _, rfl, rfl, rfl, fun _ _ => rfl⟩
  | succ n ih =>
    have hlt : w.breakers.length < maxPerRouteBreakers := by omega
    obtain ⟨breakers, harrive, hsame, -⟩ := arrive_new config ""
      (hnew n (Nat.lt_succ_self n)) fun hfull => by omega
    have hbreakers := hsame hlt
    subst hbreakers
    generalize hw' : ({ w.insertBreaker config w.breakers (filler n) with
      requests := w.requests ++ [⟨filler n, w.next, .asking⟩] } : World) = w' at harrive
    have hlookup : ∀ key, key ≠ filler n → w'.breakers.lookup key = w.breakers.lookup key := by
      intro key hkey
      rw [← hw']
      simp only [World.insertBreaker, List.lookup_cons, beq_eq_false_iff_ne.mpr hkey]
    have hlength : w'.breakers.length = w.breakers.length + 1 := by
      rw [← hw']
      rfl
    obtain ⟨w'', hlead, hlength', hopened, hnow, hkeys⟩ := ih (w := w') (by omega) fun i hi => by
      rw [hlookup _ fun he => Nat.ne_of_lt hi (filler_injective he)]
      exact hnew i (Nat.lt_succ_of_lt hi)
    refine ⟨w'', (Leads.single harrive).trans hlead, by omega, ?_, ?_, fun key hkey => ?_⟩
    · rw [hopened, ← hw']
      rfl
    · rw [hnow, ← hw']
      rfl
    · rw [hkeys key fun i hi => hkey i (Nat.lt_succ_of_lt hi),
        hlookup key (hkey n (Nat.lt_succ_self n))]

theorem pay_ne_filler (n : Nat) : "/pay" ≠ filler n := by
  intro h
  have hlist : "/pay".toList = '/' :: List.replicate n 'x' := by
    rw [h, filler, String.toList_ofList]
  cases n with
  | zero => cases hlist
  | succ n => cases hlist

end JustApi.Core.RouteBreakers
