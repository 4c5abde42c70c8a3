import Mathlib.Data.List.Basic

/-! # Computations that may fail

What a successful `Except` computation says about its parts, and the rules for a
fold whose steps may fail: `trail` lists the calls such a fold makes, the failing
one included. -/
namespace JustApi.Lib.Result

universe u v

variable {ε : Type u} {α β σ : Type v}

theorem map_eq_ok {x : Except ε α} {f : α → β} {b : β} :
    x.map f = .ok b ↔ ∃ a, x = .ok a ∧ f a = b := by
  cases x with
  | error e => simp [Except.map]
  | ok a => simp [Except.map]

theorem mapError_eq_ok {ε' : Type u} {x : Except ε α} {f : ε → ε'} {a : α} :
    x.mapError f = .ok a ↔ x = .ok a := by
  cases x with
  | error e => simp [Except.mapError]
  | ok a => simp [Except.mapError]

theorem bind_eq_ok {x : Except ε α} {f : α → Except ε β} {b : β} :
    (x >>= f) = .ok b ↔ ∃ a, x = .ok a ∧ f a = .ok b := by
  cases x with
  | error e => simp [bind, Except.bind]
  | ok a => simp [bind, Except.bind]

theorem ok_bind {a : α} {f : α → Except ε β} : ((.ok a : Except ε α) >>= f) = f a := rfl

theorem foldlM_cons {f : σ → α → Except ε σ} {s : σ} {a : α} {as : List α} :
    (a :: as).foldlM f s = (f s a >>= fun t => as.foldlM f t) := rfl

theorem mapM_succeeds {f : α → Except ε β} {as : List α} (h : ∀ a ∈ as, ∃ b, f a = .ok b) :
    ∃ bs, as.mapM f = .ok bs := by
  induction as with
  | nil => exact ⟨[], rfl⟩
  | cons a rest ih =>
    obtain ⟨b, hb⟩ := h a List.mem_cons_self
    obtain ⟨bs, hbs⟩ := ih fun c hc => h c (List.mem_cons_of_mem _ hc)
    exact ⟨b :: bs, by rw [List.mapM_cons, hb, ok_bind, hbs]; rfl⟩

/-- What every successful step of a fold keeps, the fold keeps. -/
theorem foldlM_invariant {f : σ → α → Except ε σ} {I : σ → Prop} {as : List α} {s t : σ}
    (hstep : ∀ s a t, I s → f s a = .ok t → I t) (hs : I s) (h : as.foldlM f s = .ok t) : I t := by
  induction as generalizing s with
  | nil => cases h; exact hs
  | cons a rest ih =>
    obtain ⟨u, hu, h⟩ := bind_eq_ok.mp h
    exact ih (hstep s a u hs hu) h

/-- A fold whose steps succeed and keep an invariant succeeds and keeps it. -/
theorem foldlM_preserves {f : σ → α → Except ε σ} {I : σ → Prop} {as : List α} {s : σ}
    (hstep : ∀ s, ∀ a ∈ as, I s → ∃ t, f s a = .ok t ∧ I t) (hs : I s) :
    ∃ t, as.foldlM f s = .ok t ∧ I t := by
  induction as generalizing s with
  | nil => exact ⟨s, rfl, hs⟩
  | cons a rest ih =>
    obtain ⟨u, hu, hI⟩ := hstep s a List.mem_cons_self hs
    obtain ⟨t, ht, hI'⟩ := ih (fun s b hb => hstep s b (List.mem_cons_of_mem _ hb)) hI
    exact ⟨t, by rw [foldlM_cons, hu]; exact ht, hI'⟩

/-- The calls a fold makes, each with the state it is made in, up to the first
that fails. -/
def trail (f : σ → α → Except ε σ) : σ → List α → List (σ × α)
  | _, [] => []
  | s, a :: rest =>
    (s, a) :: match f s a with
      | .ok t => trail f t rest
      | .error _ => []

theorem trail_cons_ok {f : σ → α → Except ε σ} {s t : σ} {a : α} {rest : List α}
    (h : f s a = .ok t) : trail f s (a :: rest) = (s, a) :: trail f t rest := by
  simp [trail, h]

theorem mem_of_mem_trail {f : σ → α → Except ε σ} {s : σ} {as : List α} {x : σ × α}
    (h : x ∈ trail f s as) : x.2 ∈ as := by
  induction as generalizing s with
  | nil => cases h
  | cons a rest ih =>
    rcases List.mem_cons.mp h with rfl | h
    · exact List.mem_cons_self
    · split at h
      · exact List.mem_cons_of_mem _ (ih h)
      · cases h

/-- What every call that meets `C` keeps holds wherever a call is made, when all of
them meet `C`. -/
theorem trail_invariant {f : σ → α → Except ε σ} {I : σ → Prop} {C : σ → α → Prop} {as : List α}
    {s : σ} (hstep : ∀ s a t, I s → C s a → f s a = .ok t → I t) (hs : I s)
    (hc : ∀ x ∈ trail f s as, C x.1 x.2) : ∀ x ∈ trail f s as, I x.1 := by
  induction as generalizing s with
  | nil => exact fun _ hx => nomatch hx
  | cons a rest ih =>
    have ha := hc (s, a) List.mem_cons_self
    cases hf : f s a with
    | error e => simpa [trail, hf] using hs
    | ok t =>
      rw [trail_cons_ok hf] at hc ⊢
      intro x hx
      rcases List.mem_cons.mp hx with rfl | hx
      · exact hs
      · exact ih (hstep s a t hs ha hf) (fun y hy => hc y (List.mem_cons_of_mem _ hy)) x hx

/-- A fold all of whose calls meet `C` succeeds, when a call that meets `C` does
and hands the invariant on to the rest of the list. -/
theorem foldlM_succeeds {f : σ → α → Except ε σ} {I : List α → σ → Prop} {C : σ → α → Prop}
    {as : List α} {s : σ}
    (hstep : ∀ s a rest, I (a :: rest) s → C s a → ∃ t, f s a = .ok t ∧ I rest t)
    (hs : I as s) (hc : ∀ x ∈ trail f s as, C x.1 x.2) :
    ∃ t, as.foldlM f s = .ok t ∧ I [] t := by
  induction as generalizing s with
  | nil => exact ⟨s, rfl, hs⟩
  | cons a rest ih =>
    obtain ⟨t, ht, hi⟩ := hstep s a rest hs (hc (s, a) List.mem_cons_self)
    rw [trail_cons_ok ht] at hc
    rw [foldlM_cons, ht]
    exact ih hi fun x hx => hc x (List.mem_cons_of_mem _ hx)

end JustApi.Lib.Result
