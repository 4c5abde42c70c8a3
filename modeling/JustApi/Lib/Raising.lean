import Mathlib.Data.List.Basic

/-! # Stateful computations that may raise

A computation of `EStateM` ends with a result or an error, and in a state either way.
`Ends` says what holds of either end; its rules follow the parts of a computation. -/
namespace JustApi.Lib.Raising

universe u

variable {ε σ α β : Type u}

/-- A result and its state meet `Q`, an error and its state meet `R`. -/
def Ends (Q : α → σ → Prop) (R : ε → σ → Prop) : EStateM.Result ε σ α → Prop
  | .ok a s => Q a s
  | .error e s => R e s

theorem Ends.mono {Q Q' : α → σ → Prop} {R R' : ε → σ → Prop} {x : EStateM.Result ε σ α}
    (h : Ends Q R x) (hq : ∀ a s, Q a s → Q' a s) (hr : ∀ e s, R e s → R' e s) :
    Ends Q' R' x := by
  cases x with
  | ok a s => exact hq a s h
  | error e s => exact hr e s h

theorem Ends.and {Q Q' : α → σ → Prop} {R R' : ε → σ → Prop} {x : EStateM.Result ε σ α}
    (h : Ends Q R x) (h' : Ends Q' R' x) :
    Ends (fun a s => Q a s ∧ Q' a s) (fun e s => R e s ∧ R' e s) x := by
  cases x with
  | ok a s => exact ⟨h, h'⟩
  | error e s => exact ⟨h, h'⟩

@[simp] theorem ends_pure {Q : α → σ → Prop} {R : ε → σ → Prop} (a : α) (s : σ) :
    Ends Q R ((pure a : EStateM ε σ α) s) ↔ Q a s := Iff.rfl

@[simp] theorem ends_throw {Q : α → σ → Prop} {R : ε → σ → Prop} (e : ε) (s : σ) :
    Ends Q R ((throw e : EStateM ε σ α) s) ↔ R e s := Iff.rfl

@[simp] theorem ends_get {Q : σ → σ → Prop} {R : ε → σ → Prop} (s : σ) :
    Ends Q R ((get : EStateM ε σ σ) s) ↔ Q s s := Iff.rfl

@[simp] theorem ends_modify {Q : PUnit → σ → Prop} {R : ε → σ → Prop} (f : σ → σ) (s : σ) :
    Ends Q R ((modify f : EStateM ε σ PUnit) s) ↔ Q ⟨⟩ (f s) := Iff.rfl

@[simp] theorem ends_bind {Q : β → σ → Prop} {R : ε → σ → Prop} (x : EStateM ε σ α)
    (f : α → EStateM ε σ β) (s : σ) :
    Ends Q R ((x >>= f) s) ↔ Ends (fun a t => Ends Q R (f a t)) R (x s) := by
  show Ends Q R (EStateM.bind x f s) ↔ _
  unfold EStateM.bind
  cases x s with
  | ok a t => exact Iff.rfl
  | error e t => exact Iff.rfl

@[simp] theorem ends_map {Q : β → σ → Prop} {R : ε → σ → Prop} (f : α → β) (x : EStateM ε σ α)
    (s : σ) : Ends Q R ((f <$> x) s) ↔ Ends (fun a t => Q (f a) t) R (x s) := by
  show Ends Q R (EStateM.map f x s) ↔ _
  unfold EStateM.map
  cases x s with
  | ok a t => exact Iff.rfl
  | error e t => exact Iff.rfl

/-- An error is handled in the state it is raised in. -/
theorem ends_tryCatch {Q : α → σ → Prop} {R : ε → σ → Prop} (x : EStateM ε σ α)
    (handle : ε → EStateM ε σ α) (s : σ) :
    Ends Q R ((tryCatch x handle : EStateM ε σ α) s) ↔
      Ends Q (fun e t => Ends Q R (handle e t)) (x s) := by
  show Ends Q R (EStateM.tryCatch x handle s) ↔ _
  unfold EStateM.tryCatch
  cases x s with
  | ok a t => exact Iff.rfl
  | error e t => exact Iff.rfl

/-- What is done in the end is done after a result and after an error. -/
theorem ends_tryFinally {Q : α → σ → Prop} {R : ε → σ → Prop} (x : EStateM ε σ α)
    (finish : EStateM ε σ β) (s : σ) :
    Ends Q R ((tryFinally x finish : EStateM ε σ α) s) ↔
      Ends (fun a t => Ends (fun _ u => Q a u) R (finish t))
        (fun e t => Ends (fun _ u => R e u) R (finish t)) (x s) := by
  show Ends Q R (EStateM.map Prod.fst _ s) ↔ _
  unfold EStateM.map tryFinally' EStateM.instMonadFinally
  dsimp only
  cases x s with
  | ok a t =>
    dsimp only [Ends]
    cases finish t with
    | ok b u => exact Iff.rfl
    | error e u => exact Iff.rfl
  | error e t =>
    dsimp only [Ends]
    cases finish t with
    | ok b u => exact Iff.rfl
    | error e u => exact Iff.rfl

/-- A list is gone through; `I` relates what is done to the results so far. -/
theorem ends_mapM (I : List α → List β → σ → Prop) {R : ε → σ → Prop} {f : α → EStateM ε σ β}
    {rest : List α} (done : List α) (results : List β) {s : σ} (hs : I done results s)
    (hstep : ∀ done a results s, a ∈ rest → I done results s →
      Ends (fun b t => I (done ++ [a]) (results ++ [b]) t) R (f a s)) :
    Ends (fun bs t => I (done ++ rest) (results ++ bs) t) R ((rest.mapM f) s) := by
  induction rest generalizing done results s with
  | nil =>
    rw [List.mapM_nil, ends_pure, List.append_nil, List.append_nil]
    exact hs
  | cons a rest ih =>
    rw [List.mapM_cons, ends_bind]
    refine (hstep done a results s List.mem_cons_self hs).mono (fun b t ht => ?_) fun _ _ h => h
    rw [ends_bind]
    refine (ih (done ++ [a]) (results ++ [b]) ht fun done c results u hc => hstep done c results u
      (List.mem_cons_of_mem a hc)).mono (fun bs u hu => ?_) fun _ _ h => h
    rw [ends_pure]
    rw [List.append_assoc, List.append_assoc] at hu
    exact hu

/-- A list is gone through; `I` holds of what is done. -/
theorem ends_forM (I : List α → σ → Prop) {R : ε → σ → Prop}
    {f : α → EStateM ε σ PUnit} {rest : List α} (done : List α) {s : σ} (hs : I done s)
    (hstep : ∀ done a s, a ∈ rest → I done s → Ends (fun _ t => I (done ++ [a]) t) R (f a s)) :
    Ends (fun _ t => I (done ++ rest) t) R ((forM rest f : EStateM ε σ PUnit) s) := by
  induction rest generalizing done s with
  | nil =>
    rw [List.forM_nil, ends_pure, List.append_nil]
    exact hs
  | cons a rest ih =>
    rw [List.forM_cons, ends_bind]
    refine (hstep done a s List.mem_cons_self hs).mono (fun b t ht => ?_) fun _ _ h => h
    refine (ih (done ++ [a]) ht fun done c u hc => hstep done c u
      (List.mem_cons_of_mem a hc)).mono (fun bs u hu => ?_) fun _ _ h => h
    rw [List.append_assoc] at hu
    exact hu

/-! ## Computations that never raise -/

def Succeeds (x : EStateM ε σ α) : Prop := ∀ s, Ends (fun _ _ => True) (fun _ _ => False) (x s)

theorem succeeds_pure (a : α) : Succeeds (pure a : EStateM ε σ α) := fun _ => trivial

theorem succeeds_get : Succeeds (get : EStateM ε σ σ) := fun _ => trivial

theorem succeeds_modify (f : σ → σ) : Succeeds (modify f : EStateM ε σ PUnit) := fun _ => trivial

theorem Succeeds.bind {x : EStateM ε σ α} {f : α → EStateM ε σ β} (hx : Succeeds x)
    (hf : ∀ a, Succeeds (f a)) : Succeeds (x >>= f) := by
  intro s
  rw [ends_bind]
  exact (hx s).mono (fun a t _ => hf a t) fun _ _ h => h

theorem Succeeds.mapM {f : α → EStateM ε σ β} {as : List α} (h : ∀ a ∈ as, Succeeds (f a)) :
    Succeeds (as.mapM f) := fun _ =>
  ends_mapM (fun _ _ _ => True) [] [] trivial fun _ a _ s ha _ => h a ha s

theorem Succeeds.forM {f : α → EStateM ε σ PUnit} {as : List α} (h : ∀ a ∈ as, Succeeds (f a)) :
    Succeeds (forM as f) := fun _ =>
  ends_forM (fun _ _ => True) [] trivial fun _ a s ha _ => h a ha s

end JustApi.Lib.Raising
