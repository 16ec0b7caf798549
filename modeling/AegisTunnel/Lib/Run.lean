import Mathlib.Tactic

/-! Computations that step a state and may give up on the way. The state they have reached is kept
    either way, so what a failed computation has consumed is gone for the next one. -/

/-- A computation on the state `σ` with a result in `α`, or none. -/
def Run (σ α : Type) : Type := σ → Option α × σ

namespace Run
variable {σ α β : Type}

instance : Monad (Run σ) where
  pure a := fun s => (some a, s)
  bind x f := fun s => match x s with
    | (none, s') => (none, s')
    | (some a, s') => f a s'

def fail : Run σ α := fun s => (none, s)

/-- Where `x` gives up, go on with `y` from the state that `x` has reached. -/
def orElse (x y : Run σ α) : Run σ α := fun s => match x s with
  | (some a, s') => (some a, s')
  | (none, s') => y s'

theorem pure_apply (a : α) (s : σ) : (pure a : Run σ α) s = (some a, s) := rfl

theorem bind_some {x : Run σ α} {f : α → Run σ β} {s s' : σ} {a : α} (h : x s = (some a, s')) :
    (x >>= f) s = f a s' := by
  show (match x s with | (none, s') => (none, s') | (some a, s') => f a s') = f a s'
  rw [h]

theorem bind_none {x : Run σ α} {f : α → Run σ β} {s s' : σ} (h : x s = (none, s')) :
    (x >>= f) s = (none, s') := by
  show (match x s with | (none, s') => (none, s') | (some a, s') => f a s') = (none, s')
  rw [h]

/-- What comes back from two computations comes back from each of them. -/
theorem bind_eq_some {x : Run σ α} {f : α → Run σ β} {s t : σ} {b : β} (h : (x >>= f) s = (some b, t)) :
    ∃ a s', x s = (some a, s') ∧ f a s' = (some b, t) := by
  cases hx : x s with
  | mk o s' =>
    cases o with
    | none =>
      rw [bind_none hx] at h
      cases h
    | some a =>
      rw [bind_some hx] at h
      exact ⟨a, s', rfl, h⟩

theorem orElse_some {x y : Run σ α} {s s' : σ} {a : α} (h : x s = (some a, s')) : x.orElse y s = (some a, s') := by
  unfold orElse
  rw [h]

theorem orElse_none {x y : Run σ α} {s s' : σ} (h : x s = (none, s')) : x.orElse y s = y s' := by
  unfold orElse
  rw [h]

/-- Run `x` on a part of the state. -/
def zoom {τ : Type} (get : σ → τ) (put : σ → τ → σ) (x : Run τ α) : Run σ α := fun s =>
  let r := x (get s)
  (r.1, put s r.2)

theorem zoom_eq {τ : Type} {get : σ → τ} {put : σ → τ → σ} {x : Run τ α} {s : σ} {o : Option α} {t : τ}
    (h : x (get s) = (o, t)) : zoom get put x s = (o, put s t) := by
  rw [zoom, h]

/-- `x` leaves the part `f` of the state as it is, whether it gives up or not. -/
def Keeps {γ : Type} (f : σ → γ) (x : Run σ α) : Prop := ∀ s, f (x s).2 = f s

variable {γ : Type} {f : σ → γ}

theorem keeps_pure (a : α) : Keeps f (pure a : Run σ α) := fun _ => rfl

theorem keeps_fail : Keeps f (fail : Run σ α) := fun _ => rfl

theorem keeps_bind {x : Run σ α} {g : α → Run σ β} (hx : Keeps f x) (hg : ∀ a, Keeps f (g a)) : Keeps f (x >>= g) := by
  intro s
  have hs := hx s
  cases h : x s with
  | mk o s' =>
    rw [h] at hs
    cases o with
    | none => rw [bind_none h]; exact hs
    | some a => rw [bind_some h, hg a s']; exact hs

/-- What comes after `x` and leaves `f` alone leaves it as `x` does. -/
theorem keeps_after {g : α → Run σ β} (hg : ∀ a, Keeps f (g a)) (x : Run σ α) (s : σ) :
    f ((x >>= g) s).2 = f (x s).2 := by
  cases h : x s with
  | mk o s' =>
    cases o with
    | none => rw [bind_none h]
    | some a => rw [bind_some h]; exact hg a s'

theorem keeps_ite {c : Prop} [Decidable c] {x y : Run σ α} (hx : Keeps f x) (hy : Keeps f y) :
    Keeps f (if c then x else y) := by
  split
  · exact hx
  · exact hy

/-- Wherever `x` ends, the state is related to the one it started from. -/
def Moves (R : σ → σ → Prop) (x : Run σ α) : Prop := ∀ s, R s (x s).2

variable {R : σ → σ → Prop}

theorem moves_pure [Std.Refl R] (a : α) : Moves R (pure a : Run σ α) := fun s => refl_of R s

theorem moves_fail [Std.Refl R] : Moves R (fail : Run σ α) := fun s => refl_of R s

theorem moves_bind [IsTrans σ R] {x : Run σ α} {g : α → Run σ β} (hx : Moves R x) (hg : ∀ a, Moves R (g a)) :
    Moves R (x >>= g) := by
  intro s
  have hs := hx s
  cases h : x s with
  | mk o s' =>
    rw [h] at hs
    cases o with
    | none => rw [bind_none h]; exact hs
    | some a => rw [bind_some h]; exact trans_of R hs (hg a s')

theorem moves_ite {c : Prop} [Decidable c] {x y : Run σ α} (hx : Moves R x) (hy : Moves R y) :
    Moves R (if c then x else y) := by
  split
  · exact hx
  · exact hy

/-- What `x` returns, if it does not give up, meets `P`. -/
def Returns (P : α → Prop) (x : Run σ α) : Prop := ∀ s a, (x s).1 = some a → P a

variable {P : α → Prop}

theorem returns_pure {a : α} (h : P a) : Returns P (pure a : Run σ α) := by
  rintro s a' ⟨rfl⟩
  exact h

theorem returns_fail : Returns P (fail : Run σ α) := fun _ _ h => nomatch h

theorem returns_bind_of {Q : β → Prop} {x : Run σ β} {g : β → Run σ α} (hx : Returns Q x) (hg : ∀ a, Q a → Returns P (g a)) :
    Returns P (x >>= g) := by
  intro s a ha
  cases h : x s with
  | mk o s' =>
    cases o with
    | none => rw [bind_none h] at ha; cases ha
    | some c => rw [bind_some h] at ha; exact hg c (hx s c (by rw [h])) s' a ha

theorem returns_bind {x : Run σ β} {g : β → Run σ α} (hg : ∀ a, Returns P (g a)) : Returns P (x >>= g) :=
  returns_bind_of (fun _ _ _ => trivial : Returns (fun _ => True) x) fun a _ => hg a

theorem returns_orElse {x y : Run σ α} (hx : Returns P x) (hy : Returns P y) : Returns P (x.orElse y) := by
  intro s a ha
  cases h : x s with
  | mk o s' =>
    cases o with
    | none => rw [orElse_none h] at ha; exact hy s' a ha
    | some c => rw [orElse_some h] at ha; exact hx s a (by rw [h]; exact ha)

end Run
