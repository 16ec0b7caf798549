import Mathlib.Tactic

/-! Runs of a machine that takes an event in each step: finite runs whose steps all meet a condition, and
    the rule that carries an invariant along them. -/

namespace Machine
variable {σ ε : Type}

/-- `Steps step ok s t`: a run from `s` to `t` in which each step meets `ok`. -/
inductive Steps (step : σ → ε → Option σ) (ok : σ → ε → σ → Prop) (s : σ) : σ → Prop where
  | refl : Steps step ok s s
  | tail {t u : σ} {e : ε} (run : Steps step ok s t) (taken : step t e = some u) (good : ok t e u) : Steps step ok s u

variable {step : σ → ε → Option σ} {ok ok' : σ → ε → σ → Prop} {s t : σ}

/-- What holds at the start and is kept by each good step holds at the end. -/
theorem Steps.invariant {Inv : σ → Prop} (run : Steps step ok s t) (start : Inv s)
    (keep : ∀ {t u : σ} {e : ε}, Inv t → step t e = some u → ok t e u → Inv u) : Inv t := by
  induction run with
  | refl => exact start
  | tail _ taken good ih => exact keep ih taken good

/-- Run through a list of events, as long as each step passes a check. -/
def exec (step : σ → ε → Option σ) (check : σ → ε → σ → Bool) (s : σ) : List ε → Option σ
  | [] => some s
  | e :: es => (step s e).bind fun t => if check s e t then exec step check t es else none

theorem Steps.head {u : σ} {e : ε} (taken : step s e = some t) (good : ok s e t) (run : Steps step ok t u) :
    Steps step ok s u := by
  induction run with
  | refl => exact .tail .refl taken good
  | tail _ taken' good' ih => exact .tail ih taken' good'

theorem Steps.of_exec (check : σ → ε → σ → Bool) (evs : List ε)
    (sound : ∀ {s t e}, step s e = some t → check s e t = true → ok s e t) (h : exec step check s evs = some t) :
    Steps step ok s t := by
  induction evs generalizing s with
  | nil => cases h; exact .refl
  | cons e evs ih =>
    obtain ⟨u, taken, rest⟩ := Option.bind_eq_some_iff.mp h
    split at rest
    next good => exact .head taken (sound taken good) (ih rest)
    next => cases rest

theorem Steps.imp (run : Steps step ok s t) (weaken : ∀ {s t : σ} {e : ε}, ok s e t → ok' s e t) :
    Steps step ok' s t := by
  induction run with
  | refl => exact .refl
  | tail _ taken good ih => exact .tail ih taken (weaken good)

theorem Steps.append {u : σ} (first : Steps step ok s t) (second : Steps step ok t u) : Steps step ok s u := by
  induction second with
  | refl => exact first
  | tail _ taken good ih => exact .tail ih taken good

/-- A run from one state to another through a list of events, in which each step meets `ok`. -/
inductive Trace (step : σ → ε → Option σ) (ok : σ → ε → σ → Prop) : σ → List ε → σ → Prop where
  | nil {s : σ} : Trace step ok s [] s
  | cons {s t u : σ} {e : ε} {evs : List ε} (taken : step s e = some t) (good : ok s e t) (rest : Trace step ok t evs u) :
      Trace step ok s (e :: evs) u

theorem Trace.steps {evs : List ε} (run : Trace step ok s evs t) : Steps step ok s t := by
  induction run with
  | nil => exact .refl
  | cons taken good _ ih => exact .head taken good ih

theorem Trace.imp {evs : List ε} (run : Trace step ok s evs t)
    (weaken : ∀ {s t : σ} {e : ε}, e ∈ evs → ok s e t → ok' s e t) : Trace step ok' s evs t := by
  induction run with
  | nil => exact .nil
  | cons taken good _ ih =>
    exact .cons taken (weaken (List.mem_cons_self ..) good) (ih fun he => weaken (List.mem_cons_of_mem _ he))

theorem Trace.of_exec (check : σ → ε → σ → Bool) (evs : List ε)
    (sound : ∀ {s t e}, step s e = some t → check s e t = true → ok s e t) (h : exec step check s evs = some t) :
    Trace step ok s evs t := by
  induction evs generalizing s with
  | nil => cases h; exact .nil
  | cons e evs ih =>
    obtain ⟨u, taken, rest⟩ := Option.bind_eq_some_iff.mp h
    split at rest
    next good => exact .cons taken (sound taken good) (ih rest)
    next => cases rest

/-- A measure that each step lowers by one counts the steps of a run; an invariant may be used for that. -/
theorem Trace.length_add {Inv : σ → Prop} {μ : σ → Nat} {evs : List ε} (run : Trace step ok s evs t) (start : Inv s)
    (keep : ∀ {t u : σ} {e : ε}, Inv t → step t e = some u → ok t e u → Inv u ∧ μ u + 1 = μ t) :
    Inv t ∧ evs.length + μ t = μ s := by
  induction run with
  | nil => exact ⟨start, by rw [List.length_nil, Nat.zero_add]⟩
  | cons taken good _ ih =>
    obtain ⟨inv, lower⟩ := keep start taken good
    obtain ⟨last, count⟩ := ih inv
    refine ⟨last, ?_⟩
    rw [List.length_cons]
    omega

/-- The machine together with what is observed in its steps. -/
def logged {α : Type} (step : σ → ε → Option σ) (observe : σ → ε → Option α) (s : σ × List α) (e : ε) : Option (σ × List α) :=
  (step s.1 e).map fun t => (t, s.2 ++ (observe s.1 e).toList)

end Machine
