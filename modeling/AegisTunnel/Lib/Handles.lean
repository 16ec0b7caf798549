import Mathlib.Tactic

/-! Handles that a program is handed out and closes again. A trace of it can go wrong in two ways: a handle is handed out
    that is still open, which is up to the one who hands them out, or the program closes a handle that is not open. -/

namespace Handles
variable {α : Type} [DecidableEq α]

inductive Act (α : Type) where
  | opened (h : α)
  | closed (h : α)
  deriving DecidableEq

inductive Fault where
  | reopened
  | notOpen
  deriving DecidableEq

/-- The open handles, the last one first. -/
def step (held : List α) : Act α → Except Fault (List α)
  | .opened h => if h ∈ held then .error .reopened else .ok (h :: held)
  | .closed h => if h ∈ held then .ok (held.erase h) else .error .notOpen

def after : List α → List (Act α) → Except Fault (List α)
  | held, [] => .ok held
  | held, act :: acts =>
    match step held act with
    | .ok held => after held acts
    | .error fault => .error fault

/-- The program closes open handles only, and at the end just those of `held'` are open, as long as none is handed out
twice. -/
def Reaches (held : List α) (acts : List (Act α)) (held' : List α) : Prop :=
  after held acts = .ok held' ∨ after held acts = .error .reopened

theorem after_append (held : List α) (acts more : List (Act α)) :
    after held (acts ++ more) = match after held acts with
      | .ok held' => after held' more
      | .error fault => .error fault := by
  induction acts generalizing held with
  | nil => rfl
  | cons act acts ih =>
    rw [List.cons_append, after, after]
    cases step held act with
    | ok held => exact ih held
    | error fault => rfl

theorem Reaches.refl (held : List α) : Reaches held [] held := .inl rfl

theorem Reaches.append {held held' held'' : List α} {acts more : List (Act α)} (first : Reaches held acts held')
    (rest : Reaches held' more held'') : Reaches held (acts ++ more) held'' := by
  unfold Reaches at *
  rw [after_append]
  rcases first with first | first
  · rw [first]
    exact rest
  · rw [first]
    exact .inr rfl

theorem Reaches.opened (held : List α) (h : α) : Reaches held [.opened h] (h :: held) := by
  by_cases there : h ∈ held
  · refine .inr ?_
    simp only [after, step, if_pos there]
  · refine .inl ?_
    simp only [after, step, if_neg there]

theorem Reaches.closed (held : List α) (h : α) : Reaches (h :: held) [.closed h] held := by
  refine .inl ?_
  simp only [after, step, if_pos List.mem_cons_self, List.erase_cons_head]

/-- A handle that is closed at once. -/
theorem Reaches.transient (held : List α) (h : α) : Reaches held [.opened h, .closed h] held :=
  (Reaches.opened held h).append (.closed held h)

end Handles
