import Mathlib.Tactic

/-! How many of some times can lie in one span of a given width. -/

namespace Spans

/-- The time `t` lies in the span of the given width that starts at `start`. -/
def within (start width t : Int) : Bool := start ≤ t ∧ t < start + width

/-- In every span of the given width there are at most `n` of the times. -/
def AtMost (n : Nat) (width : Int) (times : List Int) : Prop :=
  ∀ start, times.countP (within start width) ≤ n

variable {n : Nat} {width : Int} {times before since : List Int} {now : Int}

theorem AtMost.nil : AtMost n width [] := fun _ => Nat.zero_le n

/-- One more time, with few of those before it less than a width away. -/
theorem AtMost.concat (h : AtMost n width times) (few : times.countP (fun t => now < t + width) < n) :
    AtMost n width (times ++ [now]) := by
  intro start
  rw [List.countP_append, List.countP_singleton]
  split
  next hit =>
    have near : times.countP (within start width) ≤ times.countP (fun t => now < t + width) := by
      refine List.countP_mono_left fun t _ inside => ?_
      simp only [within, decide_eq_true_eq] at hit inside ⊢
      omega
    omega
  next => exact h start

/-- Those a width before are not near. -/
theorem near_le (far : ∀ t ∈ before, t + width ≤ now) :
    (before ++ since).countP (fun t => now < t + width) ≤ since.length := by
  have none_ : before.countP (fun t => now < t + width) = 0 := by
    rw [List.countP_eq_zero]
    intro t member
    simpa using far t member
  rw [List.countP_append, none_, Nat.zero_add]
  exact List.countP_le_length

end Spans
