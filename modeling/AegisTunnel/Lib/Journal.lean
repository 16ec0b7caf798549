import Mathlib.Tactic

/-! A journal to which a program adds one note after the other: what holds of every note after those before it, and the
    notes of one kind, which take turns. -/

namespace Journal
variable {α : Type} {good : List α → α → Prop} {notes : List α} {x : α}

/-- Every note is good after the notes before it. -/
def Sound (good : List α → α → Prop) (notes : List α) : Prop :=
  ∀ before x after, notes = before ++ x :: after → good before x

theorem sound_nil : Sound good [] := fun before x after h => absurd h (by simp)

theorem Sound.concat (h : Sound good notes) (hx : good notes x) : Sound good (notes ++ [x]) := by
  intro before y after split
  rcases List.eq_nil_or_concat after with rfl | ⟨more, z, rfl⟩
  · obtain ⟨rfl, last⟩ := List.append_inj_left' split rfl, List.append_inj_right' split rfl
    obtain rfl := List.cons.inj last |>.1
    exact hx
  · rw [List.concat_eq_append, ← List.cons_append, ← List.append_assoc] at split
    exact h before y more (List.append_inj_left' split rfl)

/-- The notes of a kind have their numbers. -/
theorem exists_nth (p : α → Bool) {j : Nat} (h : j < notes.countP p) :
    ∃ before x after, notes = before ++ x :: after ∧ p x = true ∧ before.countP p = j := by
  induction notes generalizing j with
  | nil => cases h
  | cons y notes ih =>
    rw [List.countP_cons] at h
    cases hy : p y with
    | true =>
      rw [if_pos hy] at h
      cases j with
      | zero => exact ⟨[], y, notes, rfl, hy, rfl⟩
      | succ j =>
        obtain ⟨before, x, after, rfl, hx, count⟩ := ih (Nat.lt_of_succ_lt_succ h)
        exact ⟨y :: before, x, after, rfl, hx, by rw [List.countP_cons_of_pos hy, count]⟩
    | false =>
      rw [hy, if_neg Bool.false_ne_true, Nat.add_zero] at h
      obtain ⟨before, x, after, rfl, hx, count⟩ := ih h
      exact ⟨y :: before, x, after, rfl, hx, by rw [List.countP_cons_of_neg (by rw [hy]; exact Bool.false_ne_true), count]⟩

/-- Of any `n` turns one after the other, each of `n` has one. -/
theorem exists_turn {n i : Nat} (h : i < n) (start : Nat) : ∃ j < n, (start + j) % n = i := by
  refine ⟨(i + (n - start % n)) % n, Nat.mod_lt _ (by omega), ?_⟩
  have start_lt : start % n < n := Nat.mod_lt _ (by omega)
  rw [Nat.add_mod_mod, ← Nat.mod_add_mod, show start % n + (i + (n - start % n)) = i + n by omega, Nat.add_mod_right,
    Nat.mod_eq_of_lt h]

end Journal
