import Mathlib.Tactic

/-! Streams of messages that announce their own length: where the first message of a stream ends once
    enough of the stream is there, and the greedy left-to-right parse of a whole stream. -/

/-- `size s` is the length of the first message of a stream that starts with `s`, once `s` is long
    enough to tell. -/
structure Framing (α : Type) where
  size : List α → Option Nat
  size_pos : ∀ {s n}, size s = some n → 0 < n
  size_append : ∀ {s n}, size s = some n → ∀ t, size (s ++ t) = some n

namespace Framing
variable {α β σ : Type} (F : Framing α)

/-- The first message of `s` and what follows it, if the message is complete. -/
def cut (s : List α) : Option (List α × List α) :=
  match F.size s with
  | none => none
  | some n => if s.length < n then none else some (s.take n, s.drop n)

def Message (w : List α) : Prop := F.size w = some w.length

variable {F} {s t w r : List α}

theorem cut_eq_some_iff : F.cut s = some (w, r) ↔ F.size s = some w.length ∧ s = w ++ r := by
  unfold cut
  constructor
  · intro h
    split at h
    next => cases h
    next n hn =>
      split at h
      next => cases h
      next hlen =>
        simp only [Option.some.injEq, Prod.mk.injEq] at h
        obtain ⟨rfl, rfl⟩ := h
        rw [List.length_take, Nat.min_eq_left (by omega), List.take_append_drop]
        exact ⟨hn, rfl⟩
  · rintro ⟨hn, rfl⟩
    rw [hn]
    simp

theorem cut_append (h : F.cut s = some (w, r)) (t : List α) : F.cut (s ++ t) = some (w, r ++ t) := by
  obtain ⟨hsize, rfl⟩ := cut_eq_some_iff.mp h
  exact cut_eq_some_iff.mpr ⟨F.size_append hsize t, by rw [List.append_assoc]⟩

theorem length_lt_of_cut (h : F.cut s = some (w, r)) : r.length < s.length := by
  obtain ⟨hsize, rfl⟩ := cut_eq_some_iff.mp h
  have := F.size_pos hsize
  rw [List.length_append]
  omega

theorem cut_message (h : F.Message w) (t : List α) : F.cut (w ++ t) = some (w, t) :=
  cut_eq_some_iff.mpr ⟨F.size_append h t, rfl⟩

/-- The first message of what has arrived of a sequence of messages is the first of the sequence. -/
theorem cut_of_prefix {ws : List (List α)} (hws : ∀ w ∈ ws, F.Message w) (hs : s <+: ws.flatten)
    (h : F.cut s = some (w, r)) : ∃ ws', ws = w :: ws' ∧ r <+: ws'.flatten := by
  obtain ⟨t, ht⟩ := hs
  cases ws with
  | nil =>
    have hnil : s = [] := (List.append_eq_nil_iff.mp ht).1
    have := length_lt_of_cut h
    rw [hnil] at this
    exact absurd this (Nat.not_lt_zero _)
  | cons w' ws' =>
    have hall := cut_append h t
    rw [ht, List.flatten_cons, cut_message (hws w' (List.mem_cons_self ..))] at hall
    simp only [Option.some.injEq, Prod.mk.injEq] at hall
    obtain ⟨rfl, hrest⟩ := hall
    exact ⟨ws', rfl, t, hrest.symm⟩

/-! ### Greedy parsing -/

/-- How the parse of a stream ends: on a message boundary, inside a message, or at a message that the
    acceptance test refuses. -/
inductive Ending where
  | clean
  | truncated
  | refused
  deriving DecidableEq

variable (F) in
/-- Cut message after message off `s` and pass each to `accept`, which also steps its own state. -/
def parse (accept : σ → List α → Option (β × σ)) (x : σ) (s : List α) : List β × Ending :=
  match hs : F.cut s with
  | none => ([], if s.isEmpty then .clean else .truncated)
  | some (w, r) =>
    match accept x w with
    | none => ([], .refused)
    | some (y, x') =>
      have : r.length < s.length := length_lt_of_cut hs
      let p := parse accept x' r
      (y :: p.1, p.2)
  termination_by s.length

variable {accept : σ → List α → Option (β × σ)} {x x' : σ} {y : β}

theorem parse_of_cut_none (h : F.cut s = none) :
    F.parse accept x s = ([], if s.isEmpty then .clean else .truncated) := by
  rw [parse]
  split
  next => rfl
  next hs => rw [h] at hs; cases hs

theorem parse_of_refused (h : F.cut s = some (w, r)) (ha : accept x w = none) : F.parse accept x s = ([], .refused) := by
  rw [parse]
  split
  next hs => rw [h] at hs; cases hs
  next hs =>
    rw [h] at hs
    cases hs
    simp only [ha]

theorem parse_of_accepted (h : F.cut s = some (w, r)) (ha : accept x w = some (y, x')) :
    F.parse accept x s = (y :: (F.parse accept x' r).1, (F.parse accept x' r).2) := by
  rw [parse]
  split
  next hs => rw [h] at hs; cases hs
  next hs =>
    rw [h] at hs
    cases hs
    simp only [ha]

end Framing
