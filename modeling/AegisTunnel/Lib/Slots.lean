import Mathlib.Tactic

/-! Tables of slots that are only ever appended to, up to a capacity. A slot is live or dead; live slots
    are found by a key, and a dead slot stays dead at its place. -/

namespace Slots
variable {α κ : Type} [DecidableEq κ] (live : α → Bool) (key : α → κ)

/-- The first live slot with the key. -/
def find (t : List α) (k : κ) : Option Nat := t.findIdx? fun x => live x && key x == k

/-- Renew the live slot with the key, or else append a fresh one below the capacity. -/
def put (cap : Nat) (k : κ) (fresh : α) (renew : α → α) (t : List α) : List α :=
  match find live key t k with
  | some i => t.modify i renew
  | none => if t.length < cap then t ++ [fresh] else t

/-- The slot that `put` writes, if there is one. -/
def slot (cap : Nat) (k : κ) (t : List α) : Option Nat :=
  match find live key t k with
  | some i => some i
  | none => if t.length < cap then some t.length else none

/-- No two live slots have the same key. -/
def Distinct (t : List α) : Prop :=
  ∀ ⦃i j : Nat⦄ ⦃x y : α⦄, t[i]? = some x → t[j]? = some y → live x = true → live y = true → key x = key y → i = j

variable {live key} {t : List α} {k : κ} {i : Nat}

theorem find_eq_some (h : find live key t k = some i) : ∃ x, t[i]? = some x ∧ live x = true ∧ key x = k := by
  obtain ⟨hi, hx, -⟩ := List.findIdx?_eq_some_iff_getElem.mp h
  refine ⟨t[i], List.getElem?_eq_getElem hi, ?_⟩
  simpa using hx

theorem find_eq_none_iff : find live key t k = none ↔ ∀ x ∈ t, live x = true → key x ≠ k := by
  rw [find, List.findIdx?_eq_none_iff]
  refine forall₂_congr fun x _ => ?_
  cases live x <;> simp

omit [DecidableEq κ] in
/-- A slot after a slot that is there has been overwritten. -/
theorem getElem?_set_cases {x y z : α} {j : Nat} (there : t[j]? = some x) (h : (t.set j z)[i]? = some y) :
    (j = i ∧ z = y) ∨ (j ≠ i ∧ t[i]? = some y) := by
  rw [List.getElem?_set] at h
  split at h
  next same =>
    rw [if_pos (List.getElem?_eq_some_iff.mp there).1] at h
    exact .inl ⟨same, Option.some.inj h⟩
  next other => exact .inr ⟨other, h⟩

section put
variable {cap : Nat} {fresh : α} {renew : α → α}

theorem put_of_found (h : find live key t k = some i) : put live key cap k fresh renew t = t.modify i renew := by
  rw [put, h]

theorem put_of_room (h : find live key t k = none) (room : t.length < cap) :
    put live key cap k fresh renew t = t ++ [fresh] := by
  rw [put, h]
  exact if_pos room

theorem put_of_full (h : find live key t k = none) (full : ¬ t.length < cap) :
    put live key cap k fresh renew t = t := by
  rw [put, h]
  exact if_neg full

theorem slot_eq_none_iff :
    slot live key cap k t = none ↔ (∀ x ∈ t, live x = true → key x ≠ k) ∧ ¬ t.length < cap := by
  rw [← find_eq_none_iff, slot]
  cases find live key t k <;> simp

theorem put_of_slot_none (h : slot live key cap k t = none) : put live key cap k fresh renew t = t := by
  obtain ⟨hnone, full⟩ := slot_eq_none_iff.mp h
  exact put_of_full (find_eq_none_iff.mpr hnone) full

theorem getElem?_put_of_found {x : α} (h : find live key t k = some i) (hx : t[i]? = some x) :
    (put live key cap k fresh renew t)[i]? = some (renew x) := by
  rw [put_of_found h, List.getElem?_modify_eq, hx]
  rfl

/-- What `put` writes is a renewed slot or the fresh one. -/
theorem exists_mem_put (h : slot live key cap k t ≠ none) :
    ∃ x ∈ put live key cap k fresh renew t, x = fresh ∨ ∃ y ∈ t, x = renew y := by
  cases hf : find live key t k with
  | some i =>
    obtain ⟨y, hy, -⟩ := find_eq_some hf
    exact ⟨renew y, List.mem_of_getElem? (getElem?_put_of_found hf hy), .inr ⟨y, List.mem_of_getElem? hy, rfl⟩⟩
  | none =>
    have room : t.length < cap := by
      by_contra full
      exact h (slot_eq_none_iff.mpr ⟨find_eq_none_iff.mp hf, full⟩)
    rw [put_of_room hf room]
    exact ⟨fresh, List.mem_append_right _ (List.mem_singleton_self _), .inl rfl⟩

/-- A slot after `put` is the one it was, the renewed one with the key or the fresh one at the end. -/
theorem getElem?_put {x : α} {j : Nat} (h : (put live key cap k fresh renew t)[j]? = some x) :
    (t[j]? = some x ∧ slot live key cap k t ≠ some j) ∨
    (slot live key cap k t = some j ∧
      ((find live key t k = some j ∧ ∃ y, t[j]? = some y ∧ live y = true ∧ key y = k ∧ x = renew y) ∨
       (find live key t k = none ∧ j = t.length ∧ x = fresh))) := by
  cases hf : find live key t k with
  | some i =>
    rw [put_of_found hf, List.getElem?_modify] at h
    have hs : slot live key cap k t = some i := by rw [slot, hf]
    by_cases hij : i = j
    · subst hij
      obtain ⟨y, hy, hlive, hkey⟩ := find_eq_some hf
      refine .inr ⟨hs, .inl ⟨rfl, y, hy, hlive, hkey, ?_⟩⟩
      simpa [hy] using h.symm
    · refine .inl ⟨?_, by rw [hs]; simpa using hij⟩
      simpa [hij] using h
  | none =>
    by_cases room : t.length < cap
    · have hs : slot live key cap k t = some t.length := by
        rw [slot, hf]
        exact if_pos room
      rw [put_of_room hf room] at h
      rcases Nat.lt_trichotomy j t.length with hj | rfl | hj
      · rw [List.getElem?_append_left hj] at h
        refine .inl ⟨h, ?_⟩
        rw [hs, ne_eq, Option.some.injEq]
        omega
      · rw [List.getElem?_concat_length] at h
        exact .inr ⟨hs, .inr ⟨rfl, rfl, (Option.some.inj h).symm⟩⟩
      · rw [List.getElem?_eq_none (by simp; omega)] at h
        cases h
    · rw [put_of_full hf room] at h
      refine .inl ⟨h, ?_⟩
      rw [slot, hf]
      simp [room]

end put

/-! ### Distinct keys -/

section Distinct
omit [DecidableEq κ] in
/-- Live slots that were live with the same keys before stay distinct. -/
theorem Distinct.of_live {t' : List α} (h : Distinct live key t)
    (from_ : ∀ (i : Nat) y, t'[i]? = some y → live y = true → ∃ x, t[i]? = some x ∧ live x = true ∧ key x = key y) :
    Distinct live key t' := by
  intro i j x y hx hy livex livey same
  obtain ⟨x', hx', livex', keyx⟩ := from_ i x hx livex
  obtain ⟨y', hy', livey', keyy⟩ := from_ j y hy livey
  exact h hx' hy' livex' livey' (keyx.trans (same.trans keyy.symm))

/-- In a table with distinct keys the slot found is the live one with the key. -/
theorem Distinct.find_eq_some_iff (h : Distinct live key t) :
    find live key t k = some i ↔ ∃ x, t[i]? = some x ∧ live x = true ∧ key x = k := by
  refine ⟨find_eq_some, ?_⟩
  rintro ⟨x, hx, livex, keyx⟩
  cases found : find live key t k with
  | none => exact absurd keyx (find_eq_none_iff.mp found x (List.mem_of_getElem? hx) livex)
  | some j =>
    obtain ⟨y, hy, livey, keyy⟩ := find_eq_some found
    rw [h hy hx livey livex (keyy.trans keyx.symm)]

theorem Distinct.put {cap : Nat} {fresh : α} {renew : α → α} (h : Distinct live key t) (hfresh : key fresh = k)
    (hrenew : ∀ x, key (renew x) = k) : Distinct live key (put live key cap k fresh renew t) := by
  -- A live slot of the table afterwards is one of the table before, or the one written and has the key.
  have origin : ∀ (i : Nat) y, (Slots.put live key cap k fresh renew t)[i]? = some y →
      (t[i]? = some y ∧ slot live key cap k t ≠ some i) ∨ (slot live key cap k t = some i ∧ key y = k) := by
    intro i y hy
    rcases getElem?_put hy with old | ⟨hslot, ⟨-, z, -, -, -, rfl⟩ | ⟨-, -, rfl⟩⟩
    · exact .inl old
    · exact .inr ⟨hslot, hrenew z⟩
    · exact .inr ⟨hslot, hfresh⟩
  -- An old live slot with the key would have been the one written.
  have found : ∀ (i : Nat) x, t[i]? = some x → live x = true → key x = k → slot live key cap k t = some i := by
    intro i x hx livex keyx
    rw [slot, h.find_eq_some_iff.mpr ⟨x, hx, livex, keyx⟩]
  intro i j x y hx hy livex livey same
  rcases origin i x hx with ⟨hx', hi⟩ | ⟨hi, keyx⟩ <;> rcases origin j y hy with ⟨hy', hj⟩ | ⟨hj, keyy⟩
  · exact h hx' hy' livex livey same
  · exact absurd (found i x hx' livex (same.trans keyy)) hi
  · exact absurd (found j y hy' livey (same.symm.trans keyx)) hj
  · exact Option.some.inj (hi.symm.trans hj)

end Distinct

end Slots
