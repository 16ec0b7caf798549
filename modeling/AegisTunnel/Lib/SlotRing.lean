import Mathlib.Data.List.Rotate
import Mathlib.Tactic

/-! A ring of slots that are overwritten in turn. Read from the next slot to be written on, it is the list
    of what was written last, the oldest first. -/

structure SlotRing (α : Type) where
  slots : List α
  next : Nat
  next_lt : next < slots.length

namespace SlotRing
variable {α : Type} {r : SlotRing α} {x : α}

def push (r : SlotRing α) (x : α) : SlotRing α where
  slots := r.slots.set r.next x
  next := (r.next + 1) % r.slots.length
  next_lt := by
    rw [List.length_set]
    exact Nat.mod_lt _ (Nat.zero_lt_of_lt r.next_lt)

/-- What the slots hold, the oldest first. -/
def view (r : SlotRing α) : List α := r.slots.rotate r.next

theorem mem_view : x ∈ r.view ↔ x ∈ r.slots := List.mem_rotate

@[simp] theorem length_push : (r.push x).slots.length = r.slots.length := List.length_set

theorem next_push : (r.push x).next = (r.next + 1) % r.slots.length := rfl

@[simp] theorem length_view : r.view.length = r.slots.length := List.length_rotate ..

/-- The oldest goes, the newest comes last. -/
theorem view_push (r : SlotRing α) (x : α) : (r.push x).view = r.view.tail ++ [x] := by
  have hlt := r.next_lt
  have hset : r.slots.set r.next x = r.slots.take r.next ++ x :: r.slots.drop (r.next + 1) :=
    List.set_eq_take_append_cons_drop.trans (if_pos hlt)
  have hview : r.view = r.slots.drop r.next ++ r.slots.take r.next := List.rotate_eq_drop_append_take hlt.le
  have hnew : (r.push x).view = (r.slots.set r.next x).rotate (r.next + 1) := by
    rw [view, push, ← List.rotate_mod _ (r.next + 1), List.length_set]
  have hlen : (r.slots.take r.next ++ [x]).length = r.next + 1 := by
    rw [List.length_append, List.length_take, Nat.min_eq_left hlt.le, List.length_singleton]
  rw [hnew, List.rotate_eq_drop_append_take (by rw [List.length_set]; exact hlt), hset, List.append_cons,
    List.drop_left' hlen, List.take_left' hlen, hview, List.drop_eq_getElem_cons hlt, List.cons_append, List.tail_cons,
    List.append_assoc]

/-- After any number of pushes: as many of what was there before are gone. -/
theorem view_foldl_push (r : SlotRing α) (xs : List α) : (xs.foldl push r).view = (r.view ++ xs).drop xs.length := by
  induction xs generalizing r with
  | nil => rw [List.foldl_nil, List.append_nil, List.length_nil, List.drop_zero]
  | cons x xs ih =>
    have hpos : 0 < r.view.length := by
      rw [length_view]
      exact Nat.zero_lt_of_lt r.next_lt
    obtain ⟨y, ys, hys⟩ := List.exists_cons_of_length_pos hpos
    rw [List.foldl_cons, ih, view_push, hys, List.tail_cons, List.append_assoc, List.singleton_append, List.length_cons,
      List.cons_append, List.drop_succ_cons]

/-- One slot holds `x`, and no other. -/
def Sole (r : SlotRing α) (i : Nat) (x : α) : Prop := ∀ j, r.slots[j]? = some x ↔ j = i

theorem Sole.push {i : Nat} {y : α} (sole : r.Sole i x) (other : y ≠ x) (elsewhere : r.next ≠ i) : (r.push y).Sole i x := by
  intro j
  rw [SlotRing.push, List.getElem?_set]
  split
  next same =>
    subst same
    rw [if_pos r.next_lt]
    exact iff_of_false (fun h => other (Option.some.inj h)) elsewhere
  next => exact sole j

/-- What is written where it was not before stands in one slot, for as long as that slot is not written again. -/
theorem sole_foldl_push (fresh : x ∉ r.slots) {ys : List α} (others : x ∉ ys) (few : ys.length < r.slots.length) :
    (ys.foldl push (r.push x)).Sole r.next x := by
  have start : (r.push x).Sole r.next x := by
    intro j
    rw [push, List.getElem?_set]
    split
    next same => exact iff_of_true (if_pos r.next_lt) same.symm
    next other => exact iff_of_false (fun h => fresh (List.mem_of_getElem? h)) (Ne.symm other)
  -- the next slot to be written is as many places further as there were writes
  have along (ys : List α) (q : SlotRing α) (k : Nat) (sole : q.Sole r.next x) (size : q.slots.length = r.slots.length)
      (place : q.next = (r.next + k) % r.slots.length) (moved : 0 < k) (others : x ∉ ys)
      (few : k + ys.length ≤ r.slots.length) : (ys.foldl push q).Sole r.next x := by
    induction ys generalizing q k with
    | nil => exact sole
    | cons y ys ih =>
      rw [List.mem_cons, not_or] at others
      rw [List.length_cons] at few
      have elsewhere : q.next ≠ r.next := by
        have := r.next_lt
        rw [place]
        intro same
        rcases Nat.lt_or_ge (r.next + k) r.slots.length with inside | wrapped
        · rw [Nat.mod_eq_of_lt inside] at same
          omega
        · rw [Nat.mod_eq_sub_mod wrapped, Nat.mod_eq_of_lt (by omega)] at same
          omega
      refine ih (q.push y) (k + 1) (sole.push (Ne.symm others.1) elsewhere) (by rw [length_push, size]) ?_
        (Nat.succ_pos k) others.2 (by omega)
      rw [next_push, place, size, Nat.mod_add_mod, Nat.add_assoc]
  exact along ys (r.push x) 1 start length_push rfl Nat.one_pos others (by omega)

end SlotRing
