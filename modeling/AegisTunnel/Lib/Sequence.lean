import Mathlib.Tactic

/-! Items with consecutive numbers: the order in which they were numbered is the only one in which a
    receiver that counts can take them. -/

namespace Sequence
variable {α : Type} {num : α → Nat} {n : Nat} {l m : List α} {x : α}

/-- The items of `l` have the numbers `n`, `n + 1`, ... -/
def Numbered (num : α → Nat) (n : Nat) (l : List α) : Prop := l.map num = List.range' n l.length

theorem numbered_nil : Numbered num n [] := rfl

theorem Numbered.concat (h : Numbered num n l) (hx : num x = n + l.length) : Numbered num n (l ++ [x]) := by
  unfold Numbered at *
  rw [List.map_append, h, List.length_append, List.length_singleton, List.range'_concat, List.map_singleton, hx, Nat.one_mul]

theorem Numbered.of_cons (h : Numbered num n (x :: l)) : num x = n ∧ Numbered num (n + 1) l := by
  unfold Numbered at *
  rw [List.map_cons, List.length_cons, List.range'_succ] at h
  exact List.cons.inj h

theorem Numbered.le_num (h : Numbered num n l) (member : x ∈ l) : n ≤ num x := by
  have : num x ∈ List.range' n l.length := h ▸ List.mem_map_of_mem member
  exact (List.mem_range'_1.mp this).1

/-- The item with the next number is the next item. -/
theorem Numbered.prefix_concat (h : Numbered num n l) (pre : m <+: l) (member : x ∈ l) (hx : num x = n + m.length) :
    m ++ [x] <+: l := by
  induction m generalizing n l with
  | nil =>
    cases l with
    | nil => cases member
    | cons y l =>
      rcases List.mem_cons.mp member with rfl | later
      · exact List.cons_prefix_cons.mpr ⟨rfl, List.nil_prefix⟩
      · have := h.of_cons.2.le_num later
        rw [hx, List.length_nil] at this
        omega
  | cons y m ih =>
    obtain ⟨t, rfl⟩ := pre
    obtain ⟨hy, h⟩ := h.of_cons
    rw [List.length_cons] at hx
    rcases List.mem_cons.mp member with rfl | later
    · omega
    · exact List.cons_prefix_cons.mpr ⟨rfl, ih h (List.prefix_append m t) later (by omega)⟩

theorem Numbered.of_map {β : Type} {f : β → α} {l : List β} (h : Numbered (fun x => num (f x)) n l) :
    Numbered num n (l.map f) := by
  unfold Numbered at *
  rw [List.map_map, List.length_map]
  exact h

theorem Numbered.num_getElem (h : Numbered num n l) {i : Nat} (hi : i < l.length) : num l[i] = n + i := by
  have hmap : (l.map num)[i]? = (List.range' n l.length)[i]? := congrArg (·[i]?) h
  rw [List.getElem?_map, List.getElem?_eq_getElem hi, List.getElem?_range' hi, Option.map_some, Nat.one_mul] at hmap
  exact Option.some.inj hmap

theorem Numbered.nodup (h : Numbered num n l) : l.Nodup := by
  apply List.Nodup.of_map num
  rw [h]
  exact List.nodup_range'

/-- Items numbered like the rest of a list, and all of them in it, are that rest. -/
theorem Numbered.eq_drop {k : Nat} (h : Numbered num n l) (h' : Numbered num (n + k) m) (sub : ∀ x ∈ m, x ∈ l)
    (size : k + m.length = l.length) : m = l.drop k := by
  refine List.ext_getElem (by rw [List.length_drop]; omega) fun i hi hi' => ?_
  obtain ⟨j, hj, same⟩ := List.getElem_of_mem (sub _ (List.getElem_mem hi))
  have number := h'.num_getElem hi
  rw [← same, h.num_getElem hj] at number
  obtain rfl : j = k + i := by omega
  rw [← same, List.getElem_drop]

/-- A front part that holds the last item is the whole list. -/
theorem Numbered.eq_of_last (h : Numbered num n l) (pre : m <+: l) (last : l.getLast? = some x) (member : x ∈ m) :
    m = l := by
  obtain ⟨t, rfl⟩ := pre
  rcases List.eq_nil_or_concat t with rfl | ⟨t, y, rfl⟩
  · rw [List.append_nil]
  · rw [List.concat_eq_append, ← List.append_assoc, List.getLast?_concat] at last
    obtain rfl := Option.some.inj last
    have apart := (List.nodup_append.mp h.nodup).2.2
    exact absurd rfl (apart y member y (by rw [List.concat_eq_append]; exact List.mem_append_right t (List.mem_singleton_self y)))

end Sequence
