import Mathlib.Logic.Function.Basic
import Mathlib.Tactic

/-! Linked lists in a heap: the cells that follow each other from a link, what they hold, and what becomes of them
    when a cell is linked to the last one or the heap changes elsewhere. -/

namespace Linked

structure Cell (α β : Type) where
  value : β
  next : Option α

/-- The cells that are allocated. -/
abbrev Heap (α β : Type) := α → Option (Cell α β)

namespace Heap
variable {α β : Type} {h h' : Heap α β} {p : Option α} {l l' : List α} {a t w : α}

/-- From the link `p`, the cells `l` follow each other, and the last one has no next. -/
def Chain (h : Heap α β) : Option α → List α → Prop
  | p, [] => p = none
  | p, a :: l => p = some a ∧ ∃ c, h a = some c ∧ Chain h c.next l

theorem Chain.allocated (chain : h.Chain p l) (mem : a ∈ l) : ∃ c, h a = some c := by
  induction l generalizing p with
  | nil => cases mem
  | cons x l ih =>
    obtain ⟨-, c, hc, rest⟩ := chain
    rcases List.mem_cons.mp mem with rfl | mem
    · exact ⟨c, hc⟩
    · exact ih rest mem

/-- A link determines the cells after it. -/
theorem Chain.unique (chain : h.Chain p l) (chain' : h.Chain p l') : l = l' := by
  induction l generalizing p l' with
  | nil =>
    cases l' with
    | nil => rfl
    | cons y l' => cases chain.symm.trans chain'.1
  | cons x l ih =>
    obtain ⟨hp, c, hc, rest⟩ := chain
    cases l' with
    | nil => cases hp.symm.trans chain'
    | cons y l' =>
      obtain ⟨hp', c', hc', rest'⟩ := chain'
      obtain rfl : x = y := Option.some.inj (hp.symm.trans hp')
      obtain rfl : c = c' := Option.some.inj (hc.symm.trans hc')
      rw [ih rest rest']

/-- The cells from one of them on. -/
theorem Chain.suffix (chain : h.Chain p (l ++ a :: l')) : h.Chain (some a) (a :: l') := by
  induction l generalizing p with
  | nil => exact ⟨rfl, chain.2⟩
  | cons x l ih =>
    obtain ⟨-, c, -, rest⟩ := chain
    exact ih rest

/-- No cell is met twice: the cells after it would not end. -/
theorem Chain.nodup (chain : h.Chain p l) : l.Nodup := by
  induction l generalizing p with
  | nil => exact List.nodup_nil
  | cons x l ih =>
    obtain ⟨-, c, hc, rest⟩ := chain
    refine List.nodup_cons.mpr ⟨?_, ih rest⟩
    intro mem
    obtain ⟨front, back, rfl⟩ := List.append_of_mem mem
    have same : x :: (front ++ x :: back) = x :: back := Chain.unique ⟨rfl, c, hc, rest⟩ (Chain.suffix rest)
    have len := congrArg List.length same
    rw [List.length_cons, List.length_append, List.length_cons] at len
    omega

/-- Only its cells matter for a list. -/
theorem Chain.congr (chain : h.Chain p l) (same : ∀ a ∈ l, h' a = h a) : h'.Chain p l := by
  induction l generalizing p with
  | nil => exact chain
  | cons x l ih =>
    obtain ⟨hp, c, hc, rest⟩ := chain
    refine ⟨hp, c, (same x (List.mem_cons_self ..)).trans hc, ih rest ?_⟩
    intro a mem
    exact same a (List.mem_cons_of_mem _ mem)

/-! ### What the cells hold -/

def value (h : Heap α β) (a : α) : Option β := (h a).map (·.value)

def values (h : Heap α β) (l : List α) : List β := l.filterMap h.value

theorem values_congr (same : ∀ a ∈ l, h'.value a = h.value a) : h'.values l = h.values l :=
  List.filterMap_congr same

theorem values_cons (l : List α) : h.values (a :: l) = (h.value a).toList ++ h.values l := by
  rw [values, List.filterMap_cons]
  cases h.value a with
  | none => rfl
  | some v => rfl

theorem values_concat (l : List α) : h.values (l ++ [a]) = h.values l ++ (h.value a).toList := by
  rw [values, List.filterMap_append, ← values, ← values, values_cons]
  exact congrArg (_ ++ ·) (List.append_nil _)

/-! ### Changing the heap -/

variable [DecidableEq α]

theorem Chain.update (chain : h.Chain p l) (mem : w ∉ l) (c : Option (Cell α β)) :
    Chain (Function.update h w c) p l := by
  apply chain.congr
  intro a ha
  exact Function.update_of_ne (ne_of_mem_of_not_mem ha mem) ..

/-- The cell with another next one. -/
def link (h : Heap α β) (t : α) (c : Cell α β) (next : Option α) : Heap α β :=
  Function.update h t (some ⟨c.value, next⟩)

theorem value_link {c : Cell α β} (hc : h t = some c) (next : Option α) (a : α) : (h.link t c next).value a = h.value a := by
  by_cases same : a = t
  · subst same
    simp [link, value, hc]
  · rw [value, link, Function.update_of_ne same, ← value]

theorem link_of_ne {c : Cell α β} (ne : a ≠ t) (next : Option α) : h.link t c next a = h a := Function.update_of_ne ne ..

/-- A cell without a next one, linked to the last cell, is the last one then. -/
theorem Chain.concat {new : Cell α β} (chain : h.Chain p (l ++ [t])) (c : Cell α β) (fresh : w ∉ l ++ [t])
    (alone : h w = some new) (ends : new.next = none) : (h.link t c (some w)).Chain p (l ++ [t] ++ [w]) := by
  have notin : t ∉ l := by
    intro mem
    exact (List.nodup_append.mp chain.nodup).2.2 t mem t (List.mem_singleton_self t) rfl
  induction l generalizing p with
  | nil =>
    have ne : w ≠ t := fun same => fresh (same ▸ List.mem_singleton_self t)
    refine ⟨chain.1, ⟨c.value, some w⟩, Function.update_self .., rfl, new, ?_, ends⟩
    rw [link_of_ne ne, alone]
  | cons x l ih =>
    obtain ⟨hp, d, hd, rest⟩ := chain
    have ne : x ≠ t := fun same => notin (same ▸ List.mem_cons_self ..)
    refine ⟨hp, d, (link_of_ne ne _).trans hd, ih rest ?_ ?_⟩
    · exact fun mem => fresh (List.mem_cons_of_mem _ mem)
    · exact fun mem => notin (List.mem_cons_of_mem _ mem)

end Heap

end Linked
