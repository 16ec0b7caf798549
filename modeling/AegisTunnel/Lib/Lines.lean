import Mathlib.Tactic

/-! The lines of a text, each with the end of line that it has. -/

namespace Lines
variable {α : Type} [DecidableEq α] (nl : α)

def lines : List α → List (List α)
  | [] => []
  | c :: text =>
    if c = nl then [c] :: lines text
    else
      match lines text with
      | [] => [[c]]
      | line :: rest => (c :: line) :: rest

variable {nl} {line : List α}

theorem lines_ended (h : nl ∉ line) (text : List α) : lines nl (line ++ nl :: text) = (line ++ [nl]) :: lines nl text := by
  induction line with
  | nil => exact if_pos rfl
  | cons c line ih =>
    rw [List.mem_cons, not_or] at h
    rw [List.cons_append, lines, if_neg (Ne.symm h.1), ih h.2]
    rfl

theorem lines_last (some_ : line ≠ []) (h : nl ∉ line) : lines nl line = [line] := by
  induction line with
  | nil => exact absurd rfl some_
  | cons c line ih =>
    rw [List.mem_cons, not_or] at h
    rw [lines, if_neg (Ne.symm h.1)]
    cases line with
    | nil => rfl
    | cons d line => rw [ih (List.cons_ne_nil d line) h.2]

variable (nl) in
/-- A text is empty, a line without an end, or a line with its end before another text. -/
theorem text_induction {P : List α → Prop} (nil : P []) (last : ∀ line, line ≠ [] → nl ∉ line → P line)
    (ended : ∀ line text, nl ∉ line → P text → P (line ++ nl :: text)) (text : List α) : P text := by
  induction hn : text.length using Nat.strong_induction_on generalizing text with
  | _ n ih =>
    by_cases more : nl ∈ text
    · obtain ⟨line, rest, rfl, hline⟩ := List.eq_append_cons_of_mem more
      refine ended line rest hline (ih rest.length ?_ rest rfl)
      rw [← hn, List.length_append, List.length_cons]
      omega
    · rcases eq_or_ne text [] with rfl | some_
      · exact nil
      · exact last text some_ more

variable (nl) in
/-- Lines as they follow each other in a text: only the last one may have no end. -/
inductive IsLines : List (List α) → Prop where
  | nil : IsLines []
  | last {line : List α} (some_ : line ≠ []) (h : nl ∉ line) : IsLines [line]
  | ended {line : List α} {rest : List (List α)} (h : nl ∉ line) (more : IsLines rest) : IsLines ((line ++ [nl]) :: rest)

theorem isLines_lines (text : List α) : IsLines nl (lines nl text) := by
  induction text using text_induction nl with
  | nil => exact .nil
  | last line some_ h => rw [lines_last some_ h]; exact .last some_ h
  | ended line text h ih => rw [lines_ended h]; exact .ended h ih

theorem lines_flatten {ls : List (List α)} (h : IsLines nl ls) : lines nl ls.flatten = ls := by
  induction h with
  | nil => rfl
  | last some_ h => rw [List.flatten_singleton, lines_last some_ h]
  | ended h more ih => rw [List.flatten_cons, List.append_assoc, List.singleton_append, lines_ended h, ih]

theorem mem_of_mem_lines {c : α} {text : List α} (h : line ∈ lines nl text) (hc : c ∈ line) : c ∈ text := by
  induction text using text_induction nl with
  | nil => cases h
  | last l some_ bare =>
    rw [lines_last some_ bare, List.mem_singleton] at h
    exact h ▸ hc
  | ended l rest bare ih =>
    rw [lines_ended bare, List.mem_cons] at h
    rcases h with rfl | h
    · exact (List.mem_append.mp hc).elim (List.mem_append_left _) fun hc =>
        List.mem_append_right _ (List.mem_singleton.mp hc ▸ List.mem_cons_self)
    · exact List.mem_append_right _ (List.mem_cons_of_mem _ (ih h))

theorem length_lt_iff {n : Nat} (hn : 0 < n) (text : List α) :
    (∀ line ∈ text.splitOn nl, line.length < n) ↔ ∀ line ∈ lines nl text, line.countP (· ≠ nl) < n := by
  have bare {line : List α} (h : nl ∉ line) : line.countP (· ≠ nl) = line.length :=
    List.countP_eq_length.2 fun c hc => decide_eq_true fun same => h (same ▸ hc)
  induction text using text_induction nl with
  | nil => simpa [lines] using hn
  | last line some_ h =>
    rw [List.splitOn_eq_singleton h, lines_last some_ h, List.forall_mem_singleton, List.forall_mem_singleton, bare h]
  | ended line text h ih =>
    rw [List.splitOn_append_cons_self_of_not_mem h, lines_ended h, List.forall_mem_cons, List.forall_mem_cons,
      List.countP_append, bare h, List.countP_singleton]
    simpa using fun _ => ih

variable (nl) in
/-- The lines of two texts with an end of line between them. -/
theorem lines_append (front text : List α) : lines nl (front ++ nl :: text) = lines nl (front ++ [nl]) ++ lines nl text := by
  induction front using text_induction nl with
  | nil => exact (lines_ended List.not_mem_nil text).trans (congrArg (· ++ _) (lines_ended List.not_mem_nil []).symm)
  | last line some_ h => rw [lines_ended h, lines_ended h]; rfl
  | ended line rest h ih => rw [List.append_assoc, List.cons_append, lines_ended h, ih, List.append_assoc, List.cons_append,
      lines_ended h, List.cons_append]

/-- An end of line at the end of a text is a line of its own, or ends the last one. -/
theorem mem_lines_end {text : List α} (h : line ∈ lines nl (text ++ [nl])) :
    line = [nl] ∨ line ∈ lines nl text ∨ ∃ l ∈ lines nl text, nl ∉ l ∧ line = l ++ [nl] := by
  induction text using text_induction nl with
  | nil =>
    rw [lines_ended List.not_mem_nil] at h
    exact .inl (List.mem_singleton.mp h)
  | last l some_ bare =>
    rw [lines_ended bare] at h
    rw [lines_last some_ bare]
    exact .inr (.inr ⟨l, List.mem_singleton_self l, bare, List.mem_singleton.mp h⟩)
  | ended l rest bare ih =>
    rw [List.append_assoc, List.cons_append, lines_ended bare] at h
    rw [lines_ended bare]
    rcases List.mem_cons.mp h with rfl | h
    · exact .inr (.inl List.mem_cons_self)
    · exact (ih h).imp_right (Or.imp (List.mem_cons_of_mem _) fun ⟨l, hl, more⟩ => ⟨l, List.mem_cons_of_mem _ hl, more⟩)

variable (nl) in
theorem splitOn_append (front text : List α) :
    (front ++ nl :: text).splitOn nl = front.splitOn nl ++ text.splitOn nl := by
  induction front using text_induction nl with
  | nil => rw [List.splitOn_append_cons_self_of_not_mem List.not_mem_nil]; rfl
  | last line some_ h => rw [List.splitOn_append_cons_self_of_not_mem h, List.splitOn_eq_singleton h]; rfl
  | ended line rest h ih =>
    rw [List.append_assoc, List.cons_append, List.splitOn_append_cons_self_of_not_mem h,
      List.splitOn_append_cons_self_of_not_mem h, ih, List.cons_append]

end Lines
