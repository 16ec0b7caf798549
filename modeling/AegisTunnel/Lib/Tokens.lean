import Mathlib.Data.List.TakeWhile
import Mathlib.Tactic

/-! The tokens of a text: its maximal pieces without separators. -/

namespace Tokens
variable {α : Type} (sep : α → Bool)

/-- The token that has been read, if it has a character. -/
def flush (token : List α) : List (List α) := if token.isEmpty then [] else [token]

/-- The tokens of a text that continues a token. -/
def tokensFrom : List α → List α → List (List α)
  | token, [] => flush token
  | token, c :: text => if sep c then flush token ++ tokensFrom [] text else tokensFrom (token ++ [c]) text

def tokens (text : List α) : List (List α) := tokensFrom sep [] text

variable {sep} {c : α} {token text : List α}

@[simp] theorem tokens_nil : tokens sep [] = [] := rfl

theorem flush_cons (c : α) (token : List α) : flush (c :: token) = [c :: token] := rfl

theorem tokensFrom_sep (hc : sep c = true) : tokensFrom sep token (c :: text) = flush token ++ tokens sep text := if_pos hc

theorem tokensFrom_char (hc : sep c = false) : tokensFrom sep token (c :: text) = tokensFrom sep (token ++ [c]) text :=
  if_neg (by rw [hc]; exact Bool.false_ne_true)

/-- Text without separators goes on with the token. -/
theorem tokensFrom_word {word : List α} (hword : ∀ c ∈ word, sep c = false) :
    tokensFrom sep token (word ++ text) = tokensFrom sep (token ++ word) text := by
  induction word generalizing token with
  | nil => rw [List.nil_append, List.append_nil]
  | cons c word ih =>
    rw [List.forall_mem_cons] at hword
    rw [List.cons_append, tokensFrom_char hword.1, ih hword.2, List.append_assoc, List.singleton_append]

/-- A separator ends what comes before it. -/
theorem tokensFrom_append (hc : sep c = true) (front rest : List α) :
    tokensFrom sep token (front ++ c :: rest) = tokensFrom sep token front ++ tokens sep rest := by
  induction front generalizing token with
  | nil => exact tokensFrom_sep hc
  | cons d front ih =>
    cases hd : sep d with
    | true => rw [List.cons_append, tokensFrom_sep hd, tokensFrom_sep hd, tokens, ih, List.append_assoc]; rfl
    | false => rw [List.cons_append, tokensFrom_char hd, tokensFrom_char hd, ih]

theorem tokens_append (hc : sep c = true) (front rest : List α) :
    tokens sep (front ++ c :: rest) = tokens sep front ++ tokens sep rest := tokensFrom_append hc front rest

theorem tokens_cons_sep (hc : sep c = true) : tokens sep (c :: text) = tokens sep text := tokensFrom_sep hc

/-- Separators alone have no tokens. -/
theorem tokens_blank (blank : ∀ c ∈ text, sep c = true) : tokens sep text = [] := by
  induction text with
  | nil => rfl
  | cons c text ih =>
    rw [List.forall_mem_cons] at blank
    rw [tokens_cons_sep blank.1, ih blank.2]

/-- Separators at the end do not count. -/
theorem tokens_append_blank (blank : ∀ c ∈ text, sep c = true) (front : List α) :
    tokens sep (front ++ text) = tokens sep front := by
  cases text with
  | nil => rw [List.append_nil]
  | cons c text =>
    rw [List.forall_mem_cons] at blank
    rw [tokens_append blank.1, tokens_blank blank.2, List.append_nil]

theorem tokens_dropWhile (text : List α) : tokens sep (text.dropWhile sep) = tokens sep text := by
  induction text with
  | nil => rfl
  | cons c text ih =>
    rw [List.dropWhile_cons]
    split
    next hc => rw [ih, tokens_cons_sep hc]
    next => rfl

theorem head_dropWhile {p : α → Bool} {rest : List α} (h : text.dropWhile p = c :: rest) : p c = false := by
  have head := List.head_dropWhile_not p (l := text) (by rw [h]; exact List.cons_ne_nil c rest)
  simpa only [h, List.head_cons] using head

theorem mem_takeWhile_not (h : c ∈ text.takeWhile (!sep ·)) : sep c = false := by
  have kept := List.mem_takeWhile_imp h
  exact (Bool.not_eq_true' _).mp kept

/-- A text that starts with a token: that token, and those after the separator at its end. -/
theorem tokens_takeWhile (text : List α) (word : text.takeWhile (!sep ·) ≠ []) :
    tokens sep text = text.takeWhile (!sep ·) :: tokens sep (text.dropWhile (!sep ·)).tail := by
  have split : tokens sep text = tokensFrom sep (text.takeWhile (!sep ·)) (text.dropWhile (!sep ·)) := by
    conv_lhs => rw [← List.takeWhile_append_dropWhile (p := (!sep ·)) (l := text)]
    exact tokensFrom_word fun c hc => mem_takeWhile_not hc
  have flushed : flush (text.takeWhile (!sep ·)) = [text.takeWhile (!sep ·)] :=
    if_neg (by rw [List.isEmpty_iff]; exact word)
  rw [split]
  cases after : text.dropWhile (!sep ·) with
  | nil => exact flushed
  | cons d rest =>
    have hd := head_dropWhile after
    rw [Bool.not_eq_false'] at hd
    rw [tokensFrom_sep hd, flushed]
    rfl

/-- The tokens of texts that are joined with a separator. -/
theorem tokens_intercalate (hc : sep c = true) (texts : List (List α)) :
    tokens sep ([c].intercalate texts) = texts.flatMap (tokens sep) := by
  induction texts with
  | nil => rfl
  | cons t texts ih =>
    cases texts with
    | nil => simp [List.intercalate]
    | cons t' texts =>
      have join : [c].intercalate (t :: t' :: texts) = t ++ c :: [c].intercalate (t' :: texts) := by
        simp [List.intercalate]
      rw [join, tokens_append hc, ih]
      exact List.flatMap_cons.symm

/-- The tokens have the characters that are no separators. -/
theorem flatten_tokensFrom : (tokensFrom sep token text).flatten = token ++ text.filter fun c => !sep c := by
  induction text generalizing token with
  | nil =>
    cases token with
    | nil => rfl
    | cons c token => rw [tokensFrom, flush_cons, List.flatten_singleton, List.filter_nil, List.append_nil]
  | cons c text ih =>
    cases hc : sep c with
    | true =>
      rw [tokensFrom_sep hc, List.flatten_append, tokens, ih, List.filter_cons_of_neg (by rw [hc]; decide)]
      cases token <;> simp [flush]
    | false => rw [tokensFrom_char hc, ih, List.filter_cons_of_pos (by rw [hc]; rfl), List.append_assoc, List.singleton_append]

theorem flatten_tokens (text : List α) : (tokens sep text).flatten = text.filter fun c => !sep c := flatten_tokensFrom

end Tokens
