import AegisTunnel.Lib.Octets

/-! Stream encryption by a duplex: a state gives the key stream of the next block and then absorbs the
    plaintext of that block. Encryption and decryption run the same states, so each undoes the other,
    block after block and on a last block of any length. -/

open Octets

/-- A state type with the key stream of a state and the state after absorbing a plaintext block. -/
structure Duplex (σ : Type) (n : Nat) where
  keyStream : σ → Word n
  update : σ → Word n → σ

namespace Duplex
variable {σ τ : Type} {n : Nat} (d : Duplex σ n)

/-- Encrypt the first `k` blocks of `src`: the ciphertext and the state after them. -/
def encLoop : Nat → σ → Octets → Octets × σ
  | 0, S, _ => ([], S)
  | k + 1, S, src =>
    let pt := load n src
    let r := encLoop k (d.update S pt) (src.drop n)
    ((pt.xor (d.keyStream S)).toList ++ r.1, r.2)

def decLoop : Nat → σ → Octets → Octets × σ
  | 0, S, _ => ([], S)
  | k + 1, S, src =>
    let pt := (load n src).xor (d.keyStream S)
    let r := decLoop k (d.update S pt) (src.drop n)
    (pt.toList ++ r.1, r.2)

/-- Encrypt a last block of fewer than `n` octets, absorbing it zero-padded; nothing happens on none. -/
def encTail (S : σ) (src : Octets) : Octets × σ :=
  if src.length > 0 then (mask src (d.keyStream S), d.update S (load n src)) else ([], S)

def decTail (S : σ) (src : Octets) : Octets × σ :=
  if src.length > 0 then
    let pt := mask src (d.keyStream S)
    (pt, d.update S (load n pt))
  else ([], S)

/-- Encrypt a text of any length: its whole blocks, then the rest. -/
def encText (S : σ) (src : Octets) : Octets × σ :=
  let r := d.encLoop (src.length / n) S src
  let t := d.encTail r.2 (src.drop (src.length / n * n))
  (r.1 ++ t.1, t.2)

def decText (S : σ) (src : Octets) : Octets × σ :=
  let r := d.decLoop (src.length / n) S src
  let t := d.decTail r.2 (src.drop (src.length / n * n))
  (r.1 ++ t.1, t.2)

/-- The duplex that absorbs a block after masking it. -/
def masked : Duplex σ n := ⟨d.keyStream, fun S b => d.update S (b.xor (d.keyStream S))⟩

/-! ### Whole blocks -/

section Blocks
variable {d} {k : Nat} {S : σ} {m c : Octets}

@[simp] theorem length_encLoop : (d.encLoop k S m).1.length = k * n := by
  induction k generalizing S m with
  | zero => simp [encLoop]
  | succ k ih => rw [encLoop, List.length_append, List.Vector.toList_length, ih, Nat.succ_mul, Nat.add_comm]

@[simp] theorem length_decLoop : (d.decLoop k S c).1.length = k * n := by
  induction k generalizing S c with
  | zero => simp [decLoop]
  | succ k ih => rw [decLoop, List.length_append, List.Vector.toList_length, ih, Nat.succ_mul, Nat.add_comm]

/-- To decrypt is to encrypt and absorb what comes out. -/
theorem masked_encLoop : d.masked.encLoop k S c = d.decLoop k S c := by
  induction k generalizing S c with
  | zero => rfl
  | succ k ih => simp only [encLoop, decLoop, ih]; rfl

theorem encLoop_append (h : k * n ≤ m.length) (r : Octets) : d.encLoop k S (m ++ r) = d.encLoop k S m := by
  induction k generalizing S m with
  | zero => rfl
  | succ k ih =>
    have hn : n ≤ m.length := by rw [Nat.succ_mul] at h; omega
    have hrest : k * n ≤ (m.drop n).length := by rw [Nat.succ_mul] at h; simp; omega
    simp only [encLoop, load_append hn, List.drop_append_of_le_length hn, ih hrest]

theorem decLoop_append (h : k * n ≤ c.length) (r : Octets) : d.decLoop k S (c ++ r) = d.decLoop k S c := by
  induction k generalizing S c with
  | zero => rfl
  | succ k ih =>
    have hn : n ≤ c.length := by rw [Nat.succ_mul] at h; omega
    have hrest : k * n ≤ (c.drop n).length := by rw [Nat.succ_mul] at h; simp; omega
    simp only [decLoop, load_append hn, List.drop_append_of_le_length hn, ih hrest]

theorem encLoop_add (j k : Nat) (S : σ) (m : Octets) :
    d.encLoop (j + k) S m = ((d.encLoop j S m).1 ++ (d.encLoop k (d.encLoop j S m).2 (m.drop (j * n))).1,
      (d.encLoop k (d.encLoop j S m).2 (m.drop (j * n))).2) := by
  induction j generalizing S m with
  | zero => simp [encLoop]
  | succ j ih =>
    rw [Nat.succ_add]
    simp only [encLoop, ih, List.drop_drop, List.append_assoc, Nat.succ_mul, Nat.add_comm n]

theorem decLoop_add (j k : Nat) (S : σ) (c : Octets) :
    d.decLoop (j + k) S c = ((d.decLoop j S c).1 ++ (d.decLoop k (d.decLoop j S c).2 (c.drop (j * n))).1,
      (d.decLoop k (d.decLoop j S c).2 (c.drop (j * n))).2) := by
  induction j generalizing S c with
  | zero => simp [decLoop]
  | succ j ih =>
    rw [Nat.succ_add]
    simp only [decLoop, ih, List.drop_drop, List.append_assoc, Nat.succ_mul, Nat.add_comm n]

/-- Decryption recovers the blocks and runs the same states. -/
theorem decLoop_encLoop (h : k * n ≤ m.length) :
    d.decLoop k S (d.encLoop k S m).1 = (m.take (k * n), (d.encLoop k S m).2) := by
  induction k generalizing S m with
  | zero => simp [decLoop, encLoop]
  | succ k ih =>
    have hn : n ≤ m.length := by rw [Nat.succ_mul] at h; omega
    have hrest : k * n ≤ (m.drop n).length := by rw [Nat.succ_mul] at h; simp; omega
    -- The first ciphertext block unmasks to the first plaintext block, which both sides absorb.
    have hdrop : ∀ (w : Word n) (r : Octets), (w.toList ++ r).drop n = r := fun w r => by
      rw [List.drop_append_of_le_length (by simp)]
      simp
    simp only [encLoop, decLoop, load_toList_append, Word.xor_xor_cancel, hdrop, ih hrest]
    rw [toList_load_of_le hn, Nat.succ_mul, Nat.add_comm (k * n), List.take_add]

theorem encLoop_decLoop (h : k * n ≤ c.length) :
    d.encLoop k S (d.decLoop k S c).1 = (c.take (k * n), (d.decLoop k S c).2) := by
  induction k generalizing S c with
  | zero => simp [decLoop, encLoop]
  | succ k ih =>
    have hn : n ≤ c.length := by rw [Nat.succ_mul] at h; omega
    have hrest : k * n ≤ (c.drop n).length := by rw [Nat.succ_mul] at h; simp; omega
    have hdrop : ∀ (w : Word n) (r : Octets), (w.toList ++ r).drop n = r := fun w r => by
      rw [List.drop_append_of_le_length (by simp)]
      simp
    simp only [encLoop, decLoop, load_toList_append, Word.xor_xor_cancel, hdrop, ih hrest]
    rw [toList_load_of_le hn, Nat.succ_mul, Nat.add_comm (k * n), List.take_add]

/-- The plaintext blocks of `c` are `m` exactly when the ciphertext blocks of `m` are those of `c`. -/
theorem decLoop_eq_iff (hc : k * n ≤ c.length) (hm : m.length = k * n) :
    (d.decLoop k S c).1 = m ↔ (d.encLoop k S m).1 = c.take (k * n) := by
  constructor
  · rintro rfl
    rw [encLoop_decLoop hc]
  · intro h
    have hdec := decLoop_encLoop (d := d) (S := S) hm.ge
    have hcut := decLoop_append (d := d) (S := S) (c := c.take (k * n)) (k := k) (by simp [hc]) (c.drop (k * n))
    rw [List.take_append_drop] at hcut
    rw [hcut, ← h, hdec, List.take_of_length_le hm.le]

end Blocks

/-! ### Texts of any length -/

section Text
variable {d} {S : σ} {m c : Octets}

theorem length_encTail (h : m.length ≤ n) : (d.encTail S m).1.length = m.length := by
  unfold encTail
  split
  · exact length_mask _ h
  · simp; omega

theorem length_decTail (h : c.length ≤ n) : (d.decTail S c).1.length = c.length := by
  unfold decTail
  split
  · exact length_mask _ h
  · simp; omega

theorem decTail_encTail (h : m.length ≤ n) : d.decTail S (d.encTail S m).1 = (m, (d.encTail S m).2) := by
  by_cases hm : m.length > 0
  · simp only [encTail, decTail, hm, if_true, length_mask _ h, mask_mask _ h]
  · have : m = [] := List.length_eq_zero_iff.mp (by omega)
    subst this
    simp [encTail, decTail]

theorem encTail_decTail (h : c.length ≤ n) : d.encTail S (d.decTail S c).1 = (c, (d.decTail S c).2) := by
  by_cases hc : c.length > 0
  · simp only [encTail, decTail, hc, if_true, length_mask _ h, mask_mask _ h]
  · have : c = [] := List.length_eq_zero_iff.mp (by omega)
    subst this
    simp [encTail, decTail]

theorem length_rest (hn : 0 < n) (l : Octets) : (l.drop (l.length / n * n)).length < n := by
  have := Nat.mod_lt l.length hn
  have := Nat.div_add_mod' l.length n
  simp
  omega

theorem blocks_le (l : Octets) : l.length / n * n ≤ l.length := Nat.div_mul_le_self _ _

@[simp] theorem length_encText (hn : 0 < n) : (d.encText S m).1.length = m.length := by
  have := blocks_le (n := n) m
  simp only [encText, List.length_append, length_encLoop, length_encTail (length_rest hn m).le, List.length_drop]
  omega

@[simp] theorem length_decText (hn : 0 < n) : (d.decText S c).1.length = c.length := by
  have := blocks_le (n := n) c
  simp only [decText, List.length_append, length_decLoop, length_decTail (length_rest hn c).le, List.length_drop]
  omega

theorem decText_encText (hn : 0 < n) : d.decText S (d.encText S m).1 = (m, (d.encText S m).2) := by
  have hlen : (d.encText S m).1.length = m.length := length_encText hn
  have hloop : (d.encLoop (m.length / n) S m).1.length = m.length / n * n := length_encLoop
  unfold decText
  rw [hlen]
  simp only [encText]
  rw [decLoop_append hloop.ge, decLoop_encLoop (blocks_le m), List.drop_append_of_le_length hloop.ge,
    List.drop_of_length_le hloop.le, List.nil_append, decTail_encTail (length_rest hn m).le, List.take_append_drop]

theorem encText_decText (hn : 0 < n) : d.encText S (d.decText S c).1 = (c, (d.decText S c).2) := by
  have hlen : (d.decText S c).1.length = c.length := length_decText hn
  have hloop : (d.decLoop (c.length / n) S c).1.length = c.length / n * n := length_decLoop
  unfold encText
  rw [hlen]
  simp only [decText]
  rw [encLoop_append hloop.ge, encLoop_decLoop (blocks_le c), List.drop_append_of_le_length hloop.ge,
    List.drop_of_length_le hloop.le, List.nil_append, encTail_decTail (length_rest hn c).le, List.take_append_drop]

/-- Decryption of `c` gives `m` exactly when encryption of `m` gives `c`, with the same last state. -/
theorem decText_eq_iff (hn : 0 < n) {S' : σ} : d.decText S c = (m, S') ↔ d.encText S m = (c, S') := by
  constructor
  · intro h
    have := encText_decText (d := d) (S := S) (c := c) hn
    rwa [h] at this
  · intro h
    have := decText_encText (d := d) (S := S) (m := m) hn
    rwa [h] at this

@[simp] theorem encText_nil : d.encText S [] = ([], S) := by simp [encText, encLoop, encTail]

@[simp] theorem decText_nil : d.decText S [] = ([], S) := by simp [decText, decLoop, decTail]

/-- A text cut at a block boundary is processed piece by piece. -/
theorem encText_blocks_append (hn : 0 < n) {k : Nat} (hm : m.length = k * n) (r : Octets) :
    d.encText S (m ++ r) = ((d.encLoop k S m).1 ++ (d.encText (d.encLoop k S m).2 r).1,
      (d.encText (d.encLoop k S m).2 r).2) := by
  have hdiv : (m ++ r).length / n = k + r.length / n := by
    rw [List.length_append, hm, Nat.mul_comm, Nat.mul_add_div hn]
  have hdrop : (m ++ r).drop ((k + r.length / n) * n) = r.drop (r.length / n * n) := by
    rw [Nat.add_mul, ← hm, ← List.drop_drop, List.drop_left]
  simp only [encText, hdiv, hdrop, encLoop_add, encLoop_append hm.ge, ← hm, List.drop_left, List.append_assoc]

theorem decText_blocks_append (hn : 0 < n) {k : Nat} (hc : c.length = k * n) (r : Octets) :
    d.decText S (c ++ r) = ((d.decLoop k S c).1 ++ (d.decText (d.decLoop k S c).2 r).1,
      (d.decText (d.decLoop k S c).2 r).2) := by
  have hdiv : (c ++ r).length / n = k + r.length / n := by
    rw [List.length_append, hc, Nat.mul_comm, Nat.mul_add_div hn]
  have hdrop : (c ++ r).drop ((k + r.length / n) * n) = r.drop (r.length / n * n) := by
    rw [Nat.add_mul, ← hc, ← List.drop_drop, List.drop_left]
  simp only [decText, hdiv, hdrop, decLoop_add, decLoop_append hc.ge, ← hc, List.drop_left, List.append_assoc]

end Text

end Duplex
