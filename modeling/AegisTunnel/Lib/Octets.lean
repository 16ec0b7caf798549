import Mathlib.Data.Vector.Zip
import Mathlib.Tactic

/-! Octet strings and words of a fixed number of octets: the lane-wise operations, reading a word from
    the front of a string with zero padding, and the two positional encodings of numbers. -/

abbrev Octets := List UInt8

namespace Octets

abbrev Word (n : Nat) := List.Vector UInt8 n

namespace Word
variable {n : Nat}

def xor (a b : Word n) : Word n := List.Vector.zipWith (· ^^^ ·) a b

def and (a b : Word n) : Word n := List.Vector.zipWith (· &&& ·) a b

def zero (n : Nat) : Word n := List.Vector.replicate n 0

@[simp] theorem get_xor (a b : Word n) (i : Fin n) : (a.xor b).get i = a.get i ^^^ b.get i :=
  List.Vector.zipWith_get _ a b i

@[simp] theorem toList_xor (a b : Word n) : (a.xor b).toList = List.zipWith (· ^^^ ·) a.toList b.toList := rfl

@[simp] theorem xor_xor_cancel (a b : Word n) : (a.xor b).xor b = a := by
  refine List.Vector.ext fun i => ?_
  rw [get_xor, get_xor, UInt8.xor_assoc, UInt8.xor_self, UInt8.xor_zero]

theorem xor_comm (a b : Word n) : a.xor b = b.xor a := by
  ext i
  rw [get_xor, get_xor, UInt8.xor_comm]

@[simp] theorem xor_zero (a : Word n) : a.xor (zero n) = a := by
  ext i
  rw [get_xor, zero, List.Vector.get_replicate, UInt8.xor_zero]

end Word

/-! ### Reading a word -/

/-- The first `n` octets of `l`, with zeros where `l` has fewer. -/
def load (n : Nat) (l : Octets) : Word n :=
  ⟨l.take n ++ List.replicate (n - l.length) 0, by simp; omega⟩

section load
variable {n : Nat} {l : Octets}

@[simp] theorem toList_load : (load n l).toList = l.take n ++ List.replicate (n - l.length) 0 := rfl

theorem toList_load_of_le (h : n ≤ l.length) : (load n l).toList = l.take n := by
  simp [Nat.sub_eq_zero_of_le h]

@[simp] theorem load_toList (w : Word n) : load n w.toList = w := by
  apply List.Vector.toList_injective
  rw [toList_load_of_le (by simp), List.take_of_length_le (by simp)]

theorem take_toList_load (h : l.length ≤ n) : (load n l).toList.take l.length = l := by
  rw [toList_load, List.take_of_length_le h, List.take_left]

theorem load_append (h : n ≤ l.length) (r : Octets) : load n (l ++ r) = load n l := by
  apply List.Vector.toList_injective
  rw [toList_load_of_le h, toList_load_of_le (by simp; omega), List.take_append_of_le_length h]

@[simp] theorem load_toList_append (w : Word n) (r : Octets) : load n (w.toList ++ r) = w := by
  rw [load_append (by simp), load_toList]

end load

/-- Every string is some words followed by fewer octets than a word has. -/
theorem words_induction {n : Nat} (pos : 0 < n) {P : Octets → Prop} (short : ∀ l, l.length < n → P l)
    (word : ∀ (w : Word n) (l : Octets), P l → P (w.toList ++ l)) (l : Octets) : P l := by
  induction h : l.length using Nat.strong_induction_on generalizing l with
  | _ k ih =>
    by_cases few : l.length < n
    · exact short l few
    · have cut : (load n l).toList ++ l.drop n = l := by
        rw [toList_load_of_le (Nat.not_lt.mp few), List.take_append_drop]
      rw [← cut]
      exact word _ _ (ih _ (by rw [List.length_drop]; omega) _ rfl)

def mask {n : Nat} (l : Octets) (w : Word n) : Octets := List.zipWith (· ^^^ ·) l w.toList

section mask
variable {n : Nat} {l : Octets}

@[simp] theorem length_mask (w : Word n) (h : l.length ≤ n) : (mask l w).length = l.length := by
  simp [mask, h]

theorem mask_mask (w : Word n) (h : l.length ≤ n) : mask (mask l w) w = l := by
  apply List.ext_getElem (by simp [mask, h])
  intro i _ _
  simp only [mask, List.getElem_zipWith, UInt8.xor_assoc, UInt8.xor_self, UInt8.xor_zero]

/-- Masking a string is masking its zero-padded word and keeping as many octets as the string has. -/
theorem take_toList_xor_load (w : Word n) (h : l.length ≤ n) :
    (((load n l).xor w).toList).take l.length = mask l w := by
  apply List.ext_getElem (by simp [mask, h])
  intro i hi _
  have hi' : i < l.length := by simp at hi; omega
  simp [mask, hi', Nat.lt_of_lt_of_le hi' h]

theorem mask_eq_toList (w : Word n) (h : l.length = n) : mask l w = ((load n l).xor w).toList := by
  rw [← take_toList_xor_load w h.le, List.take_of_length_le (by rw [List.Vector.toList_length, h])]

end mask

/-! ### Two-octet numbers -/

theorem land_255 (n : Nat) : n &&& 255 = n % 256 := Nat.and_two_pow_sub_one_eq_mod n 8

theorem be16_eq (h l : UInt8) : (h.toNat <<< 8) ||| l.toNat = h.toNat * 256 + l.toNat := by
  rw [← Nat.shiftLeft_add_eq_or_of_lt l.toNat_lt, Nat.shiftLeft_eq]

/-! ### Four-octet numbers -/

theorem or_eq_add_of_lt {a b : Nat} (k : Nat) (hb : b < 256) : (a <<< (k + 8)) ||| (b <<< k) = (a * 256 + b) <<< k := by
  rw [Nat.add_comm k 8, Nat.shiftLeft_add, ← Nat.shiftLeft_or_distrib, ← Nat.shiftLeft_add_eq_or_of_lt hb,
    Nat.shiftLeft_eq a 8]

/-- Four numbers below 256, put side by side. -/
theorem toNat_or_octets {a b c d : UInt32} (ha : a.toNat < 256) (hb : b.toNat < 256) (hc : c.toNat < 256)
    (hd : d.toNat < 256) :
    ((a <<< 24) ||| (b <<< 16) ||| (c <<< 8) ||| d).toNat =
      a.toNat * 2 ^ 24 + b.toNat * 2 ^ 16 + c.toNat * 2 ^ 8 + d.toNat := by
  have hshift : ∀ {x : UInt32} (k : UInt32), x.toNat < 256 → k.toNat ≤ 24 → (x <<< k).toNat = x.toNat <<< k.toNat := by
    intro x k hx hk
    have hpow : 2 ^ k.toNat ≤ 2 ^ 24 := Nat.pow_le_pow_right (by decide) hk
    have hlt : x.toNat * 2 ^ k.toNat < 2 ^ 32 :=
      calc x.toNat * 2 ^ k.toNat ≤ 255 * 2 ^ 24 := Nat.mul_le_mul (by omega) hpow
        _ < 2 ^ 32 := by decide
    rw [UInt32.toNat_shiftLeft, Nat.mod_eq_of_lt (by omega : k.toNat < 32), Nat.shiftLeft_eq, Nat.mod_eq_of_lt hlt]
  have h24 : (24 : UInt32).toNat = 24 := rfl
  have h16 : (16 : UInt32).toNat = 16 := rfl
  have h8 : (8 : UInt32).toNat = 8 := rfl
  rw [UInt32.toNat_or, UInt32.toNat_or, UInt32.toNat_or, hshift 24 ha (by decide), hshift 16 hb (by decide),
    hshift 8 hc (by decide), h24, h16, h8, or_eq_add_of_lt 16 hb, or_eq_add_of_lt 8 hc,
    ← Nat.shiftLeft_add_eq_or_of_lt hd, Nat.shiftLeft_eq]
  omega

theorem toNat_shl_or_octet {x : UInt32} (y : UInt8) (h : x.toNat < 2 ^ 24) :
    ((x <<< 8) ||| y.toUInt32).toNat = x.toNat * 256 + y.toNat := by
  have hy := y.toNat_lt
  have h8 : (8 : UInt32).toNat % 32 = 8 := rfl
  rw [UInt32.toNat_or, UInt32.toNat_shiftLeft, UInt8.toNat_toUInt32, h8, Nat.shiftLeft_eq, Nat.mod_eq_of_lt (by omega),
    ← Nat.shiftLeft_eq, ← Nat.shiftLeft_add_eq_or_of_lt (by omega), Nat.shiftLeft_eq]

theorem toNat_octet (x : UInt32) (k : UInt32) (hk : k.toNat < 32) :
    ((x >>> k) &&& 0xff).toNat = x.toNat / 2 ^ k.toNat % 256 := by
  have hff : (0xff : UInt32).toNat = 255 := rfl
  rw [UInt32.toNat_and, UInt32.toNat_shiftRight, Nat.mod_eq_of_lt hk, Nat.shiftRight_eq_div_pow, hff, land_255]

/-- A number is its four octets put side by side. -/
theorem or_octets_eq (x : UInt32) :
    (((x >>> 24) &&& 0xff) <<< 24) ||| (((x >>> 16) &&& 0xff) <<< 16) ||| (((x >>> 8) &&& 0xff) <<< 8) |||
      ((x >>> 0) &&& 0xff) = x := by
  have h24 : (24 : UInt32).toNat = 24 := rfl
  have h16 : (16 : UInt32).toNat = 16 := rfl
  have h8 : (8 : UInt32).toNat = 8 := rfl
  have h0 : (0 : UInt32).toNat = 0 := rfl
  have hx := x.toNat_lt
  have e24 := toNat_octet x 24 (by decide)
  have e16 := toNat_octet x 16 (by decide)
  have e8 := toNat_octet x 8 (by decide)
  have e0 := toNat_octet x 0 (by decide)
  rw [h24] at e24
  rw [h16] at e16
  rw [h8] at e8
  rw [h0] at e0
  apply UInt32.toNat_inj.mp
  rw [toNat_or_octets (by omega) (by omega) (by omega) (by omega), e24, e16, e8, e0]
  omega

end Octets
