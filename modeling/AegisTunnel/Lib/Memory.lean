import AegisTunnel.Lib.Octets

/-! A memory of octets, read and written at offsets: what a write leaves alone, how writes that follow each
    other combine, and the loop that masks octets from one place into another, where the two may be the same. -/

namespace Octets
variable {mem bytes more : Octets} {off i n src dst k : Nat}

/-- The `n` octets from `off` on. -/
def slice (mem : Octets) (off n : Nat) : Octets := (mem.drop off).take n

/-- The memory with `bytes` written from `off` on. -/
def poke (mem : Octets) (off : Nat) (bytes : Octets) : Octets :=
  mem.take off ++ bytes ++ mem.drop (off + bytes.length)

@[simp] theorem length_poke (room : off + bytes.length ≤ mem.length) : (poke mem off bytes).length = mem.length := by
  simp only [poke, List.length_append, List.length_take, List.length_drop]
  omega

theorem length_slice (bound : off + n ≤ mem.length) : (slice mem off n).length = n := by
  simp only [slice, List.length_take, List.length_drop]
  omega

@[simp] theorem poke_nil : poke mem off [] = mem := by
  simp [poke]

theorem slice_add : slice mem off (n + k) = slice mem off n ++ slice mem (off + n) k := by
  rw [slice, List.take_add, List.drop_drop, ← slice, ← slice]

/-! ### Reading what is written -/

theorem slice_poke (len : bytes.length = n) (room : off + n ≤ mem.length) : slice (poke mem off bytes) off n = bytes := by
  have before : (mem.take off).length = off := by rw [List.length_take]; omega
  rw [slice, poke, List.append_assoc, List.drop_left' before, List.take_left' len]

theorem poke_all (len : bytes.length = mem.length) : poke mem 0 bytes = bytes := by
  rw [poke, List.take_zero, List.nil_append, Nat.zero_add, len, List.drop_length, List.append_nil]

theorem take_poke (bound : off ≤ mem.length) : (poke mem off bytes).take (off + bytes.length) = mem.take off ++ bytes := by
  have before : (mem.take off ++ bytes).length = off + bytes.length := by
    rw [List.length_append, List.length_take, Nat.min_eq_left bound]
  rw [poke, List.take_left' before]

theorem drop_poke (room : off + bytes.length = mem.length) : (poke mem off bytes).drop off = bytes := by
  have len : (mem.take off).length = off := by rw [List.length_take]; omega
  rw [poke, List.append_assoc, List.drop_left' len, room, List.drop_length, List.append_nil]

/-! ### Reading what is left alone -/

theorem getElem?_poke (room : off + bytes.length ≤ mem.length) (outside : i < off ∨ off + bytes.length ≤ i) :
    (poke mem off bytes)[i]? = mem[i]? := by
  have len : (mem.take off).length = off := by rw [List.length_take]; omega
  rw [poke, List.append_assoc]
  rcases outside with before | after
  · rw [List.getElem?_append_left (by omega), List.getElem?_take_of_lt before]
  · rw [List.getElem?_append_right (by omega), List.getElem?_append_right (by omega), List.getElem?_drop, len]
    congr 1
    omega

theorem slice_poke_of_disjoint (room : off + bytes.length ≤ mem.length)
    (disjoint : src + n ≤ off ∨ off + bytes.length ≤ src) : slice (poke mem off bytes) src n = slice mem src n := by
  apply List.ext_getElem?
  intro i
  by_cases bound : i < n
  · rw [slice, slice, List.getElem?_take_of_lt bound, List.getElem?_take_of_lt bound, List.getElem?_drop,
      List.getElem?_drop, getElem?_poke room (by omega)]
  · rw [slice, slice, List.getElem?_take_eq_none (Nat.not_lt.mp bound), List.getElem?_take_eq_none (Nat.not_lt.mp bound)]

/-! ### Writes that follow each other -/

theorem poke_poke (len : bytes.length = n) (room : off + n + more.length ≤ mem.length) :
    poke (poke mem off bytes) (off + n) more = poke mem off (bytes ++ more) := by
  have before : (mem.take off ++ bytes).length = off + n := by
    rw [List.length_append, List.length_take, len]
    omega
  simp only [poke, len, List.length_append]
  rw [List.take_left' before, ← List.drop_drop, List.drop_left' before, List.drop_drop, ← Nat.add_assoc, ← List.append_assoc]

theorem poke_again (room : off + bytes.length ≤ mem.length) (len : more.length = bytes.length) :
    poke (poke mem off bytes) off more = poke mem off more := by
  have before : (mem.take off).length = off := by rw [List.length_take]; omega
  simp only [poke, len]
  rw [List.append_assoc (mem.take off) bytes, List.take_left' before, ← List.drop_drop, List.drop_left' before, List.drop_left]

theorem set_poke (len : bytes.length = n) (room : off + n < mem.length) (x : UInt8) :
    (poke mem off bytes).set (off + n) x = poke mem off (bytes ++ [x]) := by
  have before : (mem.take off ++ bytes).length = off + n := by
    rw [List.length_append, List.length_take, len]
    omega
  simp only [poke, len, List.length_append, List.length_singleton]
  rw [List.set_append_right _ _ before.le, before, Nat.sub_self, List.drop_eq_getElem_cons room, List.set_cons_zero,
    ← Nat.add_assoc]
  simp only [List.append_assoc, List.singleton_append]

/-! ### Masking from one place into another -/

/-- `for (i = 0; i < k; i++) dst[i] = src[i] ^ ks[i]`. -/
def xorLoop (ks : Word n) (dst src : Nat) : Nat → Octets → Octets
  | 0, mem => mem
  | k + 1, mem =>
    let mem := xorLoop ks dst src k mem
    mem.set (dst + k) (mem.getD (src + k) 0 ^^^ ks.toList.getD k 0)

theorem mask_slice_succ (ks : Word n) (bound : src + k < mem.length) (lanes : k < n) :
    mask (slice mem src (k + 1)) ks = mask (slice mem src k) ks ++ [mem.getD (src + k) 0 ^^^ ks.toList.getD k 0] := by
  have one : slice mem (src + k) 1 = [mem.getD (src + k) 0] := by
    rw [slice, List.drop_eq_getElem_cons bound, List.take_succ_cons, List.take_zero, List.getD_eq_getElem?_getD,
      List.getElem?_eq_getElem bound, Option.getD_some]
  have len : (slice mem src k).length = (ks.toList.take k).length := by
    rw [length_slice (by omega), List.length_take, List.Vector.toList_length]
    omega
  have lane : ks.toList.drop k = ks.toList.getD k 0 :: ks.toList.drop (k + 1) := by
    have bound : k < ks.toList.length := by rwa [List.Vector.toList_length]
    rw [List.drop_eq_getElem_cons bound, List.getD_eq_getElem?_getD, List.getElem?_eq_getElem bound, Option.getD_some]
  have cut : ∀ r, mask (slice mem src k ++ r) ks =
      List.zipWith (· ^^^ ·) (slice mem src k) (ks.toList.take k) ++ List.zipWith (· ^^^ ·) r (ks.toList.drop k) := fun r => by
    rw [mask, ← List.zipWith_append len, List.take_append_drop]
  have before := cut []
  rw [List.append_nil, List.zipWith_nil_left, List.append_nil] at before
  rw [slice_add, one, cut, before, lane, List.zipWith_cons_cons, List.zipWith_nil_left]

/-- The loop never writes an octet before it has read it, if the target does not start inside the source. -/
theorem xorLoop_eq (ks : Word n) (lanes : k ≤ n) (room : dst + k ≤ mem.length) (bound : src + k ≤ mem.length)
    (forward : dst ≤ src ∨ src + k ≤ dst) : xorLoop ks dst src k mem = poke mem dst (mask (slice mem src k) ks) := by
  induction k with
  | zero => simp [xorLoop, slice, mask]
  | succ k ih =>
    have len : (mask (slice mem src k) ks).length = k := by
      rw [length_mask ks (by rw [length_slice (by omega)]; omega), length_slice (by omega)]
    have unread : (poke mem dst (mask (slice mem src k) ks)).getD (src + k) 0 = mem.getD (src + k) 0 := by
      rw [List.getD_eq_getElem?_getD, List.getD_eq_getElem?_getD, getElem?_poke (by omega) (by omega)]
    rw [xorLoop, ih (by omega) (by omega) (by omega) (by omega), unread, mask_slice_succ ks (by omega) (by omega)]
    exact set_poke len (by omega) _

end Octets
