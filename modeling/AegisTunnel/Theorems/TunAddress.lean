import AegisTunnel.TunAddress
import AegisTunnel.Theorems.Routing

/-! # The route that is derived of the address

An address with the length of its network gives the device its network. The route that `main` derives is
compared with it: the route has the first three octets of the address, whatever the length is. -/

namespace AegisTunnel
open Octets

/-! ### Networks -/

/-- The mask of `p` ones. -/
def netmask (p : Nat) : UInt32 := UInt32.ofNat (2 ^ 32 - 2 ^ (32 - p))

/-- The text is an address with a length, and the addresses that have the same first bits, as many as the length says, are
those of `net`. The address in the text may have other bits beyond these, as that of a device has. -/
def Denotes (text : List Char) (net : Cidr) : Prop :=
  ∃ c : Cidr, c.text = text ∧ c.bits = net.bits ∧ ∀ ip : UInt32, ip ∈ c ↔ ip ∈ net

theorem and_sub_two_pow {x k : Nat} (hx : x < 2 ^ 32) (hk : k ≤ 32) : x &&& (2 ^ 32 - 2 ^ k) = x / 2 ^ k * 2 ^ k := by
  have hmask : 2 ^ 32 - 2 ^ k = (2 ^ (32 - k) - 1) <<< k := by
    rw [Nat.shiftLeft_eq, Nat.sub_mul, ← Nat.pow_add, Nat.sub_add_cancel hk, Nat.one_mul]
  rw [hmask, ← Nat.shiftRight_eq_div_pow, ← Nat.shiftLeft_eq]
  apply Nat.eq_of_testBit_eq
  intro i
  rw [Nat.testBit_and, Nat.testBit_shiftLeft, Nat.testBit_shiftLeft, Nat.testBit_shiftRight, Nat.testBit_two_pow_sub_one]
  by_cases low : k ≤ i
  · rw [Nat.add_sub_cancel' low]
    by_cases high : i < 32
    · have hin : i - k < 32 - k := by omega
      simp [low, hin]
    · have hzero : x.testBit i = false := Nat.testBit_lt_two_pow (hx.trans_le (Nat.pow_le_pow_right (by decide) (Nat.not_lt.mp high)))
      simp [hzero]
  · simp [low]

theorem toNat_and_netmask (x : UInt32) (p : Nat) :
    (x &&& netmask p).toNat = x.toNat / 2 ^ (32 - p) * 2 ^ (32 - p) := by
  have hlt : 2 ^ 32 - 2 ^ (32 - p) < 2 ^ 32 := Nat.sub_lt (by decide) (Nat.two_pow_pos _)
  rw [UInt32.toNat_and, netmask, UInt32.toNat_ofNat_of_lt' hlt, and_sub_two_pow x.toNat_lt (Nat.sub_le ..)]

/-- The addresses of a network have its bits under the mask. -/
theorem Cidr.mem_iff (net : Cidr) (ip : UInt32) : ip ∈ net ↔ ip &&& netmask net.bits = net.addr &&& netmask net.bits := by
  rw [← UInt32.toNat_inj, toNat_and_netmask, toNat_and_netmask,
    Nat.mul_left_inj (Nat.two_pow_pos _).ne']
  rfl

/-- The network with the address that it starts at. -/
def Cidr.network (net : Cidr) : Cidr := ⟨net.addr &&& netmask net.bits, net.bits, net.le⟩

theorem Cidr.mem_network (net : Cidr) (ip : UInt32) : ip ∈ net.network ↔ ip ∈ net := by
  rw [Cidr.mem_iff, Cidr.mem_iff, Cidr.network, UInt32.and_assoc, UInt32.and_self]

/-! ### Their texts -/

theorem strchr_append {c : Char} {front : List Char} (h : c ∉ front) (rest : List Char) :
    strchr c (front ++ c :: rest) = some (front, rest) := by
  have hpass : ∀ x ∈ front, decide (x ≠ c) = true := by
    intro x hx
    exact decide_eq_true (ne_of_mem_of_not_mem hx h)
  rw [strchr, if_pos (List.mem_append_right _ (List.mem_cons_self ..)), List.takeWhile_append_of_pos hpass,
    List.dropWhile_append_of_pos hpass]
  simp

theorem not_mem_toDigits {c : Char} (h : c.isDigit = false) (n : Nat) : c ∉ Nat.toDigits 10 n := by
  intro hc
  rw [isDigit_of_mem hc] at h
  cases h

theorem slash_not_mem_inetNtop (ip : UInt32) : '/' ∉ inetNtop ip := by
  have hdigits : ∀ n, '/' ∉ Nat.toDigits 10 n := not_mem_toDigits (by decide)
  simp [inetNtop_eq, hdigits]

theorem length_inetNtop_le (ip : UInt32) : (inetNtop ip).length ≤ 15 := by
  rw [← (inetNtop_fits ip).2]
  exact List.length_take_le ..

theorem Cidr.strchr_text (net : Cidr) : strchr '/' net.text = some (inetNtop net.addr, Nat.toDigits 10 net.bits) :=
  strchr_append (slash_not_mem_inetNtop _) _

theorem Cidr.text_injective : Function.Injective Cidr.text := by
  rintro ⟨a, p, hp⟩ ⟨a', p', hp'⟩ same
  have hsplit := congrArg (strchr '/') same
  rw [Cidr.strchr_text, Cidr.strchr_text, Option.some.injEq, Prod.mk.injEq] at hsplit
  obtain ⟨haddr, hbits⟩ := hsplit
  obtain rfl : a = a' := inetNtop_injective haddr
  have hvalue := congrArg (fun digits => Nat.ofDigitChars 10 digits 0) hbits
  simp only [Nat.ofDigitChars_toDigits (show 1 < 10 by decide) (show 10 ≤ 10 by decide)] at hvalue
  obtain rfl : p = p' := hvalue
  rfl

/-- For the text of a network, what it denotes is a matter of the network. -/
theorem denotes_text_iff {c net : Cidr} (hbits : c.bits = net.bits) : Denotes c.text net ↔ ∀ ip : UInt32, ip ∈ c ↔ ip ∈ net := by
  constructor
  · rintro ⟨d, htext, -, hmem⟩
    obtain rfl := Cidr.text_injective htext
    exact hmem
  · intro hmem
    exact ⟨c, rfl, hbits, hmem⟩

/-! ### What `main` derives -/

theorem atoi_toDigits {n : Nat} (h : n < 2 ^ 31) : atoi (Nat.toDigits 10 n) = n := by
  obtain ⟨htake, hdrop⟩ := takeWhile_digits (fun c hc => isDigit_of_mem (n := n) hc) endsNumber_nil
  have hsign := scanSign_toDigits (List.forall_mem_nil fun c => isSpace c = true) n []
  rw [List.append_nil] at htake hdrop hsign
  rw [List.nil_append] at hsign
  have hvalue : Nat.ofDigitChars 10 (Nat.toDigits 10 n) 0 = n := Nat.ofDigitChars_toDigits (by decide) (by decide)
  have hmin : min (n : Int) (2 ^ 63 - 1) = n := by omega
  have hint : toInt (n : Int) = n := by
    rw [toInt]
    exact Int.bmod_eq_of_le (by omega) (by omega)
  unfold atoi strtol
  dsimp only
  rw [hsign]
  dsimp only
  rw [htake, hdrop, isEmpty_toDigits, hvalue]
  simp only [Bool.false_eq_true, if_false, Option.map_some, Option.getD_some, hmin, hint]

theorem netmaskOf_eq {p : Nat} (hp : p ≤ 32) : netmaskOf p = netmask p := by
  have all : ∀ p < 33, netmaskOf (p : Nat) = netmask p := by decide +kernel
  exact all p (Nat.lt_succ_of_le hp)

theorem netmaskText_eq {p : Nat} (hp : p ≤ 32) : netmaskText p = inetNtop (netmask p) := by
  have hlen := length_inetNtop_le (netmask p)
  rw [netmaskText, netmaskOf_eq hp, snprintf, List.take_of_length_le (by omega)]

theorem scanOctets_inetNtop (ip : UInt32) :
    scanOctets (inetNtop ip) = some (([24, 16, 8, 0] : List UInt32).map fun i => (ip >>> i) &&& 0xff) := by
  have last := scanUnsigned_octet ip 0 endsNumber_nil
  rw [List.append_nil] at last
  unfold scanOctets
  simp only [inetNtop_eq, scanUnsigned_octet ip _ (endsNumber_dot _), last, scanChar, if_true, Option.bind_eq_bind,
    Option.bind_some]
  rfl

/-- `tun_set_ip` finds the length in the netmask that was made of it. -/
theorem netmaskBits_eq {p : Nat} (hp : p ≤ 32) : netmaskBits (netmaskText p) = p := by
  have all : ∀ p < 33, ((([24, 16, 8, 0] : List UInt32).map fun i => (netmask p >>> i) &&& 0xff).map (bitLoop 32)).sum = p := by
    decide +kernel
  rw [netmaskText_eq hp, netmaskBits, scanOctets_inetNtop]
  exact all p (Nat.lt_succ_of_le hp)

/-- The address without its last octet. -/
def Cidr.derived (net : Cidr) : Cidr := ⟨net.addr &&& 0xffffff00, net.bits, net.le⟩

theorem inetNtop_and (a : UInt32) :
    inetNtop (a &&& 0xffffff00) = Nat.toDigits 10 ((a >>> 24) &&& 0xff).toNat ++ '.' ::
      (Nat.toDigits 10 ((a >>> 16) &&& 0xff).toNat ++ '.' :: (Nat.toDigits 10 ((a >>> 8) &&& 0xff).toNat ++ ['.', '0'])) := by
  have keep : ∀ i : UInt32, (0xffffff00 >>> i) &&& 0xff = (0xff : UInt32) →
      ((a &&& 0xffffff00) >>> i) &&& 0xff = (a >>> i) &&& 0xff := by
    intro i hi
    rw [UInt32.shiftRight_and, UInt32.and_assoc, hi]
  have clear : ((a &&& 0xffffff00) >>> 0) &&& 0xff = (0 : UInt32) := by
    rw [UInt32.shiftRight_zero, UInt32.and_assoc]
    exact UInt32.and_zero
  rw [inetNtop_eq, keep 24 (by decide), keep 16 (by decide), keep 8 (by decide), clear]
  rfl

theorem Cidr.length_text_le (net : Cidr) : net.text.length ≤ 18 := by
  have haddr := length_inetNtop_le net.addr
  have hbits : (Nat.toDigits 10 net.bits).length ≤ 2 := Nat.toDigits_length 10 _ 2 (by decide) (by have := net.le; omega)
  rw [Cidr.text, List.length_append, List.length_cons]
  omega

theorem deriveRoute_eq (net : Cidr) (old : List Char) : deriveRoute (inetNtop net.addr) net.bits old = net.derived.text := by
  let front := Nat.toDigits 10 ((net.addr >>> 24) &&& 0xff).toNat ++ '.' ::
    (Nat.toDigits 10 ((net.addr >>> 16) &&& 0xff).toNat ++ '.' :: Nat.toDigits 10 ((net.addr >>> 8) &&& 0xff).toNat)
  let last := Nat.toDigits 10 ((net.addr >>> 0) &&& 0xff).toNat
  have hsplit : (inetNtop net.addr).reverse = last.reverse ++ '.' :: front.reverse := by
    simp [inetNtop_eq, front, last]
  have hdot : '.' ∉ last.reverse := by
    rw [List.mem_reverse]
    exact not_mem_toDigits (by decide) _
  have htext : front ++ ".0/".toList ++ decimal net.bits = net.derived.text := by
    simp [Cidr.text, Cidr.derived, inetNtop_and, front, decimal]
  have hlen := net.derived.length_text_le
  rw [deriveRoute, hsplit, strchr_append hdot]
  dsimp only
  rw [List.reverse_reverse, htext, snprintf, List.take_of_length_le (by omega)]

/-! ### Both ways to give an address -/

/-- The address and its length are given by the option -T, or by the setting Address if the options and the
peers give no address and no routes. -/
inductive Cidr.Given (net : Cidr) : TunSettings → Prop where
  | option (before : List TunOption) (config : Option IniConf) : net.Given (tunSettings (before ++ [.T net.text]) config)
  | address (opts : List TunOption) (cfg : IniConf) (noIp : (opts.foldl TunSettings.option .init).tunIp = [])
      (noRoute : aggregateRoutes cfg (opts.foldl TunSettings.option .init).tunRoute = [])
      (setting : iniconfGet cfg "Interface".toList "Address".toList = some net.text) :
      net.Given (tunSettings opts (some cfg))

theorem aggregateRoutes_of_ne {cfg : IniConf} {route : List Char} (h : route.isEmpty = false) :
    aggregateRoutes cfg route = route := by
  simp [aggregateRoutes, h]

theorem Cidr.isEmpty_text (net : Cidr) : net.text.isEmpty = false := by
  rw [Cidr.text, List.isEmpty_eq_false_iff]
  exact List.append_ne_nil_of_right_ne_nil _ (List.cons_ne_nil _ _)

theorem Cidr.take_addr (net : Cidr) : (inetNtop net.addr).take 31 = inetNtop net.addr := by
  have hlen := length_inetNtop_le net.addr
  exact List.take_of_length_le (by omega)

theorem Cidr.atoi_bits (net : Cidr) : atoi (Nat.toDigits 10 net.bits) = net.bits :=
  atoi_toDigits (lt_of_le_of_lt net.le (by decide))

theorem Cidr.option_eq (net : Cidr) (s : TunSettings) :
    s.option (.T net.text) = ⟨inetNtop net.addr, netmaskText net.bits, net.derived.text⟩ := by
  simp only [TunSettings.option, net.strchr_text, net.take_addr, net.atoi_bits, deriveRoute_eq]

/-- Both ways lead to the same settings. -/
theorem Cidr.Given.eq {net : Cidr} {s : TunSettings} (h : net.Given s) :
    s = ⟨inetNtop net.addr, netmaskText net.bits, net.derived.text⟩ := by
  cases h with
  | option before config =>
    rw [tunSettings.eq_def, List.foldl_append, List.foldl_cons, List.foldl_nil, net.option_eq]
    cases config with
    | none => rfl
    | some cfg =>
      have hip : (inetNtop net.addr).isEmpty = false := List.isEmpty_eq_false_iff.mpr (inetNtop_fits _).1
      simp only [aggregateRoutes_of_ne net.derived.isEmpty_text, TunSettings.address, hip, Bool.false_eq_true, if_false]
  | address opts cfg noIp noRoute setting =>
    have hlen := length_inetNtop_le net.addr
    have hshort : (inetNtop net.addr).length < 32 := by omega
    simp only [tunSettings, noIp, noRoute, TunSettings.address, setting, Option.bind_some, net.strchr_text, net.atoi_bits,
      if_pos hshort, deriveRoute_eq, List.isEmpty_nil, if_true]

/-! ### The route and the network of the device -/

section Route
variable {net : Cidr} {s : TunSettings}

/-- `tun_set_ip` gives the device the network of the address. -/
theorem Cidr.Given.denotes_tunSetIp (h : net.Given s) : Denotes (tunSetIp s.tunIp s.tunNetmask) net.network := by
  have htext : tunSetIp s.tunIp s.tunNetmask = net.text := by
    rw [h.eq, tunSetIp, netmaskBits_eq net.le]
    exact List.take_of_length_le (net.length_text_le.trans (by decide))
  rw [htext]
  exact ⟨net, rfl, rfl, fun ip => (net.mem_network ip).symm⟩

theorem and_low_eq_zero_iff (x : UInt32) : x &&& 0xffffff00 = x ↔ x &&& 0xff = 0 := by
  have hsplit : (x &&& 0xffffff00) ||| (x &&& 0xff) = x := by
    apply UInt32.toNat_inj.mp
    rw [UInt32.toNat_or, UInt32.toNat_and, UInt32.toNat_and, ← Nat.and_or_distrib_left]
    exact Nat.and_two_pow_sub_one_of_lt_two_pow x.toNat_lt
  constructor
  · intro h
    rw [← h, UInt32.and_assoc]
    exact UInt32.and_zero
  · intro h
    rwa [h, UInt32.or_zero] at hsplit

/-- The route is the network of the address just if that ends in the octet 0. -/
theorem Cidr.Given.denotes_route_iff (h : net.Given s) :
    Denotes s.tunRoute net.network ↔ net.addr &&& netmask net.bits &&& 0xff = 0 := by
  have hmask : net.addr &&& 0xffffff00 &&& netmask net.bits = net.addr &&& netmask net.bits &&& 0xffffff00 := by
    rw [UInt32.and_assoc, UInt32.and_comm 0xffffff00, UInt32.and_assoc]
  rw [← and_low_eq_zero_iff, ← hmask, h.eq, denotes_text_iff (show net.derived.bits = net.network.bits from rfl)]
  simp only [net.mem_network, Cidr.mem_iff]
  constructor
  · intro same
    exact ((same net.addr).mpr rfl).symm
  · intro same ip
    show ip &&& netmask net.bits = net.addr &&& 0xffffff00 &&& netmask net.bits ↔ _
    rw [same]

end Route

/-- The route and the network that `tun_set_ip` gives to the device are both `net`. -/
def Routed (s : TunSettings) (net : Cidr) : Prop := Denotes s.tunRoute net ∧ Denotes (tunSetIp s.tunIp s.tunNetmask) net

/-- The route is written as a network, without further bits, just if the address has none between its length and its
last octet, and none in that octet within its length. -/
theorem auto_route_text_iff (a : UInt32) (p : Nat) (hp : p ≤ 32) (s : TunSettings) (given : (Cidr.mk a p hp).Given s) :
    s.tunRoute = (Cidr.mk (a &&& netmask p) p hp).text ↔ a &&& 0xffffff00 = a &&& netmask p := by
  rw [given.eq]
  show inetNtop (a &&& 0xffffff00) ++ '/' :: Nat.toDigits 10 p = inetNtop (a &&& netmask p) ++ '/' :: Nat.toDigits 10 p ↔ _
  rw [List.append_left_inj]
  exact inetNtop_injective.eq_iff

/-- The route that is derived and the network of the device both denote the network of the address (the addresses with
the same first bits), just if that network starts at an octet 0: always up to the length 24, and beyond it if the bits
of the last octet are 0. -/
theorem auto_route_iff (a : UInt32) (p : Nat) (hp : p ≤ 32) (s : TunSettings) (given : (Cidr.mk a p hp).Given s) :
    Routed s ⟨a &&& netmask p, p, hp⟩ ↔ a &&& netmask p &&& 0xff = 0 := by
  constructor
  · rintro ⟨route, -⟩
    exact given.denotes_route_iff.mp route
  · intro hlast
    exact ⟨given.denotes_route_iff.mpr hlast, given.denotes_tunSetIp⟩

/-- A configuration with an address and no routes. -/
def addressConfig : IniConf := iniconfLoad "[Interface]\nAddress = 10.0.0.1/24\n[Peer]\n".toList

/-- For 10.0.0.1/24, given in both ways. -/
theorem auto_route_sample :
    Routed (tunSettings [.T "10.0.0.1/24".toList] none) ⟨0x0a000001 &&& netmask 24, 24, by decide⟩ ∧
      Routed (tunSettings [] (some addressConfig)) ⟨0x0a000001 &&& netmask 24, 24, by decide⟩ := by
  have htext : "10.0.0.1/24".toList = (Cidr.mk 0x0a000001 24 (by decide)).text := by decide +kernel
  have hoption : (Cidr.mk 0x0a000001 24 (by decide)).Given (tunSettings [.T "10.0.0.1/24".toList] none) := by
    rw [htext]
    exact .option [] none
  have haddress : (Cidr.mk 0x0a000001 24 (by decide)).Given (tunSettings [] (some addressConfig)) :=
    .address [] addressConfig rfl (by decide +kernel) (by decide +kernel)
  have hlast : (0x0a000001 : UInt32) &&& netmask 24 &&& 0xff = 0 := by decide +kernel
  exact ⟨(auto_route_iff 0x0a000001 24 (by decide) _ hoption).mpr hlast,
    (auto_route_iff 0x0a000001 24 (by decide) _ haddress).mpr hlast⟩

/-- The option -T 10.0.0.130/25 makes the route 10.0.0.0/25, in which the address is not. -/
theorem auto_route_misses :
    (tunSettings [.T "10.0.0.130/25".toList] none).tunRoute = "10.0.0.0/25".toList ∧
      ¬ ∀ (a : UInt32) (p : Nat) (hp : p ≤ 32) (s : TunSettings), (Cidr.mk a p hp).Given s →
        Routed s ⟨a &&& netmask p, p, hp⟩ := by
  refine ⟨by decide +kernel, ?_⟩
  intro all
  have given : (Cidr.mk 0x0a000082 25 (by decide)).Given _ := .option [] none
  exact absurd (given.denotes_route_iff.mp (all _ _ _ _ given).1) (by decide +kernel)

end AegisTunnel
