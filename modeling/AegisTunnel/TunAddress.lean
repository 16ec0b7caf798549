import AegisTunnel.Routes
import AegisTunnel.StartUp

/-! # The address of the device (`main.c`, `tunnel/tun.c`)

The options -T, -I, -N and -R and the setting Address give `tun_ip`, `tun_netmask` and `tun_route`;
`tun_set_ip` makes the argument of `ip addr add` of the first two. -/

namespace AegisTunnel
open Octets

def atoi (text : List Char) : Int := ((strtol text).map fun r => toInt r.1).getD 0

/-- The conversion `%d` of `snprintf`. -/
def decimal : Int → List Char
  | .ofNat n => Nat.toDigits 10 n
  | .negSucc n => '-' :: Nat.toDigits 10 (n + 1)

structure TunSettings where
  tunIp : List Char
  tunNetmask : List Char
  tunRoute : List Char

def TunSettings.init : TunSettings := ⟨[], "255.255.255.0".toList, []⟩

/-- `nm`; a shift by 32 or more, which C leaves undefined, is one by the rest modulo 32. -/
def netmaskOf (px : Int) : UInt32 := if px = 0 then 0 else 0xffffffff <<< UInt32.ofInt (32 - px)

def netmaskText (px : Int) : List Char := snprintf 31 (inetNtop (netmaskOf px))

/-- The route that is derived of an address and a length: the address up to its last dot, and ".0". Without a
dot there is none, and the old route stays. -/
def deriveRoute (tunIp : List Char) (px : Int) (tunRoute : List Char) : List Char :=
  match strchr '.' tunIp.reverse with
  | none => tunRoute
  | some (_, front) => snprintf 63 (front.reverse ++ ".0/".toList ++ decimal px)

/-- The options with their arguments. -/
inductive TunOption where
  | T (arg : List Char)
  | I (arg : List Char)
  | N (arg : List Char)
  | R (arg : List Char)

def TunSettings.option (s : TunSettings) : TunOption → TunSettings
  | .T arg =>
    match strchr '/' arg with
    | none => { s with tunIp := arg.take 31 }
    | some (ip, after) =>
      let px := atoi after
      ⟨ip.take 31, netmaskText px, deriveRoute (ip.take 31) px s.tunRoute⟩
  | .I arg => { s with tunIp := arg.take 31 }
  | .N arg => { s with tunNetmask := arg.take 31 }
  | .R arg => { s with tunRoute := arg.take 63 }

/-- The setting Address, which counts if no option has set the address. -/
def TunSettings.address (s : TunSettings) (cfg : IniConf) : TunSettings :=
  if s.tunIp.isEmpty then
    match (iniconfGet cfg "Interface".toList "Address".toList).bind (strchr '/') with
    | none => s
    | some (ip, after) =>
      let px := atoi after
      let tunIp := if ip.length < 32 then ip else s.tunIp
      ⟨tunIp, netmaskText px, if s.tunRoute.isEmpty then deriveRoute tunIp px s.tunRoute else s.tunRoute⟩
  else s

/-- The settings that `main` gives to a mode: options, then the configuration with its routes first. -/
def tunSettings (opts : List TunOption) (config : Option IniConf) : TunSettings :=
  let s := opts.foldl TunSettings.option .init
  match config with
  | none => s
  | some cfg => { s with tunRoute := aggregateRoutes cfg s.tunRoute }.address cfg

/-! ### `tun_set_ip` -/

/-- `sscanf` with "%u.%u.%u.%u", where it makes all four conversions. -/
def scanOctets (text : List Char) : Option (List UInt32) := do
  let (o0, text) ← scanUnsigned text
  let text ← scanChar '.' text
  let (o1, text) ← scanUnsigned text
  let text ← scanChar '.' text
  let (o2, text) ← scanUnsigned text
  let text ← scanChar '.' text
  let (o3, _) ← scanUnsigned text
  some [o0, o1, o2, o3]

/-- `while (o) { prefix += (o & 1); o >>= 1; }`, which takes 32 rounds at most. -/
def bitLoop : Nat → UInt32 → Nat
  | 0, _ => 0
  | rounds + 1, o => if o = 0 then 0 else (o &&& 1).toNat + bitLoop rounds (o >>> 1)

def netmaskBits (netmask : List Char) : Nat :=
  match scanOctets netmask with
  | none => 24
  | some octets => (octets.map (bitLoop 32)).sum

/-- The text `cidr` of `tun_set_ip`. -/
def tunSetIp (ip netmask : List Char) : List Char := snprintf 32 (ip ++ '/' :: Nat.toDigits 10 (netmaskBits netmask))

end AegisTunnel
