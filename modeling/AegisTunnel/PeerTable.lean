import AegisTunnel.ModeTunUdp

/-! # The peer table (`src/main.c`)

The `[Peer]` sections of the configuration, in the order of the file, become the tables of public keys and
of tunnel addresses. Text is a list of characters, without the terminator. -/

namespace AegisTunnel
open Octets

/-! ### `parse_hex` -/

def hexDigit (c : Char) : Option Nat :=
  if '0' ≤ c ∧ c ≤ '9' then some (c.toNat - '0'.toNat)
  else if 'a' ≤ c ∧ c ≤ 'f' then some (c.toNat - 'a'.toNat + 10)
  else if 'A' ≤ c ∧ c ≤ 'F' then some (c.toNat - 'A'.toNat + 10)
  else none

/-- The bytes written by the loop of `parse_hex`, and whether it gets to the end. -/
def parseHexBytes : List Char → Octets × Bool
  | hi :: lo :: rest =>
    match hexDigit hi, hexDigit lo with
    | some h, some l =>
      let r := parseHexBytes rest
      (UInt8.ofNat ((h <<< 4) ||| l) :: r.1, r.2)
    | _, _ => ([], false)
  | _ => ([], true)

/-- `parse_hex`: the number of bytes, or none for -1, and what has been written to `out` in either case. -/
def parseHex (max : Nat) (hex : List Char) : Option Nat × Octets :=
  if hex.length % 2 ≠ 0 then (none, [])
  else if hex.length / 2 > max then (none, [])
  else
    let r := parseHexBytes hex
    (if r.2 then some (hex.length / 2) else none, r.1)

/-! ### The address in an AllowedIPs text -/

def isSpace (c : Char) : Bool := [' ', '\t', '\n', '\x0b', '\x0c', '\r'].contains c

/-- The sign of a number, and the text after it. -/
def scanSign : List Char → Bool × List Char
  | '-' :: rest => (true, rest)
  | '+' :: rest => (false, rest)
  | text => (false, text)

/-- The conversion `%u` of `sscanf`: the value and the text after it. -/
def scanUnsigned (text : List Char) : Option (UInt32 × List Char) :=
  let signed := scanSign (text.dropWhile isSpace)
  let digits := signed.2.takeWhile Char.isDigit
  if digits.isEmpty then none
  else
    let n := Nat.ofDigitChars 10 digits 0
    -- A value beyond `unsigned long` is replaced by its maximum.
    let v := if n ≥ 2 ^ 64 then 0xffffffff else if signed.1 then -UInt32.ofNat n else UInt32.ofNat n
    some (v, signed.2.dropWhile Char.isDigit)

/-- A character of the format that stands for itself. -/
def scanChar (c : Char) : List Char → Option (List Char)
  | x :: rest => if x = c then some rest else none
  | [] => none

/-- The four conversions of `"%u.%u.%u.%u/%d"` that the result depends on. -/
def scanAddress (text : List Char) : Option UInt32 := do
  let (o0, text) ← scanUnsigned text
  let text ← scanChar '.' text
  let (o1, text) ← scanUnsigned text
  let text ← scanChar '.' text
  let (o2, text) ← scanUnsigned text
  let text ← scanChar '.' text
  let (o3, _) ← scanUnsigned text
  some ((o0 <<< 24) ||| (o1 <<< 16) ||| (o2 <<< 8) ||| o3)

/-- The entry of `g_peer_tun_ips` for an AllowedIPs text: 0 if there is none or it has no address. -/
def allowedTunIp (aip : Option (List Char)) : UInt32 := (aip.bind scanAddress).getD 0

/-! ### The table -/

def maxPeers : Nat := 16

/-- What `iniconf_get_indexed` returns for a `[Peer]` section. -/
structure PeerSection where
  publicKey : Option (List Char)
  allowedIps : Option (List Char)

structure PeerTable where
  asymPeers : List.Vector (Word 32) maxPeers
  tunIps : List.Vector UInt32 maxPeers
  peerCount : Nat

def PeerTable.init : PeerTable := ⟨List.Vector.replicate _ (Word.zero 32), List.Vector.replicate _ 0, 0⟩

/-- One round of the loop over the sections, for a section with a key. -/
def loadPeer (pi : Fin maxPeers) (v : List Char) (aip : Option (List Char)) (t : PeerTable) : PeerTable :=
  if v.length = 64 then
    let r := parseHex 32 v
    let peer : Word 32 := load 32 (r.2 ++ (t.asymPeers.get pi).toList.drop r.2.length)
    let t := { t with asymPeers := t.asymPeers.set pi peer }
    if r.1 = some 32 then { t with tunIps := t.tunIps.set pi (allowedTunIp aip), peerCount := pi + 1 } else t
  else t

def loadPeers (t : PeerTable) : Nat → List PeerSection → PeerTable
  | _, [] => t
  | pi, sec :: secs =>
    if h : pi < maxPeers then
      match sec.publicKey with
      | none => t
      | some v => loadPeers (loadPeer ⟨pi, h⟩ v sec.allowedIps t) (pi + 1) secs
    else t

/-- The tables as the UDP server reads them. -/
def PeerTable.entries (t : PeerTable) : List PeerEntry :=
  ((List.finRange maxPeers).take t.peerCount).map fun pi => ⟨t.asymPeers.get pi, t.tunIps.get pi⟩

end AegisTunnel
