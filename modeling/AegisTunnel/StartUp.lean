import AegisTunnel.IniConfig

/-! # Start-up (`main.c`, `protocol/keyfile.c`)

From the end of the option parsing of `main` to its dispatch to a mode: the configuration file, the checks
of the settings, the private key, and the table of the public keys of the peers. Memory allocation
succeeds. -/

namespace AegisTunnel
open Octets

/-! ### Key files -/

def keyfileKeyLen : Nat := 32

/-- `keyfile_load`: the first 32 bytes of a file that can be read. -/
def keyfileLoad (file : Option Octets) : Option (Word 32) :=
  file.bind fun data => if keyfileKeyLen ≤ data.length then some (load 32 data) else none

/-- A byte of a file as a character. -/
def toChar (x : UInt8) : Char := Char.ofNat x.toNat

/-- A character as a byte of a file. -/
def ofChar (c : Char) : UInt8 := UInt8.ofNat c.toNat

/-- The conversion `%02x` of `sprintf` for a byte. -/
def hexByte (x : UInt8) : List Char := [Nat.digitChar (x.toNat / 16), Nat.digitChar (x.toNat % 16)]

/-- The text of a key, as `pubkey` prints it and a configuration has it. -/
def keyText (key : Word 32) : List Char := key.toList.flatMap hexByte

/-- The text of a public key in its file: the array `hex` of `keyfile_generate`. -/
def publicText (pub : Word 32) : List Char := pub.toList.flatMap hexByte ++ ['\n']

/-- `keyfile_generate`, for the answer of `ecdh_keygen` and files that can be written: the contents of the
private and of the public key file. -/
def keyfileGenerate (keygen : Option KeyPair) : Option (Octets × Octets) :=
  keygen.map fun keys => (keys.priv.toList, (publicText keys.pub).map ofChar)

def isBlank (c : Char) : Bool := [' ', '\n', '\r', '\t'].contains c

/-- The loop of `keyfile_load_public`: the bytes of `hex_bytes` up to `byte_idx`, and the nibble that waits
for its other half; none at a character that is no hex digit. -/
def hexLoop : Octets → Option Nat → List Char → Option Octets
  | bytes, _, [] => some bytes
  | bytes, nibble, c :: rest =>
    if bytes.length < 32 then
      if isBlank c then hexLoop bytes nibble rest
      else
        match hexDigit c with
        | none => none
        | some val =>
          match nibble with
          | none => hexLoop bytes (some val) rest
          | some hi => hexLoop (bytes ++ [UInt8.ofNat ((hi <<< 4) ||| val)]) none rest
    else some bytes

/-- `keyfile_load_public`, which reads 127 bytes at most. -/
def keyfileLoadPublic (file : Option Octets) : Option (Word 32) :=
  file.bind fun data =>
    let buf := data.take 127
    if buf.length = 32 then some (load 32 buf)
    else (hexLoop [] none (buf.map toChar)).bind fun bytes => if bytes.length = 32 then some (load 32 bytes) else none

/-! ### The settings -/

/-- The options of the command line. -/
structure Options where
  listenPort : Int
  remoteStr : Option (List Char)
  privkeyFile : Option (List Char)
  peerkeyFile : Option (List Char)
  mode : List Char
  tunMode : Bool
  tunIp : List Char

/-- What `main` finds on the host: the text of the configuration file, if there is one and it can be opened,
the home directory, the files that can be read, once a missing key pair has been generated, and the names in
the directory of the peers in the order of `readdir`. -/
structure Host where
  config : Option (List Char)
  home : List Char
  files : List Char → Option Octets
  peersDir : List (List Char)

/-- `snprintf` into a buffer of `size` characters. -/
def snprintf (size : Nat) (text : List Char) : List Char := text.take (size - 1)

/-- `strstr(text, needle) != NULL`. -/
def strstr (text needle : List Char) : Bool := text.tails.any needle.isPrefixOf

def keyDir (home : List Char) : List Char := snprintf 768 (home ++ "/.aegis-tunnel".toList)

/-- The settings of the configuration file that are not overridden by an option. -/
def applyConfig (home : List Char) (o : Options) (cfg : IniConf) : Options where
  listenPort :=
    if o.listenPort = 9000 then
      let lp := iniconfGetInt cfg "Interface".toList "ListenPort".toList 0
      if lp > 0 then lp else iniconfGetInt cfg "Interface".toList "Port".toList o.listenPort
    else o.listenPort
  remoteStr := o.remoteStr.or
    ((iniconfGet cfg "Peer".toList "Endpoint".toList).filter fun v => v ≠ "0.0.0.0:0".toList)
  privkeyFile := o.privkeyFile.or
    ((iniconfGet cfg "Interface".toList "PrivateKey".toList).map fun v => if v.head? = some '~' then home ++ v.tail else v)
  peerkeyFile := o.peerkeyFile
  mode :=
    if o.mode = "server".toList ∧ (iniconfGet cfg "Interface".toList "Mode".toList).any fun v =>
        strstr v "client".toList || strstr v "Client".toList then "client".toList
    else o.mode
  tunMode := o.tunMode || (o.tunIp.isEmpty && (iniconfGet cfg "Interface".toList "Address".toList).isSome)
  tunIp := o.tunIp

/-- `parse_host_port`: the host and the port after the last colon. -/
def parseHostPort (addr : List Char) : Option (List Char × Int) :=
  match strchr ':' addr.reverse with
  | none => none
  | some (after, before) =>
    let port := ((strtol after.reverse).map fun r => toInt r.1).getD 0
    if 0 < port ∧ port ≤ 65535 then some (before.reverse, port) else none

inductive StartError where
  | invalidPort
  | remoteRequired
  | unknownMode
  | remoteFormat
  | privateKey
  | hexKey
  | peerKeyFile
  | noPeerKey
  deriving DecidableEq, Repr

/-- The checks before the peer keys. -/
def checkSettings (host : Host) (o : Options) : Except StartError Unit :=
  if o.listenPort ≤ 0 then .error .invalidPort
  else if o.remoteStr.isNone ∧ ¬ o.tunMode ∧ o.mode ≠ "server".toList then .error .remoteRequired
  else if o.mode ≠ "server".toList ∧ o.mode ≠ "client".toList then .error .unknownMode
  else if o.remoteStr.any fun r => (parseHostPort r).isNone then .error .remoteFormat
  else if (keyfileLoad (host.files (o.privkeyFile.getD (snprintf 768 (keyDir host.home ++ "/private.key".toList))))).isNone then
    .error .privateKey
  else .ok ()

/-! ### The peer keys -/

/-- What `iniconf_get_indexed` returns for the `[Peer]` sections. -/
def peerSections (cfg : IniConf) : List PeerSection :=
  (List.range maxPeers).map fun pi : Nat =>
    ⟨iniconfGetIndexed cfg "Peer".toList pi "PublicKey".toList, iniconfGetIndexed cfg "Peer".toList pi "AllowedIPs".toList⟩

/-- The keys of the configuration, which are left alone if there is an option -Q. -/
def configPeers (peerkeyFile : Option (List Char)) (cfg : IniConf) : PeerTable :=
  if peerkeyFile.isNone then loadPeers .init 0 (peerSections cfg) else .init

def PeerTable.setFirst (t : PeerTable) (key : Word 32) : PeerTable :=
  { t with asymPeers := t.asymPeers.set ⟨0, by decide⟩ key }

/-- The path of the entry of the directory that ends in ".pub" and is read last. -/
def foundPeer (host : Host) : Option (List Char) :=
  let peerDir := snprintf 768 (keyDir host.home ++ "/peers".toList)
  (host.peersDir.filter fun name => 4 < name.length ∧ ".pub".toList.isSuffixOf name).getLast?.map fun name =>
    snprintf 768 (peerDir ++ '/' :: name)

/-- The peer key of the option -Q, or, if the configuration has none, of the directory. -/
def fallbackKeys (host : Host) (peerkeyFile : Option (List Char)) (t : PeerTable) : Except StartError PeerTable :=
  match peerkeyFile with
  | some q =>
    if q.length = 64 ∧ '/' ∉ q ∧ '.' ∉ q then
      let r := parseHex 32 q
      if r.1 = some 32 then .ok { t.setFirst (load 32 r.2) with peerCount := 1 } else .error .hexKey
    else
      match keyfileLoadPublic (host.files q) with
      | none => .error .peerKeyFile
      | some key => .ok { t.setFirst key with peerCount := 1 }
  | none =>
    if t.peerCount = 0 then
      match foundPeer host with
      | none => .error .noPeerKey
      | some path =>
        match keyfileLoadPublic (host.files path) with
        | none => .error .peerKeyFile
        -- The number of peers is not set here.
        | some key => .ok (t.setFirst key)
    else .ok t

/-- `main` up to the dispatch: the table that the modes find, or the check that ends the program. -/
def mainStart (host : Host) (o : Options) : Except StartError PeerTable :=
  let cfg := host.config.map iniconfLoad
  let settings := (cfg.map (applyConfig host.home o)).getD o
  let table := (cfg.map (configPeers o.peerkeyFile)).getD .init
  match checkSettings host settings with
  | .error e => .error e
  | .ok () => fallbackKeys host o.peerkeyFile table

end AegisTunnel
