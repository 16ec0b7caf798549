import AegisTunnel.ConfigMgmt

/-! # The commands that write configurations (`config_mgmt.c`)

`keygen` makes a key pair and a new `aegis.conf`, `peer add` stores the key of a peer and appends a section to the
file, and `create tun` makes the configuration of a TUN server or client of it. The files can be written. -/

namespace AegisTunnel
open Octets

/-- The files of the key storage in the home directory, and those of the working directory. -/
structure Workdir where
  privateKey : Option Octets
  publicKey : Option Octets
  files : ConfigFiles
  /-- `aegis-server.conf` -/
  server : Option (List Char)
  /-- `aegis-client.conf` -/
  client : Option (List Char)

/-- `strstr`: the text from the first place of the needle on. -/
def strstrAt (text needle : List Char) : Option (List Char) := text.tails.find? needle.isPrefixOf

/-- `detect_default_iface`, for the first line that `ip route show default` prints, if it prints one. -/
def detectDefaultIface (line : Option (List Char)) : List Char :=
  match line.bind fun l => strstrAt (cString (l.take 255)) " dev ".toList with
  | none => "eth0".toList
  | some found =>
    let dev := (found.drop 5).takeWhile fun c => c ≠ ' ' && c ≠ '\n'
    if 0 < dev.length ∧ dev.length < 16 then dev else "eth0".toList

/-- The text of `public.key` in the buffers `hex`, `our_pub` and `pubkey_hex`; none of them is trimmed. -/
def publicHex (file : Option Octets) : List Char := cString (((file.getD []).take 64).map toChar)

/-! ### Lines -/

/-- `fprintf` of the format `"[name]\n"`. -/
def confHeader (name : String) : List Char := '[' :: name.toList ++ [']', '\n']

/-- `fprintf` of the format `"key = %s\n"`. -/
def confEntry (key : String) (value : List Char) : List Char := key.toList ++ ' ' :: '=' :: ' ' :: value ++ ['\n']

/-- `fprintf` of the format `"# ...%s...\n"`. -/
def confComment (text : List Char) : List Char := '#' :: ' ' :: text ++ ['\n']

def blankLine : List Char := ['\n']

/-- The file that `cmd_keygen` writes, and `cmd_peer_add` if there is none. -/
def defaultConf (hex iface : List Char) : List (List Char) :=
  [confHeader "Interface",
    confEntry "PrivateKey" "~/.aegis-tunnel/private.key".toList,
    confEntry "PublicKey" hex,
    confEntry "Port" "9000".toList,
    blankLine,
    confHeader "Tunnel",
    confEntry "Keepalive" "30".toList,
    confEntry "NATInterface" iface]

/-! ### `keygen` and `peer add` -/

/-- `cmd_keygen`, for the answer of `ecdh_keygen`: what it returns, and the files after it. -/
def cmdKeygen (iface : List Char) (keygen : Option KeyPair) (w : Workdir) : Nat × Workdir :=
  match keyfileGenerate keygen with
  | none => (1, w)
  | some (priv, pub) => (0, {
      privateKey := some priv
      publicKey := some pub
      files := { w.files with conf := some (defaultConf (publicHex (some pub)) iface).flatten }
      server := none
      client := none })

/-- The loop that looks for the key in `aegis.conf`. -/
def foundLoop (hx : List Char) : Nat → List Char → Bool
  | 0, _ => false
  | rounds + 1, file =>
    match fgets 512 file with
    | none => false
    | some (buf, file) =>
      (strstr (cString buf) "PublicKey".toList && strstr (cString buf) hx) || foundLoop hx rounds file

def peerSection (hx host : List Char) : List (List Char) :=
  [blankLine, confHeader "Peer", confEntry "PublicKey" hx, confEntry "Endpoint" host]

/-- What `cmd_peer_add` makes of `aegis.conf`. -/
def addPeer (hx host conf : List Char) : List Char :=
  if hx = [] ∨ foundLoop hx conf.length conf then conf else conf ++ (peerSection hx host).flatten

/-- What `cmd_peer_add` stores for its argument, which is a key or the name of a file; `files` are those that can
be read. -/
def peerKeyText (files : List Char → Option (List Char)) (hexOrFile : List Char) : Option (List Char) :=
  if '/' ∈ hexOrFile ∨ '.' ∈ hexOrFile then files hexOrFile
  else if hexOrFile.length ≠ 64 then none
  else some (hexOrFile ++ ['\n'])

/-- `cmd_peer_add`: what it returns, and the files after it. -/
def cmdPeerAdd (iface : List Char) (files : List Char → Option (List Char)) (host hexOrFile : List Char) (w : Workdir) :
    Nat × Workdir :=
  match peerKeyText files hexOrFile with
  | none => (1, w)
  | some pub =>
    let conf := w.files.conf.getD (defaultConf (publicHex w.publicKey) iface).flatten
    (0, { w with files := {
      peers := fun n => if n = host then some pub else w.files.peers n
      conf := some (addPeer (storedKey pub) host conf) } })

/-! ### `create tun` -/

/-- `ep_buf`, with the port 9000 if there is none. -/
def clientEndpoint (ep : Option (List Char)) : List Char :=
  let epBuf := snprintf 320 (ep.getD "server.com:9000".toList)
  if ':' ∈ epBuf then epBuf else epBuf ++ snprintf (320 - epBuf.length) ":9000".toList

/-- The section of a peer. -/
def createdPeer (isServer : Bool) (keepalive : Option (List Char)) (peerIdx : Nat) (pk : List Char) (ep : Option (List Char)) :
    List (List Char) :=
  [confHeader "Peer", confEntry "PublicKey" pk] ++
    (if isServer then
      confEntry "AllowedIPs" "10.0.0.2/32".toList :: (ep.map fun e => confComment ("Endpoint = ".toList ++ e)).toList
    else
      (if peerIdx = 0 then [confEntry "Endpoint" (clientEndpoint ep)] else []) ++
        [confEntry "AllowedIPs" "0.0.0.0/0".toList, confEntry "PersistentKeepalive" (keepalive.getD "25".toList)]) ++
    [blankLine]

/-- The section that stands for the peers where there is none. -/
def noPeer (isServer : Bool) (keepalive : Option (List Char)) : List (List Char) :=
  [confHeader "Peer", confEntry "PublicKey" "<peer-public-key>".toList] ++
    (if isServer then [confEntry "AllowedIPs" "10.0.0.2/32".toList]
    else [confEntry "Endpoint" "server.com:9000".toList, confEntry "AllowedIPs" "0.0.0.0/0".toList,
      confEntry "PersistentKeepalive" (keepalive.getD "25".toList)]) ++
    [blankLine]

/-- The loop over the peers; a round that goes on has found a section, so `INI_MAX_SECTIONS` rounds are enough. -/
def createLoop (icfg : IniConf) (isServer : Bool) (keepalive : Option (List Char)) : Nat → Nat → List (List (List Char))
  | 0, _ => []
  | rounds + 1, peerIdx =>
    match iniconfGetIndexed icfg "Peer".toList peerIdx "PublicKey".toList with
    | none => []
    | some pk =>
      createdPeer isServer keepalive peerIdx pk (iniconfGetIndexed icfg "Peer".toList peerIdx "Endpoint".toList) ::
        createLoop icfg isServer keepalive rounds (peerIdx + 1)

def createdInterface (icfg : IniConf) (pubkeyHex natIf : List Char) (isServer : Bool) : List (List Char) :=
  let get := fun key : String => iniconfGet icfg "Interface".toList key.toList
  [confHeader "Interface", confEntry "PrivateKey" ((get "PrivateKey").getD "~/.aegis-tunnel/private.key".toList)] ++
    (if pubkeyHex ≠ [] then [confEntry "PublicKey" pubkeyHex] else ((get "PublicKey").map (confEntry "PublicKey")).toList) ++
    [confEntry "Mode" (if isServer then "server".toList else "client".toList)] ++
    (if isServer then
      [confEntry "Address" "10.0.0.1/24".toList,
        confEntry "ListenPort" ((get "Port").getD "9000".toList),
        confComment ("PostUp = iptables -A FORWARD -i %i -j ACCEPT; iptables -t nat -A POSTROUTING -s 10.0.0.0/24 -o ".toList ++
          natIf ++ " -j MASQUERADE".toList),
        confComment ("PostDown = iptables -D FORWARD -i %i -j ACCEPT; iptables -t nat -D POSTROUTING -s 10.0.0.0/24 -o ".toList ++
          natIf ++ " -j MASQUERADE".toList)]
    else [confEntry "Address" "10.0.0.2/24".toList]) ++
    [blankLine]

def createdTunnel (keepalive : Option (List Char)) (natIf : List Char) : List (List Char) :=
  [confHeader "Tunnel",
    confEntry "Keepalive" (keepalive.getD "30".toList),
    confEntry "NATInterface" natIf,
    confEntry "Timeout" "10".toList,
    confEntry "MaxConnections" "64".toList]

/-- The sections of the new file. -/
def createdSections (icfg : IniConf) (pubkeyHex iface : List Char) (isServer : Bool) : List (List (List Char)) :=
  let natIf := (iniconfGet icfg "Tunnel".toList "NATInterface".toList).getD iface
  let keepalive := iniconfGet icfg "Tunnel".toList "Keepalive".toList
  let peers := createLoop icfg isServer keepalive iniMaxSections 0
  createdInterface icfg pubkeyHex natIf isServer :: (if peers = [] then [noPeer isServer keepalive] else peers) ++
    [createdTunnel keepalive natIf]

def createdConf (icfg : IniConf) (pubkeyHex iface : List Char) (isServer : Bool) : List (List Char) :=
  [confComment ("AEGIS-Tunnel TUN ".toList ++ (if isServer then "server".toList else "client".toList) ++
      " config (generated from aegis.conf)".toList), blankLine] ++
    (createdSections icfg pubkeyHex iface isServer).flatten

/-- `cmd_create_tun`: what it returns, and the files after it. -/
def cmdCreateTun (iface : List Char) (isServer : Bool) (w : Workdir) : Nat × Workdir :=
  match w.files.conf with
  | none => (1, w)
  | some src =>
    let out := (createdConf (iniconfLoad src) (publicHex w.publicKey) iface isServer).flatten
    (0, if isServer then { w with server := some out } else { w with client := some out })

end AegisTunnel
