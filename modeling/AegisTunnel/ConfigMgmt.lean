import AegisTunnel.StartUp

/-! # Deleting a peer (`config_mgmt.c`)

`cmd_peer_delete` removes the key file of a peer and copies `aegis.conf` line by line without the sections of
the key. The files are opened, written and renamed without errors. -/

namespace AegisTunnel

/-- `hx`: the first 64 characters of the key file, without the ends of line after them. -/
def storedKey (pub : List Char) : List Char := cString ((pub.take 64).rdropWhile fun c => c = '\n' || c = '\r')

structure DeleteState where
  inPeer : Bool
  skipPeer : Bool
  wrotePeer : Bool
  deriving DecidableEq, Repr

def peerHeader : List Char := "[Peer]\n".toList

/-- The header of a section of which no line has been written yet. -/
def DeleteState.pending (st : DeleteState) : List (List Char) :=
  if st.inPeer && !st.skipPeer && !st.wrotePeer then [peerHeader] else []

/-- `hx[0] && strstr(line, "PublicKey") && strstr(line, hx)`. -/
def namesKey (hx line : List Char) : Bool := !hx.isEmpty && strstr line "PublicKey".toList && strstr line hx

/-- The body of the loop: the flags after the line, and what is written with `fputs`. -/
def deleteLine (hx : List Char) (st : DeleteState) (line : List Char) : DeleteState × List (List Char) :=
  if line.head? = some '[' then
    if strstr line "[Peer]".toList then (⟨true, false, false⟩, st.pending)
    else (⟨false, false, false⟩, st.pending ++ [line])
  else
    let skipPeer := st.skipPeer || (st.inPeer && namesKey hx line)
    if skipPeer then (⟨st.inPeer, true, st.wrotePeer⟩, [])
    else if st.inPeer && !st.wrotePeer then (⟨st.inPeer, skipPeer, true⟩, [peerHeader, line])
    else (⟨st.inPeer, skipPeer, st.wrotePeer⟩, [line])

/-- The loop, with what is written after it; every call of `fgets` takes a character at least, so `file.length`
rounds are enough. -/
def deleteLoop (hx : List Char) : Nat → DeleteState → List Char → List (List Char)
  | 0, st, _ => st.pending
  | rounds + 1, st, file =>
    match fgets 512 file with
    | none => st.pending
    | some (buf, file) =>
      let r := deleteLine hx st (cString buf)
      r.2 ++ deleteLoop hx rounds r.1 file

/-- The new text of `aegis.conf`. -/
def rewriteConf (hx file : List Char) : List Char := (deleteLoop hx file.length ⟨false, false, false⟩ file).flatten

/-- The key files of the peers, and `aegis.conf` if there is one. -/
structure ConfigFiles where
  peers : List Char → Option (List Char)
  conf : Option (List Char)

/-- `cmd_peer_delete`: what it returns, and the files after it. -/
def cmdPeerDelete (files : ConfigFiles) (name : List Char) : Nat × ConfigFiles :=
  match files.peers name with
  | none => (1, files)
  | some pub =>
    (0, ⟨fun n => if n = name then none else files.peers n, files.conf.map (rewriteConf (storedKey pub))⟩)

end AegisTunnel
