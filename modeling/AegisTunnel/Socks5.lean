import AegisTunnel.TcpServer

/-! # The SOCKS5 proxy (`src/proxy/socks5.c`, `src/mode_socks5.c`)

The client of the tunnel takes the target from a SOCKS5 request on a local connection and sends it through
the tunnel as a connect request; the server of the tunnel connects to it. -/

namespace AegisTunnel
open Octets

/-! ### The local connection -/

/-- What the calls on the local socket find. `inbox` answers `recv`, which blocks and fails at its end;
    `sends` answers `send`, which after it takes all it is given; `outbox` is what has been sent. -/
structure LocalSocket where
  inbox : List Offer
  sends : List Sent
  outbox : Octets

/-- `read_n` from the bytes read so far. Bytes without room stay at the front. -/
def readNLoop (n : Nat) : Octets → List Offer → Option Octets × List Offer
  | got, [] => if got.length < n then (none, []) else (some got, [])
  | got, k :: q =>
    if got.length < n then
      match k with
      | .data x xs =>
        match (x :: xs).drop (n - got.length) with
        | [] => readNLoop n (got ++ (x :: xs).take (n - got.length)) q
        | c :: cs => (some (got ++ (x :: xs).take (n - got.length)), .data c cs :: q)
      | _ => (none, q)
    else (some got, k :: q)

def readN (n : Nat) : Run LocalSocket Octets := fun s =>
  let r := readNLoop n [] s.inbox
  (r.1, { s with inbox := r.2 })

/-- A `send` that has to take all the bytes. -/
def sendWhole (m : Octets) : Run LocalSocket Unit := fun s =>
  match s.sends with
  | [] => (some (), { s with outbox := s.outbox ++ m })
  | k :: q => (if k.bytes m = m then some () else none, { s with outbox := s.outbox ++ k.bytes m, sends := q })

def sendReply (rep : UInt8) : Run LocalSocket Unit := sendWhole [0x05, rep, 0x00, 0x01, 0, 0, 0, 0, 0, 0]

/-- A text as the bytes of a C string. -/
def asciiBytes (text : List Char) : Octets := text.map fun c => UInt8.ofNat c.toNat

/-- The address of a request: the first `host_len` bytes of `host`. -/
def socks5Address (atyp : UInt8) : Run LocalSocket Octets :=
  if atyp = 0x01 then do
    let buf ← readN 4
    pure (asciiBytes (inetNtop (buf.foldl (fun (v : UInt32) (x : UInt8) => (v <<< 8) ||| x.toUInt32) 0)))
  else if atyp = 0x03 then do
    let buf ← readN 1
    let dlen := buf.getD 0 0
    if dlen = 0 then Run.fail else readN dlen.toNat
  else do
    -- Whether the reply can be sent makes no difference.
    Run.orElse (sendReply 0x08) (pure ())
    Run.fail

def socks5Accept : Run LocalSocket ConnectReq := do
  let buf ← readN 2
  if buf.getD 0 0 ≠ 0x05 then Run.fail
  else
    let nmethods := buf.getD 1 0
    if nmethods = 0 then Run.fail
    else
      let _ ← readN nmethods.toNat
      sendWhole [0x05, 0x00]
      let buf ← readN 4
      if buf.getD 0 0 ≠ 0x05 then Run.fail
      else if buf.getD 1 0 ≠ 0x01 then do
        Run.orElse (sendReply 0x07) (pure ())
        Run.fail
      else
        let host ← socks5Address (buf.getD 3 0)
        let buf ← readN 2
        let port := ((buf.getD 0 0).toUInt16 <<< 8) ||| (buf.getD 1 0).toUInt16
        sendReply 0x00
        pure ⟨host, port⟩

/-! ### The connect request -/

def buildConnectReq (req : ConnectReq) : Octets :=
  [(req.port >>> 8).toUInt8, req.port.toUInt8, UInt8.ofNat (req.host.length >>> 8), UInt8.ofNat req.host.length] ++ req.host

def sendConnectReq (b : Backend) (req : ConnectReq) (encKey : Block) : Hs Unit :=
  match frameBuild b frameData flagNone (buildConnectReq req) 1 encKey with
  | none => Run.fail
  | some wb => sendAll wb

/-- What `mode_socks5_server` passes to `connect_to_host`: the host as a C string, and the port. -/
def ConnectReq.connectArgs (req : ConnectReq) : Octets × Nat := (req.host.takeWhile (· ≠ 0), req.port.toNat)

/-- A request on its way: from the local socket of the client of the tunnel, over the tunnel, where both ends
    have the key of this direction, to what the server passes on. -/
def socks5Passes (b b' : Backend) (key : Block) (localSocket : LocalSocket) (client server : World) :
    Option (Octets × Nat) := do
  let req ← (socks5Accept localSocket).1
  (sendConnectReq b req key client).1
  let (_, req) ← (recvConnectReq b' key server).1
  some req.connectArgs

end AegisTunnel
