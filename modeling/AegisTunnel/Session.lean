import AegisTunnel.Tunnel

/-! # A tunnel and the stream of its peer

A running `tunnel_run` together with its encrypted connection: what the peer sends waits there until a call
receives it. The answers that the calls get agree with that, but `poll` and `recv` may answer anything else
they like: `EINTR`, `EAGAIN`, errors, and the error bits of `poll` at any time. -/

namespace AegisTunnel
open Octets

/-- What the peer has sent so far, how much of it has not been received, and whether the peer has closed. -/
structure PeerStream where
  sent : Octets
  queued : Octets
  closed : Bool

/-- `recv` returns 0 when the peer has closed the stream and nothing of it is queued. -/
def PeerStream.answers (s : PeerStream) : Ev → Bool
  | .recv .eof => s.closed && s.queued.isEmpty
  | .pollRecv (.ready .eof) => s.closed && s.queued.isEmpty
  | _ => true

/-- On whose account `tunnel_run` returns 0. -/
inductive EndedBy where
  | program
  | plaintext
  | encrypted
  deriving DecidableEq

/-- The error conditions are tested for the plaintext side first. -/
def Revents.endedBy (rev : Revents) : EndedBy := if rev.ptErr then .plaintext else .encrypted

/-- The side on whose account the call returns, if it makes `tunnel_run` return 0. -/
def endedBy (b : Backend) (e : Endpoint) (ev : Ev) : EndedBy :=
  match e.pc, ev with
  | .poll, .poll (.ready rev) => rev.endedBy
  | .read _ _, .read .eof => .plaintext
  | .read _ rev, _ => rev.endedBy
  | .sendData _ _ rev, _ => rev.endedBy
  | .sendClose _, _ => .plaintext
  | .fill _, _ => .encrypted
  | .extract rev, _ =>
    match frameReaderTryNext b e.fr e.tun.decNonce e.tun.decKey with
    | .frame _ _ => .encrypted
    | _ => rev.endedBy
  | _, _ => .program

def Pc.returnsZero : Pc → Bool
  | .returned ret => ret == 0
  | _ => false

structure Session where
  endpoint : Endpoint
  stream : PeerStream
  ended : Option EndedBy

inductive SessionEv where
  | arrive (bytes : Octets)
  | close
  | call (ev : Ev)

namespace Session

/-- A call of the endpoint; what it receives is the front of what is queued. -/
def onCall (lib : OpenSsl) (b : Backend) (s : Session) (ev : Ev) : Option Session :=
  if s.stream.answers ev then
    (step lib b s.endpoint ev).bind fun e =>
      let taken := e.log.recvd.drop s.endpoint.log.recvd.length
      if taken.isPrefixOf s.stream.queued then
        some
          { endpoint := e
            stream := { s.stream with queued := s.stream.queued.drop taken.length }
            ended := if e.pc.returnsZero then some (endedBy b s.endpoint ev) else none }
      else none
  else none

def step (lib : OpenSsl) (b : Backend) (s : Session) : SessionEv → Option Session
  | .arrive bytes =>
    if s.stream.closed then none
    else some { s with stream := { s.stream with sent := s.stream.sent ++ bytes, queued := s.stream.queued ++ bytes } }
  | .close => if s.stream.closed then none else some { s with stream := { s.stream with closed := true } }
  | .call ev => s.onCall lib b ev

/-- `tunnel_run` as it is called, on a connection on which the peer may have sent something already. -/
def start (e : Endpoint) (bytes : Octets) (closed : Bool) : Session := ⟨e, ⟨bytes, bytes, closed⟩, none⟩

end Session

end AegisTunnel
