import AegisTunnel.Lib.Octets

/-! # Answers of the kernel

The descriptors of the program, as the answers that its calls get. A read that finds bytes takes as many
of them as it has room for; a write takes some of the bytes it is given. -/

namespace AegisTunnel
open Octets

/-- What `recv` or `read` finds: some bytes, the end of the stream, `EINTR`, `EAGAIN`, another error. -/
inductive Offer where
  | data (b : UInt8) (bs : Octets)
  | eof
  | eintr
  | again
  | error

def Offer.taken (space : Nat) : Offer → Octets
  | .data b bs => (b :: bs).take space
  | _ => []

def Offer.ofOctets : Octets → Offer
  | [] => .eof
  | x :: xs => .data x xs

/-- What `send` or `write` answers: it took `k` bytes (all of them if there are fewer), `EINTR`,
    `EAGAIN`, another error. -/
inductive Sent where
  | took (k : Nat)
  | eintr
  | again
  | error

def Sent.bytes (pending : Octets) : Sent → Octets
  | .took k => pending.take k
  | _ => []

/-- `poll` and then `recv` in `recv_all`: the first four are answers of `poll`. -/
inductive PollRecv where
  | pollEintr
  | pollError
  | timeout
  | hangup
  | ready (k : Offer)

def PollRecv.taken (space : Nat) : PollRecv → Octets
  | .ready k => k.taken space
  | _ => []

/-- The bytes that such a round finds and has no room for. -/
def PollRecv.left (space : Nat) : PollRecv → Octets
  | .ready (.data b bs) => (b :: bs).drop space
  | _ => []

/-! ### The loops of `send_all`, `recv_all` and `write_all`, one round at a time

A round returns what is left to do, or `none` where the function returns -1. -/

/-- A round of `send_all` on the bytes not yet sent. -/
def sendAllRound (pending : Octets) : Sent → Option Octets
  | .took 0 => none
  | .took (k + 1) => some (pending.drop (k + 1))
  | .eintr => some pending
  | .again => none
  | .error => none

/-- A round of `write_all`, and of the send loop in `tunnel_send_data`: `EAGAIN` and 0 are retried. -/
def writeAllRound (pending : Octets) : Sent → Option Octets
  | .took k => some (pending.drop k)
  | .eintr => some pending
  | .again => some pending
  | .error => none

/-- A round of `recv_all` for `n` bytes on the bytes received so far. -/
def recvAllRound (n : Nat) (got : Octets) : PollRecv → Option Octets
  | .pollEintr => some got
  | .ready (.data b bs) => some (got ++ (b :: bs).take (n - got.length))
  | .ready .eintr => some got
  | _ => none

end AegisTunnel
