import AegisTunnel.Lib.Handles

/-! # Connecting and listening (`main.c`, `tunnel/tun.c`)

What the functions do with descriptors, for the answers of the system calls, and what they return. -/

namespace AegisTunnel
open Handles

/-- The descriptors that a function opens and closes, and the one that it returns, or none for -1. -/
abbrev Opening : Type := List (Act Nat) × Option Nat

/-- An entry of the list of `getaddrinfo`: what `socket` returns for it with either protocol, and whether the call of
`connect` succeeds. -/
structure Address where
  mptcp : Option Nat
  tcp : Option Nat
  connects : Bool

def connectLoop : List Address → Opening
  | [] => ([], none)
  | a :: rest =>
    match a.tcp with
    | none => connectLoop rest
    | some fd =>
      if a.connects then ([.opened fd], some fd)
      else
        let r := connectLoop rest
        (.opened fd :: .closed fd :: r.1, r.2)

/-- `connect_to_host`, for the answer of `getaddrinfo`. -/
def connectToHost (res : Option (List Address)) : Opening := connectLoop (res.getD [])

/-- The loop of `connect_to_host_mptcp`, with `tried_mptcp` and `tried_tcp`. -/
def connectLoopMptcp (triedMptcp triedTcp : Bool) : List Address → Opening
  | [] => ([], none)
  | a :: rest =>
    let mptcp := if triedMptcp then none else a.mptcp
    let tcp := if mptcp.isNone && !triedTcp then a.tcp else none
    match mptcp.or tcp with
    | none => connectLoopMptcp triedMptcp triedTcp rest
    | some fd =>
      if a.connects then ([.opened fd], some fd)
      else
        let r := connectLoopMptcp (triedMptcp || mptcp.isSome) (triedTcp || tcp.isSome) rest
        (.opened fd :: .closed fd :: r.1, r.2)

/-- `connect_to_host_mptcp`, for the answers of `getaddrinfo` with the hint and without it. -/
def connectToHostMptcp (hinted res : Option (List Address)) : Opening :=
  connectLoopMptcp false false ((hinted.or res).getD [])

/-- `listen_on_port`, for the answers of `socket`, `bind` and `listen`. -/
def listenOnPort (socket : Option Nat) (binds listens : Bool) : Opening :=
  match socket with
  | none => ([], none)
  | some fd => if binds && listens then ([.opened fd], some fd) else ([.opened fd, .closed fd], none)

/-- `tun_create`, for the answers of `open` and of TUNSETIFF. -/
def tunCreate (file : Option Nat) (attaches : Bool) : Opening :=
  match file with
  | none => ([], none)
  | some fd => if attaches then ([.opened fd], some fd) else ([.opened fd, .closed fd], none)

end AegisTunnel
