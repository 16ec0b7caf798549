import AegisTunnel.ClientModes
import AegisTunnel.Sockets
import AegisTunnel.TcpServer

/-! # The loops of the TCP clients (`mode_psk.c`, `mode_tun.c`, `mode_socks5.c`)

`mode_psk_client` and `mode_socks5_client` accept local connections one after the other, and connect to the server for
each; `mode_tun_client` connects for its device, to one peer after the other. All of them try again if that fails,
after a pause. A step goes from one call that waits to the next. -/

namespace AegisTunnel
open Handles

structure TcpClientConfig where
  mode : TcpMode
  maxConns : Int
  remoteHost : List Char
  remotePort : Int
  /-- `g_peer_endpoints` and `g_peer_count` -/
  vars : MainVars
  /-- `g_tun_multipath > 1` -/
  multipath : Bool

/-- The host and the port of a round, and the index of the key in `g_asym_peers`. -/
structure Target where
  host : List Char
  port : Int
  pi : Nat

/-- The target of a round, or none where the endpoint has no port that can be used. -/
def TcpClientConfig.target (cfg : TcpClientConfig) (peerIdx : Nat) : Option Target :=
  if cfg.mode = .tun then
    (tunHost cfg.vars cfg.remoteHost cfg.remotePort peerIdx).map fun remote =>
      ⟨remote.1, remote.2, if cfg.remoteHost = [] ∧ cfg.vars.endpoint peerIdx ≠ [] then peerIdx else 0⟩
  else some ⟨cfg.remoteHost, cfg.remotePort, 0⟩

/-- The local variable `peer_count` of `mode_tun_client`. -/
def TcpClientConfig.peerCount (cfg : TcpClientConfig) : Nat := tunPeerCount cfg.vars cfg.remoteHost

/-- What a client has done. -/
inductive ClientNote where
  | accepted
  | skipped
  | tried (target : Target)
  | failed
  | established
  | slept (sec : Nat)

inductive TcpClientPc where
  | start
  | outer
  | accepting
  | socks
  | inner
  | connecting
  | setup
  | tunnel
  | sleeping
  | returned
  deriving DecidableEq

/-- The variables of a client; `baseFd` is the listener, or the device of the TUN client. -/
structure TcpClient where
  running : Bool
  pc : TcpClientPc
  baseFd : Option Nat
  localFd : Option Nat
  tunnelFd : Option Nat
  activeConns : Int
  retryDelay : Nat
  connected : Bool
  peerIdx : Nat
  acts : List (Act Nat)
  notes : List ClientNote

def TcpClient.init : TcpClient := ⟨true, .start, none, none, none, 0, 0, false, 0, [], []⟩

/-- What the calls return, and the signals. -/
inductive TcpClientEvent where
  | signal
  | listen (socket : Option Nat) (binds listens : Bool)
  | device (file : Option Nat) (attaches : Bool)
  /-- The test at the head of a loop. -/
  | loop
  | accept (fd : Option Nat)
  | socksAccept (ok : Bool)
  | connect (hinted res : Option (List Address))
  /-- The handshake, the key confirmation and the connect request. -/
  | setup (ok : Bool)
  | tunnelRun (clean : Bool)
  | woke

/-- The pause after `retry_delay`. -/
def nextDelay (retryDelay : Nat) : Nat :=
  if retryDelay = 0 then 1 else if retryDelay < 30 then retryDelay * 2 else retryDelay

namespace TcpClient

def note (c : TcpClient) (n : ClientNote) : TcpClient := { c with notes := c.notes ++ [n] }

/-- A client that has opened its listener or its device. -/
def opensBase (c : TcpClient) (r : Opening) (next : TcpClientPc) : TcpClient :=
  { c with acts := c.acts ++ r.1, baseFd := r.2, pc := if r.2.isSome then next else .returned }

def closeBase (c : TcpClient) : TcpClient :=
  { c with acts := c.acts ++ (c.baseFd.map Act.closed).toList, baseFd := none, pc := .returned }

def closeLocal (c : TcpClient) : TcpClient :=
  { c with acts := c.acts ++ (c.localFd.map Act.closed).toList, localFd := none, activeConns := c.activeConns - 1, pc := .outer }

def closeTunnel (c : TcpClient) : TcpClient :=
  { c with acts := c.acts ++ (c.tunnelFd.map Act.closed).toList, tunnelFd := none }

/-- The end of the loop that reconnects. -/
def leave (cfg : TcpClientConfig) (c : TcpClient) : TcpClient := if cfg.mode = .tun then c.closeBase else c.closeLocal

/-- The part after the label `retry`, or `retry_sleep`. -/
def retry (cfg : TcpClientConfig) (c : TcpClient) : TcpClient :=
  if !c.running || c.connected then c.leave cfg
  else note { c with retryDelay := nextDelay c.retryDelay, pc := .sleeping } (.slept (nextDelay c.retryDelay))

/-- Only the TUN client goes on to the next peer. -/
def nextPeer (cfg : TcpClientConfig) (c : TcpClient) : TcpClient :=
  if cfg.mode = .tun then { c with peerIdx := (c.peerIdx + 1) % cfg.peerCount } else c

/-- The start of the loop that reconnects. -/
def beginConnecting (c : TcpClient) : TcpClient := note { c with retryDelay := 0, connected := false, pc := .inner } .accepted

def onAccept (cfg : TcpClientConfig) (fd : Nat) (c : TcpClient) : TcpClient :=
  -- Only `mode_psk_client` looks at the limit.
  if cfg.mode = .psk ∧ c.activeConns ≥ cfg.maxConns then { c with acts := c.acts ++ [.opened fd, .closed fd], pc := .outer }
  else
    let c : TcpClient := { c with acts := c.acts ++ [.opened fd], localFd := some fd, activeConns := c.activeConns + 1 }
    if cfg.mode = .socks5 then { c with pc := .socks } else c.beginConnecting

def onRound (cfg : TcpClientConfig) (c : TcpClient) : TcpClient :=
  if !c.running || c.connected then c.leave cfg
  else
    match cfg.target c.peerIdx with
    | none => (c.nextPeer cfg).note .skipped
    | some target => note { c with pc := .connecting } (.tried target)

def onConnect (cfg : TcpClientConfig) (r : Opening) (c : TcpClient) : TcpClient :=
  let c : TcpClient := { c with acts := c.acts ++ r.1 }
  match r.2 with
  | none => ((c.nextPeer cfg).note .failed).retry cfg
  | some fd => { c with tunnelFd := some fd, pc := .setup }

/-- After the handshake; `mode_tun_client` does not reset the delay. -/
def onSetup (cfg : TcpClientConfig) (ok : Bool) (c : TcpClient) : TcpClient :=
  if ok then
    note { c with retryDelay := if cfg.mode = .tun then c.retryDelay else 0, connected := cfg.mode = .socks5, pc := .tunnel }
      .established
  else ((c.closeTunnel.nextPeer cfg).note .failed).retry cfg

/-- After `tunnel_run`; `mode_socks5_client` leaves its loop in either case. -/
def onTunnelRun (cfg : TcpClientConfig) (clean : Bool) (c : TcpClient) : TcpClient :=
  if clean then c.closeTunnel.leave cfg else c.closeTunnel.retry cfg

def step (cfg : TcpClientConfig) (c : TcpClient) : TcpClientEvent → Option TcpClient
  | .signal => if c.pc = .returned then none else some { c with running := false }
  | .listen socket binds listens =>
    if c.pc = .start ∧ cfg.mode ≠ .tun then some (c.opensBase (listenOnPort socket binds listens) .outer) else none
  | .device file attaches =>
    if c.pc = .start ∧ cfg.mode = .tun then some (c.opensBase (tunCreate file attaches) .inner) else none
  | .loop =>
    if c.pc = .outer then some (if c.running then { c with pc := .accepting } else c.closeBase)
    else if c.pc = .inner then some (c.onRound cfg)
    else none
  | .accept fd =>
    if c.pc = .accepting then
      match fd with
      | none => some { c with pc := .outer }
      | some fd => some (c.onAccept cfg fd)
    else none
  | .socksAccept ok =>
    if c.pc = .socks then some (if ok then c.beginConnecting else c.closeLocal) else none
  | .connect hinted res =>
    if c.pc = .connecting then
      some (c.onConnect cfg (if cfg.mode = .tun ∧ cfg.multipath then connectToHostMptcp hinted res else connectToHost res))
    else none
  | .setup ok => if c.pc = .setup then some (c.onSetup cfg ok) else none
  | .tunnelRun clean => if c.pc = .tunnel then some (c.onTunnelRun cfg clean) else none
  | .woke => if c.pc = .sleeping then some { c with pc := .inner } else none

end TcpClient

end AegisTunnel
