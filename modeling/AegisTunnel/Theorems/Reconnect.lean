import AegisTunnel.Lib.Journal
import AegisTunnel.Lib.Machine
import AegisTunnel.Reconnect
import AegisTunnel.Theorems.Sockets

/-! # The loops of the TCP clients over whole runs

Between two calls that wait, a client has just the descriptors open that its variables hold. Its pauses double up to half
a minute; a TUN client goes around its peers, and never starts again with a short pause. -/

namespace AegisTunnel
open Handles Machine Journal

namespace TcpClient
variable {cfg : TcpClientConfig} {c c' : TcpClient}

/-- What a step can do, other than a signal. -/
inductive Effect (cfg : TcpClientConfig) (c : TcpClient) : TcpClient → Prop where
  | opens {r : Opening} (tidy : Tidy r) (here : c.pc = .start) :
      Effect cfg c (c.opensBase r (if cfg.mode = .tun then .inner else .outer))
  | accepts (here : c.pc = .outer) (on : c.running = true) : Effect cfg c { c with pc := .accepting }
  | ends (here : c.pc = .outer) : Effect cfg c c.closeBase
  | round (here : c.pc = .inner) : Effect cfg c (c.onRound cfg)
  | interrupted (here : c.pc = .accepting) : Effect cfg c { c with pc := .outer }
  | accepted (fd : Nat) (here : c.pc = .accepting) : Effect cfg c (c.onAccept cfg fd)
  | asked (here : c.pc = .socks) : Effect cfg c c.beginConnecting
  | refused (here : c.pc = .socks) : Effect cfg c c.closeLocal
  | connected {r : Opening} (tidy : Tidy r) (here : c.pc = .connecting) : Effect cfg c (c.onConnect cfg r)
  | setUp (ok : Bool) (here : c.pc = .setup) : Effect cfg c (c.onSetup cfg ok)
  | ran (clean : Bool) (here : c.pc = .tunnel) : Effect cfg c (c.onTunnelRun cfg clean)
  | woke (here : c.pc = .sleeping) : Effect cfg c { c with pc := .inner }

theorem step_signal (taken : c.step cfg .signal = some c') : c' = { c with running := false } :=
  (Option.some.inj (Option.ite_none_left_eq_some.mp taken).2).symm

theorem step_cases {ev : TcpClientEvent} (other : ev ≠ .signal) (taken : c.step cfg ev = some c') : Effect cfg c c' := by
  cases ev with
  | signal => exact absurd rfl other
  | listen socket binds listens =>
    obtain ⟨⟨here, mode⟩, same⟩ := Option.ite_none_right_eq_some.mp taken
    cases same
    have effect : Effect cfg c (c.opensBase _ _) := .opens (tidy_listenOnPort socket binds listens) here
    rwa [if_neg mode] at effect
  | device file attaches =>
    obtain ⟨⟨here, mode⟩, same⟩ := Option.ite_none_right_eq_some.mp taken
    cases same
    have effect : Effect cfg c (c.opensBase _ _) := .opens (tidy_tunCreate file attaches) here
    rwa [if_pos mode] at effect
  | loop =>
    simp only [step] at taken
    split at taken
    next here =>
      cases taken
      split
      next on => exact .accepts here on
      next => exact .ends here
    next =>
      obtain ⟨here, same⟩ := Option.ite_none_right_eq_some.mp taken
      cases same
      exact .round here
  | accept fd =>
    obtain ⟨here, same⟩ := Option.ite_none_right_eq_some.mp taken
    cases fd with
    | none =>
      cases same
      exact .interrupted here
    | some fd =>
      cases same
      exact .accepted fd here
  | socksAccept ok =>
    obtain ⟨here, same⟩ := Option.ite_none_right_eq_some.mp taken
    cases same
    cases ok with
    | true => exact .asked here
    | false => exact .refused here
  | connect hinted res =>
    obtain ⟨here, same⟩ := Option.ite_none_right_eq_some.mp taken
    cases same
    split
    · exact .connected (tidy_connectLoopMptcp false false _) here
    · exact .connected (tidy_connectLoop _) here
  | setup ok =>
    obtain ⟨here, same⟩ := Option.ite_none_right_eq_some.mp taken
    cases same
    exact .setUp ok here
  | tunnelRun clean =>
    obtain ⟨here, same⟩ := Option.ite_none_right_eq_some.mp taken
    cases same
    exact .ran clean here
  | woke =>
    obtain ⟨here, same⟩ := Option.ite_none_right_eq_some.mp taken
    cases same
    exact .woke here

/-- What holds at the start and is kept by a signal and by each other step holds in every run. -/
theorem reached (Inv : TcpClient → Prop) (run : Steps (step cfg) (fun _ _ _ => True) init c) (start : Inv init)
    (signal : ∀ {c : TcpClient}, Inv c → Inv { c with running := false })
    (keep : ∀ {c c' : TcpClient}, Inv c → Effect cfg c c' → Inv c') : Inv c := by
  refine run.invariant start ?_
  rintro c c' ev inv taken -
  by_cases sig : ev = .signal
  · subst sig
    rw [step_signal taken]
    exact signal inv
  · exact keep inv (step_cases sig taken)

/-! ### Descriptors -/

theorem eq_none {fd : Option Nat} (h : fd.isSome = false) : fd = none :=
  Option.isNone_iff_eq_none.mp (Option.isSome_eq_false_iff.mp h)

/-- The descriptors in the variables, the last one first. -/
def owned (c : TcpClient) : List Nat := c.tunnelFd.toList ++ c.localFd.toList ++ c.baseFd.toList

end TcpClient

namespace TcpClientPc

def hasBase (pc : TcpClientPc) : Bool := pc ≠ .start && pc ≠ .returned

def hasTunnel (pc : TcpClientPc) : Bool := pc = .setup || pc = .tunnel

/-- The client works for a local connection, if it accepts any. -/
def hasLocal (pc : TcpClientPc) : Bool :=
  pc = .socks || pc = .inner || pc = .connecting || pc = .setup || pc = .tunnel || pc = .sleeping

/-- The client works on the listener, or on a local connection before it connects. -/
def listens (pc : TcpClientPc) : Bool := pc = .outer || pc = .accepting || pc = .socks

end TcpClientPc

namespace TcpClient
variable {cfg : TcpClientConfig} {c c' : TcpClient}

/-- The client has closed open descriptors only, and has those open that its variables hold: its listener or device from
the start to the end, a local connection while it works for it, and the connection to the server from `connect` to the
end of the tunnel. The local connections are counted. -/
structure Held (cfg : TcpClientConfig) (c : TcpClient) : Prop where
  acts : Reaches [] c.acts c.owned
  base : c.baseFd.isSome = c.pc.hasBase
  conn : c.localFd.isSome = (c.pc.hasLocal && decide (cfg.mode ≠ .tun))
  tunnel : c.tunnelFd.isSome = c.pc.hasTunnel
  count : c.activeConns = if c.localFd.isSome then 1 else 0
  device : cfg.mode = .tun → c.pc.listens = false

/-- What holds in the loop that reconnects, without a connection to the server. -/
structure InLoop (cfg : TcpClientConfig) (c : TcpClient) : Prop where
  acts : Reaches [] c.acts (c.localFd.toList ++ c.baseFd.toList)
  base : c.baseFd.isSome = true
  conn : c.localFd.isSome = decide (cfg.mode ≠ .tun)
  tunnel : c.tunnelFd = none
  count : c.activeConns = if c.localFd.isSome then 1 else 0

theorem held_init : Held cfg init := ⟨.refl [], rfl, rfl, rfl, rfl, fun _ => rfl⟩

theorem Held.inLoop (h : Held cfg c) (here : c.pc = .inner ∨ c.pc = .connecting ∨ c.pc = .sleeping) : InLoop cfg c := by
  have none_ : c.tunnelFd = none := by
    refine eq_none (h.tunnel.trans ?_)
    rcases here with here | here | here <;> rw [here] <;> rfl
  have acts := h.acts
  rw [owned, none_] at acts
  refine ⟨acts, h.base.trans ?_, h.conn.trans ?_, none_, h.count⟩
  · rcases here with here | here | here <;> rw [here] <;> rfl
  · rcases here with here | here | here <;> rw [here] <;> exact Bool.true_and _

theorem Held.closeTunnel (h : Held cfg c) (here : c.pc = .setup ∨ c.pc = .tunnel) : InLoop cfg c.closeTunnel := by
  obtain ⟨fd, open_⟩ : ∃ fd, c.tunnelFd = some fd := by
    rw [← Option.isSome_iff_exists, h.tunnel]
    rcases here with here | here <;> rw [here] <;> rfl
  have acts := h.acts
  rw [owned, open_] at acts
  refine ⟨?_, h.base.trans ?_, h.conn.trans ?_, rfl, h.count⟩
  · have closed := acts.append (Reaches.closed (c.localFd.toList ++ c.baseFd.toList) fd)
    rwa [TcpClient.closeTunnel, open_]
  · rcases here with here | here <;> rw [here] <;> rfl
  · rcases here with here | here <;> rw [here] <;> exact Bool.true_and _

/-- The loop does not depend on the peer, the pause and the journal. -/
theorem InLoop.congr (h : InLoop cfg c) (acts : c'.acts = c.acts) (base : c'.baseFd = c.baseFd) (conn : c'.localFd = c.localFd)
    (tunnel : c'.tunnelFd = c.tunnelFd) (count : c'.activeConns = c.activeConns) : InLoop cfg c' := by
  refine ⟨?_, ?_, ?_, ?_, ?_⟩
  · rw [acts, base, conn]; exact h.acts
  · rw [base]; exact h.base
  · rw [conn]; exact h.conn
  · rw [tunnel]; exact h.tunnel
  · rw [count, conn]; exact h.count

/-- Back at a call in the loop. -/
theorem InLoop.held (h : InLoop cfg c) (here : c.pc = .inner ∨ c.pc = .connecting ∨ c.pc = .sleeping) : Held cfg c := by
  refine ⟨?_, h.base.trans ?_, h.conn.trans ?_, ?_, h.count, fun _ => ?_⟩
  · rw [owned, h.tunnel]; exact h.acts
  · rcases here with here | here | here <;> rw [here] <;> rfl
  · rcases here with here | here | here <;> rw [here] <;> exact (Bool.true_and _).symm
  · rw [h.tunnel]
    rcases here with here | here | here <;> rw [here] <;> rfl
  · rcases here with here | here | here <;> rw [here] <;> rfl

theorem InLoop.leave (h : InLoop cfg c) : Held cfg (c.leave cfg) := by
  obtain ⟨b, base⟩ := Option.isSome_iff_exists.mp h.base
  have acts := h.acts
  rw [base] at acts
  unfold TcpClient.leave
  split
  next tun =>
    have none_ : c.localFd = none := eq_none (h.conn.trans (decide_eq_false (not_not.mpr tun)))
    rw [none_] at acts
    refine ⟨?_, rfl, ?_, ?_, h.count, fun _ => rfl⟩
    · have closed := acts.append (Reaches.closed [] b)
      rwa [closeBase, owned, base, none_, h.tunnel]
    · show c.localFd.isSome = _
      rw [none_]
      rfl
    · show c.tunnelFd.isSome = _
      rw [h.tunnel]
      rfl
  next other =>
    obtain ⟨fd, conn⟩ : ∃ fd, c.localFd = some fd := by
      rw [← Option.isSome_iff_exists, h.conn]
      exact decide_eq_true other
    have count := h.count
    rw [conn] at acts count
    refine ⟨?_, h.base, rfl, ?_, ?_, fun tun => absurd tun other⟩
    · have closed := acts.append (Reaches.closed [b] fd)
      rwa [closeLocal, owned, base, conn, h.tunnel]
    · show c.tunnelFd.isSome = _
      rw [h.tunnel]
      rfl
    · show c.activeConns - 1 = 0
      rw [count]
      rfl

theorem InLoop.retry (h : InLoop cfg c) : Held cfg (c.retry cfg) := by
  unfold TcpClient.retry
  split
  · exact h.leave
  · refine InLoop.held ?_ (.inr (.inr rfl))
    exact h.congr rfl rfl rfl rfl rfl

theorem InLoop.nextPeer (h : InLoop cfg c) : InLoop cfg (c.nextPeer cfg) := by
  unfold TcpClient.nextPeer
  split
  · exact h.congr rfl rfl rfl rfl rfl
  · exact h

theorem InLoop.beginConnecting (h : InLoop cfg c) : Held cfg c.beginConnecting := by
  refine InLoop.held ?_ (.inl rfl)
  exact h.congr rfl rfl rfl rfl rfl

/-- Before the first round for a local connection. -/
theorem Held.socks (h : Held cfg c) (here : c.pc = .socks) : InLoop cfg c := by
  have none_ : c.tunnelFd = none := eq_none (h.tunnel.trans (by rw [here]; rfl))
  have acts := h.acts
  rw [owned, none_] at acts
  refine ⟨acts, h.base.trans ?_, h.conn.trans ?_, none_, h.count⟩
  · rw [here]; rfl
  · rw [here]; exact Bool.true_and _

/-- The variables at the accept loop. -/
theorem Held.listening (h : Held cfg c) (here : c.pc = .outer ∨ c.pc = .accepting) :
    ∃ b, c.baseFd = some b ∧ c.localFd = none ∧ c.tunnelFd = none ∧ c.activeConns = 0 ∧ cfg.mode ≠ .tun ∧ Reaches [] c.acts [b] := by
  obtain ⟨b, base⟩ : ∃ b, c.baseFd = some b := by
    rw [← Option.isSome_iff_exists, h.base]
    rcases here with here | here <;> rw [here] <;> rfl
  have conn : c.localFd = none := by
    refine eq_none (h.conn.trans ?_)
    rcases here with here | here <;> rw [here] <;> rfl
  have tunnel : c.tunnelFd = none := by
    refine eq_none (h.tunnel.trans ?_)
    rcases here with here | here <;> rw [here] <;> rfl
  have acts := h.acts
  have count := h.count
  rw [owned, base, conn, tunnel] at acts
  rw [conn] at count
  refine ⟨b, base, conn, tunnel, count, fun tun => ?_, acts⟩
  have device := h.device tun
  rcases here with here | here <;> rw [here] at device <;> cases device

/-- At the accept loop again, after a connection that was not taken. -/
theorem Held.again (h : Held cfg c) (here : c.pc = .outer ∨ c.pc = .accepting) {acts : List (Act Nat)} {pc : TcpClientPc}
    (same : ∀ b, Reaches [b] acts [b]) (next : pc = .outer ∨ pc = .accepting) : Held cfg { c with acts := c.acts ++ acts, pc := pc } := by
  obtain ⟨b, base, conn, tunnel, count, mode, done⟩ := h.listening here
  refine ⟨?_, ?_, ?_, ?_, h.count, fun tun => absurd tun mode⟩
  · show Reaches [] (c.acts ++ acts) (c.tunnelFd.toList ++ c.localFd.toList ++ c.baseFd.toList)
    rw [base, conn, tunnel]
    exact done.append (same b)
  · show c.baseFd.isSome = pc.hasBase
    rw [base]
    rcases next with rfl | rfl <;> rfl
  · show c.localFd.isSome = (pc.hasLocal && _)
    rw [conn]
    rcases next with rfl | rfl <;> rfl
  · show c.tunnelFd.isSome = pc.hasTunnel
    rw [tunnel]
    rcases next with rfl | rfl <;> rfl

theorem Held.accepted (h : Held cfg c) (here : c.pc = .accepting) (fd : Nat) : Held cfg (c.onAccept cfg fd) := by
  obtain ⟨b, base, conn, tunnel, count, mode, done⟩ := h.listening (.inr here)
  unfold onAccept
  split
  next => exact h.again (.inr here) (fun b => .transient [b] fd) (.inl rfl)
  next =>
    have taken : InLoop cfg { c with acts := c.acts ++ [.opened fd], localFd := some fd, activeConns := c.activeConns + 1 } := by
      refine ⟨?_, by rw [base]; rfl, (decide_eq_true mode).symm, tunnel, ?_⟩
      · show Reaches [] (c.acts ++ [.opened fd]) (fd :: c.baseFd.toList)
        rw [base]
        exact done.append (.opened [b] fd)
      · show c.activeConns + 1 = 1
        rw [count]
        rfl
    dsimp only
    split
    next =>
      refine ⟨?_, ?_, ?_, ?_, taken.count, fun tun => absurd tun mode⟩
      · show Reaches [] _ (c.tunnelFd.toList ++ [fd] ++ c.baseFd.toList)
        rw [tunnel]
        exact taken.acts
      · exact taken.base
      · exact (decide_eq_true mode).symm
      · show c.tunnelFd.isSome = false
        rw [tunnel]
        rfl
    next => exact taken.beginConnecting

theorem Held.opens (h : Held cfg c) (here : c.pc = .start) {r : Opening} (tidy : Tidy r) :
    Held cfg (c.opensBase r (if cfg.mode = .tun then .inner else .outer)) := by
  have base : c.baseFd = none := eq_none (h.base.trans (by rw [here]; rfl))
  have conn : c.localFd = none := eq_none (h.conn.trans (by rw [here]; rfl))
  have tunnel : c.tunnelFd = none := eq_none (h.tunnel.trans (by rw [here]; rfl))
  have acts := h.acts
  have count := h.count
  rw [owned, base, conn, tunnel] at acts
  obtain ⟨more, fd⟩ := r
  have done := acts.append (tidy [])
  rw [List.append_nil] at done
  have owned_ : owned (c.opensBase (more, fd) (if cfg.mode = .tun then .inner else .outer)) = fd.toList := by
    simp only [opensBase, owned, conn, tunnel, Option.toList_none, List.nil_append]
  refine ⟨owned_ ▸ done, ?_, ?_, ?_, ?_, fun tun => ?_⟩
  · cases fd with
    | none => rfl
    | some fd => by_cases tun : cfg.mode = .tun <;> simp [opensBase, tun, TcpClientPc.hasBase]
  · show c.localFd.isSome = _
    rw [conn]
    cases fd with
    | none => rfl
    | some fd => by_cases tun : cfg.mode = .tun <;> simp [opensBase, tun, TcpClientPc.hasLocal]
  · show c.tunnelFd.isSome = _
    rw [tunnel]
    cases fd with
    | none => rfl
    | some fd => by_cases tun : cfg.mode = .tun <;> simp [opensBase, tun, TcpClientPc.hasTunnel]
  · exact count
  · cases fd with
    | none => rfl
    | some fd => simp [opensBase, tun, TcpClientPc.listens]

theorem InLoop.onRound (h : InLoop cfg c) (here : c.pc = .inner) : Held cfg (c.onRound cfg) := by
  unfold TcpClient.onRound
  split
  · exact h.leave
  · split
    · refine InLoop.held (h.nextPeer.congr rfl rfl rfl rfl rfl) (.inl ?_)
      unfold TcpClient.nextPeer
      split <;> exact here
    · refine InLoop.held ?_ (.inr (.inl rfl))
      exact h.congr rfl rfl rfl rfl rfl

theorem InLoop.onConnect (h : InLoop cfg c) {r : Opening} (tidy : Tidy r) : Held cfg (c.onConnect cfg r) := by
  obtain ⟨more, fd⟩ := r
  have done := h.acts.append (tidy _)
  unfold TcpClient.onConnect
  cases fd with
  | none =>
    have loop : InLoop cfg { c with acts := c.acts ++ more } := ⟨done, h.base, h.conn, h.tunnel, h.count⟩
    refine InLoop.retry ?_
    exact loop.nextPeer.congr rfl rfl rfl rfl rfl
  | some fd => exact ⟨done, h.base, h.conn.trans (Bool.true_and _).symm, rfl, h.count, fun _ => rfl⟩

theorem Held.onSetup (h : Held cfg c) (here : c.pc = .setup) (ok : Bool) : Held cfg (c.onSetup cfg ok) := by
  unfold TcpClient.onSetup
  split
  · refine ⟨h.acts, h.base.trans ?_, h.conn.trans ?_, h.tunnel.trans ?_, h.count, fun _ => rfl⟩
    · rw [here]; rfl
    · rw [here]; rfl
    · rw [here]; rfl
  · refine InLoop.retry ?_
    exact (h.closeTunnel (.inl here)).nextPeer.congr rfl rfl rfl rfl rfl

theorem Held.onTunnelRun (h : Held cfg c) (here : c.pc = .tunnel) (clean : Bool) : Held cfg (c.onTunnelRun cfg clean) := by
  have loop := h.closeTunnel (.inr here)
  unfold TcpClient.onTunnelRun
  split
  · exact loop.leave
  · exact loop.retry

theorem Held.step (h : Held cfg c) (effect : Effect cfg c c') : Held cfg c' := by
  cases effect with
  | opens tidy here => exact h.opens here tidy
  | accepts here on =>
    have again := h.again (.inl here) (fun b => .refl [b]) (.inr rfl)
    rwa [List.append_nil] at again
  | ends here =>
    obtain ⟨b, base, conn, tunnel, count, mode, done⟩ := h.listening (.inl here)
    refine ⟨?_, rfl, ?_, ?_, h.count, fun tun => absurd tun mode⟩
    · have closed := done.append (Reaches.closed [] b)
      rwa [closeBase, owned, base, conn, tunnel]
    · show c.localFd.isSome = _
      rw [conn]
      rfl
    · show c.tunnelFd.isSome = _
      rw [tunnel]
      rfl
  | round here => exact (h.inLoop (.inl here)).onRound here
  | interrupted here =>
    have again := h.again (.inr here) (fun b => .refl [b]) (.inl rfl)
    rwa [List.append_nil] at again
  | accepted fd here => exact h.accepted here fd
  | asked here => exact (h.socks here).beginConnecting
  | refused here =>
    have mode : cfg.mode ≠ .tun := fun tun => by
      have device := h.device tun
      rw [here] at device
      cases device
    have left := (h.socks here).leave
    rwa [TcpClient.leave, if_neg mode] at left
  | connected tidy here => exact (h.inLoop (.inr (.inl here))).onConnect tidy
  | setUp ok here => exact h.onSetup here ok
  | ran clean here => exact h.onTunnelRun here clean
  | woke here =>
    refine InLoop.held ?_ (.inl rfl)
    exact (h.inLoop (.inr (.inr here))).congr rfl rfl rfl rfl rfl

theorem held_reached (run : Steps (step cfg) (fun _ _ _ => True) init c) : Held cfg c :=
  reached (Held cfg) run held_init (fun h => ⟨h.acts, h.base, h.conn, h.tunnel, h.count, h.device⟩) Held.step

/-! ### The journal -/

section Fields
variable (c)

@[simp] theorem leave_notes : (c.leave cfg).notes = c.notes := by unfold leave; split <;> rfl

@[simp] theorem leave_retryDelay : (c.leave cfg).retryDelay = c.retryDelay := by unfold leave; split <;> rfl

@[simp] theorem leave_peerIdx : (c.leave cfg).peerIdx = c.peerIdx := by unfold leave; split <;> rfl

@[simp] theorem nextPeer_notes : (c.nextPeer cfg).notes = c.notes := by unfold nextPeer; split <;> rfl

@[simp] theorem nextPeer_retryDelay : (c.nextPeer cfg).retryDelay = c.retryDelay := by unfold nextPeer; split <;> rfl

@[simp] theorem leave_running : (c.leave cfg).running = c.running := by unfold leave; split <;> rfl

@[simp] theorem nextPeer_running : (c.nextPeer cfg).running = c.running := by unfold nextPeer; split <;> rfl

theorem leave_pc : (c.leave cfg).pc = .outer ∨ (c.leave cfg).pc = .returned := by
  unfold leave
  split
  · exact .inr rfl
  · exact .inl rfl

/-- The client leaves the loop, or it sleeps. -/
theorem retry_cases (cfg : TcpClientConfig) : c.retry cfg = c.leave cfg ∨ c.running = true ∧
    c.retry cfg = note { c with retryDelay := nextDelay c.retryDelay, pc := .sleeping } (.slept (nextDelay c.retryDelay)) := by
  unfold retry
  split
  next => exact .inl rfl
  next on =>
    rw [Bool.not_eq_true, Bool.or_eq_false_iff, Bool.not_eq_false'] at on
    exact .inr ⟨on.1, rfl⟩

end Fields

/-! ### The pauses -/

/-- The pause before the round `n`: 1, 2, 4, 8, 16 and 32 seconds, and 32 from then on. -/
def delay (n : Nat) : Nat := if n = 0 then 0 else min (2 ^ (n - 1)) 32

theorem nextDelay_delay (n : Nat) : nextDelay (delay n) = delay (n + 1) := by
  rcases Nat.lt_or_ge n 7 with small | large
  · interval_cases n <;> rfl
  · have full (m : Nat) (h : 6 ≤ m) : delay m = 32 := by
      have power : 2 ^ 5 ≤ 2 ^ (m - 1) := Nat.pow_le_pow_right (by decide) (by omega)
      rw [delay, if_neg (by omega)]
      exact Nat.min_eq_right power
    rw [full n (by omega), full (n + 1) (by omega)]
    rfl

/-- The rounds since the pauses began anew: with a local connection, or with a tunnel, but for the TUN client. -/
def retriesAfter (mode : TcpMode) (n : Nat) : ClientNote → Nat
  | .accepted => 0
  | .established => if mode = .tun then n else 0
  | .slept _ => n + 1
  | _ => n

def retries (mode : TcpMode) (notes : List ClientNote) : Nat := notes.foldl (retriesAfter mode) 0

theorem retries_concat (mode : TcpMode) (notes : List ClientNote) (n : ClientNote) :
    retries mode (notes ++ [n]) = retriesAfter mode (retries mode notes) n := List.foldl_concat ..

/-- Every pause is that of the number of rounds before it. -/
def PausesRight (mode : TcpMode) : List ClientNote → Prop :=
  Sound fun before n => ∀ sec, n = .slept sec → sec = delay (retries mode before + 1)

/-- The variable is that of the next pause. -/
structure Paused (mode : TcpMode) (c : TcpClient) : Prop where
  next : c.retryDelay = delay (retries mode c.notes)
  right : PausesRight mode c.notes

namespace Paused
variable {mode : TcpMode} (h : Paused mode c)
include h

theorem congr (next : c'.retryDelay = c.retryDelay) (notes : c'.notes = c.notes) : Paused mode c' := by
  refine ⟨?_, ?_⟩
  · rw [next, notes]; exact h.next
  · rw [notes]; exact h.right

/-- A note other than that of a pause. -/
theorem note {n : ClientNote} (other : ∀ sec, n ≠ .slept sec) (next : c'.retryDelay = delay (retriesAfter mode (retries mode c.notes) n))
    (notes : c'.notes = c.notes ++ [n]) : Paused mode c' := by
  refine ⟨?_, ?_⟩
  · rw [notes, retries_concat]; exact next
  · rw [notes]; exact h.right.concat fun sec same => absurd same (other sec)

theorem leave : Paused mode (c.leave cfg) := h.congr (leave_retryDelay c) (leave_notes c)

theorem retry : Paused mode (c.retry cfg) := by
  rcases c.retry_cases cfg with same | ⟨-, same⟩
  · rw [same]; exact h.leave
  · rw [same]
    refine ⟨?_, h.right.concat fun sec slept => ?_⟩
    · show nextDelay c.retryDelay = delay (retries mode (c.notes ++ [.slept (nextDelay c.retryDelay)]))
      rw [retries_concat, h.next, nextDelay_delay]
      rfl
    · cases slept
      rw [h.next, nextDelay_delay]

/-- A round that has failed. -/
theorem failed (next : c'.retryDelay = c.retryDelay) (notes : c'.notes = c.notes) :
    Paused mode (((c'.nextPeer cfg).note .failed).retry cfg) := by
  refine Paused.retry (h.note (n := .failed) (fun _ => nofun) ?_ ?_)
  · show (c'.nextPeer cfg).retryDelay = _
    rw [nextPeer_retryDelay, next]
    exact h.next
  · show (c'.nextPeer cfg).notes ++ [ClientNote.failed] = _
    rw [nextPeer_notes, notes]

end Paused

theorem Paused.step (h : Paused cfg.mode c) (effect : Effect cfg c c') : Paused cfg.mode c' := by
  cases effect with
  | opens | accepts | ends | interrupted | refused | woke => exact h.congr rfl rfl
  | round here =>
    unfold onRound
    split
    · exact h.leave
    · split
      · refine h.note (n := .skipped) (fun _ => nofun) ?_ ?_
        · exact (nextPeer_retryDelay c).trans h.next
        · exact congrArg (· ++ [ClientNote.skipped]) (nextPeer_notes c)
      · exact h.note (n := .tried _) (fun _ => nofun) h.next rfl
  | accepted fd here =>
    unfold onAccept
    split
    · exact h.congr rfl rfl
    · dsimp only
      split
      · exact h.congr rfl rfl
      · exact h.note (n := .accepted) (fun _ => nofun) rfl rfl
  | asked => exact h.note (n := .accepted) (fun _ => nofun) rfl rfl
  | @connected r tidy here =>
    obtain ⟨more, fd⟩ := r
    cases fd with
    | none => exact h.failed rfl rfl
    | some fd => exact h.congr rfl rfl
  | setUp ok here =>
    unfold onSetup
    split
    · refine h.note (n := .established) (fun _ => nofun) ?_ rfl
      show (if cfg.mode = .tun then c.retryDelay else 0) = delay (if cfg.mode = .tun then retries cfg.mode c.notes else 0)
      split
      · exact h.next
      · rfl
    · exact h.failed rfl rfl
  | ran clean here =>
    have closed : Paused cfg.mode c.closeTunnel := h.congr rfl rfl
    unfold onTunnelRun
    split
    · exact closed.leave
    · exact closed.retry

/-! ### The peers of the TUN client -/

/-- The rounds after which the client goes on to the next peer. -/
def turns (notes : List ClientNote) : Nat :=
  notes.countP fun
    | .skipped | .failed => true
    | _ => false

theorem turns_concat (notes : List ClientNote) (n : ClientNote) : turns (notes ++ [n]) = turns notes + turns [n] :=
  List.countP_append

/-- A round is for the peer whose turn it is; it is skipped just if the endpoint of that peer cannot be used, and a
failed one was tried. -/
def RightTurn (cfg : TcpClientConfig) (before : List ClientNote) : ClientNote → Prop
  | .tried target => cfg.target (turns before % cfg.peerCount) = some target
  | .skipped => cfg.target (turns before % cfg.peerCount) = none
  | .failed => ∃ earlier target, before = earlier ++ [.tried target]
  | _ => True

/-- The index is that of the peer whose turn it is. -/
structure Turns (cfg : TcpClientConfig) (c : TcpClient) : Prop where
  index : c.peerIdx = turns c.notes % cfg.peerCount
  right : Sound (RightTurn cfg) c.notes

/-- The last note is that of the round, until it has failed or the tunnel is there. -/
def Trying (c : TcpClient) : Prop := c.pc = .connecting ∨ c.pc = .setup → ∃ earlier target, c.notes = earlier ++ [.tried target]

theorem trying_leave (c : TcpClient) : (c.leave cfg).Trying := by
  intro here
  rcases c.leave_pc with pc | pc <;> rw [pc] at here <;> rcases here with here | here <;> cases here

theorem trying_retry (c : TcpClient) : (c.retry cfg).Trying := by
  rcases c.retry_cases cfg with same | ⟨-, same⟩
  · rw [same]
    exact trying_leave c
  · rw [same]
    exact nofun

theorem Trying.step (h : c.Trying) (effect : Effect cfg c c') : c'.Trying := by
  cases effect with
  | opens =>
    intro here
    simp only [opensBase] at here
    split at here
    · split at here <;> rcases here with here | here <;> cases here
    · rcases here with here | here <;> cases here
  | accepts | ends | interrupted | asked | refused | woke => exact nofun
  | round here =>
    unfold onRound
    split
    · exact trying_leave c
    · split
      · intro there
        have same : (c.nextPeer cfg).pc = c.pc := by
          unfold nextPeer
          split <;> rfl
        rw [note, same, here] at there
        rcases there with there | there <;> cases there
      · exact fun _ => ⟨_, _, rfl⟩
  | accepted fd here =>
    unfold onAccept
    split
    · exact nofun
    · dsimp only
      split
      · exact nofun
      · exact nofun
  | @connected r tidy here =>
    obtain ⟨more, fd⟩ := r
    cases fd with
    | none => exact trying_retry _
    | some fd => exact fun _ => h (.inl here)
  | setUp ok here =>
    unfold onSetup
    split
    · exact nofun
    · exact trying_retry _
  | ran clean here =>
    unfold onTunnelRun
    split
    · exact trying_leave _
    · exact trying_retry _

namespace Turns
variable (h : Turns cfg c)
include h

theorem congr (index : c'.peerIdx = c.peerIdx) (notes : c'.notes = c.notes) : Turns cfg c' := by
  refine ⟨?_, ?_⟩
  · rw [index, notes]; exact h.index
  · rw [notes]; exact h.right

/-- A note after which the same peer has its turn. -/
theorem note {n : ClientNote} (same : turns [n] = 0) (right : RightTurn cfg c.notes n) (index : c'.peerIdx = c.peerIdx)
    (notes : c'.notes = c.notes ++ [n]) : Turns cfg c' := by
  refine ⟨?_, ?_⟩
  · rw [index, notes, turns_concat, same]; exact h.index
  · rw [notes]; exact h.right.concat right

/-- A note after which the next peer has its turn. -/
theorem next {n : ClientNote} (tun : cfg.mode = .tun) (turn : turns [n] = 1) (right : RightTurn cfg c.notes n) :
    Turns cfg ((c.nextPeer cfg).note n) := by
  have after : c.nextPeer cfg = { c with peerIdx := (c.peerIdx + 1) % cfg.peerCount } := if_pos tun
  rw [after]
  refine ⟨?_, h.right.concat right⟩
  show (c.peerIdx + 1) % cfg.peerCount = turns (c.notes ++ [n]) % cfg.peerCount
  rw [turns_concat, turn, h.index, Nat.mod_add_mod]

theorem leave : Turns cfg (c.leave cfg) := h.congr (leave_peerIdx c) (leave_notes c)

theorem retry : Turns cfg (c.retry cfg) := by
  rcases c.retry_cases cfg with same | ⟨-, same⟩
  · rw [same]; exact h.leave
  · rw [same]; exact h.note (n := .slept _) rfl trivial rfl rfl

end Turns

theorem Turns.step (tun : cfg.mode = .tun) (h : Turns cfg c) (trying : c.Trying) (effect : Effect cfg c c') : Turns cfg c' := by
  cases effect with
  | opens | accepts | ends | interrupted | refused | woke => exact h.congr rfl rfl
  | round here =>
    unfold onRound
    split
    · exact h.leave
    · split
      next unusable =>
        rw [h.index] at unusable
        exact h.next tun rfl unusable
      next target usable =>
        rw [h.index] at usable
        exact h.note (n := .tried target) rfl usable rfl rfl
  | accepted fd here =>
    unfold onAccept
    split
    · exact h.congr rfl rfl
    · dsimp only
      split
      · exact h.congr rfl rfl
      · exact h.note (n := .accepted) rfl trivial rfl rfl
  | asked => exact h.note (n := .accepted) rfl trivial rfl rfl
  | @connected r tidy here =>
    obtain ⟨more, fd⟩ := r
    cases fd with
    | none =>
      have closed : Turns cfg { c with acts := c.acts ++ more } := h.congr rfl rfl
      exact (closed.next (n := .failed) tun rfl (trying (.inl here))).retry
    | some fd => exact h.congr rfl rfl
  | setUp ok here =>
    unfold onSetup
    split
    · exact h.note (n := .established) rfl trivial rfl rfl
    · have closed : Turns cfg c.closeTunnel := h.congr rfl rfl
      exact (closed.next (n := .failed) tun rfl (trying (.inr here))).retry
  | ran clean here =>
    have closed : Turns cfg c.closeTunnel := h.congr rfl rfl
    unfold onTunnelRun
    split
    · exact closed.leave
    · exact closed.retry

/-! ### The end -/

/-- How many calls may still return once the client is to stop. -/
def toGo : TcpClientPc → Nat
  | .returned => 0
  | .outer => 1
  | .inner | .tunnel => 2
  | .start | .socks | .setup | .sleeping => 3
  | .accepting | .connecting => 4

/-- Once it is to stop, the client does not go on after a round. -/
theorem leave_stops (stop : c.running = false) : (c.leave cfg).running = false ∧ toGo (c.leave cfg).pc ≤ 1 := by
  refine ⟨(leave_running c).trans stop, ?_⟩
  rcases c.leave_pc with pc | pc <;> rw [pc] <;> decide

theorem retry_stops (stop : c.running = false) : (c.retry cfg).running = false ∧ toGo (c.retry cfg).pc ≤ 1 := by
  rcases c.retry_cases cfg with same | ⟨on, -⟩
  · rw [same]
    exact leave_stops stop
  · rw [stop] at on
    cases on

theorem failed_stops (stop : c.running = false) : (((c.nextPeer cfg).note .failed).retry cfg).running = false ∧
    toGo (((c.nextPeer cfg).note .failed).retry cfg).pc ≤ 1 := retry_stops ((nextPeer_running c).trans stop)

theorem toGo_lt (stop : c.running = false) (effect : Effect cfg c c') : c'.running = false ∧ toGo c'.pc < toGo c.pc := by
  cases effect with
  | @opens r tidy here =>
    refine ⟨stop, ?_⟩
    rw [here]
    simp only [opensBase]
    split
    · split <;> decide
    · decide
  | accepts here on =>
    rw [stop] at on
    cases on
  | ends here =>
    rw [here]
    exact ⟨stop, Nat.le_of_ble_eq_true rfl⟩
  | round here =>
    have leaves : c.onRound cfg = c.leave cfg := if_pos (by rw [stop]; rfl)
    rw [leaves, here]
    exact (leave_stops stop).imp_right Nat.lt_succ_of_le
  | interrupted here =>
    rw [here]
    exact ⟨stop, Nat.le_of_ble_eq_true rfl⟩
  | accepted fd here =>
    rw [here]
    unfold onAccept
    split
    · exact ⟨stop, Nat.le_of_ble_eq_true rfl⟩
    · dsimp only
      split
      · exact ⟨stop, Nat.le_of_ble_eq_true rfl⟩
      · exact ⟨stop, Nat.le_of_ble_eq_true rfl⟩
  | asked here =>
    rw [here]
    exact ⟨stop, Nat.le_of_ble_eq_true rfl⟩
  | refused here =>
    rw [here]
    exact ⟨stop, Nat.le_of_ble_eq_true rfl⟩
  | @connected r tidy here =>
    rw [here]
    obtain ⟨more, fd⟩ := r
    cases fd with
    | none =>
      have still : TcpClient.running { c with acts := c.acts ++ more } = false := stop
      exact (failed_stops still).imp_right fun le => Nat.lt_of_le_of_lt le (by decide)
    | some fd => exact ⟨stop, Nat.le_of_ble_eq_true rfl⟩
  | setUp ok here =>
    rw [here]
    unfold onSetup
    split
    · exact ⟨stop, Nat.le_of_ble_eq_true rfl⟩
    · have closed : c.closeTunnel.running = false := stop
      exact (failed_stops closed).imp_right fun le => Nat.lt_of_le_of_lt le (by decide)
  | ran clean here =>
    have closed : c.closeTunnel.running = false := stop
    rw [here]
    unfold onTunnelRun
    split
    · exact (leave_stops closed).imp_right Nat.lt_succ_of_le
    · exact (retry_stops closed).imp_right Nat.lt_succ_of_le
  | woke here =>
    rw [here]
    exact ⟨stop, Nat.le_of_ble_eq_true rfl⟩

/-- Every call can return. -/
theorem can_go (alive : c.pc ≠ .returned) : ∃ ev, ev ≠ .signal ∧ (c.step cfg ev).isSome := by
  cases here : c.pc with
  | start =>
    by_cases tun : cfg.mode = .tun
    · exact ⟨.device none true, nofun, by simp [step, here, tun]⟩
    · exact ⟨.listen none true true, nofun, by simp [step, here, tun]⟩
  | outer => exact ⟨.loop, nofun, by simp [step, here]⟩
  | accepting => exact ⟨.accept none, nofun, by simp [step, here]⟩
  | socks => exact ⟨.socksAccept false, nofun, by simp [step, here]⟩
  | inner => exact ⟨.loop, nofun, by simp [step, here]⟩
  | connecting => exact ⟨.connect none none, nofun, by simp [step, here]⟩
  | setup => exact ⟨.setup false, nofun, by simp [step, here]⟩
  | tunnel => exact ⟨.tunnelRun false, nofun, by simp [step, here]⟩
  | sleeping => exact ⟨.woke, nofun, by simp [step, here]⟩
  | returned => exact absurd here alive

theorem length_le_toGo {evs : List TcpClientEvent} (run : Trace (step cfg) (fun _ ev _ => ev ≠ .signal) c evs c')
    (stop : c.running = false) : evs.length ≤ toGo c.pc := by
  induction run with
  | nil => exact Nat.zero_le _
  | cons taken other _ ih =>
    obtain ⟨stop, less⟩ := toGo_lt stop (step_cases other taken)
    exact Nat.le_trans (Nat.succ_le_succ (ih stop)) less

end TcpClient

open TcpClient

/-- A TUN client with the given endpoints. -/
def tunClientOf (endpoints : List String) : TcpClientConfig where
  mode := .tun
  maxConns := 64
  remoteHost := []
  remotePort := 0
  vars := ⟨0, true, false, "client".toList, none, endpoints.map (·.toList), endpoints.length⟩
  multipath := false

/-- A run of a client. -/
def clientAfter (cfg : TcpClientConfig) (evs : List TcpClientEvent) : TcpClient :=
  (exec (TcpClient.step cfg) (fun _ _ _ => true) .init evs).getD .init

theorem steps_clientAfter {cfg : TcpClientConfig} {evs : List TcpClientEvent}
    (done : (exec (TcpClient.step cfg) (fun _ _ _ => true) .init evs).isSome) :
    Steps (TcpClient.step cfg) (fun _ _ _ => True) .init (clientAfter cfg evs) := by
  obtain ⟨c, hc⟩ := Option.isSome_iff_exists.mp done
  rw [clientAfter, hc]
  exact Steps.of_exec _ evs (fun _ _ => trivial) hc

/-- The first peer cannot be connected to, and the handshake with the second one fails. -/
def twoRounds : List TcpClientEvent :=
  [.device (some 3) true, .loop, .connect none none, .woke, .loop, .connect none (some [⟨none, some 4, true⟩]), .setup false, .woke]

theorem twoRounds_done :
    (exec (TcpClient.step (tunClientOf ["a:1", "b:2"])) (fun _ _ _ => true) .init twoRounds).isSome := by decide +kernel

/-- In every run the pauses of a TCP client are 1, 2, 4, 8, 16 and 32 seconds, and 32 seconds from then on. They begin
anew with each local connection and each tunnel, but not in the TUN client, where they never do. -/
theorem client_backoff (cfg : TcpClientConfig) (c : TcpClient)
    (run : Steps (TcpClient.step cfg) (fun _ _ _ => True) .init c) : PausesRight cfg.mode c.notes := by
  have paused : Paused cfg.mode c :=
    reached (Paused cfg.mode) run ⟨rfl, sound_nil⟩ (fun h => h.congr rfl rfl) Paused.step
  exact paused.right

theorem client_backoff_twoRounds : PausesRight .tun (clientAfter (tunClientOf ["a:1", "b:2"]) twoRounds).notes :=
  client_backoff _ _ (steps_clientAfter twoRounds_done)

/-- A client that gets a signal while it connects. -/
def signalled : TcpClient := clientAfter (tunClientOf ["a:1"]) [.device (some 3) true, .loop, .signal]

/-- Then it gets no connection. -/
def unconnected : TcpClient := (signalled.step (tunClientOf ["a:1"]) (.connect none none)).getD .init

/-- In every run of the TUN client the peers have their turns one after the other: a round is tried with the endpoint and
the key of the peer whose turn it is, and after a failed or a skipped round it is the turn of the next one. So of any
stretch with as many of those rounds as there are peers, each peer has had one. -/
theorem tun_client_round_robin (cfg : TcpClientConfig) (c : TcpClient) (tun : cfg.mode = .tun)
    (run : Steps (TcpClient.step cfg) (fun _ _ _ => True) .init c) :
    Sound (RightTurn cfg) c.notes ∧
    ∀ before window after, c.notes = before ++ (window ++ after) → cfg.peerCount ≤ turns window → ∀ i < cfg.peerCount,
      ∃ front n rest, window = front ++ n :: rest ∧
        ((n = .skipped ∧ cfg.target i = none) ∨
          (n = .failed ∧ ∃ earlier target, before ++ front = earlier ++ [.tried target] ∧ cfg.target i = some target)) := by
  have inv : Turns cfg c ∧ c.Trying := by
    refine reached (fun c => Turns cfg c ∧ c.Trying) run ?_ ?_ ?_
    · exact ⟨⟨(Nat.zero_mod _).symm, sound_nil⟩, nofun⟩
    · exact fun h => ⟨h.1.congr rfl rfl, h.2⟩
    · exact fun h effect => ⟨h.1.step tun h.2 effect, h.2.step effect⟩
  have right := inv.1.right
  refine ⟨right, fun before window after split enough i hi => ?_⟩
  obtain ⟨j, hj, turn⟩ := exists_turn hi (turns before)
  obtain ⟨front, n, rest, rfl, kind, count⟩ := exists_nth _ (Nat.lt_of_lt_of_le hj enough)
  have index : turns (before ++ front) % cfg.peerCount = i := by
    rw [turns, List.countP_append, count]
    exact turn
  have here : c.notes = (before ++ front) ++ n :: (rest ++ after) := by
    rw [split]
    simp
  have this := right _ _ _ here
  refine ⟨front, n, rest, rfl, ?_⟩
  cases n with
  | skipped => exact .inl ⟨rfl, index ▸ this⟩
  | failed =>
    obtain ⟨earlier, target, last⟩ := this
    refine .inr ⟨rfl, earlier, target, last, ?_⟩
    rw [last, List.append_assoc] at here
    have tried : cfg.target (turns earlier % cfg.peerCount) = some target := right _ _ _ here
    rw [last, turns_concat] at index
    exact index ▸ tried
  | accepted | tried | established | slept => cases kind

theorem tun_client_round_robin_twoRounds :
    Sound (RightTurn (tunClientOf ["a:1", "b:2"])) (clientAfter (tunClientOf ["a:1", "b:2"]) twoRounds).notes :=
  (tun_client_round_robin _ _ rfl (steps_clientAfter twoRounds_done)).1

theorem peerCount_pos (cfg : TcpClientConfig) : 0 < cfg.peerCount := by
  unfold TcpClientConfig.peerCount tunPeerCount
  split
  next some_ => exact some_.2
  next => exact Nat.one_pos

end AegisTunnel
