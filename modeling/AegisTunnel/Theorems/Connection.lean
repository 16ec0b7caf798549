import AegisTunnel.TcpClient
import AegisTunnel.Theorems.Delivery
import AegisTunnel.Theorems.HandshakeServer
import AegisTunnel.Theorems.ModeCommon
import AegisTunnel.Theorems.Socks5

/-! # A connection from its handshake to its data

The set-up of a connection takes its own messages from the stream and nothing of what follows, however the stream is
cut. When both sides are who they should be, the tunnels that they start have each other's keys and counters. -/

namespace AegisTunnel
open Octets

variable {α β : Type} {lib : OpenSsl} {b : Backend} {w w' : World} {m : Octets}

/-! ### What the set-up takes from the stream -/

/-- `x` takes the next `n` bytes of what arrives, whatever it returns, and returns nothing where there are fewer. -/
def Takes (n : Nat) (x : Hs α) : Prop :=
  ∀ w m, arriving w.inbox = some m → arriving (x w).2.inbox = some (m.drop n) ∧ (m.length < n → (x w).1 = none)

/-- `x` gives up only where fewer than `n` bytes arrive. -/
def FailsShort (n : Nat) (x : Hs α) : Prop := ∀ w m, arriving w.inbox = some m → (x w).1 = none → m.length < n

theorem takes_recvAll (n : Nat) : Takes n (recvAll n) ∧ FailsShort n (recvAll n) := by
  have cases_ : ∀ w m, arriving w.inbox = some m → arriving (recvAll n w).2.inbox = some (m.drop n) ∧
      ((recvAll n w).1 = none ↔ m.length < n) := by
    intro w m stream
    by_cases short : m.length < n
    · have hrecv : recvAll n w = (none, { w with inbox := [] }) := by
        rw [recvAll, recvLoop_short [] m (by simpa using short) stream]
      rw [hrecv, List.drop_eq_nil_of_le (by omega)]
      exact ⟨rfl, iff_of_true rfl short⟩
    · obtain ⟨q, hrecv, hq⟩ := recvAll_arriving (n := n) (m := m.take n) (r := m.drop n)
        (by rw [List.length_take]; omega) (by rw [List.take_append_drop]; exact stream)
      rw [hrecv]
      exact ⟨hq, iff_of_false (Option.some_ne_none _) short⟩
  exact ⟨fun w m stream => ⟨(cases_ w m stream).1, (cases_ w m stream).2.mpr⟩, fun w m stream => (cases_ w m stream).2.mp⟩

section Rules
variable {n k : Nat} {x : Hs α} {g : α → Hs β}

theorem takes_bind (hx : Takes n x) (short : FailsShort n x) (hg : ∀ a, Takes k (g a)) : Takes (n + k) (x >>= g) := by
  intro w m stream
  obtain ⟨left, few⟩ := hx w m stream
  cases h : x w with
  | mk o w' =>
    rw [h] at left few
    cases o with
    | none =>
      have hlen := short w m stream (by rw [h])
      rw [Run.bind_none h]
      refine ⟨?_, fun _ => rfl⟩
      rw [left, List.drop_eq_nil_of_le (by omega), List.drop_eq_nil_of_le (by omega)]
    | some a =>
      have hlen : ¬ m.length < n := fun lt => by cases few lt
      obtain ⟨left', few'⟩ := hg a w' _ left
      rw [Run.bind_some h]
      refine ⟨by rw [left', List.drop_drop], fun lt => few' ?_⟩
      rw [List.length_drop]
      omega

/-- What comes after the last byte leaves the stream alone. -/
theorem takes_bind_keeps (hx : Takes n x) (hg : ∀ a, Run.Keeps World.inbox (g a)) : Takes n (x >>= g) := by
  intro w m stream
  obtain ⟨left, few⟩ := hx w m stream
  rw [Run.keeps_after hg]
  refine ⟨left, fun lt => ?_⟩
  exact congrArg Prod.fst (Run.bind_none (f := g) (Prod.ext (few lt) rfl))

/-- What comes before the first byte leaves the stream alone and does not fail. -/
theorem takes_keeps_bind (hx : Run.Keeps World.inbox x) (total : ∀ w, (x w).1 ≠ none) (hg : ∀ a, Takes n (g a)) :
    Takes n (x >>= g) := by
  intro w m stream
  have same := hx w
  cases h : x w with
  | mk o w' =>
    cases o with
    | none => exact absurd (by rw [h]) (total w)
    | some a =>
      rw [h] at same
      rw [Run.bind_some h]
      exact hg a w' m (by rw [same]; exact stream)

end Rules

theorem inbox_timestampNow : Run.Keeps World.inbox timestampNow := fun w => by
  unfold timestampNow
  split <;> rfl

theorem inbox_ecdhKeygen : Run.Keeps World.inbox ecdhKeygen := fun w => by
  unfold ecdhKeygen
  split <;> rfl

theorem inbox_deriveInto (lib : OpenSsl) (k p : Word 32) : Run.Keeps World.inbox (deriveInto lib k p) := fun w => by
  rw [deriveInto_eq]

theorem inbox_isReplay (ts : Int64) (epk : Word 32) : Run.Keeps World.inbox (isReplay ts epk) := fun w => by
  unfold isReplay
  split <;> rfl

theorem inbox_sendAll (m : Octets) : Run.Keeps World.inbox (sendAll m) := fun _ => rfl

theorem inbox_checkTs (ts : Int64) (epk : Word 32) : Run.Keeps World.inbox (checkTs ts epk) := by
  refine Run.keeps_bind inbox_timestampNow fun n => Run.keeps_ite Run.keeps_fail ?_
  refine Run.keeps_ite Run.keeps_fail (Run.keeps_bind (inbox_isReplay ts epk) fun seen => ?_)
  exact Run.keeps_ite Run.keeps_fail (Run.keeps_pure _)

theorem inbox_keyConfirmServer (b : Backend) (k : SessionKeys) : Run.Keeps World.inbox (handshakeKeyConfirmServer b k) := by
  unfold handshakeKeyConfirmServer
  split
  · exact Run.keeps_fail
  · exact inbox_sendAll _

theorem takes_asymHdr : Takes 36 asymHdr ∧ FailsShort 36 asymHdr := by
  refine ⟨takes_bind_keeps (takes_recvAll 36).1 fun _ => Run.keeps_pure _, fun w m stream failed => ?_⟩
  apply (takes_recvAll 36).2 w m stream
  cases h : recvAll 36 w with
  | mk o w' =>
    cases o with
    | none => rfl
    | some a =>
      rw [asymHdr, Run.bind_some h] at failed
      cases failed

theorem takes_asymTs (b : Backend) (epk : Word 32) (key : Block) : Takes 24 (asymTs b epk key) :=
  takes_bind_keeps (takes_recvAll 24).1 fun _ => Run.keeps_ite Run.keeps_fail (Run.keeps_pure _)

/-- Each call of `handshake_server` takes one message, whether it accepts it or not. -/
theorem takes_handshakeServer (lib : OpenSsl) (b : Backend) (k p : Word 32) : Takes 60 (handshakeServer lib b k p) := by
  have derives : ∀ k p w, (deriveInto lib k p w).1 ≠ none := fun k p w => by
    rw [deriveInto_eq]
    exact Option.some_ne_none _
  refine takes_bind (k := 24) takes_asymHdr.1 takes_asymHdr.2 fun iepk => ?_
  refine takes_keeps_bind (inbox_deriveInto lib _ _) (derives _ _) fun ee => ?_
  refine takes_keeps_bind (inbox_deriveInto lib _ _) (derives _ _) fun es => ?_
  refine takes_bind_keeps (takes_asymTs b _ _) fun its => ?_
  refine Run.keeps_bind (inbox_checkTs _ _) fun _ => Run.keeps_bind inbox_ecdhKeygen fun e => ?_
  refine Run.keeps_bind (inbox_deriveInto lib _ _) fun ee => Run.keeps_bind (inbox_deriveInto lib _ _) fun es => ?_
  refine Run.keeps_bind (inbox_deriveInto lib _ _) fun se => Run.keeps_bind inbox_timestampNow fun ts => ?_
  exact Run.keeps_bind (inbox_sendAll _) fun _ => Run.keeps_ite Run.keeps_fail (Run.keeps_pure _)

/-- Up to the peer that is matched, each peer costs a message. -/
theorem tryPeers_takes (peers : List (Word 32)) {i j : Nat} {k : Word 32} {keys : SessionKeys}
    (stream : arriving w.inbox = some m) (matched : tryPeers lib b k i peers w = (some (j, keys), w')) :
    ∃ tried, j = i + tried ∧ 60 * (tried + 1) ≤ m.length ∧ arriving w'.inbox = some (m.drop (60 * (tried + 1))) := by
  induction peers generalizing i w m with
  | nil => cases matched
  | cons p peers ih =>
    obtain ⟨left, few⟩ := takes_handshakeServer lib b k p w m stream
    rw [tryPeers] at matched
    cases h : handshakeServer lib b k p w with
    | mk o w₁ =>
      rw [h] at left few
      cases o with
      | some keys' =>
        rw [Run.orElse_some ((Run.bind_some h).trans (Run.pure_apply (i, keys') w₁))] at matched
        cases matched
        have enough : ¬ m.length < 60 := fun lt => by cases few lt
        exact ⟨0, rfl, by omega, left⟩
      | none =>
        rw [Run.orElse_none (Run.bind_none h)] at matched
        obtain ⟨tried, rfl, enough, rest⟩ := ih left matched
        rw [List.length_drop] at enough
        rw [List.drop_drop] at rest
        refine ⟨tried + 1, by omega, by omega, ?_⟩
        rw [rest]
        congr 2
        omega

/-- `recv_connect_req` takes the frame that it returns. -/
theorem recvConnectReq_takes {key : Block} {wb : Octets} {req : ConnectReq} (stream : arriving w.inbox = some m)
    (ok : recvConnectReq b key w = (some (wb, req), w')) : ∃ rest, m = wb ++ rest ∧ arriving w'.inbox = some rest := by
  obtain ⟨hdr, w₁, hhdr, ok⟩ := Run.bind_eq_some ok
  dsimp only at ok
  split at ok
  · cases ok
  · obtain ⟨body, w₂, hbody, ok⟩ := Run.bind_eq_some ok
    -- Both parts are the next bytes of the stream.
    have received : ∀ {n w w' m got}, arriving w.inbox = some m → recvAll n w = (some got, w') →
        got = m.take n ∧ arriving w'.inbox = some (m.drop n) := by
      intro n w w' m got stream hrecv
      have enough : ¬ m.length < n := fun lt => by
        have none_ := ((takes_recvAll n).1 w m stream).2 lt
        rw [hrecv] at none_
        cases none_
      obtain ⟨q, hrecv', hq⟩ := recvAll_arriving (n := n) (m := m.take n) (r := m.drop n)
        (by rw [List.length_take]; omega) (by rw [List.take_append_drop]; exact stream)
      cases hrecv.symm.trans hrecv'
      exact ⟨rfl, hq⟩
    obtain ⟨rfl, first⟩ := received stream hhdr
    obtain ⟨rfl, second⟩ := received first hbody
    cases hf : frameParse b (m.take frameHeaderLen ++ (m.drop frameHeaderLen).take _) 1 key with
    | ok f =>
      rw [hf] at ok
      dsimp only at ok
      cases hreq : parseConnectReq f.payload with
      | none => rw [hreq] at ok; cases ok
      | some req' =>
        rw [hreq] at ok
        cases ok
        exact ⟨_, by rw [List.append_assoc, List.take_append_drop, List.take_append_drop], second⟩
    | _ => rw [hf] at ok; cases ok

/-- Where `x` succeeds, it has taken the next `n` bytes. -/
def TakesOk (n : Nat) (x : Hs α) : Prop :=
  ∀ w m a w', arriving w.inbox = some m → x w = (some a, w') → n ≤ m.length ∧ arriving w'.inbox = some (m.drop n)

section Success
variable {n k : Nat} {x : Hs α} {g : α → Hs β}

theorem Takes.ok (hx : Takes n x) : TakesOk n x := by
  intro w m a w' stream ok
  obtain ⟨left, few⟩ := hx w m stream
  rw [ok] at left few
  exact ⟨Nat.le_of_not_lt fun lt => (by cases few lt), left⟩

theorem takesOk_keeps (hx : Run.Keeps World.inbox x) : TakesOk 0 x := by
  intro w m a w' stream ok
  have same := hx w
  rw [ok] at same
  rw [same]
  exact ⟨Nat.zero_le _, stream⟩

theorem takesOk_bind (hx : TakesOk n x) (hg : ∀ a, TakesOk k (g a)) : TakesOk (n + k) (x >>= g) := by
  intro w m b w' stream ok
  obtain ⟨a, w₁, first, second⟩ := Run.bind_eq_some ok
  obtain ⟨enough, left⟩ := hx w m a w₁ stream first
  obtain ⟨more, rest⟩ := hg a w₁ _ b w' left second
  rw [List.length_drop] at more
  rw [List.drop_drop] at rest
  exact ⟨by omega, rest⟩

theorem takesOk_keeps_bind (hx : Run.Keeps World.inbox x) (hg : ∀ a, TakesOk k (g a)) : TakesOk k (x >>= g) := by
  rw [← Nat.zero_add k]
  exact takesOk_bind (takesOk_keeps hx) hg

end Success

theorem inbox_asymInitKey (lib : OpenSsl) (e k p : Word 32) : Run.Keeps World.inbox (asymInitKey lib e k p) :=
  Run.keeps_bind (inbox_deriveInto lib _ _) fun _ => Run.keeps_bind (inbox_deriveInto lib _ _) fun _ => Run.keeps_pure _

theorem inbox_sendConnectReq (b : Backend) (req : ConnectReq) (key : Block) :
    Run.Keeps World.inbox (sendConnectReq b req key) := by
  unfold sendConnectReq
  split
  · exact Run.keeps_fail
  · exact inbox_sendAll _

theorem takesOk_handshakeClient (lib : OpenSsl) (b : Backend) (k p : Word 32) : TakesOk 60 (handshakeClient lib b k p) := by
  refine takesOk_keeps_bind inbox_ecdhKeygen fun e => takesOk_keeps_bind (inbox_asymInitKey lib _ _ _) fun ik => ?_
  refine takesOk_keeps_bind inbox_timestampNow fun ts => takesOk_keeps_bind (inbox_sendAll _) fun _ => ?_
  refine takesOk_bind (k := 24) takes_asymHdr.1.ok fun repk => takesOk_keeps_bind (inbox_deriveInto lib _ _) fun ee => ?_
  refine takesOk_keeps_bind (inbox_deriveInto lib _ _) fun es => takesOk_keeps_bind (inbox_deriveInto lib _ _) fun se => ?_
  refine takesOk_bind (k := 0) (takes_asymTs b _ _).ok fun rts => ?_
  exact takesOk_keeps (Run.keeps_bind (inbox_checkTs _ _) fun _ => Run.keeps_pure _)

theorem takesOk_keyConfirmClient (b : Backend) (keys : SessionKeys) : TakesOk 20 (handshakeKeyConfirmClient b keys) := by
  refine takesOk_bind (k := 0) (takes_recvAll 20).1.ok fun wb => takesOk_keeps ?_
  cases frameParse b wb 0 keys.decKey with
  | ok f => exact Run.keeps_ite (Run.keeps_pure _) Run.keeps_fail
  | malformed => exact Run.keeps_fail
  | rejected m => exact Run.keeps_fail

theorem takesOk_tcpClient (lib : OpenSsl) (b : Backend) (k p : Word 32) (keepalive : Int64) (target : Option ConnectReq) :
    TakesOk 80 (tcpClient lib b k p keepalive target) := by
  refine takesOk_bind (k := 20) (takesOk_handshakeClient lib b k p) fun keys => ?_
  refine takesOk_bind (k := 0) (takesOk_keyConfirmClient b keys) fun _ => takesOk_keeps ?_
  cases target with
  | none => exact Run.keeps_pure _
  | some req => exact Run.keeps_bind (inbox_sendConnectReq b req _) fun _ => Run.keeps_pure _

/-- A server's child that gets to `tunnel_run` has taken a handshake message for each peer up to the one it has
matched, then the connect request if it has verified one, and nothing of what follows, however the stream is cut. -/
theorem tcpChild_takes {cfg : TcpConfig} {connects : Bool} {d : DataPhase} (stream : arriving w.inbox = some m)
    (reached : tcpChild lib b cfg connects w = (some d, w')) :
    ∃ rest, m = m.take (60 * (d.peer + 1)) ++ d.verified.flatten ++ rest ∧ 60 * (d.peer + 1) ≤ m.length ∧
      arriving w'.inbox = some rest := by
  obtain ⟨⟨peer, keys⟩, w₁, hserver, reached⟩ := Run.bind_eq_some reached
  obtain ⟨tried, hpeer, enough, left⟩ := tryPeers_takes cfg.asymPeers stream hserver
  obtain rfl : peer = tried := by omega
  obtain ⟨_, w₂, hconfirm, reached⟩ := Run.bind_eq_some reached
  have same : w₂.inbox = w₁.inbox := by
    have keeps := inbox_keyConfirmServer b keys w₁
    rwa [hconfirm] at keeps
  rw [← same] at left
  have whole : m = m.take (60 * (peer + 1)) ++ [] ++ m.drop (60 * (peer + 1)) := by
    rw [List.append_nil, List.take_append_drop]
  cases hmode : cfg.mode with
  | psk =>
    simp only [hmode] at reached
    cases connects with
    | true => cases reached; exact ⟨_, whole, enough, left⟩
    | false => cases reached
  | tun =>
    simp only [hmode] at reached
    cases reached
    exact ⟨_, whole, enough, left⟩
  | socks5 =>
    simp only [hmode] at reached
    obtain ⟨⟨wb, req⟩, w₃, hreq, reached⟩ := Run.bind_eq_some reached
    obtain ⟨rest, split_, left'⟩ := recvConnectReq_takes left hreq
    cases connects with
    | true =>
      cases reached
      refine ⟨rest, ?_, enough, left'⟩
      rw [List.flatten_singleton, List.append_assoc, ← split_, List.take_append_drop]
    | false => cases reached

/-- What has been sent stays, and what is left of the answers of `send` was there before. -/
def Speaks (w w' : World) : Prop := w.outbox <+: w'.outbox ∧ w'.sends <:+ w.sends

instance : Std.Refl Speaks := ⟨fun w => ⟨List.prefix_refl w.outbox, List.suffix_refl w.sends⟩⟩

instance : IsTrans World Speaks := ⟨fun _ _ _ h h' => ⟨h.1.trans h'.1, h'.2.trans h.2⟩⟩

theorem TakesBytes.of_suffix {q q' : List Sent} (h : TakesBytes q) (suffix : q' <:+ q) : TakesBytes q' :=
  fun k member => h k (suffix.subset member)

/-- What sends nothing. -/
theorem speaks_of_keeps {x : Hs α} (keeps : Run.Keeps (fun w => (w.outbox, w.sends)) x) : Run.Moves Speaks x := by
  intro w
  obtain ⟨outbox, sends⟩ := Prod.mk.inj (keeps w)
  exact ⟨by rw [outbox], by rw [sends]⟩

theorem speaks_recvAll (n : Nat) : Run.Moves Speaks (recvAll n) := speaks_of_keeps fun _ => rfl

theorem speaks_timestampNow : Run.Moves Speaks timestampNow := speaks_of_keeps fun w => by
  unfold timestampNow
  split <;> rfl

theorem speaks_ecdhKeygen : Run.Moves Speaks ecdhKeygen := speaks_of_keeps fun w => by
  unfold ecdhKeygen
  split <;> rfl

theorem speaks_deriveInto (lib : OpenSsl) (k p : Word 32) : Run.Moves Speaks (deriveInto lib k p) :=
  speaks_of_keeps fun w => by rw [deriveInto_eq]

theorem speaks_checkTs (ts : Int64) (epk : Word 32) : Run.Moves Speaks (checkTs ts epk) := by
  have cache : Run.Moves Speaks (isReplay ts epk) := speaks_of_keeps fun w => by
    unfold isReplay
    split <;> rfl
  refine Run.moves_bind speaks_timestampNow fun n => Run.moves_ite Run.moves_fail ?_
  refine Run.moves_ite Run.moves_fail (Run.moves_bind cache fun seen => ?_)
  exact Run.moves_ite Run.moves_fail (Run.moves_pure _)

theorem sendLoop_suffix (pending : Octets) (q : List Sent) : (sendLoop pending q).2.2 <:+ q := by
  induction q generalizing pending with
  | nil => exact List.suffix_rfl
  | cons k q ih =>
    rw [sendLoop]
    split
    · exact List.suffix_rfl
    · split
      · exact List.suffix_cons k q
      next rest _ => exact (ih rest).trans (List.suffix_cons k q)

theorem speaks_sendAll (m : Octets) : Run.Moves Speaks (sendAll m) :=
  fun w => ⟨List.prefix_append _ _, sendLoop_suffix m w.sends⟩

theorem speaks_handshakeClient (lib : OpenSsl) (b : Backend) (k p : Word 32) :
    Run.Moves Speaks (handshakeClient lib b k p) := by
  have hdr : Run.Moves Speaks asymHdr := Run.moves_bind (speaks_recvAll 36) fun _ => Run.moves_pure _
  have body : ∀ epk key, Run.Moves Speaks (asymTs b epk key) := by
    intro epk key
    exact Run.moves_bind (speaks_recvAll 24) fun ct => Run.moves_ite Run.moves_fail (Run.moves_pure _)
  have derives := speaks_deriveInto lib
  refine Run.moves_bind speaks_ecdhKeygen fun e => ?_
  refine Run.moves_bind (Run.moves_bind (derives _ _) fun _ => Run.moves_bind (derives _ _) fun _ => Run.moves_pure _) ?_
  refine fun ik => Run.moves_bind speaks_timestampNow fun ts => Run.moves_bind (speaks_sendAll _) fun _ => ?_
  refine Run.moves_bind hdr fun repk => Run.moves_bind (derives _ _) fun ee => Run.moves_bind (derives _ _) fun es => ?_
  refine Run.moves_bind (derives _ _) fun se => Run.moves_bind (body _ _) fun rts => ?_
  exact Run.moves_bind (speaks_checkTs _ _) fun _ => Run.moves_pure _

theorem speaks_keyConfirmClient (b : Backend) (k : SessionKeys) : Run.Moves Speaks (handshakeKeyConfirmClient b k) := by
  refine Run.moves_bind (speaks_recvAll _) fun wb => ?_
  split
  · exact Run.moves_ite (Run.moves_pure _) Run.moves_fail
  · exact Run.moves_fail

/-- The client's side after the confirmation. -/
def clientStart (b : Backend) (keepalive : Int64) (keys : SessionKeys) : Option ConnectReq → Hs Tun
  | none => pure (Mode.client.tun keys keepalive)
  | some req => do
    sendConnectReq b req keys.encKey
    pure ((Mode.socksClient (buildConnectReq req)).tun keys keepalive)

/-- The client's side after its handshake. -/
def clientRest (b : Backend) (keepalive : Int64) (target : Option ConnectReq) (keys : SessionKeys) : Hs Tun := do
  handshakeKeyConfirmClient b keys
  clientStart b keepalive keys target

theorem tcpClient_eq (lib : OpenSsl) (b : Backend) (k p : Word 32) (keepalive : Int64) (target : Option ConnectReq) :
    tcpClient lib b k p keepalive target = handshakeClient lib b k p >>= clientRest b keepalive target := rfl

theorem speaks_clientRest (b : Backend) (keepalive : Int64) (target : Option ConnectReq) (keys : SessionKeys) :
    Run.Moves Speaks (clientRest b keepalive target keys) := by
  refine Run.moves_bind (speaks_keyConfirmClient b keys) fun _ => ?_
  cases target with
  | none => exact Run.moves_pure _
  | some req =>
    refine Run.moves_bind ?_ fun _ => Run.moves_pure _
    unfold sendConnectReq
    split
    · exact Run.moves_fail
    · exact speaks_sendAll _

/-- A client sends the handshake first. -/
theorem tcpClient_outbox (lib : OpenSsl) (b : Backend) (k p : Word 32) (keepalive : Int64) (target : Option ConnectReq)
    (w : World) : (handshakeClient lib b k p w).2.outbox <+: (tcpClient lib b k p keepalive target w).2.outbox := by
  rw [tcpClient_eq]
  cases h : handshakeClient lib b k p w with
  | mk o w' =>
    cases o with
    | none => rw [Run.bind_none h]
    | some keys =>
      rw [Run.bind_some h]
      exact (speaks_clientRest b keepalive target keys w').1

/-- The server's side after its handshake. -/
def serverRest (b : Backend) (cfg : TcpConfig) (connects : Bool) (peer : Nat) (keys : SessionKeys) : Hs DataPhase :=
  match cfg.mode with
  | .psk => if connects then pure ⟨peer, Mode.server.tun keys cfg.keepalive, []⟩ else Run.fail
  | .tun => pure ⟨peer, Mode.server.tun keys cfg.keepalive, []⟩
  | .socks5 => do
    let (wb, _) ← recvConnectReq b keys.decKey
    if connects then pure ⟨peer, Mode.socksServer.tun keys cfg.keepalive, [wb]⟩ else Run.fail

theorem keeps_serverRest (b : Backend) (cfg : TcpConfig) (connects : Bool) (peer : Nat) (keys : SessionKeys) :
    Run.Keeps World.outbox (serverRest b cfg connects peer keys) := by
  unfold serverRest
  split
  · exact Run.keeps_ite (Run.keeps_pure _) Run.keeps_fail
  · exact Run.keeps_pure _
  · refine Run.keeps_bind ?_ fun _ => Run.keeps_ite (Run.keeps_pure _) Run.keeps_fail
    refine Run.keeps_bind (keeps_recvAll _) fun hdr => Run.keeps_ite Run.keeps_fail ?_
    refine Run.keeps_bind (keeps_recvAll _) fun body => ?_
    dsimp only
    split
    · split
      · exact Run.keeps_pure _
      · exact Run.keeps_fail
    · exact Run.keeps_fail

theorem takes_keyConfirmClient (b : Backend) (k : SessionKeys) : Takes 20 (handshakeKeyConfirmClient b k) := by
  refine takes_bind_keeps (takes_recvAll 20).1 fun wb => ?_
  split
  · exact Run.keeps_ite (Run.keeps_pure _) Run.keeps_fail
  · exact Run.keeps_fail

/-- The mode in which `tunnel_run` is called at the client. -/
def clientMode : Option ConnectReq → Mode
  | none => .client
  | some req => .socksClient (buildConnectReq req)

def TcpMode.serverMode : TcpMode → Mode
  | .psk | .tun => .server
  | .socks5 => .socksServer

/-- A client with a target talks to a SOCKS5 server, one without to another. -/
def TcpMode.Serves : TcpMode → Option ConnectReq → Prop
  | .socks5, some req => req.host.length ≤ 255
  | .psk, none | .tun, none => True
  | _, _ => False

theorem exists_start (b : Backend) (keys : SessionKeys) (keepalive : Int64) (mode : Mode)
    (short : ∀ ctr f, mode.before = some (ctr, f) → f.payload.length ≤ frameMaxPayload) :
    ∃ e, mode.start b keys keepalive = some e ∧ e.tun = mode.tun keys keepalive := by
  unfold Mode.start
  cases h : mode.before with
  | none => exact ⟨_, rfl, rfl⟩
  | some sent =>
    obtain ⟨ctr, f⟩ := sent
    dsimp only
    rw [frameBuild_of_le (short ctr f h)]
    exact ⟨_, rfl, rfl⟩

/-- The tunnels of the two sides of a connection, as they are started. -/
structure Started (bc bs : Backend) (mode : TcpMode) (target : Option ConnectReq) (tun : Tun) (d : DataPhase)
    (a₀ b₀ : Endpoint) : Prop where
  client : ∃ keys keepalive, (clientMode target).start bc keys keepalive = some a₀
  server : ∃ keys keepalive, mode.serverMode.start bs keys keepalive = some b₀
  clientTun : a₀.tun = tun
  serverTun : b₀.tun = d.tunnel

/-- Crossed keys give tunnels that face each other, in all modes. -/
theorem started_facing (bc bs : Backend) {mode : TcpMode} {target : Option ConnectReq} (fits : mode.Serves target)
    {kc ks : SessionKeys} (henc : kc.encKey = ks.decKey) (hdec : kc.decKey = ks.encKey) (keepalive keepalive' : Int64)
    {d : DataPhase} (tunnel : d.tunnel = mode.serverMode.tun ks keepalive') :
    ∃ a₀ b₀, Started bc bs mode target ((clientMode target).tun kc keepalive) d a₀ b₀ ∧ Facing a₀ b₀ ∧ Facing b₀ a₀ := by
  have shortC : ∀ ctr f, (clientMode target).before = some (ctr, f) → f.payload.length ≤ frameMaxPayload := by
    intro ctr f h
    cases target with
    | none => cases h
    | some req =>
      cases h
      have host : req.host.length ≤ 255 := by
        cases mode with
        | socks5 => exact fits
        | psk => exact fits.elim
        | tun => exact fits.elim
      show (buildConnectReq req).length ≤ 65535
      rw [length_buildConnectReq]
      omega
  have shortS : ∀ ctr f, mode.serverMode.before = some (ctr, f) → f.payload.length ≤ frameMaxPayload := by
    intro ctr f h
    cases mode <;> cases h <;> exact Nat.zero_le _
  obtain ⟨a₀, startA, tunA⟩ := exists_start bc kc keepalive _ shortC
  obtain ⟨b₀, startB, tunB⟩ := exists_start bs ks keepalive' _ shortS
  refine ⟨a₀, b₀, ⟨⟨_, _, startA⟩, ⟨_, _, startB⟩, tunA, tunB.trans tunnel.symm⟩, ?_, ?_⟩
  · rw [Facing, tunA, tunB]
    cases mode <;> cases target <;> first | exact fits.elim | exact ⟨henc, rfl⟩
  · rw [Facing, tunA, tunB]
    cases mode <;> cases target <;> first | exact fits.elim | exact ⟨hdec.symm, rfl⟩

section Honest
variable {bc bs : Backend} {client server ce se : KeyPair} {tc nc ns ts : Int64} {wc ws : World} {cfg : TcpConfig}
  {target : Option ConnectReq} {others : List (Word 32)} {keepalive : Int64} {r r' : Octets}

/-- Both sides after the confirmation: what is left of their work, and of the streams. -/
structure Confirmed (lib : OpenSsl) (bc bs : Backend) (client server : KeyPair) (cfg : TcpConfig)
    (target : Option ConnectReq) (keepalive : Int64) (wc ws : World) (r r' : Octets) (kc ks : SessionKeys)
    (wc' ws' : World) : Prop where
  client : tcpClient lib bc client.priv server.pub keepalive target wc = clientStart bc keepalive kc target wc'
  server : tcpChild lib bs cfg true ws = serverRest bs cfg true 0 ks ws'
  sends : TakesBytes wc'.sends
  toClient : arriving wc'.inbox = some r'
  toServer : ∃ tail, (clientStart bc keepalive kc target wc').2.outbox = wc'.outbox ++ tail ∧
    arriving ws'.inbox = some (tail ++ r)
  enc : kc.encKey = ks.decKey
  dec : kc.decKey = ks.encKey

/-- What the two sides of a set-up come to. -/
structure Established (lib : OpenSsl) (bc bs : Backend) (client server : KeyPair) (cfg : TcpConfig)
    (target : Option ConnectReq) (keepalive : Int64) (wc ws : World) (r r' : Octets) (kc ks : SessionKeys) (d : DataPhase) :
    Prop where
  client : ∃ wc', tcpClient lib bc client.priv server.pub keepalive target wc =
    (some ((clientMode target).tun kc keepalive), wc') ∧ arriving wc'.inbox = some r'
  server : ∃ ws', tcpChild lib bs cfg true ws = (some d, ws') ∧ arriving ws'.inbox = some r
  peer : d.peer = 0
  tunnel : d.tunnel = cfg.mode.serverMode.tun ks cfg.keepalive
  enc : kc.encKey = ks.decKey
  dec : kc.decKey = ks.encKey

theorem Meeting.confirmed (meet : Meeting lib client server ce se tc nc ns ts wc ws)
    (priv : cfg.asymPriv = server.priv) (peers : cfg.asymPeers = client.pub :: others)
    (toServer : arriving ws.inbox = some ((tcpClient lib bc client.priv server.pub keepalive target wc).2.outbox ++ r))
    (toClient : arriving wc.inbox = some ((tcpChild lib bs cfg true ws).2.outbox ++ r')) :
    ∃ kc ks wc' ws', Confirmed lib bc bs client server cfg target keepalive wc ws r r' kc ks wc' ws' := by
  obtain ⟨tail, htail⟩ := tcpClient_outbox lib bc client.priv server.pub keepalive target wc
  rw [← htail, List.append_assoc] at toServer
  obtain ⟨ks, ws₁, hserver, hsends, hclient⟩ := meet.server_ok bc bs toServer
  obtain ⟨ws₂, wire, hconfirm, hout, hwire⟩ := handshakeKeyConfirmServer_takes (b := bs) ks hsends
  have hchild : tcpChild lib bs cfg true ws = serverRest bs cfg true 0 ks ws₂ := by
    have matched : tryHandshakeServer lib bs cfg.asymPriv cfg.asymPeers ws = (some (0, ks), ws₁) := by
      rw [priv, peers]
      exact tryPeers_first 0 others hserver
    exact (Run.bind_some matched).trans (Run.bind_some hconfirm)
  -- The server sends nothing after its confirmation, so that is what comes last at the client.
  rw [hchild, keeps_serverRest, hout, List.append_assoc] at toClient
  obtain ⟨kc, wc₁, hdone, henc, hdec, hin⟩ := hclient _ toClient
  rw [← hdec] at hwire
  obtain ⟨wc₂, hok⟩ := handshakeKeyConfirmClient_arriving (b := bc) hwire hin
  have hrest : tcpClient lib bc client.priv server.pub keepalive target wc = clientStart bc keepalive kc target wc₂ := by
    rw [tcpClient_eq, Run.bind_some hdone, clientRest, Run.bind_some hok]
  refine ⟨kc, ks, wc₂, ws₂, hrest, hchild, ?_, ?_, ⟨tail, ?_, ?_⟩, henc, hdec⟩
  · have moved := speaks_handshakeClient lib bc client.priv server.pub wc
    have moved' := speaks_keyConfirmClient bc kc wc₁
    rw [hdone] at moved
    rw [hok] at moved'
    exact (meet.clientSends.of_suffix moved.2).of_suffix moved'.2
  · have taken := (takes_keyConfirmClient bc kc wc₁ _ hin).1
    have length : wire.length = 20 := (length_frameBuild hwire).2
    rwa [hok, List.drop_left' length] at taken
  · have keeps := keeps_keyConfirmClient bc kc wc₁
    rw [hok] at keeps
    rw [← hrest, ← htail, show wc₂.outbox = wc₁.outbox from keeps, hdone]
  · obtain ⟨ee, hee, -⟩ := meet.ephStatic.derive
    obtain ⟨es, hes, -⟩ := meet.staticStatic.derive
    have taken := (takes_handshakeServer lib bs server.priv client.pub ws _ toServer).1
    have keeps := inbox_keyConfirmServer bs ks ws₁
    rw [hserver, meet.client_outbox bc hee hes, List.drop_left' (length_asymWire ..)] at taken
    rw [hconfirm] at keeps
    rw [show ws₂.inbox = ws₁.inbox from keeps, taken]

section Confirmed
variable {kc ks : SessionKeys} {wc' ws' : World}

theorem Confirmed.plain (conf : Confirmed lib bc bs client server cfg none keepalive wc ws r r' kc ks wc' ws')
    (other : cfg.mode ≠ .socks5) :
    ∃ d, Established lib bc bs client server cfg none keepalive wc ws r r' kc ks d := by
  obtain ⟨tail, htail, left⟩ := conf.toServer
  rw [clientStart, Run.pure_apply] at htail
  obtain rfl := List.append_right_eq_self.mp htail.symm
  refine ⟨⟨0, Mode.server.tun ks cfg.keepalive, []⟩, ⟨wc', conf.client, conf.toClient⟩, ⟨ws', ?_, left⟩, rfl, ?_, conf.enc,
    conf.dec⟩
  · rw [conf.server, serverRest]
    cases hmode : cfg.mode with
    | socks5 => exact absurd hmode other
    | psk => rfl
    | tun => rfl
  · cases hmode : cfg.mode with
    | socks5 => exact absurd hmode other
    | psk => rfl
    | tun => rfl

theorem Confirmed.socks {req : ConnectReq}
    (conf : Confirmed lib bc bs client server cfg (some req) keepalive wc ws r r' kc ks wc' ws') (mode : cfg.mode = .socks5)
    (short : req.host.length ≤ 255) :
    ∃ d, Established lib bc bs client server cfg (some req) keepalive wc ws r r' kc ks d := by
  obtain ⟨wb, hbuild, hsend, hsent⟩ := sendConnectReq_takes bc kc.encKey short conf.sends
  have hstart : clientStart bc keepalive kc (some req) wc' =
      (some ((clientMode (some req)).tun kc keepalive), (sendConnectReq bc req kc.encKey wc').2) :=
    Run.bind_some (Prod.ext hsend rfl)
  obtain ⟨tail, htail, left⟩ := conf.toServer
  rw [hstart, hsent] at htail
  obtain rfl := List.append_cancel_left htail
  have hreq := recvConnectReq_arriving bs short (conf.enc ▸ hbuild) left
  obtain ⟨rest, split_, leftS⟩ := recvConnectReq_takes left (Prod.ext hreq rfl)
  obtain rfl := List.append_cancel_left split_
  refine ⟨⟨0, Mode.socksServer.tun ks cfg.keepalive, [wb]⟩, ⟨_, conf.client.trans hstart, ?_⟩, ⟨_, ?_, leftS⟩, rfl, ?_,
    conf.enc, conf.dec⟩
  · have keeps : (sendConnectReq bc req kc.encKey wc').2.inbox = wc'.inbox := by
      rw [sendConnectReq, hbuild]
      rfl
    rw [keeps, conf.toClient]
  · rw [conf.server, serverRest, mode]
    exact Run.bind_some (Prod.ext hreq rfl)
  · rw [mode]
    rfl

end Confirmed

theorem Meeting.established (meet : Meeting lib client server ce se tc nc ns ts wc ws)
    (priv : cfg.asymPriv = server.priv) (peers : cfg.asymPeers = client.pub :: others) (fits : cfg.mode.Serves target)
    (toServer : arriving ws.inbox = some ((tcpClient lib bc client.priv server.pub keepalive target wc).2.outbox ++ r))
    (toClient : arriving wc.inbox = some ((tcpChild lib bs cfg true ws).2.outbox ++ r')) :
    ∃ kc ks d, Established lib bc bs client server cfg target keepalive wc ws r r' kc ks d := by
  obtain ⟨kc, ks, wc', ws', conf⟩ := meet.confirmed priv peers toServer toClient
  cases target with
  | none =>
    have other : cfg.mode ≠ .socks5 := by
      intro socks
      rw [socks] at fits
      exact fits
    obtain ⟨d, est⟩ := conf.plain other
    exact ⟨kc, ks, d, est⟩
  | some req =>
    cases mode : cfg.mode with
    | psk => rw [mode] at fits; exact fits.elim
    | tun => rw [mode] at fits; exact fits.elim
    | socks5 =>
      rw [mode] at fits
      obtain ⟨d, est⟩ := conf.socks mode fits
      exact ⟨kc, ks, d, est⟩

end Honest

/-- When a client and a server that are set up for each other connect and what each sends reaches the other, however it
is cut, both get to `tunnel_run`, in every mode. They leave the bytes that follow the set-up on the stream, and the
tunnels that they start then carry what is read at one end to the other, over any network on which no frame is
forged. -/
theorem connection_pipe (lib : OpenSsl) (bc bs : Backend) (client server ce se : KeyPair) (tc nc ns ts : Int64)
    (wc ws : World) (meet : Meeting lib client server ce se tc nc ns ts wc ws) (cfg : TcpConfig) (others : List (Word 32))
    (priv : cfg.asymPriv = server.priv) (peers : cfg.asymPeers = client.pub :: others) (target : Option ConnectReq)
    (fits : cfg.mode.Serves target) (keepalive : Int64) (r r' : Octets)
    (toServer : arriving ws.inbox = some ((tcpClient lib bc client.priv server.pub keepalive target wc).2.outbox ++ r))
    (toClient : arriving wc.inbox = some ((tcpChild lib bs cfg true ws).2.outbox ++ r')) :
    ∃ tun d wc' ws' a₀ b₀, tcpClient lib bc client.priv server.pub keepalive target wc = (some tun, wc') ∧
      tcpChild lib bs cfg true ws = (some d, ws') ∧ d.peer = 0 ∧ arriving wc'.inbox = some r' ∧ arriving ws'.inbox = some r ∧
      Started bc bs cfg.mode target tun d a₀ b₀ ∧ Facing a₀ b₀ ∧ Facing b₀ a₀ ∧
      ∀ backend p, Machine.Steps (Pair.step lib backend) (fun p _ q => HonestStep p q) ⟨a₀, b₀⟩ p →
        p.b.log.wrote <+: p.a.log.readPt ∧ p.a.log.wrote <+: p.b.log.readPt := by
  obtain ⟨kc, ks, d, est⟩ := meet.established priv peers fits toServer toClient
  obtain ⟨wc', hclient, leftC⟩ := est.client
  obtain ⟨ws', hserver, leftS⟩ := est.server
  obtain ⟨a₀, b₀, started, there, back⟩ := started_facing bc bs fits est.enc est.dec keepalive cfg.keepalive est.tunnel
  refine ⟨_, d, wc', ws', a₀, b₀, hclient, hserver, est.peer, leftC, leftS, started, there, back,
    fun backend p run => ?_⟩
  obtain ⟨_, _, startA⟩ := started.client
  obtain ⟨_, _, startB⟩ := started.server
  have inv : TwoWay a₀ b₀ p :=
    run.invariant (.start (.start startA) (.start startB) there back) fun inv taken good => inv.step taken good
  exact ⟨inv.there.prefix_readPt, inv.back.prefix_readPt⟩

/-! ### `alice` connects to `bob` -/

/-- `bob` as a TUN server that knows `alice`. -/
def bobServer : TcpConfig where
  mode := .tun
  asymPriv := bob.priv
  asymPeers := [alice.pub]
  maxConns := 64
  keepalive := 0

theorem tcpClient_outbox_none (lib : OpenSsl) (b : Backend) (k p : Word 32) (keepalive : Int64) (w : World) :
    (tcpClient lib b k p keepalive none w).2.outbox = (handshakeClient lib b k p w).2.outbox :=
  Run.keeps_after (fun keys => Run.keeps_bind (keeps_keyConfirmClient b keys) fun _ => Run.keeps_pure _) _ w

/-- The streams of a connection on which three more bytes follow at `bob`. -/
theorem alice_bob_streams :
    ∃ qc qs, arriving qs = some ((tcpClient aliceBobSsl .pureC alice.priv bob.pub 0 none (partyWorld alice qc)).2.outbox ++
        [1, 2, 3]) ∧ arriving qs = some (aliceInit aliceBobSsl ++ [1, 2, 3]) ∧
      arriving qc = some ((tcpChild aliceBobSsl .pureC bobServer true (partyWorld bob qs)).2.outbox ++ []) := by
  have agree : Agree aliceBobSsl alice bob := ⟨aliceBob, by decide, by decide⟩
  have toServer := arriving_byteByByte (aliceInit aliceBobSsl ++ [1, 2, 3])
  have toClient := arriving_byteByByte (tcpChild aliceBobSsl .pureC bobServer true
    (partyWorld bob (byteByByte (aliceInit aliceBobSsl ++ [1, 2, 3])))).2.outbox
  generalize byteByByte (aliceInit aliceBobSsl ++ [1, 2, 3]) = qs at *
  generalize byteByByte _ = qc at *
  refine ⟨qc, qs, ?_, toServer, ?_⟩
  · rw [tcpClient_outbox_none, alice_outbox agree (by decide)]
    exact toServer
  · rw [List.append_nil]
    exact toClient

theorem meeting_of_streams (qc qs : List PollRecv) :
    Meeting aliceBobSsl alice bob alice bob 1000 1000 1000 1000 (partyWorld alice qc) (partyWorld bob qs) :=
  meeting_alice_bob ⟨aliceBob, by decide, by decide⟩ qc qs

theorem connection_pipe_alice :
    ∃ wc ws tun d wc' ws', tcpClient aliceBobSsl .pureC alice.priv bob.pub 0 none wc = (some tun, wc') ∧
      tcpChild aliceBobSsl .pureC bobServer true ws = (some d, ws') ∧ arriving ws'.inbox = some [1, 2, 3] := by
  obtain ⟨qc, qs, toServer, -, toClient⟩ := alice_bob_streams
  obtain ⟨tun, d, wc', ws', -, -, hclient, hserver, -, -, left, -⟩ := connection_pipe aliceBobSsl .pureC .pureC alice bob
    alice bob 1000 1000 1000 1000 _ _ (meeting_of_streams qc qs) bobServer [] rfl rfl none trivial 0 [1, 2, 3] [] toServer toClient
  exact ⟨_, _, tun, d, wc', ws', hclient, hserver, left⟩

end AegisTunnel
