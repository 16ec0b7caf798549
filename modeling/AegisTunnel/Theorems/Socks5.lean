import Mathlib.Data.List.TakeWhile
import AegisTunnel.Socks5
import AegisTunnel.Theorems.Handshake

/-! # The target of a SOCKS5 request

However the local connection and the tunnel cut their streams, the server of the tunnel gets the host and the
port of the request. It passes the host on as a C string, which ends at a zero byte. -/

namespace AegisTunnel
open Octets

/-! ### Requests -/

/-- The target of a request: an IPv4 address, or a domain of 1 to 255 bytes. -/
inductive SocksTarget where
  | ipv4 (a b c d : UInt8)
  | domain (name : Octets) (pos : 0 < name.length) (le : name.length ≤ 255)

namespace SocksTarget

/-- The dotted form of the address, or the bytes of the domain. -/
def text : SocksTarget → Octets
  | ipv4 a b c d => asciiBytes (List.intercalate ['.'] ([a, b, c, d].map fun x => Nat.toDigits 10 x.toNat))
  | domain name _ _ => name

def atyp : SocksTarget → UInt8
  | ipv4 .. => 0x01
  | domain .. => 0x03

def addr : SocksTarget → Octets
  | ipv4 a b c d => [a, b, c, d]
  | domain name _ _ => [UInt8.ofNat name.length] ++ name

end SocksTarget

/-- A method negotiation and a CONNECT request. -/
structure SocksRequest where
  methods : Octets
  methods_pos : 0 < methods.length
  methods_le : methods.length ≤ 255
  rsv : UInt8
  target : SocksTarget
  port : UInt16

def SocksRequest.wire (req : SocksRequest) : Octets :=
  [0x05, UInt8.ofNat req.methods.length] ++ (req.methods ++ ([0x05, 0x01, req.rsv, req.target.atyp] ++
    (req.target.addr ++ [(req.port >>> 8).toUInt8, req.port.toUInt8])))

/-- The answers of `recv` bring the bytes in chunks. -/
inductive Chunked : List Offer → Octets → Prop where
  | nil : Chunked [] []
  | cons {q : List Offer} {m : Octets} (x : UInt8) (xs : Octets) (h : Chunked q m) : Chunked (.data x xs :: q) (x :: xs ++ m)

/-- The local socket brings the bytes in chunks, and takes all that it is given. -/
structure LocalSocket.Brings (s : LocalSocket) (m : Octets) : Prop where
  chunks : Chunked s.inbox m
  replies : ∀ k ∈ s.sends, ∃ n, k = .took n ∧ 10 ≤ n

/-- A way of the request: its bytes come in over the local socket, and what the client sends over the tunnel
    comes in at the server. -/
structure Transits (b : Backend) (key : Block) (req : SocksRequest) (localSocket : LocalSocket) (client server : World) :
    Prop where
  request : ∃ rest, localSocket.Brings (req.wire ++ rest)
  sends : TakesBytes client.sends
  tunnel : ∀ r, (socks5Accept localSocket).1 = some r → ∃ sent rest,
    (sendConnectReq b r key client).2.outbox = client.outbox ++ sent ∧ arriving server.inbox = some (sent ++ rest)

/-! ### The local socket -/

theorem Chunked.arriving_ready {q : List Offer} {m : Octets} (h : Chunked q m) : arriving (q.map .ready) = some m := by
  induction h with
  | nil => rfl
  | cons x xs h ih => rw [List.map_cons, arriving, ih, Option.map_some]

/-- On chunks `read_n` does what `recv_all` does. -/
theorem readNLoop_eq {n : Nat} {q : List Offer} {m : Octets} (got : Octets) (h : Chunked q m) :
    ∃ q' m', Chunked q' m' ∧ readNLoop n got q = ((recvLoop n got (q.map .ready)).1, q') ∧
      (recvLoop n got (q.map .ready)).2 = q'.map .ready := by
  induction h generalizing got with
  | nil =>
    refine ⟨[], [], .nil, ?_⟩
    rw [List.map_nil, readNLoop, recvLoop]
    split <;> exact ⟨rfl, rfl⟩
  | @cons q m x xs h ih =>
    rw [List.map_cons, readNLoop, recvLoop]
    split
    case isFalse => exact ⟨_, _, .cons x xs h, rfl, rfl⟩
    case isTrue hlt =>
      simp only [recvAllRound, PollRecv.left]
      cases hleft : (x :: xs).drop (n - got.length) with
      | nil => exact ih _
      | cons c cs => exact ⟨_, _, .cons c cs h, rfl, rfl⟩

section Local
variable {s : LocalSocket} {r : Octets}

theorem readN_brings (n : Nat) (m : Octets) (hn : m.length = n) (h : s.Brings (m ++ r)) :
    ∃ s', readN n s = (some m, s') ∧ s'.Brings r := by
  obtain ⟨q, m', hq, hread, hrest⟩ := readNLoop_eq (n := n) [] h.chunks
  obtain ⟨q', hrecv, hq'⟩ := recvLoop_arriving [] m (by simpa using hn) h.chunks.arriving_ready
  rw [hrecv] at hread hrest
  dsimp only at hrest
  rw [hrest, hq.arriving_ready] at hq'
  obtain rfl := Option.some.inj hq'
  refine ⟨{ s with inbox := q }, ?_, hq, h.replies⟩
  rw [readN, hread]
  rfl

theorem sendWhole_brings {m : Octets} (hm : m.length ≤ 10) (h : s.Brings r) :
    ∃ s', sendWhole m s = (some (), s') ∧ s'.Brings r := by
  unfold sendWhole
  cases hsends : s.sends with
  | nil => exact ⟨_, rfl, h.chunks, by simp⟩
  | cons k q =>
    have htakes := h.replies
    rw [hsends] at htakes
    obtain ⟨n, rfl, hn⟩ := htakes k List.mem_cons_self
    have hbytes : Sent.bytes m (.took n) = m := List.take_of_length_le (by omega)
    simp only [hbytes, if_true]
    exact ⟨_, rfl, h.chunks, fun k' hk' => htakes k' (List.mem_cons_of_mem _ hk')⟩

/-- The address in network order is written octet by octet. -/
theorem inetNtop_octets (a b c d : UInt8) :
    inetNtop ([a, b, c, d].foldl (fun (v : UInt32) (x : UInt8) => (v <<< 8) ||| x.toUInt32) 0) =
      List.intercalate ['.'] ([a, b, c, d].map fun x => Nat.toDigits 10 x.toNat) := by
  have ha := a.toNat_lt
  have hb := b.toNat_lt
  have hc := c.toNat_lt
  have hd := d.toNat_lt
  have h0 : (0 : UInt32).toNat = 0 := rfl
  have e0 := toNat_shl_or_octet (x := 0) a (by decide)
  have e1 := toNat_shl_or_octet b (x := ((0 : UInt32) <<< 8) ||| a.toUInt32) (by omega)
  have e2 := toNat_shl_or_octet c (x := _) (by rw [e1, e0]; omega)
  have e3 := toNat_shl_or_octet d (x := _) (by rw [e2, e1, e0]; omega)
  rw [e2, e1, e0, h0] at e3
  have octet : ∀ (k : UInt32) (x : UInt8), k.toNat < 32 →
      ((((0 * 256 + a.toNat) * 256 + b.toNat) * 256 + c.toNat) * 256 + d.toNat) / 2 ^ k.toNat % 256 = x.toNat →
      (([a, b, c, d].foldl (fun (v : UInt32) (x : UInt8) => (v <<< 8) ||| x.toUInt32) 0 >>> k) &&& 0xff).toNat = x.toNat := by
    intro k x hk hx
    rw [toNat_octet _ k hk, ← hx, ← e3]
    rfl
  simp only [inetNtop, List.map_cons, List.map_nil]
  rw [octet 24 a (by decide) (by simp; omega), octet 16 b (by decide) (by simp; omega),
    octet 8 c (by decide) (by simp; omega), octet 0 d (by decide) (by simp)]

theorem socks5Address_brings (t : SocksTarget) (h : s.Brings (t.addr ++ r)) :
    ∃ s', socks5Address t.atyp s = (some t.text, s') ∧ s'.Brings r := by
  cases t with
  | ipv4 a b c d =>
    obtain ⟨s', hread, hs'⟩ := readN_brings 4 [a, b, c, d] rfl h
    refine ⟨s', ?_, hs'⟩
    refine (Run.bind_some hread).trans ?_
    rw [inetNtop_octets]
    rfl
  | domain name pos le =>
    rw [SocksTarget.addr, List.append_assoc] at h
    obtain ⟨s₁, hlen, h₁⟩ := readN_brings 1 [UInt8.ofNat name.length] rfl h
    have hsize : (UInt8.ofNat name.length).toNat = name.length := by
      rw [UInt8.toNat_ofNat']
      omega
    have hne : UInt8.ofNat name.length ≠ 0 := by
      intro hzero
      rw [hzero] at hsize
      exact absurd hsize (by simp; omega)
    obtain ⟨s₂, hname, h₂⟩ := readN_brings name.length name rfl h₁
    refine ⟨s₂, ?_, h₂⟩
    refine (Run.bind_some hlen).trans ?_
    simp only [List.getD_cons_zero, if_neg hne, hsize, hname]
    rfl

theorem port_eq (port : UInt16) : ((port >>> 8).toUInt8.toUInt16 <<< 8) ||| port.toUInt8.toUInt16 = port := by
  have hport := port.toNat_lt
  apply UInt16.toNat_inj.mp
  have h8 : (8 : UInt16).toNat % 16 = 8 := rfl
  rw [UInt16.toNat_or, UInt16.toNat_shiftLeft, UInt8.toNat_toUInt16, UInt8.toNat_toUInt16, UInt16.toNat_toUInt8,
    UInt16.toNat_toUInt8, UInt16.toNat_shiftRight, h8, Nat.shiftRight_eq_div_pow, Nat.shiftLeft_eq,
    Nat.mod_eq_of_lt (by omega), ← Nat.shiftLeft_eq, ← Nat.shiftLeft_add_eq_or_of_lt (by omega), Nat.shiftLeft_eq]
  omega

theorem socks5Accept_brings (req : SocksRequest) (h : s.Brings (req.wire ++ r)) :
    ∃ s', socks5Accept s = (some ⟨req.target.text, req.port⟩, s') ∧ s'.Brings r := by
  have hsize : (UInt8.ofNat req.methods.length).toNat = req.methods.length := by
    have hle := req.methods_le
    rw [UInt8.toNat_ofNat']
    omega
  have hne : UInt8.ofNat req.methods.length ≠ 0 := by
    intro hzero
    have hpos := req.methods_pos
    rw [← hsize, hzero] at hpos
    exact absurd hpos (by decide)
  simp only [SocksRequest.wire, List.append_assoc] at h
  obtain ⟨s₁, hgreet, h₁⟩ := readN_brings 2 [0x05, UInt8.ofNat req.methods.length] rfl h
  obtain ⟨s₂, hmethods, h₂⟩ := readN_brings req.methods.length req.methods rfl h₁
  obtain ⟨s₃, hresp, h₃⟩ := sendWhole_brings (m := [0x05, 0x00]) (by decide) h₂
  obtain ⟨s₄, hreq, h₄⟩ := readN_brings 4 [0x05, 0x01, req.rsv, req.target.atyp] rfl h₃
  obtain ⟨s₅, haddr, h₅⟩ := socks5Address_brings req.target h₄
  obtain ⟨s₆, hport, h₆⟩ := readN_brings 2 [(req.port >>> 8).toUInt8, req.port.toUInt8] rfl h₅
  obtain ⟨s₇, hreply, h₇⟩ := sendWhole_brings (m := [0x05, 0x00, 0x00, 0x01, 0, 0, 0, 0, 0, 0]) (by decide) h₆
  refine ⟨s₇, ?_, h₇⟩
  rw [← hsize] at hmethods
  refine (Run.bind_some hgreet).trans ?_
  simp only [List.getD_cons_zero, List.getD_cons_succ, ne_eq, not_true_eq_false, if_false, if_neg hne]
  refine (Run.bind_some hmethods).trans ((Run.bind_some hresp).trans ((Run.bind_some hreq).trans ?_))
  refine (Run.bind_some haddr).trans ((Run.bind_some hport).trans ((Run.bind_some hreply).trans ?_))
  rw [Run.pure_apply]
  simp only [List.getD_cons_zero, List.getD_cons_succ, port_eq]

end Local

/-! ### The tunnel -/

theorem length_text_le (t : SocksTarget) : t.text.length ≤ 255 := by
  cases t with
  | ipv4 a b c d =>
    have digits : ∀ x : UInt8, (Nat.toDigits 10 x.toNat).length ≤ 3 :=
      fun x => Nat.toDigits_length 10 x.toNat 3 (by decide) (Nat.lt_trans x.toNat_lt (by decide))
    have ha := digits a
    have hb := digits b
    have hc := digits c
    have hd := digits d
    simp only [SocksTarget.text, asciiBytes, List.length_map, List.map_cons, List.map_nil, List.intercalate,
      List.intersperse, List.flatten_cons, List.flatten_nil, List.length_append, List.length_singleton, List.length_nil]
    omega
  | domain name pos le => exact le

theorem length_buildConnectReq (req : ConnectReq) : (buildConnectReq req).length = 4 + req.host.length := by
  rw [buildConnectReq, List.length_append]
  rfl

theorem parseConnectReq_buildConnectReq {req : ConnectReq} (h : req.host.length ≤ 255) :
    parseConnectReq (buildConnectReq req) = some req := by
  have hlen : ((UInt8.ofNat (req.host.length >>> 8)).toNat <<< 8) ||| (UInt8.ofNat req.host.length).toNat = req.host.length := by
    rw [be16_eq, UInt8.toNat_ofNat', UInt8.toNat_ofNat', Nat.shiftRight_eq_div_pow]
    omega
  have hsize := length_buildConnectReq req
  have hport : ((buildConnectReq req).getD 0 0).toUInt16 <<< 8 ||| ((buildConnectReq req).getD 1 0).toUInt16 = req.port :=
    port_eq req.port
  have hhost : ((buildConnectReq req).getD 2 0).toNat <<< 8 ||| ((buildConnectReq req).getD 3 0).toNat = req.host.length :=
    hlen
  have hdrop : (buildConnectReq req).drop 4 = req.host := rfl
  rw [parseConnectReq, if_neg (by omega)]
  dsimp only
  rw [hport, hhost, if_neg (by omega), if_neg (by omega), hdrop, List.take_length]

/-- The request arrives at the server as the client has built it. -/
theorem recvConnectReq_arriving {b : Backend} (b' : Backend) {key : Block} {req : ConnectReq} {wb rest : Octets} {w : World}
    (h : req.host.length ≤ 255) (hwb : frameBuild b frameData flagNone (buildConnectReq req) 1 key = some wb)
    (harr : arriving w.inbox = some (wb ++ rest)) : (recvConnectReq b' key w).1 = some (wb, req) := by
  obtain ⟨hmax, hlen⟩ := length_frameBuild hwb
  have hsize := length_buildConnectReq req
  simp only [frameHeaderLen, aegisTagLen] at hlen
  -- The header and the body of the frame, as the server receives them.
  have hhdr : headerPayloadLen (wb.take 4) = (buildConnectReq req).length := by
    rw [frameBuild_of_le hmax, Option.some.injEq, List.append_assoc] at hwb
    rw [← hwb, List.take_left' (length_frameHeader ..), ← List.append_nil (frameHeader ..),
      headerPayloadLen_frameHeader _ _ hmax]
  rw [← List.take_append_drop 4 wb, List.append_assoc] at harr
  obtain ⟨q, hfirst, hq⟩ := recvAll_arriving (n := 4) (by rw [List.length_take]; omega) harr
  obtain ⟨q', hsecond, -⟩ := recvAll_arriving (n := (buildConnectReq req).length + 16) (w := { w with inbox := q })
    (by rw [List.length_drop]; omega) hq
  have hsteps : recvConnectReq b' key w = (some (wb, req), { w with inbox := q' }) := by
    refine (Run.bind_some hfirst).trans ?_
    dsimp only
    rw [hhdr, if_neg (by omega)]
    refine (Run.bind_some hsecond).trans ?_
    rw [List.take_append_drop, frameParse_frameBuild hwb]
    dsimp only
    rw [parseConnectReq_buildConnectReq h]
    rfl
  rw [hsteps]

theorem sendConnectReq_takes (b : Backend) (key : Block) {req : ConnectReq} {w : World} (h : req.host.length ≤ 255)
    (hw : TakesBytes w.sends) : ∃ wb, frameBuild b frameData flagNone (buildConnectReq req) 1 key = some wb ∧
      (sendConnectReq b req key w).1 = some () ∧ (sendConnectReq b req key w).2.outbox = w.outbox ++ wb := by
  have hsize := length_buildConnectReq req
  have hmax : (buildConnectReq req).length ≤ frameMaxPayload := by
    rw [frameMaxPayload]
    omega
  obtain ⟨wb, hbuild⟩ : ∃ wb, frameBuild b frameData flagNone (buildConnectReq req) 1 key = some wb :=
    ⟨_, frameBuild_of_le hmax⟩
  refine ⟨wb, hbuild, ?_⟩
  rw [sendConnectReq, hbuild]
  obtain ⟨q, hsend, -⟩ := sendAll_takes wb hw
  dsimp only
  rw [hsend]
  exact ⟨rfl, rfl⟩

/-! ### The result -/

/-- On every way, the server passes on the bytes of the target up to the first zero, and the port. -/
theorem Transits.passes {b : Backend} (b' : Backend) {key : Block} {req : SocksRequest} {localSocket : LocalSocket}
    {client server : World} (h : Transits b key req localSocket client server) :
    socks5Passes b b' key localSocket client server = some (req.target.text.takeWhile (· ≠ 0), req.port.toNat) := by
  obtain ⟨rest, hrequest⟩ := h.request
  obtain ⟨s, haccept, -⟩ := socks5Accept_brings req hrequest
  have hle : (ConnectReq.mk req.target.text req.port).host.length ≤ 255 := length_text_le req.target
  obtain ⟨wb, hbuild, hsend, hout⟩ := sendConnectReq_takes b key hle h.sends
  obtain ⟨sent, more, hsent, harr⟩ := h.tunnel _ (congrArg Prod.fst haccept)
  rw [hout] at hsent
  obtain rfl := List.append_cancel_left hsent
  have hrecv := recvConnectReq_arriving b' hle hbuild harr
  rw [socks5Passes, haccept, Option.bind_eq_bind, Option.bind_some, hsend, hrecv]
  rfl

/-- A host on which nothing has been sent and nothing comes in yet. -/
def World.idle : World := ⟨[], [], [], [], [], [], replayInit⟩

/-- There is a way for every request: in one piece on each of the connections. -/
theorem exists_transits (b : Backend) (key : Block) (req : SocksRequest) :
    ∃ localSocket client server, Transits b key req localSocket client server := by
  have hbrings : LocalSocket.Brings ⟨[.data 0x05 req.wire.tail], [], []⟩ (req.wire ++ []) := by
    refine ⟨?_, by simp⟩
    have hchunk := Chunked.cons 0x05 req.wire.tail .nil
    exact hchunk
  obtain ⟨s, haccept, -⟩ := socks5Accept_brings req hbrings
  have hle : (ConnectReq.mk req.target.text req.port).host.length ≤ 255 := length_text_le req.target
  have hidle : TakesBytes World.idle.sends := by simp [TakesBytes, World.idle]
  obtain ⟨wb, hbuild, -, hout⟩ := sendConnectReq_takes b key hle hidle
  obtain ⟨x, xs, rfl⟩ := List.exists_cons_of_ne_nil (frameBuild_ne_nil hbuild)
  refine ⟨_, World.idle, { World.idle with inbox := [.ready (.data x xs)] }, ⟨[], hbrings⟩, hidle, fun r hr => ?_⟩
  rw [haccept] at hr
  obtain rfl := Option.some.inj hr
  exact ⟨x :: xs, [], hout, rfl⟩

/-- A dotted address has no zero byte. -/
theorem zero_not_mem_dotted (a b c d : UInt8) : 0 ∉ (SocksTarget.ipv4 a b c d).text := by
  intro hzero
  obtain ⟨x, hx, hbyte⟩ := List.mem_map.mp hzero
  have hchar : x = '.' ∨ x.isDigit = true := by
    have digits : ∀ {y : UInt8}, x ∈ Nat.toDigits 10 y.toNat → x.isDigit = true :=
      fun hmem => Nat.isDigit_of_mem_toDigits (by decide) (by decide) hmem
    simp only [List.map_cons, List.map_nil, List.intercalate, List.intersperse, List.flatten_cons, List.flatten_nil,
      List.append_nil, List.mem_append, List.mem_singleton] at hx
    rcases hx with hmem | hdot | hmem | hdot | hmem | hdot | hmem
    · exact .inr (digits hmem)
    · exact .inl hdot
    · exact .inr (digits hmem)
    · exact .inl hdot
    · exact .inr (digits hmem)
    · exact .inl hdot
    · exact .inr (digits hmem)
  have hrange : 46 ≤ x.toNat ∧ x.toNat ≤ 57 := by
    rcases hchar with rfl | hdigit
    · decide
    · simp only [Char.isDigit, Bool.and_eq_true, decide_eq_true_eq] at hdigit
      have hlo : 48 ≤ x.toNat := hdigit.1
      have hhi : x.toNat ≤ 57 := hdigit.2
      omega
  have hnat := congrArg UInt8.toNat hbyte
  rw [UInt8.toNat_ofNat'] at hnat
  have h0 : (0 : UInt8).toNat = 0 := rfl
  omega

/-- On every way of a request, the server passes on the requested target and port just if the target is no
    domain with a zero byte in it. -/
theorem socks5_target_iff (b b' : Backend) (key : Block) (req : SocksRequest) :
    (∀ localSocket client server, Transits b key req localSocket client server →
        socks5Passes b b' key localSocket client server = some (req.target.text, req.port.toNat)) ↔
      ∀ name pos le, req.target = .domain name pos le → 0 ∉ name := by
  have hpass : ∀ localSocket client server, Transits b key req localSocket client server →
      (socks5Passes b b' key localSocket client server = some (req.target.text, req.port.toNat) ↔ 0 ∉ req.target.text) := by
    intro localSocket client server h
    rw [h.passes b', Option.some.injEq, Prod.mk.injEq, and_iff_left rfl, List.takeWhile_eq_self_iff]
    constructor
    · intro hall hzero
      simpa using hall 0 hzero
    · intro hzero x hx
      have hne : x ≠ 0 := fun h0 => hzero (h0 ▸ hx)
      simpa using hne
  constructor
  · intro hall name pos le htarget
    obtain ⟨localSocket, client, server, h⟩ := exists_transits b key req
    have hzero := (hpass _ _ _ h).mp (hall _ _ _ h)
    rwa [htarget] at hzero
  · intro hdomain localSocket client server h
    refine (hpass _ _ _ h).mpr ?_
    cases htarget : req.target with
    | ipv4 a b c d => exact zero_not_mem_dotted a b c d
    | domain name pos le => exact hdomain name pos le htarget

/-- A domain of three bytes, with a zero in the middle. -/
def splitDomain : SocksRequest where
  methods := [0x00]
  methods_pos := by decide
  methods_le := by decide
  rsv := 0x00
  target := .domain [0x61, 0x00, 0x62] (by decide) (by decide)
  port := 443

theorem socks5_target_split :
    ¬ ∀ (b b' : Backend) (key : Block) (req : SocksRequest) (localSocket : LocalSocket) (client server : World),
      Transits b key req localSocket client server →
        socks5Passes b b' key localSocket client server = some (req.target.text, req.port.toNat) := by
  intro hall
  obtain ⟨localSocket, client, server, h⟩ := exists_transits .pureC (Word.zero 16) splitDomain
  have hsame := hall .pureC .pureC _ splitDomain _ _ _ h
  rw [h.passes .pureC] at hsame
  exact absurd hsame (by decide)

end AegisTunnel
