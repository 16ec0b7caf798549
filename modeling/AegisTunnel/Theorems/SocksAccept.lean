import AegisTunnel.Theorems.Socks5

/-! # What `socks5_accept` accepts

A greeting and a CONNECT request, however the stream is cut. The methods of the greeting are read and not
looked at, so the method without authentication is announced to every client that greets. -/

namespace AegisTunnel
open Octets

/-- The stream begins with a greeting that offers the methods. -/
def Greeting (methods m : Octets) : Prop :=
  0 < methods.length ∧ methods.length ≤ 255 ∧ [0x05, UInt8.ofNat methods.length] ++ methods <+: m

/-- On the stream `m`: accepted is what offers the method 0 and asks for a target, and just that is consumed;
    and method 0 is announced to a client that has offered it. -/
structure SocksExact (s : LocalSocket) (m : Octets) : Prop where
  accepts : (socks5Accept s).1.isSome = true ↔ ∃ req rest, m = SocksRequest.wire req ++ rest ∧ 0 ∈ req.methods
  consumes : ∀ r s', socks5Accept s = (some r, s') → ∃ req rest, m = SocksRequest.wire req ++ rest ∧ s'.Brings rest
  announces : ∀ rest, (socks5Accept s).2.outbox = s.outbox ++ ([0x05, 0x00] ++ rest) → ∃ methods, Greeting methods m ∧ 0 ∈ methods

/-! ### Reading and sending -/

section Calls
variable {s s' : LocalSocket} {m r x : Octets} {n : Nat}

theorem readNLoop_short {q : List Offer} (h : Chunked q m) (got : Octets) (short : got.length + m.length < n) :
    (readNLoop n got q).1 = none := by
  induction h generalizing got with
  | nil =>
    have hlt : got.length < n := by simpa using short
    rw [readNLoop, if_pos hlt]
  | cons x xs h ih =>
    simp only [List.length_cons, List.cons_append, List.length_append] at short
    have hall : (x :: xs).length ≤ n - got.length := by
      rw [List.length_cons]
      omega
    rw [readNLoop, if_pos (by omega)]
    rw [List.drop_of_length_le hall, List.take_of_length_le hall]
    refine ih _ ?_
    simp only [List.length_append, List.length_cons]
    omega

theorem readN_outbox (n : Nat) (s : LocalSocket) : (readN n s).2.outbox = s.outbox := rfl

/-- What `read_n` returns are the next bytes of the stream. -/
theorem readN_some (h : s.Brings m) (hread : readN n s = (some x, s')) :
    ∃ r, m = x ++ r ∧ x.length = n ∧ s'.Brings r ∧ s'.outbox = s.outbox := by
  have hout : s'.outbox = s.outbox := by
    have := readN_outbox n s
    rwa [hread] at this
  by_cases short : m.length < n
  · have hnone : (readN n s).1 = none := readNLoop_short h.chunks [] (by simpa using short)
    rw [hread] at hnone
    cases hnone
  · have hlen : (m.take n).length = n := by
      rw [List.length_take]
      omega
    obtain ⟨s₁, hread₁, h₁⟩ := readN_brings n (m.take n) hlen (by rwa [List.take_append_drop])
    rw [hread₁] at hread
    cases hread
    exact ⟨m.drop n, (List.take_append_drop n m).symm, hlen, h₁, hout⟩

theorem sendWhole_outbox (h : s.Brings r) (hm : m.length ≤ 10) : (sendWhole m s).2.outbox = s.outbox ++ m := by
  unfold sendWhole
  split
  next => rfl
  next k q hsends =>
    obtain ⟨n, rfl, hn⟩ := h.replies k (by rw [hsends]; exact List.mem_cons_self ..)
    exact congrArg (s.outbox ++ ·) (List.take_of_length_le (by omega))

end Calls

/-! ### The greeting -/

/-- `socks5_accept` after the greeting. -/
def socks5Request : Run LocalSocket ConnectReq := do
  let buf ← readN 4
  if buf.getD 0 0 ≠ 0x05 then Run.fail
  else if buf.getD 1 0 ≠ 0x01 then do
    Run.orElse (sendReply 0x07) (pure ())
    Run.fail
  else
    let host ← socks5Address (buf.getD 3 0)
    let buf ← readN 2
    let port := ((buf.getD 0 0).toUInt16 <<< 8) ||| (buf.getD 1 0).toUInt16
    sendReply 0x00
    pure ⟨host, port⟩

section Greeting
variable {s : LocalSocket} {m r methods : Octets}

theorem socks5Accept_greeting (hgreet : Greeting methods m) (h : s.Brings m) :
    ∃ s' r, socks5Accept s = socks5Request s' ∧ s'.Brings r ∧ s'.outbox = s.outbox ++ [0x05, 0x00] ∧
      m = [0x05, UInt8.ofNat methods.length] ++ (methods ++ r) := by
  obtain ⟨pos, le, r, rfl⟩ := hgreet
  rw [List.append_assoc] at h
  have hsize : (UInt8.ofNat methods.length).toNat = methods.length := by
    rw [UInt8.toNat_ofNat']
    omega
  have hne : UInt8.ofNat methods.length ≠ 0 := by
    intro hzero
    rw [hzero] at hsize
    exact absurd hsize (by simp; omega)
  obtain ⟨s₁, hfirst, h₁⟩ := readN_brings 2 [0x05, UInt8.ofNat methods.length] rfl h
  obtain ⟨s₂, hmethods, h₂⟩ := readN_brings methods.length methods rfl h₁
  obtain ⟨s₃, hresp, h₃⟩ := sendWhole_brings (m := [0x05, 0x00]) (by decide) h₂
  have hout : s₃.outbox = s.outbox ++ [0x05, 0x00] := by
    have e₁ := readN_outbox 2 s
    have e₂ := readN_outbox methods.length s₁
    have e₃ := sendWhole_outbox (m := [0x05, 0x00]) h₂ (by decide)
    rw [hfirst] at e₁
    rw [hmethods] at e₂
    rw [hresp] at e₃
    rw [e₃, e₂, e₁]
  refine ⟨s₃, r, ?_, h₃, hout, List.append_assoc ..⟩
  rw [← hsize] at hmethods
  refine (Run.bind_some hfirst).trans ?_
  simp only [List.getD_cons_zero, List.getD_cons_succ, ne_eq, not_true_eq_false, if_false, if_neg hne]
  exact (Run.bind_some hmethods).trans (Run.bind_some hresp)

theorem socks5Accept_ungreeted (h : s.Brings m) (none : ∀ methods, ¬ Greeting methods m) :
    (socks5Accept s).1 = .none ∧ (socks5Accept s).2.outbox = s.outbox := by
  have hout := readN_outbox 2 s
  cases hfirst : readN 2 s with
  | mk o s₁ =>
    rw [hfirst] at hout
    cases o with
    | none =>
      rw [socks5Accept, Run.bind_none hfirst]
      exact ⟨rfl, hout⟩
    | some buf =>
      obtain ⟨r, rfl, hlen, h₁, -⟩ := readN_some h hfirst
      rw [socks5Accept, Run.bind_some hfirst]
      split
      next => exact ⟨rfl, hout⟩
      next hver =>
        dsimp only
        split
        next => exact ⟨rfl, hout⟩
        next hzero =>
          have hout₂ := readN_outbox (buf.getD 1 0).toNat s₁
          cases hmethods : readN (buf.getD 1 0).toNat s₁ with
          | mk o s₂ =>
            rw [hmethods] at hout₂
            cases o with
            | none =>
              rw [Run.bind_none hmethods]
              exact ⟨rfl, hout₂.trans hout⟩
            | some methods =>
              -- The greeting is complete.
              obtain ⟨r, rfl, hsize, -, -⟩ := readN_some h₁ hmethods
              obtain ⟨a, k, rfl⟩ := List.length_eq_two.mp hlen
              obtain rfl : a = 0x05 := not_not.mp hver
              have hk : k.toNat ≠ 0 := fun h0 => hzero (UInt8.toNat_inj.mp h0)
              have hmax := k.toNat_lt
              simp only [List.getD_cons_succ, List.getD_cons_zero] at hsize
              refine absurd ⟨by omega, by omega, r, ?_⟩ (none methods)
              rw [hsize, UInt8.ofNat_toNat, List.append_assoc]

end Greeting

/-! ### The request -/

section Request
variable {s s' : LocalSocket} {m : Octets}

theorem eq_of_length_four {l : Octets} (h : l.length = 4) : ∃ a b c d, l = [a, b, c, d] := by
  obtain ⟨a, l, rfl⟩ := List.exists_cons_of_length_eq_add_one h
  obtain ⟨b, c, d, rfl⟩ := List.length_eq_three.mp (Nat.succ.inj h)
  exact ⟨a, b, c, d, rfl⟩

theorem socks5Address_some {atyp : UInt8} {host : Octets} (h : s.Brings m) (hok : socks5Address atyp s = (some host, s')) :
    ∃ (t : SocksTarget) (r : Octets), atyp = t.atyp ∧ m = t.addr ++ r ∧ s'.Brings r := by
  unfold socks5Address at hok
  split at hok
  next hatyp =>
    obtain ⟨buf, s₁, hread, hpure⟩ := Run.bind_eq_some hok
    obtain ⟨r, rfl, hlen, h₁, -⟩ := readN_some h hread
    cases hpure
    obtain ⟨a, b, c, d, rfl⟩ := eq_of_length_four hlen
    exact ⟨.ipv4 a b c d, r, hatyp, rfl, h₁⟩
  next =>
    split at hok
    next hatyp =>
      obtain ⟨buf, s₁, hread, hrest⟩ := Run.bind_eq_some hok
      obtain ⟨r, rfl, hlen, h₁, -⟩ := readN_some h hread
      obtain ⟨k, rfl⟩ := List.length_eq_one_iff.mp hlen
      simp only [List.getD_cons_zero] at hrest
      split at hrest
      next => cases hrest
      next hzero =>
        obtain ⟨r, rfl, hsize, h₂, -⟩ := readN_some h₁ hrest
        have hk : k.toNat ≠ 0 := fun h0 => hzero (UInt8.toNat_inj.mp h0)
        have hmax := k.toNat_lt
        refine ⟨.domain host (by omega) (by omega), r, hatyp, ?_, h₂⟩
        rw [SocksTarget.addr, hsize, UInt8.ofNat_toNat, List.append_assoc]
    next =>
      obtain ⟨_, s₁, -, hfail⟩ := Run.bind_eq_some hok
      cases hfail

theorem port_bytes (x y : UInt8) :
    (((x.toUInt16 <<< 8) ||| y.toUInt16) >>> 8).toUInt8 = x ∧ ((x.toUInt16 <<< 8) ||| y.toUInt16).toUInt8 = y := by
  have hx := x.toNat_lt
  have hy := y.toNat_lt
  have h8 : (8 : UInt16).toNat % 16 = 8 := rfl
  have hport : ((x.toUInt16 <<< 8) ||| y.toUInt16).toNat = x.toNat * 256 + y.toNat := by
    rw [UInt16.toNat_or, UInt16.toNat_shiftLeft, h8, UInt8.toNat_toUInt16, UInt8.toNat_toUInt16, Nat.shiftLeft_eq,
      Nat.mod_eq_of_lt (by omega), ← Nat.shiftLeft_eq, ← Nat.shiftLeft_add_eq_or_of_lt hy, Nat.shiftLeft_eq]
  constructor
  · apply UInt8.toNat_inj.mp
    rw [UInt16.toNat_toUInt8, UInt16.toNat_shiftRight, h8, Nat.shiftRight_eq_div_pow, hport]
    omega
  · apply UInt8.toNat_inj.mp
    rw [UInt16.toNat_toUInt8, hport]
    omega

/-- A request that is accepted is a CONNECT request for a target. -/
theorem socks5Request_some {req : ConnectReq} (h : s.Brings m) (hok : socks5Request s = (some req, s')) :
    ∃ (rsv : UInt8) (t : SocksTarget) (port : UInt16) (r : Octets),
      m = [0x05, 0x01, rsv, t.atyp] ++ (t.addr ++ ([(port >>> 8).toUInt8, port.toUInt8] ++ r)) ∧ s'.Brings r := by
  obtain ⟨buf, s₁, hread, hrest⟩ := Run.bind_eq_some hok
  obtain ⟨r, rfl, hlen, h₁, -⟩ := readN_some h hread
  obtain ⟨a, b, c, d, rfl⟩ := eq_of_length_four hlen
  simp only [List.getD_cons_zero, List.getD_cons_succ] at hrest
  split at hrest
  next => cases hrest
  next hver =>
    split at hrest
    next =>
      obtain ⟨_, s₂, -, hfail⟩ := Run.bind_eq_some hrest
      cases hfail
    next hcmd =>
      obtain rfl : a = 0x05 := not_not.mp hver
      obtain rfl : b = 0x01 := not_not.mp hcmd
      obtain ⟨host, s₂, haddr, hport⟩ := Run.bind_eq_some hrest
      obtain ⟨t, r, rfl, rfl, h₂⟩ := socks5Address_some h₁ haddr
      obtain ⟨buf, s₃, hread₃, hreply⟩ := Run.bind_eq_some hport
      obtain ⟨r, rfl, hlen₃, h₃, -⟩ := readN_some h₂ hread₃
      obtain ⟨x, y, rfl⟩ := List.length_eq_two.mp hlen₃
      obtain ⟨_, s₄, hsend, hpure⟩ := Run.bind_eq_some hreply
      obtain ⟨s₅, hsend', h₅⟩ := sendWhole_brings (m := [0x05, 0x00, 0x00, 0x01, 0, 0, 0, 0, 0, 0]) (by decide) h₃
      obtain ⟨-, rfl⟩ := Prod.mk.inj (hsend.symm.trans hsend')
      cases hpure
      refine ⟨c, t, (x.toUInt16 <<< 8) ||| y.toUInt16, r, ?_, h₅⟩
      rw [(port_bytes x y).1, (port_bytes x y).2]

/-- What was sent before is the beginning of what is sent after. -/
def OutboxGrows (s s' : LocalSocket) : Prop := s.outbox <+: s'.outbox

instance : Std.Refl OutboxGrows := ⟨fun s => List.prefix_refl s.outbox⟩

instance : IsTrans LocalSocket OutboxGrows := ⟨fun _ _ _ => List.IsPrefix.trans⟩

theorem outboxGrows_readN (n : Nat) : Run.Moves OutboxGrows (readN n) := fun s => List.prefix_refl s.outbox

theorem outboxGrows_sendWhole (m : Octets) : Run.Moves OutboxGrows (sendWhole m) := fun s => by
  unfold sendWhole
  split <;> exact List.prefix_append ..

theorem outboxGrows_refuse (rep : UInt8) {α : Type} :
    Run.Moves OutboxGrows (Run.orElse (sendReply rep) (pure ()) >>= fun _ => (Run.fail : Run LocalSocket α)) := by
  refine Run.moves_bind (fun s => ?_) fun _ => Run.moves_fail
  have hsent := outboxGrows_sendWhole [0x05, rep, 0x00, 0x01, 0, 0, 0, 0, 0, 0] s
  cases hreply : sendReply rep s with
  | mk o s' =>
    rw [show sendWhole [0x05, rep, 0x00, 0x01, 0, 0, 0, 0, 0, 0] s = (o, s') from hreply] at hsent
    cases o with
    | none =>
      rw [Run.orElse_none hreply]
      exact hsent
    | some u =>
      rw [Run.orElse_some hreply]
      exact hsent

theorem outboxGrows_socks5Address (atyp : UInt8) : Run.Moves OutboxGrows (socks5Address atyp) := by
  unfold socks5Address
  split
  · exact Run.moves_bind (outboxGrows_readN _) fun _ => Run.moves_pure _
  · split
    · refine Run.moves_bind (outboxGrows_readN _) fun buf => ?_
      dsimp only
      split
      · exact Run.moves_fail
      · exact outboxGrows_readN _
    · exact outboxGrows_refuse _

theorem outboxGrows_socks5Request : Run.Moves OutboxGrows socks5Request := by
  refine Run.moves_bind (outboxGrows_readN _) fun buf => ?_
  split
  · exact Run.moves_fail
  · split
    · exact outboxGrows_refuse _
    · refine Run.moves_bind (outboxGrows_socks5Address _) fun host => Run.moves_bind (outboxGrows_readN _) fun _ => ?_
      exact Run.moves_bind (outboxGrows_sendWhole _) fun _ => Run.moves_pure _

end Request

/-! ### The result -/

section Exact
variable {s s' : LocalSocket} {m : Octets}

theorem SocksRequest.greeting (req : SocksRequest) (rest : Octets) : Greeting req.methods (req.wire ++ rest) := by
  refine ⟨req.methods_pos, req.methods_le, ?_⟩
  rw [wire, ← List.append_assoc, List.append_assoc _ _ rest]
  exact List.prefix_append ..

/-- What is accepted is a greeting and a request, and what is left is what follows them. -/
theorem socks5Accept_some {r : ConnectReq} (h : s.Brings m) (hok : socks5Accept s = (some r, s')) :
    ∃ req rest, m = SocksRequest.wire req ++ rest ∧ s'.Brings rest := by
  by_cases hgreet : ∃ methods, Greeting methods m
  · obtain ⟨methods, hmethods⟩ := hgreet
    obtain ⟨s₁, r₁, haccept, h₁, -, rfl⟩ := socks5Accept_greeting hmethods h
    rw [haccept] at hok
    obtain ⟨rsv, t, port, rest, rfl, hrest⟩ := socks5Request_some h₁ hok
    refine ⟨⟨methods, hmethods.1, hmethods.2.1, rsv, t, port⟩, rest, ?_, hrest⟩
    simp only [SocksRequest.wire, List.append_assoc]
  · rw [not_exists] at hgreet
    have hnone := (socks5Accept_ungreeted h hgreet).1
    rw [hok] at hnone
    cases hnone

theorem Greeting.unique {a b : Octets} (ha : Greeting a m) (hb : Greeting b m) : a = b := by
  obtain ⟨-, hla, ra, hma⟩ := ha
  obtain ⟨-, hlb, rb, hmb⟩ := hb
  rw [← hmb, List.append_assoc, List.append_assoc] at hma
  obtain ⟨hhead, htail⟩ := List.append_inj hma rfl
  have hlen : UInt8.ofNat a.length = UInt8.ofNat b.length := by simpa using hhead
  have hnat := congrArg UInt8.toNat hlen
  rw [UInt8.toNat_ofNat', UInt8.toNat_ofNat'] at hnat
  exact (List.append_inj htail (by omega)).1

end Exact

/-- `socks5_accept` is exact on the streams whose greeting, if they have one, offers the method 0. -/
theorem socks5_accept_iff {s : LocalSocket} {m : Octets} (h : s.Brings m) :
    SocksExact s m ↔ ∀ methods, Greeting methods m → 0 ∈ methods := by
  constructor
  · intro exact methods hgreet
    obtain ⟨s₁, -, haccept, -, hout, -⟩ := socks5Accept_greeting hgreet h
    obtain ⟨more, hmore⟩ := outboxGrows_socks5Request s₁
    obtain ⟨methods', hgreet', hzero⟩ := exact.announces more (by rw [haccept, ← hmore, hout, List.append_assoc])
    exact hgreet.unique hgreet' ▸ hzero
  · intro offers
    refine ⟨⟨fun hsome => ?_, ?_⟩, fun r s' hok => socks5Accept_some h hok, fun rest hout => ?_⟩
    · obtain ⟨r, hr⟩ := Option.isSome_iff_exists.mp hsome
      have hok : socks5Accept s = (some r, (socks5Accept s).2) := Prod.ext hr rfl
      obtain ⟨req, rest, rfl, -⟩ := socks5Accept_some h hok
      exact ⟨req, rest, rfl, offers _ (req.greeting rest)⟩
    · rintro ⟨req, rest, rfl, -⟩
      obtain ⟨s', haccept, -⟩ := socks5Accept_brings req h
      rw [haccept]
      rfl
    · by_cases hgreet : ∃ methods, Greeting methods m
      · obtain ⟨methods, hmethods⟩ := hgreet
        exact ⟨methods, hmethods, offers methods hmethods⟩
      · rw [not_exists] at hgreet
        rw [(socks5Accept_ungreeted h hgreet).2] at hout
        simpa using congrArg List.length hout

theorem socks5_accept_iff_domain :
    ∃ s, LocalSocket.Brings s (splitDomain.wire ++ []) ∧ SocksExact s (splitDomain.wire ++ []) := by
  have hbrings : LocalSocket.Brings ⟨[.data 0x05 splitDomain.wire.tail], [], []⟩ (splitDomain.wire ++ []) :=
    ⟨.cons 0x05 splitDomain.wire.tail .nil, by simp⟩
  refine ⟨_, hbrings, (socks5_accept_iff hbrings).mpr fun methods hgreet => ?_⟩
  rw [hgreet.unique (splitDomain.greeting [])]
  decide

/-- A client that offers authentication by name and password only. -/
def passwordClient : LocalSocket := ⟨[.data 0x05 [0x01, 0x02, 0x05, 0x01, 0x00, 0x01, 10, 0, 0, 1, 0, 80]], [], []⟩

/-- It is told to go on without, and its request is accepted. -/
theorem socks5_accepts_unoffered :
    passwordClient.Brings [0x05, 0x01, 0x02, 0x05, 0x01, 0x00, 0x01, 10, 0, 0, 1, 0, 80] ∧
      (socks5Accept passwordClient).1.isSome = true ∧ (socks5Accept passwordClient).2.outbox.take 2 = [0x05, 0x00] ∧
      ¬ SocksExact passwordClient [0x05, 0x01, 0x02, 0x05, 0x01, 0x00, 0x01, 10, 0, 0, 1, 0, 80] := by
  refine ⟨⟨.cons _ _ .nil, by simp [passwordClient]⟩, by decide, by decide, fun exact => ?_⟩
  have hgreet : Greeting [0x02] [0x05, 0x01, 0x02, 0x05, 0x01, 0x00, 0x01, 10, 0, 0, 1, 0, 80] := by
    exact ⟨by decide, by decide, _, rfl⟩
  obtain ⟨req, rest, hm, hzero⟩ := exact.accepts.mp (by decide)
  rw [hm] at hgreet
  rw [(req.greeting rest).unique hgreet] at hzero
  exact absurd hzero (by decide)

end AegisTunnel
