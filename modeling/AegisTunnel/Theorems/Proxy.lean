import AegisTunnel.Proxy
import AegisTunnel.Theorems.Sending

/-! When a `read` of the plaintext descriptor can be waited for: not after `poll`, but after each frame that
    was sent before. -/

namespace AegisTunnel
open Octets

/-! ### Streams -/

theorem Stream.ready_iff {s : Stream} : s.ready = true ↔ s.queue ≠ [] ∨ s.ending.isSome = true := by
  rw [Stream.ready, Bool.or_eq_true, Bool.not_eq_true', List.isEmpty_eq_false_iff]

/-- A call on a socket that is not ready is not answered, but for a signal. -/
theorem Stream.eintr_of_not_ready {s : Stream} {k : Offer} (idle : s.ready = false) (h : s.answers k = true) :
    k = .eintr := by
  obtain ⟨queue, ending⟩ := s
  rw [Stream.ready, Bool.or_eq_false_iff, Bool.not_eq_false', List.isEmpty_iff, Option.isSome_eq_false_iff,
    Option.isNone_iff_eq_none] at idle
  obtain ⟨rfl, rfl⟩ := idle
  cases k <;> first | rfl | cases h

theorem Stream.ready_arrive {s s' : Stream} {d : Octets} (h : s.arrive d = some s') (ready : s.ready = true) :
    s'.ready = true := by
  unfold Stream.arrive at h
  split at h
  · cases h
  · obtain rfl := Option.some.inj h
    rw [Stream.ready_iff] at ready ⊢
    exact ready.imp_left fun some_ => List.append_ne_nil_of_left_ne_nil some_ d

theorem Stream.ready_close {s s' : Stream} {how : Ending} (h : s.close how = some s') : s'.ready = true := by
  unfold Stream.close at h
  split at h
  · cases h
  · obtain rfl := Option.some.inj h
    exact Stream.ready_iff.mpr (.inr rfl)

/-! ### The way to a `read` -/

def Pc.isRead : Pc → Bool
  | .read .. => true
  | _ => false

theorem Pc.drains_of_isRead {pc : Pc} (h : pc.isRead = true) : pc.drains = true := by
  cases pc <;> first | rfl | cases h

section
variable {lib : OpenSsl} {b : Backend} {e e' : Endpoint} {ev : Ev}

/-- After a `read` the loop reads again only if it was interrupted. -/
theorem isRead_readStep {drained : Nat} {rev : Revents} {k : Offer} (h : (readStep b e drained rev k).pc.isRead = true) :
    k = .eintr := by
  cases k with
  | data x xs =>
    simp only [readStep, sendDataStep, Endpoint.build] at h
    split at h
    · cases h
    · split at h <;> cases h
  | eof =>
    simp only [readStep, Endpoint.build] at h
    split at h
    · split at h <;> cases h
    · cases h
  | eintr => rfl
  | again =>
    have drains := Pc.drains_of_isRead h
    rw [readStep, drains_encryptedPc] at drains
    cases drains
  | error => cases h

/-- The frame is sent, and the drain loop is not at its limit. -/
def DataSent (e : Endpoint) (ev : Ev) : Prop :=
  ∃ pending drained rev k, e.pc = .sendData pending drained rev ∧ ev = .send k ∧ writeAllRound pending k = some [] ∧
    drained + 1 ≤ 256

theorem DataSent.isRead (h : DataSent e ev) (taken : step lib b e ev = some e') : e'.pc.isRead = true := by
  obtain ⟨pending, drained, rev, k, at_, rfl, round, more⟩ := h
  simp only [step, at_, sendDataRound, round, if_neg (Nat.not_lt.mpr more)] at taken
  obtain rfl := Option.some.inj taken
  rfl

/-- The loop comes to a `read` from `poll`, from an interrupted `read` and from the frame before. -/
theorem isRead_of_step (taken : step lib b e ev = some e') (read : e'.pc.isRead = true) :
    (∃ rev, ev = .poll (.ready rev) ∧ rev.ptIn = true) ∨ ev = .read .eintr ∧ e.pc.isRead = true ∨ DataSent e ev := by
  rcases drain_of_step taken (Pc.drains_of_isRead read) with ⟨rev, polled, in_, _⟩ | ⟨drained, rev, k, at_, rfl, rfl⟩ |
      ⟨pending, drained, rev, k, at_, rfl, rfl⟩
  · exact .inl ⟨rev, polled, in_⟩
  · exact .inr (.inl ⟨congrArg Ev.read (isRead_readStep read), by rw [at_]; rfl⟩)
  · simp only [sendDataRound] at read
    split at read
    next => cases read
    next round =>
      split at read
      next =>
        have drains := Pc.drains_of_isRead read
        rw [drains_encryptedPc] at drains
        cases drains
      next more => exact .inr (.inr ⟨pending, drained, rev, k, at_, rfl, round, Nat.not_lt.mp more⟩)
    next => cases read

end

/-! ### Reads that find something -/

/-- A `read` that is made is answered at once. -/
def Proxy.ReadsReady (p : Proxy) : Prop := p.ep.pc.isRead = true → p.pt.ready = true

/-- When a frame has been sent and the drain loop goes on, there is more to read. -/
def MoreToRead (p : Proxy) (ev : ProxyEv) : Prop := ∀ call, ev = .call call → DataSent p.ep call → p.pt.ready = true

section
variable {lib : OpenSsl} {b : Backend} {p p' : Proxy} {ev : ProxyEv}

theorem MoreToRead.of_ne_call (h : ∀ call, ev ≠ .call call) : MoreToRead p ev := fun call event => absurd event (h call)

theorem readsReady_call {call : Ev} (ready : p.ReadsReady) (taken : p.step lib b (.call call) = some p') :
    p'.ReadsReady ↔ MoreToRead p (.call call) := by
  simp only [Proxy.step] at taken
  split at taken
  next allowed =>
    obtain ⟨e, stepped, rfl⟩ := Option.map_eq_some_iff.mp taken
    -- The queue is as it was where nothing is read.
    have same : call.bytesRead = [] → (p.pt.drop (p.ep.readSince e).length) = p.pt := by
      intro none_
      rw [Endpoint.readSince, readPt_step stepped, none_, List.append_nil, List.drop_length]
      rfl
    constructor
    · intro ready' call' event sent
      cases event
      have nothing : call.bytesRead = [] := by
        obtain ⟨_, _, _, k, _, rfl, _⟩ := sent
        rfl
      have := ready' (sent.isRead stepped)
      rwa [same nothing] at this
    · intro more read
      rcases isRead_of_step stepped read with ⟨rev, rfl, in_⟩ | ⟨rfl, at_⟩ | sent
      · rw [same rfl]
        have polled := (Bool.and_eq_true_iff.mp allowed).1
        rw [in_, beq_iff_eq] at polled
        exact polled.symm
      · rw [same rfl]
        exact ready at_
      · have here := more call rfl sent
        obtain ⟨_, _, _, k, _, rfl, _⟩ := sent
        rw [same rfl]
        exact here
  next => cases taken

theorem readsReady_step (ready : p.ReadsReady) (taken : p.step lib b ev = some p') : p'.ReadsReady ↔ MoreToRead p ev := by
  cases ev with
  | call call => exact readsReady_call ready taken
  | ptArrives d =>
    obtain ⟨s, arrived, rfl⟩ := Option.map_eq_some_iff.mp taken
    exact iff_of_true (fun read => Stream.ready_arrive arrived (ready read)) (.of_ne_call fun _ h => by cases h)
  | ptEnds how =>
    obtain ⟨s, closed, rfl⟩ := Option.map_eq_some_iff.mp taken
    exact iff_of_true (fun _ => Stream.ready_close closed) (.of_ne_call fun _ h => by cases h)
  | encArrives d =>
    obtain ⟨s, _, rfl⟩ := Option.map_eq_some_iff.mp taken
    exact iff_of_true ready (.of_ne_call fun _ h => by cases h)
  | encEnds how =>
    obtain ⟨s, _, rfl⟩ := Option.map_eq_some_iff.mp taken
    exact iff_of_true ready (.of_ne_call fun _ h => by cases h)

end

/-- In every run in which there is more to read whenever a frame has been sent, each `read` of the plaintext
    descriptor finds data or the end of the stream. The next step keeps that exactly if this is so again. -/
theorem plaintext_reads_ready (lib : OpenSsl) (b : Backend) (m : Mode) (keys : SessionKeys) (keepalive : Int64)
    (pt enc : Stream) (e₀ : Endpoint) (p : Proxy) (start : m.start b keys keepalive = some e₀)
    (run : Machine.Steps (Proxy.step lib b) (fun p ev _ => MoreToRead p ev) ⟨e₀, pt, enc⟩ p) :
    p.ReadsReady ∧ ∀ ev p', p.step lib b ev = some p' → (p'.ReadsReady ↔ MoreToRead p ev) := by
  have ready : p.ReadsReady := by
    refine run.invariant (fun read => ?_) fun ready taken more => (readsReady_step ready taken).mpr more
    obtain ⟨log, rfl, _⟩ := fresh_start start
    cases read
  exact ⟨ready, fun ev p' => readsReady_step ready⟩

/-! ### An idle peer -/

def silent : Stream := ⟨[], none⟩

/-- The server forwards the one byte that has come from the service, and a frame comes from the client. -/
def idleService : List ProxyEv :=
  [.call (.time 0), .call (.time 0), .call (.running true), .ptArrives [7], .call (.poll (.ready plaintextReady)),
    .call (.read (.data 7 [])), .call (.send (.took 21)), .encArrives byteWire]

/-- The frame of the client waits as long as the service says nothing: the only call that returns is the `read`
    when a signal interrupts it, and it is made again. -/
theorem idle_plaintext_blocks_frame :
    ∃ e₀ p, Mode.server.start .pureC bobKeys 0 = some e₀ ∧
      Machine.Steps (Proxy.step aliceBobSsl .pureC) (fun _ _ _ => True) ⟨e₀, silent, silent⟩ p ∧
      ¬ p.ReadsReady ∧ wireFraming.cut (p.ep.fr.rest ++ p.enc.queue) = some (byteWire, []) ∧
      ∀ call p', p.step aliceBobSsl .pureC (.call call) = some p' → p' = p := by
  obtain ⟨e₀, p, start, run, at_, idle, rest, queue⟩ : ∃ e₀ p, Mode.server.start .pureC bobKeys 0 = some e₀ ∧
      Machine.exec (Proxy.step aliceBobSsl .pureC) (fun _ _ _ => true) ⟨e₀, silent, silent⟩ idleService = some p ∧
      p.ep.pc = .read 1 plaintextReady ∧ p.pt.ready = false ∧ p.ep.fr.rest = [] ∧ p.enc.queue = byteWire :=
    ⟨_, _, rfl, rfl, rfl, rfl, rfl, rfl⟩
  refine ⟨e₀, p, start, .of_exec (fun _ _ _ => true) idleService (fun _ _ => trivial) run, fun ready => ?_, ?_, ?_⟩
  · rw [ready (by rw [at_]; rfl)] at idle
    cases idle
  · have built : frameBuild .pureC frameData flagNone [7] 1 aliceKeys.encKey = some byteWire := rfl
    rw [rest, queue]
    exact (congrArg _ (List.append_nil _).symm).trans (wireFraming.cut_message (message_frameBuild built) [])
  · intro call p' taken
    simp only [Proxy.step] at taken
    split at taken
    next allowed =>
      obtain ⟨e, stepped, rfl⟩ := Option.map_eq_some_iff.mp taken
      cases call with
      | read k =>
        obtain rfl := Stream.eintr_of_not_ready idle allowed
        simp only [step, at_] at stepped
        obtain rfl := Option.some.inj stepped
        simp only [readStep, Endpoint.readSince, Endpoint.recvdSince, List.drop_length]
        rfl
      | _ => simp only [step, at_] at stepped; cases stepped
    next => cases taken

/-- The service sends a byte and closes the connection. -/
def closingService : List ProxyEv :=
  [.call (.time 0), .call (.time 0), .call (.running true), .ptArrives [7], .call (.poll (.ready plaintextReady)),
    .call (.read (.data 7 [])), .ptEnds .eof, .call (.send (.took 21))]

/-- Whatever is sent, there is more to read. -/
def moreWhenSent (p : Proxy) : ProxyEv → Bool
  | .call (.send _) => p.pt.ready
  | _ => true

theorem moreToRead_of_moreWhenSent {p : Proxy} {ev : ProxyEv} (h : moreWhenSent p ev = true) : MoreToRead p ev := by
  rintro call rfl ⟨_, _, _, k, _, rfl, _⟩
  exact h

theorem plaintext_reads_ready_closing :
    ∃ e₀ p, Mode.server.start .pureC bobKeys 0 = some e₀ ∧
      Machine.exec (Proxy.step aliceBobSsl .pureC) (fun p ev _ => moreWhenSent p ev) ⟨e₀, silent, silent⟩
        closingService = some p ∧
      p.ep.pc.isRead = true ∧ p.ReadsReady :=
  ⟨_, _, rfl, rfl, rfl, (plaintext_reads_ready aliceBobSsl .pureC .server bobKeys 0 silent silent _ _ rfl
    (.of_exec (fun p ev _ => moreWhenSent p ev) closingService (fun _ => moreToRead_of_moreWhenSent) rfl)).1⟩

end AegisTunnel
