import AegisTunnel.FrameReader
import AegisTunnel.Lib.Framing
import AegisTunnel.Theorems.Frame

/-! The frame reader does not depend on how a stream arrives: reading frame after frame is the greedy
    parse of the whole stream. -/

namespace AegisTunnel
open Octets

/-! ### Frames of a stream -/

/-- The first four bytes of a frame announce its length on the wire. -/
def wireSize (s : Octets) : Option Nat :=
  if s.length < frameHeaderLen then none else some (frameHeaderLen + headerPayloadLen s + aegisTagLen)

theorem wireSize_pos {s : Octets} {n : Nat} (h : wireSize s = some n) : 0 < n := by
  unfold wireSize at h
  split at h
  · cases h
  · simp only [Option.some.injEq, frameHeaderLen] at h
    omega

theorem wireSize_append {s : Octets} {n : Nat} (h : wireSize s = some n) (t : Octets) : wireSize (s ++ t) = some n := by
  unfold wireSize at h ⊢
  split at h
  · cases h
  next hlen =>
    simp only [frameHeaderLen, not_lt] at hlen
    rw [if_neg (by rw [List.length_append, frameHeaderLen]; omega), ← h]
    have hget : ∀ i, i < 4 → (s ++ t).getD i 0 = s.getD i 0 := fun i hi => by
      rw [List.getD_eq_getElem?_getD, List.getElem?_append_left (by omega), List.getD_eq_getElem?_getD]
    rw [headerPayloadLen, headerPayloadLen, hget 2 (by decide), hget 3 (by decide)]

def wireFraming : Framing UInt8 := ⟨wireSize, wireSize_pos, wireSize_append⟩

theorem message_frameBuild {b : Backend} {type flags : UInt8} {d w : Octets} {ctr : UInt64} {key : Block}
    (h : frameBuild b type flags d ctr key = some w) : wireFraming.Message w := by
  have hlen : w.length = frameHeaderLen + headerPayloadLen w + aegisTagLen := by
    apply frameParse_length (b := b)
    rw [frameParse_frameBuild h]
    exact ParseOut.noConfusion
  have h4 : ¬ w.length < frameHeaderLen := by omega
  show (if _ then _ else _) = _
  rw [if_neg h4, ← hlen]

/-- `frame_parse` as an acceptance test that steps the counter. -/
def acceptFrame (b : Backend) (key : Block) (n : UInt64) (w : Octets) : Option (Frame × UInt64) :=
  match frameParse b w n key with
  | .ok f => some (f, n + 1)
  | _ => none

/-- The greedy left-to-right parse of a stream: a result for each frame, then -1 at a frame that fails or
    is truncated, or 0 at the end of the stream. -/
def greedyParse (b : Backend) (key : Block) (n : UInt64) (s : Octets) : List Next :=
  let p := wireFraming.parse (acceptFrame b key) n s
  p.1.map .frame ++ [match p.2 with
    | .clean => .eof
    | .truncated => .error
    | .refused => .error]

/-! ### One call of `frame_reader_try_next` -/

namespace FrameReader
variable {fr fr' : FrameReader}

theorem length_rest (fr : FrameReader) : fr.rest.length = fr.buf.length - fr.bufOff := List.length_drop

@[simp] theorem rest_compact (fr : FrameReader) : fr.compact.rest = fr.rest := by
  unfold compact
  split
  · simp [rest]
  · split
    next h => simp [rest, List.drop_of_length_le h]
    next h1 h2 =>
      have hoff : fr.bufOff = 0 := by omega
      simp [rest, hoff]

@[simp] theorem eof_compact (fr : FrameReader) : fr.compact.eof = fr.eof := by
  unfold compact
  split
  · rfl
  · split <;> rfl

theorem buf_compact (fr : FrameReader) : fr.compact.buf = fr.rest := by
  unfold compact
  split
  · rfl
  · split
    next h => simp [rest, List.drop_of_length_le h]
    next h1 h2 =>
      have hoff : fr.bufOff = 0 := by omega
      simp [rest, hoff]

theorem rest_append (fr : FrameReader) (k : Offer) :
    (fr.compact.append k).rest = fr.rest ++ k.taken fr.compact.space := by
  have hoff := fr.compact.off_le
  simp only [append, rest] at *
  rw [List.drop_append_of_le_length hoff]
  congr 1
  exact rest_compact fr

end FrameReader

section TryNext
variable {b : Backend} {fr fr' : FrameReader} {n : UInt64} {key : Block} {f : Frame} {w r : Octets}

theorem tryNext_of_cut (h : wireFraming.cut fr.rest = some (w, r)) :
    (∃ f fr', frameReaderTryNext b fr n key = .frame f fr' ∧ frameParse b w n key = .ok f ∧ fr'.rest = r ∧
      fr'.eof = fr.eof) ∨
    frameReaderTryNext b fr n key = .error ∧ acceptFrame b key n w = none := by
  obtain ⟨hsize, hrest⟩ := Framing.cut_eq_some_iff.mp h
  simp only [wireFraming, wireSize] at hsize
  split at hsize
  next => cases hsize
  next hhdr =>
    rw [FrameReader.length_rest] at hhdr
    have htotal : frameHeaderLen + headerPayloadLen fr.rest + aegisTagLen = w.length := Option.some.inj hsize
    have hlen : ¬ fr.buf.length - fr.bufOff < w.length := by
      rw [← FrameReader.length_rest, hrest, List.length_append]
      omega
    have htake : fr.rest.take w.length = w := by rw [hrest, List.take_left]
    unfold frameReaderTryNext
    simp only [if_neg hhdr, if_neg (Nat.not_lt.mpr (headerPayloadLen_le _))]
    simp only [← FrameReader.rest.eq_def, htotal, htake, dif_neg hlen]
    split
    next f hf =>
      refine Or.inl ⟨f, _, rfl, hf, ?_, rfl⟩
      show fr.buf.drop (fr.bufOff + w.length) = r
      rw [← List.drop_drop, ← FrameReader.rest.eq_def, hrest, List.drop_left]
    next hf =>
      refine Or.inr ⟨rfl, ?_⟩
      unfold acceptFrame
      split
      next f hok => exact absurd hok (hf f)
      next => rfl

theorem tryNext_of_cut_none (h : wireFraming.cut fr.rest = none) : frameReaderTryNext b fr n key = .more := by
  unfold frameReaderTryNext
  split
  next => rfl
  next hhdr =>
    simp only [if_neg (Nat.not_lt.mpr (headerPayloadLen_le _))]
    split
    next => rfl
    next hlen =>
      rw [← FrameReader.length_rest] at hhdr hlen
      simp only [Framing.cut, wireFraming, wireSize, if_neg hhdr] at h
      rw [← FrameReader.rest.eq_def] at hlen
      rw [if_neg hlen] at h
      cases h

/-- A reader that waits for more bytes has room for them: no frame is longer than the buffer. -/
theorem space_of_cut_none (h : wireFraming.cut fr.rest = none) : fr.compact.space ≠ 0 := by
  have hle := headerPayloadLen_le fr.rest
  have hmax : frameMaxWire = frameHeaderLen + frameMaxPayload + aegisTagLen := rfl
  intro hfull
  rw [FrameReader.space, FrameReader.buf_compact] at hfull
  have hhdr : ¬ fr.rest.length < frameHeaderLen := by omega
  simp only [Framing.cut, wireFraming, wireSize, if_neg hhdr] at h
  rw [if_neg (by omega)] at h
  cases h

end TryNext

/-! ### A stream that arrives in chunks -/

/-- A blocking `recv` before the end of the stream: a non-empty chunk, or `EINTR`. -/
inductive Delivery where
  | chunk (b : UInt8) (bs : Octets)
  | eintr

def Delivery.offer : Delivery → Offer
  | .chunk b bs => .data b bs
  | .eintr => .eintr

def deliveredBytes : List Delivery → Octets
  | [] => []
  | .chunk b bs :: ds => b :: bs ++ deliveredBytes ds
  | .eintr :: ds => deliveredBytes ds

/-- Filling from a stream that goes on keeps the bytes in order: what the reader gains is what the
    deliveries lose. -/
theorem fillFrom_delivery {fr : FrameReader} {d : Delivery} {ds : List Delivery} (heof : fr.eof = false)
    (hspace : fr.compact.space ≠ 0) :
    ∃ fr' ds', fillFrom fr ((d :: ds).map Delivery.offer) = (.data, fr', ds'.map Delivery.offer) ∧ fr'.eof = false ∧
      fr'.rest ++ deliveredBytes ds' = fr.rest ++ deliveredBytes (d :: ds) := by
  have hrecvs : fr.recvs = true := by simp [FrameReader.recvs, heof, hspace]
  simp only [fillFrom, hrecvs, if_true, FrameReader.fillBuffer, heof, Bool.false_eq_true, if_false, if_neg hspace]
  cases d with
  | eintr =>
    exact ⟨fr.compact, ds, rfl, by rw [FrameReader.eof_compact, heof], by rw [FrameReader.rest_compact, deliveredBytes]⟩
  | chunk b bs =>
    have heof' : (fr.compact.append (.data b bs)).eof = false := (FrameReader.eof_compact fr).trans heof
    have hrest := FrameReader.rest_append fr (.data b bs)
    simp only [Offer.taken] at hrest
    have hsplit := List.take_append_drop fr.compact.space (b :: bs)
    -- Bytes without room go back to the front of the deliveries.
    cases hdrop : (b :: bs).drop fr.compact.space with
    | nil =>
      refine ⟨_, ds, by simp [recvFrom, Delivery.offer, hdrop], heof', ?_⟩
      rw [hdrop, List.append_nil] at hsplit
      rw [hrest, hsplit, List.append_assoc]
      rfl
    | cons c cs =>
      refine ⟨_, .chunk c cs :: ds, by simp [recvFrom, Delivery.offer, hdrop], heof', ?_⟩
      rw [hdrop] at hsplit
      rw [hrest, List.append_assoc]
      show fr.rest ++ (_ ++ ((c :: cs) ++ deliveredBytes ds)) = fr.rest ++ ((b :: bs) ++ deliveredBytes ds)
      rw [← List.append_assoc (List.take _ _), hsplit]

theorem fillFrom_end {fr : FrameReader} (hspace : fr.compact.space ≠ 0) :
    ∃ fr', fillFrom fr [] = (.none, fr', []) ∧ fr'.rest = fr.rest := by
  cases heof : fr.eof with
  | true => exact ⟨fr, by simp [fillFrom, FrameReader.recvs, FrameReader.fillBuffer, heof], rfl⟩
  | false =>
    refine ⟨{ fr.compact with eof := true }, ?_, FrameReader.rest_compact fr⟩
    simp [fillFrom, FrameReader.recvs, FrameReader.fillBuffer, heof, hspace, recvFrom]

section Next
variable (b : Backend) (key : Block) (n : UInt64) {fr : FrameReader} {ds : List Delivery} {w r : Octets}

/-- Without a complete frame in the buffer, a round takes a delivery and goes on with the same stream. -/
theorem frameReaderNext_more {d : Delivery} (hcut : wireFraming.cut fr.rest = none) (heof : fr.eof = false) :
    ∃ fr' ds', frameReaderNext b fr ((d :: ds).map Delivery.offer) n key =
        frameReaderNext b fr' (ds'.map Delivery.offer) n key ∧ fr'.eof = false ∧
      fr'.rest ++ deliveredBytes ds' = fr.rest ++ deliveredBytes (d :: ds) ∧
      queueWeight (ds'.map Delivery.offer) < queueWeight ((d :: ds).map Delivery.offer) := by
  obtain ⟨fr', ds', hfill, heof', hstream⟩ := fillFrom_delivery heof (space_of_cut_none hcut)
  refine ⟨fr', ds', ?_, heof', hstream, fillFrom_weight hfill⟩
  rw [frameReaderNext, tryNext_of_cut_none hcut]
  dsimp only
  split
  next h => rw [hfill] at h; cases h
  next h => rw [hfill] at h; cases h
  next h =>
    rw [hfill] at h
    cases h
    rfl

theorem frameReaderNext_end (hcut : wireFraming.cut fr.rest = none) :
    (frameReaderNext b fr [] n key).1 = if fr.rest.isEmpty then .eof else .error := by
  obtain ⟨fr', hfill, hrest⟩ := fillFrom_end (space_of_cut_none hcut)
  rw [frameReaderNext, tryNext_of_cut_none hcut]
  dsimp only
  split
  next h => rw [hfill] at h; cases h
  next h =>
    rw [hfill] at h
    cases h
    rw [← FrameReader.length_rest, hrest]
    cases fr.rest <;> rfl
  next h => rw [hfill] at h; cases h

theorem frameReaderNext_of_cut_rest (hend : fr.eof = false ∨ ds = []) (hcut : wireFraming.cut fr.rest = some (w, r)) :
    (∃ f fr', frameReaderNext b fr (ds.map Delivery.offer) n key = (.frame f, fr', ds.map Delivery.offer) ∧
      acceptFrame b key n w = some (f, n + 1) ∧ fr'.rest = r ∧ (fr'.eof = false ∨ ds = [])) ∨
    (frameReaderNext b fr (ds.map Delivery.offer) n key).1 = .error ∧ acceptFrame b key n w = none := by
  rcases tryNext_of_cut (b := b) (n := n) hcut with ⟨f, fr', hnext, hparse, hrest, heof⟩ | ⟨hnext, hacc⟩
  · refine Or.inl ⟨f, fr', ?_, ?_, hrest, heof ▸ hend⟩
    · rw [frameReaderNext, hnext]
    · rw [acceptFrame, hparse]
  · refine Or.inr ⟨?_, hacc⟩
    rw [frameReaderNext, hnext]

/-- A call on a stream with a complete first frame returns that frame, or -1 if it is refused. -/
theorem frameReaderNext_of_cut (hend : fr.eof = false ∨ ds = [])
    (hcut : wireFraming.cut (fr.rest ++ deliveredBytes ds) = some (w, r)) :
    (∃ f fr' ds', frameReaderNext b fr (ds.map Delivery.offer) n key = (.frame f, fr', ds'.map Delivery.offer) ∧
      acceptFrame b key n w = some (f, n + 1) ∧ fr'.rest ++ deliveredBytes ds' = r ∧ (fr'.eof = false ∨ ds' = [])) ∨
    (frameReaderNext b fr (ds.map Delivery.offer) n key).1 = .error ∧ acceptFrame b key n w = none := by
  -- Each round before the frame is complete takes a delivery or a part of one, so what is left weighs less.
  induction hm : queueWeight (ds.map Delivery.offer) using Nat.strong_induction_on generalizing fr ds with
  | _ m ih =>
    subst hm
    cases hrest : wireFraming.cut fr.rest with
    | some p =>
      have hall := Framing.cut_append hrest (deliveredBytes ds)
      rw [hcut] at hall
      cases hall
      rcases frameReaderNext_of_cut_rest b key n hend hrest with ⟨f, fr', hnext, hacc, hr, hend'⟩ | hbad
      · exact Or.inl ⟨f, fr', ds, hnext, hacc, by rw [hr], hend'⟩
      · exact Or.inr hbad
    | none =>
      cases ds with
      | nil =>
        rw [deliveredBytes, List.append_nil, hrest] at hcut
        cases hcut
      | cons d ds =>
        have heof : fr.eof = false := hend.resolve_right (List.cons_ne_nil _ _)
        obtain ⟨fr', ds', hstep, heof', hstream, hlt⟩ := frameReaderNext_more b key n hrest heof
        rw [hstep]
        exact ih _ hlt (Or.inl heof') (hstream ▸ hcut) rfl

/-- A call on a stream without a complete first frame returns 0 if the stream is empty and -1 otherwise. -/
theorem frameReaderNext_of_cut_none (hend : fr.eof = false ∨ ds = [])
    (hcut : wireFraming.cut (fr.rest ++ deliveredBytes ds) = none) :
    (frameReaderNext b fr (ds.map Delivery.offer) n key).1 =
      if (fr.rest ++ deliveredBytes ds).isEmpty then .eof else .error := by
  induction hm : queueWeight (ds.map Delivery.offer) using Nat.strong_induction_on generalizing fr ds with
  | _ m ih =>
    subst hm
    have hrest : wireFraming.cut fr.rest = none := by
      cases h : wireFraming.cut fr.rest with
      | none => rfl
      | some p => rw [Framing.cut_append h] at hcut; cases hcut
    cases ds with
    | nil =>
      rw [deliveredBytes, List.append_nil]
      exact frameReaderNext_end b key n hrest
    | cons d ds =>
      have heof : fr.eof = false := hend.resolve_right (List.cons_ne_nil _ _)
      obtain ⟨fr', ds', hstep, heof', hstream, hlt⟩ := frameReaderNext_more b key n hrest heof
      rw [hstep, ← hstream]
      exact ih _ hlt (Or.inl heof') (hstream ▸ hcut) rfl

/-- Reading on from any reader is the greedy parse of what it still has before it. -/
theorem nextLoop_eq (k : Nat) (hend : fr.eof = false ∨ ds = []) :
    nextLoop b key k fr (ds.map Delivery.offer) n = (greedyParse b key n (fr.rest ++ deliveredBytes ds)).take k := by
  induction k generalizing fr ds n with
  | zero => rfl
  | succ k ih =>
    unfold nextLoop greedyParse
    cases hcut : wireFraming.cut (fr.rest ++ deliveredBytes ds) with
    | none =>
      have hret := frameReaderNext_of_cut_none b key n hend hcut
      rw [Framing.parse_of_cut_none hcut]
      split
      next h => rw [h] at hret; split at hret <;> cases hret
      next ret _ _ _ h =>
        rw [h] at hret
        dsimp only at hret ⊢
        subst hret
        split <;> simp
    | some p =>
      obtain ⟨w, r⟩ := p
      rcases frameReaderNext_of_cut b key n hend hcut with
        ⟨f, fr', ds', hnext, hacc, hstream, hend'⟩ | ⟨hret, hacc⟩
      · rw [hnext, Framing.parse_of_accepted hcut hacc]
        dsimp only
        rw [ih (n + 1) hend', hstream]
        rfl
      · rw [Framing.parse_of_refused hcut hacc]
        split
        next h => rw [h] at hret; cases hret
        next ret _ _ _ h =>
          rw [h] at hret
          dsimp only at hret
          subst hret
          simp

end Next

/-- Chunking independence: for every stream and every way it arrives in chunks with interruptions between
    them, calling `frame_reader_next` with the counters `n`, `n + 1`, ... returns the results of the greedy
    parse of the whole stream, one after the other and to the last. -/
theorem nextLoop_init (b : Backend) (key : Block) (n : UInt64) (ds : List Delivery) (k : Nat) :
    nextLoop b key k frameReaderInit (ds.map Delivery.offer) n = (greedyParse b key n (deliveredBytes ds)).take k :=
  nextLoop_eq b key n k (Or.inl rfl)

end AegisTunnel
