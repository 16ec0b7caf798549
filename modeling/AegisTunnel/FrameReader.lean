import AegisTunnel.Frame
import AegisTunnel.Io

/-! # The buffered frame reader (`src/protocol/frame_reader.c`)

A reader keeps the received bytes in a buffer as long as the longest frame and takes complete frames off
its front. -/

namespace AegisTunnel
open Octets

/-- `frame_reader_t`: `buf` is the used part of the buffer, whose length is `buf_len`. -/
structure FrameReader where
  buf : Octets
  bufOff : Nat
  eof : Bool
  off_le : bufOff ≤ buf.length
  len_le : buf.length ≤ frameMaxWire

/-- The return codes 1, 0 and -1 of `fill_buffer`. -/
inductive Fill where
  | data
  | none
  | error
  deriving DecidableEq

def frameReaderInit : FrameReader where
  buf := []
  bufOff := 0
  eof := false
  off_le := Nat.le_refl 0
  len_le := Nat.zero_le _

namespace FrameReader

def rest (fr : FrameReader) : Octets := fr.buf.drop fr.bufOff

def space (fr : FrameReader) : Nat := frameMaxWire - fr.buf.length

def compact (fr : FrameReader) : FrameReader :=
  if fr.bufOff > 0 ∧ fr.bufOff < fr.buf.length then
    { fr with
      buf := fr.buf.drop fr.bufOff
      bufOff := 0
      off_le := Nat.zero_le _
      len_le := by have := fr.len_le; rw [List.length_drop]; omega }
  else if fr.bufOff ≥ fr.buf.length then
    { fr with buf := [], bufOff := 0, off_le := Nat.le_refl 0, len_le := Nat.zero_le _ }
  else { fr with bufOff := 0, off_le := Nat.zero_le _ }

def append (fr : FrameReader) (k : Offer) : FrameReader :=
  { fr with
    buf := fr.buf ++ k.taken fr.space
    off_le := by have := fr.off_le; rw [List.length_append]; omega
    len_le := by
      have := fr.len_le
      cases k <;> simp [Offer.taken, space] <;> omega }

/-- Whether `fill_buffer` calls `recv`: not after the end of the stream, nor with a full buffer. -/
def recvs (fr : FrameReader) : Bool := !fr.eof && fr.compact.space != 0

/-- `fill_buffer` and its public name `frame_reader_fill`, where `recv` finds `k`. -/
def fillBuffer (fr : FrameReader) (k : Offer) : Fill × FrameReader :=
  if fr.eof then (.none, fr)
  else
    let fr := fr.compact
    if fr.space = 0 then (.error, fr)
    else match k with
      | .data _ _ => (.data, fr.append k)
      | .eof => (.none, { fr with eof := true })
      -- Interrupted: the caller is to try again.
      | .eintr => (.data, fr)
      | .again => (.none, fr)
      | .error => (.error, fr)

end FrameReader

/-- The return codes 0, -1 and 1 of `frame_reader_try_next`, the last with the frame and the reader
    after it. -/
inductive TryNext where
  | more
  | error
  | frame (f : Frame) (fr : FrameReader)

def frameReaderTryNext (b : Backend) (fr : FrameReader) (nonceCtr : UInt64) (key : Block) : TryNext :=
  if fr.buf.length - fr.bufOff < frameHeaderLen then .more
  else
    let hdr := fr.buf.drop fr.bufOff
    let pLen := headerPayloadLen hdr
    if pLen > frameMaxPayload then .error
    else
      let totalFrame := frameHeaderLen + pLen + aegisTagLen
      if h : fr.buf.length - fr.bufOff < totalFrame then .more
      else match frameParse b (hdr.take totalFrame) nonceCtr key with
        | .ok f => .frame f { fr with bufOff := fr.bufOff + totalFrame, off_le := by have := fr.off_le; omega }
        | _ => .error

/-! ### Reading from a queue -/

/-- One `recv` on a socket whose further answers are `q`: what it finds, and the queue afterwards. Bytes
    without room stay at its front; after the last answer the stream is at its end. -/
def recvFrom (q : List Offer) (space : Nat) : Offer × List Offer :=
  match q with
  | [] => (.eof, [])
  | .data b bs :: q =>
    (.data b bs, match (b :: bs).drop space with
      | [] => q
      | c :: cs => .data c cs :: q)
  | k :: q => (k, q)

def fillFrom (fr : FrameReader) (q : List Offer) : Fill × FrameReader × List Offer :=
  if fr.recvs then
    let r := recvFrom q fr.compact.space
    let f := fr.fillBuffer r.1
    (f.1, f.2, r.2)
  else
    let f := fr.fillBuffer .eof
    (f.1, f.2, q)

def queueWeight : List Offer → Nat
  | [] => 0
  | .data _ bs :: q => bs.length + 2 + queueWeight q
  | _ :: q => 1 + queueWeight q

/-- Each round that goes on has taken something from the socket. -/
theorem fillFrom_weight {fr fr' : FrameReader} {q q' : List Offer} (h : fillFrom fr q = (.data, fr', q')) :
    queueWeight q' < queueWeight q := by
  unfold fillFrom at h
  split at h
  next hr =>
    simp only [FrameReader.recvs, Bool.and_eq_true, Bool.not_eq_true', bne_iff_ne] at hr
    simp only [FrameReader.fillBuffer, hr.1, Bool.false_eq_true, if_false, if_neg hr.2] at h
    cases q with
    | nil => simp [recvFrom] at h
    | cons k q =>
      cases k with
      | data b bs =>
        have hlen : ((b :: bs).drop fr.compact.space).length < bs.length + 1 := by
          rw [List.length_drop, List.length_cons]
          omega
        simp only [recvFrom, Prod.mk.injEq, true_and] at h
        rw [← h.2]
        split
        next => simp only [queueWeight]; omega
        next c cs hc =>
          rw [hc, List.length_cons] at hlen
          simp only [queueWeight]
          omega
      | eof => simp [recvFrom] at h
      | eintr =>
        simp only [recvFrom, Prod.mk.injEq, true_and] at h
        rw [← h.2]
        simp [queueWeight]
      | again => simp [recvFrom] at h
      | error => simp [recvFrom] at h
  next hr =>
    simp only [FrameReader.fillBuffer] at h
    split at h
    next => simp at h
    next heof =>
      have hspace : fr.compact.space = 0 := by simpa [FrameReader.recvs, heof] using hr
      simp [hspace] at h

/-- The return codes 0, -1 and 1 of `frame_reader_next`. -/
inductive Next where
  | eof
  | error
  | frame (f : Frame)
  deriving DecidableEq

/-- `frame_reader_next` on a socket with the answers `q`. -/
def frameReaderNext (b : Backend) (fr : FrameReader) (q : List Offer) (nonceCtr : UInt64) (key : Block) :
    Next × FrameReader × List Offer :=
  match frameReaderTryNext b fr nonceCtr key with
  | .frame f fr' => (.frame f, fr', q)
  | .error => (.error, fr, q)
  | .more =>
    match h : fillFrom fr q with
    | (.error, fr', q') => (.error, fr', q')
    | (.none, fr', q') =>
      -- The end of the stream: bytes that are left are a truncated frame.
      (if fr'.buf.length - fr'.bufOff > 0 then .error else .eof, fr', q')
    | (.data, fr', q') =>
      have : queueWeight q' < queueWeight q := fillFrom_weight h
      frameReaderNext b fr' q' nonceCtr key
  termination_by queueWeight q

/-- The loop that the header shows for callers, over at most `k` calls: `frame_reader_next` with the
    counters `n`, `n + 1`, ... until a call returns no frame. -/
def nextLoop (b : Backend) (key : Block) : Nat → FrameReader → List Offer → UInt64 → List Next
  | 0, _, _, _ => []
  | k + 1, fr, q, n =>
    match frameReaderNext b fr q n key with
    | (.frame f, fr', q') => .frame f :: nextLoop b key k fr' q' (n + 1)
    | (ret, _, _) => [ret]

end AegisTunnel
