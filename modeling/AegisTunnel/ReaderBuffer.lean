import AegisTunnel.FrameReader
import AegisTunnel.Lib.Memory

/-! # The buffer of the frame reader in memory

`frame_reader_t` with the whole of its array, and with counters about which nothing is assumed: an
operation that would access memory outside of the array, or take a larger number from a smaller one, has
no result. -/

namespace AegisTunnel
open Octets

/-- A difference of two `size_t`; none where it would underflow. -/
def minus (a b : Nat) : Option Nat := if b ≤ a then some (a - b) else none

structure ReaderBuffer where
  buf : Octets
  bufLen : Nat
  bufOff : Nat
  eof : Bool
  size : buf.length = frameMaxWire

/-- How `fill_buffer` returns: with bytes of `recv`, interrupted, at the end of the stream or without
data, with a full buffer, on an error of `recv`. -/
inductive FillReturn where
  | data
  | interrupted
  | none
  | full
  | error
  deriving DecidableEq

def FillReturn.code : FillReturn → Fill
  | .data | .interrupted => .data
  | .none => .none
  | .full | .error => .error

/-- How `frame_reader_try_next` returns, with the length of the frame that it has passed. -/
inductive NextReturn where
  | more
  | error
  | frame (f : Frame) (totalFrame : Nat)
  deriving DecidableEq

def NextReturn.consumed : NextReturn → Nat
  | .frame _ totalFrame => totalFrame
  | _ => 0

namespace ReaderBuffer

/-- `frame_reader_init`. -/
def init : ReaderBuffer where
  buf := List.replicate frameMaxWire 0
  bufLen := 0
  bufOff := 0
  eof := false
  size := List.length_replicate

/-- The `n` bytes at `buf + off`. -/
def read (fr : ReaderBuffer) (off n : Nat) : Option Octets :=
  if off + n ≤ frameMaxWire then some (slice fr.buf off n) else none

def write (fr : ReaderBuffer) (off : Nat) (bytes : Octets) : Option ReaderBuffer :=
  if h : off + bytes.length ≤ frameMaxWire then
    some { fr with buf := poke fr.buf off bytes, size := by rw [length_poke (by rw [fr.size]; exact h), fr.size] }
  else none

def compact (fr : ReaderBuffer) : Option ReaderBuffer :=
  if fr.bufOff > 0 ∧ fr.bufOff < fr.bufLen then do
    let remaining ← minus fr.bufLen fr.bufOff
    let bytes ← fr.read fr.bufOff remaining
    let fr ← fr.write 0 bytes
    some { fr with bufLen := remaining, bufOff := 0 }
  else if fr.bufOff ≥ fr.bufLen then some { fr with bufLen := 0, bufOff := 0 }
  else some { fr with bufOff := 0 }

/-- `fill_buffer` and its public name `frame_reader_fill`, where `recv` finds `k`. -/
def fillBuffer (fr : ReaderBuffer) (k : Offer) : Option (FillReturn × ReaderBuffer) :=
  if fr.eof then some (.none, fr)
  else do
    let fr ← fr.compact
    let space ← minus frameMaxWire fr.bufLen
    if space = 0 then some (.full, fr)
    else do
      -- `recv` is given all of the range, however many bytes it finds.
      let _ ← fr.read fr.bufLen space
      match k with
      | .data _ _ => do
        let bytes := k.taken space
        let filled ← fr.write fr.bufLen bytes
        some (.data, { filled with bufLen := fr.bufLen + bytes.length })
      | .eof => some (.none, { fr with eof := true })
      | .eintr => some (.interrupted, fr)
      | .again => some (.none, fr)
      | .error => some (.error, fr)

/-- `frame_reader_try_next`. -/
def tryNext (b : Backend) (fr : ReaderBuffer) (nonceCtr : UInt64) (key : Block) : Option (NextReturn × ReaderBuffer) := do
  let held ← minus fr.bufLen fr.bufOff
  if held < frameHeaderLen then some (.more, fr)
  else do
    let hdr ← fr.read fr.bufOff frameHeaderLen
    let pLen := headerPayloadLen hdr
    if pLen > frameMaxPayload then some (.error, fr)
    else do
      let totalFrame := frameHeaderLen + pLen + aegisTagLen
      let held ← minus fr.bufLen fr.bufOff
      if held < totalFrame then some (.more, fr)
      else do
        let frame ← fr.read fr.bufOff totalFrame
        match frameParse b frame nonceCtr key with
        | .ok f => some (.frame f totalFrame, { fr with bufOff := fr.bufOff + totalFrame })
        | _ => some (.error, fr)

end ReaderBuffer

/-! ### Sequences of calls -/

inductive ReaderCall where
  | fill (k : Offer)
  | tryNext (nonceCtr : UInt64) (key : Block)

inductive ReaderReturn where
  | fill (r : FillReturn)
  | tryNext (r : NextReturn)
  deriving DecidableEq

/-- The reader with the bytes received so far, the number of those that the frames taken off made up, and
what the calls have returned. -/
structure ReaderLog where
  reader : ReaderBuffer
  received : Octets
  consumed : Nat
  returns : List ReaderReturn

namespace ReaderLog

def init : ReaderLog := ⟨.init, [], 0, []⟩

/-- What the stream loses to a call of `frame_reader_fill`: of the bytes that `recv` finds, as many as there is room for
beside those that are received and not yet consumed; and nothing once its end was seen. -/
def handed (s : ReaderLog) (k : Offer) : Octets :=
  if s.reader.eof then [] else k.taken (frameMaxWire - (s.received.length - s.consumed))

def step (b : Backend) (s : ReaderLog) : ReaderCall → Option ReaderLog
  | .fill k => (s.reader.fillBuffer k).map fun r =>
    ⟨r.2, s.received ++ s.handed k, s.consumed, s.returns ++ [.fill r.1]⟩
  | .tryNext nonceCtr key => (s.reader.tryNext b nonceCtr key).map fun r =>
    ⟨r.2, s.received, s.consumed + r.1.consumed, s.returns ++ [.tryNext r.1]⟩

def run (b : Backend) (s : ReaderLog) (calls : List ReaderCall) : Option ReaderLog := calls.foldlM (step b) s

end ReaderLog

/-- Each `frame_reader_fill` is the first call or follows a `frame_reader_try_next` that has returned 0. -/
def FillsAfterMore (returns : List ReaderReturn) : Prop :=
  returns.IsChain fun before after => ∀ r, after = .fill r → before = .tryNext .more

end AegisTunnel
