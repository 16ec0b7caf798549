import AegisTunnel.ReaderBuffer
import AegisTunnel.Theorems.FrameReader

/-! # The buffer of the frame reader is safe

The reader in memory is the reader of the stream (`FrameReader`): the used part of the array is its buffer.
So no operation of it faults, and what holds for the stream holds for the array. -/

namespace AegisTunnel
open Octets

theorem minus_of_le {a b : Nat} (h : b ≤ a) : minus a b = some (a - b) := if_pos h

theorem headerPayloadLen_take {bytes : Octets} {n : Nat} (h : frameHeaderLen ≤ n) :
    headerPayloadLen (bytes.take n) = headerPayloadLen bytes := by
  have hget : ∀ i < frameHeaderLen, (bytes.take n).getD i 0 = bytes.getD i 0 := by
    intro i hi
    rw [List.getD_eq_getElem?_getD, List.getD_eq_getElem?_getD, List.getElem?_take_of_lt (by omega)]
  rw [headerPayloadLen, headerPayloadLen, hget 2 (by decide), hget 3 (by decide)]

theorem Offer.taken_zero (k : Offer) : k.taken 0 = [] := by cases k <;> rfl

/-- A reader that returns 0 has no whole frame. -/
theorem cut_eq_none_of_more {b : Backend} {fr : FrameReader} {n : UInt64} {key : Block}
    (h : frameReaderTryNext b fr n key = .more) : wireFraming.cut fr.rest = none := by
  cases hcut : wireFraming.cut fr.rest with
  | none => rfl
  | some wr =>
    obtain ⟨w, r⟩ := wr
    rcases tryNext_of_cut hcut with ⟨f, fr', hframe, -⟩ | ⟨herror, -⟩
    · cases h.symm.trans hframe
    · cases h.symm.trans herror

theorem FrameReader.bufOff_compact (fr : FrameReader) : fr.compact.bufOff = 0 := by
  unfold compact
  split
  · rfl
  · split <;> rfl

namespace ReaderBuffer

/-- The memory holds the state of a reader. -/
structure Holds (m : ReaderBuffer) (fr : FrameReader) : Prop where
  buf : m.buf.take m.bufLen = fr.buf
  len : m.bufLen = fr.buf.length
  off : m.bufOff = fr.bufOff
  eof : m.eof = fr.eof

variable {m m' : ReaderBuffer} {fr : FrameReader}

namespace Holds

theorem init_holds : Holds .init frameReaderInit := ⟨rfl, rfl, rfl, rfl⟩

theorem off_le (h : Holds m fr) : m.bufOff ≤ m.bufLen := by
  rw [h.off, h.len]
  exact fr.off_le

theorem len_le (h : Holds m fr) : m.bufLen ≤ frameMaxWire := by
  rw [h.len]
  exact fr.len_le

theorem slice_eq (h : Holds m fr) {n : Nat} (hn : n ≤ m.bufLen - m.bufOff) : slice m.buf m.bufOff n = fr.rest.take n := by
  rw [FrameReader.rest, ← h.buf, ← h.off, List.drop_take, List.take_take, Nat.min_eq_left hn, slice]

theorem held (h : Holds m fr) : minus m.bufLen m.bufOff = some fr.rest.length := by
  rw [minus_of_le h.off_le, FrameReader.length_rest, h.len, h.off]

/-- What the reader has can be read. -/
theorem read_eq (h : Holds m fr) {n : Nat} (hn : n ≤ fr.rest.length) : m.read m.bufOff n = some (fr.rest.take n) := by
  have hlen := h.len_le
  have hoff := h.off_le
  rw [FrameReader.length_rest, ← h.len, ← h.off] at hn
  rw [read, if_pos (by omega), h.slice_eq hn]

/-- `compact` keeps what the reader has. -/
theorem compact_holds (h : Holds m fr) : ∃ m', m.compact = some m' ∧ Holds m' fr.compact := by
  have moved : ∀ m' : ReaderBuffer, m'.buf.take m'.bufLen = fr.rest → m'.bufLen = fr.rest.length → m'.bufOff = 0 →
      m'.eof = m.eof → Holds m' fr.compact := by
    intro m' hbuf hlen hoff heof
    rw [← fr.buf_compact] at hbuf hlen
    exact ⟨hbuf, hlen, hoff.trans fr.bufOff_compact.symm, heof.trans (h.eof.trans fr.eof_compact.symm)⟩
  have hrest : fr.rest.length = m.bufLen - m.bufOff := by rw [FrameReader.length_rest, h.len, h.off]
  unfold compact
  by_cases inside : m.bufOff > 0 ∧ m.bufOff < m.bufLen
  · have hall : fr.rest.take fr.rest.length = fr.rest := List.take_length
    have hwrite : 0 + fr.rest.length ≤ frameMaxWire := by
      have hlen := h.len_le
      omega
    simp only [if_pos inside, h.held, h.read_eq (Nat.le_refl _), hall, write, dif_pos hwrite, Option.bind_eq_bind,
      Option.bind_some]
    have hfront : slice (poke m.buf 0 fr.rest) 0 fr.rest.length = fr.rest :=
      slice_poke rfl (by rw [m.size]; exact hwrite)
    exact ⟨_, rfl, moved _ hfront rfl rfl rfl⟩
  · simp only [if_neg inside]
    by_cases past : m.bufOff ≥ m.bufLen
    · simp only [if_pos past]
      have hnil : fr.rest = [] := List.eq_nil_of_length_eq_zero (by omega)
      exact ⟨_, rfl, moved _ (by rw [hnil]; rfl) (by rw [hnil]; rfl) rfl rfl⟩
    · simp only [if_neg past]
      have hzero : fr.bufOff = 0 := by rw [← h.off]; omega
      have hrest : fr.rest = fr.buf := by rw [FrameReader.rest, hzero, List.drop_zero]
      exact ⟨_, rfl, moved _ (hrest ▸ h.buf) (hrest ▸ h.len) rfl rfl⟩

/-- What `recv` finds is appended. -/
theorem append_holds (h : Holds m fr) (k : Offer) :
    ∃ filled, m.write m.bufLen (k.taken fr.space) = some filled ∧
      Holds { filled with bufLen := m.bufLen + (k.taken fr.space).length } (fr.append k) := by
  have hlen := (fr.append k).len_le
  rw [FrameReader.append, List.length_append, ← h.len] at hlen
  have hbound : m.bufLen ≤ m.buf.length := by rw [m.size]; exact h.len_le
  refine ⟨_, dif_pos hlen, ?_, ?_, h.off, h.eof⟩
  · exact (take_poke hbound).trans (by rw [h.buf]; rfl)
  · show m.bufLen + _ = (fr.buf ++ _).length
    rw [List.length_append, h.len]

/-- `fill_buffer` in memory is `fill_buffer` on the stream. It leaves nothing of what it has room for. -/
theorem fillBuffer_holds (h : Holds m fr) (k : Offer) :
    ∃ r m', m.fillBuffer k = some (r, m') ∧ r.code = (fr.fillBuffer k).1 ∧ Holds m' (fr.fillBuffer k).2 ∧
      (fr.fillBuffer k).2.rest = fr.rest ++ (if m.eof then [] else k.taken (frameMaxWire - fr.rest.length)) ∧
      (r = .full → fr.compact.space = 0) := by
  unfold fillBuffer FrameReader.fillBuffer
  rw [h.eof]
  cases heof : fr.eof with
  | true => exact ⟨_, _, rfl, rfl, h, (List.append_nil _).symm, fun hfull => by cases hfull⟩
  | false =>
  have hroom : frameMaxWire - fr.rest.length = fr.compact.space := by rw [FrameReader.space, fr.buf_compact]
  obtain ⟨c, hc, hold⟩ := h.compact_holds
  have hspace : minus frameMaxWire c.bufLen = some fr.compact.space := by
    rw [minus_of_le hold.len_le, FrameReader.space, hold.len]
  simp only [Bool.false_eq_true, if_false, hc, hspace, Option.bind_eq_bind, Option.bind_some]
  by_cases hfull : fr.compact.space = 0
  · simp only [hroom, hfull, if_true, Offer.taken_zero]
    exact ⟨_, _, rfl, rfl, hold, by rw [FrameReader.rest_compact]; exact (List.append_nil _).symm, fun _ => trivial⟩
  have hrange : c.read c.bufLen fr.compact.space = some (slice c.buf c.bufLen fr.compact.space) := by
    have hlen := hold.len_le
    rw [read, if_pos]
    rw [FrameReader.space, ← hold.len]
    omega
  simp only [hroom, hfull, if_false, hrange, Option.bind_some]
  have hrest : fr.compact.rest = fr.rest ++ [] := by rw [FrameReader.rest_compact, List.append_nil]
  cases k with
  | data x xs =>
    obtain ⟨filled, hwrite, happend⟩ := hold.append_holds (.data x xs)
    simp only [hwrite, Option.bind_some]
    exact ⟨_, _, rfl, rfl, happend, FrameReader.rest_append fr _, fun hr => by cases hr⟩
  | eof => exact ⟨_, _, rfl, rfl, ⟨hold.buf, hold.len, hold.off, rfl⟩, hrest, fun hr => by cases hr⟩
  | eintr => exact ⟨_, _, rfl, rfl, hold, hrest, fun hr => by cases hr⟩
  | again => exact ⟨_, _, rfl, rfl, hold, hrest, fun hr => by cases hr⟩
  | error => exact ⟨_, _, rfl, rfl, hold, hrest, fun hr => by cases hr⟩

/-- `frame_reader_try_next` in memory is `frame_reader_try_next` on the stream. -/
theorem tryNext_holds (h : Holds m fr) (b : Backend) (n : UInt64) (key : Block) :
    (m.tryNext b n key = some (.more, m) ∧ frameReaderTryNext b fr n key = .more) ∨
    (m.tryNext b n key = some (.error, m) ∧ frameReaderTryNext b fr n key = .error) ∨
    ∃ f total m' fr', m.tryNext b n key = some (.frame f total, m') ∧ frameReaderTryNext b fr n key = .frame f fr' ∧
      Holds m' fr' ∧ fr'.rest = fr.rest.drop total ∧ total ≤ fr.rest.length := by
  unfold tryNext frameReaderTryNext
  simp only [h.held, ← FrameReader.length_rest, ← FrameReader.rest.eq_def, Option.bind_eq_bind, Option.bind_some]
  by_cases hshort : fr.rest.length < frameHeaderLen
  · simp only [if_pos hshort]
    exact Or.inl ⟨trivial, trivial⟩
  have hhdr : m.read m.bufOff frameHeaderLen = some (fr.rest.take frameHeaderLen) := h.read_eq (Nat.not_lt.mp hshort)
  simp only [if_neg hshort, hhdr, Option.bind_some, headerPayloadLen_take (Nat.le_refl _),
    if_neg (Nat.not_lt.mpr (headerPayloadLen_le _))]
  by_cases hpart : fr.rest.length < frameHeaderLen + headerPayloadLen fr.rest + aegisTagLen
  · simp only [if_pos hpart, dif_pos hpart]
    exact Or.inl ⟨trivial, trivial⟩
  have hframe := h.read_eq (Nat.not_lt.mp hpart)
  simp only [if_neg hpart, dif_neg hpart, hframe, Option.bind_some]
  cases hparse : frameParse b (fr.rest.take (frameHeaderLen + headerPayloadLen fr.rest + aegisTagLen)) n key with
  | ok f =>
    refine Or.inr (Or.inr ⟨f, _, _, _, rfl, rfl, ⟨h.buf, h.len, ?_, h.eof⟩, ?_, Nat.not_lt.mp hpart⟩)
    · show m.bufOff + _ = fr.bufOff + _
      rw [h.off]
    · exact List.drop_drop.symm
  | malformed => exact Or.inr (Or.inl ⟨rfl, rfl⟩)
  | rejected => exact Or.inr (Or.inl ⟨rfl, rfl⟩)

end Holds

end ReaderBuffer

/-! ### Every sequence of calls -/

namespace ReaderLog
open ReaderBuffer

/-- The memory holds a reader of the bytes that are received and not yet consumed; before the first call
and after a return 0 it has no whole frame; calls in the order of the callers never find the buffer full. -/
structure Sound (s : ReaderLog) (fr : FrameReader) : Prop where
  holds : Holds s.reader fr
  rest : fr.rest = s.received.drop s.consumed
  consumed_le : s.consumed ≤ s.received.length
  waiting : (∀ r ∈ s.returns.getLast?, r = .tryNext .more) → wireFraming.cut fr.rest = none
  room : FillsAfterMore s.returns → .fill .full ∉ s.returns

theorem init_sound : Sound .init frameReaderInit where
  holds := .init_holds
  rest := rfl
  consumed_le := Nat.le_refl 0
  waiting _ := rfl
  room _ hmem := by cases hmem

variable {b : Backend} {s : ReaderLog} {fr : FrameReader}

theorem fill_sound (h : Sound s fr) (k : Offer) : ∃ t fr', step b s (.fill k) = some t ∧ Sound t fr' := by
  obtain ⟨r, m', hfill, -, hold, hrest, hspace⟩ := h.holds.fillBuffer_holds k
  refine ⟨_, _, congrArg (Option.map _) hfill, hold, ?_, ?_, ?_, ?_⟩
  · have unread : fr.rest.length = s.received.length - s.consumed := by rw [h.rest, List.length_drop]
    rw [hrest, unread, h.rest, List.drop_append_of_le_length h.consumed_le]
    rfl
  · exact h.consumed_le.trans (by rw [List.length_append]; exact Nat.le_add_right ..)
  · intro hlast
    cases hlast (.fill r) List.getLast?_concat
  · intro hchain hmem
    rw [FillsAfterMore, List.isChain_append] at hchain
    obtain ⟨hbefore, -, hlink⟩ := hchain
    rcases List.mem_append.mp hmem with hmem | hmem
    · exact h.room hbefore hmem
    · obtain rfl : FillReturn.full = r := ReaderReturn.fill.inj (List.mem_singleton.mp hmem)
      -- The buffer was found full, although no whole frame was in it.
      apply space_of_cut_none (h.waiting _) (hspace rfl)
      intro before hlast
      exact hlink before hlast (.fill .full) rfl .full rfl

theorem tryNext_sound (h : Sound s fr) (n : UInt64) (key : Block) :
    ∃ t fr', step b s (.tryNext n key) = some t ∧ Sound t fr' := by
  have room : ∀ r : NextReturn, FillsAfterMore (s.returns ++ [.tryNext r]) → .fill .full ∉ s.returns ++ [.tryNext r] := by
    intro r hchain hmem
    rcases List.mem_append.mp hmem with hmem | hmem
    · exact h.room (List.isChain_append.mp hchain).1 hmem
    · cases List.mem_singleton.mp hmem
  rcases h.holds.tryNext_holds b n key with ⟨hnext, hmore⟩ | ⟨hnext, -⟩ | ⟨f, total, m', fr', hnext, -, hold, hrest, hle⟩
  · refine ⟨_, fr, congrArg (Option.map _) hnext, h.holds, h.rest, h.consumed_le, ?_, room .more⟩
    intro _
    exact cut_eq_none_of_more hmore
  · refine ⟨_, fr, congrArg (Option.map _) hnext, h.holds, h.rest, h.consumed_le, ?_, room .error⟩
    intro hlast
    cases hlast (.tryNext .error) List.getLast?_concat
  · have hlen := h.consumed_le
    rw [h.rest, List.length_drop] at hle
    refine ⟨_, fr', congrArg (Option.map _) hnext, hold, ?_, ?_, ?_, room (.frame f total)⟩
    · rw [hrest, h.rest, List.drop_drop]
      rfl
    · show s.consumed + total ≤ s.received.length
      omega
    · intro hlast
      cases hlast (.tryNext (.frame f total)) List.getLast?_concat

theorem run_sound (calls : List ReaderCall) (h : Sound s fr) : ∃ t fr', run b s calls = some t ∧ Sound t fr' := by
  induction calls generalizing s fr with
  | nil => exact ⟨s, fr, rfl, h⟩
  | cons call calls ih =>
    have hstep : ∃ u fr', step b s call = some u ∧ Sound u fr' := by
      cases call with
      | fill k => exact fill_sound h k
      | tryNext n key => exact tryNext_sound h n key
    obtain ⟨u, fr₁, hu, sound⟩ := hstep
    obtain ⟨t, fr₂, ht, sound⟩ := ih sound
    refine ⟨t, fr₂, ?_, sound⟩
    rw [run, List.foldlM_cons, hu]
    exact ht

end ReaderLog

/-- After every sequence of calls, without a fault: the counters are in range and delimit what is received and
not yet consumed; where the buffer is filled only after a return 0, it is never found full. -/
theorem reader_buffer_safe (b : Backend) (calls : List ReaderCall) :
    ∃ s, ReaderLog.run b .init calls = some s ∧
      s.reader.bufOff ≤ s.reader.bufLen ∧ s.reader.bufLen ≤ frameMaxWire ∧
      s.consumed ≤ s.received.length ∧
      slice s.reader.buf s.reader.bufOff (s.reader.bufLen - s.reader.bufOff) = s.received.drop s.consumed ∧
      (FillsAfterMore s.returns → .fill .full ∉ s.returns) := by
  obtain ⟨s, fr, hrun, sound⟩ := ReaderLog.run_sound (b := b) calls ReaderLog.init_sound
  have hslice := sound.holds.slice_eq (Nat.le_refl _)
  have hlen : fr.rest.length = s.reader.bufLen - s.reader.bufOff := by
    rw [FrameReader.length_rest, sound.holds.len, sound.holds.off]
  refine ⟨s, hrun, sound.holds.off_le, sound.holds.len_le, sound.consumed_le, ?_, sound.room⟩
  rw [hslice, List.take_of_length_le hlen.le, sound.rest]

end AegisTunnel
