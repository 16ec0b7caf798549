import AegisTunnel.Theorems.CreateTun
import AegisTunnel.Theorems.KeyFile

/-! # Adding and deleting peers

`peer add` appends a section to a file that does not name the key, and `peer delete` then takes it out again. A
server or a client that is started from what the commands have made knows just the peers that were added. -/

namespace AegisTunnel
open Octets Lines

/-! ### Looking for a text -/

/-- A text without the character in the middle lies on one side of it. -/
theorem infix_split {c : Char} {needle front rest : List Char} (h : needle <:+: front ++ c :: rest) (hc : c ∉ needle) :
    needle <:+: front ∨ needle <:+: rest := by
  obtain ⟨before, after, split⟩ := h
  rw [List.append_assoc, List.append_eq_append_iff] at split
  rcases split with ⟨more, rfl, same⟩ | ⟨more, rfl, same⟩
  · rw [List.append_eq_append_iff] at same
    rcases same with ⟨end_, rfl, -⟩ | ⟨end_, rfl, same⟩
    · exact .inl ⟨before, end_, by simp⟩
    · cases end_ with
      | nil => exact .inl ⟨before, [], by simp⟩
      | cons d end_ =>
        cases same
        exact absurd (List.mem_append_right _ List.mem_cons_self) hc
  · cases more with
    | nil =>
      cases needle with
      | nil => exact .inl (List.nil_infix ..)
      | cons d needle =>
        cases same
        exact absurd List.mem_cons_self hc
    | cons d more =>
      cases same
      exact .inr ⟨more, after, by simp⟩

/-- The loop looks at every line. -/
theorem foundLoop_eq (hx : List Char) (rounds : Nat) (file : List Char) (enough : file.length ≤ rounds) (text : '\x00' ∉ file)
    (short : ∀ line ∈ file.splitOn '\n', line.length < iniMaxLine - 1) :
    foundLoop hx rounds file = (lines '\n' file).any fun l => strstr l "PublicKey".toList && strstr l hx := by
  refine fgets_induction (P := fun rounds file => '\x00' ∉ file → foundLoop hx rounds file =
    (lines '\n' file).any fun l => strstr l "PublicKey".toList && strstr l hx) ?_ ?_ ?_ rounds file enough short text
  · intro rounds _
    cases rounds <;> rfl
  · intro rounds line some_ h read text
    rw [foundLoop, show fgets 512 line = _ from read, lines_last some_ h]
    simp only [cString_of_text text]
    cases rounds <;> rfl
  · intro rounds line rest h read ih text
    rw [List.mem_append, List.mem_cons, not_or, not_or] at text
    rw [foundLoop, show fgets 512 (line ++ '\n' :: rest) = _ from read, lines_ended h]
    simp only [cString_of_line text.1]
    rw [ih text.2.2]
    rfl

/-! ### A section at the end of a file -/

theorem bodyOf_append {header : List Char} (h : isHeader header = true) (front rest : List (List Char)) :
    bodyOf (front ++ header :: rest) = bodyOf front := by
  induction front with
  | nil => exact bodyOf_header h rest
  | cons l front ih =>
    cases hl : isHeader l with
    | true => rw [List.cons_append, bodyOf_header hl, bodyOf_header hl]
    | false => rw [List.cons_append, bodyOf_line hl, bodyOf_line hl, ih]

theorem rawSections_append {header : List Char} {body : List (List Char)} (h : isHeader header = true)
    (plain : ∀ l ∈ body, isHeader l = false) (front : List (List Char)) :
    rawSections (front ++ header :: body) = rawSections front ++ [⟨header, body⟩] := by
  have none_ : bodyOf body = body ∧ rawSections body = [] := by
    induction body with
    | nil => exact ⟨rfl, rfl⟩
    | cons l body ih =>
      rw [List.forall_mem_cons] at plain
      rw [bodyOf_line plain.1, rawSections_line plain.1, (ih plain.2).1]
      exact ⟨rfl, (ih plain.2).2⟩
  induction front with
  | nil => rw [List.nil_append, rawSections_header h, none_.1, none_.2]; rfl
  | cons l front ih =>
    cases hl : isHeader l with
    | true => rw [List.cons_append, rawSections_header hl, rawSections_header hl, ih, bodyOf_append h, List.cons_append]
    | false => rw [List.cons_append, rawSections_line hl, rawSections_line hl, ih]

theorem mem_rawSections {ls : List (List Char)} {s : RawSection} (h : s ∈ rawSections ls) :
    (s.header ∈ ls ∧ isHeader s.header = true) ∧ ∀ l ∈ s.body, l ∈ ls := by
  induction ls with
  | nil => cases h
  | cons l ls ih =>
    cases hl : isHeader l with
    | true =>
      rw [rawSections_header hl, List.mem_cons] at h
      rcases h with rfl | h
      · exact ⟨⟨List.mem_cons_self, hl⟩, fun l hl => List.mem_cons_of_mem _ ((List.takeWhile_prefix _).subset hl)⟩
      · obtain ⟨⟨there, header⟩, body⟩ := ih h
        exact ⟨⟨List.mem_cons_of_mem _ there, header⟩, fun l hl => List.mem_cons_of_mem _ (body l hl)⟩
    | false =>
      rw [rawSections_line hl] at h
      obtain ⟨⟨there, header⟩, body⟩ := ih h
      exact ⟨⟨List.mem_cons_of_mem _ there, header⟩, fun l hl => List.mem_cons_of_mem _ (body l hl)⟩

/-- A line that is not about the key does not make the loop leave out anything. -/
theorem deleteLine_unnamed {hx l : List Char} {st : DeleteState} (start : st.skipPeer = false) (unnamed : namesKey hx l = false) :
    (deleteLine hx st l).1.skipPeer = false := by
  unfold deleteLine
  simp only [start, unnamed, Bool.and_false, Bool.or_self, Bool.false_eq_true, if_false]
  split
  · split <;> rfl
  · split <;> rfl

/-- Only a header in the first column makes the flags those of a new peer. -/
theorem opensPeer_unnamed {hx l : List Char} {st : DeleteState} (start : st.skipPeer = false) (unnamed : namesKey hx l = false)
    (s : RawSection) (next : Option (List Char)) (opens : Placed.opensPeer ⟨(deleteLine hx st l).1, s, next⟩ = true) :
    strstr l "[Peer]".toList = true := by
  unfold Placed.opensPeer deleteLine at opens
  simp only [start, unnamed, Bool.and_false, Bool.or_self, Bool.false_eq_true, if_false] at opens
  split at opens
  · split at opens
    next peer => exact peer
    next => cases opens
  · split at opens
    next => simp at opens
    next => simp_all

/-- Where no line is about the key, the loop leaves nothing out: a section is one of these lines, with its flags, or of
    the header after them. -/
theorem mem_placed_append {hx header : List Char} {front tail : List (List Char)} {st : DeleteState} {p : Placed}
    (unnamed : ∀ l ∈ front, namesKey hx l = false) (bracket : header.head? = some '[') (h : isHeader header = true)
    (start : st.skipPeer = false) (member : p ∈ placed hx st (front ++ header :: tail)) :
    (p.sect ∈ rawSections front ∧ p.gone hx = false ∧
      (p.opensPeer = true → strstr p.sect.header "[Peer]".toList = true)) ∨
    ∃ st, p ∈ placed hx st (header :: tail) := by
  induction front generalizing st with
  | nil => exact .inr ⟨st, member⟩
  | cons l front ih =>
    rw [List.forall_mem_cons] at unnamed
    have goes : (deleteLine hx st l).1.skipPeer = false := deleteLine_unnamed start unnamed.1
    cases hl : isHeader l with
    | true =>
      rw [List.cons_append, placed_header hl, List.mem_cons] at member
      rcases member with rfl | member
      · refine .inl ⟨?_, ?_, opensPeer_unnamed start unnamed.1 _ _⟩
        · rw [rawSections_header hl, bodyOf_append h]
          exact List.mem_cons_self
        · have quiet : ((front ++ header :: tail).head?.any fun l => l.head? ≠ some '[' && namesKey hx l) = false := by
            cases front with
            | nil => simp [bracket]
            | cons m front => simp [unnamed.2 m List.mem_cons_self]
          rw [Placed.gone, goes, quiet, Bool.and_false]
          rfl
      · rcases ih unnamed.2 goes member with ⟨there, rest⟩ | after
        · rw [rawSections_header hl]
          exact .inl ⟨List.mem_cons_of_mem _ there, rest⟩
        · exact .inr after
    | false =>
      rw [List.cons_append, placed_line hl] at member
      rw [rawSections_line hl]
      exact ih unnamed.2 goes member

theorem placed_of_lines {hx : List Char} {ls : List (List Char)} (h : ∀ l ∈ ls, isHeader l = false) (st : DeleteState) :
    placed hx st ls = [] := by
  induction ls generalizing st with
  | nil => rfl
  | cons l ls ih =>
    rw [List.forall_mem_cons] at h
    rw [placed_line h.1, ih h.2]

/-- What is found in the first entries is found in all. -/
theorem getEntry_take {key v : List Char} {entries : List IniEntry} {n : Nat} (h : getEntry key (entries.take n) = some v) :
    getEntry key entries = some v := by
  induction entries generalizing n with
  | nil => rwa [List.take_nil] at h
  | cons e entries ih =>
    cases n with
    | zero => cases h
    | succ n =>
      rw [List.take_succ_cons, getEntry] at h
      rw [getEntry]
      split at h
      next same => rw [if_pos same]; exact h
      next other => rw [if_neg other]; exact ih h

theorem isPeerOf_clip {hx : List Char} {s : IniSection} (h : s.isPeerOf hx = false) : s.clip.isPeerOf hx = false := by
  unfold IniSection.isPeerOf at *
  rw [Bool.and_eq_false_iff] at *
  refine h.imp_right fun other => ?_
  rw [beq_eq_false_iff_ne] at *
  exact fun found => other (getEntry_take found)

/-! ### A key as text -/

/-- A text of 64 hex digits. -/
structure HexText (hx : List Char) : Prop where
  length : hx.length = 64
  digits : ∀ c ∈ hx, (hexDigit c).isSome = true

theorem HexText.of_key {hx : List Char} {key : Word 32} (h : hexKey hx = some key) : HexText hx := by
  unfold hexKey at h
  split at h
  next len =>
    obtain ⟨bytes, value, -⟩ := Option.map_eq_some_iff.mp h
    refine ⟨len, ?_⟩
    clear h len
    induction hx using hexValue.induct generalizing bytes with
    | case1 => exact fun _ h => absurd h List.not_mem_nil
    | case2 => cases value
    | case3 hi lo rest ih =>
      simp only [hexValue, Option.bind_eq_bind, Option.bind_eq_some_iff] at value
      obtain ⟨h, high, l, low, more, rest_, -⟩ := value
      rw [List.forall_mem_cons, List.forall_mem_cons, high, low]
      exact ⟨rfl, rfl, ih more rest_⟩
  next => cases h

namespace HexText
variable {hx : List Char} (hex : HexText hx)
include hex

theorem not_mem {c : Char} (h : hexDigit c = none) : c ∉ hx := fun there => by
  have digit := hex.digits c there
  rw [h] at digit
  cases digit

theorem ne_nil : hx ≠ [] := fun none_ => by
  have len := hex.length
  rw [none_] at len
  cases len

theorem bare : '\n' ∉ hx ∧ '\x00' ∉ hx := ⟨hex.not_mem rfl, hex.not_mem rfl⟩

theorem clean : Clean hx := by
  refine ⟨⟨hex.bare.1, hex.bare.2, by rw [hex.length]; decide⟩, ?_⟩
  have solid : ∀ c ∈ hx, isSpace c = false := by
    intro c hc
    by_contra space
    rw [Bool.not_eq_false, isSpace, List.contains_iff_mem] at space
    refine hex.not_mem ?_ hc
    simp only [List.mem_cons, List.not_mem_nil, or_false] at space
    rcases space with rfl | rfl | rfl | rfl | rfl | rfl <;> rfl
  cases shape : hx with
  | nil => rfl
  | cons c rest =>
    rw [shape, List.forall_mem_cons] at solid
    rw [trim_of_head solid.1, List.rdropWhile_eq_self_iff.mpr]
    intro some_
    rw [solid.2 _ (List.getLast_mem some_)]
    exact Bool.false_ne_true

theorem storedKey_line : storedKey (hx ++ ['\n']) = hx := by
  have last : (hx.rdropWhile fun c => c = '\n' || c = '\r') = hx := by
    rw [List.rdropWhile_eq_self_iff]
    intro some_ ends
    rcases Bool.or_eq_true_iff.mp ends with newline | return_
    · exact hex.not_mem (c := '\n') rfl (of_decide_eq_true newline ▸ List.getLast_mem some_)
    · exact hex.not_mem (c := '\r') rfl (of_decide_eq_true return_ ▸ List.getLast_mem some_)
  rw [storedKey, List.take_append_of_le_length hex.length.ge, List.take_of_length_le hex.length.le, last,
    cString_of_text hex.bare.2]

theorem peerKeyText_self (files : List Char → Option (List Char)) : peerKeyText files hx = some (hx ++ ['\n']) := by
  rw [peerKeyText, if_neg (not_or.mpr ⟨hex.not_mem rfl, hex.not_mem rfl⟩), if_neg (not_not.mpr hex.length)]

end HexText

/-! ### Adding a peer and deleting it -/

/-- The lines that follow the blank one. -/
def peerLines (hx host : List Char) : List (List Char) :=
  [confHeader "Peer", confEntry "PublicKey" hx, confEntry "Endpoint" host]

theorem peerLines_writes {hx host : List Char} (hex : HexText hx) (name : Clean host) :
    Writes (peerLines hx host) ⟨"Peer".toList, [⟨"PublicKey".toList, hx⟩, ⟨"Endpoint".toList, host⟩]⟩ :=
  Says.section (.cons rfl hex.clean (.cons rfl name .nil)) (by decide) rfl

theorem peerLines_reads {hx host : List Char} (hex : HexText hx) (name : Clean host) :
    ReadsAs (peerLines hx host).flatten (peerLines hx host)
      [⟨"Peer".toList, [⟨"PublicKey".toList, hx⟩, ⟨"Endpoint".toList, host⟩]⟩] := by
  have reads := readsAs_written (.cons (peerLines_writes hex name) .nil)
  rwa [List.flatten_singleton] at reads

/-- A file as the commands leave it, with room for one more section, that does not name the key. -/
structure Ready (hx file : List Char) : Prop where
  text : '\x00' ∉ file
  lines : ∀ line ∈ file.splitOn '\n', line.length < iniMaxLine - 1
  sections : (sectionsIn file).length + 1 < iniMaxSections
  names : ∀ l ∈ Lines.lines '\n' file, isHeader l = true → strstr l "[Peer]".toList = true → headerName l = "Peer".toList
  unnamed : ∀ l ∈ Lines.lines '\n' file, namesKey hx l = false
  unlisted : ∀ s ∈ sectionsIn file, s.isPeerOf hx = false

theorem strstr_newline {l needle : List Char} (bare : '\n' ∉ needle) : strstr (l ++ ['\n']) needle = strstr l needle := by
  rw [Bool.eq_iff_iff, strstr_iff, strstr_iff]
  constructor
  · intro h
    rcases infix_split h bare with h | h
    · exact h
    · rw [List.infix_nil.mp h]
      exact List.nil_infix ..
  · exact fun h => h.trans (List.prefix_append _ _).isInfix

theorem isHeader_newline (l : List Char) : isHeader (l ++ ['\n']) = isHeader l ∧ headerName (l ++ ['\n']) = headerName l := by
  unfold isHeader headerName
  rw [readLine_newline]
  exact ⟨rfl, rfl⟩

namespace Ready
variable {hx file : List Char} (ready : Ready hx file)
include ready

theorem addPeer_eq (hex : HexText hx) (host : List Char) :
    addPeer hx host file = file ++ '\n' :: (peerLines hx host).flatten := by
  have none_ : foundLoop hx file.length file = false := by
    rw [foundLoop_eq hx _ _ (Nat.le_refl _) ready.text ready.lines, List.any_eq_false]
    intro l hl
    have unnamed := ready.unnamed l hl
    rw [namesKey, List.isEmpty_eq_false_iff.mpr hex.ne_nil] at unnamed
    rw [Bool.not_eq_true]
    exact unnamed
  rw [addPeer, if_neg]
  · rfl
  · rw [none_]
    exact not_or.mpr ⟨hex.ne_nil, Bool.false_ne_true⟩

/-- The lines before the new section, the last one with its end. -/
theorem front {l : List Char} (hex : HexText hx) (h : l ∈ Lines.lines '\n' (file ++ ['\n'])) :
    (isHeader l = true → strstr l "[Peer]".toList = true → headerName l = "Peer".toList) ∧ namesKey hx l = false := by
  rcases mem_lines_end h with rfl | there | ⟨l, there, -, rfl⟩
  · refine ⟨by decide, ?_⟩
    rw [namesKey, show strstr ['\n'] "PublicKey".toList = false by decide, Bool.and_false, Bool.false_and]
  · exact ⟨ready.names l there, ready.unnamed l there⟩
  · have unnamed := ready.unnamed _ there
    rw [(isHeader_newline _).1, (isHeader_newline _).2, strstr_newline (by decide)]
    refine ⟨ready.names _ there, ?_⟩
    unfold namesKey at unnamed ⊢
    rwa [strstr_newline (by decide), strstr_newline hex.bare.1]

end Ready

theorem sectionsIn_end (file : List Char) :
    (rawSections (Lines.lines '\n' (file ++ ['\n']))).map (·.read) = sectionsIn file := by
  rw [← sectionsIn_lines, sectionsIn, splitOn_append, List.map_append]
  exact (sectionsOf_append rfl _).trans (List.append_nil _)

theorem isHeader_confEntry {key : String} {v : List Char} (plain : plainKey key.toList = true) (one : OneLine v) :
    isHeader (confEntry key v) = false := by
  rw [isHeader, readLine_confEntry plain one]

section Added
variable {hx host : List Char} (hex : HexText hx) (name : Clean host) (file : List Char)
include hex name

theorem lines_added : Lines.lines '\n' (file ++ '\n' :: (peerLines hx host).flatten) =
    Lines.lines '\n' (file ++ ['\n']) ++ peerLines hx host := by
  rw [lines_append, (peerLines_reads hex name).lines]

theorem rawSections_added : rawSections (Lines.lines '\n' (file ++ '\n' :: (peerLines hx host).flatten)) =
    rawSections (Lines.lines '\n' (file ++ ['\n'])) ++ [⟨confHeader "Peer", (peerLines hx host).tail⟩] := by
  have plain : ∀ l ∈ (peerLines hx host).tail, isHeader l = false := by
    rw [peerLines, List.tail_cons, List.forall_mem_cons, List.forall_mem_singleton]
    exact ⟨isHeader_confEntry rfl hex.clean.toOneLine, isHeader_confEntry rfl name.toOneLine⟩
  rw [lines_added hex name]
  exact rawSections_append rfl plain _

theorem read_new : (RawSection.mk (confHeader "Peer") (peerLines hx host).tail).read =
    ⟨"Peer".toList, [⟨"PublicKey".toList, hx⟩, ⟨"Endpoint".toList, host⟩]⟩ := by
  have key : readLine (confEntry "PublicKey" hx) = _ := readLine_confEntry rfl hex.clean.toOneLine
  have endpoint : readLine (confEntry "Endpoint" host) = _ := readLine_confEntry rfl name.toOneLine
  rw [hex.clean.trimmed] at key
  rw [name.trimmed] at endpoint
  rw [RawSection.read, peerLines, List.tail_cons, List.map_cons, List.map_singleton, key, endpoint]
  rfl

theorem sectionsIn_added : sectionsIn (file ++ '\n' :: (peerLines hx host).flatten) =
    sectionsIn file ++ [⟨"Peer".toList, [⟨"PublicKey".toList, hx⟩, ⟨"Endpoint".toList, host⟩]⟩] := by
  rw [sectionsIn_lines, rawSections_added hex name, List.map_append, sectionsIn_end, List.map_singleton, read_new hex name]

omit hex name in
theorem isPeerOf_new (hx host : List Char) : IniSection.isPeerOf hx
    ⟨"Peer".toList, [⟨"PublicKey".toList, hx⟩, ⟨"Endpoint".toList, host⟩]⟩ = true := by
  have found : getEntry "PublicKey".toList [⟨"PublicKey".toList, hx⟩, ⟨"Endpoint".toList, host⟩] = some hx :=
    if_pos (strcasecmpEq_self _)
  rw [IniSection.isPeerOf, found, strcasecmpEq_self, beq_self_eq_true, Bool.and_self]

theorem Ready.text_added {file : List Char} (ready : Ready hx file) : '\x00' ∉ file ++ '\n' :: (peerLines hx host).flatten := by
  rw [List.mem_append, List.mem_cons, not_or, not_or]
  exact ⟨ready.text, by decide, (peerLines_reads hex name).text⟩

theorem Ready.short_added {file : List Char} (ready : Ready hx file) :
    ∀ line ∈ (file ++ '\n' :: (peerLines hx host).flatten).splitOn '\n', line.length < iniMaxLine - 1 := by
  rw [splitOn_append, List.forall_mem_append]
  exact ⟨ready.lines, (peerLines_reads hex name).short⟩

theorem Ready.load_added {file : List Char} (ready : Ready hx file) :
    (iniconfLoad (file ++ '\n' :: (peerLines hx host).flatten)).sections = (sectionsIn file).map (·.clip) ++
      [⟨"Peer".toList, [⟨"PublicKey".toList, hx⟩, ⟨"Endpoint".toList, host⟩]⟩] := by
  rw [iniconfLoad_clip (ready.short_added hex name), sectionsIn_added hex name, List.map_append,
    kept_of_lt (by rw [List.length_append, List.length_map]; exact ready.sections)]
  rfl

/-- `cmd_peer_delete` leaves out the new section, and no other. -/
theorem Ready.handled {file : List Char} (ready : Ready hx file) :
    ∀ p ∈ placed hx outside (Lines.lines '\n' (file ++ '\n' :: (peerLines hx host).flatten)), Handled hx p := by
  rw [lines_added hex name]
  intro p member
  have unnamed : ∀ l ∈ Lines.lines '\n' (file ++ ['\n']), namesKey hx l = false := fun l hl => (ready.front hex hl).2
  rcases mem_placed_append unnamed rfl rfl rfl member with ⟨there, stays, opens⟩ | ⟨st, member⟩
  · obtain ⟨⟨line, header⟩, body⟩ := mem_rawSections there
    have other : p.sect.read.isPeerOf hx = false :=
      ready.unlisted _ (sectionsIn_end file ▸ List.mem_map_of_mem there)
    have none_ : cutLines hx p.sect.body = [] := by
      refine List.dropWhile_eq_nil_iff.mpr fun l hl => ?_
      rw [unnamed l (body l ((List.takeWhile_sublist _).subset hl))]
      rfl
    have whole : copied hx p.sect.body = entriesIn p.sect.body := by
      rw [copied_eq_iff there, none_]
      exact fun l hl => nomatch hl
    rw [Handled, if_neg (by rw [isPeerOf_clip other]; exact Bool.false_ne_true), whole]
    exact ⟨stays, fun first => (ready.front hex line).1 header (opens first), fun _ => rfl⟩
  · have plain : ∀ l ∈ [confEntry "PublicKey" hx, confEntry "Endpoint" host], isHeader l = false := by
      rw [List.forall_mem_cons, List.forall_mem_singleton]
      exact ⟨isHeader_confEntry rfl hex.clean.toOneLine, isHeader_confEntry rfl name.toOneLine⟩
    have named : namesKey hx (confEntry "PublicKey" hx) = true := by
      have key : strstr (confEntry "PublicKey" hx) "PublicKey".toList = true :=
        strstr_iff.mpr ⟨[], " = ".toList ++ hx ++ ['\n'], rfl⟩
      have digits : strstr (confEntry "PublicKey" hx) hx = true := strstr_iff.mpr ⟨"PublicKey = ".toList, ['\n'], rfl⟩
      rw [namesKey, key, digits, List.isEmpty_eq_false_iff.mpr hex.ne_nil]
      rfl
    have whole : bodyOf [confEntry "PublicKey" hx, confEntry "Endpoint" host] = (peerLines hx host).tail := by
      rw [bodyOf_line (plain _ List.mem_cons_self), bodyOf_line (plain _ (List.mem_cons_of_mem _ List.mem_cons_self))]
      rfl
    rw [placed_header rfl, placed_of_lines plain, List.mem_singleton, deleteLine_bracket rfl, if_pos (by decide), whole] at member
    rw [member, Handled, read_new hex name, IniSection.clip_of_le (Nat.le_of_ble_eq_true rfl),
      if_pos (isPeerOf_new hx host)]
    refine ⟨?_, fun l hl => nomatch hl⟩
    simp only [Placed.gone, Placed.opensPeer, fresh, List.head?_cons, Option.any_some, named]
    rfl

/-- What `cmd_peer_delete` leaves is the file as it was. -/
theorem Ready.load_deleted {file : List Char} (ready : Ready hx file) :
    (iniconfLoad (rewriteConf hx (file ++ '\n' :: (peerLines hx host).flatten))).sections =
      (sectionsIn file).map (·.clip) := by
  have exactly : DeletesExactly hx (file ++ '\n' :: (peerLines hx host).flatten) := by
    refine (deletesExactly_iff_limit (ready.text_added hex name) (ready.short_added hex name)
      fun p hp => ready.handled hex name p (mem_of_mem_shown hp)).mpr (limitHidden_of (.inl ?_))
    rw [List.length_map, sectionsIn_added hex name, List.length_append]
    exact ready.sections
  have stay : ∀ s ∈ (sectionsIn file).map (·.clip), (!s.isPeerOf hx) = true := by
    intro s hs
    obtain ⟨t, ht, rfl⟩ := List.mem_map.mp hs
    rw [isPeerOf_clip (ready.unlisted t ht)]
    rfl
  rw [exactly, ready.load_added hex name, List.filter_append, List.filter_eq_self.mpr stay,
    List.filter_cons_of_neg (by rw [isPeerOf_new]; decide), List.filter_nil, List.append_nil]

end Added

theorem Ready.load {hx file : List Char} (ready : Ready hx file) :
    (iniconfLoad file).sections = (sectionsIn file).map (·.clip) := by
  rw [iniconfLoad_clip ready.lines, kept_of_lt (by rw [List.length_map]; exact Nat.lt_of_succ_lt ready.sections)]

/-- A key that the file of two peers does not name. -/
def daveKey : List Char := List.replicate 64 'd'

theorem ready_twoPeers : Ready daveKey twoPeers := by
  refine ⟨?_, ?_, ?_, ?_, ?_, ?_⟩ <;> decide +kernel

end AegisTunnel
