import AegisTunnel.Lib.Lines
import AegisTunnel.ConfigMgmt
import AegisTunnel.Theorems.IniConfig

/-! # What is left of a configuration when a peer is deleted

`cmd_peer_delete` finds the sections with `strstr`, and it goes through the file once, with no way back to what
it has written. What it leaves of a section is compared with what the loader makes of it. -/

namespace AegisTunnel
open Lines

/-! ### The sections of a text, with their lines -/

def isHeader (line : List Char) : Bool :=
  match readLine line with
  | .header _ => true
  | _ => false

/-- The entry of a line, if it has one. -/
def entryOf (line : List Char) : List IniEntry := entriesOf [readLine line]

def headerName (line : List Char) : List Char :=
  match readLine line with
  | .header name => name
  | _ => []

structure RawSection where
  header : List Char
  body : List (List Char)
  deriving DecidableEq, Repr

/-- The lines up to the next header. -/
def bodyOf (ls : List (List Char)) : List (List Char) := ls.takeWhile fun l => !isHeader l

def rawSections : List (List Char) → List RawSection
  | [] => []
  | l :: ls => if isHeader l then ⟨l, bodyOf ls⟩ :: rawSections ls else rawSections ls

/-- What the loader makes of a section. -/
def RawSection.read (s : RawSection) : IniSection := ⟨headerName s.header, entriesOf (s.body.map readLine)⟩

theorem bodyOf_header {l : List Char} (h : isHeader l = true) (ls : List (List Char)) : bodyOf (l :: ls) = [] :=
  List.takeWhile_cons_of_neg (by rw [h]; decide)

theorem bodyOf_line {l : List Char} (h : isHeader l = false) (ls : List (List Char)) : bodyOf (l :: ls) = l :: bodyOf ls :=
  List.takeWhile_cons_of_pos (by rw [h]; rfl)

theorem rawSections_header {l : List Char} (h : isHeader l = true) (ls : List (List Char)) :
    rawSections (l :: ls) = ⟨l, bodyOf ls⟩ :: rawSections ls := if_pos h

theorem rawSections_line {l : List Char} (h : isHeader l = false) (ls : List (List Char)) :
    rawSections (l :: ls) = rawSections ls := if_neg (by rw [h]; exact Bool.false_ne_true)

theorem readLine_header {l : List Char} (h : isHeader l = true) : readLine l = .header (headerName l) := by
  unfold isHeader headerName at *
  split at h
  next hl => rw [hl]
  next => cases h

/-- A line that is no header adds its entry, if it has one, to those of the lines after it. -/
theorem entriesOf_line {l : List Char} (h : isHeader l = false) (ls : List IniLine) :
    entriesOf (readLine l :: ls) = entryOf l ++ entriesOf ls ∧ sectionsOf (readLine l :: ls) = sectionsOf ls := by
  unfold isHeader at h
  unfold entryOf
  cases hl : readLine l with
  | header name => rw [hl] at h; cases h
  | entry key value => exact ⟨rfl, rfl⟩
  | skipped => exact ⟨rfl, rfl⟩

theorem entriesOf_header {l : List Char} (h : isHeader l = true) (ls : List IniLine) : entriesOf (readLine l :: ls) = [] := by
  rw [readLine_header h, entriesOf]

theorem entriesOf_bodyOf (ls : List (List Char)) : entriesOf ((bodyOf ls).map readLine) = entriesOf (ls.map readLine) := by
  induction ls with
  | nil => rfl
  | cons l ls ih =>
    cases h : isHeader l with
    | true => rw [bodyOf_header h, List.map_cons, entriesOf_header h]; rfl
    | false => rw [bodyOf_line h, List.map_cons, List.map_cons, (entriesOf_line h _).1, (entriesOf_line h _).1, ih]

theorem sectionsOf_rawSections (ls : List (List Char)) : sectionsOf (ls.map readLine) = (rawSections ls).map (·.read) := by
  induction ls with
  | nil => rfl
  | cons l ls ih =>
    cases h : isHeader l with
    | true =>
      rw [rawSections_header h, List.map_cons, List.map_cons, readLine_header h, sectionsOf, ih, RawSection.read,
        entriesOf_bodyOf]
    | false => rw [rawSections_line h, List.map_cons, (entriesOf_line h _).2, ih]

/-- The lines as `fgets` returns them say the same. -/
theorem sectionsIn_lines (file : List Char) : sectionsIn file = (rawSections (lines '\n' file)).map (·.read) := by
  have both : entriesOf ((file.splitOn '\n').map readLine) = entriesOf ((lines '\n' file).map readLine) ∧
      sectionsOf ((file.splitOn '\n').map readLine) = sectionsOf ((lines '\n' file).map readLine) := by
    induction file using text_induction '\n' with
    | nil => exact ⟨rfl, rfl⟩
    | last line some_ h => rw [List.splitOn_eq_singleton h, lines_last some_ h]; exact ⟨rfl, rfl⟩
    | ended line text h ih =>
      rw [List.splitOn_append_cons_self_of_not_mem h, lines_ended h, List.map_cons, List.map_cons, readLine_newline]
      cases readLine line with
      | skipped => exact ih
      | header name => exact ⟨rfl, by rw [sectionsOf, sectionsOf, ih.1, ih.2]⟩
      | entry key value => exact ⟨by rw [entriesOf, entriesOf, ih.1], ih.2⟩
  rw [sectionsIn, both.2, sectionsOf_rawSections]

/-! ### Texts -/

theorem strstr_iff {text needle : List Char} : strstr text needle = true ↔ needle <:+: text := by
  simp only [strstr, List.any_eq_true, List.mem_tails, List.isPrefixOf_iff_prefix, List.infix_iff_prefix_suffix]
  exact exists_congr fun t => and_comm

theorem mem_rdropWhile {p : Char → Bool} {c : Char} {text : List Char} (h : c ∈ text) (stays : p c = false) :
    c ∈ text.rdropWhile p := by
  have there := List.mem_reverse.mpr h
  rw [← List.takeWhile_append_dropWhile (p := p) (l := text.reverse), List.mem_append] at there
  rw [List.rdropWhile, List.mem_reverse]
  refine there.resolve_left fun dropped => ?_
  rw [List.mem_takeWhile_imp dropped] at stays
  cases stays

/-! ### The loop -/

/-- The loop over the lines of the file. -/
def deleteLines (hx : List Char) : DeleteState → List (List Char) → List (List Char)
  | st, [] => st.pending
  | st, l :: ls => (deleteLine hx st l).2 ++ deleteLines hx (deleteLine hx st l).1 ls

theorem cString_of_text {buf : List Char} (h : '\x00' ∉ buf) : cString buf = buf :=
  List.takeWhile_eq_self_iff.2 fun _ hc => decide_eq_true fun same => h (same ▸ hc)

theorem cString_of_line {line : List Char} (h : '\x00' ∉ line) : cString (line ++ ['\n']) = line ++ ['\n'] := by
  refine cString_of_text ?_
  rw [List.mem_append, List.mem_singleton, not_or]
  exact ⟨h, by decide⟩

theorem deleteLoop_eq (hx : List Char) (rounds : Nat) (st : DeleteState) (file : List Char) (enough : file.length ≤ rounds)
    (text : '\x00' ∉ file) (short : ∀ line ∈ file.splitOn '\n', line.length < iniMaxLine - 1) :
    deleteLoop hx rounds st file = deleteLines hx st (lines '\n' file) := by
  refine fgets_induction (P := fun rounds file => '\x00' ∉ file → ∀ st,
    deleteLoop hx rounds st file = deleteLines hx st (lines '\n' file)) ?_ ?_ ?_ rounds file enough short text st
  · intro rounds _ st
    cases rounds <;> rfl
  · intro rounds line some_ h read text st
    rw [deleteLoop, show fgets 512 line = _ from read, lines_last some_ h]
    simp only [cString_of_text text]
    cases rounds <;> rfl
  · intro rounds line rest h read ih text st
    rw [List.mem_append, List.mem_cons, not_or, not_or] at text
    rw [deleteLoop, show fgets 512 (line ++ '\n' :: rest) = _ from read, lines_ended h]
    simp only [cString_of_line text.1]
    rw [ih text.2.2]
    rfl

/-! ### What the loop leaves -/

/-- The flags between two lines: outside of the peers, right after the header of one, in one that is being
    copied, and in one that is being left out. -/
def outside : DeleteState := ⟨false, false, false⟩

def fresh : DeleteState := ⟨true, false, false⟩

def copying : DeleteState := ⟨true, false, true⟩

def leavingOut (wrote : Bool) : DeleteState := ⟨true, true, wrote⟩

/-- What the lines that are written say. -/
def written (hx : List Char) (st : DeleteState) (ls : List (List Char)) : List IniLine :=
  (deleteLines hx st ls).map readLine

section
variable {hx l : List Char} {ls : List (List Char)}

theorem written_header (bracket : l.head? = some '[') (st : DeleteState) :
    written hx st (l :: ls) = st.pending.map readLine ++
      (if strstr l "[Peer]".toList then written hx fresh ls else readLine l :: written hx outside ls) := by
  unfold written
  rw [deleteLines, deleteLine, if_pos bracket]
  split <;> simp [fresh, outside]

theorem written_outside (bracket : l.head? ≠ some '[') :
    written hx outside (l :: ls) = readLine l :: written hx outside ls := by
  unfold written
  rw [deleteLines, deleteLine, if_neg bracket]
  rfl

theorem written_leavingOut (bracket : l.head? ≠ some '[') (wrote : Bool) :
    written hx (leavingOut wrote) (l :: ls) = written hx (leavingOut wrote) ls := by
  unfold written
  rw [deleteLines, deleteLine, if_neg bracket]
  rfl

theorem written_key (bracket : l.head? ≠ some '[') (key : namesKey hx l = true) (wrote : Bool) :
    written hx ⟨true, false, wrote⟩ (l :: ls) = written hx (leavingOut wrote) ls := by
  unfold written
  rw [deleteLines, deleteLine, if_neg bracket]
  simp [key, leavingOut]

theorem written_copying (bracket : l.head? ≠ some '[') (key : namesKey hx l = false) :
    written hx copying (l :: ls) = readLine l :: written hx copying ls := by
  unfold written
  rw [deleteLines, deleteLine, if_neg bracket]
  simp [key, copying]

theorem written_fresh (bracket : l.head? ≠ some '[') (key : namesKey hx l = false) :
    written hx fresh (l :: ls) = .header "Peer".toList :: readLine l :: written hx copying ls := by
  unfold written
  rw [deleteLines, deleteLine, if_neg bracket]
  simp [key, copying, fresh]
  rfl

end

/-- A section with its place in the loop: the flags after its header, and the line after that. -/
structure Placed where
  flags : DeleteState
  sect : RawSection
  next : Option (List Char)
  deriving DecidableEq

def placed (hx : List Char) : DeleteState → List (List Char) → List Placed
  | _, [] => []
  | st, l :: ls =>
    if isHeader l then ⟨(deleteLine hx st l).1, ⟨l, bodyOf ls⟩, ls.head?⟩ :: placed hx (deleteLine hx st l).1 ls
    else placed hx (deleteLine hx st l).1 ls

/-- The entries of lines without headers. -/
def entriesIn (ls : List (List Char)) : List IniEntry := entriesOf (ls.map readLine)

/-- The lines of a body up to one that starts with a bracket, where the loop leaves the peer. -/
def innerLines (body : List (List Char)) : List (List Char) := body.takeWhile fun l => l.head? ≠ some '['

/-- The lines from there on. -/
def outerLines (body : List (List Char)) : List (List Char) := body.dropWhile fun l => l.head? ≠ some '['

/-- The lines of a peer before one about the key. -/
def uncutLines (hx : List Char) (body : List (List Char)) : List (List Char) := (innerLines body).takeWhile fun l => !namesKey hx l

/-- The lines of a peer from one about the key on, which are not copied. -/
def cutLines (hx : List Char) (body : List (List Char)) : List (List Char) := (innerLines body).dropWhile fun l => !namesKey hx l

/-- The entries of a peer that are copied. -/
def copied (hx : List Char) (body : List (List Char)) : List IniEntry := entriesIn (uncutLines hx body) ++ entriesIn (outerLines body)

namespace Placed

/-- The section starts a peer for the loop. -/
def opensPeer (p : Placed) : Bool := p.flags.inPeer && !p.flags.skipPeer && !p.flags.wrotePeer

/-- The loop does not write the header of the section: it is in a part that is left out, or the line after it is about
    the key. -/
def gone (hx : List Char) (p : Placed) : Bool :=
  p.flags.skipPeer || p.opensPeer && p.next.any fun l => l.head? ≠ some '[' && namesKey hx l

/-- What is left of the section. -/
def left (hx : List Char) (p : Placed) : Option IniSection :=
  if p.gone hx then none
  else some ⟨if p.opensPeer then "Peer".toList else headerName p.sect.header,
    if p.flags.inPeer then copied hx p.sect.body else entriesIn p.sect.body⟩

end Placed

/-- What is written of the next sections without their headers. -/
def spilled (hx : List Char) : List Placed → List IniEntry
  | [] => []
  | p :: ps => if p.gone hx then entriesIn (outerLines p.sect.body) ++ spilled hx ps else []

/-- The sections of the new text. What has lost its header is read as of the section before it. -/
def remaining (hx : List Char) : List Placed → List IniSection
  | [] => []
  | p :: ps =>
    match p.left hx with
    | none => remaining hx ps
    | some s => ⟨s.name, s.entries ++ spilled hx ps⟩ :: remaining hx ps

section
variable {hx l : List Char} {ls : List (List Char)} {st : DeleteState}

theorem deleteLine_bracket (bracket : l.head? = some '[') :
    (deleteLine hx st l).1 = if strstr l "[Peer]".toList then fresh else outside := by
  rw [deleteLine, if_pos bracket]
  split <;> rfl

theorem deleteLine_line (hx : List Char) (bracket : l.head? ≠ some '[') :
    (deleteLine hx outside l).1 = outside ∧
      (∀ wrote, (deleteLine hx (leavingOut wrote) l).1 = leavingOut wrote) ∧
      ∀ wrote, (deleteLine hx ⟨true, false, wrote⟩ l).1 = if namesKey hx l then leavingOut wrote else copying := by
  refine ⟨?_, fun wrote => ?_, fun wrote => ?_⟩
  · rw [deleteLine, if_neg bracket]
    rfl
  · rw [deleteLine, if_neg bracket]
    rfl
  · rw [deleteLine, if_neg bracket]
    cases namesKey hx l <;> cases wrote <;> rfl

theorem placed_header (header : isHeader l = true) : placed hx st (l :: ls) =
    ⟨(deleteLine hx st l).1, ⟨l, bodyOf ls⟩, ls.head?⟩ :: placed hx (deleteLine hx st l).1 ls := if_pos header

theorem placed_line (line : isHeader l = false) : placed hx st (l :: ls) = placed hx (deleteLine hx st l).1 ls :=
  if_neg (by rw [line]; exact Bool.false_ne_true)

theorem entriesIn_line (line : isHeader l = false) : entriesIn (l :: ls) = entryOf l ++ entriesIn ls :=
  (entriesOf_line line _).1

theorem innerLines_bracket (bracket : l.head? = some '[') (ls : List (List Char)) : innerLines (l :: ls) = [] :=
  List.takeWhile_cons_of_neg (by simp [bracket])

theorem outerLines_bracket (bracket : l.head? = some '[') (ls : List (List Char)) : outerLines (l :: ls) = l :: ls :=
  List.dropWhile_cons_of_neg (by simp [bracket])

theorem innerLines_line (bracket : l.head? ≠ some '[') (ls : List (List Char)) : innerLines (l :: ls) = l :: innerLines ls :=
  List.takeWhile_cons_of_pos (by simp [bracket])

theorem outerLines_line (bracket : l.head? ≠ some '[') (ls : List (List Char)) : outerLines (l :: ls) = outerLines ls :=
  List.dropWhile_cons_of_pos (by simp [bracket])

theorem copied_bracket (bracket : l.head? = some '[') : copied hx (l :: ls) = entriesIn (l :: ls) := by
  rw [copied, uncutLines, innerLines_bracket bracket, outerLines_bracket bracket]
  rfl

theorem copied_key (bracket : l.head? ≠ some '[') (key : namesKey hx l = true) :
    copied hx (l :: ls) = entriesIn (outerLines ls) := by
  rw [copied, uncutLines, innerLines_line bracket, outerLines_line bracket, List.takeWhile_cons_of_neg (by rw [key]; decide)]
  rfl

theorem copied_line (bracket : l.head? ≠ some '[') (line : isHeader l = false) (key : namesKey hx l = false) :
    copied hx (l :: ls) = entryOf l ++ copied hx ls := by
  rw [copied, uncutLines, innerLines_line bracket, outerLines_line bracket, List.takeWhile_cons_of_pos (by rw [key]; rfl),
    entriesIn_line line, List.append_assoc]
  rfl

theorem spilled_gone {p : Placed} (gone : p.gone hx = true) (ps : List Placed) :
    spilled hx (p :: ps) = entriesIn (outerLines p.sect.body) ++ spilled hx ps := if_pos gone

theorem remaining_gone {p : Placed} (gone : p.gone hx = true) (ps : List Placed) :
    remaining hx (p :: ps) = remaining hx ps := by
  rw [remaining, Placed.left, if_pos gone]

theorem spilled_left {p : Placed} {s : IniSection} (left : p.left hx = some s) (ps : List Placed) :
    spilled hx (p :: ps) = [] := by
  refine if_neg fun gone => ?_
  rw [Placed.left, if_pos gone] at left
  cases left

theorem remaining_left {p : Placed} {s : IniSection} (left : p.left hx = some s) (ps : List Placed) :
    remaining hx (p :: ps) = ⟨s.name, s.entries ++ spilled hx ps⟩ :: remaining hx ps := by
  rw [remaining, left]

/-- The lines are read as these sections, after entries that belong to none of them. -/
structure IsRead (out : List IniLine) (entries : List IniEntry) (sections : List IniSection) : Prop where
  entries : entriesOf out = entries
  sections : sectionsOf out = sections

theorem IsRead.header {out : List IniLine} {es : List IniEntry} {ss : List IniSection} (h : IsRead out es ss) (name : List Char) :
    IsRead (.header name :: out) [] (⟨name, es⟩ :: ss) := by
  refine ⟨rfl, ?_⟩
  rw [sectionsOf, h.entries, h.sections]

theorem IsRead.line {out : List IniLine} {es : List IniEntry} {ss : List IniSection} (h : IsRead out es ss)
    (line : isHeader l = false) : IsRead (readLine l :: out) (entryOf l ++ es) ss := by
  refine ⟨?_, ?_⟩
  · rw [(entriesOf_line line _).1, h.entries]
  · rw [(entriesOf_line line _).2, h.sections]

/-- What the loop writes from a state on: the entries before the first header, and the sections. -/
structure Leaves (hx : List Char) (ls : List (List Char)) : Prop where
  outside : IsRead (written hx outside ls) (entriesIn (bodyOf ls) ++ spilled hx (placed hx outside ls))
    (remaining hx (placed hx outside ls))
  copying : IsRead (written hx copying ls) (copied hx (bodyOf ls) ++ spilled hx (placed hx copying ls))
    (remaining hx (placed hx copying ls))
  leavingOut (wrote : Bool) : IsRead (written hx (leavingOut wrote) ls)
    (entriesIn (outerLines (bodyOf ls)) ++ spilled hx (placed hx (leavingOut wrote) ls))
    (remaining hx (placed hx (leavingOut wrote) ls))
  fresh (header : List Char) : IsRead (written hx fresh ls)
    (spilled hx (⟨fresh, ⟨header, bodyOf ls⟩, ls.head?⟩ :: placed hx fresh ls))
    (remaining hx (⟨fresh, ⟨header, bodyOf ls⟩, ls.head?⟩ :: placed hx fresh ls))

theorem leaves_nil (hx : List Char) : Leaves hx [] where
  outside := ⟨rfl, rfl⟩
  copying := ⟨rfl, rfl⟩
  leavingOut _ := ⟨rfl, rfl⟩
  fresh _ := ⟨rfl, rfl⟩

/-- The header of a peer of which a line has been written. -/
theorem left_fresh (hx header : List Char) (body : List (List Char)) (next : Option (List Char))
    (kept : (next.any fun l => l.head? ≠ some '[' && namesKey hx l) = false) :
    Placed.left hx ⟨fresh, ⟨header, body⟩, next⟩ = some ⟨"Peer".toList, copied hx body⟩ := by
  unfold Placed.left Placed.gone
  rw [kept]
  rfl

/-- A header in the first column is the same in each state, but for what is due before it. -/
theorem leaves_header (bracket : l.head? = some '[') (header : isHeader l = true) (ih : Leaves hx ls) :
    Leaves hx (l :: ls) := by
  obtain ⟨rest, hrest⟩ : ∃ rest, rest =
    if strstr l "[Peer]".toList then written hx fresh ls else readLine l :: written hx outside ls := ⟨_, rfl⟩
  have step (st : DeleteState) : written hx st (l :: ls) = st.pending.map readLine ++ rest := by
    rw [hrest, written_header bracket]
  have none_ : bodyOf (l :: ls) = [] := bodyOf_header header ls
  have body (st : DeleteState) :
      IsRead rest (spilled hx (placed hx st (l :: ls))) (remaining hx (placed hx st (l :: ls))) := by
    rw [placed_header header, deleteLine_bracket bracket, hrest]
    split
    · exact ih.fresh l
    · rw [readLine_header header]
      exact ih.outside.header _
  refine ⟨?_, ?_, fun wrote => ?_, fun first => ?_⟩
  · rw [step, none_]
    exact body outside
  · rw [step, none_]
    exact body copying
  · rw [step, none_]
    exact body (leavingOut wrote)
  · have left := left_fresh hx first [] (some l) (by simp [bracket])
    rw [step, none_, List.head?_cons, spilled_left left, remaining_left left]
    exact (body fresh).header _

/-- A line that starts with a bracket and has `[Peer]` in it is a header for the loader. -/
theorem isHeader_of_peer (text : '\x00' ∉ l) (bracket : l.head? = some '[') (peer : strstr l "[Peer]".toList = true) :
    isHeader l = true := by
  obtain ⟨rest, rfl⟩ := List.head?_eq_some_iff.mp bracket
  have close : ']' ∈ '[' :: rest := (strstr_iff.mp peer).subset (by decide)
  -- neither bracket is trimmed
  obtain ⟨kept, hkept⟩ : ∃ kept, ('[' :: rest).rdropWhile isSpace = '[' :: kept := by
    have first := mem_rdropWhile (p := isSpace) (List.mem_cons_self (a := '[') (l := rest)) (by decide)
    obtain ⟨more, split⟩ := List.rdropWhile_prefix isSpace ('[' :: rest)
    cases hd : ('[' :: rest).rdropWhile isSpace with
    | nil => rw [hd] at first; cases first
    | cons c kept =>
      rw [hd, List.cons_append] at split
      cases split
      exact ⟨kept, rfl⟩
  have closed : ']' ∈ kept := by
    have there := mem_rdropWhile (p := isSpace) close (by decide)
    rw [hkept] at there
    exact (List.mem_cons.mp there).resolve_left (by decide)
  have trimmed : trim ('[' :: rest) = '[' :: kept := by
    rw [trim, hkept]
    exact List.dropWhile_cons_of_neg (by decide)
  simp [isHeader, readLine, cString_of_text text, trimmed, strchr, closed]

/-- A bracket that is none for the loader ends what the loop does with the peer. -/
theorem leaves_bracket (text : '\x00' ∉ l) (bracket : l.head? = some '[') (line : isHeader l = false)
    (ih : Leaves hx ls) : Leaves hx (l :: ls) := by
  have other : ¬ strstr l "[Peer]".toList = true := fun peer => by
    rw [isHeader_of_peer text bracket peer] at line
    cases line
  have place (st : DeleteState) : placed hx st (l :: ls) = placed hx outside ls := by
    rw [placed_line line, deleteLine_bracket bracket, if_neg other]
  have step (st : DeleteState) : written hx st (l :: ls) = st.pending.map readLine ++ readLine l :: written hx outside ls := by
    rw [written_header bracket, if_neg other]
  have body : IsRead (readLine l :: written hx outside ls)
      (entriesIn (l :: bodyOf ls) ++ spilled hx (placed hx outside ls)) (remaining hx (placed hx outside ls)) := by
    rw [entriesIn_line line, List.append_assoc]
    exact ih.outside.line line
  refine ⟨?_, ?_, fun wrote => ?_, fun first => ?_⟩
  · rw [place, step, bodyOf_line line]
    exact body
  · rw [place, step, bodyOf_line line, copied_bracket bracket]
    exact body
  · rw [place, step, bodyOf_line line, outerLines_bracket bracket]
    exact body
  · have left := left_fresh hx first (l :: bodyOf ls) (some l) (by simp [bracket])
    rw [place, step, bodyOf_line line, List.head?_cons, spilled_left left, remaining_left left, copied_bracket bracket]
    exact body.header _

/-- An indented header is a line like others for the loop. -/
theorem leaves_indented (bracket : l.head? ≠ some '[') (header : isHeader l = true) (ih : Leaves hx ls) :
    Leaves hx (l :: ls) := by
  obtain ⟨stays, skips, moves⟩ := deleteLine_line hx bracket
  have none_ : bodyOf (l :: ls) = [] := bodyOf_header header ls
  -- in a part that is left out the header is not written
  have lost (wrote : Bool) : IsRead (written hx (leavingOut wrote) ls)
      (spilled hx (⟨leavingOut wrote, ⟨l, bodyOf ls⟩, ls.head?⟩ :: placed hx (leavingOut wrote) ls))
      (remaining hx (⟨leavingOut wrote, ⟨l, bodyOf ls⟩, ls.head?⟩ :: placed hx (leavingOut wrote) ls)) := by
    rw [spilled_gone rfl, remaining_gone rfl]
    exact ih.leavingOut wrote
  have copies : IsRead (readLine l :: written hx copying ls)
      (spilled hx (⟨copying, ⟨l, bodyOf ls⟩, ls.head?⟩ :: placed hx copying ls))
      (remaining hx (⟨copying, ⟨l, bodyOf ls⟩, ls.head?⟩ :: placed hx copying ls)) := by
    rw [readLine_header header]
    exact ih.copying.header _
  refine ⟨?_, ?_, fun wrote => ?_, fun first => ?_⟩
  · rw [placed_header header, stays, written_outside bracket, none_, readLine_header header]
    exact ih.outside.header _
  · rw [placed_header header, copying, moves]
    cases key : namesKey hx l with
    | true =>
      rw [if_pos rfl, written_key bracket key, none_]
      exact lost true
    | false =>
      rw [if_neg Bool.false_ne_true, ← copying, written_copying bracket key, none_]
      exact copies
  · rw [placed_header header, skips, written_leavingOut bracket, none_]
    exact lost wrote
  · rw [placed_header header, none_, List.head?_cons]
    cases key : namesKey hx l with
    | true =>
      have gone : Placed.gone hx ⟨fresh, ⟨first, []⟩, some l⟩ = true := by
        simp [Placed.gone, Placed.opensPeer, fresh, key, bracket]
      rw [spilled_gone gone, remaining_gone gone, fresh, moves, key, if_pos rfl, written_key bracket key]
      exact lost false
    | false =>
      have left := left_fresh hx first [] (some l) (by simp [key])
      rw [spilled_left left, remaining_left left, fresh, moves, key, if_neg Bool.false_ne_true, ← fresh,
        written_fresh bracket key]
      exact copies.header _

theorem leaves_line (bracket : l.head? ≠ some '[') (line : isHeader l = false) (ih : Leaves hx ls) : Leaves hx (l :: ls) := by
  obtain ⟨stays, skips, moves⟩ := deleteLine_line hx bracket
  have copies (key : namesKey hx l = false) : IsRead (readLine l :: written hx copying ls)
      (copied hx (l :: bodyOf ls) ++ spilled hx (placed hx copying ls)) (remaining hx (placed hx copying ls)) := by
    rw [copied_line bracket line key, List.append_assoc]
    exact ih.copying.line line
  refine ⟨?_, ?_, fun wrote => ?_, fun first => ?_⟩
  · rw [placed_line line, stays, written_outside bracket, bodyOf_line line, entriesIn_line line, List.append_assoc]
    exact ih.outside.line line
  · rw [placed_line line, copying, moves, bodyOf_line line]
    cases key : namesKey hx l with
    | true =>
      rw [if_pos rfl, written_key bracket key, copied_key bracket key]
      exact ih.leavingOut true
    | false =>
      rw [if_neg Bool.false_ne_true, ← copying, written_copying bracket key]
      exact copies key
  · rw [placed_line line, skips, written_leavingOut bracket, bodyOf_line line, outerLines_line bracket]
    exact ih.leavingOut wrote
  · rw [placed_line line, bodyOf_line line, List.head?_cons]
    cases key : namesKey hx l with
    | true =>
      have gone : Placed.gone hx ⟨fresh, ⟨first, l :: bodyOf ls⟩, some l⟩ = true := by
        simp [Placed.gone, Placed.opensPeer, fresh, key, bracket]
      rw [spilled_gone gone, remaining_gone gone, outerLines_line bracket, fresh, moves, key, if_pos rfl,
        written_key bracket key]
      exact ih.leavingOut false
    | false =>
      have left := left_fresh hx first (l :: bodyOf ls) (some l) (by simp [key])
      rw [spilled_left left, remaining_left left, fresh, moves, key, if_neg Bool.false_ne_true, ← fresh,
        written_fresh bracket key]
      exact (copies key).header _

theorem leaves (hx : List Char) {ls : List (List Char)} (text : ∀ l ∈ ls, '\x00' ∉ l) : Leaves hx ls := by
  induction ls with
  | nil => exact leaves_nil hx
  | cons l ls ih =>
    rw [List.forall_mem_cons] at text
    replace ih := ih text.2
    by_cases bracket : l.head? = some '['
    · cases header : isHeader l with
      | true => exact leaves_header bracket header ih
      | false => exact leaves_bracket text.1 bracket header ih
    · cases header : isHeader l with
      | true => exact leaves_indented bracket header ih
      | false => exact leaves_line bracket header ih

end

/-! ### The new text -/

theorem pending_eq (st : DeleteState) : st.pending = [] ∨ st.pending = [peerHeader] := by
  unfold DeleteState.pending
  split
  · exact .inr rfl
  · exact .inl rfl

/-- A line is written or not, at times after a header, and no header comes after the last one. -/
theorem deleteLine_writes (hx : List Char) (st : DeleteState) (line : List Char) :
    ∃ front, (front = [] ∨ front = [peerHeader]) ∧ ((deleteLine hx st line).2 = front ∨
      (deleteLine hx st line).2 = front ++ [line] ∧ (deleteLine hx st line).1.pending = []) := by
  rw [deleteLine]
  split
  · refine ⟨st.pending, pending_eq st, ?_⟩
    split
    · exact .inl rfl
    · exact .inr ⟨rfl, rfl⟩
  · dsimp only
    split
    · exact ⟨[], .inl rfl, .inl rfl⟩
    next copies =>
      split
      · exact ⟨[peerHeader], .inr rfl, .inr ⟨rfl, by simp [DeleteState.pending]⟩⟩
      next open_ => exact ⟨[], .inl rfl, .inr ⟨rfl, by simp_all [DeleteState.pending]⟩⟩

theorem isLines_front {front rest : List (List Char)} (hfront : front = [] ∨ front = [peerHeader]) (h : IsLines '\n' rest) :
    IsLines '\n' (front ++ rest) := by
  have plain : '\n' ∉ "[Peer]".toList := by decide
  rcases hfront with rfl | rfl
  · exact h
  · exact .ended plain h

theorem isLines_deleteLines {ls : List (List Char)} (h : IsLines '\n' ls) (hx : List Char) (st : DeleteState) :
    IsLines '\n' (deleteLines hx st ls) := by
  induction h generalizing st with
  | nil =>
    rw [deleteLines, ← List.append_nil st.pending]
    exact isLines_front (pending_eq st) .nil
  | @last line some_ hline =>
    rw [deleteLines, deleteLines]
    obtain ⟨front, hfront, out | ⟨out, closed⟩⟩ := deleteLine_writes hx st line
    · rw [out]
      refine isLines_front hfront ?_
      rw [← List.append_nil (DeleteState.pending _)]
      exact isLines_front (pending_eq _) .nil
    · rw [out, closed, List.append_nil]
      exact isLines_front hfront (.last some_ hline)
  | @ended line rest hline more ih =>
    rw [deleteLines]
    obtain ⟨front, hfront, out | ⟨out, -⟩⟩ := deleteLine_writes hx st (line ++ ['\n'])
    · rw [out]
      exact isLines_front hfront (ih _)
    · rw [out, List.append_assoc]
      exact isLines_front hfront (.ended hline (ih _))

theorem mem_deleteLines {ls : List (List Char)} {hx l : List Char} {st : DeleteState} (h : l ∈ deleteLines hx st ls) :
    l = peerHeader ∨ l ∈ ls := by
  have header {front : List (List Char)} (hfront : front = [] ∨ front = [peerHeader]) (h : l ∈ front) : l = peerHeader := by
    rcases hfront with rfl | rfl
    · cases h
    · exact List.mem_singleton.1 h
  induction ls generalizing st with
  | nil => exact .inl (header (pending_eq st) h)
  | cons line ls ih =>
    rw [deleteLines, List.mem_append] at h
    obtain ⟨front, hfront, out | ⟨out, -⟩⟩ := deleteLine_writes hx st line
    · rw [out] at h
      rcases h with h | h
      · exact .inl (header hfront h)
      · exact (ih h).imp_right (List.mem_cons_of_mem _)
    · rw [out, List.mem_append, List.mem_singleton] at h
      rcases h with (h | rfl) | h
      · exact .inl (header hfront h)
      · exact .inr List.mem_cons_self
      · exact (ih h).imp_right (List.mem_cons_of_mem _)

/-! ### Exactly the peer -/

/-- A `[Peer]` section for the loader, whose `PublicKey` is `hx`. -/
def IniSection.isPeerOf (hx : List Char) (s : IniSection) : Bool :=
  strcasecmpEq s.name "Peer".toList && getEntry "PublicKey".toList s.entries == some hx

/-- The loader reads the new text as the old one without the sections of the key. -/
def DeletesExactly (hx file : List Char) : Prop :=
  (iniconfLoad (rewriteConf hx file)).sections = (iniconfLoad file).sections.filter fun s => !s.isPeerOf hx

instance (hx file : List Char) : Decidable (DeletesExactly hx file) := by unfold DeletesExactly; infer_instance

theorem body_rawSections {ls : List (List Char)} {s : RawSection} (h : s ∈ rawSections ls) :
    ∀ l ∈ s.body, isHeader l = false := by
  induction ls with
  | nil => cases h
  | cons l ls ih =>
    cases header : isHeader l with
    | true =>
      rw [rawSections_header header, List.mem_cons] at h
      rcases h with rfl | h
      · intro l hl
        have kept := List.mem_takeWhile_imp hl
        exact (Bool.not_eq_true' _).mp kept
      · exact ih h
    | false =>
      rw [rawSections_line header] at h
      exact ih h

theorem entriesOf_append {front : List (List Char)} (h : ∀ l ∈ front, isHeader l = false) (rest : List (List Char)) :
    entriesOf ((front ++ rest).map readLine) = entriesOf (front.map readLine) ++ entriesOf (rest.map readLine) := by
  induction front with
  | nil => rfl
  | cons l front ih =>
    rw [List.forall_mem_cons] at h
    rw [List.cons_append, List.map_cons, List.map_cons, (entriesOf_line h.1 _).1, (entriesOf_line h.1 _).1, ih h.2,
      List.append_assoc]

theorem entriesOf_eq_nil {ls : List (List Char)} (h : ∀ l ∈ ls, isHeader l = false) :
    entriesOf (ls.map readLine) = [] ↔ ∀ l ∈ ls, entryOf l = [] := by
  induction ls with
  | nil => exact iff_of_true rfl fun _ hl => absurd hl List.not_mem_nil
  | cons l ls ih =>
    rw [List.forall_mem_cons] at h
    rw [List.map_cons, (entriesOf_line h.1 _).1, List.append_eq_nil_iff, ih h.2, List.forall_mem_cons]

theorem map_placed (hx : List Char) (st : DeleteState) (ls : List (List Char)) :
    (placed hx st ls).map (·.sect) = rawSections ls := by
  induction ls generalizing st with
  | nil => rfl
  | cons l ls ih =>
    cases header : isHeader l with
    | true => rw [placed_header header, rawSections_header header, List.map_cons, ih]
    | false => rw [placed_line header, rawSections_line header, ih]

/-- The entries of a section: those before a line about the key, those from there to the end of the peer, and the
    others. -/
theorem entriesIn_body {s : RawSection} {ls : List (List Char)} (h : s ∈ rawSections ls) (hx : List Char) :
    entriesIn s.body =
      entriesIn (uncutLines hx s.body) ++ (entriesIn (cutLines hx s.body) ++ entriesIn (outerLines s.body)) := by
  have plain := body_rawSections h
  have inside : ∀ l ∈ innerLines s.body, isHeader l = false := fun l hl => plain l ((List.takeWhile_sublist _).subset hl)
  have first : ∀ l ∈ uncutLines hx s.body, isHeader l = false := fun l hl =>
    inside l ((List.takeWhile_sublist _).subset hl)
  have split : innerLines s.body = uncutLines hx s.body ++ cutLines hx s.body := List.takeWhile_append_dropWhile.symm
  have all : s.body = innerLines s.body ++ outerLines s.body := List.takeWhile_append_dropWhile.symm
  calc entriesIn s.body
    _ = entriesIn (innerLines s.body) ++ entriesIn (outerLines s.body) := by
      conv => lhs; rw [all]
      exact entriesOf_append inside _
    _ = _ := by
      rw [split, ← List.append_assoc]
      exact congrArg (· ++ _) (entriesOf_append first _)

/-- All entries of a peer are copied just if there is none from a line about the key on to the end of the peer. -/
theorem copied_eq_iff {s : RawSection} {ls : List (List Char)} (h : s ∈ rawSections ls) (hx : List Char) :
    copied hx s.body = entriesIn s.body ↔ ∀ l ∈ cutLines hx s.body, entryOf l = [] := by
  have cut : entriesIn (cutLines hx s.body) = [] ↔ ∀ l ∈ cutLines hx s.body, entryOf l = [] :=
    entriesOf_eq_nil fun l hl => body_rawSections h l ((List.takeWhile_sublist _).subset ((List.dropWhile_sublist _).subset hl))
  rw [← cut, entriesIn_body h hx, copied]
  refine ⟨fun same => ?_, fun none_ => by rw [none_]; rfl⟩
  have lengths := congrArg List.length same
  simp only [List.length_append] at lengths
  exact List.eq_nil_of_length_eq_zero (by omega)

theorem outerLines_eq_nil_iff {s : RawSection} {ls : List (List Char)} (h : s ∈ rawSections ls) :
    entriesIn (outerLines s.body) = [] ↔ ∀ l ∈ outerLines s.body, entryOf l = [] :=
  entriesOf_eq_nil fun l hl => body_rawSections h l ((List.dropWhile_sublist _).subset hl)

/-- What a section has to be like. One of the key is in a part that is left out, or it starts such a part, and it has no
    entries after it. Another one is not; it is called `Peer` if the loop takes it for one; and of its entries those that
    the loader keeps are copied. -/
def Handled (hx : List Char) (p : Placed) : Prop :=
  if p.sect.read.clip.isPeerOf hx then p.gone hx = true ∧ ∀ l ∈ outerLines p.sect.body, entryOf l = []
  else p.gone hx = false ∧ (p.opensPeer = true → headerName p.sect.header = "Peer".toList) ∧
    (p.flags.inPeer = true → (copied hx p.sect.body).take iniMaxKeys = (entriesIn p.sect.body).take iniMaxKeys)

instance (hx : List Char) (p : Placed) : Decidable (Handled hx p) := by unfold Handled; infer_instance

/-- The sections up to the `n`th one that is not of the key. -/
def shown (hx : List Char) : Nat → List Placed → List Placed
  | 0, _ => []
  | _, [] => []
  | n + 1, p :: ps => p :: shown hx (if p.sect.read.clip.isPeerOf hx then n + 1 else n) ps

theorem mem_of_mem_shown {hx : List Char} {n : Nat} {ps : List Placed} {p : Placed} (h : p ∈ shown hx n ps) : p ∈ ps := by
  induction ps generalizing n with
  | nil => cases n <;> cases h
  | cons q ps ih =>
    cases n with
    | zero => cases h
    | succ n =>
      rcases List.mem_cons.mp h with rfl | h
      · exact List.mem_cons_self
      · exact List.mem_cons_of_mem _ (ih h)

/-- What should be left of a section. -/
def RawSection.wanted (hx : List Char) (s : RawSection) : Option IniSection :=
  if s.read.clip.isPeerOf hx then none else some s.read.clip

theorem filter_read (hx : List Char) (raws : List RawSection) :
    (raws.map (·.read.clip)).filter (fun s => !s.isPeerOf hx) = raws.filterMap (·.wanted hx) := by
  induction raws with
  | nil => rfl
  | cons s raws ih => cases peer : s.read.clip.isPeerOf hx <;> simp [peer, ih, RawSection.wanted]

section
variable {hx : List Char} {p : Placed} {ls : List (List Char)}

theorem left_eq_wanted_iff (gone : p.gone hx = true → ∀ l ∈ outerLines p.sect.body, entryOf l = []) :
    (p.left hx).map (·.clip) = p.sect.wanted hx ↔ Handled hx p := by
  unfold Handled RawSection.wanted Placed.left
  cases lost : p.gone hx with
  | true =>
    cases p.sect.read.clip.isPeerOf hx with
    | true => simpa using gone lost
    | false => simp
  | false =>
    cases p.sect.read.clip.isPeerOf hx with
    | true => simp
    | false => cases p.opensPeer <;> cases p.flags.inPeer <;> simp [IniSection.clip, RawSection.read, entriesIn, eq_comm]

theorem gone_of_handled (handled : Handled hx p) (lost : p.gone hx = true) :
    p.sect.read.clip.isPeerOf hx = true ∧ ∀ l ∈ outerLines p.sect.body, entryOf l = [] := by
  unfold Handled at handled
  split at handled
  next peer => exact ⟨peer, handled.2⟩
  next =>
    rw [lost] at handled
    cases handled.1

theorem left_of_handled (handled : Handled hx p) : (p.left hx).map (·.clip) = p.sect.wanted hx :=
  (left_eq_wanted_iff fun lost => (gone_of_handled handled lost).2).mpr handled

/-- Where nothing is left of the sections without their headers, the others have their own entries. -/
theorem spilled_eq_nil {ps : List Placed} (there : ∀ p ∈ ps, p.sect ∈ rawSections ls)
    (cleared : ∀ p ∈ ps, p.gone hx = true → ∀ l ∈ outerLines p.sect.body, entryOf l = []) : spilled hx ps = [] := by
  induction ps with
  | nil => rfl
  | cons p ps ih =>
    rw [List.forall_mem_cons] at there cleared
    cases lost : p.gone hx with
    | true => rw [spilled_gone lost, (outerLines_eq_nil_iff there.1).mpr (cleared.1 lost), ih there.2 cleared.2]; rfl
    | false => exact if_neg (by rw [lost]; exact Bool.false_ne_true)

theorem remaining_eq_filterMap {ps : List Placed} (there : ∀ p ∈ ps, p.sect ∈ rawSections ls)
    (cleared : ∀ p ∈ ps, p.gone hx = true → ∀ l ∈ outerLines p.sect.body, entryOf l = []) :
    remaining hx ps = ps.filterMap (·.left hx) := by
  induction ps with
  | nil => rfl
  | cons p ps ih =>
    rw [List.forall_mem_cons] at there cleared
    cases left : p.left hx with
    | none => rw [List.filterMap_cons_none left, remaining, left, ih there.2 cleared.2]
    | some s =>
      rw [List.filterMap_cons_some left, remaining_left left, spilled_eq_nil there.2 cleared.2, List.append_nil,
        ih there.2 cleared.2]

/-- Nothing that is shown goes to another section. -/
theorem spilled_of_shown {n : Nat} {ps : List Placed} (there : ∀ p ∈ ps, p.sect ∈ rawSections ls)
    (handled : ∀ p ∈ shown hx (n + 1) ps, Handled hx p) : spilled hx ps = [] := by
  induction ps with
  | nil => rfl
  | cons p ps ih =>
    rw [shown, List.forall_mem_cons] at handled
    rw [List.forall_mem_cons] at there
    cases lost : p.gone hx with
    | true =>
      obtain ⟨peer, none_⟩ := gone_of_handled handled.1 lost
      rw [if_pos peer] at handled
      rw [spilled_gone lost, (outerLines_eq_nil_iff there.1).mpr none_, ih there.2 handled.2]
      rfl
    | false => exact if_neg (by rw [lost]; exact Bool.false_ne_true)

theorem kept_remaining {ps : List Placed} (there : ∀ p ∈ ps, p.sect ∈ rawSections ls) (n : Nat)
    (handled : ∀ p ∈ shown hx n ps, Handled hx p) :
    kept n ((remaining hx ps).map (·.clip)) = kept n (ps.filterMap fun p => p.sect.wanted hx) := by
  induction ps generalizing n with
  | nil => rfl
  | cons p ps ih =>
    cases n with
    | zero => rw [kept, kept]
    | succ n =>
      rw [List.forall_mem_cons] at there
      rw [shown, List.forall_mem_cons] at handled
      have left := left_of_handled handled.1
      cases peer : p.sect.read.clip.isPeerOf hx with
      | true =>
        rw [RawSection.wanted, if_pos peer, Option.map_eq_none_iff] at left
        rw [peer, if_pos rfl] at handled
        rw [remaining, left, List.filterMap_cons_none (by rw [RawSection.wanted, if_pos peer])]
        exact ih there.2 _ handled.2
      | false =>
        rw [peer, if_neg Bool.false_ne_true] at handled
        have stays : p.sect.wanted hx = some p.sect.read.clip := if_neg (by rw [peer]; exact Bool.false_ne_true)
        rw [stays, Option.map_eq_some_iff] at left
        obtain ⟨s, hs, same⟩ := left
        rw [remaining_left hs, List.filterMap_cons_some (f := fun p : Placed => p.sect.wanted hx) stays, List.map_cons]
        cases n with
        | zero =>
          -- of the last one only the name is read
          have name := congrArg IniSection.name same
          exact congrArg (fun name => [(⟨name, []⟩ : IniSection)]) name
        | succ n =>
          rw [spilled_of_shown there.2 handled.2, List.append_nil, kept, kept, ih there.2 _ handled.2]
          exact congrArg (· :: _) same

end

section
variable {hx file : List Char} (text : '\x00' ∉ file) (short : ∀ line ∈ file.splitOn '\n', line.length < iniMaxLine - 1)
include text short

theorem lines_rewriteConf : Lines.lines '\n' (rewriteConf hx file) = deleteLines hx outside (Lines.lines '\n' file) := by
  rw [rewriteConf, deleteLoop_eq hx _ _ _ (Nat.le_refl _) text short]
  exact lines_flatten (isLines_deleteLines (isLines_lines file) hx outside)

theorem load_rewriteConf : (iniconfLoad (rewriteConf hx file)).sections =
    kept iniMaxSections ((remaining hx (placed hx outside (Lines.lines '\n' file))).map (·.clip)) := by
  have shorter : ∀ line ∈ (rewriteConf hx file).splitOn '\n', line.length < iniMaxLine - 1 := by
    refine (length_lt_iff (by decide) _).2 fun line hline => ?_
    rw [lines_rewriteConf text short] at hline
    rcases mem_deleteLines hline with rfl | old
    · decide
    · exact (length_lt_iff (by decide) file).1 short line old
  have lines_text : ∀ l ∈ Lines.lines '\n' file, '\x00' ∉ l := fun l hl nul => text (mem_of_mem_lines hl nul)
  have left := (leaves hx lines_text).outside.sections
  rw [written] at left
  rw [iniconfLoad_clip shorter, sectionsIn_lines, lines_rewriteConf text short, ← sectionsOf_rawSections, left]

omit text in
theorem load_filter : (iniconfLoad file).sections =
    kept iniMaxSections ((rawSections (Lines.lines '\n' file)).map (·.read.clip)) := by
  rw [iniconfLoad_clip short, sectionsIn_lines, List.map_map]
  rfl

end

/-- Lists of the parts that are kept are the same only if each part is, where the first one keeps a part whenever
    the second one does. -/
theorem filterMap_eq_iff {α β : Type} {f g : α → Option β} {xs : List α} (covers : ∀ x ∈ xs, f x = none → g x = none) :
    xs.filterMap f = xs.filterMap g ↔ ∀ x ∈ xs, f x = g x := by
  have longer (xs : List α) (covers : ∀ x ∈ xs, f x = none → g x = none) :
      (xs.filterMap g).length ≤ (xs.filterMap f).length := by
    induction xs with
    | nil => exact Nat.le_refl _
    | cons x xs ih =>
      rw [List.forall_mem_cons] at covers
      have later := ih covers.2
      cases hf : f x with
      | none => rwa [List.filterMap_cons_none hf, List.filterMap_cons_none (covers.1 hf)]
      | some b =>
        rw [List.filterMap_cons_some hf, List.length_cons]
        cases hg : g x with
        | none => rw [List.filterMap_cons_none hg]; omega
        | some c => rw [List.filterMap_cons_some hg, List.length_cons]; omega
  refine ⟨fun same => ?_, List.filterMap_congr⟩
  induction xs with
  | nil => exact fun _ h => absurd h List.not_mem_nil
  | cons x xs ih =>
    rw [List.forall_mem_cons] at covers ⊢
    cases hf : f x with
    | none =>
      rw [List.filterMap_cons_none hf, List.filterMap_cons_none (covers.1 hf)] at same
      exact ⟨(covers.1 hf).symm, ih covers.2 same⟩
    | some b =>
      rw [List.filterMap_cons_some hf] at same
      cases hg : g x with
      | none =>
        have lengths := congrArg List.length same
        have := longer xs covers.2
        rw [List.filterMap_cons_none hg, List.length_cons] at lengths
        omega
      | some c =>
        rw [List.filterMap_cons_some hg, List.cons.injEq] at same
        exact ⟨congrArg some same.1, ih covers.2 same.2⟩

/-- The limit of eight sections does not show: the loader takes the same of the sections with and without those of the
    key. -/
def LimitHidden (hx : List Char) (sections : List IniSection) : Prop :=
  kept iniMaxSections (sections.filter fun s => !s.isPeerOf hx) = (kept iniMaxSections sections).filter fun s => !s.isPeerOf hx

instance (hx : List Char) (sections : List IniSection) : Decidable (LimitHidden hx sections) := by unfold LimitHidden; infer_instance

theorem mem_kept {n : Nat} {sections : List IniSection} {s : IniSection} (h : s ∈ kept n sections) :
    s ∈ sections ∨ s.entries = [] := by
  induction n, sections using kept.induct with
  | case1 => cases h
  | case2 n hn => rw [kept] at h; cases h; exact hn
  | case3 t ts => rw [List.mem_singleton.mp h]; exact .inr rfl
  | case4 n t ts ih =>
    rcases List.mem_cons.mp h with rfl | h
    · exact .inl List.mem_cons_self
    · exact (ih h).imp_left (List.mem_cons_of_mem _)

/-- So it is with fewer than eight sections, and where no section is of the key. -/
theorem limitHidden_of {hx : List Char} {sections : List IniSection}
    (h : sections.length < iniMaxSections ∨ ∀ s ∈ sections, s.isPeerOf hx = false) : LimitHidden hx sections := by
  unfold LimitHidden
  rcases h with few | none_
  · rw [kept_of_lt few, kept_of_lt (Nat.lt_of_le_of_lt (List.length_filter_le ..) few)]
  · rw [List.filter_eq_self.mpr fun s hs => by rw [none_ s hs]; rfl]
    refine (List.filter_eq_self.mpr fun s hs => ?_).symm
    rcases mem_kept hs with there | empty
    · rw [none_ s there]
      rfl
    · simp [IniSection.isPeerOf, empty, getEntry]

/-- A text of fewer than eight sections in which the loop leaves out nothing but sections of the key. -/
structure Separate (hx file : List Char) : Prop where
  sections : (sectionsIn file).length < iniMaxSections
  gone : ∀ p ∈ placed hx outside (Lines.lines '\n' file), p.gone hx = true →
    p.sect.read.clip.isPeerOf hx = true ∧ ∀ l ∈ outerLines p.sect.body, entryOf l = []

section
variable {hx file : List Char}

theorem mem_placed {p : Placed} (hp : p ∈ placed hx outside (Lines.lines '\n' file)) :
    p.sect ∈ rawSections (Lines.lines '\n' file) := by
  rw [← map_placed hx outside]
  exact List.mem_map_of_mem hp

theorem filter_wanted :
    ((rawSections (Lines.lines '\n' file)).map (·.read.clip)).filter (fun s => !s.isPeerOf hx) =
      (placed hx outside (Lines.lines '\n' file)).filterMap fun p => p.sect.wanted hx := by
  rw [filter_read, ← map_placed hx outside, List.filterMap_map]
  rfl

variable (text : '\x00' ∉ file) (short : ∀ line ∈ file.splitOn '\n', line.length < iniMaxLine - 1)
include text short

theorem deletesExactly_iff_limit
    (handled : ∀ p ∈ shown hx iniMaxSections (placed hx outside (Lines.lines '\n' file)), Handled hx p) :
    DeletesExactly hx file ↔ LimitHidden hx ((sectionsIn file).map (·.clip)) := by
  have all : (sectionsIn file).map (·.clip) = (rawSections (Lines.lines '\n' file)).map (·.read.clip) := by
    rw [sectionsIn_lines, List.map_map]
    rfl
  rw [DeletesExactly, LimitHidden, load_rewriteConf text short, kept_remaining (fun p => mem_placed) _ handled,
    load_filter short, all, filter_wanted]

theorem Separate.deletesExactly_iff (separate : Separate hx file) :
    DeletesExactly hx file ↔ ∀ p ∈ placed hx outside (Lines.lines '\n' file), Handled hx p := by
  have cleared : ∀ p ∈ placed hx outside (Lines.lines '\n' file), p.gone hx = true →
      ∀ l ∈ outerLines p.sect.body, entryOf l = [] := fun p hp lost => (separate.gone p hp lost).2
  have count : (rawSections (Lines.lines '\n' file)).length < iniMaxSections := by
    rw [← List.length_map RawSection.read, ← sectionsIn_lines]
    exact separate.sections
  have fewer : ((placed hx outside (Lines.lines '\n' file)).filterMap
      fun p => (p.left hx).map (·.clip)).length < iniMaxSections := by
    refine Nat.lt_of_le_of_lt (List.length_filterMap_le ..) ?_
    rwa [← List.length_map Placed.sect, map_placed]
  rw [DeletesExactly, load_rewriteConf text short, remaining_eq_filterMap (fun p => mem_placed) cleared, List.map_filterMap,
    load_filter short, kept_of_lt fewer, kept_of_lt (by rwa [List.length_map]), filter_wanted]
  refine (filterMap_eq_iff fun p hp none_ => ?_).trans (forall₂_congr fun p hp => left_eq_wanted_iff (cleared p hp))
  have lost : p.gone hx = true := by
    by_contra stays
    rw [Placed.left, if_neg stays] at none_
    cases none_
  rw [RawSection.wanted, if_pos (separate.gone p hp lost).1]

end

/-- Where every section that the loader comes to is as `Handled` asks, exactly the sections of the key are deleted, if
    only the limit of eight sections does not show. In a text of fewer sections in which nothing but sections of the key
    is left out, every section has to be so. -/
theorem peer_delete_iff {hx file : List Char} (text : '\x00' ∉ file)
    (short : ∀ line ∈ file.splitOn '\n', line.length < iniMaxLine - 1) :
    ((∀ p ∈ shown hx iniMaxSections (placed hx outside (Lines.lines '\n' file)), Handled hx p) →
      (DeletesExactly hx file ↔ LimitHidden hx ((sectionsIn file).map (·.clip)))) ∧
    (Separate hx file →
      (DeletesExactly hx file ↔ ∀ p ∈ placed hx outside (Lines.lines '\n' file), Handled hx p)) :=
  ⟨deletesExactly_iff_limit text short, fun separate => separate.deletesExactly_iff text short⟩

def bobKey : List Char := List.replicate 64 'b'

/-- Two peers as `cmd_peer_add` writes them. -/
def twoPeers : List Char :=
  "[Interface]\nPort = 9000\n\n[Peer]\nPublicKey = ".toList ++ bobKey ++
    "\nEndpoint = bob\n\n[Peer]\nPublicKey = ".toList ++ List.replicate 64 'c' ++ "\nEndpoint = carol\n".toList

/-- The same with an indented header, a bracket that is none, and a note in a section that stays. -/
def roughPeers : List Char :=
  " [Interface]\nPort = 9000\n[note\nMtu = 1400\n[Peer]\nPublicKey = ".toList ++ bobKey ++
    "\nEndpoint = bob\n\n[peer]\nPublicKey = ".toList ++ List.replicate 64 'c' ++ "\n # not PublicKey = ".toList ++ bobKey

/-- More peers than the loader takes, of which only the last one is of the key. -/
def ninePeers : List Char := eightPeers ++ "\n[peer]\nPublicKey = ".toList ++ bobKey

theorem peer_delete_iff_twoPeers :
    (DeletesExactly bobKey twoPeers ∧ DeletesExactly bobKey roughPeers ∧ DeletesExactly bobKey ninePeers) ∧
      ∀ p ∈ placed bobKey outside (Lines.lines '\n' twoPeers), Handled bobKey p := by
  have handled : ∀ p ∈ placed bobKey outside (Lines.lines '\n' twoPeers), Handled bobKey p := by decide +kernel
  have exactly : DeletesExactly bobKey twoPeers :=
    ((peer_delete_iff (by decide +kernel) (by decide +kernel)).1 fun p hp => handled p (mem_of_mem_shown hp)).2
      (limitHidden_of (.inl (by decide +kernel)))
  refine ⟨⟨exactly, ?_, ?_⟩, ?_⟩
  · exact ((peer_delete_iff (by decide +kernel) (by decide +kernel)).1 (by decide +kernel)).2
      (limitHidden_of (.inl (by decide +kernel)))
  · exact ((peer_delete_iff (by decide +kernel) (by decide +kernel)).1 (by decide +kernel)).2
      (by decide +kernel)
  · exact ((peer_delete_iff (by decide +kernel) (by decide +kernel)).2
      ⟨by decide +kernel, by decide +kernel⟩).1 exactly

/-- A peer whose key is not the first entry. -/
def endpointFirst : List Char := "[Peer]\nEndpoint = bob:9000\nPublicKey = ".toList ++ bobKey ++ "\n".toList

-- Without `Separate.gone` two slips may cancel: what is left of one peer is the same as another one that is lost.
example : DeletesExactly bobKey (endpointFirst ++ "[Peer]\n# was PublicKey = ".toList ++ bobKey ++
    "\nEndpoint = bob:9000\n".toList) := by decide +kernel

/-- Its entries before the key stay; so does a peer in lower case, and one goes with a comment about the key,
    or after an indented header. -/
theorem peer_delete_leaves_rest :
    (¬ ∀ hx file, (∀ line ∈ file.splitOn '\n', line.length < iniMaxLine - 1) → DeletesExactly hx file) ∧
      (cmdPeerDelete ⟨fun _ => some (bobKey ++ ['\n']), some endpointFirst⟩ "bob".toList).2.conf.map
        (fun file => (iniconfLoad file).sections) = some [⟨"Peer".toList, [⟨"Endpoint".toList, "bob:9000".toList⟩]⟩] ∧
      ∀ file ∈ ["[peer]\nPublicKey = ".toList ++ bobKey,
        "[Peer]\n# not PublicKey = ".toList ++ bobKey ++ "\nEndpoint = carol".toList,
        "[Peer]\nPublicKey = ".toList ++ bobKey ++ "\n [Tunnel]\nKeepalive = 30".toList], ¬ DeletesExactly bobKey file := by
  refine ⟨fun hall => ?_, by decide +kernel, by decide +kernel⟩
  exact absurd (hall bobKey endpointFirst (by decide +kernel)) (by decide +kernel)

end AegisTunnel
