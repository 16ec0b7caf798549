import AegisTunnel.IniConfig
import AegisTunnel.Lib.Lines

/-! # What is loaded from a configuration file

A configuration text is read line by line: a line is blank, a comment, a section header or an entry of the
section it stands in. Within its limits the loader finds the same sections, but it leaves its loop as soon as
the eighth header has been read. -/

namespace AegisTunnel

/-! ### A plain reading of the text -/

def trim (text : List Char) : List Char := (text.rdropWhile isSpace).dropWhile isSpace

inductive IniLine where
  | skipped
  | header (name : List Char)
  | entry (key value : List Char)
  deriving DecidableEq, Repr

/-- What a line says; its text ends at a NUL, as that of every C string. -/
def readLine (line : List Char) : IniLine :=
  match trim (cString line) with
  | [] => .skipped
  | '#' :: _ => .skipped
  | ';' :: _ => .skipped
  | '[' :: rest =>
    match strchr ']' rest with
    | some (name, _) => .header name
    | none => .skipped
  | c :: rest =>
    match strchr '=' (c :: rest) with
    | some (key, value) => .entry (trim key) (trim value)
    | none => .skipped

/-- The entries up to the next header. -/
def entriesOf : List IniLine → List IniEntry
  | [] => []
  | .header _ :: _ => []
  | .entry key value :: lines => ⟨key, value⟩ :: entriesOf lines
  | .skipped :: lines => entriesOf lines

/-- The sections, each with its entries; what stands before the first header belongs to none. -/
def sectionsOf : List IniLine → List IniSection
  | [] => []
  | .header name :: lines => ⟨name, entriesOf lines⟩ :: sectionsOf lines
  | .entry _ _ :: lines => sectionsOf lines
  | .skipped :: lines => sectionsOf lines

def sectionsIn (file : List Char) : List IniSection := sectionsOf ((file.splitOn '\n').map readLine)

/-- The value of the first entry for `key` in the `n`-th section called `sect`. -/
def lookup (sections : List IniSection) (sect : List Char) (n : Int) (key : List Char) : Option (List Char) :=
  if n < 0 then none
  else
    ((sections.filter fun s => strcasecmpEq s.name sect)[n.toNat]?).bind fun s =>
      (s.entries.find? fun e => strcasecmpEq e.key key).map (·.value)

/-- The limits of the loader: its line buffer, its array of sections and their arrays of entries. -/
structure WithinLimits (file : List Char) : Prop where
  lines : ∀ line ∈ file.splitOn '\n', line.length < iniMaxLine - 1
  sections : (sectionsIn file).length ≤ iniMaxSections
  keys : ∀ s ∈ sectionsIn file, s.entries.length ≤ iniMaxKeys

/-! ### Looking up -/

theorem getEntry_eq (key : List Char) (entries : List IniEntry) :
    getEntry key entries = (entries.find? fun e => strcasecmpEq e.key key).map (·.value) := by
  induction entries with
  | nil => rfl
  | cons e es ih =>
    rw [getEntry, List.find?_cons]
    cases strcasecmpEq e.key key
    · exact ih
    · rfl

theorem getIndexedLoop_eq (sect : List Char) (index : Int) (key : List Char) (sections : List IniSection) (nth : Int) :
    getIndexedLoop sect index key nth sections = lookup sections sect (index - nth) key := by
  induction sections generalizing nth with
  | nil => simp [getIndexedLoop, lookup]
  | cons s ss ih =>
    rw [getIndexedLoop]
    cases hname : strcasecmpEq s.name sect with
    | false =>
      simp only [Bool.false_eq_true, if_false, ih, lookup, List.filter_cons, hname]
    | true =>
      by_cases hn : nth = index
      · subst hn
        simp [lookup, hname, getEntry_eq]
      · simp only [if_true, if_neg hn, ih, lookup, List.filter_cons, hname]
        by_cases hlt : index - nth < 0
        · rw [if_pos hlt, if_pos (by omega)]
        · have hpos : (index - nth).toNat = (index - (nth + 1)).toNat + 1 := by omega
          rw [if_neg hlt, if_neg (by omega), hpos, List.getElem?_cons_succ]

theorem iniconfGetIndexed_eq (cfg : IniConf) (sect : List Char) (n : Int) (key : List Char) :
    iniconfGetIndexed cfg sect n key = lookup cfg.sections sect n key := by
  rw [iniconfGetIndexed, getIndexedLoop_eq, sub_zero]

/-- `iniconf_get` reads the first section of the name. -/
theorem iniconfGet_eq (cfg : IniConf) (sect key : List Char) :
    iniconfGet cfg sect key = iniconfGetIndexed cfg sect 0 key := by
  unfold iniconfGet iniconfGetIndexed
  induction cfg.sections with
  | nil => rfl
  | cons s ss ih => rw [getLoop, getIndexedLoop, if_pos rfl, ih]

/-! ### Reading a line -/

/-- What the body of the loop does with a line. -/
def record (sections : List IniSection) : IniLine → List IniSection
  | .skipped => sections
  | .header name => sections ++ [⟨name, []⟩]
  | .entry key value => sections.modify (sections.length - 1) (·.add ⟨key, value⟩)

theorem strchr_eq_some {c : Char} {text before after : List Char} (h : strchr c text = some (before, after)) :
    text = before ++ c :: after := by
  unfold strchr at h
  split at h
  case isFalse => simp at h
  case isTrue hmem =>
    simp only [Option.some.injEq, Prod.mk.injEq] at h
    obtain ⟨rfl, rfl⟩ := h
    have hne : text.dropWhile (· ≠ c) ≠ [] := by
      intro hnil
      simpa using List.dropWhile_eq_nil_iff.mp hnil c hmem
    have hhead : (text.dropWhile (· ≠ c)).head hne = c := by simpa using List.head_dropWhile_not (· ≠ c) hne
    calc text = text.takeWhile (· ≠ c) ++ text.dropWhile (· ≠ c) := List.takeWhile_append_dropWhile.symm
      _ = text.takeWhile (· ≠ c) ++ c :: (text.dropWhile (· ≠ c)).tail := by rw [← List.cons_head_tail hne, hhead]; rfl

theorem trim_head {text rest : List Char} {c : Char} (h : trim text = c :: rest) : isSpace c = false := by
  have hne : (text.rdropWhile isSpace).dropWhile isSpace ≠ [] := fun hnil => by simp [trim, hnil] at h
  have hhead := List.head_dropWhile_not isSpace hne
  simpa [show (text.rdropWhile isSpace).dropWhile isSpace = c :: rest from h] using hhead

theorem trim_last {text front : List Char} {c : Char} (h : trim text = front ++ [c]) : isSpace c = false := by
  obtain ⟨skipped, hskip⟩ := List.dropWhile_suffix isSpace (l := text.rdropWhile isSpace)
  have hline : text.rdropWhile isSpace = skipped ++ front ++ [c] := by
    rw [← hskip, List.append_assoc, ← h]
    rfl
  have hne : text.rdropWhile isSpace ≠ [] := by simp [hline]
  have hlast := List.rdropWhile_last_not isSpace text hne
  simpa [hline] using hlast

/-- The key of a trimmed line starts with no space, and its value ends with none. -/
theorem trim_entry {text before after : List Char} (h : trim text = before ++ '=' :: after) :
    trim before = before.rdropWhile isSpace ∧ trim after = after.dropWhile isSpace := by
  constructor
  · rw [trim, List.dropWhile_eq_self_iff]
    intro hne
    obtain ⟨more, hmore⟩ := List.rdropWhile_prefix isSpace (l := before)
    obtain ⟨c, cs, hc⟩ := List.exists_cons_of_ne_nil (List.length_pos_iff.mp hne)
    have hspace : isSpace c = false := by
      have hstart : trim text = c :: (cs ++ more ++ '=' :: after) := by
        rw [h, ← hmore, hc]
        simp
      exact trim_head hstart
    simp [hc, hspace]
  · rw [trim]
    congr 1
    rw [List.rdropWhile_eq_self_iff]
    intro hne
    have hspace : isSpace (after.getLast hne) = false := by
      have hend : trim text = (before ++ '=' :: after.dropLast) ++ [after.getLast hne] := by
        rw [h, List.append_assoc, List.cons_append, List.dropLast_append_getLast]
      exact trim_last hend
    simp [hspace]

theorem readLine_bracket {buf rest : List Char} (h : trim (cString buf) = '[' :: rest) :
    readLine buf = match strchr ']' rest with
      | some (name, _) => .header name
      | none => .skipped := by
  rw [readLine, h]
  rfl

theorem readLine_other {buf rest : List Char} {c : Char} (h : trim (cString buf) = c :: rest) (hash : c ≠ '#')
    (semi : c ≠ ';') (bracket : c ≠ '[') :
    readLine buf = match strchr '=' (c :: rest) with
      | some (key, value) => .entry (trim key) (trim value)
      | none => .skipped := by
  rw [readLine, h]
  split
  case h_5 heq => cases heq; rfl
  all_goals simp_all

theorem loadLine_sections (cfg : IniConf) (room : cfg.sections.length < iniMaxSections) (buf : List Char) :
    (loadLine cfg room buf).sections = record cfg.sections (readLine buf) := by
  have htrim : ((cString buf).rdropWhile isSpace).dropWhile isSpace = trim (cString buf) := rfl
  unfold loadLine
  dsimp only
  rw [htrim]
  split
  case h_1 htext => rw [readLine, htext]; rfl
  case h_2 htext => rw [readLine, htext]; rfl
  case h_3 htext => rw [readLine, htext]; rfl
  case h_4 rest htext =>
    rw [readLine_bracket htext]
    cases strchr ']' rest <;> rfl
  case h_5 c rest hhash hsemi hopen htext =>
    rw [readLine_other htext hhash hsemi hopen]
    cases heq : strchr '=' (c :: rest) with
    | none => split <;> rfl
    | some cut =>
      obtain ⟨before, val⟩ := cut
      obtain ⟨hkey, hvalue⟩ := trim_entry (htext.trans (strchr_eq_some heq))
      dsimp only
      rw [hkey, hvalue]
      split
      case isTrue hnone => rw [hnone]; rfl
      case isFalse => rfl

/-! ### The lines of the file -/

theorem fgetsUpTo_append {line : List Char} (hline : '\n' ∉ line) (k : Nat) (rest : List Char) :
    fgetsUpTo (line.length + k) (line ++ rest) = (line ++ (fgetsUpTo k rest).1, (fgetsUpTo k rest).2) := by
  induction line with
  | nil => rw [List.length_nil, Nat.zero_add, List.nil_append, List.nil_append]
  | cons c line ih =>
    have hc : c ≠ '\n' := fun h => hline (by simp [h])
    have hline' : '\n' ∉ line := fun h => hline (by simp [h])
    rw [List.length_cons, Nat.add_right_comm, List.cons_append, fgetsUpTo, if_neg hc, ih hline']
    rfl

theorem fgets_line {line rest : List Char} (hline : '\n' ∉ line) (hlen : line.length < iniMaxLine - 1) :
    fgets iniMaxLine (line ++ '\n' :: rest) = some (line ++ ['\n'], rest) := by
  have hroom : iniMaxLine - 1 = line.length + (iniMaxLine - 1 - line.length - 1 + 1) := by omega
  rw [fgets, if_neg (by simp), hroom, fgetsUpTo_append hline, fgetsUpTo, if_pos rfl]

theorem fgets_last {line : List Char} (hne : line ≠ []) (hline : '\n' ∉ line) (hlen : line.length < iniMaxLine - 1) :
    fgets iniMaxLine line = some (line, []) := by
  have hroom : iniMaxLine - 1 = line.length + (iniMaxLine - 1 - line.length - 1 + 1) := by omega
  have hread := fgetsUpTo_append hline (iniMaxLine - 1 - line.length - 1 + 1) []
  rw [← hroom, List.append_nil, fgetsUpTo, List.append_nil] at hread
  rw [fgets, if_neg hne, hread]

/-- The rule for a loop over `fgets` that is given enough rounds: it ends, or reads the last line, or a line with its
    end before the rest of the file. -/
theorem fgets_induction {P : Nat → List Char → Prop} (nil : ∀ rounds, P rounds [])
    (last : ∀ rounds line, line ≠ [] → '\n' ∉ line → fgets iniMaxLine line = some (line, []) → P (rounds + 1) line)
    (ended : ∀ rounds line rest, '\n' ∉ line → fgets iniMaxLine (line ++ '\n' :: rest) = some (line ++ ['\n'], rest) →
      P rounds rest → P (rounds + 1) (line ++ '\n' :: rest))
    (rounds : Nat) (file : List Char) (enough : file.length ≤ rounds)
    (short : ∀ line ∈ file.splitOn '\n', line.length < iniMaxLine - 1) : P rounds file := by
  induction file using Lines.text_induction '\n' generalizing rounds with
  | nil => exact nil rounds
  | last line some_ h =>
    rw [List.splitOn_eq_singleton h, List.forall_mem_singleton] at short
    cases rounds with
    | zero => exact absurd (List.eq_nil_of_length_eq_zero (Nat.le_zero.1 enough)) some_
    | succ rounds => exact last rounds line some_ h (fgets_last some_ h short)
  | ended line rest h ih =>
    rw [List.splitOn_append_cons_self_of_not_mem h, List.forall_mem_cons] at short
    rw [List.length_append, List.length_cons] at enough
    cases rounds with
    | zero => omega
    | succ rounds => exact ended rounds line rest h (fgets_line h short.1) (ih rounds (by omega) short.2)

/-- The newline that `fgets` keeps is trimmed. -/
theorem readLine_newline (line : List Char) : readLine (line ++ ['\n']) = readLine line := by
  have htrim : trim (cString (line ++ ['\n'])) = trim (cString line) := by
    unfold cString trim
    rw [List.takeWhile_append]
    split
    case isFalse => rfl
    case isTrue hwhole =>
      rw [(List.takeWhile_prefix _).eq_of_length hwhole]
      congr 1
      exact List.rdropWhile_concat_pos isSpace line '\n' rfl
  rw [readLine, htrim, ← readLine]

/-- The loop over the lines of a reading. -/
def recordAll : List IniSection → List IniLine → List IniSection
  | sections, [] => sections
  | sections, line :: lines =>
    if sections.length < iniMaxSections then recordAll (record sections line) lines else sections

theorem loadLoop_sections (rounds : Nat) (cfg : IniConf) (file : List Char) (hr : file.length ≤ rounds)
    (hlines : ∀ line ∈ file.splitOn '\n', line.length < iniMaxLine - 1) :
    (loadLoop rounds cfg file).sections = recordAll cfg.sections ((file.splitOn '\n').map readLine) := by
  -- The piece after the last newline is empty: `fgets` does not return it, and it says nothing.
  have hend : ∀ rounds cfg, (loadLoop rounds cfg []).sections =
      recordAll cfg.sections (([] : List Char).splitOn '\n' |>.map readLine) := by
    intro rounds cfg
    have hblank : readLine [] = .skipped := rfl
    simp only [List.splitOn_nil, List.map_singleton, hblank, recordAll, record, ite_self]
    cases rounds <;> rfl
  refine fgets_induction (P := fun rounds file => ∀ cfg, (loadLoop rounds cfg file).sections =
    recordAll cfg.sections ((file.splitOn '\n').map readLine)) hend ?_ ?_ rounds file hr hlines cfg
  · intro rounds line some_ h read cfg
    rw [loadLoop, read, List.splitOn_eq_singleton h]
    simp only [List.map_cons, List.map_nil, recordAll]
    split
    case isFalse => rfl
    case isTrue room =>
      rw [hend, loadLine_sections]
      simp only [List.splitOn_nil, List.map_singleton, show readLine [] = .skipped from rfl, recordAll, record, ite_self]
  · intro rounds line rest h read ih cfg
    rw [loadLoop, read, List.splitOn_append_cons_self_of_not_mem h]
    simp only [List.map_cons, recordAll]
    split
    case isFalse => rfl
    case isTrue room => rw [ih, loadLine_sections, readLine_newline]

/-! ### What is kept

The capacity is tested before a line is looked at, so the header that takes the last place ends the loop. -/

/-- What the loop keeps of the sections that follow, with room for `n` of them. -/
def kept : Nat → List IniSection → List IniSection
  | 0, _ => []
  | _, [] => []
  | 1, s :: _ => [⟨s.name, []⟩]
  | n + 2, s :: ss => s :: kept (n + 1) ss

theorem recordAll_full {sections : List IniSection} (h : sections.length = iniMaxSections) (lines : List IniLine) :
    recordAll sections lines = sections := by
  cases lines with
  | nil => rfl
  | cons line lines => rw [recordAll, if_neg (by omega)]

/-- What the loop takes of a section: its first 32 entries. -/
def IniSection.clip (s : IniSection) : IniSection := { s with entries := s.entries.take iniMaxKeys }

theorem IniSection.clip_of_le {s : IniSection} (h : s.entries.length ≤ iniMaxKeys) : s.clip = s := by
  rw [IniSection.clip, List.take_of_length_le h]

theorem map_clip {sections : List IniSection} (h : ∀ s ∈ sections, s.entries.length ≤ iniMaxKeys) :
    sections.map (·.clip) = sections :=
  (List.map_congr_left fun s hs => IniSection.clip_of_le (h s hs)).trans (List.map_id _)

theorem record_entry (done : List IniSection) (cur : IniSection) (key value : List Char) :
    record (done ++ [cur]) (.entry key value) = done ++ [cur.add ⟨key, value⟩] := by
  have hlast : (done ++ [cur]).length - 1 = done.length := by simp
  rw [record, hlast, List.modify_eq_set_getElem?, List.getElem?_concat_length]
  simp

/-- An entry more counts as long as there is room for it. -/
theorem clip_add (cur : IniSection) (entry : IniEntry) (more : List IniEntry) :
    IniSection.clip { cur.add entry with entries := (cur.add entry).entries ++ more } =
      IniSection.clip { cur with entries := cur.entries ++ entry :: more } := by
  unfold IniSection.add
  split
  next full => simp only [IniSection.clip, List.take_append_of_le_length full]
  next => simp only [IniSection.clip, List.append_assoc, List.singleton_append]

/-- The section that is being read gets the entries up to the next header. -/
theorem recordAll_open (lines : List IniLine) (done : List IniSection) (cur : IniSection) (n : Nat)
    (hn : done.length + 1 + (n + 1) = iniMaxSections) (hcur : cur.entries.length ≤ iniMaxKeys) :
    recordAll (done ++ [cur]) lines =
      done ++ IniSection.clip { cur with entries := cur.entries ++ entriesOf lines } ::
        kept (n + 1) ((sectionsOf lines).map (·.clip)) := by
  induction lines generalizing done cur n with
  | nil => simp [recordAll, entriesOf, sectionsOf, kept, IniSection.clip_of_le hcur]
  | cons line lines ih =>
    rw [recordAll, if_pos (by rw [List.length_append, List.length_singleton]; omega)]
    cases line with
    | skipped => exact ih done cur n hn hcur
    | entry key value =>
      rw [record_entry, ih done _ n hn (IniSection.add_le _ hcur), entriesOf, sectionsOf, clip_add]
    | header name =>
      rw [sectionsOf, record, entriesOf, List.append_nil, IniSection.clip_of_le hcur, List.map_cons]
      cases n with
      | zero => rw [recordAll_full (by simp; omega), kept, List.append_assoc, List.singleton_append]; rfl
      | succ n =>
        have hnext := ih (done ++ [cur]) ⟨name, []⟩ n (by rw [List.length_append, List.length_singleton]; omega)
          (Nat.zero_le _)
        rw [hnext, kept, List.nil_append, List.append_assoc, List.singleton_append]

theorem recordAll_eq (lines : List IniLine) :
    recordAll [] lines = kept iniMaxSections ((sectionsOf lines).map (·.clip)) := by
  induction lines with
  | nil => rfl
  | cons line lines ih =>
    rw [recordAll, if_pos (by decide)]
    cases line with
    | skipped => exact ih
    | entry key value => exact ih
    | header name => exact recordAll_open lines [] ⟨name, []⟩ 6 rfl (Nat.zero_le _)

/-- What the loader takes of any text. -/
theorem iniconfLoad_clip {file : List Char} (short : ∀ line ∈ file.splitOn '\n', line.length < iniMaxLine - 1) :
    (iniconfLoad file).sections = kept iniMaxSections ((sectionsIn file).map (·.clip)) := by
  rw [iniconfLoad, loadLoop_sections file.length .empty file (Nat.le_refl _) short]
  exact recordAll_eq _

theorem iniconfLoad_sections {file : List Char} (h : WithinLimits file) :
    (iniconfLoad file).sections = kept iniMaxSections (sectionsIn file) := by
  rw [iniconfLoad_clip h.lines, map_clip h.keys]

theorem kept_of_lt {n : Nat} {sections : List IniSection} (h : sections.length < n) : kept n sections = sections := by
  induction n, sections using kept.induct with
  | case1 => omega
  | case2 n hn => rw [kept]; exact hn
  | case3 s ss => simp at h
  | case4 n s ss ih => rw [kept, ih (by simpa using h)]

theorem kept_full (front : List IniSection) (last : IniSection) :
    kept (front.length + 1) (front ++ [last]) = front ++ [⟨last.name, []⟩] := by
  induction front with
  | nil => rfl
  | cons s ss ih => rw [List.length_cons, List.cons_append, kept, ih, List.cons_append]

/-! ### The result -/

theorem strcasecmpEq_self (text : List Char) : strcasecmpEq text text = true := by simp [strcasecmpEq]

/-- An entry of the last section is found under its key, in the section counted by the earlier ones of the name. -/
theorem lookup_last (front : List IniSection) (last : IniSection) (key : List Char) :
    lookup (front ++ [last]) last.name (front.countP fun s => strcasecmpEq s.name last.name) key =
      (last.entries.find? fun e => strcasecmpEq e.key key).map (·.value) := by
  rw [lookup, if_neg (by omega), List.filter_append, Int.toNat_natCast, List.countP_eq_length_filter]
  simp [strcasecmpEq_self]

/-- Within the limits of the loader, every lookup answers as the plain reading does just if the eighth
section, where there is one, has no entries. -/
theorem ini_lookups_iff (file : List Char) (h : WithinLimits file) :
    (∀ (sect : List Char) (n : Int) (key : List Char),
        iniconfGetIndexed (iniconfLoad file) sect n key = lookup (sectionsIn file) sect n key) ↔
      ∀ s, (sectionsIn file)[iniMaxSections - 1]? = some s → s.entries = [] := by
  simp only [iniconfGetIndexed_eq, iniconfLoad_sections h]
  rcases Nat.lt_or_eq_of_le h.sections with hlt | hfull
  · have hnone : (sectionsIn file)[iniMaxSections - 1]? = none := List.getElem?_eq_none (by omega)
    simp [kept_of_lt hlt, hnone]
  -- There is an eighth section: split the sections there.
  have hne : sectionsIn file ≠ [] := fun hnil => by simp [hnil, iniMaxSections] at hfull
  obtain ⟨front, last, hsplit⟩ := (List.eq_nil_or_concat (sectionsIn file)).resolve_left hne
  rw [List.concat_eq_append] at hsplit
  have hfront : front.length + 1 = iniMaxSections := by simpa [hsplit] using hfull
  rw [hsplit, ← hfront, kept_full, Nat.add_sub_cancel, List.getElem?_concat_length]
  constructor
  · intro hall s hs
    obtain rfl := Option.some.inj hs
    rcases hentries : last.entries with _ | ⟨e, es⟩
    · rfl
    · exfalso
      have hkey := hall last.name (front.countP fun s => strcasecmpEq s.name last.name) e.key
      have hlost := lookup_last front ⟨last.name, []⟩ e.key
      rw [hlost, lookup_last, hentries, List.find?_cons, strcasecmpEq_self] at hkey
      simp at hkey
  · intro hempty sect n key
    rw [← hempty last rfl]

/-- Eight peers, the last of them with a key. -/
def eightPeers : List Char :=
  "[Peer]\n[Peer]\n[Peer]\n[Peer]\n[Peer]\n[Peer]\n[Peer]\n[Peer]\nPublicKey = ab\n".toList

theorem eightPeers_withinLimits : WithinLimits eightPeers := ⟨by decide +kernel, by decide +kernel, by decide +kernel⟩

theorem ini_lookups_eightPeers : ¬ ∀ file, WithinLimits file → ∀ (sect : List Char) (n : Int) (key : List Char),
    iniconfGetIndexed (iniconfLoad file) sect n key = lookup (sectionsIn file) sect n key := by
  intro hall
  have hkey := hall eightPeers eightPeers_withinLimits "peer".toList 7 "publickey".toList
  revert hkey
  decide +kernel

/-- Seven peers, all of whose lines are found. -/
def sevenPeers : List Char := eightPeers.drop 7

theorem ini_lookups_sevenPeers : WithinLimits sevenPeers ∧ ∀ (sect : List Char) (n : Int) (key : List Char),
    iniconfGetIndexed (iniconfLoad sevenPeers) sect n key = lookup (sectionsIn sevenPeers) sect n key := by
  have hlimits : WithinLimits sevenPeers := ⟨by decide +kernel, by decide +kernel, by decide +kernel⟩
  refine ⟨hlimits, (ini_lookups_iff sevenPeers hlimits).mpr ?_⟩
  have hnone : (sectionsIn sevenPeers)[iniMaxSections - 1]? = none := by decide +kernel
  simp [hnone]

end AegisTunnel
