import AegisTunnel.ConfigCommands
import AegisTunnel.Theorems.ConfigMgmt
import AegisTunnel.Theorems.TunAddress

/-! # What is written to a configuration is read back

A line that `fprintf` writes for an entry says just that entry, since no value that the loader returns has spaces
around it or an end of line in it. So the sections of a file are those of which it was put together. -/

namespace AegisTunnel
open Lines

/-! ### Trimming -/

theorem trim_of_head {c : Char} (hc : isSpace c = false) (text : List Char) :
    trim (c :: text) = c :: text.rdropWhile isSpace := by
  have last : (c :: text).rdropWhile isSpace = c :: text.rdropWhile isSpace := by
    unfold List.rdropWhile
    rw [List.reverse_cons, List.dropWhile_append]
    split
    next blank =>
      rw [List.isEmpty_iff] at blank
      rw [blank]
      simp [hc]
    next => simp
  rw [trim, last, List.dropWhile_cons_of_neg (by rw [hc]; exact Bool.false_ne_true)]

theorem trim_concat {c : Char} (hc : isSpace c = true) (text : List Char) : trim (text ++ [c]) = trim text := by
  rw [trim, List.rdropWhile_concat_pos isSpace text c hc, trim]

theorem trim_cons {c : Char} (hc : isSpace c = true) (text : List Char) : trim (c :: text) = trim text := by
  unfold trim List.rdropWhile
  rw [List.reverse_cons, List.dropWhile_append]
  split
  next blank =>
    rw [List.isEmpty_iff] at blank
    rw [blank]
    simp [hc]
  next => simp [hc]

theorem mem_trim {c : Char} {text : List Char} (h : c ∈ trim text) : c ∈ text :=
  ((List.dropWhile_sublist _).trans (List.rdropWhile_prefix _ _).sublist).subset h

theorem trim_trim (text : List Char) : trim (trim text) = trim text := by
  cases h : trim text with
  | nil => rfl
  | cons c rest =>
    rw [trim_of_head (trim_head h)]
    rcases List.eq_nil_or_concat rest with rfl | ⟨front, d, rfl⟩
    · rfl
    · rw [List.concat_eq_append] at h ⊢
      have last : isSpace d = false := trim_last (h.trans (List.cons_append ..).symm)
      rw [List.rdropWhile_concat_neg isSpace front d (by rw [last]; exact Bool.false_ne_true)]

theorem trim_rdropWhile (text : List Char) : trim (text.rdropWhile isSpace) = trim text := by
  rw [trim, List.rdropWhile_idempotent, trim]

theorem rdropWhile_append_cons {c : Char} (hc : isSpace c = false) (front text : List Char) :
    (front ++ c :: text).rdropWhile isSpace = front ++ c :: text.rdropWhile isSpace := by
  unfold List.rdropWhile
  rw [List.reverse_append, List.reverse_cons, List.append_assoc, List.dropWhile_append]
  split
  next blank =>
    rw [List.isEmpty_iff] at blank
    rw [blank]
    simp [hc]
  next => simp

/-! ### The values that the loader returns -/

/-- A text that fits into a line, together with a key. -/
structure OneLine (v : List Char) : Prop where
  line : '\n' ∉ v
  text : '\x00' ∉ v
  room : v.length ≤ 360

/-- A text that stands in a line as it is. -/
structure Clean (v : List Char) : Prop extends OneLine v where
  trimmed : trim v = v

instance (v : List Char) : Decidable (OneLine v) :=
  decidable_of_iff ('\n' ∉ v ∧ '\x00' ∉ v ∧ v.length ≤ 360)
    ⟨fun h => ⟨h.1, h.2.1, h.2.2⟩, fun h => ⟨h.line, h.text, h.room⟩⟩

instance (v : List Char) : Decidable (Clean v) :=
  decidable_of_iff (OneLine v ∧ trim v = v) ⟨fun h => ⟨h.1, h.2⟩, fun h => ⟨h.toOneLine, h.trimmed⟩⟩

/-- What the loader makes of any value. -/
def Bare (v : List Char) : Prop := '\n' ∉ v ∧ '\x00' ∉ v ∧ trim v = v

theorem not_mem_cString (buf : List Char) : '\x00' ∉ cString buf := fun h => by
  have kept := List.mem_takeWhile_imp h
  simp at kept

theorem bare_of_readLine {line key value : List Char} (bare : '\n' ∉ line) (h : readLine line = .entry key value) :
    Bare value := by
  have found : ∃ before after, trim (cString line) = before ++ '=' :: after ∧ value = trim after := by
    unfold readLine at h
    split at h
    case h_4 => split at h <;> cases h
    case h_5 c rest _ _ _ text =>
      split at h
      next before after cut =>
        cases h
        exact ⟨before, after, text.trans (strchr_eq_some cut), rfl⟩
      next => cases h
    all_goals cases h
  obtain ⟨before, after, text, rfl⟩ := found
  have inLine {c : Char} (hc : c ∈ trim after) : c ∈ cString line := by
    refine mem_trim ?_
    rw [text]
    exact List.mem_append_right _ (List.mem_cons_of_mem _ (mem_trim hc))
  exact ⟨fun hc => bare ((List.takeWhile_prefix _).subset (inLine hc)), fun hc => not_mem_cString line (inLine hc),
    trim_trim after⟩

theorem fgetsUpTo_line (n : Nat) (file : List Char) :
    ∃ line, '\n' ∉ line ∧ ((fgetsUpTo n file).1 = line ∨ (fgetsUpTo n file).1 = line ++ ['\n']) := by
  induction n generalizing file with
  | zero => exact ⟨[], List.not_mem_nil, .inl rfl⟩
  | succ n ih =>
    cases file with
    | nil => exact ⟨[], List.not_mem_nil, .inl rfl⟩
    | cons c file =>
      rw [fgetsUpTo]
      split
      next ends => exact ⟨[], List.not_mem_nil, .inr (by rw [ends]; rfl)⟩
      next goesOn =>
        obtain ⟨line, bare, read⟩ := ih file
        refine ⟨c :: line, fun h => ?_, read.imp (congrArg (c :: ·)) (congrArg (c :: ·))⟩
        rcases List.mem_cons.mp h with same | h
        · exact goesOn same.symm
        · exact bare h

def Loaded (sections : List IniSection) : Prop := ∀ s ∈ sections, ∀ e ∈ s.entries, Bare e.value

theorem Loaded.add {sections : List IniSection} (h : Loaded sections) (i : Nat) {e : IniEntry} (bare : Bare e.value) :
    Loaded (sections.modify i (·.add e)) := by
  intro s hs e' he'
  obtain ⟨j, hj, rfl⟩ := List.mem_iff_getElem.mp hs
  rw [List.getElem_modify] at he'
  rw [List.length_modify] at hj
  split at he'
  next =>
    unfold IniSection.add at he'
    split at he'
    next => exact h _ (List.getElem_mem hj) e' he'
    next =>
      rcases List.mem_append.mp he' with old | new
      · exact h _ (List.getElem_mem hj) e' old
      · rw [List.mem_singleton.mp new]
        exact bare
  next => exact h _ (List.getElem_mem hj) e' he'

theorem Loaded.line {cfg : IniConf} (h : Loaded cfg.sections) (room : cfg.sections.length < iniMaxSections) {line : List Char}
    (bare : '\n' ∉ line) : Loaded (loadLine cfg room line).sections := by
  rw [loadLine_sections]
  cases said : readLine line with
  | skipped => exact h
  | header name =>
    intro s hs e he
    rcases List.mem_append.mp hs with old | new
    · exact h s old e he
    · rw [List.mem_singleton.mp new] at he
      cases he
  | entry key value => exact h.add _ (bare_of_readLine bare said)

theorem loadLoop_loaded (rounds : Nat) {cfg : IniConf} (h : Loaded cfg.sections) (file : List Char) :
    Loaded (loadLoop rounds cfg file).sections := by
  induction rounds generalizing cfg file with
  | zero => exact h
  | succ rounds ih =>
    rw [loadLoop]
    split
    next => exact h
    next buf rest read =>
      split
      next room =>
        refine ih ?_ rest
        have stored : buf = (fgetsUpTo (iniMaxLine - 1) file).1 := by
          unfold fgets at read
          split at read
          · cases read
          · exact congrArg Prod.fst (Option.some.inj read).symm
        obtain ⟨line, bare, whole | ended⟩ := fgetsUpTo_line (iniMaxLine - 1) file
        · rw [stored, whole]
          exact h.line room bare
        · have same := h.line room bare
          rw [loadLine_sections] at same
          rw [stored, ended, loadLine_sections, readLine_newline]
          exact same
      next => exact h

theorem iniconfLoad_loaded (file : List Char) : Loaded (iniconfLoad file).sections :=
  loadLoop_loaded file.length (fun _ hs => absurd hs List.not_mem_nil) file

/-- All values are of a moderate length. -/
def Moderate (sections : List IniSection) : Prop := ∀ s ∈ sections, ∀ e ∈ s.entries, e.value.length ≤ 300

theorem Moderate.lookup {file sect key v : List Char} {n : Int} (mod : Moderate (iniconfLoad file).sections)
    (found : AegisTunnel.lookup (iniconfLoad file).sections sect n key = some v) : Clean v ∧ v.length ≤ 300 := by
  unfold AegisTunnel.lookup at found
  split at found
  next => cases found
  next =>
    obtain ⟨s, hs, hv⟩ := Option.bind_eq_some_iff.mp found
    obtain ⟨e, he, rfl⟩ := Option.map_eq_some_iff.mp hv
    have there := List.mem_of_mem_filter (List.mem_of_getElem? hs)
    have short := mod s there e (List.mem_of_find?_eq_some he)
    obtain ⟨line, text, trimmed⟩ := iniconfLoad_loaded file s there e (List.mem_of_find?_eq_some he)
    exact ⟨⟨⟨line, text, by omega⟩, trimmed⟩, short⟩

theorem Moderate.getIndexed {file sect key v : List Char} {n : Int} (mod : Moderate (iniconfLoad file).sections)
    (h : iniconfGetIndexed (iniconfLoad file) sect n key = some v) : Clean v ∧ v.length ≤ 300 := by
  rw [iniconfGetIndexed_eq] at h
  exact mod.lookup h

theorem Moderate.get {file sect key v : List Char} (mod : Moderate (iniconfLoad file).sections)
    (h : iniconfGet (iniconfLoad file) sect key = some v) : Clean v ∧ v.length ≤ 300 := by
  rw [iniconfGet_eq] at h
  exact mod.getIndexed h

/-! ### Lines -/

/-- A key that starts an entry. -/
def plainKey (key : List Char) : Bool :=
  key.head?.any (fun c => !isSpace c && c != '#' && c != ';' && c != '[') && trim key == key && '=' ∉ key && '\n' ∉ key &&
    '\x00' ∉ key && key.length ≤ 100

theorem readLine_entry {line rest before after : List Char} {c : Char} (text : trim (cString line) = c :: rest)
    (hash : c ≠ '#') (semicolon : c ≠ ';') (bracket : c ≠ '[') (cut : strchr '=' (c :: rest) = some (before, after)) :
    readLine line = .entry (trim before) (trim after) := by
  rw [readLine_other text hash semicolon bracket, cut]

/-- A written entry is read back. -/
theorem readLine_confEntry {key : String} {v : List Char} (plain : plainKey key.toList = true) (one : OneLine v) :
    readLine (confEntry key v) = .entry key.toList (trim v) := by
  unfold confEntry plainKey at *
  generalize key.toList = k at plain ⊢
  simp only [Bool.and_eq_true, decide_eq_true_eq, beq_iff_eq, Option.any_eq_true] at plain
  obtain ⟨⟨⟨⟨⟨⟨c, head, ⟨⟨⟨space, hash⟩, semicolon⟩, bracket⟩⟩, trimmed⟩, noEq⟩, -⟩, noNul⟩, -⟩ := plain
  obtain ⟨rest, rfl⟩ : ∃ rest, k = c :: rest := List.head?_eq_some_iff.mp head
  have text : '\x00' ∉ (c :: rest) ++ ' ' :: '=' :: ' ' :: v := by
    simp only [List.mem_append, List.mem_cons, not_or] at noNul ⊢
    exact ⟨noNul, by decide, by decide, by decide, one.text⟩
  have shape : trim (cString ((c :: rest) ++ ' ' :: '=' :: ' ' :: v)) =
      c :: (rest ++ ' ' :: '=' :: (' ' :: v).rdropWhile isSpace) := by
    rw [cString_of_text text, List.cons_append, trim_of_head (by simpa using space), List.append_cons rest ' ',
      rdropWhile_append_cons rfl, List.append_assoc, List.singleton_append]
  have cut : strchr '=' (c :: (rest ++ ' ' :: '=' :: (' ' :: v).rdropWhile isSpace)) =
      some (c :: rest ++ [' '], (' ' :: v).rdropWhile isSpace) := by
    have before : '=' ∉ c :: rest ++ [' '] := by
      rw [List.mem_append, List.mem_singleton, not_or]
      exact ⟨noEq, by decide⟩
    rw [← strchr_append before]
    simp
  rw [readLine_newline, readLine_entry shape (by simpa using hash) (by simpa using semicolon) (by simpa using bracket) cut,
    trim_concat rfl, trimmed, trim_rdropWhile, trim_cons rfl]

theorem readLine_confComment (text : List Char) : readLine (confComment text) = .skipped := by
  have head : trim (cString ('#' :: ' ' :: text ++ ['\n'])) = '#' :: (cString (' ' :: text ++ ['\n'])).rdropWhile isSpace :=
    trim_of_head rfl _
  unfold readLine confComment
  rw [head]
  rfl

/-! ### Files -/

/-- A text that can be read as a line. -/
structure Short (front : List Char) : Prop where
  line : '\n' ∉ front
  text : '\x00' ∉ front
  room : front.length < iniMaxLine - 1

/-- A line with its end, which the loader reads at once. -/
def Ended (line : List Char) : Prop := ∃ front, Short front ∧ line = front ++ ['\n']

theorem isLines_of_ended {ls : List (List Char)} (h : ∀ l ∈ ls, Ended l) : IsLines '\n' ls := by
  induction ls with
  | nil => exact .nil
  | cons l ls ih =>
    rw [List.forall_mem_cons] at h
    obtain ⟨⟨front, short, rfl⟩, rest⟩ := h
    exact .ended short.line (ih rest)

theorem ended_confEntry {key : String} {v : List Char} (plain : plainKey key.toList = true) (one : OneLine v) :
    Ended (confEntry key v) := by
  simp only [plainKey, Bool.and_eq_true, decide_eq_true_eq] at plain
  refine ⟨key.toList ++ ' ' :: '=' :: ' ' :: v, ⟨?_, ?_, ?_⟩, rfl⟩
  · simp only [List.mem_append, List.mem_cons, not_or]
    exact ⟨plain.1.1.2, by decide, by decide, by decide, one.line⟩
  · simp only [List.mem_append, List.mem_cons, not_or]
    exact ⟨plain.1.2, by decide, by decide, by decide, one.text⟩
  · have key_le := plain.2
    have value_le := one.room
    simp only [List.length_append, List.length_cons, iniMaxLine]
    omega

theorem entriesOf_append_nil {rest : List IniLine} (h : entriesOf rest = []) (front : List IniLine) :
    entriesOf (front ++ rest) = entriesOf front := by
  induction front with
  | nil => exact h
  | cons line front ih =>
    cases line with
    | skipped => exact ih
    | header name => rfl
    | entry key value => rw [List.cons_append, entriesOf, entriesOf, ih]

/-- Where the rest starts with a header, the sections are those of both parts. -/
theorem sectionsOf_append {rest : List IniLine} (h : entriesOf rest = []) (front : List IniLine) :
    sectionsOf (front ++ rest) = sectionsOf front ++ sectionsOf rest := by
  induction front with
  | nil => rfl
  | cons line front ih =>
    cases line with
    | skipped => exact ih
    | header name => rw [List.cons_append, sectionsOf, sectionsOf, ih, entriesOf_append_nil h, List.cons_append]
    | entry key value => exact ih

/-- Lines without a header, and their entries. -/
structure Says (ls : List (List Char)) (entries : List IniEntry) : Prop where
  ended : ∀ l ∈ ls, Ended l
  said : ∀ rest, entriesOf (ls.map readLine ++ rest) = entries ++ entriesOf rest
  within : ∀ rest, sectionsOf (ls.map readLine ++ rest) = sectionsOf rest

namespace Says
variable {ls ls' : List (List Char)} {entries entries' : List IniEntry}

theorem nil : Says [] [] := ⟨fun _ h => absurd h List.not_mem_nil, fun _ => rfl, fun _ => rfl⟩

theorem append (h : Says ls entries) (h' : Says ls' entries') : Says (ls ++ ls') (entries ++ entries') where
  ended := List.forall_mem_append.mpr ⟨h.ended, h'.ended⟩
  said rest := by rw [List.map_append, List.append_assoc, h.said, h'.said, List.append_assoc]
  within rest := by rw [List.map_append, List.append_assoc, h.within, h'.within]

theorem skip {line : List Char} (ended : Ended line) (skipped : readLine line = .skipped) : Says [line] [] where
  ended := List.forall_mem_singleton.mpr ended
  said rest := by rw [List.map_singleton, skipped]; rfl
  within rest := by rw [List.map_singleton, skipped]; rfl

theorem blank : Says [blankLine] [] := skip ⟨[], ⟨List.not_mem_nil, List.not_mem_nil, by decide⟩, rfl⟩ rfl

theorem comment {text : List Char} (plain : '\n' ∉ text ∧ '\x00' ∉ text ∧ text.length ≤ 500) :
    Says [confComment text] [] := by
  refine skip ⟨'#' :: ' ' :: text, ⟨?_, ?_, ?_⟩, rfl⟩ (readLine_confComment text)
  · simp only [List.mem_cons, not_or]
    exact ⟨by decide, by decide, plain.1⟩
  · simp only [List.mem_cons, not_or]
    exact ⟨by decide, by decide, plain.2.1⟩
  · have room := plain.2.2
    simp only [List.length_cons, iniMaxLine]
    omega

theorem entry {key : String} {v : List Char} (plain : plainKey key.toList = true) (one : OneLine v) :
    Says [confEntry key v] [⟨key.toList, trim v⟩] where
  ended := List.forall_mem_singleton.mpr (ended_confEntry plain one)
  said rest := by rw [List.map_singleton, readLine_confEntry plain one]; rfl
  within rest := by rw [List.map_singleton, readLine_confEntry plain one]; rfl

theorem cons {key : String} {v : List Char} (plain : plainKey key.toList = true) (clean : Clean v) (h : Says ls entries) :
    Says (confEntry key v :: ls) (⟨key.toList, v⟩ :: entries) := by
  have first := entry plain clean.toOneLine
  rw [clean.trimmed] at first
  exact first.append h

theorem ended_blank (h : Says ls entries) : Says (ls ++ [blankLine]) entries := by
  have more := h.append blank
  rwa [List.append_nil] at more

end Says

/-- The lines of a section. -/
structure Writes (ls : List (List Char)) (s : IniSection) : Prop where
  ended : ∀ l ∈ ls, Ended l
  opens : entriesOf (ls.map readLine) = []
  reads : sectionsOf (ls.map readLine) = [s]

theorem Says.section {ls : List (List Char)} {entries : List IniEntry} (h : Says ls entries) {name : String}
    (plain : '\n' ∉ name.toList ∧ '\x00' ∉ name.toList ∧ name.toList.length ≤ 100)
    (header : readLine (confHeader name) = .header name.toList) :
    Writes (confHeader name :: ls) ⟨name.toList, entries⟩ where
  ended := by
    refine List.forall_mem_cons.mpr ⟨⟨'[' :: name.toList ++ [']'], ⟨?_, ?_, ?_⟩, by simp [confHeader]⟩, h.ended⟩
    · simp only [List.cons_append, List.mem_cons, List.mem_append, List.not_mem_nil, or_false, not_or]
      exact ⟨by decide, plain.1, by decide⟩
    · simp only [List.cons_append, List.mem_cons, List.mem_append, List.not_mem_nil, or_false, not_or]
      exact ⟨by decide, plain.2.1, by decide⟩
    · have name_le := plain.2.2
      simp only [List.length_append, List.length_cons, List.length_nil, iniMaxLine]
      omega
  opens := by rw [List.map_cons, header]; rfl
  reads := by
    have said := h.said []
    have within := h.within []
    rw [List.append_nil] at said within
    rw [List.map_cons, header, sectionsOf, said, within, entriesOf, List.append_nil]
    rfl

theorem Says.before {ls : List (List Char)} (h : Says ls []) {block : List (List Char)} {s : IniSection} (w : Writes block s) :
    Writes (ls ++ block) s where
  ended := List.forall_mem_append.mpr ⟨h.ended, w.ended⟩
  opens := by rw [List.map_append, h.said, w.opens]; rfl
  reads := by rw [List.map_append, h.within, w.reads]

/-- What the loader finds in a text. -/
structure ReadsAs (file : List Char) (ls : List (List Char)) (sections : List IniSection) : Prop where
  text : '\x00' ∉ file
  short : ∀ line ∈ file.splitOn '\n', line.length < iniMaxLine - 1
  lines : Lines.lines '\n' file = ls
  sections : sectionsIn file = sections

/-- The lines and the sections of a file are those of which it is put together. -/
theorem readsAs_written {blocks : List (List (List Char))} {sections : List IniSection}
    (h : List.Forall₂ Writes blocks sections) : ReadsAs blocks.flatten.flatten blocks.flatten sections := by
  have ended : ∀ l ∈ blocks.flatten, Ended l := by
    induction h with
    | nil => exact fun _ h => absurd h List.not_mem_nil
    | cons w _ ih =>
      rw [List.flatten_cons, List.forall_mem_append]
      exact ⟨w.ended, ih⟩
  have read : entriesOf (blocks.flatten.map readLine) = [] ∧ sectionsOf (blocks.flatten.map readLine) = sections := by
    clear ended
    induction h with
    | nil => exact ⟨rfl, rfl⟩
    | cons w _ ih =>
      rw [List.flatten_cons, List.map_append]
      exact ⟨(entriesOf_append_nil ih.1 _).trans w.opens, by rw [sectionsOf_append ih.1, w.reads, ih.2]; rfl⟩
  have lines : Lines.lines '\n' blocks.flatten.flatten = blocks.flatten := lines_flatten (isLines_of_ended ended)
  refine ⟨?_, ?_, lines, ?_⟩
  · intro there
    obtain ⟨l, hl, there⟩ := List.mem_flatten.mp there
    obtain ⟨front, short, rfl⟩ := ended l hl
    rcases List.mem_append.mp there with there | there
    · exact short.text there
    · exact absurd (List.mem_singleton.mp there) (by decide)
  · rw [length_lt_iff (by decide), lines]
    intro l hl
    obtain ⟨front, short, rfl⟩ := ended l hl
    rw [List.countP_append]
    exact Nat.lt_of_le_of_lt (Nat.add_le_add_right List.countP_le_length _) short.room
  · rw [sectionsIn_lines, lines, ← sectionsOf_rawSections, read.2]

theorem ReadsAs.load {file : List Char} {ls : List (List Char)} {sections : List IniSection} (h : ReadsAs file ls sections)
    (count : sections.length ≤ iniMaxSections) (keys : ∀ s ∈ sections, s.entries.length ≤ iniMaxKeys) :
    (iniconfLoad file).sections = kept iniMaxSections sections := by
  rw [iniconfLoad_sections ⟨h.short, h.sections ▸ count, h.sections ▸ keys⟩, h.sections]

end AegisTunnel
