import Mathlib.Data.List.DropRight
import AegisTunnel.PeerTable

/-! # The configuration file (`util/iniconfig.c`)

`iniconf_load` reads the file with `fgets`, one buffer of `INI_MAX_LINE` characters at a time, and keeps the
sections and their entries in arrays of fixed size. `fopen` and `strdup` succeed. -/

namespace AegisTunnel

def iniMaxLine : Nat := 512

def iniMaxSections : Nat := 8

def iniMaxKeys : Nat := 32

structure IniEntry where
  key : List Char
  value : List Char
  deriving DecidableEq, Repr

structure IniSection where
  name : List Char
  entries : List IniEntry
  deriving DecidableEq, Repr

structure IniConf where
  sections : List IniSection
  count_le : sections.length ≤ iniMaxSections
  entries_le : ∀ s ∈ sections, s.entries.length ≤ iniMaxKeys

def IniConf.empty : IniConf := ⟨[], Nat.zero_le _, by simp⟩

/-- `cfg->sections[cfg->count++]` with the name. -/
def IniConf.addSection (cfg : IniConf) (room : cfg.sections.length < iniMaxSections) (name : List Char) : IniConf where
  sections := cfg.sections ++ [⟨name, []⟩]
  count_le := by
    rw [List.length_append, List.length_singleton]
    exact room
  entries_le := by
    intro s hs
    rcases List.mem_append.mp hs with hs | hs
    · exact cfg.entries_le s hs
    · rw [List.mem_singleton.mp hs]
      exact Nat.zero_le _

/-- `sec->entries[sec->count++]`, unless the section is full. -/
def IniSection.add (sec : IniSection) (entry : IniEntry) : IniSection :=
  if sec.entries.length ≥ iniMaxKeys then sec else { sec with entries := sec.entries ++ [entry] }

theorem IniSection.add_le {sec : IniSection} (entry : IniEntry) (h : sec.entries.length ≤ iniMaxKeys) :
    (sec.add entry).entries.length ≤ iniMaxKeys := by
  unfold IniSection.add
  split
  · exact h
  · simp only [List.length_append, List.length_singleton]
    omega

/-- The pointer `sec` is to the newest section, or null while there is none. -/
def IniConf.addEntry (cfg : IniConf) (entry : IniEntry) : IniConf where
  sections := cfg.sections.modify (cfg.sections.length - 1) (·.add entry)
  count_le := by
    rw [List.length_modify]
    exact cfg.count_le
  entries_le := by
    intro s hs
    obtain ⟨i, hi, rfl⟩ := List.mem_iff_getElem.mp hs
    rw [List.getElem_modify]
    split
    · exact IniSection.add_le entry (cfg.entries_le _ (List.getElem_mem _))
    · exact cfg.entries_le _ (List.getElem_mem _)

/-! ### Reading a line -/

/-- `fgets` reading at most `n` characters: those it stores, and the rest of the file. -/
def fgetsUpTo : Nat → List Char → List Char × List Char
  | 0, file => ([], file)
  | _ + 1, [] => ([], [])
  | n + 1, c :: file =>
    if c = '\n' then ([c], file)
    else
      let r := fgetsUpTo n file
      (c :: r.1, r.2)

/-- `fgets`, with one character of the buffer for the terminator. -/
def fgets (size : Nat) (file : List Char) : Option (List Char × List Char) :=
  if file = [] then none else some (fgetsUpTo (size - 1) file)

/-- A buffer read as a C string. -/
def cString (buf : List Char) : List Char := buf.takeWhile (· ≠ '\x00')

/-- `strchr`: the text before the first `c`, and after it. -/
def strchr (c : Char) (text : List Char) : Option (List Char × List Char) :=
  if c ∈ text then some (text.takeWhile (· ≠ c), (text.dropWhile (· ≠ c)).tail) else none

/-- The body of the loop of `iniconf_load`. -/
def loadLine (cfg : IniConf) (room : cfg.sections.length < iniMaxSections) (buf : List Char) : IniConf :=
  let line := (cString buf).rdropWhile isSpace
  match line.dropWhile isSpace with
  | [] => cfg
  | '#' :: _ => cfg
  | ';' :: _ => cfg
  | '[' :: rest =>
    match strchr ']' rest with
    | some (name, _) => cfg.addSection room name
    | none => cfg
  | c :: rest =>
    if cfg.sections = [] then cfg
    else
      match strchr '=' (c :: rest) with
      | none => cfg
      | some (before, val) => cfg.addEntry ⟨before.rdropWhile isSpace, val.dropWhile isSpace⟩

/-- The loop of `iniconf_load`; every call of `fgets` takes a character at least, so `file.length` rounds are
enough. -/
def loadLoop : Nat → IniConf → List Char → IniConf
  | 0, cfg, _ => cfg
  | rounds + 1, cfg, file =>
    match fgets iniMaxLine file with
    | none => cfg
    | some (line, file) =>
      if room : cfg.sections.length < iniMaxSections then loadLoop rounds (loadLine cfg room line) file else cfg

def iniconfLoad (file : List Char) : IniConf := loadLoop file.length .empty file

/-! ### Looking up a value -/

/-- `strcasecmp(a, b) == 0`. -/
def strcasecmpEq (a b : List Char) : Bool := a.map Char.toLower == b.map Char.toLower

/-- The loop over the entries of a section. -/
def getEntry (key : List Char) : List IniEntry → Option (List Char)
  | [] => none
  | e :: es => if strcasecmpEq e.key key then some e.value else getEntry key es

def getLoop (sect key : List Char) : List IniSection → Option (List Char)
  | [] => none
  | s :: ss => if strcasecmpEq s.name sect then getEntry key s.entries else getLoop sect key ss

def iniconfGet (cfg : IniConf) (sect key : List Char) : Option (List Char) := getLoop sect key cfg.sections

def getIndexedLoop (sect : List Char) (index : Int) (key : List Char) : Int → List IniSection → Option (List Char)
  | _, [] => none
  | nth, s :: ss =>
    if strcasecmpEq s.name sect then
      if nth = index then getEntry key s.entries else getIndexedLoop sect index key (nth + 1) ss
    else getIndexedLoop sect index key nth ss

def iniconfGetIndexed (cfg : IniConf) (sect : List Char) (index : Int) (key : List Char) : Option (List Char) :=
  getIndexedLoop sect index key 0 cfg.sections

/-- `strtol` in base 10: the value, held within `long`, and the text after it; none if there are no digits. -/
def strtol (text : List Char) : Option (Int × List Char) :=
  let signed := scanSign (text.dropWhile isSpace)
  let digits := signed.2.takeWhile Char.isDigit
  if digits.isEmpty then none
  else
    let n : Int := Nat.ofDigitChars 10 digits 0
    some (if signed.1 then max (-n) (-2 ^ 63) else min n (2 ^ 63 - 1), signed.2.dropWhile Char.isDigit)

/-- The conversion of a `long` to `int`. -/
def toInt (n : Int) : Int := n.bmod (2 ^ 32)

def iniconfGetInt (cfg : IniConf) (sect key : List Char) (defaultVal : Int) : Int :=
  match iniconfGet cfg sect key with
  | none => defaultVal
  | some v =>
    match strtol v with
    | some (n, []) => toInt n
    | _ => defaultVal

end AegisTunnel
