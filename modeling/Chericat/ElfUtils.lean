import Chericat.Target

/-!
`elf_utils.c`: the symbols of a mapped file and the record of its `.plt` and
`.got`.
-/

namespace Chericat

open Numeral

/-- `%#x`. -/
def altHex (n : Nat) : Text := if n = 0 then ['0'] else hexText n

def unknownText (n : Nat) : Text :=
  "<unknown: ".toList ++ altHex n ++ ">".toList

def stBind (sbind : Nat) : Text :=
  if sbind = 0 then "LOCAL".toList
  else if sbind = 1 then "GLOBAL".toList
  else if sbind = 2 then "WEAK".toList
  else if sbind = 10 then "UNIQUE".toList
  else if 10 ≤ sbind ∧ sbind ≤ 12 then "OS".toList
  else if 13 ≤ sbind ∧ sbind ≤ 15 then "PROC".toList
  else unknownText sbind

def emSparcv9 : Nat := 43

def elfOsabiGnu : Nat := 3

def elfOsabiFreebsd : Nat := 9

def sttFunc : Nat := 2

def stType (mach os stype : Nat) : Text :=
  if stype = 0 then "NOTYPE".toList
  else if stype = 1 then "OBJECT".toList
  else if stype = sttFunc then "FUNC".toList
  else if stype = 3 then "SECTION".toList
  else if stype = 4 then "FILE".toList
  else if stype = 5 then "COMMON".toList
  else if stype = 6 then "TLS".toList
  else if 10 ≤ stype ∧ stype ≤ 12 then
    if (os = elfOsabiGnu ∨ os = elfOsabiFreebsd) ∧ stype = 10 then
      "IFUNC".toList
    else "OS+".toList ++ altHex (stype - 10)
  else if 13 ≤ stype ∧ stype ≤ 15 then
    if mach = emSparcv9 ∧ stype = 13 then "REGISTER".toList
    else "PROC+".toList ++ altHex (stype - 13)
  else unknownText stype

def stShndx (shndx : Nat) : Text :=
  if shndx = 0 then "UND".toList
  else if shndx = 0xfff1 then "ABS".toList
  else if shndx = 0xfff2 then "COM".toList
  else if 0xff00 ≤ shndx ∧ shndx ≤ 0xff1f then "PRC".toList
  else if 0xff20 ≤ shndx ∧ shndx ≤ 0xff3f then "OS".toList
  else numeral 10 shndx

/-- `%3s`. -/
def padLeft3 (s : Text) : Text := List.replicate (3 - s.length) ' ' ++ s

/-- `GELF_ST_TYPE` and `GELF_ST_BIND`. -/
def ElfSymbol.stt (s : ElfSymbol) : Nat := s.stInfo % 16

def ElfSymbol.stb (s : ElfSymbol) : Nat := s.stInfo / 16

/-- `read_elf`: a file that cannot be opened or begun ends the program. -/
def readElf (t : Target) (path : Text) : Scan ElfFile :=
  match t.elf path with
  | some file => pure file
  | none => Run.stop .exit

/-- The symbol's value with the bit cleared that marks capability mode. -/
def ElfSymbol.offset (s : ElfSymbol) : ULong :=
  if s.stt = sttFunc then s.stValue &&& ~~~1 else s.stValue

def symRow (file : ElfFile) (source : Text) (sourceBase : ULong)
    (s : ElfSymbol) (symname : Text) : SymInfo :=
  { sourcePath := source
    symName := symname
    symOffset := hexText s.stValue.toNat
    shndx := padLeft3 (stShndx s.stShndx)
    type := stType file.eMachine file.eiOsabi s.stt
    bind := stBind s.stb
    addr := hexText (sourceBase + s.offset).toNat }

/-- `insert_syms_query_values`: uninitialised until the first named symbol,
and then a list of values, the empty one for `NULL`. -/
inductive SymValues where
  | indeterminate
  | rows (vs : List SymInfo)
deriving Repr, DecidableEq

/-- The pointer and the counter `query_values_index` that travels with it. -/
structure SymState where
  values : SymValues
  queryValuesIndex : Nat
deriving Repr, DecidableEq

def SymState.push (s : SymState) (v : SymInfo) : SymState :=
  if s.queryValuesIndex = 0 then ⟨.rows [v], 1⟩
  else
    match s.values with
    | .rows vs => ⟨.rows (vs ++ [v]), s.queryValuesIndex + 1⟩
    | .indeterminate => ⟨.indeterminate, s.queryValuesIndex + 1⟩

/-- Send the values collected so far, unless the pointer is `NULL`. -/
def sendSymbols (pending : Unset) : SymValues → Scan PUnit
  | .rows vs =>
      if h : vs ≠ [] then sqlQueryExec (.insertElfSym ⟨vs, h⟩) else pure ⟨⟩
  | .indeterminate => pending.send elfSymHdr

/-- `free` of the values, unless the pointer is `NULL`. -/
def freeSymbols (pending : Unset) : SymValues → Scan PUnit
  | .rows _ => pure ⟨⟩
  | .indeterminate => pending.free

/-- What is left at the end is sent and freed. -/
def finishSymbols (pending : Unset) (values : SymValues) : Scan PUnit := do
  sendSymbols pending values
  freeSymbols pending values

/-- The symbol at index `i` of a table. -/
def symStep (file : ElfFile) (source : Text) (sourceBase : ULong)
    (s : SymState) (entry : ElfSymbol × Nat) : Scan SymState :=
  match entry.1.name with
  | none => pure s
  | some symname => do
      let s := s.push (symRow file source sourceBase entry.1 symname)
      if entry.2 % 200 = 0 then
        sendSymbols file.pending s.values
        pure ⟨.rows [], 0⟩
      else pure s

structure ElfState where
  record : SpecialSections
  seenDynsym : Bool
  seenSymtab : Bool
  syms : SymState
deriving Repr, DecidableEq

/-- The record made in the loop iteration of one section.  It is a fresh
local, so only the fields of this section's name are assigned. -/
def captureSection (source : Text) (sourceBase : ULong) (sec : ElfSection)
    (name : Text) : SpecialSections :=
  let r := sec.locals
  let r :=
    if name = ".plt".toList then
      { r with pltAddr := sec.shAddr + sourceBase, pltSize := sec.shSize }
    else r
  let r :=
    if name = ".got".toList then
      { r with gotAddr := sec.shAddr + sourceBase, gotSize := sec.shSize }
    else r
  { r with mmapPath := some source }

/-- The symbols of a section, when it is a symbol table. -/
def sectionSymbols (file : ElfFile) (source : Text) (sourceBase : ULong)
    (sec : ElfSection) (s : SymState) : Scan SymState :=
  if sec.shType = .other then pure s
  else
    match sec.symbols with
    | none => Run.stop .assertion
    | some symbols =>
        Run.loop (symStep file source sourceBase) s symbols.zipIdx

/-- The section loop, which ends early once both symbol tables were seen. -/
def sectionLoop (file : ElfFile) (source : Text) (sourceBase : ULong) :
    ElfState → List ElfSection → Scan ElfState
  | st, [] => pure st
  | st, sec :: rest =>
      match sec.name with
      | none => Run.stop .crash
      | some name => do
          let syms ← sectionSymbols file source sourceBase sec st.syms
          let st : ElfState :=
            { record := captureSection source sourceBase sec name
              seenDynsym := st.seenDynsym || sec.shType = .dynsym
              seenSymtab := st.seenSymtab || sec.shType = .symtab
              syms := syms }
          if st.seenDynsym && st.seenSymtab then pure st
          else sectionLoop file source sourceBase st rest

/-- `get_elf_info`; the result is the section record of the file, left as
`calloc` made it when nothing is stored. -/
def getElfInfo (file : ElfFile) (source : Text) (sourceBase : ULong) :
    Scan SpecialSections := do
  sqlQueryExec (.createTable elfSymTable)
  if !file.hasHeader then pure .zero
  else if !file.hasSectionNames then pure .zero
  else
    let st ← sectionLoop file source sourceBase
      ⟨.zero, false, false, ⟨.indeterminate, 0⟩⟩ file.sections
    finishSymbols file.pending st.syms.values
    pure st.record

end Chericat
