import Chericat.CapCapture
import Chericat.ElfUtils
import Chericat.RtldLinkmapScan

/-!
`scan_mem`: the tables are filled from the link map, the compartment array,
the ELF files and the pages of every block, in this order.
-/

namespace Chericat

open Numeral

/-- What the block loop carries: `seen_kivp`, the section records handed out
so far, and `insert_vm_query_values`. -/
structure ScanState where
  seen : List KinfoVmentry
  ssect : List SpecialSections
  values : List VmEntry
deriving Repr, DecidableEq

def ScanState.start : ScanState := ⟨[], [], []⟩

/-- The file of a named entry is parsed the first time its path is seen. -/
def parseFile (t : Target) (st : ScanState) (kivp : KinfoVmentry) :
    Scan ScanState :=
  if kivp.kvePath = [] then pure st
  else if st.seen.any (·.kvePath = kivp.kvePath) then pure st
  else do
    let file ← readElf t kivp.kvePath
    let record ← getElfInfo file kivp.kvePath kivp.kveStart
    pure { st with
      seen := st.seen ++ [kivp]
      ssect := st.ssect ++ [record] }

/-- The name of a block without suffixes: its path, the library whose first
entry starts at its reservation, or a guess. -/
def libraryPath (t : Target) (seen : List KinfoVmentry)
    (kivp : KinfoVmentry) : Text :=
  if kivp.kvePath = [] then
    match seen.find? (·.kveStart = kivp.kveReservation) with
    | some s => s.kvePath
    | none =>
        if kivp.kveType = t.kvme.typeGuard then "Guard".toList
        else if kivp.kveFlags &&& t.kvme.flagGrowsDown ≠ 0 then "Stack".toList
        else "Heap(others)".toList
  else kivp.kvePath

/-- `ssect[ssect_index-1]`. -/
def lastRecord (t : Target) (ssect : List SpecialSections) :
    SpecialSections :=
  ssect.getLast?.getD t.beforeRecords

/-- The section lies inside the block. -/
def insideBlock (kivp : KinfoVmentry) (addr size : ULong) : Bool :=
  kivp.kveStart ≤ addr && addr + size ≤ kivp.kveEnd

def pathSuffix (r : SpecialSections) (kivp : KinfoVmentry) : Text :=
  (if insideBlock kivp r.pltAddr r.pltSize then "(.plt)".toList else []) ++
    if insideBlock kivp r.gotAddr r.gotSize then "(.got)".toList else []

def mmapPath (t : Target) (st : ScanState) (kivp : KinfoVmentry) : Text :=
  libraryPath t st.seen kivp ++ pathSuffix (lastRecord t st.ssect) kivp

/-- `strncmp(path, mmap_path, strlen(path)) == 0`. -/
def matchesPath (path : Option Text) (mmapPath : Text) : Bool :=
  match path with
  | none => false
  | some p => p.isPrefixOf mmapPath

/-- The id of the first listed library that matches, or `-1`. -/
def findCompartId (comparts : List CompartData) (mmapPath : Text) : Int :=
  match comparts.find? fun c => matchesPath c.path mmapPath with
  | some c => c.id
  | none => -1

def blockEntry (t : Target) (comparts : List CompartData) (st : ScanState)
    (kivp : KinfoVmentry) : VmEntry :=
  { startAddr := hexText kivp.kveStart.toNat
    endAddr := hexText kivp.kveEnd.toNat
    mmapPath := mmapPath t st kivp
    compartId := findCompartId comparts (mmapPath t st kivp)
    kveProtection := kivp.kveProtection.toInt
    mmapFlags := kivp.kveFlags.toInt
    vnodeType := kivp.kveType.toInt }

/-- The page loop.  There are `2 ^ 52` pages, so a loop still going after
that many turns goes round the address space for ever. -/
def pageLoop (t : Target) (m : Memory) (path : Text) :
    Nat → ULong → ULong → Scan PUnit
  | 0, start, stop => if start < stop then Run.stop .endless else pure ⟨⟩
  | turns + 1, start, stop =>
      if start < stop then do
        let _ ← getTags t m start path
        pageLoop t m path turns (start + 4096) stop
      else pure ⟨⟩

def pageTurns : Nat := 2 ^ 52

def hascap (t : Target) (kivp : KinfoVmentry) : Bool :=
  kivp.kveFlags &&& t.kvme.flagHascap ≠ 0

/-- The pages of a block that may hold capabilities. -/
def scanPages (t : Target) (m : Memory) (kivp : KinfoVmentry) (path : Text) :
    Scan PUnit :=
  if hascap t kivp then
    pageLoop t m path pageTurns kivp.kveStart kivp.kveEnd
  else pure ⟨⟩

/-- The window of one block. -/
def scanBlock (t : Target) (i : Nat) (kivp : KinfoVmentry) (path : Text) :
    Scan PUnit := do
  ptraceAttach
  scanPages t (t.memory i) kivp path
  ptraceDetach

def scanEntry (t : Target) (comparts : List CompartData) (st : ScanState)
    (entry : KinfoVmentry × Nat) : Scan ScanState := do
  let st ← parseFile t st entry.1
  scanBlock t entry.2 entry.1 (mmapPath t st entry.1)
  pure { st with values := st.values ++ [blockEntry t comparts st entry.1] }

/-- Send the `vm` rows.  Only an empty map leaves the list unassigned. -/
def insertVmEntries (t : Target) (values : List VmEntry) : Scan PUnit :=
  if h : values ≠ [] then sqlQueryExec (.insertVm ⟨values, h⟩)
  else do
    t.pendingVm.send vmHdr
    t.pendingVm.free

/-- The `UPDATE` of one section record; `printf` shows a `NULL` path as
`(null)`. -/
def sectionUpdate (r : SpecialSections) : SectionUpdate :=
  { pltAddr := r.pltAddr
    pltSize := r.pltSize
    gotAddr := r.gotAddr
    gotSize := r.gotSize
    mmapPath := r.mmapPath.getD "(null)".toList }

def updateStep (_ : PUnit) (r : SpecialSections) : Scan PUnit :=
  sqlQueryExec (.updateVm (sectionUpdate r))

/-- `create_vm_cap_db` and `create_comparts_table`. -/
def createTables : Scan PUnit := do
  sqlQueryExec (.createTable capInfoTable)
  sqlQueryExec (.createTable vmTable)
  sqlQueryExec (.createTable compartsTable)

theorem createTables_ok : createTables.outcome = .ok ⟨⟩ := rfl

/-- The scan of a process whose map has been obtained. -/
def scanMap (t : Target) (map : List KinfoVmentry) : Scan PUnit := do
  createTables
  let debug ← getRDebug t
  let comparts ← scanRtldLinkmap t debug
  let _ ← scanRComparts t debug
  let st ← Run.loop (scanEntry t comparts) ScanState.start map.zipIdx
  insertVmEntries t st.values
  Run.loop updateStep ⟨⟩ st.ssect

def scanMem (t : Target) : Scan PUnit :=
  match t.procs with
  | none => Run.stop .errx
  | some pcnt =>
      if pcnt ≠ 1 then Run.stop .errx
      else
        match t.vmmap with
        | none => Run.stop .errx
        | some map => scanMap t map

/-! ### What the block loop does with an entry -/

theorem readElf_ok {t : Target} {path : Text} {file : ElfFile}
    (h : (readElf t path).outcome = .ok file) : t.elf path = some file := by
  rw [readElf] at h
  split at h
  · next hfile =>
      cases h
      exact hfile
  · cases h

/-- What parsing the file of an entry may come to. -/
inductive ParseStep (t : Target) (st : ScanState) (kivp : KinfoVmentry) :
    ScanState → Prop where
  | unnamed (hpath : kivp.kvePath = []) : ParseStep t st kivp st
  | again (hpath : kivp.kvePath ≠ [])
      (hseen : st.seen.any (·.kvePath = kivp.kvePath) = true) :
      ParseStep t st kivp st
  | parsed {file : ElfFile} {record : SpecialSections}
      (hpath : kivp.kvePath ≠ [])
      (hnew : ¬ st.seen.any (·.kvePath = kivp.kvePath) = true)
      (hfile : t.elf kivp.kvePath = some file)
      (hrecord : (getElfInfo file kivp.kvePath kivp.kveStart).outcome =
        .ok record) :
      ParseStep t st kivp
        { st with
          seen := st.seen ++ [kivp]
          ssect := st.ssect ++ [record] }

theorem parseFile_ok {t : Target} {st st' : ScanState} {kivp : KinfoVmentry}
    (h : (parseFile t st kivp).outcome = .ok st') :
    ParseStep t st kivp st' := by
  rw [parseFile] at h
  split at h
  · next hpath =>
      cases h
      exact .unnamed hpath
  · next hpath =>
      split at h
      · next hseen =>
          cases h
          exact .again hpath hseen
      · next hnew =>
          obtain ⟨file, hfile, h⟩ := Run.bind_eq_ok h
          obtain ⟨record, hrecord, h⟩ := Run.bind_eq_ok h
          cases h
          exact .parsed hpath hnew (readElf_ok hfile) hrecord

theorem parseFile_values {t : Target} {st st' : ScanState}
    {kivp : KinfoVmentry} (h : (parseFile t st kivp).outcome = .ok st') :
    st'.values = st.values := by
  rcases parseFile_ok h with _ | _ | _ <;> rfl

/-- The file of an entry is parsed, then its block is scanned. -/
theorem scanEntry_ok {t : Target} {comparts : List CompartData}
    {st st' : ScanState} {entry : KinfoVmentry × Nat}
    (h : (scanEntry t comparts st entry).outcome = .ok st') :
    ∃ st₁, (parseFile t st entry.1).outcome = .ok st₁ ∧
      (scanBlock t entry.2 entry.1 (mmapPath t st₁ entry.1)).outcome =
        .ok ⟨⟩ ∧
      (scanEntry t comparts st entry).trace =
        (parseFile t st entry.1).trace ++
          (scanBlock t entry.2 entry.1 (mmapPath t st₁ entry.1)).trace ∧
      st' =
        { st₁ with
          values := st.values ++ [blockEntry t comparts st₁ entry.1] } := by
  rw [scanEntry] at h ⊢
  obtain ⟨st₁, hparse, h⟩ := Run.bind_eq_ok h
  obtain ⟨_, hblock, h⟩ := Run.bind_eq_ok h
  cases h
  refine ⟨st₁, hparse, hblock, ?_, by rw [← parseFile_values hparse]⟩
  rw [Run.trace_bind_ok hparse, Run.trace_bind_ok hblock, Run.trace_pure,
    List.append_nil]

/-- The database after a scan whose statements all succeed. -/
def dbAfter (t : Target) (db : Db) : Db :=
  runAll (statements (scanMem t).trace) db

end Chericat
