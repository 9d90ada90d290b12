import Chericat.Target

/-!
`rtld_linkmap_scan.c`: from the auxiliary vector to `r_debug`, and from there
to the libraries and compartments of the target.
-/

namespace Chericat

/-- The part of a path behind its last slash. -/
def fileName (path : Text) : Text :=
  (path.reverse.takeWhile (· ≠ '/')).reverse

/-- `get_filename_from_path`, which hands its argument to `strrchr`. -/
def getFilenameFromPath (path : Option Text) : Scan Text :=
  match path with
  | some p => pure (fileName p)
  | none => Run.stop .crash

/-- `phdr`, `phent` and `phnum` after the auxiliary vector; a later entry
overrides an earlier one. -/
def auxStep (s : ULong × CInt × CInt) (a : Auxinfo) : ULong × CInt × CInt :=
  match a.aType with
  | .atPhdr => (a.aVal, s.2)
  | .atPhent => (s.1, a.aVal.setWidth 32, s.2.2)
  | .atPhnum => (s.1, s.2.1, a.aVal.setWidth 32)
  | .other => s

/-- The elements a loop `for (int i = 0; i < n; i++)` reads. -/
def firstInt {α : Type} (n : CInt) (xs : List α) : List α :=
  xs.take n.toInt.toNat

/-- Address and size of `PT_DYNAMIC`, or of nothing at a local pointer. -/
def findDynamic (t : Target) (phnum : CInt) (phdrs : List ElfPhdr) :
    ULong × CInt :=
  match (firstInt phnum phdrs).find? (·.isDynamic) with
  | some p => (p.pVaddr, p.pMemsz.setWidth 32)
  | none => (t.dynLocal, 0)

/-- The pointer of `DT_DEBUG`, or a local one. -/
def findDebug (t : Target) (dynSize : CInt) (dyns : List ElfDyn) : ULong :=
  match (firstInt dynSize dyns).find? (·.isDebug) with
  | some d => d.dPtr
  | none => t.debugLocal

/-- `assert`. -/
def assertNonzero (p : ULong) : Scan PUnit :=
  if p ≠ 0 then pure ⟨⟩ else Run.stop .assertion

def getRDebug (t : Target) : Scan RDebug :=
  match t.auxv with
  | none => Run.stop .errx
  | some auxv =>
      let aux := auxv.foldl auxStep t.auxLocals
      let phdr := aux.1
      let phent := aux.2.1
      let phnum := aux.2.2
      if phent.signExtend 64 ≠ t.sizeofPhdr then Run.stop .assertion
      else do
        ptraceAttach
        let phdrs ← piodRead phdr (t.readPhdrs phdr phnum)
        let dyn := findDynamic t phnum phdrs
        assertNonzero dyn.1
        let dynAddr := dyn.1 + (phdr - t.sizeofEhdr)
        let dyns ← piodRead dynAddr (t.readDyns dynAddr dyn.2)
        let remoteDebug := findDebug t dyn.2 dyns
        assertNonzero remoteDebug
        let localDebug ← piodRead remoteDebug (t.readRDebug remoteDebug)
        ptraceDetach
        pure localDebug

/-- An element of the list of scanned libraries. -/
structure CompartData where
  id : Int
  path : Option Text
  startAddr : ULong
  endAddr : ULong
  isDefault : Bool
deriving Repr, DecidableEq

/-- A sub-compartment of the object with id `parent`. -/
def subcompartStep (t : Target) (parent : Nat) (_ : PUnit)
    (sub : Remote CompartEntry) : Scan PUnit := do
  let entry ← piodRead sub.addr sub.read
  let fullName ← getString t entry.compartName
  let compartName ← getFilenameFromPath fullName
  sqlQueryExec (.replaceSubcompart
    { compartId := entry.compartId
      compartName := compartName
      startAddr := entry.start
      endAddr := entry.stop
      isDefault := 0
      parentId := parent })

/-- A link-map object is put in front of the list scanned so far. -/
def objectStep (t : Target) (head : List CompartData)
    (obj : Remote ObjEntry) : Scan (List CompartData) := do
  let entry ← piodRead obj.addr obj.read
  let path ← getString t entry.lName
  let pathName ← getFilenameFromPath path
  let data : CompartData :=
    { id := entry.defaultCompartId
      path := path
      startAddr := entry.mapbase
      endAddr := entry.mapbase + entry.mapsize
      isDefault := true }
  sqlQueryExec (.replaceDefault
    { compartId := data.id
      libraryPath := pathName
      startAddr := data.startAddr
      endAddr := data.endAddr
      isDefault := 1 })
  let _ ← Run.loop (subcompartStep t entry.defaultCompartId) ⟨⟩ entry.comparts
  pure (data :: head)

def scanRtldLinkmap (t : Target) (debug : RDebug) :
    Scan (List CompartData) := do
  ptraceAttach
  let head ← Run.loop (objectStep t) [] debug.rMap
  ptraceDetach
  pure head

/-- Element `i` of the compartment array; an unreadable name is skipped, and
kept as `NULL` in the array of names. -/
def compartStep (t : Target) (names : List (Option Text))
    (entry : Remote ULong × Nat) : Scan (List (Option Text)) := do
  let name ← piodRead entry.1.addr entry.1.read
  let fullName ← getString t name
  match fullName with
  | none => pure (names ++ [none])
  | some n =>
      sqlQueryExec (.updateCompartName (fileName n) entry.2)
      pure (names ++ [some n])

def scanRComparts (t : Target) (debug : RDebug) :
    Scan (List (Option Text)) := do
  ptraceAttach
  let names ← Run.loop (compartStep t) [] debug.rComparts.zipIdx
  ptraceDetach
  pure names

end Chericat
