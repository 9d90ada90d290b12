import Chericat.ScanStages

/-!
The functions of `db_process.c` that read a table into an array.  A count query
gives the size of the array, and the callback of the select stores every row at
an index that is a global of the program.
-/

namespace Chericat

open Numeral

/-! ### Callbacks -/

/-- `convert_str_to_int`: what `strtol` returns is stored in an `int`. -/
def convertStrToInt {ε : Type} (str : Option Text) : Run ε Stop CInt :=
  match str with
  | none => pure 0
  | some s =>
      if (strtol 10 s).2 = [] then pure (BitVec.ofInt 32 (strtol 10 s).1)
      else Run.stop .errx

def strdup {ε : Type} : Option Text → Run ε Stop Text
  | some s => pure s
  | none => Run.stop .crash

/-- The columns of a row as a callback gets them. -/
abbrev Argv := List (Option Text)

/-- A row is stored at this index of an array of `count` elements. -/
structure Write where
  index : Int
  count : Int
deriving Repr, DecidableEq

/-- The store is inside of the array. -/
def Write.InBounds (w : Write) : Prop := 0 ≤ w.index ∧ w.index < w.count

abbrev Fetch := Run Write Stop

/-- What `vm_info_query_callback` captures of a row. -/
def vmInfoQueryCallback : Argv → Fetch VmInfo
  | [startAddr, endAddr, mmapPath, compartId, kveProtection, mmapFlags,
      vnodeType, pltAddr, pltSize, gotAddr, gotSize] => do
      let startAddr ← strdup startAddr
      let endAddr ← strdup endAddr
      let mmapPath ← strdup mmapPath
      let compartId ← convertStrToInt compartId
      let kveProtection ← convertStrToInt kveProtection
      let mmapFlags ← convertStrToInt mmapFlags
      let vnodeType ← convertStrToInt vnodeType
      pure
        { startAddr := startAddr
          endAddr := endAddr
          mmapPath := mmapPath
          compartId := compartId.toInt
          kveProtection := kveProtection.toInt
          mmapFlags := mmapFlags.toInt
          vnodeType := vnodeType.toInt
          pltAddr := pltAddr
          pltSize := pltSize
          gotAddr := gotAddr
          gotSize := gotSize }
  | _ => Run.stop .assertion

def capInfoQueryCallback : Argv → Fetch CapInfo
  | [capLocAddr, capLocPath, capAddr, perms, base, top] => do
      let capLocAddr ← strdup capLocAddr
      let capLocPath ← strdup capLocPath
      let capAddr ← strdup capAddr
      let perms ← strdup perms
      let base ← strdup base
      let top ← strdup top
      pure ⟨capLocAddr, capLocPath, capAddr, perms, base, top⟩
  | _ => Run.stop .assertion

def symInfoQueryCallback : Argv → Fetch SymInfo
  | [sourcePath, symName, symOffset, shndx, type, bind, addr] => do
      let sourcePath ← strdup sourcePath
      let symName ← strdup symName
      let symOffset ← strdup symOffset
      let shndx ← strdup shndx
      let type ← strdup type
      let bind ← strdup bind
      let addr ← strdup addr
      pure ⟨sourcePath, symName, symOffset, shndx, type, bind, addr⟩
  | _ => Run.stop .assertion

/-- The integers of `comp_info` are never `NULL`. -/
def compInfoQueryCallback : Argv → Fetch CompInfo
  | [compartId, compartName, libraryPath, startAddr, endAddr, isDefault,
      parentId] => do
      let compartId ← convertStrToInt compartId
      let isDefault ← convertStrToInt isDefault
      let parentId ← convertStrToInt parentId
      pure
        { compartId := compartId.toInt
          compartName := compartName
          libraryPath := libraryPath
          startAddr := startAddr
          endAddr := endAddr
          isDefault := some isDefault.toInt
          parentId := some parentId.toInt }
  | _ => Run.stop .assertion

/-! ### Columns of the stored rows -/

def VmInfo.argv (r : VmInfo) : Argv :=
  [some r.startAddr, some r.endAddr, some r.mmapPath,
    some (decText r.compartId), some (decText r.kveProtection),
    some (decText r.mmapFlags), some (decText r.vnodeType), r.pltAddr,
    r.pltSize, r.gotAddr, r.gotSize]

def CapInfo.argv (r : CapInfo) : Argv :=
  [some r.capLocAddr, some r.capLocPath, some r.capAddr, some r.perms,
    some r.base, some r.top]

def SymInfo.argv (r : SymInfo) : Argv :=
  [some r.sourcePath, some r.symName, some r.symOffset, some r.shndx,
    some r.type, some r.bind, some r.addr]

def CompInfo.argv (r : CompInfo) : Argv :=
  [some (decText r.compartId), r.compartName, r.libraryPath, r.startAddr,
    r.endAddr, r.isDefault.map decText, r.parentId.map decText]

/-! ### One call -/

/-- What a call finds: the tables there are, their rows, and, when its select
fails, how many rows have been delivered by then. -/
structure Snapshot where
  present : Table → Bool
  db : Db
  fails : Option Nat

/-- The rows the callback gets to see. -/
def Snapshot.delivered {α : Type} (s : Snapshot) (rows : List α) : List α :=
  match s.fails with
  | none => rows
  | some k => rows.take k

def assertDbTableExists (s : Snapshot) (tb : Table) : Fetch PUnit :=
  if s.present tb then pure ⟨⟩ else Run.stop .errx

/-- The `*_info_count` functions: `COUNT(*)` of a query that selects `n`
rows. -/
def infoCount (s : Snapshot) (tb : Table) (n : Nat) : Fetch CInt := do
  assertDbTableExists s tb
  convertStrToInt (some (decText n))

/-- `calloc` and the assertion behind it.  A negative count is a request for
more memory than there can be. -/
def callocCells {ρ : Type} (count : CInt) : Fetch (List (Option ρ)) :=
  if count.toInt < 0 then Run.stop .assertion
  else pure (List.replicate count.toNat none)

/-- The index global and the array, while rows are delivered. -/
structure Filling (ρ : Type) where
  index : CInt
  cells : List (Option ρ)

/-- `(*result_ptr)[index++] = captured`. -/
def storeRow {ρ : Type} (count : CInt) (callback : Argv → Fetch ρ)
    (s : Filling ρ) (argv : Argv) : Fetch (Filling ρ) := do
  let captured ← callback argv
  Run.emit ⟨s.index.toInt, count.toInt⟩
  pure ⟨s.index + 1, s.cells.set s.index.toNat (some captured)⟩

/-- The value returned and the array handed out. -/
structure Fetched (ρ : Type) where
  ret : Int
  array : List (Option ρ)
deriving Repr, DecidableEq

/-- The `get_*_info` functions, on the rows their query selects.  The second
result is the index global, which is reset when the select has failed, too. -/
def getInfo {ρ : Type} (s : Snapshot) (tb : Table) (rows : List Argv)
    (callback : Argv → Fetch ρ) (index : CInt) : Fetch (Fetched ρ × CInt) := do
  assertDbTableExists s tb
  let count ← infoCount s tb rows.length
  let cells ← callocCells count
  let filled ← Run.loop (storeRow count callback) ⟨index, cells⟩
    (s.delivered rows)
  pure (⟨if s.fails.isNone then count.toInt else -1, filled.cells⟩, 0)

def getAllVmInfo (s : Snapshot) (index : CInt) :
    Fetch (Fetched VmInfo × CInt) :=
  getInfo s .vm (s.db.vm.map VmInfo.argv) vmInfoQueryCallback index

def getAllCapInfo (s : Snapshot) (index : CInt) :
    Fetch (Fetched CapInfo × CInt) :=
  getInfo s .capInfo (s.db.capInfo.map CapInfo.argv) capInfoQueryCallback index

def getAllSymInfo (s : Snapshot) (index : CInt) :
    Fetch (Fetched SymInfo × CInt) :=
  getInfo s .elfSym (s.db.elfSym.map SymInfo.argv) symInfoQueryCallback index

def getAllCompInfo (s : Snapshot) (index : CInt) :
    Fetch (Fetched CompInfo × CInt) :=
  getInfo s .comparts (s.db.comparts.rows.map CompInfo.argv)
    compInfoQueryCallback index

/-- Both queries have the same condition; `selects` is what SQLite makes of it
for a library name. -/
def getCapInfoForLib (selects : Text → CapInfo → Bool) (s : Snapshot)
    (index : CInt) (lib : Text) : Fetch (Fetched CapInfo × CInt) :=
  getInfo s .capInfo ((s.db.capInfo.filter (selects lib)).map CapInfo.argv)
    capInfoQueryCallback index

/-! ### Sequences of calls -/

inductive FetchCall where
  | allVm
  | allCap
  | capForLib (lib : Text)
  | allSym
  | allComp
deriving Repr, DecidableEq

inductive FetchResult where
  | vm (r : Fetched VmInfo)
  | cap (r : Fetched CapInfo)
  | sym (r : Fetched SymInfo)
  | comp (r : Fetched CompInfo)
deriving Repr, DecidableEq

/-- `all_vm_info_index`, `all_cap_info_index`, `all_sym_info_index` and
`all_comp_info_index`. -/
structure Indexes where
  vm : CInt
  cap : CInt
  sym : CInt
  comp : CInt
deriving Repr, DecidableEq

def Indexes.zero : Indexes := ⟨0, 0, 0, 0⟩

/-- The globals, and what the calls so far have returned. -/
structure FetchState where
  indexes : Indexes
  results : List FetchResult

def FetchState.start : FetchState := ⟨.zero, []⟩

/-- One call.  Both queries of `cap_info` share their index. -/
def fetchStep (selects : Text → CapInfo → Bool) (st : FetchState)
    (call : FetchCall × Snapshot) : Fetch FetchState :=
  match call.1 with
  | .allVm => do
      let r ← getAllVmInfo call.2 st.indexes.vm
      pure ⟨{ st.indexes with vm := r.2 }, st.results ++ [.vm r.1]⟩
  | .allCap => do
      let r ← getAllCapInfo call.2 st.indexes.cap
      pure ⟨{ st.indexes with cap := r.2 }, st.results ++ [.cap r.1]⟩
  | .capForLib lib => do
      let r ← getCapInfoForLib selects call.2 st.indexes.cap lib
      pure ⟨{ st.indexes with cap := r.2 }, st.results ++ [.cap r.1]⟩
  | .allSym => do
      let r ← getAllSymInfo call.2 st.indexes.sym
      pure ⟨{ st.indexes with sym := r.2 }, st.results ++ [.sym r.1]⟩
  | .allComp => do
      let r ← getAllCompInfo call.2 st.indexes.comp
      pure ⟨{ st.indexes with comp := r.2 }, st.results ++ [.comp r.1]⟩

end Chericat
