import Chericat.LibSelection
import Chericat.Nesting
import Chericat.CommandLine
import Chericat.CapsViews
import Chericat.RtldLinkmapScan

/-!
What the views print: the calls of libxo in `vm_caps_view.c`,
`comp_caps_view.c` and `caps_syms_view.c`, with the rows that were fetched.
How libxo lays them out, as text or as JSON, is not described.
-/

namespace Chericat

/-! ### Calls of libxo -/

/-- An argument of `xo_emit`; `percent` is
`((float)count / total) * 100`. -/
inductive XoArg where
  | int (i : Int)
  | str (s : Option Text)
  | percent (count total : Int)
deriving Repr, DecidableEq

inductive XoItem where
  | container | list | inst
deriving Repr, DecidableEq

inductive XoCall where
  | opens (item : XoItem) (name : Text)
  | closes (item : XoItem) (name : Text)
  | emit (fmt : Text) (args : List XoArg)
  | finish
deriving Repr, DecidableEq

/-- The actions of the program: functions it enters, what `scan_mem` does, the
queries for a library name, rows that are stored, and calls of libxo. -/
inductive Act where
  | call (c : Call)
  | scan (e : Event)
  | query (lib : Text)
  | fetch (w : Write)
  | xo (x : XoCall)

abbrev Program := Run Act Stop

/-- The items that an action opens or closes. -/
def Act.kind : Act → BracketMark (XoItem × Text)
  | .xo (.opens item name) => .opens (item, name)
  | .xo (.closes item name) => .closes (item, name)
  | _ => .plain

/-- The calls of libxo. -/
def xoCalls (trace : List Act) : List XoCall :=
  trace.filterMap fun
    | .xo x => some x
    | _ => none

def emitAll (xs : List XoCall) : Program PUnit := ⟨xs.map .xo, .ok ⟨⟩⟩

def calling {α : Type} (m : Main α) : Program α := m.mapTrace .call

/-- An item is opened before the run and closed behind it. -/
def inItem {α : Type} (item : XoItem) (name : String) (m : Program α) :
    Program α :=
  WindowMark.window (.xo (.opens item name.toList))
    (.xo (.closes item name.toList)) m

/-- A field of a format, in its braces, and the text behind it. -/
def xoField (name format rest : String) : Text :=
  "\x7b:".toList ++ name.toList ++ "/".toList ++ format.toList ++
    "\x7d".toList ++ rest.toList

/-- A title line; the format is left as it is. -/
def xoTitle (format : String) : Text :=
  "\x7bT:/".toList ++ format.toList ++ "\x7d\n".toList

def xoInt (name format rest : String) (i : Int) : XoCall :=
  .emit (xoField name format rest) [.int i]

def xoStr (name format rest : String) (s : Option Text) : XoCall :=
  .emit (xoField name format rest) [.str s]

def titles (words : List String) : List XoArg :=
  words.map fun s => .str (some s.toList)

/-! ### What the views depend on -/

/-- The constants of `sys/user.h` that are compared with the columns. -/
structure KvmeMasks where
  protRead : CInt
  protWrite : CInt
  protExec : CInt
  protReadCap : CInt
  protWriteCap : CInt
  flagCow : CInt
  flagNeedsCopy : CInt
  flagSuper : CInt
  flagGrowsUp : CInt
  flagGrowsDown : CInt
  flagUserWired : CInt
  typeNone : CInt
  typeDefault : CInt
  typeVnode : CInt
  typeSwap : CInt
  typeDevice : CInt
  typePhys : CInt
  typeDead : CInt
  typeSg : CInt
  typeMgtdevice : CInt
  typeGuard : CInt

/-- `sizeof(void *)`, the constants, what SQLite makes of a library name that
ends its pattern early, what a count is that no row was written to, and which
selects fail, after how many rows. -/
structure ViewEnv where
  ptrwidth : Int
  masks : KvmeMasks
  other : Text → Option (CapInfo → Bool)
  unset : Option Text
  fails : Table → Option Nat

def ViewEnv.snapshot (env : ViewEnv) (present : Table → Bool) (db : Db)
    (tb : Table) : Snapshot :=
  ⟨present, db, env.fails tb⟩

/-! ### Reading what was fetched -/

def fetching {α : Type} (m : Fetch α) : Program α := m.mapTrace .fetch

/-- A fetch, and `assert(count != -1)`. -/
def fetchAsserted {ρ : Type} (m : Fetch (Fetched ρ × CInt)) :
    Program (Fetched ρ × CInt) := do
  let r ← fetching m
  if r.1.ret = -1 then Run.stop .assertion else pure r

/-- The elements a loop up to the count looks at. -/
def Fetched.cells {ρ : Type} (r : Fetched ρ) : List (Option ρ) :=
  r.array.take r.ret.toNat

/-- An element that was never stored holds `NULL` pointers. -/
def readCell {ρ : Type} : Option ρ → Program ρ
  | some a => pure a
  | none => Run.stop .crash

def readCells {ρ : Type} (cells : List (Option ρ)) : Program (List ρ) :=
  Run.loop (fun as cell => do
    let a ← readCell cell
    pure (as ++ [a])) [] cells

/-! ### `vm_caps_view` -/

/-- `flags & mask ? word : other`. -/
def maskText (flags : Int) (mask : CInt) (word other : Text) : Text :=
  if BitVec.ofInt 32 flags &&& mask ≠ 0 then word else other

/-- The word of the `switch` over the type. -/
def typeText (k : KvmeMasks) (vnodeType : Int) : Text :=
  let t : CInt := BitVec.ofInt 32 vnodeType
  if t = k.typeNone then "--".toList
  else if t = k.typeDefault then "df".toList
  else if t = k.typeVnode then "vn".toList
  else if t = k.typeSwap then "sw".toList
  else if t = k.typeDevice then "dv".toList
  else if t = k.typePhys then "ph".toList
  else if t = k.typeDead then "dd".toList
  else if t = k.typeSg then "sg".toList
  else if t = k.typeMgtdevice then "md".toList
  else if t = k.typeGuard then "gd".toList
  else "??".toList

/-- The name of the database between lines. -/
def banner (name : Text) : List XoCall :=
  List.replicate (name.length + 4) (.emit (xoField "" "-" "") []) ++
    .emit (xoField "" "\n %s \n" "") [.str (some name)] ::
    List.replicate (name.length + 4) (.emit (xoField "" "-" "") [])

/-- A letter of the protection, or a dash. -/
def protField (name format rest : String) (prot : Int) (mask : CInt)
    (letter : String) : XoCall :=
  xoStr name format rest (maskText prot mask letter.toList "-".toList)

def vmRowHead (env : ViewEnv) (v : VmInfo) : List XoCall :=
  [.emit (xoField "mmap_start_addr" "%*s" "")
      [.int env.ptrwidth, .str v.startAddr],
    .emit (xoField "mmap_end_addr" "%*s" "")
      [.int env.ptrwidth, .str v.endAddr],
    protField "read" "%3s" "" v.kveProtection env.masks.protRead "r",
    protField "write" "%s" "" v.kveProtection env.masks.protWrite "w",
    protField "exec" "%s" "" v.kveProtection env.masks.protExec "x",
    protField "read_cap" "%s" "" v.kveProtection env.masks.protReadCap "R",
    protField "write_cap" "%s" " " v.kveProtection env.masks.protWriteCap
      "W"]

/-- The counters, the first of them in a column of its own width, and the
density. -/
def countFields (firstFormat lastRest : String) (n : CapCounts)
    (total : Int) : List XoCall :=
  [xoInt "ro_count" firstFormat " " n.roCount,
    xoInt "rw_count" "%5d" " " n.rwCount,
    xoInt "rx_count" "%5d" " " n.rxCount,
    xoInt "rwx_count" "%5d" " " n.rwxCount,
    xoInt "out_cap_count" "%8d" " " n.outCapCount,
    .emit (xoField "out_cap_density" "%8.2f%%" lastRest)
      [.percent n.outCapCount total]]

def vmRowTail (env : ViewEnv) (v : VmInfo) : List XoCall :=
  [protField "copy_on_write" "%-1s" "" v.mmapFlags env.masks.flagCow "C",
    protField "need_copy" "%-1s" "" v.mmapFlags env.masks.flagNeedsCopy "N",
    protField "super_pages" "%-1s" "" v.mmapFlags env.masks.flagSuper "S",
    xoStr "grows_down" "%-1s" "" (maskText v.mmapFlags
      env.masks.flagGrowsUp "U".toList (maskText v.mmapFlags
        env.masks.flagGrowsDown "D".toList "-".toList)),
    protField "wired" "%-1s" " " v.mmapFlags env.masks.flagUserWired "W",
    xoStr "kve_type" "%-2s" " " (typeText env.masks v.vnodeType),
    xoInt "compart_id" "%7d" " " v.compartId,
    xoStr "mmap_path" "%s" "\n" (fileName v.mmapPath)]

def vmTitles (env : ViewEnv) : XoCall :=
  .emit (xoTitle "\n%*s %*s %6s %5s %5s %5s %5s %8s %8s %-5s %-2s %5s %-s")
    ([.int env.ptrwidth, .str (some "START".toList),
      .int (env.ptrwidth - 1), .str (some "END".toList)] ++
      titles ["PRT", "ro", "rw", "rx", "rwx", "TOTAL", "DENSITY", "FLAGS",
        "TP", "COMPART", "PATH"])

/-- One row; the capabilities are looked through anew for each. -/
def printVmRow (env : ViewEnv) (caps : Fetched CapInfo) (_ : PUnit)
    (cell : Option VmInfo) : Program PUnit :=
  inItem .inst "vm_cap_output" do
    let v ← readCell cell
    emitAll (vmRowHead env v)
    let read ← readCells caps.cells
    emitAll (countFields "%5d" " " (vmCounts read v) caps.ret)
    emitAll (vmRowTail env v)

/-- `vm_caps_view`, from the index globals it meets to those it leaves. -/
def printVmCapsView (env : ViewEnv) (name : Text) (present : Table → Bool)
    (db : Db) (index : Indexes) : Program Indexes := do
  let vm ← fetchAsserted
    (getAllVmInfo (env.snapshot present db .vm) index.vm)
  let caps ← fetchAsserted
    (getAllCapInfo (env.snapshot present db .capInfo) index.cap)
  emitAll (banner name ++ [vmTitles env])
  inItem .list "vm_cap_output"
    (Run.loop (printVmRow env caps.1) ⟨⟩ vm.1.cells)
  pure { index with vm := vm.2, cap := caps.2 }

/-! ### `comp_caps_view` -/

def compTitles : XoCall :=
  .emit (xoTitle "\n%6s %44s %9s %44s %10s %5s %5s %5s %8s %8s")
    (titles ["COMP_ID", "CAPLOC_COMP_NAME", "COMP_ID", "CAPADDR_COMP_NAME",
      "ro", "rw", "rx", "rwx", "TOTAL", "DENSITY"])

def compRowHead (r : CompInfo) : List XoCall :=
  [xoInt "src_compart_id" "%6d" "" r.compartId,
    xoStr "src_compart_name" "%45s" "" r.compartName,
    xoInt "dest_compart_id" "%10d" "" r.compartId,
    xoStr "dest_compart_name" "%45s" "" r.compartName]

def printCompRow (caps : Fetched CapInfo) (_ : PUnit)
    (cell : Option CompInfo) : Program PUnit :=
  inItem .inst "comp_cap_output" do
    let r ← readCell cell
    emitAll (compRowHead r)
    let read ← readCells caps.cells
    emitAll (countFields "%11d" "\n" (compCounts read r) caps.ret)

def printCompCapsView (env : ViewEnv) (name : Text)
    (present : Table → Bool) (db : Db) (index : Indexes) :
    Program Indexes := do
  let comps ← fetchAsserted
    (getAllCompInfo (env.snapshot present db .comparts) index.comp)
  let caps ← fetchAsserted
    (getAllCapInfo (env.snapshot present db .capInfo) index.cap)
  emitAll (banner name ++ [compTitles])
  inItem .list "comp_cap_output"
    (Run.loop (printCompRow caps.1) ⟨⟩ comps.1.cells)
  pure { index with comp := comps.2, cap := caps.2 }

/-! ### `caps_syms_view` -/

/-- The lines around the number of capabilities. -/
def symsBanner (name : Text) (count : Int) : List XoCall :=
  List.replicate (name.length + 30) (.emit (xoField "top_dash" "-" "") []) ++
    .emit (xoField "total_caps" "\n%s - total number of caps: %d\n" "")
      [.str (some name), .int count] ::
    List.replicate (name.length + 30)
      (.emit (xoField "bottom_dash" "-" "") [])

def symsTitles : XoCall :=
  .emit (xoTitle "\n%12s %43-s %45-s %s")
    (titles ["CAP_LOC", " CAP_LOC_SYM (TYPE)", "CAP_INFO",
      "CAP_SYM (TYPE)"])

/-- The loop over the symbols up to the first one at the address. -/
def findSym (addr : Text) : List (Option SymInfo) → Program (Option SymInfo)
  | [] => pure none
  | none :: _ => Run.stop .crash
  | some s :: rest =>
      if addr = s.addr then pure (some s) else findSym addr rest

/-- The text for an address.  The loop up to a count of `-1` does not end at
the count, and forms no text. -/
def formattedSym (syms : Fetched SymInfo) (addr : Text) :
    Program (Option Text) := do
  let found ← findSym addr syms.cells
  pure (if found = none ∧ syms.ret = -1 then none else some (symText found))

def printSymsRow (syms : Fetched SymInfo) (_ : PUnit)
    (cell : Option CapInfo) : Program PUnit :=
  inItem .inst "cap_sym_output" do
    let c ← readCell cell
    emitAll [xoStr "" "%12s" "" c.capLocAddr]
    let loc ← formattedSym syms c.capLocAddr
    emitAll [xoStr "" "  %43-s" "" loc,
      xoStr "capinfo" "% 45-s" "" (c.capAddr ++ "[".toList ++ c.perms ++
        ",-".toList ++ c.top ++ "]".toList)]
    let target ← formattedSym syms c.capAddr
    emitAll [xoStr "" " %43-s" "\n" target]

/-- The queries of `get_cap_info_for_lib`, which come behind the look at its
table. -/
def queryLib (present : Table → Bool) (lib : Text) : Program PUnit :=
  if present .capInfo then Run.emit (.query lib) else pure ⟨⟩

/-- `caps_syms_view` does not look whether its selects have failed. -/
def printCapsSymsView (env : ViewEnv) (name : Text)
    (present : Table → Bool) (db : Db) (lib : Text) (index : Indexes) :
    Program Indexes := do
  queryLib present lib
  let caps ← fetching (fetchCapInfoForLib env.other env.unset
    (env.snapshot present db .capInfo) index.cap lib)
  let syms ← fetching
    (getAllSymInfo (env.snapshot present db .elfSym) index.sym)
  inItem .list "cap_sym_output" do
    emitAll (symsBanner name caps.1.ret ++ [symsTitles])
    Run.loop (printSymsRow syms.1) ⟨⟩ caps.1.cells
  pure { index with cap := caps.2, sym := syms.2 }

end Chericat
