import Chericat.Database
import Chericat.ProgramRun

/-!
The process under scan as the program sees it: what `procstat`, `ptrace` and
`libelf` answer.  A target is data, so that a theorem about every target is a
theorem about every map, every memory and every pattern of failed requests.
-/

namespace Chericat

/-- `int`. -/
abbrev CInt := BitVec 32

/-- One entry of the VM map, with the fields the scan reads. -/
structure KinfoVmentry where
  kveStart : ULong
  kveEnd : ULong
  kvePath : Text
  kveReservation : ULong
  kveProtection : CInt
  kveFlags : CInt
  kveType : CInt
deriving Repr, DecidableEq

/-- The constants of `sys/user.h` that decide a branch of the scan. -/
structure KvmeConstants where
  flagHascap : CInt
  flagGrowsDown : CInt
  typeGuard : CInt
deriving Repr, DecidableEq

/-- A capability, with the fields `strfcap` prints. -/
structure Capability where
  address : ULong
  perms : Text
  base : ULong
  top : ULong
  attributes : Option Text
deriving Repr, DecidableEq

/-- A `PIOD_READ_CHERI_CAP` request: whether it succeeded, and what the local
buffer holds afterwards in either case. -/
structure CapRead where
  succeeded : Bool
  copy : Capability
deriving Repr, DecidableEq

/-- The 32 bytes of a page's tag bitmap, one bit for each 16-byte granule. -/
abbrev TagBuf := Vector (BitVec 8) 32

/-- The bitmap with the given first byte and no other tags. -/
def TagBuf.ofFirst (byte : BitVec 8) : TagBuf :=
  (Vector.replicate 32 0).set 0 byte

/-- What `ptrace` answers about the capabilities of the target while it is
stopped; `none` is a failed `PIOD_READ_CHERI_TAGS`. -/
structure Memory where
  tags : ULong → Option TagBuf
  cap : ULong → CapRead

/-- A `piod_read`: the object read, or one of its two fatal failures. -/
inductive ReadResult (α : Type) where
  | ok (a : α)
  | failed
  | short
deriving Repr, DecidableEq

/-- A call of `get_string`: the requests it makes, and the string or
`NULL`. -/
structure StringRead where
  requests : List ULong
  result : Option Text
deriving Repr, DecidableEq

/-! ### Program headers, dynamic table and link map -/

inductive AuxType where
  | atPhdr | atPhent | atPhnum | other
deriving Repr, DecidableEq

structure Auxinfo where
  aType : AuxType
  aVal : ULong
deriving Repr, DecidableEq

structure ElfPhdr where
  isDynamic : Bool
  pVaddr : ULong
  pMemsz : ULong
deriving Repr, DecidableEq

structure ElfDyn where
  isDebug : Bool
  dPtr : ULong
deriving Repr, DecidableEq

structure CompartEntry where
  compartName : ULong
  compartId : Nat
  start : ULong
  stop : ULong
deriving Repr, DecidableEq

/-- A remote object of type `α` and the outcome of reading it. -/
structure Remote (α : Type) where
  addr : ULong
  read : ReadResult α
deriving Repr, DecidableEq

/-- A link-map object.  `defaultCompartId` is a `compart_id_t`, which is
unsigned. -/
structure ObjEntry where
  lName : ULong
  mapbase : ULong
  mapsize : ULong
  defaultCompartId : Nat
  comparts : List (Remote CompartEntry)
deriving Repr, DecidableEq

/-- What `r_debug` leads to: the objects in the order in which `r_map` and
`l_next` chain them, and the `r_comparts` array of name pointers. -/
structure RDebug where
  rMap : List (Remote ObjEntry)
  rComparts : List (Remote ULong)
deriving Repr, DecidableEq

/-! ### ELF files -/

/-- The fields of `special_sections` that are ever written. -/
structure SpecialSections where
  pltAddr : ULong
  pltSize : ULong
  gotAddr : ULong
  gotSize : ULong
  mmapPath : Option Text
deriving Repr, DecidableEq

/-- The record as `calloc` leaves it. -/
def SpecialSections.zero : SpecialSections := ⟨0, 0, 0, 0, none⟩

/-- One symbol; no name is a failed `elf_strptr`. -/
structure ElfSymbol where
  name : Option Text
  stValue : ULong
  stInfo : Nat
  stShndx : Nat
deriving Repr, DecidableEq

inductive SectionType where
  | dynsym | symtab | other
deriving Repr, DecidableEq

/-- One section; `locals` is what the uninitialised record of its loop
iteration holds. -/
structure ElfSection where
  name : Option Text
  shType : SectionType
  shAddr : ULong
  shSize : ULong
  symbols : Option (List ElfSymbol)
  locals : SpecialSections
deriving Repr, DecidableEq

/-- What a pointer to a text holds before it is assigned: `NULL`, the address of
a text, which `malloc` has returned or not, or an address that cannot be
read. -/
inductive Unset where
  | null
  | text (s : Text) (owned : Bool)
  | stray
deriving Repr, DecidableEq

/-- An ELF file.  `pending` is what the uninitialised list of symbol values
points at. -/
structure ElfFile where
  hasHeader : Bool
  eMachine : Nat
  eiOsabi : Nat
  hasSectionNames : Bool
  sections : List ElfSection
  pending : Unset
deriving Repr, DecidableEq

/-- Everything a scan asks of its environment.  `memory i` is the target's
memory during the window of the `i`-th block. -/
structure Target where
  kvme : KvmeConstants
  /-- Whether `char` is signed. -/
  charSigned : Bool
  procs : Option Nat
  vmmap : Option (List KinfoVmentry)
  auxv : Option (List Auxinfo)
  /-- What `phdr`, `phent` and `phnum` hold before any entry sets them. -/
  auxLocals : ULong × CInt × CInt
  sizeofPhdr : ULong
  sizeofEhdr : ULong
  /-- The two pointers `malloc` returns to `get_r_debug`. -/
  dynLocal : ULong
  debugLocal : ULong
  /-- The buffer after reading so many program headers, or so many bytes of
  the dynamic table, at an address. -/
  readPhdrs : ULong → CInt → ReadResult (List ElfPhdr)
  readDyns : ULong → CInt → ReadResult (List ElfDyn)
  readRDebug : ULong → ReadResult RDebug
  getString : ULong → StringRead
  elf : Text → Option ElfFile
  memory : Nat → Memory
  /-- Variables of `get_capability` that a short `sscanf` leaves unset. -/
  scanLocals : ULong × ULong
  /-- What lies before the first section record. -/
  beforeRecords : SpecialSections
  /-- What the uninitialised list of `vm` values points at. -/
  pendingVm : Unset

/-! ### Actions and stops -/

inductive Event where
  | attach
  | detach
  | io (remote : ULong)
  | exec (s : Statement)
deriving Repr, DecidableEq

/-- How the program ends other than by returning.  `endless` is a loop that
never ends. -/
inductive Stop where
  | errx
  | exit
  | assertion
  | crash
  | endless
deriving Repr, DecidableEq

abbrev Scan := Run Event Stop

def ptraceAttach : Scan PUnit := Run.emit .attach

def ptraceDetach : Scan PUnit := Run.emit .detach

/-- `sql_query_exec`; every caller in the scan ignores its result. -/
def sqlQueryExec (s : Statement) : Scan PUnit := Run.emit (.exec s)

/-- A value list is sent that was never assigned. -/
def Unset.send (hdr : Text) : Unset → Scan PUnit
  | .null => pure ⟨⟩
  | .text values _ => sqlQueryExec (.indeterminate hdr values)
  | .stray => Run.stop .crash

/-- `free` of such a list, unless it is `NULL`. -/
def Unset.free : Unset → Scan PUnit
  | .text _ false => Run.stop .crash
  | _ => pure ⟨⟩

/-- `piod_read`: one request, and the end of the program when it fails or is
short. -/
def piodRead {α : Type} (addr : ULong) (r : ReadResult α) : Scan α := do
  Run.emit (.io addr)
  match r with
  | .ok a => pure a
  | .failed => Run.stop .errx
  | .short => Run.stop .errx

/-- The request, and the object or the end of the program. -/
theorem piodRead_eq {α : Type} (addr : ULong) (r : ReadResult α) :
    piodRead addr r = ⟨[.io addr],
      match r with
      | .ok a => .ok a
      | _ => .error .errx⟩ := by
  cases r <;> rfl

theorem piodRead_ok {α : Type} {addr : ULong} {r : ReadResult α} {a : α}
    (h : (piodRead addr r).outcome = .ok a) : r = .ok a := by
  rw [piodRead_eq] at h
  cases r with
  | ok b =>
      cases h
      rfl
  | failed => cases h
  | short => cases h

/-- `get_string`, as requests and a result. -/
def getString (t : Target) (addr : ULong) : Scan (Option Text) :=
  ⟨(t.getString addr).requests.map .io, .ok (t.getString addr).result⟩

/-- The statements of a trace, in order. -/
def statements (trace : List Event) : List Statement :=
  trace.filterMap fun
    | .exec s => some s
    | _ => none

@[simp] theorem statements_append (tr us : List Event) :
    statements (tr ++ us) = statements tr ++ statements us := by
  simp [statements]

@[simp] theorem statements_nil : statements [] = [] := rfl

@[simp] theorem statements_attach (tr : List Event) :
    statements (.attach :: tr) = statements tr := rfl

@[simp] theorem statements_detach (tr : List Event) :
    statements (.detach :: tr) = statements tr := rfl

@[simp] theorem statements_io (a : ULong) (tr : List Event) :
    statements (.io a :: tr) = statements tr := rfl

@[simp] theorem statements_exec (s : Statement) (tr : List Event) :
    statements (.exec s :: tr) = s :: statements tr := rfl

@[simp] theorem statements_map_io (as : List ULong) :
    statements (as.map .io) = [] := by
  simp [statements, List.filterMap_map]

@[simp] theorem statements_map_exec (ss : List Statement) :
    statements (ss.map .exec) = ss := by
  simp [statements, List.filterMap_map]

/-! Reads, and what comes behind those that succeed. -/

section Reads

variable {α β : Type} {addr : ULong} {r : ReadResult α} {a : α} {t : Target}
  {str : Option Text} {P : Event → Prop}

theorem emits_piodRead (h : P (.io addr)) : Run.Emits P (piodRead addr r) := by
  rw [piodRead_eq]
  intro e he
  cases List.mem_singleton.mp he
  exact h

theorem emits_getString (h : ∀ a, P (.io a)) :
    Run.Emits P (getString t addr) := by
  intro e he
  obtain ⟨a, _, rfl⟩ := List.mem_map.mp he
  exact h a

theorem outcome_piodRead_bind (h : r = .ok a) (f : α → Scan β) :
    (piodRead addr r >>= f).outcome = (f a).outcome := by
  have hread : (piodRead addr r).outcome = .ok a := by rw [piodRead_eq, h]
  exact Run.outcome_bind_ok hread f

theorem statements_piodRead_bind (h : r = .ok a) (f : α → Scan β) :
    statements (piodRead addr r >>= f).trace = statements (f a).trace := by
  have hread : (piodRead addr r).outcome = .ok a := by rw [piodRead_eq, h]
  rw [Run.trace_bind_ok hread, statements_append, piodRead_eq]
  rfl

theorem outcome_getString_bind (h : (t.getString addr).result = str)
    (f : Option Text → Scan β) :
    (getString t addr >>= f).outcome = (f str).outcome := by
  have hread : (getString t addr).outcome = .ok str := by rw [getString, h]
  exact Run.outcome_bind_ok hread f

theorem statements_getString_bind (h : (t.getString addr).result = str)
    (f : Option Text → Scan β) :
    statements (getString t addr >>= f).trace = statements (f str).trace := by
  have hread : (getString t addr).outcome = .ok str := by rw [getString, h]
  rw [Run.trace_bind_ok hread, statements_append, getString,
    statements_map_io, List.nil_append]

end Reads

/-! ### A small process -/

/-- A process without libraries and without files behind its blocks, all of
whose requests succeed. -/
def Target.sample (map : List KinfoVmentry) (memory : Nat → Memory) :
    Target where
  kvme := ⟨0x40000000, 0x20, 9⟩
  charSigned := false
  procs := some 1
  vmmap := some map
  auxv := some [⟨.atPhdr, 0x100040⟩, ⟨.atPhent, 56⟩, ⟨.atPhnum, 1⟩]
  auxLocals := (0, 0, 0)
  sizeofPhdr := 56
  sizeofEhdr := 64
  dynLocal := 0
  debugLocal := 0
  readPhdrs _ _ := .ok [⟨true, 0x3000, 16⟩]
  readDyns _ _ := .ok [⟨true, 0x7000⟩]
  readRDebug _ := .ok ⟨[], []⟩
  getString _ := ⟨[], none⟩
  elf _ := none
  memory := memory
  scanLocals := (0, 0)
  beforeRecords := .zero
  pendingVm := .null

/-- An anonymous block of such a process that may hold capabilities. -/
def KinfoVmentry.sample (start stop : ULong) : KinfoVmentry where
  kveStart := start
  kveEnd := stop
  kvePath := []
  kveReservation := start
  kveProtection := 3
  kveFlags := 0x40000000
  kveType := 1

end Chericat
