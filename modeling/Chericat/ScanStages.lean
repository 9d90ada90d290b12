import Chericat.PageScan

/-!
What each stage of a scan writes.  A stage is known by the one table its
statements touch; the contents of a table after a scan then come from the
stages that write it, whatever the others do.
-/

namespace Chericat

inductive Table where
  | vm | capInfo | elfSym | comparts
deriving Repr, DecidableEq

/-- The table whose contents a statement changes. -/
def Statement.writes : Statement → Option Table
  | .createTable _ => none
  | .insertVm _ => some .vm
  | .insertCapInfo _ => some .capInfo
  | .insertElfSym _ => some .elfSym
  | .replaceDefault _ => some .comparts
  | .replaceSubcompart _ => some .comparts
  | .updateCompartName _ _ => some .comparts
  | .updateVm _ => some .vm
  | .indeterminate _ _ => none

/-! ### One table at a time -/

def Statement.capRows : Statement → List CapInfo
  | .insertCapInfo b => b.rows
  | _ => []

def Statement.symRows : Statement → List SymInfo
  | .insertElfSym b => b.rows
  | _ => []

def Statement.runVm : List VmInfo → Statement → List VmInfo
  | vm, .insertVm b => vm ++ b.rows.map VmEntry.inserted
  | vm, .updateVm u => vm.map u.apply
  | vm, _ => vm

def Statement.runComparts : Comparts → Statement → Comparts
  | cs, .replaceDefault c => cs.replace c.row
  | cs, .replaceSubcompart c => cs.replace c.row
  | cs, .updateCompartName name id => cs.updateName (some name) id
  | cs, _ => cs

/-- The statements act on the four tables independently. -/
theorem runAll_eq (ss : List Statement) (db : Db) :
    runAll ss db =
      { vm := ss.foldl Statement.runVm db.vm
        capInfo := db.capInfo ++ ss.flatMap Statement.capRows
        elfSym := db.elfSym ++ ss.flatMap Statement.symRows
        comparts := ss.foldl Statement.runComparts db.comparts } := by
  induction ss generalizing db with
  | nil => simp
  | cons s ss ih =>
      rw [runAll_cons, ih]
      cases s <;> simp [Statement.run, Statement.capRows, Statement.symRows,
        Statement.runVm, Statement.runComparts]

theorem Statement.capRows_eq_nil {s : Statement}
    (h : s.writes ≠ some .capInfo) : s.capRows = [] := by
  cases s <;> simp_all [writes, capRows]

theorem Statement.symRows_eq_nil {s : Statement}
    (h : s.writes ≠ some .elfSym) : s.symRows = [] := by
  cases s <;> simp_all [writes, symRows]

theorem Statement.runVm_eq_self {s : Statement} (h : s.writes ≠ some .vm)
    (vm : List VmInfo) : s.runVm vm = vm := by
  cases s <;> simp_all [writes, runVm]

theorem Statement.runComparts_eq_self {s : Statement}
    (h : s.writes ≠ some .comparts) (cs : Comparts) :
    s.runComparts cs = cs := by
  cases s <;> simp_all [writes, runComparts]

/-- The statements leave a table alone. -/
def Spare (tb : Table) (ss : List Statement) : Prop :=
  ∀ s ∈ ss, s.writes ≠ some tb

theorem Spare.capRows {ss : List Statement} (h : Spare .capInfo ss) :
    ss.flatMap Statement.capRows = [] :=
  List.flatMap_eq_nil_iff.mpr fun s hs => Statement.capRows_eq_nil (h s hs)

theorem Spare.symRows {ss : List Statement} (h : Spare .elfSym ss) :
    ss.flatMap Statement.symRows = [] :=
  List.flatMap_eq_nil_iff.mpr fun s hs => Statement.symRows_eq_nil (h s hs)

theorem Spare.runVm {ss : List Statement} (h : Spare .vm ss)
    (vm : List VmInfo) : ss.foldl Statement.runVm vm = vm := by
  induction ss with
  | nil => rfl
  | cons s ss ih =>
      rw [List.foldl_cons,
        Statement.runVm_eq_self (h s List.mem_cons_self)]
      exact ih fun s hs => h s (List.mem_cons_of_mem _ hs)

theorem Spare.runComparts {ss : List Statement} (h : Spare .comparts ss)
    (cs : Comparts) : ss.foldl Statement.runComparts cs = cs := by
  induction ss with
  | nil => rfl
  | cons s ss ih =>
      rw [List.foldl_cons,
        Statement.runComparts_eq_self (h s List.mem_cons_self)]
      exact ih fun s hs => h s (List.mem_cons_of_mem _ hs)

/-! ### Actions -/

/-- An action that writes no table but `tb`. -/
def Event.WritesOnly (tb : Table) : Event → Prop
  | .exec s => s.writes = none ∨ s.writes = some tb
  | _ => True

/-- A statement that writes no table but `tb`, or, where `reads` allows it, a
request to the target; never an attach or a detach. -/
def Event.Within (reads : Bool) (tb : Table) : Event → Prop
  | .exec s => s.writes = none ∨ s.writes = some tb
  | .io _ => reads = true
  | .attach => False
  | .detach => False

/-- An action that leaves the table `tb` alone. -/
def Event.Spares (tb : Table) : Event → Prop
  | .exec s => s.writes ≠ some tb
  | _ => True

theorem Event.Within.writesOnly {reads : Bool} {tb : Table} {e : Event}
    (h : e.Within reads tb) : e.WritesOnly tb := by
  cases e with
  | exec s => exact h
  | _ => trivial

theorem Event.WritesOnly.spares {tb other : Table} {e : Event}
    (h : e.WritesOnly tb) (hne : tb ≠ other) : e.Spares other := by
  cases e with
  | exec s =>
      rcases h with hnone | htb
      · simp [Event.Spares, hnone]
      · simpa [Event.Spares, htb] using hne
  | _ => trivial

theorem mem_statements {tr : List Event} {s : Statement} :
    s ∈ statements tr ↔ .exec s ∈ tr := by
  simp only [statements, List.mem_filterMap]
  constructor
  · rintro ⟨e, he, hs⟩
    cases e <;> simp at hs
    subst hs
    exact he
  · intro hs
    exact ⟨.exec s, hs, rfl⟩

/-- A run whose actions all leave the table alone. -/
theorem spare_statements {α : Type} {m : Scan α} {tb : Table}
    (h : Run.Emits (Event.Spares tb) m) : Spare tb (statements m.trace) :=
  fun s hs => h (.exec s) (mem_statements.mp hs)

theorem spares_of_writes {α : Type} {m : Scan α} {tb other : Table}
    (h : Run.Emits (Event.WritesOnly tb) m) (hne : tb ≠ other) :
    Run.Emits (Event.Spares other) m :=
  fun e he => (h e he).spares hne

section Within

variable {reads : Bool} {tb : Table}

theorem within_sqlQueryExec {s : Statement}
    (h : s.writes = none ∨ s.writes = some tb) :
    Run.Emits (Event.Within reads tb) (sqlQueryExec s) :=
  Run.emits_emit h

theorem within_piodRead {α : Type} (addr : ULong) (r : ReadResult α) :
    Run.Emits (Event.Within true tb) (piodRead addr r) :=
  emits_piodRead rfl

theorem within_getString (t : Target) (addr : ULong) :
    Run.Emits (Event.Within true tb) (getString t addr) :=
  emits_getString fun _ => rfl

theorem within_getFilenameFromPath (path : Option Text) :
    Run.Emits (Event.Within reads tb) (getFilenameFromPath path) := by
  cases path
  · exact Run.emits_stop _
  · exact Run.emits_pure _

theorem within_assertNonzero (p : ULong) :
    Run.Emits (Event.Within reads tb) (assertNonzero p) := by
  rw [assertNonzero]
  split
  · exact Run.emits_pure _
  · exact Run.emits_stop _

theorem within_createTables :
    Run.Emits (Event.Within reads tb) createTables :=
  (within_sqlQueryExec (Or.inl rfl)).bind fun _ =>
    (within_sqlQueryExec (Or.inl rfl)).bind fun _ =>
      within_sqlQueryExec (Or.inl rfl)

end Within

/-! ### The windows -/

theorem writes_window {α : Type} {m : Scan α} {tb : Table}
    (h : Run.Emits (Event.Within true tb) m) :
    Run.Emits (Event.WritesOnly tb)
      (WindowMark.window .attach .detach m) :=
  (Run.emits_emit trivial).bind fun _ =>
    Run.Emits.bind (fun e he => (h e he).writesOnly) fun _ =>
      (Run.emits_emit trivial).bind fun _ => Run.emits_pure _

/-- What `get_r_debug` does inside of its window. -/
def searchRDebug (t : Target) (phdr : ULong) (phnum : CInt) : Scan RDebug := do
  let phdrs ← piodRead phdr (t.readPhdrs phdr phnum)
  let dyn := findDynamic t phnum phdrs
  assertNonzero dyn.1
  let dynAddr := dyn.1 + (phdr - t.sizeofEhdr)
  let dyns ← piodRead dynAddr (t.readDyns dynAddr dyn.2)
  let remoteDebug := findDebug t dyn.2 dyns
  assertNonzero remoteDebug
  piodRead remoteDebug (t.readRDebug remoteDebug)

theorem getRDebug_eq (t : Target) :
    getRDebug t =
      match t.auxv with
      | none => Run.stop .errx
      | some auxv =>
          let aux := auxv.foldl auxStep t.auxLocals
          if aux.2.1.signExtend 64 ≠ t.sizeofPhdr then Run.stop .assertion
          else WindowMark.window .attach .detach
            (searchRDebug t aux.1 aux.2.2) := by
  rw [getRDebug]
  cases t.auxv with
  | none => rfl
  | some auxv =>
      simp only [WindowMark.window, searchRDebug, bind_assoc]
      rfl

theorem scanRtldLinkmap_eq (t : Target) (debug : RDebug) :
    scanRtldLinkmap t debug = WindowMark.window .attach .detach
      (Run.loop (objectStep t) [] debug.rMap) := rfl

theorem scanRComparts_eq (t : Target) (debug : RDebug) :
    scanRComparts t debug = WindowMark.window .attach .detach
      (Run.loop (compartStep t) [] debug.rComparts.zipIdx) := rfl

theorem scanBlock_eq (t : Target) (i : Nat) (kivp : KinfoVmentry)
    (path : Text) :
    scanBlock t i kivp path = WindowMark.window .attach .detach
      (scanPages t (t.memory i) kivp path) := by
  rw [scanBlock, WindowMark.window]
  rfl

theorem within_searchRDebug {tb : Table} (t : Target) (phdr : ULong)
    (phnum : CInt) :
    Run.Emits (Event.Within true tb) (searchRDebug t phdr phnum) :=
  (within_piodRead _ _).bind fun _ =>
    (within_assertNonzero _).bind fun _ =>
    (within_piodRead _ _).bind fun _ =>
    (within_assertNonzero _).bind fun _ =>
    within_piodRead _ _

theorem within_objectStep (t : Target) (head : List CompartData)
    (obj : Remote ObjEntry) :
    Run.Emits (Event.Within true .comparts) (objectStep t head obj) :=
  (within_piodRead _ _).bind fun _ =>
    (within_getString t _).bind fun _ =>
    (within_getFilenameFromPath _).bind fun _ =>
    (within_sqlQueryExec (Or.inr rfl)).bind fun _ =>
    (Run.Emits.loop (fun _ _ =>
      (within_piodRead _ _).bind fun _ =>
      (within_getString t _).bind fun _ =>
      (within_getFilenameFromPath _).bind fun _ =>
      within_sqlQueryExec (Or.inr rfl)) _ _).bind fun _ =>
    Run.emits_pure _

theorem within_compartStep (t : Target) (names : List (Option Text))
    (entry : Remote ULong × Nat) :
    Run.Emits (Event.Within true .comparts) (compartStep t names entry) := by
  refine (within_piodRead _ _).bind fun _ =>
    (within_getString t _).bind fun name => ?_
  cases name
  · exact Run.emits_pure _
  · exact (within_sqlQueryExec (Or.inr rfl)).bind fun _ => Run.emits_pure _

theorem within_getTags (t : Target) (m : Memory) (start : ULong)
    (path : Text) :
    Run.Emits (Event.Within true .capInfo) (getTags t m start path) := by
  rw [getTags_eq]
  intro e he
  simp only [List.mem_append, List.mem_cons, List.mem_map] at he
  rcases he with (rfl | ⟨a, _, rfl⟩) | ⟨s, hs, rfl⟩
  · exact rfl
  · exact rfl
  · rw [captureStatements] at hs
    split at hs
    · cases List.mem_singleton.mp hs
      exact Or.inr rfl
    · cases hs

theorem within_pageLoop (t : Target) (m : Memory) (path : Text) (turns : Nat)
    (start stop : ULong) :
    Run.Emits (Event.Within true .capInfo)
      (pageLoop t m path turns start stop) := by
  induction turns generalizing start with
  | zero =>
      rw [pageLoop]
      split
      · exact Run.emits_stop _
      · exact Run.emits_pure _
  | succ turns ih =>
      rw [pageLoop]
      split
      · exact (within_getTags t m start path).bind fun _ => ih _
      · exact Run.emits_pure _

theorem within_scanPages (t : Target) (m : Memory) (kivp : KinfoVmentry)
    (path : Text) :
    Run.Emits (Event.Within true .capInfo) (scanPages t m kivp path) := by
  rw [scanPages]
  split
  · exact within_pageLoop t m path _ _ _
  · exact Run.emits_pure _

/-! ### The symbols of a file -/

section Symbols

variable {reads : Bool}

theorem within_send {tb : Table} (hdr : Text) (pending : Unset) :
    Run.Emits (Event.Within reads tb) (pending.send hdr) := by
  cases pending with
  | null => exact Run.emits_pure _
  | text values owned => exact within_sqlQueryExec (Or.inl rfl)
  | stray => exact Run.emits_stop _

theorem within_free {tb : Table} (pending : Unset) :
    Run.Emits (Event.Within reads tb) pending.free := by
  rcases pending with - | ⟨values, - | -⟩ | -
  · exact Run.emits_pure _
  · exact Run.emits_stop _
  · exact Run.emits_pure _
  · exact Run.emits_pure _

theorem within_sendSymbols (pending : Unset) (values : SymValues) :
    Run.Emits (Event.Within reads .elfSym) (sendSymbols pending values) := by
  cases values with
  | indeterminate => exact within_send elfSymHdr pending
  | rows vs =>
      rw [sendSymbols]
      split
      · exact within_sqlQueryExec (Or.inr rfl)
      · exact Run.emits_pure _

theorem within_finishSymbols (pending : Unset) (values : SymValues) :
    Run.Emits (Event.Within reads .elfSym) (finishSymbols pending values) := by
  refine (within_sendSymbols pending values).bind fun _ => ?_
  cases values with
  | indeterminate => exact within_free pending
  | rows vs => exact Run.emits_pure _

theorem within_symStep (file : ElfFile) (source : Text) (base : ULong)
    (s : SymState) (entry : ElfSymbol × Nat) :
    Run.Emits (Event.Within reads .elfSym)
      (symStep file source base s entry) := by
  rw [symStep]
  split
  · exact Run.emits_pure _
  · dsimp only
    split
    · exact (within_sendSymbols _ _).bind fun _ => Run.emits_pure _
    · exact Run.emits_pure _

theorem within_sectionLoop (file : ElfFile) (source : Text) (base : ULong)
    (st : ElfState) (sections : List ElfSection) :
    Run.Emits (Event.Within reads .elfSym)
      (sectionLoop file source base st sections) := by
  induction sections generalizing st with
  | nil => exact Run.emits_pure _
  | cons sec rest ih =>
      rw [sectionLoop]
      split
      · exact Run.emits_stop _
      · have hsymbols : Run.Emits (Event.Within reads .elfSym)
            (sectionSymbols file source base sec st.syms) := by
          rw [sectionSymbols]
          split
          · exact Run.emits_pure _
          · split
            · exact Run.emits_stop _
            · exact Run.Emits.loop (within_symStep file source base) _ _
        refine hsymbols.bind fun syms => ?_
        dsimp only
        split
        · exact Run.emits_pure _
        · exact ih _

theorem within_getElfInfo (file : ElfFile) (source : Text) (base : ULong) :
    Run.Emits (Event.Within reads .elfSym) (getElfInfo file source base) := by
  refine (within_sqlQueryExec (Or.inl rfl)).bind fun _ => ?_
  split
  · exact Run.emits_pure _
  · split
    · exact Run.emits_pure _
    · exact (within_sectionLoop file source base _ _).bind fun _ =>
        (within_finishSymbols _ _).bind fun _ => Run.emits_pure _

/-- Parsing a block's file sends statements about `elf_sym` only. -/
theorem within_parseFile (t : Target) (st : ScanState) (kivp : KinfoVmentry) :
    Run.Emits (Event.Within reads .elfSym) (parseFile t st kivp) := by
  rw [parseFile]
  split
  · exact Run.emits_pure _
  · split
    · exact Run.emits_pure _
    · refine Run.Emits.bind ?_ fun _ =>
        (within_getElfInfo _ _ _).bind fun _ => Run.emits_pure _
      rw [readElf]
      split
      · exact Run.emits_pure _
      · exact Run.emits_stop _

theorem within_insertVmEntries (t : Target) (values : List VmEntry) :
    Run.Emits (Event.Within reads .vm) (insertVmEntries t values) := by
  rw [insertVmEntries]
  split
  · exact within_sqlQueryExec (Or.inr rfl)
  · exact (within_send vmHdr _).bind fun _ => within_free _

end Symbols

/-! ### The tables the stages write -/

/-- The search for `r_debug` writes nothing. -/
theorem writes_getRDebug {tb : Table} (t : Target) :
    Run.Emits (Event.WritesOnly tb) (getRDebug t) := by
  rw [getRDebug_eq]
  cases t.auxv with
  | none => exact Run.emits_stop _
  | some auxv =>
      dsimp only
      split
      · exact Run.emits_stop _
      · exact writes_window (within_searchRDebug t _ _)

theorem writes_scanRtldLinkmap (t : Target) (debug : RDebug) :
    Run.Emits (Event.WritesOnly .comparts) (scanRtldLinkmap t debug) :=
  writes_window (Run.Emits.loop (within_objectStep t) _ _)

theorem writes_scanRComparts (t : Target) (debug : RDebug) :
    Run.Emits (Event.WritesOnly .comparts) (scanRComparts t debug) :=
  writes_window (Run.Emits.loop (within_compartStep t) _ _)

theorem writes_scanBlock (t : Target) (i : Nat) (kivp : KinfoVmentry)
    (path : Text) :
    Run.Emits (Event.WritesOnly .capInfo) (scanBlock t i kivp path) := by
  rw [scanBlock_eq]
  exact writes_window (within_scanPages t _ kivp path)

theorem writes_parseFile (t : Target) (st : ScanState) (kivp : KinfoVmentry) :
    Run.Emits (Event.WritesOnly .elfSym) (parseFile t st kivp) :=
  fun e he => (@within_parseFile false t st kivp e he).writesOnly

theorem writes_insertVmEntries (t : Target) (values : List VmEntry) :
    Run.Emits (Event.WritesOnly .vm) (insertVmEntries t values) :=
  fun e he => (@within_insertVmEntries false t values e he).writesOnly

theorem writes_createTables {tb : Table} :
    Run.Emits (Event.WritesOnly tb) createTables :=
  fun e he => (@within_createTables false tb e he).writesOnly

/-- The block loop writes `elf_sym` and `cap_info`. -/
theorem spares_scanEntry (t : Target) (comparts : List CompartData)
    (st : ScanState) (entry : KinfoVmentry × Nat) {tb : Table}
    (hsym : .elfSym ≠ tb) (hcap : .capInfo ≠ tb) :
    Run.Emits (Event.Spares tb) (scanEntry t comparts st entry) :=
  (spares_of_writes (writes_parseFile t st entry.1) hsym).bind fun _ =>
    (spares_of_writes (writes_scanBlock t entry.2 entry.1 _) hcap).bind fun _ =>
      Run.emits_pure _

end Chericat
