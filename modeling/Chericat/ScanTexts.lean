import Chericat.CapText
import Chericat.PlainStatements
import Chericat.ScanFailure
import Chericat.SymbolBatches

/-!
The texts of a scan.  Where no path and no name holds a double quote, what
SQLite reads in the texts that a scan hands to it is what its statements are
meant to do.
-/

namespace Chericat

open Numeral SqlText

/-- The address of a name that the scan reads: of an object of the link map, of
one of its sub-compartments, or of an element of the compartment array. -/
inductive RDebug.NameAt (debug : RDebug) : ULong → Prop where
  | object {obj : Remote ObjEntry} {entry : ObjEntry}
      (hobj : obj ∈ debug.rMap) (hread : obj.read = .ok entry) :
      NameAt debug entry.lName
  | sub {obj : Remote ObjEntry} {entry : ObjEntry} {sub : Remote CompartEntry}
      {subEntry : CompartEntry} (hobj : obj ∈ debug.rMap)
      (hread : obj.read = .ok entry) (hsub : sub ∈ entry.comparts)
      (hsubRead : sub.read = .ok subEntry) : NameAt debug subEntry.compartName
  | element {entry : Remote ULong} {name : ULong}
      (hentry : entry ∈ debug.rComparts) (hread : entry.read = .ok name) :
      NameAt debug name

/-- The file name of the string at this address, if it can be read, holds no
quote. -/
def Target.PlainName (t : Target) (a : ULong) : Prop :=
  ∀ s, (t.getString a).result = some s → QuoteFree (fileName s)

/-- The names of the symbols hold no quotes, and the list that is sent has been
assigned. -/
structure ElfFile.Clean (file : ElfFile) : Prop where
  symbols : ∀ named ∈ namedSymbols file.sections, QuoteFree named.2
  list : ∀ values owned, file.pending = .text values owned →
    namedSymbols file.sectionsRead ≠ []

/-- No mapped path holds a double quote, nor does a file name of the link map or
of the compartment array, a symbol name of a mapped file or a permission text;
no path is the name of a column of `vm`, and no list is sent that was never
assigned. -/
structure Target.Clean (t : Target) : Prop where
  paths : ∀ map, t.vmmap = some map → ∀ kivp ∈ map,
    QuoteFree kivp.kvePath ∧ lower kivp.kvePath ∉ vmNames
  names : ∀ debug, (getRDebug t).outcome = .ok debug →
    ∀ a, debug.NameAt a → t.PlainName a
  files : ∀ map, t.vmmap = some map → ∀ kivp ∈ map,
    ∀ file, t.elf kivp.kvePath = some file → file.Clean
  perms : ∀ i a, QuoteFree ((t.memory i).cap a).copy.perms
  vmList : ∀ values owned, t.pendingVm = .text values owned →
    t.vmmap ≠ some []

/-- No name of the compartment array is that of a column of `comparts`. -/
def Target.CleanArray (t : Target) : Prop :=
  ∀ debug, (getRDebug t).outcome = .ok debug → ∀ entry ∈ debug.rComparts,
    ∀ name s, entry.read = .ok name → (t.getString name).result = some s →
      lower (fileName s) ∉ compartsNames

/-- A statement of an action is plain, and where `k` holds the name it gives to
a compartment is not that of a column. -/
def Event.Plain (k : Prop) : Event → Prop
  | .exec st => st.Plain ∧ (k → st.NamesNoColumn)
  | _ => True

variable {k : Prop} {t : Target}

theorem plain_window {α : Type} {m : Scan α} {R : α → Prop}
    (h : Run.Ensures (Event.Plain k) R m) :
    Run.Ensures (Event.Plain k) R (WindowMark.window .attach .detach m) := by
  refine (Run.emits_emit trivial).ensures.bind fun _ _ => h.bind fun a ha => ?_
  exact (Run.emits_emit trivial).ensures.bind fun _ _ => Run.ensures_pure ha

/-! ### What comes before the block loop -/

theorem plain_create {ddl : Text} (h : IsCreate ddl) :
    Run.Emits (Event.Plain k) (sqlQueryExec (.createTable ddl)) :=
  Run.emits_emit ⟨h, fun _ => trivial⟩

theorem plain_createTables : Run.Emits (Event.Plain k) createTables :=
  (plain_create creates_capInfo).bind fun _ =>
    (plain_create creates_vm).bind fun _ => plain_create creates_comparts

theorem plain_piodRead {α : Type} (addr : ULong) (r : ReadResult α) :
    Run.Emits (Event.Plain k) (piodRead addr r) :=
  emits_piodRead trivial

theorem plain_getString (addr : ULong) :
    Run.Emits (Event.Plain k) (getString t addr) :=
  emits_getString fun _ => trivial

theorem plain_assertNonzero (p : ULong) :
    Run.Emits (Event.Plain k) (assertNonzero p) := by
  rw [assertNonzero]
  split
  · exact Run.emits_pure _
  · exact Run.emits_stop _

theorem plain_getRDebug : Run.Emits (Event.Plain k) (getRDebug t) := by
  rw [getRDebug_eq]
  cases t.auxv with
  | none => exact Run.emits_stop _
  | some auxv =>
      dsimp only
      split
      · exact Run.emits_stop _
      · exact (plain_window (Run.Emits.ensures
          ((plain_piodRead _ _).bind fun _ =>
            (plain_assertNonzero _).bind fun _ =>
            (plain_piodRead _ _).bind fun _ =>
            (plain_assertNonzero _).bind fun _ => plain_piodRead _ _))).emits

/-- The file name of a path that could be read holds no quote. -/
theorem ensures_getFilenameFromPath {addr : ULong} (hplain : t.PlainName addr)
    {path : Option Text} (h : (getString t addr).outcome = .ok path) :
    Run.Ensures (Event.Plain k) QuoteFree (getFilenameFromPath path) := by
  obtain rfl : (t.getString addr).result = path := Except.ok.inj h
  rcases hpath : (t.getString addr).result with - | p
  · exact Run.ensures_stop _
  · exact Run.ensures_pure (hplain p hpath)

theorem plain_subcompartStep (parent : Nat) (u : PUnit)
    {sub : Remote CompartEntry}
    (hname : ∀ entry, sub.read = .ok entry → t.PlainName entry.compartName) :
    Run.Ensures (Event.Plain k) (fun _ => True)
      (subcompartStep t parent u sub) := by
  refine (plain_piodRead _ _).ensures.bind fun entry hread =>
    (plain_getString _).ensures.bind fun path hpath =>
    (ensures_getFilenameFromPath (hname entry (piodRead_ok hread))
      hpath).bind fun name hfile => ?_
  exact ⟨Run.emits_emit ⟨hfile, fun _ => trivial⟩, fun _ _ => trivial⟩

theorem plain_objectStep {debug : RDebug}
    (hnames : ∀ a, debug.NameAt a → t.PlainName a) (head : List CompartData)
    {obj : Remote ObjEntry} (hobj : obj ∈ debug.rMap) :
    Run.Ensures (Event.Plain k) (fun _ => True) (objectStep t head obj) := by
  refine (plain_piodRead _ _).ensures.bind fun entry hread =>
    (plain_getString _).ensures.bind fun path hpath =>
    (ensures_getFilenameFromPath
      (hnames _ (.object hobj (piodRead_ok hread))) hpath).bind fun name hfile =>
    Run.Ensures.bind (Run.Emits.ensures (Run.emits_emit ?_)) fun _ _ => ?_
  · exact ⟨hfile, fun _ => trivial⟩
  exact (Run.Ensures.loop (I := fun _ => True) (fun sub hsub u _ =>
    plain_subcompartStep _ u fun e he =>
      hnames _ (.sub hobj (piodRead_ok hread) hsub he)) trivial).bind
    fun _ _ => Run.ensures_pure trivial

theorem plain_scanRtldLinkmap {debug : RDebug}
    (hnames : ∀ a, debug.NameAt a → t.PlainName a) :
    Run.Emits (Event.Plain k) (scanRtldLinkmap t debug) :=
  (plain_window (Run.Ensures.loop (I := fun _ => True) (fun _ hobj head _ =>
    plain_objectStep hnames head hobj) trivial)).emits

/-- A name of the array is put into its statement unless it cannot be read. -/
theorem plain_compartStep {names : List (Option Text)}
    {entry : Remote ULong × Nat}
    (hplain : ∀ name, entry.1.read = .ok name → t.PlainName name)
    (hcolumn : k → ∀ name s, entry.1.read = .ok name →
      (t.getString name).result = some s →
      lower (fileName s) ∉ compartsNames) :
    Run.Ensures (Event.Plain k) (fun _ => True)
      (compartStep t names entry) := by
  refine (plain_piodRead _ _).ensures.bind fun name hread =>
    (plain_getString _).ensures.bind fun fullName hfull => ?_
  obtain rfl : (t.getString name).result = fullName := Except.ok.inj hfull
  rcases hresult : (t.getString name).result with - | n
  · exact Run.ensures_pure trivial
  · refine Run.Ensures.bind (Run.Emits.ensures (Run.emits_emit ?_)) fun _ _ =>
      Run.ensures_pure trivial
    exact ⟨hplain name (piodRead_ok hread) n hresult, fun hk =>
      hcolumn hk name n (piodRead_ok hread) hresult⟩

theorem plain_scanRComparts {debug : RDebug}
    (hnames : ∀ a, debug.NameAt a → t.PlainName a)
    (hcolumn : k → ∀ entry ∈ debug.rComparts, ∀ name s,
      entry.read = .ok name → (t.getString name).result = some s →
      lower (fileName s) ∉ compartsNames) :
    Run.Emits (Event.Plain k) (scanRComparts t debug) := by
  refine (plain_window (Run.Ensures.loop (I := fun _ => True)
    (fun entry hentry names _ => plain_compartStep (fun name hread => ?_)
      fun hk => ?_) trivial)).emits
  · exact hnames name (.element (List.fst_mem_of_mem_zipIdx hentry) hread)
  · exact hcolumn hk entry.1 (List.fst_mem_of_mem_zipIdx hentry)

/-! ### Captured capabilities -/

theorem plain_getTags {m : Memory} {path : Text} (hpath : QuoteFree path)
    (hperms : ∀ a, QuoteFree (m.cap a).copy.perms) (start : ULong) :
    Run.Emits (Event.Plain k) (getTags t m start path) := by
  rw [getTags_eq]
  intro e he
  simp only [List.mem_append, List.mem_cons, List.mem_map] at he
  rcases he with (rfl | ⟨a, _, rfl⟩) | ⟨s, hs, rfl⟩
  · trivial
  · trivial
  · rw [captureStatements] at hs
    split at hs
    · cases List.mem_singleton.mp hs
      refine ⟨fun c hc => ?_, fun _ => trivial⟩
      obtain ⟨a, _, rfl⟩ := List.mem_map.1 hc
      exact rowClean_rowAt t hpath (hperms a)
    · cases hs

theorem plain_pageLoop {m : Memory} {path : Text} (hpath : QuoteFree path)
    (hperms : ∀ a, QuoteFree (m.cap a).copy.perms) (turns : Nat)
    (start stop : ULong) :
    Run.Emits (Event.Plain k) (pageLoop t m path turns start stop) := by
  induction turns generalizing start with
  | zero =>
      rw [pageLoop]
      split
      · exact Run.emits_stop _
      · exact Run.emits_pure _
  | succ turns ih =>
      rw [pageLoop]
      split
      · exact (plain_getTags hpath hperms start).bind fun _ => ih _
      · exact Run.emits_pure _

theorem plain_scanBlock (ht : t.Clean) {path : Text} (hpath : QuoteFree path)
    (i : Nat) (kivp : KinfoVmentry) :
    Run.Emits (Event.Plain k) (scanBlock t i kivp path) := by
  have hpages : Run.Emits (Event.Plain k)
      (scanPages t (t.memory i) kivp path) := by
    rw [scanPages]
    split
    · exact plain_pageLoop hpath (ht.perms i) _ _ _
    · exact Run.emits_pure _
  rw [scanBlock_eq]
  exact (plain_window hpages.ensures).emits

/-! ### The symbols of a file -/

/-- The values pending are clean. -/
def SymState.Clean (s : SymState) : Prop :=
  ∃ vs, s.Pends vs ∧ ∀ v ∈ vs, RowClean v.fields

/-- The names of the symbols in the tables of a section hold no quotes. -/
def ElfSection.NamesClean (sec : ElfSection) : Prop :=
  ∀ s ∈ sec.table, ∀ symname, s.name = some symname → QuoteFree symname

section File

variable {file : ElfFile} {source : Text} {sourceBase : ULong}

theorem plain_symStep (hsource : QuoteFree source) {entry : ElfSymbol × Nat}
    (hname : ∀ symname, entry.1.name = some symname → QuoteFree symname)
    {s : SymState} (hs : s.Clean) :
    Run.Ensures (Event.Plain k) SymState.Clean
      (symStep file source sourceBase s entry) := by
  obtain ⟨vs, hpends, hclean⟩ := hs
  rw [symStep]
  split
  · exact Run.ensures_pure ⟨vs, hpends, hclean⟩
  · next symname hsym =>
      let v := symRow file source sourceBase entry.1 symname
      have hpush : (s.push v).Pends (vs ++ [v]) := hpends.push v
      have hall : ∀ r ∈ vs ++ [v], RowClean r.fields := by
        rw [List.forall_mem_append, List.forall_mem_singleton]
        exact ⟨hclean, rowClean_symRow hsource (hname symname hsym)⟩
      dsimp only
      split
      · rw [hpush.values_eq (by simp), sendSymbols, dif_pos (by simp)]
        refine Run.Ensures.bind (Run.Emits.ensures (Run.emits_emit ?_))
          fun _ _ => Run.ensures_pure ⟨[], .rows [], List.forall_mem_nil _⟩
        exact ⟨hall, fun _ => trivial⟩
      · exact Run.ensures_pure ⟨_, hpush, hall⟩

theorem plain_sectionSymbols (hsource : QuoteFree source) {sec : ElfSection}
    (hsec : sec.NamesClean) {s : SymState} (hs : s.Clean) :
    Run.Ensures (Event.Plain k) SymState.Clean
      (sectionSymbols file source sourceBase sec s) := by
  rw [sectionSymbols]
  split
  · exact Run.ensures_pure hs
  · next hother =>
      split
      · exact Run.ensures_stop _
      · next symbols hsymbols =>
          have htable : sec.table = symbols := by
            rw [ElfSection.table, if_neg hother, hsymbols, Option.getD_some]
          refine Run.Ensures.loop (fun entry hentry s hs =>
            plain_symStep hsource ?_ hs) hs
          exact hsec entry.1 (htable ▸ List.fst_mem_of_mem_zipIdx hentry)

/-- The record of a file carries the path of the file, or none. -/
def SpecialSections.OfFile (source : Text) (r : SpecialSections) : Prop :=
  ∀ path, r.mmapPath = some path → path = source

theorem plain_sectionLoop (hsource : QuoteFree source)
    {secs : List ElfSection} (hsecs : ∀ sec ∈ secs, sec.NamesClean)
    {st : ElfState} (hst : st.record.OfFile source ∧ st.syms.Clean) :
    Run.Ensures (Event.Plain k)
      (fun st => st.record.OfFile source ∧ st.syms.Clean)
      (sectionLoop file source sourceBase st secs) := by
  induction secs generalizing st with
  | nil => exact Run.ensures_pure hst
  | cons sec rest ih =>
      rcases hname : sec.name with - | name
      · rw [sectionLoop, hname]
        exact Run.ensures_stop _
      · rw [sectionLoop_cons hname]
        refine (plain_sectionSymbols hsource (hsecs sec List.mem_cons_self)
          hst.2).bind fun syms hsyms => ?_
        have hrecord : (captureSection source sourceBase sec name).OfFile
            source := fun path hpath => (Option.some.inj hpath).symm
        dsimp only
        split
        · exact Run.ensures_pure ⟨hrecord, hsyms⟩
        · exact ih (fun s hs => hsecs s (List.mem_cons_of_mem sec hs))
            ⟨hrecord, hsyms⟩

/-- What is left at the end is clean, or nothing was assigned and nothing is
sent. -/
theorem plain_finishSymbols {s : SymState} (hs : s.Clean) {pending : Unset}
    (hunset : s.values = .indeterminate →
      ∀ values owned, pending ≠ .text values owned) :
    Run.Emits (Event.Plain k) (finishSymbols pending s.values) := by
  obtain ⟨vs, hpends, hclean⟩ := hs
  rcases hpends with _ | _
  · have hno := hunset rfl
    rcases pending with - | ⟨values, owned⟩ | -
    · exact (Run.emits_pure _).bind fun _ => Run.emits_pure _
    · exact absurd rfl (hno values owned)
    · exact (Run.emits_stop _).bind fun _ => Run.emits_pure _
  · refine Run.Emits.bind ?_ fun _ => Run.emits_pure _
    rw [sendSymbols]
    split
    · exact Run.emits_emit ⟨hclean, fun _ => trivial⟩
    · exact Run.emits_pure _

/-- The pointer is unset at the end of the section loop only where no symbol is
named. -/
theorem namedSymbols_of_unset {st : ElfState}
    (hloop : (sectionLoop file source sourceBase
      ⟨.zero, false, false, ⟨.indeterminate, 0⟩⟩ file.sections).outcome =
        .ok st) (hunset : st.syms.values = .indeterminate) :
    namedSymbols file.sectionsRead = [] := by
  have hread := readable_of_sectionLoop (List.forall_mem_nil _)
    (⟨rfl, rfl⟩ : ElfState.SeenIn ⟨.zero, false, false, ⟨.indeterminate, 0⟩⟩ [])
    hloop
  obtain ⟨st', hloop', _, _, _, hbatches⟩ :=
    sectionLoop_start source sourceBase hread
  cases hloop.symm.trans hloop'
  exact List.map_eq_nil_iff.1 (hbatches.unset.1 hunset)

theorem plain_getElfInfo (hsource : QuoteFree source) (hfile : file.Clean) :
    Run.Ensures (Event.Plain k) (SpecialSections.OfFile source)
      (getElfInfo file source sourceBase) := by
  have hzero : SpecialSections.zero.OfFile source := nofun
  refine (plain_create creates_elfSym).ensures.bind fun _ _ => ?_
  split
  · exact Run.ensures_pure hzero
  · split
    · exact Run.ensures_pure hzero
    · have hsecs : ∀ sec ∈ file.sections, sec.NamesClean :=
        fun sec hsec s hs symname hname => hfile.symbols (s, symname)
          (mem_namedSymbols.2 ⟨sec, hsec, hs, hname⟩)
      have hloop : Run.Ensures (Event.Plain k)
          (fun st => st.record.OfFile source ∧ st.syms.Clean)
          (sectionLoop file source sourceBase
            ⟨.zero, false, false, ⟨.indeterminate, 0⟩⟩ file.sections) :=
        plain_sectionLoop hsource hsecs
          ⟨hzero, [], .unset, List.forall_mem_nil _⟩
      refine Run.Ensures.bind ⟨hloop.emits, fun st hst =>
        And.intro hst (hloop.returns st hst)⟩ ?_
      rintro st ⟨hst, hrecord, hsyms⟩
      refine (plain_finishSymbols hsyms fun hunset values owned hpending =>
        ?_).ensures.bind fun _ _ => Run.ensures_pure hrecord
      exact hfile.list values owned hpending (namedSymbols_of_unset hst hunset)

end File

/-! ### The block loop -/

/-- The entries seen have clean paths, the records too, and so have the rows
collected for `vm`. -/
structure ScanState.Clean (st : ScanState) : Prop where
  seen : ∀ s ∈ st.seen, QuoteFree s.kvePath
  ssect : ∀ r ∈ st.ssect, ∀ path, r.mmapPath = some path →
    QuoteFree path ∧ lower path ∉ vmNames
  values : ∀ v ∈ st.values, RowClean v.fields

theorem plain_parseFile {kivp : KinfoVmentry}
    (hpath : QuoteFree kivp.kvePath ∧ lower kivp.kvePath ∉ vmNames)
    (hfiles : ∀ file, t.elf kivp.kvePath = some file → file.Clean)
    {st : ScanState} (hst : st.Clean) :
    Run.Ensures (Event.Plain k) ScanState.Clean (parseFile t st kivp) := by
  rw [parseFile]
  split
  · exact Run.ensures_pure hst
  · split
    · exact Run.ensures_pure hst
    · rw [readElf]
      rcases hfile : t.elf kivp.kvePath with - | file
      · exact (Run.ensures_stop (R := fun _ => False) _).bind fun _ h => h.elim
      · refine (plain_getElfInfo hpath.1 (hfiles file hfile)).bind
          fun record hrecord => ?_
        refine Run.ensures_pure ⟨?_, ?_, hst.values⟩
        · rw [List.forall_mem_append, List.forall_mem_singleton]
          exact ⟨hst.seen, hpath.1⟩
        · rw [List.forall_mem_append, List.forall_mem_singleton]
          refine ⟨hst.ssect, fun path hsome => ?_⟩
          rwa [hrecord path hsome]

theorem quoteFree_mmapPath {st : ScanState} (hst : st.Clean)
    {kivp : KinfoVmentry} (hpath : QuoteFree kivp.kvePath) :
    QuoteFree (mmapPath t st kivp) := by
  refine quoteFree_append.2 ⟨?_, quoteFree_append.2 ⟨?_, ?_⟩⟩
  · rw [libraryPath]
    split
    · split
      · next s hs => exact hst.seen s (List.mem_of_find?_eq_some hs)
      · repeat' apply quoteFree_ite
        all_goals decide
    · exact hpath
  · exact quoteFree_ite (by decide) (by decide)
  · exact quoteFree_ite (by decide) (by decide)

theorem plain_scanEntry (ht : t.Clean) (comparts : List CompartData)
    {entry : KinfoVmentry × Nat} (hpath : QuoteFree entry.1.kvePath ∧
      lower entry.1.kvePath ∉ vmNames)
    (hfiles : ∀ file, t.elf entry.1.kvePath = some file → file.Clean)
    {st : ScanState} (hst : st.Clean) :
    Run.Ensures (Event.Plain k) ScanState.Clean
      (scanEntry t comparts st entry) := by
  refine (plain_parseFile hpath hfiles hst).bind fun st₁ hst₁ => ?_
  have hname : QuoteFree (mmapPath t st₁ entry.1) :=
    quoteFree_mmapPath hst₁ hpath.1
  refine (plain_scanBlock ht hname entry.2 entry.1).ensures.bind
    fun _ _ => Run.ensures_pure ⟨hst₁.seen, hst₁.ssect, ?_⟩
  rw [List.forall_mem_append, List.forall_mem_singleton]
  refine ⟨hst₁.values, ?_⟩
  simp only [RowClean, VmEntry.fields, blockEntry, List.forall_mem_cons]
  exact ⟨quoteFree_hexText _, quoteFree_hexText _, hname, trivial, trivial,
    trivial, trivial, List.forall_mem_nil _⟩

theorem plain_insertVmEntries {values : List VmEntry}
    (hvalues : ∀ v ∈ values, RowClean v.fields)
    (hlist : values = [] → ∀ garbage owned,
      t.pendingVm ≠ .text garbage owned) :
    Run.Emits (Event.Plain k) (insertVmEntries t values) := by
  rw [insertVmEntries]
  split
  · exact Run.emits_emit ⟨hvalues, fun _ => trivial⟩
  · next hnil =>
      have hno := hlist (not_not.1 hnil)
      rcases hpending : t.pendingVm with - | ⟨garbage, owned⟩ | -
      · exact (Run.emits_pure _).bind fun _ => Run.emits_pure _
      · exact absurd hpending (hno garbage owned)
      · exact (Run.emits_stop _).bind fun _ => Run.emits_pure _

theorem plain_updates {ssect : List SpecialSections}
    (h : ∀ r ∈ ssect, ∀ path, r.mmapPath = some path →
      QuoteFree path ∧ lower path ∉ vmNames) :
    Run.Emits (Event.Plain k) (Run.loop updateStep ⟨⟩ ssect) := by
  rw [loop_updateStep]
  intro e he
  obtain ⟨r, hr, rfl⟩ := List.mem_map.1 he
  refine ⟨?_, fun _ => trivial⟩
  change QuoteFree (r.mmapPath.getD _) ∧ lower (r.mmapPath.getD _) ∉ vmNames
  rcases hpath : r.mmapPath with - | path
  · decide +kernel
  · exact h r hr path hpath

/-! ### The whole scan -/

/-- Every statement of a scan is plain, whatever stops the scan. -/
theorem plain_scanMem (ht : t.Clean) (harray : k → t.CleanArray) :
    Run.Emits (Event.Plain k) (scanMem t) := by
  rw [scanMem]
  split
  · exact Run.emits_stop _
  · split
    · exact Run.emits_stop _
    · split
      · exact Run.emits_stop _
      · next map hmap =>
          have hpaths := ht.paths map hmap
          have hfiles := ht.files map hmap
          have hentries : ∀ comparts, Run.Ensures (Event.Plain k)
              ScanState.Clean
              (Run.loop (scanEntry t comparts) .start map.zipIdx) :=
            fun comparts => Run.Ensures.loop (fun entry hentry _ hst =>
              plain_scanEntry ht comparts
                (hpaths _ (List.fst_mem_of_mem_zipIdx hentry))
                (hfiles _ (List.fst_mem_of_mem_zipIdx hentry)) hst)
              ⟨List.forall_mem_nil _, List.forall_mem_nil _,
                List.forall_mem_nil _⟩
          refine (plain_createTables.ensures.bind fun _ _ =>
            plain_getRDebug.ensures.bind fun debug hdebug =>
            (plain_scanRtldLinkmap
              (ht.names debug hdebug)).ensures.bind fun comparts _ =>
            (plain_scanRComparts (ht.names debug hdebug) fun hk =>
              harray hk debug hdebug).ensures.bind fun _ _ => ?_ :
            Run.Ensures (Event.Plain k) (fun _ => True) (scanMap t map)).emits
          refine Run.Ensures.bind ⟨(hentries comparts).emits, fun a ha =>
            And.intro ha ((hentries comparts).returns a ha)⟩ ?_
          rintro st ⟨hloop, hst⟩
          refine (plain_insertVmEntries hst.values fun hnil garbage owned
            hpending => ?_).ensures.bind fun _ _ =>
            ⟨plain_updates hst.ssect, fun _ _ => trivial⟩
          have hmapNil : map = [] := by
            rw [← List.length_eq_zero_iff, ← values_length hloop, hnil]
            rfl
          exact ht.vmList garbage owned hpending (hmapNil ▸ hmap)

theorem plain_statements (ht : t.Clean) :
    ∀ st ∈ statements (scanMem t).trace, st.Plain := fun _ hst =>
  (plain_scanMem (k := False) ht False.elim _ (mem_statements.1 hst)).1

theorem namesNoColumn_statements (ht : t.Clean) (harray : t.CleanArray) :
    ∀ st ∈ statements (scanMem t).trace, st.NamesNoColumn := fun _ hst =>
  (plain_scanMem (k := True) ht (fun _ => harray) _
    (mem_statements.1 hst)).2 trivial

theorem faithful_statements (ht : t.Clean) (harray : t.CleanArray) :
    ∀ st ∈ statements (scanMem t).trace, st.Faithful := fun st hst =>
  (plain_statements ht st hst).faithful
    (namesNoColumn_statements ht harray st hst)

/-- The database after a scan, as SQLite reads the texts of its statements. -/
def dbScanned (t : Target) (db : Db) : Db :=
  execTexts (statements (scanMem t).trace) db

/-- The same when only some of the statements succeed, `ok` telling which. -/
def dbScannedSome (ok : Nat → Bool) (t : Target) (db : Db) : Db :=
  execTexts (succeeded ok (statements (scanMem t).trace)) db

/-- All tables but `comparts` are as the statements are meant. -/
theorem sameRows_dbScanned (ht : t.Clean) (db : Db) :
    SameRows (dbScanned t db) (dbAfter t db) :=
  sameRows_execTexts (plain_statements ht) .rfl

theorem sameRows_dbScannedSome (ht : t.Clean) (ok : Nat → Bool) (db : Db) :
    SameRows (dbScannedSome ok t db) (dbAfterSome ok t db) :=
  sameRows_execTexts (fun st hst =>
    plain_statements ht st (mem_of_mem_succeeded hst)) .rfl

/-- Whatever reads the other tables only finds in them what is meant. -/
theorem exists_dbScanned (ht : t.Clean) (db : Db) : ∃ comparts,
    dbScanned t db = { dbAfter t db with comparts := comparts } :=
  ⟨_, (sameRows_dbScanned ht db).eq⟩

/-- All tables are, where no name of the array is that of a column. -/
theorem dbScanned_eq (ht : t.Clean) (harray : t.CleanArray) (db : Db) :
    dbScanned t db = dbAfter t db :=
  execTexts_eq_runAll (faithful_statements ht harray) db

theorem dbScannedSome_eq (ht : t.Clean) (harray : t.CleanArray)
    (ok : Nat → Bool) (db : Db) :
    dbScannedSome ok t db = dbAfterSome ok t db :=
  execTexts_eq_runAll (fun st hst =>
    faithful_statements ht harray st (mem_of_mem_succeeded hst)) db

/-! ### The small process -/

/-- A process whose files name no symbols is clean where its paths, the strings
in its memory and its permission texts are. -/
theorem clean_of_unnamed {t : Target} {map : List KinfoVmentry}
    (hmap : t.vmmap = some map)
    (hpaths : ∀ kivp ∈ map,
      QuoteFree kivp.kvePath ∧ lower kivp.kvePath ∉ vmNames)
    (hstrings : ∀ a s, (t.getString a).result = some s → QuoteFree s)
    (hfiles : ∀ path file, t.elf path = some file →
      file.pending = .null ∧ namedSymbols file.sections = [])
    (hperms : ∀ i a, QuoteFree ((t.memory i).cap a).copy.perms)
    (hlist : t.pendingVm = .null) : t.Clean where
  paths map' hmap' := by
    cases hmap.symm.trans hmap'
    exact hpaths
  names _ _ a _ s hs := quoteFree_fileName (hstrings a s hs)
  files _ _ kivp _ file hfile := by
    obtain ⟨hpending, hsymbols⟩ := hfiles kivp.kvePath file hfile
    constructor
    · rw [hsymbols]
      exact List.forall_mem_nil _
    · intro values owned htext
      cases hpending.symm.trans htext
  perms := hperms
  vmList values owned hpending := by
    cases hlist.symm.trans hpending

theorem sample_clean {map : List KinfoVmentry} {memory : Nat → Memory}
    (hpaths : ∀ kivp ∈ map,
      QuoteFree kivp.kvePath ∧ lower kivp.kvePath ∉ vmNames)
    (hperms : ∀ i a, QuoteFree ((memory i).cap a).copy.perms) :
    (Target.sample map memory).Clean :=
  clean_of_unnamed rfl hpaths (fun _ _ h => by cases h)
    (fun _ _ h => by cases h) hperms rfl

theorem sample_cleanArray (map : List KinfoVmentry) (memory : Nat → Memory) :
    (Target.sample map memory).CleanArray := by
  intro debug hdebug
  cases hdebug
  exact List.forall_mem_nil _

/-! ### A scan that stops early -/

/-- After an early stop each table holds what it held, changed by exactly the
statements that succeeded before the stop; `vm` is unchanged, and so is
everything when the scan did not get past `get_r_debug`. -/
theorem failed_scan (ok : Nat → Bool) {t : Target} (hclean : t.Clean)
    (harray : t.CleanArray) (db : Db) {s : Stop}
    (h : (scanMem t).outcome = .error s) :
    dbScannedSome ok t db =
        { vm := db.vm
          capInfo := db.capInfo ++
            (succeeded ok (statements (scanMem t).trace)).flatMap
              Statement.capRows
          elfSym := db.elfSym ++
            (succeeded ok (statements (scanMem t).trace)).flatMap
              Statement.symRows
          comparts := (succeeded ok (statements (scanMem t).trace)).foldl
            Statement.runComparts db.comparts } ∧
      (StopsInSearch t → dbScannedSome ok t db = db) := by
  rw [dbScannedSome_eq hclean harray]
  exact dbAfterSome_error ok t db h

/-- A capability in the first block, and a second block whose file is gone. -/
def missingFileTarget : Target :=
  Target.sample
    [.sample 0x40000 0x41000,
      { KinfoVmentry.sample 0x41000 0x42000 with
        kvePath := "/lib/gone.so".toList }]
    fun _ =>
      { tags := fun _ => some (.ofFirst 1)
        cap := fun _ =>
          ⟨true, ⟨0x40000, "rwRW".toList, 0x40000, 0x41000, none⟩⟩ }

theorem missingFileTarget_clean : missingFileTarget.Clean :=
  sample_clean (by decide +kernel) fun _ _ =>
    (by decide : QuoteFree "rwRW".toList)

/-- The capability stays in `cap_info` although no row of `vm` follows. -/
theorem missing_file_leaves_rows :
    (scanMem missingFileTarget).outcome = .error .exit ∧
      (dbScanned missingFileTarget Db.empty).capInfo ≠ Db.empty.capInfo ∧
      (dbScanned missingFileTarget Db.empty).vm = [] := by
  rw [dbScanned_eq missingFileTarget_clean (sample_cleanArray _ _)]
  decide +kernel

/-- No row of `vm` appears either when some of its statements fail. -/
theorem missing_file_vm :
    (dbScannedSome (fun i => i != 3) missingFileTarget Db.empty).vm = [] := by
  have hstop : (scanMem missingFileTarget).outcome = .error .exit := by
    decide +kernel
  rw [(failed_scan (fun i => i != 3) missingFileTarget_clean
    (sample_cleanArray _ _) Db.empty hstop).1]
  rfl

end Chericat
