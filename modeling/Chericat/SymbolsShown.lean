import Chericat.AddressText
import Chericat.PlainStatements
import Chericat.SymbolBatches

/-!
The symbols `caps_syms_view` reports.  `get_elf_info` stores every symbol that
has a name, the null symbol and the undefined ones among them, and the view
takes the first one at an address.
-/

namespace Chericat

open Numeral SqlText

/-! ### What is scanned -/

/-- A call of `get_elf_info`. -/
structure ElfScan where
  file : ElfFile
  source : Text
  sourceBase : ULong
deriving Repr, DecidableEq

/-- One file after the other. -/
def scanElfs (scans : List ElfScan) : Scan PUnit :=
  Run.loop (fun _ x => do
    let _ ← getElfInfo x.file x.source x.sourceBase
    pure ⟨⟩) ⟨⟩ scans

/-- The sections whose symbols are stored: none of a file without an ELF
header. -/
def ElfScan.sectionsRead (x : ElfScan) : List ElfSection :=
  if x.file.hasHeader && x.file.hasSectionNames then x.file.sectionsRead else []

/-- A symbol of a scanned file, with its name. -/
structure NamedSym where
  scan : ElfScan
  symbol : ElfSymbol
  name : Text
deriving Repr, DecidableEq

def NamedSym.addr (e : NamedSym) : ULong :=
  e.scan.sourceBase + e.symbol.offset

/-- The row that is stored for it. -/
def NamedSym.row (e : NamedSym) : SymInfo :=
  symRow e.scan.file e.scan.source e.scan.sourceBase e.symbol e.name

/-- The file defines the symbol, and the symbol is not the null symbol. -/
def NamedSym.Defined (e : NamedSym) : Prop :=
  e.symbol.stShndx ≠ 0 ∧ e.name ≠ []

instance (e : NamedSym) : Decidable e.Defined :=
  inferInstanceAs (Decidable (_ ∧ _))

/-- The symbols of some sections whose name can be read. -/
def ElfScan.named (x : ElfScan) (secs : List ElfSection) : List NamedSym :=
  (namedSymbols secs).map fun p => ⟨x, p.1, p.2⟩

/-- The symbols that are stored, in the order of their rows. -/
def storedSyms (scans : List ElfScan) : List NamedSym :=
  scans.flatMap fun x => x.named x.sectionsRead

/-- The symbols in all symbol tables of the files. -/
def allSyms (scans : List ElfScan) : List NamedSym :=
  scans.flatMap fun x => x.named x.file.sections

/-! ### What is shown -/

/-- The symbol found for an address and the text shown for it: name and type of
a symbol that a file defines there, and two dashes exactly when no file
does. -/
structure SymbolShown (scans : List ElfScan) (a : ULong)
    (found : Option SymInfo) (shown : Text) : Prop where
  defined : ∀ r, found = some r →
    shown = r.symName ++ " (".toList ++ r.type ++ ")".toList ∧
      ∃ d ∈ allSyms scans, d.Defined ∧ d.addr = a ∧ d.row = r
  dash : shown = "- (-)".toList ↔
    ∀ d ∈ allSyms scans, d.Defined → d.addr ≠ a

/-- What the view shows for the location and the target of every capability,
with these rows in `elf_sym`. -/
def ShowsDefined (scans : List ElfScan) (syms : List SymInfo) : Prop :=
  ∀ (c : CapInfo) (loc target : ULong), c.At loc target →
    SymbolShown scans loc (symAt syms c.capLocAddr)
        (capSyms syms c).symInfoForLoc ∧
      SymbolShown scans target (symAt syms c.capAddr)
        (capSyms syms c).symInfoForCap

/-- The first symbol stored at an address is defined, and a symbol in a table
that is not read has one stored at its address. -/
structure FirstDefined (scans : List ElfScan) : Prop where
  first : ∀ a e, (storedSyms scans).find? (·.addr = a) = some e → e.Defined
  stored : ∀ d ∈ allSyms scans, d.Defined →
    ∃ e ∈ storedSyms scans, e.addr = d.addr

/-! ### Stored rows -/

theorem namedSymbols_subset {secs secs' : List ElfSection}
    (h : secs ⊆ secs') : namedSymbols secs ⊆ namedSymbols secs' := by
  rintro ⟨s, symname⟩ hs
  obtain ⟨sec, hsec, hs⟩ := mem_namedSymbols.1 hs
  exact mem_namedSymbols.2 ⟨sec, h hsec, hs⟩

theorem named_subset (x : ElfScan) {secs secs' : List ElfSection}
    (h : secs ⊆ secs') : x.named secs ⊆ x.named secs' :=
  List.map_subset _ (namedSymbols_subset h)

theorem sectionsRead_subset (x : ElfScan) :
    x.sectionsRead ⊆ x.file.sections := by
  rw [ElfScan.sectionsRead]
  split
  · exact (sectionsRead_isPrefix [] x.file.sections).subset
  · exact List.nil_subset _

theorem storedSyms_subset (scans : List ElfScan) :
    storedSyms scans ⊆ allSyms scans := by
  intro e he
  obtain ⟨x, hx, he⟩ := List.mem_flatMap.1 he
  exact List.mem_flatMap.2 ⟨x, hx,
    named_subset x (sectionsRead_subset x) he⟩

theorem map_row_named (x : ElfScan) (secs : List ElfSection) :
    (x.named secs).map NamedSym.row = (namedSymbols secs).map fun p =>
      symRow x.file x.source x.sourceBase p.1 p.2 :=
  List.map_map ..

/-! ### Symbols by their rows -/

/-- The text of a section index, `UND` exactly for an undefined symbol. -/
theorem padLeft3_stShndx_eq {shndx : Nat} :
    padLeft3 (stShndx shndx) = padLeft3 "UND".toList ↔ shndx = 0 := by
  constructor
  · intro h
    by_contra hne
    have hmem : 'U' ∈ padLeft3 (stShndx shndx) := by
      rw [h]
      decide
    rw [stShndx, if_neg hne] at hmem
    repeat' split at hmem
    · exact absurd hmem (by decide)
    · exact absurd hmem (by decide)
    · exact absurd hmem (by decide)
    · exact absurd hmem (by decide)
    · rcases List.mem_append.1 hmem with hspace | hdigit
      · cases List.eq_of_mem_replicate hspace
      · have hisDigit := isDigit_of_mem_numeral (b := 10) (by decide)
          (by decide) shndx hdigit
        revert hisDigit
        decide
  · intro h
    rw [h]
    rfl

/-- The row tells whether the symbol is defined. -/
theorem NamedSym.Defined.of_row_eq {d e : NamedSym} (hd : d.Defined)
    (hrow : d.row = e.row) : e.Defined := by
  obtain ⟨hshndx, hname⟩ := hd
  have hnames : d.name = e.name := congrArg SymInfo.symName hrow
  have hindex : padLeft3 (stShndx d.symbol.stShndx) =
      padLeft3 (stShndx e.symbol.stShndx) := congrArg SymInfo.shndx hrow
  constructor
  · intro hzero
    rw [padLeft3_stShndx_eq.2 hzero, padLeft3_stShndx_eq] at hindex
    exact hshndx hindex
  · rwa [← hnames]

theorem symAt_map_row (es : List NamedSym) (a : ULong) :
    symAt (es.map NamedSym.row) (hexText a.toNat) =
      (es.find? (·.addr = a)).map NamedSym.row := by
  rw [symAt, List.find?_map]
  congr 2
  funext e
  have haddr : e.row.addr = hexText e.addr.toNat := rfl
  rw [Function.comp_apply, decide_eq_decide, haddr, hexText_eq_iff]
  exact eq_comm

theorem ne_dash_ite {c : Prop} [Decidable c] {s t : Text}
    (hs : s ≠ "-".toList) (ht : t ≠ "-".toList) :
    (if c then s else t) ≠ "-".toList := by
  split
  · exact hs
  · exact ht

theorem stType_ne_dash (mach os stype : Nat) :
    stType mach os stype ≠ "-".toList := by
  unfold stType unknownText
  repeat' apply ne_dash_ite
  any_goals decide
  · simp
  · simp
  · simp

/-- No stored symbol is shown as two dashes. -/
theorem symText_row_ne_dash (e : NamedSym) :
    symText (some e.row) ≠ "- (-)".toList := fun h =>
  stType_ne_dash _ _ _ (symText_some_eq_dash.1 h).2

theorem symText_map_row_eq_dash (found : Option NamedSym) :
    symText (found.map NamedSym.row) = "- (-)".toList ↔ found = none := by
  rcases found with - | e
  · exact iff_of_true rfl rfl
  · exact iff_of_false (symText_row_ne_dash e) (Option.some_ne_none e)

/-- One address stands for all locations and targets. -/
theorem showsDefined_iff_forall (scans : List ElfScan) :
    ShowsDefined scans ((storedSyms scans).map NamedSym.row) ↔
      ∀ a : ULong, SymbolShown scans a
        (((storedSyms scans).find? (·.addr = a)).map NamedSym.row)
        (symText (((storedSyms scans).find? (·.addr = a)).map
          NamedSym.row)) := by
  constructor
  · intro h a
    have hboth := (h ⟨hexText a.toNat, [], hexText a.toNat, [], [], []⟩ a a
      ⟨rfl, rfl⟩).1
    rwa [capSyms, symAt_map_row] at hboth
  · intro h c loc target hc
    rw [capSyms, hc.1, hc.2, symAt_map_row, symAt_map_row]
    exact ⟨h loc, h target⟩

/-- The view, over the rows of the stored symbols. -/
theorem showsDefined_iff (scans : List ElfScan) :
    ShowsDefined scans ((storedSyms scans).map NamedSym.row) ↔
      FirstDefined scans := by
  rw [showsDefined_iff_forall]
  constructor
  · intro h
    constructor
    · intro a e he
      obtain ⟨-, d, -, hd, -, hrow⟩ := (h a).defined e.row (by rw [he]; rfl)
      exact hd.of_row_eq hrow
    · intro d hmem hd
      by_contra hnone
      have hfind : (storedSyms scans).find? (·.addr = d.addr) = none := by
        rw [List.find?_eq_none]
        intro e he haddr
        exact hnone ⟨e, he, of_decide_eq_true haddr⟩
      exact (h d.addr).dash.1 ((symText_map_row_eq_dash _).2 hfind) d hmem hd rfl
  · rintro ⟨hfirst, hstored⟩ a
    rcases hfind : (storedSyms scans).find? (·.addr = a) with - | e <;>
      rw [hfind]
    · constructor
      · intro r hr
        cases hr
      · refine iff_of_true rfl fun d hmem hd haddr => ?_
        obtain ⟨e, he, headdr⟩ := hstored d hmem hd
        refine List.find?_eq_none.1 hfind e he (decide_eq_true ?_)
        rw [headdr, haddr]
    · have hmem := storedSyms_subset scans (List.mem_of_find?_eq_some hfind)
      have haddr : e.addr = a := by simpa using List.find?_some hfind
      have hdefined := hfirst a e hfind
      constructor
      · intro r hr
        cases hr
        exact ⟨rfl, e, hmem, hdefined, haddr, rfl⟩
      · exact iff_of_false (symText_row_ne_dash e)
          fun hall => hall e hmem hdefined haddr

/-! ### Statements of the scans -/

/-- The statements of a call that returns. -/
theorem getElfInfo_sends {x : ElfScan} {record : SpecialSections}
    (hok : (getElfInfo x.file x.source x.sourceBase).outcome = .ok record) :
    ∃ ss, statements (getElfInfo x.file x.source x.sourceBase).trace =
        .createTable elfSymTable :: ss ∧
      SendsRows ((x.named x.sectionsRead).map NamedSym.row) x.file.pending
        ss := by
  by_cases hreads : (x.file.hasHeader && x.file.hasSectionNames) = true
  · obtain ⟨hheader, hnames⟩ := Bool.and_eq_true_iff.1 hreads
    have hcreate : (Run.emit (.exec (.createTable elfSymTable)) :
        Scan PUnit).outcome = .ok ⟨⟩ := rfl
    rw [getElfInfo_run hheader hnames, Run.outcome_bind_ok hcreate] at hok
    obtain ⟨st, hloop, hok⟩ := Run.bind_eq_ok hok
    obtain ⟨_, hend, _⟩ := Run.bind_eq_ok hok
    have hstart :
        ElfState.SeenIn ⟨.zero, false, false, ⟨.indeterminate, 0⟩⟩ [] := ⟨rfl, rfl⟩
    have hread := readable_of_sectionLoop (List.forall_mem_nil _) hstart hloop
    obtain ⟨st', hloop', hbatched⟩ :=
      sectionLoop_start x.source x.sourceBase hread
    cases hloop.symm.trans hloop'
    rw [map_row_named, ElfScan.sectionsRead, if_pos hreads]
    refine ⟨_, ?_, (hbatched.finish x.file.pending).2⟩
    rw [getElfInfo_run hheader hnames, Run.trace_bind_ok hcreate,
      Run.trace_bind_ok hloop, Run.trace_bind_ok hend]
    simp
  · have hempty : x.named x.sectionsRead = [] := by
      rw [ElfScan.sectionsRead, if_neg hreads]
      rfl
    rw [hempty]
    refine ⟨[], ?_, [], [], rfl, rfl, List.forall_mem_nil _⟩
    rcases hheader : x.file.hasHeader with - | -
    · rw [getElfInfo, hheader]
      rfl
    · rw [hheader, Bool.true_and, Bool.not_eq_true] at hreads
      rw [getElfInfo, hheader, hreads]
      rfl

/-! ### Rows of the scans -/

theorem elfSym_runAll_batches (sent : List (Batch SymInfo)) (db : Db) :
    (runAll (sent.map .insertElfSym) db).elfSym =
      db.elfSym ++ sent.flatMap Batch.rows := by
  induction sent generalizing db with
  | nil => simp
  | cons b sent ih => simp [ih, Statement.run]

theorem runAll_indeterminate {ss : List Statement}
    (h : ∀ st ∈ ss, ∃ text, st = .indeterminate elfSymHdr text) (db : Db) :
    runAll ss db = db := by
  induction ss with
  | nil => rfl
  | cons st ss ih =>
      obtain ⟨text, rfl⟩ := h st List.mem_cons_self
      exact ih fun s hs => h s (List.mem_cons_of_mem _ hs)

theorem SendsRows.elfSym {rows : List SymInfo} {garbage : Unset}
    {ss : List Statement} (h : SendsRows rows garbage ss) (db : Db) :
    (runAll ss db).elfSym = db.elfSym ++ rows := by
  obtain ⟨sent, tail, rfl, rfl, htail⟩ := h
  have hrest := runAll_indeterminate (fun st hst =>
    (htail st hst).2.imp fun _ ⟨_, _, h⟩ => h)
    (runAll (sent.map .insertElfSym) db)
  rw [← elfSym_runAll_batches, ← hrest, runAll, runAll, List.foldl_append]
  rfl

theorem SendsRows.mem {rows : List SymInfo} {garbage : Unset}
    {ss : List Statement} (h : SendsRows rows garbage ss) :
    ∀ st ∈ ss, (∃ b, st = .insertElfSym b ∧ b.rows ⊆ rows) ∨
      (rows = [] ∧ garbage ≠ .null) := by
  obtain ⟨sent, tail, rfl, rfl, htail⟩ := h
  intro st hst
  rcases List.mem_append.1 hst with hst | hst
  · obtain ⟨b, hb, rfl⟩ := List.mem_map.1 hst
    exact Or.inl ⟨b, rfl, fun r hr => List.mem_flatMap.2 ⟨b, hb, hr⟩⟩
  · obtain ⟨hrows, values, owned, hgarbage, -⟩ := htail st hst
    rw [hgarbage]
    exact Or.inr ⟨hrows, nofun⟩

/-- The table after the scans, and the statements sent. -/
structure Stored (scans : List ElfScan) (ss : List Statement) : Prop where
  elfSym : (runAll ss Db.empty).elfSym = (storedSyms scans).map NamedSym.row
  sent : ∀ st ∈ ss, st = .createTable elfSymTable ∨
    (∃ b, st = .insertElfSym b ∧
      b.rows ⊆ (storedSyms scans).map NamedSym.row) ∨
    ∃ x ∈ scans, x.named x.sectionsRead = [] ∧ x.file.pending ≠ .null

theorem storedSyms_concat (scans : List ElfScan) (x : ElfScan) :
    storedSyms (scans ++ [x]) = storedSyms scans ++ x.named x.sectionsRead := by
  simp [storedSyms]

theorem stored_scanElfs {scans : List ElfScan}
    (hok : (scanElfs scans).outcome = .ok ⟨⟩) :
    Stored scans (statements (scanElfs scans).trace) := by
  refine Run.loop_induction (P := fun done tr _ => Stored done (statements tr))
    hok ⟨rfl, nofun⟩ ?_
  intro done tr _ x _ ⟨helfSym, hsent⟩ hx
  obtain ⟨record, hrecord, _⟩ := Run.bind_eq_ok hx
  obtain ⟨ss, hss, hsends⟩ := getElfInfo_sends hrecord
  rw [Run.trace_bind_ok hrecord, Run.trace_pure, List.append_nil,
    statements_append, hss]
  constructor
  · rw [runAll, List.foldl_append, storedSyms_concat, List.map_append, ← helfSym]
    exact hsends.elfSym _
  · intro st hst
    rw [storedSyms_concat, List.map_append]
    rcases List.mem_append.1 hst with hst | hst
    · rcases hsent st hst with hcreate | ⟨b, hb, hrows⟩ | ⟨y, hy, hnone⟩
      · exact Or.inl hcreate
      · exact Or.inr (Or.inl ⟨b, hb,
          List.subset_append_of_subset_left _ hrows⟩)
      · exact Or.inr (Or.inr ⟨y, List.mem_append_left _ hy, hnone⟩)
    · rcases List.mem_cons.1 hst with hcreate | hst
      · exact Or.inl hcreate
      · rcases hsends.mem st hst with ⟨b, hb, hrows⟩ | ⟨hempty, hgarbage⟩
        · exact Or.inr (Or.inl ⟨b, hb,
            List.subset_append_of_subset_right _ hrows⟩)
        · exact Or.inr (Or.inr ⟨x, by simp, List.map_eq_nil_iff.1 hempty,
            hgarbage⟩)

/-! ### The texts -/

/-- No quotes in the paths and the names, and no list that is sent without
having been assigned. -/
structure PlainTexts (scans : List ElfScan) : Prop where
  quoteFree : ∀ e ∈ storedSyms scans,
    QuoteFree e.scan.source ∧ QuoteFree e.name
  assigned : ∀ x ∈ scans, x.named x.sectionsRead = [] → x.file.pending = .null

theorem PlainTexts.faithful {scans : List ElfScan} {ss : List Statement}
    (h : PlainTexts scans) (hstored : Stored scans ss) :
    ∀ st ∈ ss, st.Faithful := by
  intro st hst
  rcases hstored.sent st hst with rfl | ⟨b, rfl, hrows⟩ | ⟨x, hx, hnone, hp⟩
  · exact createTable_faithful creates_elfSym
  · refine Statement.Clean.faithful (fun r hr => ?_) rfl
    obtain ⟨e, he, rfl⟩ := List.mem_map.1 (hrows hr)
    exact rowClean_symRow (h.quoteFree e he).1 (h.quoteFree e he).2
  · exact absurd (h.assigned x hx hnone) hp

/-- What the view shows after the files were scanned, the statements being read
from their texts. -/
theorem symbolsShown_iff {scans : List ElfScan}
    (hscan : (scanElfs scans).outcome = .ok ⟨⟩) (hplain : PlainTexts scans) :
    ShowsDefined scans (execTexts (statements (scanElfs scans).trace)
      Db.empty).elfSym ↔ FirstDefined scans := by
  have hstored := stored_scanElfs hscan
  rw [execTexts_eq_runAll (hplain.faithful hstored), hstored.elfSym,
    showsDefined_iff]

/-- A library whose symbol table begins with the null symbol. -/
def nullFirst : ElfScan where
  file :=
    { smallElf with
      sections := [⟨some ".dynsym".toList, .dynsym, 0x200, 48,
        some [⟨some [], 0, 0, 0⟩, ⟨some "start".toList, 0, 18, 1⟩], .zero⟩] }
  source := "/lib/a.so".toList
  sourceBase := 0x10000

theorem nullFirst_plain : PlainTexts [nullFirst] := ⟨by decide, by decide⟩

/-- The null symbol is shown at the base address, where the library defines its
first function. -/
theorem null_symbol_shown : (scanElfs [nullFirst]).outcome = .ok ⟨⟩ ∧
    ¬ ShowsDefined [nullFirst] (execTexts
      (statements (scanElfs [nullFirst]).trace) Db.empty).elfSym := by
  have hok : (scanElfs [nullFirst]).outcome = .ok ⟨⟩ := by decide
  have hstored := stored_scanElfs hok
  refine ⟨hok, fun h => ?_⟩
  rw [execTexts_eq_runAll (nullFirst_plain.faithful hstored), hstored.elfSym,
    showsDefined_iff] at h
  have hnull := h.first 0x10000 ⟨nullFirst, ⟨some [], 0, 0, 0⟩, []⟩ (by decide)
  exact hnull.1 rfl

/-- The one function of a file whose first symbol has no name. -/
theorem function_shown : ShowsDefined
    [⟨smallElf, "/bin/a".toList, 0x10000⟩] (execTexts (statements
      (scanElfs [⟨smallElf, "/bin/a".toList, 0x10000⟩]).trace)
      Db.empty).elfSym := by
  refine (symbolsShown_iff (by decide) ⟨by decide, by decide⟩).2 ⟨?_, ?_⟩
  · intro a e he
    have hmem := List.mem_of_find?_eq_some he
    revert hmem
    clear he
    revert e
    decide
  · intro d hd _
    exact ⟨d, hd, rfl⟩

end Chericat
