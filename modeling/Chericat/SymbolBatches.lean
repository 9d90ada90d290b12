import Chericat.ScanStages

/-!
The batches of symbols `get_elf_info` inserts.  The list of pending values and
its counter travel through two nested loops; what was sent and what is pending
is always what was named so far.
-/

namespace Chericat

open Numeral

/-! ### The sections that are read -/

/-- Both kinds of symbol table are among the sections. -/
def bothSeen (secs : List ElfSection) : Bool :=
  secs.any (·.shType = .dynsym) && secs.any (·.shType = .symtab)

/-- The sections up to and including the one at which both kinds have been
seen. -/
def sectionsRead (read : List ElfSection) : List ElfSection → List ElfSection
  | [] => read
  | sec :: rest =>
      if bothSeen (read ++ [sec]) then read ++ [sec]
      else sectionsRead (read ++ [sec]) rest

theorem prefix_sectionsRead (read secs : List ElfSection) :
    read <+: sectionsRead read secs := by
  induction secs generalizing read with
  | nil => exact List.prefix_rfl
  | cons sec rest ih =>
      rw [sectionsRead]
      split
      · exact List.prefix_append read [sec]
      · exact (List.prefix_append read [sec]).trans (ih _)

theorem sectionsRead_isPrefix (read secs : List ElfSection) :
    sectionsRead read secs <+: read ++ secs := by
  induction secs generalizing read with
  | nil => simp [sectionsRead]
  | cons sec rest ih =>
      rw [sectionsRead]
      split
      · exact ⟨rest, by simp⟩
      · simpa using ih (read ++ [sec])

/-- The flags of the loop tell what is among the sections. -/
structure ElfState.SeenIn (st : ElfState) (read : List ElfSection) : Prop where
  dynsym : st.seenDynsym = read.any (·.shType = .dynsym)
  symtab : st.seenSymtab = read.any (·.shType = .symtab)

theorem ElfState.SeenIn.both {st : ElfState} {read : List ElfSection}
    (h : st.SeenIn read) : (st.seenDynsym && st.seenSymtab) = bothSeen read := by
  rw [h.dynsym, h.symtab, bothSeen]

/-- The state after one more section. -/
def ElfState.next (st : ElfState) (sec : ElfSection)
    (record : SpecialSections) (syms : SymState) : ElfState :=
  { record := record
    seenDynsym := st.seenDynsym || sec.shType = .dynsym
    seenSymtab := st.seenSymtab || sec.shType = .symtab
    syms := syms }

theorem ElfState.SeenIn.next {st : ElfState} {read : List ElfSection}
    (h : st.SeenIn read) (sec : ElfSection) (record : SpecialSections)
    (syms : SymState) : (st.next sec record syms).SeenIn (read ++ [sec]) := by
  constructor
  · simp [ElfState.next, h.dynsym]
  · simp [ElfState.next, h.symtab]

/-- The name of a section can be read, and the symbols of a symbol table. -/
def ElfSection.Readable (sec : ElfSection) : Prop :=
  sec.name ≠ none ∧ (sec.shType ≠ .other → sec.symbols ≠ none)

/-! ### What is pending -/

/-- The pointer and the counter agree on the values that are pending. -/
inductive SymState.Pends : SymState → List SymInfo → Prop where
  | unset : Pends ⟨.indeterminate, 0⟩ []
  | rows (vs : List SymInfo) : Pends ⟨.rows vs, vs.length⟩ vs

theorem SymState.Pends.values_eq {s : SymState} {vs : List SymInfo}
    (h : s.Pends vs) (hvs : vs ≠ []) : s.values = .rows vs := by
  rcases h with - | -
  · exact absurd rfl hvs
  · rfl

theorem SymState.Pends.push {s : SymState} {vs : List SymInfo}
    (h : s.Pends vs) (v : SymInfo) : (s.push v).Pends (vs ++ [v]) := by
  rcases h with - | -
  · exact .rows [v]
  · by_cases hvs : vs = []
    · subst hvs
      exact .rows [v]
    · have hpush : SymState.push ⟨.rows vs, vs.length⟩ v =
          ⟨.rows (vs ++ [v]), (vs ++ [v]).length⟩ := by
        simp [SymState.push, hvs]
      rw [hpush]
      exact .rows _

/-- The batches sent and the values pending are the given rows, and the pointer
is unset as long as there are none. -/
structure SymState.Batches (s : SymState) (rows : List SymInfo)
    (sent : List (Batch SymInfo)) (pending : List SymInfo) : Prop where
  pends : s.Pends pending
  all : sent.flatMap Batch.rows ++ pending = rows
  unset : s.values = .indeterminate ↔ rows = []

theorem SymState.Batches.push {s : SymState} {rows pending : List SymInfo}
    {sent : List (Batch SymInfo)} (h : s.Batches rows sent pending)
    (v : SymInfo) :
    (s.push v).Batches (rows ++ [v]) sent (pending ++ [v]) := by
  have hpends := h.pends.push v
  refine ⟨hpends, by rw [← List.append_assoc, h.all], ?_⟩
  rw [hpends.values_eq (by simp)]
  exact iff_of_false SymValues.noConfusion (by simp)

/-- Values that are pending are sent as one batch. -/
theorem SymState.Batches.send {s : SymState} {rows pending : List SymInfo}
    {sent : List (Batch SymInfo)} (h : s.Batches rows sent pending)
    (hpending : pending ≠ []) (garbage : Unset) :
    sendSymbols garbage s.values =
      ⟨[.exec (.insertElfSym ⟨pending, hpending⟩)], .ok ⟨⟩⟩ := by
  rw [h.pends.values_eq hpending, sendSymbols, dif_pos hpending]
  rfl

theorem SymState.Batches.flush {s : SymState} {rows pending : List SymInfo}
    {sent : List (Batch SymInfo)} (h : s.Batches rows sent pending)
    (hpending : pending ≠ []) :
    SymState.Batches ⟨.rows [], 0⟩ rows
      (sent ++ [⟨pending, hpending⟩]) [] :=
  ⟨.rows [], by simp [← h.all],
    iff_of_false SymValues.noConfusion (by simp [← h.all, hpending])⟩

/-- The statements so far are batches, and with the values pending they hold
the rows. -/
def BatchedBy (rows : List SymInfo) (ss : List Statement) (s : SymState) :
    Prop :=
  ∃ sent pending, ss = sent.map .insertElfSym ∧ s.Batches rows sent pending

theorem batchedBy_start : BatchedBy [] [] ⟨.indeterminate, 0⟩ :=
  ⟨[], [], rfl, .unset, rfl, iff_of_true rfl rfl⟩

/-! ### The two loops -/

section File

variable (file : ElfFile) (source : Text) (sourceBase : ULong)

/-- The row of a symbol that has a name. -/
def namedRow (s : ElfSymbol) : List SymInfo :=
  (s.name.map (symRow file source sourceBase s)).toList

/-- The rows of the named symbols of a section, in index order. -/
def sectionRows (sec : ElfSection) : List SymInfo :=
  if sec.shType = .other then []
  else (sec.symbols.getD []).flatMap (namedRow file source sourceBase)

variable {file source sourceBase}

theorem BatchedBy.symStep {rows : List SymInfo} {ss : List Statement}
    {s : SymState} (h : BatchedBy rows ss s) (entry : ElfSymbol × Nat) :
    ∃ s', (symStep file source sourceBase s entry).outcome = .ok s' ∧
      BatchedBy (rows ++ namedRow file source sourceBase entry.1)
        (ss ++ statements (symStep file source sourceBase s entry).trace)
        s' := by
  obtain ⟨sent, pending, rfl, hbatches⟩ := h
  rw [Chericat.symStep, namedRow]
  split
  · next hname =>
      refine ⟨s, rfl, sent, pending, ?_, ?_⟩
      · simp
      · simpa [hname] using hbatches
  · next symname hname =>
      have hpush :=
        hbatches.push (symRow file source sourceBase entry.1 symname)
      rw [hname, Option.map_some, Option.toList_some]
      dsimp only
      split
      · -- the values collected so far are sent
        rw [hpush.send (by simp)]
        exact ⟨_, rfl, _, [], by simp, hpush.flush (by simp)⟩
      · exact ⟨_, rfl, sent, _, by simp, hpush⟩

variable (file source sourceBase) in
theorem BatchedBy.symbols {rows : List SymInfo} {ss : List Statement}
    {s : SymState} (h : BatchedBy rows ss s)
    (entries : List (ElfSymbol × Nat)) :
    ∃ s', (Run.loop (Chericat.symStep file source sourceBase) s
        entries).outcome = .ok s' ∧
      BatchedBy
        (rows ++ (entries.map Prod.fst).flatMap
          (namedRow file source sourceBase))
        (ss ++ statements (Run.loop (Chericat.symStep file source sourceBase)
          s entries).trace) s' := by
  refine Run.loop_total (P := fun done tr s =>
    BatchedBy (rows ++ (done.map Prod.fst).flatMap
      (namedRow file source sourceBase)) (ss ++ statements tr) s) ?_ ?_
  · simpa using h
  · intro done tr s entry _ hs
    obtain ⟨s', hok, hs'⟩ := hs.symStep entry
    exact ⟨s', hok, by simpa using hs'⟩

theorem BatchedBy.sectionSymbols {rows : List SymInfo} {ss : List Statement}
    {s : SymState} (h : BatchedBy rows ss s) {sec : ElfSection}
    (hread : sec.Readable) :
    ∃ s', (sectionSymbols file source sourceBase sec s).outcome = .ok s' ∧
      BatchedBy (rows ++ sectionRows file source sourceBase sec)
        (ss ++ statements
          (sectionSymbols file source sourceBase sec s).trace) s' := by
  rw [Chericat.sectionSymbols, sectionRows]
  split
  · exact ⟨s, rfl, by simpa using h⟩
  · next hother =>
      obtain ⟨symbols, hsymbols⟩ :=
        Option.ne_none_iff_exists'.mp (hread.2 hother)
      rw [hsymbols]
      have hloop := h.symbols file source sourceBase symbols.zipIdx
      rwa [List.zipIdx_map_fst] at hloop

theorem sectionLoop_cons {st : ElfState} {sec : ElfSection}
    {rest : List ElfSection} {name : Text} (hname : sec.name = some name) :
    Chericat.sectionLoop file source sourceBase st (sec :: rest) =
      Chericat.sectionSymbols file source sourceBase sec st.syms >>=
        fun syms =>
          let st' := st.next sec (captureSection source sourceBase sec name)
            syms
          if st'.seenDynsym && st'.seenSymtab then pure st'
          else Chericat.sectionLoop file source sourceBase st' rest := by
  rw [Chericat.sectionLoop, hname]
  rfl

/-- The section loop, from a state in which the given sections were read. -/
theorem BatchedBy.sectionLoop {read : List ElfSection} {ss : List Statement}
    {st : ElfState}
    (h : BatchedBy (read.flatMap (sectionRows file source sourceBase)) ss
      st.syms) (hseen : st.SeenIn read) {secs : List ElfSection}
    (hread : ∀ sec ∈ sectionsRead read secs, sec.Readable) :
    ∃ st', (sectionLoop file source sourceBase st secs).outcome = .ok st' ∧
      BatchedBy ((sectionsRead read secs).flatMap
          (sectionRows file source sourceBase))
        (ss ++ statements
          (sectionLoop file source sourceBase st secs).trace) st'.syms := by
  induction secs generalizing read ss st with
  | nil => exact ⟨st, rfl, by simpa [sectionsRead, Chericat.sectionLoop] using h⟩
  | cons sec rest ih =>
      have hsec : sec ∈ sectionsRead read (sec :: rest) := by
        have hprefix := prefix_sectionsRead (read ++ [sec]) rest
        rw [sectionsRead]
        split
        · simp
        · exact hprefix.subset (by simp)
      obtain ⟨hname, -⟩ := hread sec hsec
      obtain ⟨name, hname⟩ := Option.ne_none_iff_exists'.mp hname
      obtain ⟨syms, hok, hsyms⟩ := h.sectionSymbols (hread sec hsec)
      have hnext := hseen.next sec (captureSection source sourceBase sec name)
        syms
      rw [sectionLoop_cons hname, Run.outcome_bind_ok hok,
        Run.trace_bind_ok hok]
      dsimp only
      rw [hnext.both, sectionsRead]
      rw [sectionsRead] at hread
      split
      · refine ⟨_, rfl, ?_⟩
        simpa [ElfState.next] using hsyms
      · next hboth =>
          rw [if_neg hboth] at hread
          rw [statements_append, ← List.append_assoc]
          exact ih (by simpa [ElfState.next] using hsyms) hnext hread

end File

/-- A section loop that returns has been able to read the sections. -/
theorem readable_of_sectionLoop {file : ElfFile} {source : Text}
    {sourceBase : ULong} {st st' : ElfState} {read secs : List ElfSection}
    (hread : ∀ sec ∈ read, sec.Readable) (hseen : st.SeenIn read)
    (hok : (sectionLoop file source sourceBase st secs).outcome = .ok st') :
    ∀ sec ∈ sectionsRead read secs, sec.Readable := by
  induction secs generalizing read st with
  | nil => exact hread
  | cons sec rest ih =>
      rcases hname : sec.name with - | name
      · rw [sectionLoop, hname] at hok
        cases hok
      · rw [sectionLoop_cons hname] at hok
        obtain ⟨syms, hsyms, hok⟩ := Run.bind_eq_ok hok
        have hsec : sec.Readable := by
          constructor
          · rw [hname]
            exact Option.some_ne_none name
          · intro hother hnone
            rw [sectionSymbols, if_neg hother, hnone] at hsyms
            cases hsyms
        have hboth : ∀ s ∈ read ++ [sec], s.Readable :=
          List.forall_mem_append.2 ⟨hread, List.forall_mem_singleton.2 hsec⟩
        have hnext := hseen.next sec
          (captureSection source sourceBase sec name) syms
        dsimp only at hok
        rw [hnext.both] at hok
        rw [sectionsRead]
        split
        · exact hboth
        · next hmore =>
            rw [if_neg hmore] at hok
            exact ih hboth hnext hok

/-! ### The end of the section loop -/

/-- `free` takes the pointer, and before that the text at it can be read. -/
def Unset.Owned : Unset → Prop
  | .null => True
  | .text _ owned => owned = true
  | .stray => False

/-- Batches that hold the rows, and the list left unset when there are
none. -/
def SendsRows (rows : List SymInfo) (garbage : Unset) (ss : List Statement) :
    Prop :=
  ∃ (sent : List (Batch SymInfo)) (tail : List Statement),
    ss = sent.map .insertElfSym ++ tail ∧ sent.flatMap Batch.rows = rows ∧
    ∀ st ∈ tail, rows = [] ∧ ∃ values owned, garbage = .text values owned ∧
      st = .indeterminate elfSymHdr values

/-- The values pending at the end of the section loop. -/
theorem BatchedBy.finish {rows : List SymInfo} {ss : List Statement}
    {s : SymState} (h : BatchedBy rows ss s) (garbage : Unset) :
    ((finishSymbols garbage s.values).outcome = .ok ⟨⟩ ↔
        (rows = [] → garbage.Owned)) ∧
      SendsRows rows garbage
        (ss ++ statements (finishSymbols garbage s.values).trace) := by
  obtain ⟨sent, pending, rfl, hbatches⟩ := h
  by_cases hpending : pending = []
  · subst hpending
    have hall : sent.flatMap Batch.rows = rows := by
      rw [← hbatches.all, List.append_nil]
    rcases hvalues : s.values with - | vs
    · -- nothing has been assigned
      have hrows := hbatches.unset.1 hvalues
      rw [hrows] at hall ⊢
      simp only [true_imp_iff]
      rcases garbage with - | ⟨values, - | -⟩ | -
      · exact ⟨iff_of_true rfl trivial, sent, [], rfl, hall, nofun⟩
      · exact ⟨iff_of_false nofun nofun, sent, [.indeterminate elfSymHdr values],
          rfl, hall, fun st hst =>
            ⟨rfl, values, false, rfl, List.mem_singleton.1 hst⟩⟩
      · exact ⟨iff_of_true rfl rfl, sent, [.indeterminate elfSymHdr values],
          rfl, hall, fun st hst =>
            ⟨rfl, values, true, rfl, List.mem_singleton.1 hst⟩⟩
      · exact ⟨iff_of_false nofun id, sent, [], rfl, hall, nofun⟩
    · have hvs : vs = [] := by
        obtain ⟨values, count⟩ := s
        obtain rfl : values = .rows vs := hvalues
        rcases hbatches.pends with - | -
        rfl
      have hrows : rows ≠ [] := fun hrows =>
        SymValues.noConfusion (hvalues.symm.trans (hbatches.unset.2 hrows))
      subst hvs
      exact ⟨iff_of_true rfl fun hnil => absurd hnil hrows, sent, [], rfl,
        hall, nofun⟩
  · have hrows : rows ≠ [] := by
      rw [← hbatches.all]
      simp [hpending]
    rw [finishSymbols, hbatches.send hpending, hbatches.pends.values_eq hpending]
    refine ⟨iff_of_true rfl fun hnil => absurd hnil hrows,
      sent ++ [⟨pending, hpending⟩], [], ?_, ?_, nofun⟩
    · simp [freeSymbols]
    · simpa using hbatches.all

/-! ### The rows of a file -/

/-- The sections of a file that are read. -/
def ElfFile.sectionsRead (file : ElfFile) : List ElfSection :=
  Chericat.sectionsRead [] file.sections

/-- The symbols of a symbol table. -/
def ElfSection.table (sec : ElfSection) : List ElfSymbol :=
  if sec.shType = .other then [] else sec.symbols.getD []

/-- The symbols of some sections that have a name, in section and index
order. -/
def namedSymbols (secs : List ElfSection) : List (ElfSymbol × Text) :=
  secs.flatMap fun sec => sec.table.flatMap fun s =>
    (s.name.map (Prod.mk s)).toList

theorem mem_namedSymbols {secs : List ElfSection} {s : ElfSymbol}
    {symname : Text} : (s, symname) ∈ namedSymbols secs ↔
      ∃ sec ∈ secs, s ∈ sec.table ∧ s.name = some symname := by
  simp only [namedSymbols, List.mem_flatMap, Option.mem_toList,
    Option.map_eq_some_iff, Prod.mk.injEq]
  constructor
  · rintro ⟨sec, hsec, s', hs', n, hn, rfl, rfl⟩
    exact ⟨sec, hsec, hs', hn⟩
  · rintro ⟨sec, hsec, hs, hn⟩
    exact ⟨sec, hsec, s, hs, symname, hn, rfl, rfl⟩

/-- The rows of the sections are those of their named symbols. -/
theorem flatMap_sectionRows (file : ElfFile) (source : Text)
    (sourceBase : ULong) (secs : List ElfSection) :
    secs.flatMap (sectionRows file source sourceBase) =
      (namedSymbols secs).map fun p =>
        symRow file source sourceBase p.1 p.2 := by
  rw [namedSymbols, List.map_flatMap]
  apply List.flatMap_congr
  intro sec _
  rw [sectionRows, ElfSection.table, List.map_flatMap]
  split
  · rfl
  · apply List.flatMap_congr
    intro s _
    rw [namedRow]
    rcases s.name with - | n
    · rfl
    · rfl

theorem toNat_clearBit (v : ULong) : (v &&& ~~~(1 : ULong)).toNat =
    v.toNat / 2 * 2 := by
  have hshift : v &&& ~~~(1 : ULong) = (v >>> 1) <<< 1 := by
    ext i hi
    rw [BitVec.getElem_and, BitVec.getElem_not, BitVec.getElem_shiftLeft]
    rcases i with - | i
    · simp
    · simp [-BitVec.reduceNot, Nat.add_comm 1 i, BitVec.getLsbD_eq_getElem, hi]
  rw [hshift, BitVec.toNat_shiftLeft, BitVec.toNat_ushiftRight,
    Nat.shiftLeft_eq, Nat.shiftRight_eq_div_pow]
  omega

/-- Where a symbol of a file loaded at the base is in memory, without the bit
that marks a function. -/
def ElfSymbol.place (s : ElfSymbol) (sourceBase : ULong) : Nat :=
  (sourceBase.toNat + if s.stt = sttFunc then s.stValue.toNat / 2 * 2
    else s.stValue.toNat) % 2 ^ 64

theorem symRow_addr (file : ElfFile) (source : Text) (sourceBase : ULong)
    (s : ElfSymbol) (symname : Text) :
    (symRow file source sourceBase s symname).addr =
      hexText (s.place sourceBase) := by
  have hclear := toNat_clearBit s.stValue
  rw [symRow, ElfSymbol.offset, BitVec.toNat_add, ElfSymbol.place]
  split
  · rw [hclear]
  · rfl

/-- The row of a named symbol: the file's path, its name, value, section index,
type and binding, and its address in memory. -/
structure RecordsSymbol (file : ElfFile) (source : Text) (sourceBase : ULong)
    (named : ElfSymbol × Text) (r : SymInfo) : Prop where
  sourcePath : r.sourcePath = source
  symName : r.symName = named.2
  symOffset : r.symOffset = hexText named.1.stValue.toNat
  shndx : r.shndx = padLeft3 (stShndx named.1.stShndx)
  type : r.type = stType file.eMachine file.eiOsabi named.1.stt
  bind : r.bind = stBind named.1.stb
  addr : r.addr = hexText (named.1.place sourceBase)

theorem symRow_records (file : ElfFile) (source : Text) (sourceBase : ULong)
    (named : ElfSymbol × Text) : RecordsSymbol file source sourceBase named
      (symRow file source sourceBase named.1 named.2) :=
  ⟨rfl, rfl, rfl, rfl, rfl, rfl, symRow_addr _ _ _ _ _⟩

/-- Behind the header, the sections are read one after the other, and what is
left of the symbols is sent. -/
theorem getElfInfo_run {file : ElfFile} (hheader : file.hasHeader = true)
    (hnames : file.hasSectionNames = true) (source : Text)
    (sourceBase : ULong) :
    getElfInfo file source sourceBase =
      (Run.emit (.exec (.createTable elfSymTable)) : Scan PUnit) >>= fun _ =>
        sectionLoop file source sourceBase
            ⟨.zero, false, false, ⟨.indeterminate, 0⟩⟩ file.sections >>=
          fun st => finishSymbols file.pending st.syms.values >>= fun _ =>
            pure st.record := by
  simp [getElfInfo, hheader, hnames, sqlQueryExec]

/-- The section loop from its start, with what it has sent and what is
left. -/
theorem sectionLoop_start {file : ElfFile} (source : Text)
    (sourceBase : ULong) (hread : ∀ sec ∈ file.sectionsRead, sec.Readable) :
    ∃ st, (sectionLoop file source sourceBase
        ⟨.zero, false, false, ⟨.indeterminate, 0⟩⟩ file.sections).outcome =
          .ok st ∧
      BatchedBy ((namedSymbols file.sectionsRead).map fun p =>
          symRow file source sourceBase p.1 p.2)
        (statements (sectionLoop file source sourceBase
          ⟨.zero, false, false, ⟨.indeterminate, 0⟩⟩ file.sections).trace)
        st.syms := by
  have hstart : ElfState.SeenIn ⟨.zero, false, false, ⟨.indeterminate, 0⟩⟩ [] :=
    ⟨rfl, rfl⟩
  have hnone : BatchedBy
      ([].flatMap (sectionRows file source sourceBase)) []
      ⟨.indeterminate, 0⟩ := batchedBy_start
  rw [← flatMap_sectionRows]
  exact hnone.sectionLoop hstart hread

/-- Given a named symbol, `get_elf_info` inserts one row for each of the named
symbols up to the section at which both tables were seen, in order and in
batches that are never empty, and nothing else. -/
theorem getElfInfo_batches {file : ElfFile} {source : Text}
    {sourceBase : ULong} (hheader : file.hasHeader = true)
    (hnames : file.hasSectionNames = true)
    (hread : ∀ sec ∈ file.sectionsRead, sec.Readable)
    (hnamed : namedSymbols file.sectionsRead ≠ []) :
    ∃ (record : SpecialSections) (sent : List (Batch SymInfo)),
      (getElfInfo file source sourceBase).outcome = .ok record ∧
      statements (getElfInfo file source sourceBase).trace =
        .createTable elfSymTable :: sent.map .insertElfSym ∧
      List.Forall₂ (RecordsSymbol file source sourceBase)
        (namedSymbols file.sectionsRead) (sent.flatMap Batch.rows) ∧
      ∀ b ∈ sent, b.rows ≠ [] := by
  obtain ⟨st, hok, hbatched⟩ := sectionLoop_start source sourceBase hread
  obtain ⟨hfinish, sent, tail, hsent, hrows, htail⟩ :=
    hbatched.finish file.pending
  have hsome : (namedSymbols file.sectionsRead).map (fun p =>
      symRow file source sourceBase p.1 p.2) ≠ [] := by simpa using hnamed
  have hend := hfinish.2 fun hnil => absurd hnil hsome
  have hnil : tail = [] :=
    List.eq_nil_iff_forall_not_mem.2 fun s hs => hsome (htail s hs).1
  have hcreate : (Run.emit (.exec (.createTable elfSymTable)) :
      Scan PUnit).outcome = .ok ⟨⟩ := rfl
  rw [getElfInfo_run hheader hnames, Run.outcome_bind_ok hcreate,
    Run.outcome_bind_ok hok, Run.outcome_bind_ok hend, Run.trace_bind_ok hcreate,
    Run.trace_bind_ok hok, Run.trace_bind_ok hend]
  refine ⟨st.record, sent, rfl, ?_, ?_, fun b _ => b.nonempty⟩
  · simpa [hnil] using hsent
  · rw [hrows, List.forall₂_map_right_iff]
    exact List.forall₂_same.2 fun p _ => symRow_records file source sourceBase p

/-- A file whose first symbol has no name, the second one is a function. -/
def smallElf : ElfFile where
  hasHeader := true
  eMachine := 183
  eiOsabi := elfOsabiFreebsd
  hasSectionNames := true
  sections :=
    [⟨some ".dynsym".toList, .dynsym, 0x200, 48,
      some [⟨none, 0, 0, 0⟩, ⟨some "main".toList, 0x1001, 18, 1⟩], .zero⟩]
  pending := .null

/-- A file with a symbol in each of its two tables, and a section behind
them. -/
def twoTables : ElfFile :=
  { smallElf with
    sections :=
      [⟨some ".dynsym".toList, .dynsym, 0x200, 48,
          some [⟨some "start".toList, 0x1001, 18, 1⟩,
            ⟨none, 0, 0, 0⟩, ⟨some "environ".toList, 0x3000, 17, 5⟩], .zero⟩,
        ⟨some ".symtab".toList, .symtab, 0x400, 24,
          some [⟨some "main".toList, 0x1101, 18, 1⟩], .zero⟩,
        ⟨some ".comment".toList, .other, 0, 0, none, .zero⟩] }

/-- The rows of two tables go in two batches: the symbol at index 0 of a table
is sent at once, with what was left of the table before. -/
theorem twoTables_batches :
    (∃ (record : SpecialSections) (sent : List (Batch SymInfo)),
      (getElfInfo twoTables "/bin/a".toList 0x10000).outcome = .ok record ∧
      statements (getElfInfo twoTables "/bin/a".toList 0x10000).trace =
        .createTable elfSymTable :: sent.map .insertElfSym ∧
      List.Forall₂ (RecordsSymbol twoTables "/bin/a".toList 0x10000)
        (namedSymbols twoTables.sectionsRead) (sent.flatMap Batch.rows) ∧
      ∀ b ∈ sent, b.rows ≠ []) ∧
    (namedSymbols twoTables.sectionsRead).map Prod.snd =
      ["start".toList, "environ".toList, "main".toList] ∧
    (statements (getElfInfo twoTables "/bin/a".toList 0x10000).trace).length =
      3 := by
  refine ⟨getElfInfo_batches rfl rfl ?_ (by decide), by decide, by decide⟩
  intro sec hsec
  have hread : sec ∈ twoTables.sections.take 2 := by
    revert hsec
    revert sec
    decide
  simp only [twoTables, List.take_succ_cons, List.take_zero, List.mem_cons,
    List.not_mem_nil, or_false] at hread
  rcases hread with rfl | rfl
  · exact ⟨by simp, by simp⟩
  · exact ⟨by simp, by simp⟩

end Chericat
