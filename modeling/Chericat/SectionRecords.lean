import Mathlib.Data.List.Forall2
import Chericat.SymbolBatches
import Chericat.MemScan

/-!
The section records of the parsed files.  `get_elf_info` stores a fresh local
for every section it reads, so the record that stays is that of the last one,
and what this section did not assign is uninitialised.
-/

namespace Chericat

/-! ### The files that were parsed -/

/-- The record came out of `get_elf_info` for this entry's file. -/
def ParsedInto (t : Target) (kivp : KinfoVmentry) (r : SpecialSections) :
    Prop :=
  ∃ file, t.elf kivp.kvePath = some file ∧
    (getElfInfo file kivp.kvePath kivp.kveStart).outcome = .ok r

/-- There is one record for each entry seen; the paths of these are distinct
and not empty. -/
structure FilesParsed (t : Target) (st : ScanState) : Prop where
  records : List.Forall₂ (ParsedInto t) st.seen st.ssect
  named : ∀ s ∈ st.seen, s.kvePath ≠ []
  distinct : (st.seen.map KinfoVmentry.kvePath).Nodup

theorem filesParsed_start (t : Target) : FilesParsed t .start :=
  ⟨.nil, nofun, List.nodup_nil⟩

theorem FilesParsed.parseFile {t : Target} {st st' : ScanState}
    (hst : FilesParsed t st) {kivp : KinfoVmentry}
    (h : (parseFile t st kivp).outcome = .ok st') : FilesParsed t st' := by
  rcases parseFile_ok h with hpath | ⟨hpath, hseen⟩ |
    ⟨hpath, hnew, hfile, hrecord⟩
  · exact hst
  · exact hst
  · have hparsed : ParsedInto t kivp _ := ⟨_, hfile, hrecord⟩
    refine ⟨List.rel_append hst.records (.cons hparsed .nil), ?_, ?_⟩
    · intro s hs
      rcases List.mem_append.mp hs with hs | hs
      · exact hst.named s hs
      · cases List.mem_singleton.mp hs
        exact hpath
    · rw [List.map_append, List.nodup_append]
      refine ⟨hst.distinct, List.nodup_singleton _, ?_⟩
      intro a ha b hb heq
      obtain ⟨s, hs, rfl⟩ := List.mem_map.mp ha
      rw [List.map_singleton, List.mem_singleton] at hb
      apply hnew
      rw [List.any_eq_true]
      exact ⟨s, hs, decide_eq_true (heq.trans hb)⟩

/-- The entries whose files are parsed, when `seen` were before. -/
def addSeen (seen : List KinfoVmentry) (kivp : KinfoVmentry) :
    List KinfoVmentry :=
  if kivp.kvePath = [] then seen
  else if seen.any (·.kvePath = kivp.kvePath) then seen
  else seen ++ [kivp]

/-- The entries of a map whose files are parsed. -/
def seenEntries (map : List KinfoVmentry) : List KinfoVmentry :=
  map.foldl addSeen []

theorem seenEntries_concat (map : List KinfoVmentry) (kivp : KinfoVmentry) :
    seenEntries (map ++ [kivp]) = addSeen (seenEntries map) kivp := by
  rw [seenEntries, List.foldl_append]
  rfl

theorem parseFile_seen {t : Target} {st st' : ScanState} {kivp : KinfoVmentry}
    (h : (parseFile t st kivp).outcome = .ok st') :
    st'.seen = addSeen st.seen kivp := by
  rw [addSeen]
  rcases parseFile_ok h with hpath | ⟨hpath, hseen⟩ | ⟨hpath, hnew, _, _⟩
  · rw [if_pos hpath]
  · rw [if_neg hpath, if_pos hseen]
  · rw [if_neg hpath, if_neg hnew]

/-- The entries seen, and what their files left. -/
theorem loop_filesParsed {t : Target} {comparts : List CompartData}
    {entries : List (KinfoVmentry × Nat)} {st : ScanState}
    (h : (Run.loop (scanEntry t comparts) .start entries).outcome = .ok st) :
    FilesParsed t st ∧ st.seen = seenEntries (entries.map Prod.fst) := by
  refine Run.loop_induction (P := fun done _ st => FilesParsed t st ∧
    st.seen = seenEntries (done.map Prod.fst)) h ⟨filesParsed_start t, rfl⟩ ?_
  rintro done tr st entry st' ⟨hst, hseen⟩ hstep
  obtain ⟨st₁, hparse, _, _, rfl⟩ := scanEntry_ok hstep
  obtain ⟨hrecords, hnamed, hdistinct⟩ := hst.parseFile hparse
  refine ⟨⟨hrecords, hnamed, hdistinct⟩, ?_⟩
  rw [List.map_append, List.map_singleton, seenEntries_concat, ← hseen,
    ← parseFile_seen hparse]

/-! ### The record that stays -/

/-- The record of the last section that was read, or what `calloc` left. -/
def storedRecord (source : Text) (sourceBase : ULong) :
    Option ElfSection → SpecialSections
  | none => .zero
  | some sec => captureSection source sourceBase sec (sec.name.getD [])

theorem sectionLoop_record {file : ElfFile} {source : Text}
    {sourceBase : ULong} {read secs : List ElfSection} {st st' : ElfState}
    (h : (sectionLoop file source sourceBase st secs).outcome = .ok st')
    (hrecord : st.record = storedRecord source sourceBase read.getLast?)
    (hseen : st.SeenIn read) :
    st'.record =
      storedRecord source sourceBase (sectionsRead read secs).getLast? := by
  induction secs generalizing read st with
  | nil =>
      cases h
      exact hrecord
  | cons sec rest ih =>
      rcases hname : sec.name with - | name
      · simp [sectionLoop, hname] at h
      · rw [sectionLoop_cons hname] at h
        obtain ⟨syms, _, h⟩ := Run.bind_eq_ok h
        have hnext := hseen.next sec
          (captureSection source sourceBase sec name) syms
        have hstored : captureSection source sourceBase sec name =
            storedRecord source sourceBase (read ++ [sec]).getLast? := by
          simp [storedRecord, hname]
        dsimp only at h
        rw [hnext.both] at h
        rw [sectionsRead]
        split at h
        · next hboth =>
            cases h
            rw [if_pos hboth]
            exact hstored
        · next hboth =>
            rw [if_neg hboth]
            exact ih h hstored hnext

/-- What `get_elf_info` stores for a file it can begin to read. -/
theorem getElfInfo_record {file : ElfFile} {source : Text}
    {sourceBase : ULong} {r : SpecialSections}
    (hheader : file.hasHeader = true) (hnames : file.hasSectionNames = true)
    (h : (getElfInfo file source sourceBase).outcome = .ok r) :
    r = storedRecord source sourceBase file.sectionsRead.getLast? := by
  rw [getElfInfo] at h
  obtain ⟨_, _, h⟩ := Run.bind_eq_ok h
  simp only [hheader, hnames, Bool.not_true, Bool.false_eq_true,
    ↓reduceIte] at h
  obtain ⟨st, hloop, h⟩ := Run.bind_eq_ok h
  obtain ⟨_, _, h⟩ := Run.bind_eq_ok h
  cases h
  have hstart : ElfState.SeenIn ⟨.zero, false, false, ⟨.indeterminate, 0⟩⟩ [] :=
    ⟨rfl, rfl⟩
  exact sectionLoop_record hloop rfl hstart

/-- The record of the file that is parsed for an entry. -/
def fileRecord (t : Target) (s : KinfoVmentry) : SpecialSections :=
  match t.elf s.kvePath with
  | none => .zero
  | some file =>
      if file.hasHeader && file.hasSectionNames then
        storedRecord s.kvePath s.kveStart file.sectionsRead.getLast?
      else .zero

theorem ParsedInto.eq_fileRecord {t : Target} {s : KinfoVmentry}
    {r : SpecialSections} (h : ParsedInto t s r) : r = fileRecord t s := by
  obtain ⟨file, hfile, h⟩ := h
  simp only [fileRecord, hfile]
  by_cases hread : file.hasHeader = true ∧ file.hasSectionNames = true
  · rw [if_pos (Bool.and_eq_true_iff.mpr hread)]
    exact getElfInfo_record hread.1 hread.2 h
  · rw [if_neg (by simpa using hread)]
    rw [getElfInfo] at h
    obtain ⟨_, _, h⟩ := Run.bind_eq_ok h
    rcases hheader : file.hasHeader with - | -
    · rw [hheader] at h
      cases h
      rfl
    · rcases hnames : file.hasSectionNames with - | -
      · rw [hheader, hnames] at h
        cases h
        rfl
      · exact absurd ⟨hheader, hnames⟩ hread

theorem FilesParsed.ssect_eq {t : Target} {st : ScanState}
    (h : FilesParsed t st) : st.ssect = st.seen.map (fileRecord t) := by
  have hrecords := h.records
  generalize st.seen = seen at hrecords
  generalize st.ssect = ssect at hrecords
  induction hrecords with
  | nil => rfl
  | cons hhead _ ih => rw [List.map_cons, ← hhead.eq_fileRecord, ih]

/-! ### Right records -/

abbrev pltName : Text := ".plt".toList

abbrev gotName : Text := ".got".toList

/-- Address and size are those of a section of the file with this name, or `0`
when there is none. -/
def ElfFile.HasSection (file : ElfFile) (sourceBase : ULong) (name : Text)
    (addr size : ULong) : Prop :=
  (∃ sec ∈ file.sections, sec.name = some name ∧
      addr = sourceBase + sec.shAddr ∧ size = sec.shSize) ∨
    (∀ sec ∈ file.sections, sec.name ≠ some name) ∧ addr = 0 ∧ size = 0

instance (file : ElfFile) (sourceBase : ULong) (name : Text)
    (addr size : ULong) :
    Decidable (file.HasSection sourceBase name addr size) :=
  inferInstanceAs (Decidable (_ ∨ _))

/-- The record holds the `.plt` and the `.got` of the file and its path. -/
structure SpecialSections.Describes (r : SpecialSections) (file : ElfFile)
    (source : Text) (sourceBase : ULong) : Prop where
  plt : file.HasSection sourceBase pltName r.pltAddr r.pltSize
  got : file.HasSection sourceBase gotName r.gotAddr r.gotSize
  path : r.mmapPath = some source

/-- The file with other values in the uninitialised records. -/
def ElfFile.withLocals (file : ElfFile) (locals : SpecialSections) :
    ElfFile :=
  { file with
    sections := file.sections.map fun sec => { sec with locals := locals } }

/-- What is stored does not depend on the uninitialised records. -/
def Determined (file : ElfFile) (source : Text) (sourceBase : ULong) : Prop :=
  ∀ locals, (getElfInfo (file.withLocals locals) source sourceBase).outcome =
    (getElfInfo file source sourceBase).outcome

/-- The last section that is read has the name, or its uninitialised record
holds the right values by chance; this for both names. -/
def ElfFile.LastRight (file : ElfFile) (sourceBase : ULong) : Prop :=
  ∃ sec, file.sectionsRead.getLast? = some sec ∧
    (sec.name = some pltName ∨ file.HasSection sourceBase pltName
      sec.locals.pltAddr sec.locals.pltSize) ∧
    (sec.name = some gotName ∨ file.HasSection sourceBase gotName
      sec.locals.gotAddr sec.locals.gotSize)

theorem mem_sections_of_getLast? {file : ElfFile} {sec : ElfSection}
    (h : file.sectionsRead.getLast? = some sec) : sec ∈ file.sections :=
  (sectionsRead_isPrefix [] file.sections).subset (List.mem_of_getLast? h)

section Record

variable {file : ElfFile} {source : Text} {sourceBase : ULong}
  {sec : ElfSection}

/-- The fields of the `.plt` after one iteration. -/
theorem captureSection_plt (source : Text) (sourceBase : ULong)
    (sec : ElfSection) (name : Text) :
    ((captureSection source sourceBase sec name).pltAddr,
        (captureSection source sourceBase sec name).pltSize) =
      if name = pltName then (sec.shAddr + sourceBase, sec.shSize)
      else (sec.locals.pltAddr, sec.locals.pltSize) := by
  simp only [captureSection, pltName, apply_ite SpecialSections.pltAddr,
    apply_ite SpecialSections.pltSize, ite_self]
  by_cases h : name = ".plt".toList
  · rw [if_pos h, if_pos h, if_pos h]
  · rw [if_neg h, if_neg h, if_neg h]

theorem captureSection_got (source : Text) (sourceBase : ULong)
    (sec : ElfSection) (name : Text) :
    ((captureSection source sourceBase sec name).gotAddr,
        (captureSection source sourceBase sec name).gotSize) =
      if name = gotName then (sec.shAddr + sourceBase, sec.shSize)
      else (sec.locals.gotAddr, sec.locals.gotSize) := by
  simp only [captureSection, gotName, apply_ite SpecialSections.gotAddr,
    apply_ite SpecialSections.gotSize, ite_self]
  by_cases h : name = ".got".toList
  · rw [if_pos h, if_pos h, if_pos h]
  · rw [if_neg h, if_neg h, if_neg h]

/-- A stored pair of fields is right when the section has the name, or when
what it did not assign is. -/
theorem hasSection_iff (hsec : sec ∈ file.sections) {wanted : Text}
    (hwanted : wanted ≠ []) {addr size addr' size' : ULong}
    (h : (addr, size) = if sec.name.getD [] = wanted then
      (sec.shAddr + sourceBase, sec.shSize) else (addr', size')) :
    file.HasSection sourceBase wanted addr size ↔
      sec.name = some wanted ∨ file.HasSection sourceBase wanted addr' size' := by
  have hname : sec.name.getD [] = wanted ↔ sec.name = some wanted := by
    rcases sec.name with - | name
    · simpa using hwanted.symm
    · simp
  by_cases hmatch : sec.name = some wanted
  · rw [if_pos (hname.2 hmatch), Prod.mk.injEq] at h
    refine iff_of_true (Or.inl ⟨sec, hsec, hmatch, ?_, h.2⟩) (Or.inl hmatch)
    rw [h.1, BitVec.add_comm]
  · rw [if_neg (hname.not.2 hmatch), Prod.mk.injEq] at h
    rw [h.1, h.2, or_iff_right hmatch]

theorem storedRecord_describes_iff :
    (storedRecord source sourceBase file.sectionsRead.getLast?).Describes file
      source sourceBase ↔ file.LastRight sourceBase := by
  rcases hlast : file.sectionsRead.getLast? with - | sec
  · constructor
    · rintro ⟨_, _, hpath⟩
      simp [storedRecord, SpecialSections.zero] at hpath
    · rintro ⟨sec, hsec, _⟩
      simp [hlast] at hsec
  · have hmem := mem_sections_of_getLast? hlast
    have hplt := hasSection_iff hmem (by decide)
      (captureSection_plt source sourceBase sec (sec.name.getD []))
    have hgot := hasSection_iff hmem (by decide)
      (captureSection_got source sourceBase sec (sec.name.getD []))
    constructor
    · rintro ⟨hp, hg, _⟩
      exact ⟨sec, hlast, hplt.1 hp, hgot.1 hg⟩
    · rintro ⟨sec', hsec', hp, hg⟩
      cases hlast.symm.trans hsec'
      exact ⟨hplt.2 hp, hgot.2 hg, rfl⟩

/-! ### Uninitialised records -/

theorem sectionsRead_map {f : ElfSection → ElfSection}
    (hf : ∀ sec, (f sec).shType = sec.shType) (read secs : List ElfSection) :
    sectionsRead (read.map f) (secs.map f) = (sectionsRead read secs).map f := by
  induction secs generalizing read with
  | nil => rfl
  | cons sec rest ih =>
      have hboth : bothSeen (read.map f ++ [f sec]) = bothSeen (read ++ [sec]) := by
        simp [bothSeen, hf, Function.comp_def]
      rw [List.map_cons, sectionsRead, sectionsRead, hboth]
      split
      · simp
      · have htail := ih (read ++ [sec])
        rwa [List.map_append, List.map_singleton] at htail

theorem getLast?_withLocals (file : ElfFile) (locals : SpecialSections) :
    (file.withLocals locals).sectionsRead.getLast? =
      file.sectionsRead.getLast?.map fun sec =>
        { sec with locals := locals } := by
  have hmap := sectionsRead_map
    (f := fun sec => { sec with locals := locals }) (fun _ => rfl) []
    file.sections
  rw [ElfFile.sectionsRead, ElfFile.sectionsRead, ElfFile.withLocals]
  exact (congrArg List.getLast? hmap).trans List.getLast?_map

/-- No record that holds the path is determined by the file: the last section
that is read has at most one of the two names. -/
theorem not_determined {r : SpecialSections}
    (hheader : file.hasHeader = true) (hnames : file.hasSectionNames = true)
    (h : (getElfInfo file source sourceBase).outcome = .ok r)
    (hpath : r.mmapPath = some source) :
    ¬ Determined file source sourceBase := by
  intro hdetermined
  have hr := getElfInfo_record hheader hnames h
  rcases hlast : file.sectionsRead.getLast? with - | sec
  · rw [hr, hlast] at hpath
    simp [storedRecord, SpecialSections.zero] at hpath
  · -- what is stored for another filling of the uninitialised record
    have hother (locals : SpecialSections) :
        r = captureSection source sourceBase { sec with locals := locals }
          (sec.name.getD []) := by
      have hsame := @getElfInfo_record (file.withLocals locals) _ _ _ hheader
        hnames ((hdetermined locals).trans h)
      rwa [getLast?_withLocals, hlast] at hsame
    by_cases hplt : sec.name.getD [] = pltName
    · have hgot : sec.name.getD [] ≠ gotName := by
        rw [hplt]
        decide
      have hfields := captureSection_got source sourceBase
        { sec with locals := { sec.locals with gotAddr := r.gotAddr + 1 } }
        (sec.name.getD [])
      rw [← hother, if_neg hgot, Prod.mk.injEq] at hfields
      exact absurd hfields.1 (by bv_omega)
    · have hfields := captureSection_plt source sourceBase
        { sec with locals := { sec.locals with pltAddr := r.pltAddr + 1 } }
        (sec.name.getD [])
      rw [← hother, if_neg hplt, Prod.mk.injEq] at hfields
      exact absurd hfields.1 (by bv_omega)

end Record

/-- The record of every parsed file, in every state of the block loop, holds
its sections exactly when the last section read is the right one or the
uninitialised record holds the right values by chance; and no record that does
is determined by the file. -/
theorem sectionRecords_iff {t : Target} {comparts : List CompartData}
    {entries : List (KinfoVmentry × Nat)} {st : ScanState}
    (h : (Run.loop (scanEntry t comparts) .start entries).outcome = .ok st) :
    st.ssect.length = st.seen.length ∧
      ∀ (k : Nat) (kivp : KinfoVmentry) (r : SpecialSections) (file : ElfFile),
        st.seen[k]? = some kivp → st.ssect[k]? = some r →
        t.elf kivp.kvePath = some file → file.hasHeader = true →
        file.hasSectionNames = true →
        (r.Describes file kivp.kvePath kivp.kveStart ↔
            file.LastRight kivp.kveStart) ∧
          ¬ (r.Describes file kivp.kvePath kivp.kveStart ∧
            Determined file kivp.kvePath kivp.kveStart) := by
  have hparsed := (loop_filesParsed h).1
  refine ⟨hparsed.records.length_eq.symm, ?_⟩
  intro k kivp r file hkivp hr hfile hheader hnames
  obtain ⟨hk, rfl⟩ := List.getElem?_eq_some_iff.mp hkivp
  obtain ⟨hk', rfl⟩ := List.getElem?_eq_some_iff.mp hr
  obtain ⟨file', hfile', hinfo⟩ := hparsed.records.get hk hk'
  simp only [List.get_eq_getElem] at hfile' hinfo
  cases hfile.symm.trans hfile'
  constructor
  · rw [getElfInfo_record hheader hnames hinfo]
    exact storedRecord_describes_iff
  · rintro ⟨hright, hdetermined⟩
    exact not_determined hheader hnames hinfo hright.path hdetermined

/-! ### A file with two sections -/

/-- `.plt`, and then `.got` with the given values in its uninitialised
record. -/
def twoSections (locals : SpecialSections) : ElfFile where
  hasHeader := true
  eMachine := 183
  eiOsabi := elfOsabiFreebsd
  hasSectionNames := true
  sections :=
    [⟨some pltName, .other, 0x1000, 0x40, none, .zero⟩,
      ⟨some gotName, .other, 0x2000, 0x80, none, locals⟩]
  pending := .null

/-- The only block of the file. -/
def libBlock : KinfoVmentry :=
  { KinfoVmentry.sample 0x40000 0x50000 with
    kvePath := "/lib/liba.so".toList
    kveFlags := 0 }

/-- A process all of whose named blocks map the given file. -/
def Target.withElf (map : List KinfoVmentry) (file : ElfFile) : Target :=
  { Target.sample map fun _ =>
      ⟨fun _ => none, fun _ => ⟨false, ⟨0, [], 0, 0, none⟩⟩⟩ with
    elf := fun _ => some file }

/-- The record `get_elf_info` stores for the file. -/
def libRecord (locals : SpecialSections) : SpecialSections :=
  ⟨locals.pltAddr, locals.pltSize, 0x42000, 0x80, some libBlock.kvePath⟩

/-- The state after the only block. -/
def libState (locals : SpecialSections) : ScanState where
  seen := [libBlock]
  ssect := [libRecord locals]
  values :=
    [blockEntry (.withElf [libBlock] (twoSections locals)) []
      ⟨[libBlock], [libRecord locals], []⟩ libBlock]

/-- The `.got` is read last, so that the `.plt` of the record is never
assigned. -/
theorem plt_not_recorded :
    (Run.loop (scanEntry (.withElf [libBlock] (twoSections .zero)) [])
        .start [(libBlock, 0)]).outcome = .ok (libState .zero) ∧
      ∀ r ∈ (libState .zero).ssect,
        ¬ r.Describes (twoSections .zero) libBlock.kvePath
          libBlock.kveStart := by
  refine ⟨rfl, ?_⟩
  intro r hr hdescribes
  cases List.mem_singleton.mp hr
  have hplt := hdescribes.plt
  revert hplt
  decide

/-- An uninitialised record that holds the `.plt` already. -/
def leftover : SpecialSections := ⟨0x41000, 0x40, 0, 0, none⟩

/-- With such a record left over, what is stored is right by chance. -/
theorem plt_recorded_by_chance :
    ∃ r ∈ (libState leftover).ssect,
      r.Describes (twoSections leftover) libBlock.kvePath
        libBlock.kveStart ∧
      ¬ Determined (twoSections leftover) libBlock.kvePath
        libBlock.kveStart := by
  have hloop : (Run.loop
      (scanEntry (.withElf [libBlock] (twoSections leftover)) [])
      .start [(libBlock, 0)]).outcome = .ok (libState leftover) := rfl
  have hiff := (sectionRecords_iff hloop).2 0 libBlock _
    (twoSections leftover) rfl rfl rfl rfl rfl
  have hright : (twoSections leftover).LastRight libBlock.kveStart :=
    ⟨_, rfl, Or.inr (by decide), Or.inl rfl⟩
  have hdescribes := hiff.1.2 hright
  exact ⟨_, List.mem_singleton_self _, hdescribes,
    fun hdetermined => hiff.2 ⟨hdescribes, hdetermined⟩⟩

end Chericat
