import Chericat.ScanTexts
import Chericat.SectionLabels

/-!
The section columns of `vm`.  The final `UPDATE` looks for rows by the plain path
of the parsed file, and a block that got a suffix is not stored under it.
-/

namespace Chericat

open Numeral

/-! ### What the updates leave -/

/-- The four section columns. -/
abbrev Columns := Option Text × Option Text × Option Text × Option Text

def VmInfo.columns (v : VmInfo) : Columns :=
  (v.pltAddr, v.pltSize, v.gotAddr, v.gotSize)

/-- The columns the `UPDATE` of a record sets. -/
def SpecialSections.columns (r : SpecialSections) : Columns :=
  (some (hexText r.pltAddr.toNat), some (hexText r.pltSize.toNat),
    some (hexText r.gotAddr.toNat), some (hexText r.gotSize.toNat))

/-- The last record printed with the given path. -/
def namedRecord (ssect : List SpecialSections) (path : Text) :
    Option SpecialSections :=
  ssect.reverse.find? fun r => (sectionUpdate r).mmapPath = path

theorem applyUpdates_concat (ssect : List SpecialSections)
    (r : SpecialSections) (v : VmInfo) :
    applyUpdates (ssect ++ [r]) v =
      (sectionUpdate r).apply (applyUpdates ssect v) := by
  simp [applyUpdates]

/-- A row has the columns of the last record with its name. -/
theorem columns_applyUpdates (ssect : List SpecialSections) (v : VmInfo) :
    (applyUpdates ssect v).columns =
      match namedRecord ssect v.mmapPath with
      | some r => r.columns
      | none => v.columns := by
  induction ssect using List.reverseRecOn with
  | nil => rfl
  | append_singleton ssect r ih =>
      have hname : (applyUpdates ssect v).mmapPath = v.mmapPath :=
        congrArg VmEntry.mmapPath (toVmEntry_applyUpdates ssect v)
      rw [applyUpdates_concat, namedRecord, List.reverse_append,
        List.reverse_singleton, List.singleton_append, List.find?_cons,
        SectionUpdate.apply, hname]
      by_cases h : v.mmapPath = (sectionUpdate r).mmapPath
      · rw [if_pos h]
        simp [h, sectionUpdate, VmInfo.columns, SpecialSections.columns]
      · rw [if_neg h]
        simpa [Ne.symm h, namedRecord] using ih

/-! ### Rows of a parsed library -/

/-- The record holds the sections of a file loaded at this address. -/
structure SpecialSections.HoldsSections (r : SpecialSections) (file : ElfFile)
    (sourceBase : ULong) : Prop where
  plt : file.HasSection sourceBase pltName r.pltAddr r.pltSize
  got : file.HasSection sourceBase gotName r.gotAddr r.gotSize

/-- The columns describe a range inside the block. -/
def DescribesInside (kivp : KinfoVmentry) (addr size : Option Text) : Prop :=
  ∃ a n : ULong, addr = some (hexText a.toNat) ∧
    size = some (hexText n.toNat) ∧ kivp.kveStart ≤ a ∧
      a.toNat + n.toNat ≤ kivp.kveEnd.toNat

/-- The row of a block of the library whose first entry is `s`: it holds the
library's sections, and a suffix goes with a range inside the block. -/
structure RowFollows (kivp s : KinfoVmentry) (file : ElfFile) (plt got : Bool)
    (v : VmInfo) : Prop where
  columns : ∃ r : SpecialSections, r.HoldsSections file s.kveStart ∧
    v.columns = r.columns
  plt : plt = true → DescribesInside kivp v.pltAddr v.pltSize
  got : got = true → DescribesInside kivp v.gotAddr v.gotSize

/-- Address and size lie inside the block. -/
def RangeWithin (kivp : KinfoVmentry) (addr size : ULong) : Prop :=
  kivp.kveStart ≤ addr ∧ addr.toNat + size.toNat ≤ kivp.kveEnd.toNat

theorem describesInside_iff (kivp : KinfoVmentry) (addr size : ULong) :
    DescribesInside kivp (some (hexText addr.toNat))
        (some (hexText size.toNat)) ↔ RangeWithin kivp addr size := by
  constructor
  · rintro ⟨a, n, ha, hn, hin⟩
    rw [Option.some.injEq, hexText_eq_iff] at ha hn
    subst ha hn
    exact hin
  · intro hin
    exact ⟨addr, size, rfl, rfl, hin⟩

/-- A record from which the row gets what it should hold. -/
structure SpecialSections.Serves (r : SpecialSections) (kivp s : KinfoVmentry)
    (file : ElfFile) (plt got : Bool) : Prop where
  sections : r.HoldsSections file s.kveStart
  plt : plt = true → RangeWithin kivp r.pltAddr r.pltSize
  got : got = true → RangeWithin kivp r.gotAddr r.gotSize

theorem SpecialSections.columns_inj {r r' : SpecialSections}
    (h : r.columns = r'.columns) :
    r.pltAddr = r'.pltAddr ∧ r.pltSize = r'.pltSize ∧
      r.gotAddr = r'.gotAddr ∧ r.gotSize = r'.gotSize := by
  simpa only [columns, Prod.mk.injEq, Option.some.injEq, hexText_eq_iff] using h

/-- A row that has the columns of a record follows the library exactly when the
record serves it. -/
theorem rowFollows_iff_serves {kivp s : KinfoVmentry} {file : ElfFile}
    {plt got : Bool} {v : VmInfo} {r : SpecialSections}
    (h : v.columns = r.columns) :
    RowFollows kivp s file plt got v ↔ r.Serves kivp s file plt got := by
  have hfields := h
  simp only [VmInfo.columns, SpecialSections.columns, Prod.mk.injEq] at hfields
  obtain ⟨hpa, hps, hga, hgs⟩ := hfields
  have hplt : DescribesInside kivp v.pltAddr v.pltSize ↔
      RangeWithin kivp r.pltAddr r.pltSize := by
    rw [hpa, hps, describesInside_iff]
  have hgot : DescribesInside kivp v.gotAddr v.gotSize ↔
      RangeWithin kivp r.gotAddr r.gotSize := by
    rw [hga, hgs, describesInside_iff]
  constructor
  · rintro ⟨⟨r', hsections, hr'⟩, hp, hg⟩
    obtain ⟨ha, hs, ha', hs'⟩ := SpecialSections.columns_inj (h.symm.trans hr')
    refine ⟨⟨?_, ?_⟩, fun hl => hplt.1 (hp hl), fun hl => hgot.1 (hg hl)⟩
    · rw [ha, hs]
      exact hsections.plt
    · rw [ha', hs']
      exact hsections.got
  · rintro ⟨hsections, hp, hg⟩
    exact ⟨⟨r, hsections, h⟩, fun hl => hplt.2 (hp hl),
      fun hl => hgot.2 (hg hl)⟩

/-- One row after the updates. -/
theorem rowFollows_iff (ssect : List SpecialSections) (kivp s : KinfoVmentry)
    (file : ElfFile) (plt got : Bool) (e : VmEntry) :
    RowFollows kivp s file plt got (applyUpdates ssect e.inserted) ↔
      ∃ r, namedRecord ssect e.mmapPath = some r ∧
        r.Serves kivp s file plt got := by
  have hcolumns := columns_applyUpdates ssect e.inserted
  change _ = (match namedRecord ssect e.mmapPath with
    | some r => r.columns
    | none => (none, none, none, none)) at hcolumns
  rcases hnamed : namedRecord ssect e.mmapPath with - | r
  · rw [hnamed] at hcolumns
    constructor
    · rintro ⟨⟨r, _, hr⟩, _, _⟩
      simp [hr, SpecialSections.columns] at hcolumns
    · rintro ⟨r, hr, _⟩
      cases hr
  · rw [hnamed] at hcolumns
    simp only [rowFollows_iff_serves hcolumns, Option.some.injEq,
      exists_eq_left']

/-! ### The names of the rows -/

/-- The name of a block, from the map up to it. -/
def blockName (t : Target) (before : List KinfoVmentry) (kivp : KinfoVmentry) :
    VmName :=
  let seen := seenEntries (before ++ [kivp])
  vmName t ⟨seen, seen.map (fileRecord t), []⟩ kivp

theorem scanEntry_values {t : Target} {comparts : List CompartData}
    {st st' : ScanState} {entry : KinfoVmentry × Nat}
    (h : (scanEntry t comparts st entry).outcome = .ok st') :
    st'.values = st.values ++ [blockEntry t comparts st' entry.1] := by
  obtain ⟨st₁, _, _, _, rfl⟩ := scanEntry_ok h
  rfl

theorem loop_values {t : Target} {comparts : List CompartData}
    {entries : List (KinfoVmentry × Nat)} {st st' : ScanState}
    (h : (Run.loop (scanEntry t comparts) st entries).outcome = .ok st') :
    ∃ values, st'.values = st.values ++ values ∧
      values.length = entries.length := by
  refine Run.loop_induction (P := fun done _ st' => ∃ values,
    st'.values = st.values ++ values ∧ values.length = done.length) h
    ⟨[], by simp⟩ ?_
  rintro done _ st₁ entry st₂ ⟨values, hvalues, hlength⟩ hstep
  refine ⟨values ++ [blockEntry t comparts st₂ entry.1], ?_, ?_⟩
  · rw [scanEntry_values hstep, hvalues, List.append_assoc]
  · simp [hlength]

/-- Each block's row has the name that the map up to it gives. -/
theorem values_blockName {t : Target} {comparts : List CompartData}
    {map before after : List KinfoVmentry} {kivp : KinfoVmentry}
    (hsplit : map = before ++ kivp :: after) {st : ScanState}
    (h : (Run.loop (scanEntry t comparts) .start map.zipIdx).outcome =
      .ok st) :
    ∃ v, st.values[before.length]? = some v ∧
      v.mmapPath = (blockName t before kivp).text := by
  rw [hsplit, List.append_cons, List.zipIdx_append, Run.loop_append] at h
  obtain ⟨st₁, hupto, hafter⟩ := Run.bind_eq_ok h
  obtain ⟨hparsed, hseen⟩ := loop_filesParsed hupto
  have hssect := hparsed.ssect_eq
  rw [List.zipIdx_map_fst] at hseen
  rw [List.zipIdx_append] at hupto
  obtain ⟨st₀, hbefore, hentry⟩ := Run.loop_concat_ok hupto
  obtain ⟨values₀, hvalues₀, hlength⟩ := loop_values hbefore
  obtain ⟨values, hvalues, _⟩ := loop_values hafter
  have hindex : st₀.values.length = before.length := by
    rw [hvalues₀, ScanState.start, List.nil_append, hlength,
      List.length_zipIdx]
  refine ⟨blockEntry t comparts st₁ kivp, ?_, ?_⟩
  · rw [hvalues, scanEntry_values hentry, ← hindex]
    simp
  · rw [blockName, ← hseen, ← hssect]
    rfl

/-! ### The columns after a scan -/

/-- A library of the map whose file could be parsed; `s` is its first entry. -/
structure ParsedLibrary (t : Target) (map : List KinfoVmentry)
    (s : KinfoVmentry) (file : ElfFile) : Prop where
  seen : s ∈ seenEntries map
  elf : t.elf s.kvePath = some file
  header : file.hasHeader = true
  sectionNames : file.hasSectionNames = true

/-- Every row of a parsed library follows it. -/
def ColumnsFollow (t : Target) (map : List KinfoVmentry) (db : Db) : Prop :=
  ∀ (before : List KinfoVmentry) (kivp : KinfoVmentry)
    (after : List KinfoVmentry) (s : KinfoVmentry) (file : ElfFile)
    (plt got : Bool) (v : VmInfo), map = before ++ kivp :: after →
    ParsedLibrary t map s file → db.vm[before.length]? = some v →
    v.mmapPath = VmName.text ⟨s.kvePath, plt, got⟩ →
    RowFollows kivp s file plt got v

/-- For every block that is given the name of a parsed library, with or
without suffixes, the last record that goes by this whole name serves it. -/
def BlocksServed (t : Target) (map : List KinfoVmentry) : Prop :=
  ∀ (before : List KinfoVmentry) (kivp : KinfoVmentry)
    (after : List KinfoVmentry) (s : KinfoVmentry) (file : ElfFile)
    (plt got : Bool), map = before ++ kivp :: after →
    ParsedLibrary t map s file →
    (blockName t before kivp).text = VmName.text ⟨s.kvePath, plt, got⟩ →
    ∃ r, namedRecord ((seenEntries map).map (fileRecord t))
        (VmName.text ⟨s.kvePath, plt, got⟩) = some r ∧
      r.Serves kivp s file plt got

/-- No block of a parsed library is given a suffix, and the record of the
library is right. -/
def BlocksPlain (t : Target) (map : List KinfoVmentry) : Prop :=
  ∀ (before : List KinfoVmentry) (kivp : KinfoVmentry)
    (after : List KinfoVmentry) (s : KinfoVmentry) (file : ElfFile)
    (plt got : Bool), map = before ++ kivp :: after →
    ParsedLibrary t map s file →
    (blockName t before kivp).text = VmName.text ⟨s.kvePath, plt, got⟩ →
    plt = false ∧ got = false ∧ file.LastRight s.kveStart

/-- No path is that of another library behind which suffixes were put. -/
structure PlainPaths (map : List KinfoVmentry) : Prop where
  suffix : ∀ s ∈ seenEntries map, ∀ s' ∈ seenEntries map, ∀ plt got,
    s'.kvePath = VmName.text ⟨s.kvePath, plt, got⟩ → plt = false ∧ got = false
  null : ∀ s ∈ seenEntries map, s.kvePath ≠ "(null)".toList

theorem columnsFollow_iff {t : Target} {map : List KinfoVmentry}
    (hclean : t.Clean) (hmap : t.vmmap = some map)
    (hscan : (scanMem t).outcome = .ok ⟨⟩) :
    ColumnsFollow t map (dbScanned t Db.empty) ↔ BlocksServed t map := by
  obtain ⟨c⟩ := exists_completedScan hmap hscan
  obtain ⟨hparsed, hseen⟩ := loop_filesParsed c.final_eq
  rw [List.zipIdx_map_fst] at hseen
  have hssect : c.final.ssect = (seenEntries map).map (fileRecord t) := by
    rw [hparsed.ssect_eq, hseen]
  -- the row of a block, before the updates
  have hrow {before after : List KinfoVmentry} {kivp : KinfoVmentry}
      (hsplit : map = before ++ kivp :: after) :
      ∃ e : VmEntry, (dbScanned t Db.empty).vm[before.length]? =
          some (applyUpdates c.final.ssect e.inserted) ∧
        e.mmapPath = (blockName t before kivp).text := by
    obtain ⟨e, he, hname⟩ := values_blockName hsplit c.final_eq
    refine ⟨e, ?_, hname⟩
    rw [(sameRows_dbScanned hclean Db.empty).vm, c.dbAfter_eq hmap hscan]
    simp [Db.empty, he]
  constructor
  · intro h before kivp after s file plt got hsplit hlibrary hname
    obtain ⟨e, he, hpath⟩ := hrow hsplit
    have hfollows := h before kivp after s file plt got _ hsplit hlibrary he
      ((congrArg VmEntry.mmapPath (toVmEntry_applyUpdates _ _)).trans
        (hpath.trans hname))
    rw [rowFollows_iff, hssect, hpath, hname] at hfollows
    exact hfollows
  · intro h before kivp after s file plt got v hsplit hlibrary hv hname
    obtain ⟨e, he, hpath⟩ := hrow hsplit
    cases he.symm.trans hv
    have hsame : e.mmapPath = VmName.text ⟨s.kvePath, plt, got⟩ :=
      (congrArg VmEntry.mmapPath (toVmEntry_applyUpdates _ _)).symm.trans hname
    rw [rowFollows_iff, hssect, hsame]
    exact h before kivp after s file plt got hsplit hlibrary
      (hpath.symm.trans hsame)

/-! ### Plain names -/

theorem VmName.text_plain (path : Text) :
    VmName.text ⟨path, false, false⟩ = path := by
  simp [VmName.text]

/-- A suffix does not make another path out of `(null)`. -/
theorem VmName.text_ne_null {path : Text} (hpath : path ≠ "(null)".toList)
    (plt got : Bool) : VmName.text ⟨path, plt, got⟩ ≠ "(null)".toList := by
  intro h
  have hsuffix : ((if plt then "(.plt)".toList else []) ++
      if got then "(.got)".toList else []) <:+ "(null)".toList :=
    ⟨path, h⟩
  have hflags : ∀ plt got : Bool, ((if plt then "(.plt)".toList else []) ++
      if got then "(.got)".toList else []) <:+ "(null)".toList →
        plt = false ∧ got = false := by
    decide
  have hnone := hflags plt got hsuffix
  rw [hnone.1, hnone.2, VmName.text_plain] at h
  exact hpath h

section Plain

variable {t : Target} {seen : List KinfoVmentry}

theorem fileRecord_mmapPath (t : Target) (s : KinfoVmentry) :
    (fileRecord t s).mmapPath = none ∨
      (fileRecord t s).mmapPath = some s.kvePath := by
  rw [fileRecord]
  split
  · exact Or.inl rfl
  · next file _ =>
      split
      · rcases file.sectionsRead.getLast? with - | sec
        · exact Or.inl rfl
        · exact Or.inr rfl
      · exact Or.inl rfl

/-- Only the record of an entry with this path is printed with it. -/
theorem namedRecord_eq_some {path : Text} (hpath : path ≠ "(null)".toList)
    {r : SpecialSections}
    (h : namedRecord (seen.map (fileRecord t)) path = some r) :
    ∃ s ∈ seen, s.kvePath = path ∧ fileRecord t s = r ∧
      r.mmapPath = some path := by
  have hmem := List.mem_of_find?_eq_some h
  rw [List.mem_reverse, List.mem_map] at hmem
  obtain ⟨s, hs, rfl⟩ := hmem
  have hmatch := List.find?_some h
  have hprinted : (fileRecord t s).mmapPath.getD "(null)".toList = path :=
    of_decide_eq_true hmatch
  rcases fileRecord_mmapPath t s with hnone | hsome
  · rw [hnone] at hprinted
    exact absurd hprinted.symm hpath
  · rw [hsome] at hprinted
    cases hprinted
    exact ⟨s, hs, rfl, rfl, hsome⟩

theorem eq_of_kvePath (hdistinct : (seen.map KinfoVmentry.kvePath).Nodup)
    {s s' : KinfoVmentry} (hs : s ∈ seen) (hs' : s' ∈ seen)
    (h : s'.kvePath = s.kvePath) : s' = s :=
  List.inj_on_of_nodup_map hdistinct hs' hs h

theorem namedRecord_self (hdistinct : (seen.map KinfoVmentry.kvePath).Nodup)
    {s : KinfoVmentry} (hs : s ∈ seen) (hnull : s.kvePath ≠ "(null)".toList)
    (hpath : (fileRecord t s).mmapPath = some s.kvePath) :
    namedRecord (seen.map (fileRecord t)) s.kvePath =
      some (fileRecord t s) := by
  rcases hnamed : namedRecord (seen.map (fileRecord t)) s.kvePath with - | r
  · rw [namedRecord, List.find?_eq_none] at hnamed
    have hprinted := hnamed (fileRecord t s)
      (List.mem_reverse.mpr (List.mem_map_of_mem hs))
    simp [sectionUpdate, hpath] at hprinted
  · obtain ⟨s', hs', hsame, rfl, _⟩ := namedRecord_eq_some hnull hnamed
    rw [eq_of_kvePath hdistinct hs hs' hsame]

theorem ParsedLibrary.fileRecord_eq {map : List KinfoVmentry}
    {s : KinfoVmentry} {file : ElfFile} (h : ParsedLibrary t map s file) :
    fileRecord t s =
      storedRecord s.kvePath s.kveStart file.sectionsRead.getLast? := by
  simp [fileRecord, h.elf, h.header, h.sectionNames]

end Plain

theorem blocksServed_iff {t : Target} {map : List KinfoVmentry}
    (hdistinct : ((seenEntries map).map KinfoVmentry.kvePath).Nodup)
    (hplain : PlainPaths map) : BlocksServed t map ↔ BlocksPlain t map := by
  constructor
  · intro h before kivp after s file plt got hsplit hlibrary hname
    obtain ⟨r, hnamed, hserves⟩ :=
      h before kivp after s file plt got hsplit hlibrary hname
    obtain ⟨s', hs', hpath, rfl, hsome⟩ := namedRecord_eq_some
      (VmName.text_ne_null (hplain.null s hlibrary.seen) plt got) hnamed
    obtain ⟨rfl, rfl⟩ := hplain.suffix s hlibrary.seen s' hs' plt got hpath
    rw [VmName.text_plain] at hpath hsome
    cases eq_of_kvePath hdistinct hlibrary.seen hs' hpath
    refine ⟨rfl, rfl, ?_⟩
    have hdescribes : (fileRecord t s).Describes file s.kvePath s.kveStart :=
      ⟨hserves.sections.plt, hserves.sections.got, hsome⟩
    rw [hlibrary.fileRecord_eq] at hdescribes
    exact storedRecord_describes_iff.1 hdescribes
  · intro h before kivp after s file plt got hsplit hlibrary hname
    obtain ⟨rfl, rfl, hlast⟩ :=
      h before kivp after s file plt got hsplit hlibrary hname
    have hdescribes : (fileRecord t s).Describes file s.kvePath s.kveStart := by
      rw [hlibrary.fileRecord_eq]
      exact storedRecord_describes_iff.2 hlast
    refine ⟨fileRecord t s, ?_, ⟨hdescribes.plt, hdescribes.got⟩, nofun, nofun⟩
    rw [VmName.text_plain]
    exact namedRecord_self hdistinct hlibrary.seen
      (hplain.null s hlibrary.seen) hdescribes.path

/-- After a scan of ordinary paths, every row of a parsed library holds its
sections, and those with a suffix a range inside the block, exactly when no
such block is given a suffix and the library's record is right. -/
theorem sectionColumns_iff {t : Target} {map : List KinfoVmentry}
    (hclean : t.Clean) (hmap : t.vmmap = some map) (hplain : PlainPaths map)
    (hscan : (scanMem t).outcome = .ok ⟨⟩) :
    ColumnsFollow t map (dbScanned t Db.empty) ↔ BlocksPlain t map := by
  refine (columnsFollow_iff hclean hmap hscan).trans ?_
  obtain ⟨c⟩ := exists_completedScan hmap hscan
  obtain ⟨hparsed, hseen⟩ := loop_filesParsed c.final_eq
  have hdistinct := hparsed.distinct
  rw [hseen, List.zipIdx_map_fst] at hdistinct
  exact blocksServed_iff hdistinct hplain

/-! ### A labelled block -/

/-- The process in which only the first library is mapped. -/
def mapsLibA (map : List KinfoVmentry) : Target :=
  { twoLibraries with vmmap := some map }

theorem mapsLibA_clean {map : List KinfoVmentry} (hpaths : ∀ kivp ∈ map,
    SqlText.QuoteFree kivp.kvePath ∧
      SqlText.lower kivp.kvePath ∉ vmNames) : (mapsLibA map).Clean :=
  clean_of_unnamed rfl hpaths (fun _ _ h => by cases h) twoLibraries_unnamed
    (fun _ _ => List.not_mem_nil) rfl

/-- The row of the second block is stored under a name with `(.plt)`, and its
columns stay `NULL`. -/
theorem labelled_row_null : PlainPaths [headA, pltA] ∧
    (scanMem (mapsLibA [headA, pltA])).outcome = .ok ⟨⟩ ∧
      ¬ ColumnsFollow (mapsLibA [headA, pltA]) [headA, pltA]
        (dbScanned (mapsLibA [headA, pltA]) Db.empty) := by
  have hclean : (mapsLibA [headA, pltA]).Clean :=
    mapsLibA_clean (by decide +kernel)
  have hscan : (scanMem (mapsLibA [headA, pltA])).outcome = .ok ⟨⟩ := rfl
  have hseen : seenEntries [headA, pltA] = [headA] := rfl
  refine ⟨⟨by rw [hseen]; decide, by rw [hseen]; decide⟩, hscan, ?_⟩
  rw [columnsFollow_iff hclean rfl hscan]
  intro h
  obtain ⟨r, hnamed, _⟩ := h [headA] pltA [] headA (oneSection pltName) true
    false rfl ⟨by decide, rfl, rfl, rfl⟩ rfl
  have hnone : namedRecord ((seenEntries [headA, pltA]).map
      (fileRecord (mapsLibA [headA, pltA])))
      (VmName.text ⟨headA.kvePath, true, false⟩) = none := by
    decide
  exact absurd (hnone.symm.trans hnamed) nofun

/-- The row of the first block alone has the columns of the library. -/
theorem plain_row_filled :
    ColumnsFollow (mapsLibA [headA]) [headA]
      (dbScanned (mapsLibA [headA]) Db.empty) := by
  have hseen : seenEntries [headA] = [headA] := rfl
  have hpaths : PlainPaths [headA] := by
    constructor
    · rw [hseen]
      decide
    · rw [hseen]
      decide
  apply (sectionColumns_iff (t := mapsLibA [headA])
    (mapsLibA_clean (by decide +kernel)) rfl hpaths rfl).2
  intro before kivp after s file plt got hsplit hlibrary hname
  have hs := hlibrary.seen
  rw [hseen, List.mem_singleton] at hs
  subst hs
  cases hlibrary.elf
  rcases before with - | ⟨b, before⟩
  · cases hsplit
    have hflags : ∀ plt got : Bool,
        (blockName (mapsLibA [headA]) [] headA).text =
          VmName.text ⟨headA.kvePath, plt, got⟩ →
        plt = false ∧ got = false := by
      decide
    obtain ⟨rfl, rfl⟩ := hflags plt got hname
    exact ⟨rfl, rfl, _, rfl, Or.inl rfl, Or.inr (by decide)⟩
  · simp at hsplit

end Chericat
