import Chericat.BlockNames
import Chericat.SectionRecords

/-!
The suffixes `(.plt)` and `(.got)` of a block's name.  They come from the record
of the file that was parsed last, whatever library the block belongs to.
-/

namespace Chericat

/-! ### Records filled correctly -/

/-- Address and size of a file's section in memory, `0` when it has none. -/
def ElfFile.sectionRange (file : ElfFile) (sourceBase : ULong) (name : Text) :
    ULong × ULong :=
  match file.sections.find? (·.name = some name) with
  | some sec => (sourceBase + sec.shAddr, sec.shSize)
  | none => (0, 0)

/-- The record `get_elf_info` is meant to store. -/
def ElfFile.rightRecord (file : ElfFile) (source : Text) (sourceBase : ULong) :
    SpecialSections where
  pltAddr := (file.sectionRange sourceBase pltName).1
  pltSize := (file.sectionRange sourceBase pltName).2
  gotAddr := (file.sectionRange sourceBase gotName).1
  gotSize := (file.sectionRange sourceBase gotName).2
  mmapPath := some source

/-- Every record handed out so far is right. -/
def RecordsRight (t : Target) (st : ScanState) : Prop :=
  List.Forall₂ (fun s r => ∃ file, t.elf s.kvePath = some file ∧
    r = file.rightRecord s.kvePath s.kveStart) st.seen st.ssect

theorem getLast?_of_forall₂ {α β : Type} {R : α → β → Prop} {as : List α}
    {bs : List β} (h : List.Forall₂ R as bs) {a : α}
    (ha : as.getLast? = some a) : ∃ b, bs.getLast? = some b ∧ R a b := by
  rw [← List.forall₂_reverse_iff] at h
  rw [List.getLast?_eq_head?_reverse] at ha ⊢
  generalize as.reverse = as' at h ha
  generalize bs.reverse = bs' at h
  rcases h with - | ⟨hhead, -⟩
  · simp at ha
  · cases ha
    exact ⟨_, rfl, hhead⟩

/-! ### The test of a block -/

section Block

variable (kivp : KinfoVmentry) (range : ULong × ULong)

/-- A section that is not empty lies inside the block. -/
def NonEmptyInside : Prop :=
  range.2 ≠ 0 ∧ kivp.kveStart ≤ range.1 ∧
    range.1.toNat + range.2.toNat ≤ kivp.kveEnd.toNat

instance : Decidable (NonEmptyInside kivp range) :=
  inferInstanceAs (Decidable (_ ∧ _))

/-- The test takes an empty section at an address of the block for a part of
it, and a section whose end wraps around. -/
def FalselyInside : Prop :=
  kivp.kveStart ≤ range.1 ∧
    ((range.2 = 0 ∧ range.1 ≤ kivp.kveEnd) ∨
      2 ^ 64 ≤ range.1.toNat + range.2.toNat ∧
        range.1.toNat + range.2.toNat ≤ 2 ^ 64 + kivp.kveEnd.toNat)

instance : Decidable (FalselyInside kivp range) :=
  inferInstanceAs (Decidable (_ ∧ _))

theorem insideBlock_iff :
    insideBlock kivp range.1 range.2 = true ↔
      NonEmptyInside kivp range ∨ FalselyInside kivp range := by
  have haddr := range.1.isLt
  have hsize := range.2.isLt
  have hstop := kivp.kveEnd.isLt
  rw [insideBlock, Bool.and_eq_true, decide_eq_true_iff, decide_eq_true_iff,
    NonEmptyInside, FalselyInside, BitVec.le_def, BitVec.le_def, BitVec.le_def,
    BitVec.toNat_add, ne_eq, ← BitVec.toNat_inj]
  have hzero : (0 : ULong).toNat = 0 := rfl
  omega

variable {kivp range} in
theorem FalselyInside.not_nonEmptyInside (h : FalselyInside kivp range) :
    ¬ NonEmptyInside kivp range := by
  have hstop := kivp.kveEnd.isLt
  rintro ⟨hsize, -, hend⟩
  rcases h with ⟨-, ⟨hzero, -⟩ | ⟨hwrap, -⟩⟩
  · exact hsize hzero
  · omega

end Block

/-! ### Labels -/

/-- The name of a block of the library whose first entry is `s`: the path, and
a suffix for each of its sections that is not empty and lies inside. -/
def labelFor (kivp s : KinfoVmentry) (file : ElfFile) : VmName where
  base := s.kvePath
  plt := NonEmptyInside kivp (file.sectionRange s.kveStart pltName)
  got := NonEmptyInside kivp (file.sectionRange s.kveStart gotName)

/-- The test for a section of the library `s` is right.  When its own file was
parsed last, the section must not be falsely inside; after another file `m`,
the other file's section must pass exactly when the right one is inside. -/
structure LabelSettled (kivp s m : KinfoVmentry) (own last : ElfFile)
    (name : Text) : Prop where
  same : m = s → ¬ FalselyInside kivp (own.sectionRange s.kveStart name)
  other : m ≠ s →
    (NonEmptyInside kivp (last.sectionRange m.kveStart name) ∨
        FalselyInside kivp (last.sectionRange m.kveStart name) ↔
      NonEmptyInside kivp (own.sectionRange s.kveStart name))

theorem labelSettled_iff {kivp s m : KinfoVmentry} {own last : ElfFile}
    (hsame : m = s → last = own) (name : Text) :
    LabelSettled kivp s m own last name ↔
      (insideBlock kivp (last.sectionRange m.kveStart name).1
          (last.sectionRange m.kveStart name).2 =
        decide (NonEmptyInside kivp (own.sectionRange s.kveStart name))) := by
  rw [Bool.eq_iff_iff, insideBlock_iff, decide_eq_true_iff]
  constructor
  · rintro ⟨hown, hother⟩
    by_cases hm : m = s
    · cases hsame hm
      cases hm
      exact or_iff_left (hown rfl)
    · exact hother hm
  · intro h
    refine ⟨fun hm hfalse => ?_, fun _ => h⟩
    cases hsame hm
    cases hm
    exact hfalse.not_nonEmptyInside (h.1 (Or.inr hfalse))

/-- With all records right, a block assigned to a library that was seen gets
the suffixes of the library's sections inside it if and only if the file that
was parsed last settles both tests. -/
theorem sectionLabels_iff {t : Target} {comparts : List CompartData}
    {entries : List (KinfoVmentry × Nat)} {kivp : KinfoVmentry} {i : Nat}
    {st : ScanState}
    (h : (Run.loop (scanEntry t comparts) .start
      (entries ++ [(kivp, i)])).outcome = .ok st)
    (hrecords : RecordsRight t st) {s m : KinfoVmentry} {own last : ElfFile}
    (hs : s ∈ st.seen) (hassigned : libraryPath t st.seen kivp = s.kvePath)
    (hown : t.elf s.kvePath = some own) (hm : st.seen.getLast? = some m)
    (hlast : t.elf m.kvePath = some last) :
    ∃ v, st.values.getLast? = some v ∧
      (v.mmapPath = (labelFor kivp s own).text ↔
        LabelSettled kivp s m own last pltName ∧
          LabelSettled kivp s m own last gotName) := by
  obtain ⟨st₀, _, hentry⟩ := Run.loop_concat_ok h
  obtain ⟨st₁, _, _, _, rfl⟩ := scanEntry_ok hentry
  obtain ⟨r, hr, file, hfile, rfl⟩ := getLast?_of_forall₂ hrecords hm
  cases hlast.symm.trans hfile
  have hsame : m = s → last = own := by
    rintro rfl
    exact Option.some.inj (hlast.symm.trans hown)
  refine ⟨_, List.getLast?_concat, ?_⟩
  have hrecord : lastRecord t st₁.ssect =
      last.rightRecord m.kvePath m.kveStart := by
    simp only at hr
    rw [lastRecord, hr, Option.getD_some]
  have hname : vmName t st₁ kivp = ⟨s.kvePath,
      insideBlock kivp (last.sectionRange m.kveStart pltName).1
        (last.sectionRange m.kveStart pltName).2,
      insideBlock kivp (last.sectionRange m.kveStart gotName).1
        (last.sectionRange m.kveStart gotName).2⟩ := by
    rw [vmName, hrecord, hassigned]
    rfl
  change mmapPath t st₁ kivp = _ ↔ _
  have hbase : (VmName.mk s.kvePath
      (insideBlock kivp (last.sectionRange m.kveStart pltName).1
        (last.sectionRange m.kveStart pltName).2)
      (insideBlock kivp (last.sectionRange m.kveStart gotName).1
        (last.sectionRange m.kveStart gotName).2)).base =
      (labelFor kivp s own).base := rfl
  rw [mmapPath_eq, hname, VmName.text_inj_of_base_eq hbase, labelFor,
    VmName.mk.injEq, labelSettled_iff hsame, labelSettled_iff hsame]
  exact ⟨fun h => h.2, fun h => ⟨rfl, h⟩⟩

/-! ### Two libraries -/

/-- A file with a single section, and nothing in its uninitialised record. -/
def oneSection (name : Text) : ElfFile :=
  { twoSections .zero with
    sections := [⟨some name, .other, 0x1000, 0x40, none, .zero⟩] }

theorem oneSection_unnamed (name : Text) :
    (oneSection name).pending = .null ∧
      namedSymbols (oneSection name).sections = [] := ⟨rfl, rfl⟩

def libA : Text := "/lib/liba.so".toList

def libB : Text := "/lib/libb.so".toList

/-- Only the first of two libraries has a `.plt`. -/
def twoLibraries : Target :=
  { Target.withElf [] (oneSection ".text".toList) with
    elf := fun path =>
      if path = libA then some (oneSection pltName)
      else some (oneSection ".text".toList) }

theorem twoLibraries_unnamed (path : Text) (file : ElfFile)
    (h : twoLibraries.elf path = some file) :
    file.pending = .null ∧ namedSymbols file.sections = [] := by
  change (if path = libA then some (oneSection pltName)
    else some (oneSection ".text".toList)) = some file at h
  split at h
  all_goals
    cases h
    exact oneSection_unnamed _

def blockOf (path : Text) (start stop : ULong) : KinfoVmentry :=
  { KinfoVmentry.sample start stop with kvePath := path, kveFlags := 0 }

/-- The first block of the library, and the one that holds its `.plt`. -/
def headA : KinfoVmentry := blockOf libA 0x40000 0x41000

def pltA : KinfoVmentry := blockOf libA 0x41000 0x42000

/-- Another library between the two blocks takes the label away. -/
theorem label_lost_between :
    ∃ st v, (Run.loop (scanEntry twoLibraries []) .start
        ([(headA, 0), (blockOf libB 0x50000 0x52000, 1)] ++
          [(pltA, 2)])).outcome = .ok st ∧
      RecordsRight twoLibraries st ∧ headA ∈ st.seen ∧
      libraryPath twoLibraries st.seen pltA = headA.kvePath ∧
      st.values.getLast? = some v ∧
      v.mmapPath ≠ (labelFor pltA headA (oneSection pltName)).text :=
  ⟨_, _, rfl, .cons ⟨_, rfl, rfl⟩ (.cons ⟨_, rfl, rfl⟩ .nil),
    List.mem_cons_self, rfl, rfl, by decide⟩

/-- Right behind the first block the label is there. -/
theorem label_kept_behind :
    ∃ st v, (Run.loop (scanEntry twoLibraries []) .start
        ([(headA, 0)] ++ [(pltA, 1)])).outcome = .ok st ∧
      st.values.getLast? = some v ∧
      v.mmapPath = (labelFor pltA headA (oneSection pltName)).text := by
  have hsettled (name : Text)
      (hnone : ¬ FalselyInside pltA
        ((oneSection pltName).sectionRange headA.kveStart name)) :
      LabelSettled pltA headA headA (oneSection pltName) (oneSection pltName)
        name :=
    ⟨fun _ => hnone, fun hne => absurd rfl hne⟩
  obtain ⟨v, hv, hiff⟩ := @sectionLabels_iff twoLibraries [] [(headA, 0)] pltA 1
    _ rfl (.cons ⟨_, rfl, rfl⟩ .nil) headA headA (oneSection pltName)
    (oneSection pltName) List.mem_cons_self rfl rfl rfl rfl
  exact ⟨_, v, rfl, hv, hiff.2
    ⟨hsettled pltName (by decide), hsettled gotName (by decide)⟩⟩

end Chericat
