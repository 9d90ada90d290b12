import Chericat.ScanStages

/-!
Where `get_r_debug` reads: the addresses it asks the target for, and whether
each of them was found in a table of the target.
-/

namespace Chericat

/-- The remote addresses of a trace, in order. -/
def remoteReads (trace : List Event) : List ULong :=
  trace.filterMap fun
    | .io remote => some remote
    | _ => none

theorem remoteReads_append (tr us : List Event) :
    remoteReads (tr ++ us) = remoteReads tr ++ remoteReads us := by
  simp [remoteReads]

/-! ### What the target's tables hold -/

/-- The value of `AT_PHDR`; a later entry overrides an earlier one. -/
def phdrEntry (auxv : List Auxinfo) : Option ULong :=
  (auxv.reverse.find? (·.aType = .atPhdr)).map (·.aVal)

/-- The segment marked `PT_DYNAMIC`. -/
def dynamicEntry (phnum : CInt) (phdrs : List ElfPhdr) : Option ElfPhdr :=
  (firstInt phnum phdrs).find? (·.isDynamic)

/-- The entry marked `DT_DEBUG`. -/
def debugEntry (dynSize : CInt) (dyns : List ElfDyn) : Option ElfDyn :=
  (firstInt dynSize dyns).find? (·.isDebug)

/-- `phent` and `phnum` after the auxiliary vector. -/
def phentPhnum (t : Target) (auxv : List Auxinfo) : CInt × CInt :=
  (auxv.foldl auxStep t.auxLocals).2

/-- The address of a segment in the target. -/
def segmentAddr (t : Target) (phdr : ULong) (p : ElfPhdr) : ULong :=
  p.pVaddr + (phdr - t.sizeofEhdr)

/-- The program headers have been obtained at `AT_PHDR`. -/
structure PhdrsAt (t : Target) (auxv : List Auxinfo) (phdr : ULong)
    (phdrs : List ElfPhdr) : Prop where
  entry : phdrEntry auxv = some phdr
  read : t.readPhdrs phdr (phentPhnum t auxv).2 = .ok phdrs

/-- The dynamic table has been obtained at the segment `p`. -/
structure DynsAt (t : Target) (auxv : List Auxinfo) (phdr : ULong)
    (p : ElfPhdr) (dyns : List ElfDyn) : Prop where
  entry : ∃ phdrs, PhdrsAt t auxv phdr phdrs ∧
    dynamicEntry (phentPhnum t auxv).2 phdrs = some p
  read : t.readDyns (segmentAddr t phdr p) (p.pMemsz.setWidth 32) = .ok dyns

/-! ### The loop over the dynamic table -/

/-- The loop from index `i` on, with `k` turns to go: the indices it looks at,
and the entry at which it breaks. -/
def scanFrom {α : Type} (p : α → Bool) (buf : Nat → α) :
    Nat → Nat → List Nat × Option α
  | _, 0 => ([], none)
  | i, k + 1 =>
      if p (buf i) then ([i], some (buf i))
      else (i :: (scanFrom p buf (i + 1) k).1, (scanFrom p buf (i + 1) k).2)

/-- The buffer the dynamic table is read into; entries that are not read stay
as `calloc` leaves them. -/
def dynBuffer (dyns : List ElfDyn) (i : Nat) : ElfDyn :=
  dyns[i]?.getD ⟨false, 0⟩

/-- `for (int i = 0; i < dyn_size; i++)`. -/
def dynScan (dynSize : CInt) (dyns : List ElfDyn) : List Nat × Option ElfDyn :=
  scanFrom (·.isDebug) (dynBuffer dyns) 0 dynSize.toInt.toNat

/-- The entries `calloc(dyn_size, sizeof(*target_dyn))` allocates. -/
def entriesAllocated (dynSize : CInt) : Nat := (dynSize.signExtend 64).toNat

theorem scanFrom_indices {α : Type} (p : α → Bool) (buf : Nat → α)
    (i k : Nat) : ∀ j ∈ (scanFrom p buf i k).1, j < i + k := by
  induction k generalizing i with
  | zero => simp [scanFrom]
  | succ k ih =>
      intro j hj
      by_cases hp : p (buf i) = true
      · simp only [scanFrom, hp, ↓reduceIte, List.mem_singleton] at hj
        omega
      · simp only [scanFrom, hp, Bool.false_eq_true, ↓reduceIte,
          List.mem_cons] at hj
        rcases hj with rfl | hj
        · omega
        · have := ih (i + 1) j hj
          omega

theorem scanFrom_found {α : Type} (p : α → Bool) (buf : Nat → α) (i k : Nat) :
    (scanFrom p buf i k).2 = ((List.range' i k).map buf).find? p := by
  induction k generalizing i with
  | zero => rfl
  | succ k ih =>
      rw [List.range'_succ, List.map_cons, List.find?_cons]
      by_cases hp : p (buf i) = true
      · simp [scanFrom, hp]
      · simp [scanFrom, hp, ih]

/-- Looking through a zeroed buffer finds what was read into it. -/
theorem find_dynBuffer (dyns : List ElfDyn) (i k : Nat) :
    ((List.range' i k).map (dynBuffer dyns)).find? (·.isDebug) =
      ((dyns.drop i).take k).find? (·.isDebug) := by
  induction k generalizing i with
  | zero => simp
  | succ k ih =>
      rw [List.range'_succ, List.map_cons, List.find?_cons, ih, dynBuffer]
      by_cases hi : i < dyns.length
      · rw [List.drop_eq_getElem_cons hi, List.take_succ_cons,
          List.find?_cons, List.getElem?_eq_getElem hi, Option.getD_some]
      · have hdrop : dyns.drop i = [] := List.drop_eq_nil_of_le (by omega)
        have hnext : dyns.drop (i + 1) = [] :=
          List.drop_eq_nil_of_le (by omega)
        rw [List.getElem?_eq_none (by omega), hdrop, hnext]
        simp

theorem dynScan_found (dynSize : CInt) (dyns : List ElfDyn) :
    (dynScan dynSize dyns).2 = debugEntry dynSize dyns := by
  rw [dynScan, scanFrom_found, find_dynBuffer, List.drop_zero]
  rfl

/-- The loop stays within the entries allocated: the byte size that bounds it
is also their number. -/
theorem dynScan_lt_allocated (dynSize : CInt) (dyns : List ElfDyn) :
    ∀ i ∈ (dynScan dynSize dyns).1, i < entriesAllocated dynSize := by
  intro i hi
  have hbound := scanFrom_indices _ _ 0 _ i hi
  have hcast : dynSize.toInt.toNat ≤ entriesAllocated dynSize := by
    rw [entriesAllocated, BitVec.toNat_signExtend]
    have hsize := dynSize.isLt
    rcases hsign : dynSize.msb with - | -
    · rw [BitVec.toInt_eq_msb_cond, hsign]
      simp
      omega
    · rw [BitVec.toInt_eq_msb_cond, hsign]
      simp
      omega
  omega

/-! ### How the search may end -/

theorem fst_foldl_auxStep (auxv : List Auxinfo) (s : ULong × CInt × CInt) :
    (auxv.foldl auxStep s).1 = (phdrEntry auxv).getD s.1 := by
  induction auxv using List.reverseRecOn with
  | nil => rfl
  | append_singleton auxv a ih =>
      rw [List.foldl_append, phdrEntry, List.reverse_append]
      rw [phdrEntry] at ih
      rcases ha : a.aType <;> simp [auxStep, ha, ih]

theorem findDynamic_some {t : Target} {phnum : CInt} {phdrs : List ElfPhdr}
    {p : ElfPhdr} (h : dynamicEntry phnum phdrs = some p) :
    findDynamic t phnum phdrs = (p.pVaddr, p.pMemsz.setWidth 32) := by
  rw [findDynamic, ← dynamicEntry, h]

theorem findDynamic_none {t : Target} {phnum : CInt} {phdrs : List ElfPhdr}
    (h : dynamicEntry phnum phdrs = none) :
    findDynamic t phnum phdrs = (t.dynLocal, 0) := by
  rw [findDynamic, ← dynamicEntry, h]

theorem findDebug_some {t : Target} {dynSize : CInt} {dyns : List ElfDyn}
    {d : ElfDyn} (h : debugEntry dynSize dyns = some d) :
    findDebug t dynSize dyns = d.dPtr := by
  rw [findDebug, ← debugEntry, h]

theorem findDebug_none {t : Target} {dynSize : CInt} {dyns : List ElfDyn}
    (h : debugEntry dynSize dyns = none) :
    findDebug t dynSize dyns = t.debugLocal := by
  rw [findDebug, ← debugEntry, h]

/-- The pointer of `get_r_debug` is that of the entry its loop breaks at. -/
theorem findDebug_eq_dynScan (t : Target) (dynSize : CInt)
    (dyns : List ElfDyn) :
    findDebug t dynSize dyns =
      (dynScan dynSize dyns).2.elim t.debugLocal (·.dPtr) := by
  rw [dynScan_found]
  rcases h : debugEntry dynSize dyns with - | d
  · exact findDebug_none h
  · exact findDebug_some h

/-- The reads of `searchRDebug` and what they come to. -/
inductive SearchEnds (t : Target) (phdr : ULong) (phnum : CInt) :
    List ULong → Except Stop RDebug → Prop where
  | phdrsUnread (hphdrs : ∀ phdrs, t.readPhdrs phdr phnum ≠ .ok phdrs) :
      SearchEnds t phdr phnum [phdr] (.error .errx)
  | dynamicNull {phdrs : List ElfPhdr} {dyn : ULong × CInt}
      (hphdrs : t.readPhdrs phdr phnum = .ok phdrs)
      (hdyn : findDynamic t phnum phdrs = dyn) (hnull : dyn.1 = 0) :
      SearchEnds t phdr phnum [phdr] (.error .assertion)
  | dynsUnread {phdrs : List ElfPhdr} {dyn : ULong × CInt}
      (hphdrs : t.readPhdrs phdr phnum = .ok phdrs)
      (hdyn : findDynamic t phnum phdrs = dyn) (hdynamic : dyn.1 ≠ 0)
      (hdyns : ∀ dyns,
        t.readDyns (dyn.1 + (phdr - t.sizeofEhdr)) dyn.2 ≠ .ok dyns) :
      SearchEnds t phdr phnum [phdr, dyn.1 + (phdr - t.sizeofEhdr)]
        (.error .errx)
  | debugNull {phdrs : List ElfPhdr} {dyn : ULong × CInt} {dyns : List ElfDyn}
      (hphdrs : t.readPhdrs phdr phnum = .ok phdrs)
      (hdyn : findDynamic t phnum phdrs = dyn) (hdynamic : dyn.1 ≠ 0)
      (hdyns : t.readDyns (dyn.1 + (phdr - t.sizeofEhdr)) dyn.2 = .ok dyns)
      (hnull : findDebug t dyn.2 dyns = 0) :
      SearchEnds t phdr phnum [phdr, dyn.1 + (phdr - t.sizeofEhdr)]
        (.error .assertion)
  | finished {phdrs : List ElfPhdr} {dyn : ULong × CInt} {dyns : List ElfDyn}
      {outcome : Except Stop RDebug}
      (hphdrs : t.readPhdrs phdr phnum = .ok phdrs)
      (hdyn : findDynamic t phnum phdrs = dyn) (hdynamic : dyn.1 ≠ 0)
      (hdyns : t.readDyns (dyn.1 + (phdr - t.sizeofEhdr)) dyn.2 = .ok dyns)
      (hdebug : findDebug t dyn.2 dyns ≠ 0) :
      SearchEnds t phdr phnum [phdr, dyn.1 + (phdr - t.sizeofEhdr),
        findDebug t dyn.2 dyns] outcome

/-- A read that does not end the program gives the object. -/
theorem piodRead_cases {α : Type} (addr : ULong) (r : ReadResult α) :
    (∃ a, r = .ok a ∧ piodRead addr r = ⟨[.io addr], .ok a⟩) ∨
      (∀ a, r ≠ .ok a) ∧ piodRead addr r = ⟨[.io addr], .error .errx⟩ := by
  rcases r with a | - | -
  · exact Or.inl ⟨a, rfl, piodRead_eq addr _⟩
  · exact Or.inr ⟨nofun, piodRead_eq addr _⟩
  · exact Or.inr ⟨nofun, piodRead_eq addr _⟩

theorem searchEnds (t : Target) (phdr : ULong) (phnum : CInt) :
    SearchEnds t phdr phnum (remoteReads (searchRDebug t phdr phnum).trace)
      (searchRDebug t phdr phnum).outcome := by
  rw [searchRDebug]
  rcases piodRead_cases phdr (t.readPhdrs phdr phnum) with
    ⟨phdrs, hphdrs, hread⟩ | ⟨hphdrs, hread⟩
  · rw [hread, Run.mk_ok_bind]
    by_cases hnull : (findDynamic t phnum phdrs).1 = 0
    · simp only [assertNonzero, hnull, ne_eq, not_true_eq_false, ↓reduceIte,
        Run.stop_bind]
      exact .dynamicNull hphdrs rfl hnull
    · simp only [assertNonzero, hnull, ne_eq, not_false_eq_true, ↓reduceIte,
        pure_bind]
      rcases piodRead_cases
          ((findDynamic t phnum phdrs).1 + (phdr - t.sizeofEhdr))
          (t.readDyns ((findDynamic t phnum phdrs).1 + (phdr - t.sizeofEhdr))
            (findDynamic t phnum phdrs).2) with
        ⟨dyns, hdyns, hread⟩ | ⟨hdyns, hread⟩
      · rw [hread, Run.mk_ok_bind]
        by_cases hdebug :
            findDebug t (findDynamic t phnum phdrs).2 dyns = 0
        · simp only [hdebug, not_true_eq_false, ↓reduceIte, Run.stop_bind]
          exact .debugNull hphdrs rfl hnull hdyns hdebug
        · simp only [hdebug, not_false_eq_true, ↓reduceIte, pure_bind,
            piodRead_eq]
          exact .finished hphdrs rfl hnull hdyns hdebug
      · rw [hread, Run.bind_error rfl]
        exact .dynsUnread hphdrs rfl hnull hdyns
  · rw [hread, Run.bind_error rfl]
    exact .phdrsUnread hphdrs

namespace SearchEnds

variable {t : Target} {phdr : ULong} {phnum : CInt} {reads : List ULong}
  {outcome : Except Stop RDebug}

theorem first (h : SearchEnds t phdr phnum reads outcome) :
    reads[0]? = some phdr := by
  rcases h <;> rfl

theorem length_le (h : SearchEnds t phdr phnum reads outcome) :
    reads.length ≤ 3 := by
  rcases h <;> simp

/-- The second read is at the address the first search came to. -/
theorem second_iff (h : SearchEnds t phdr phnum reads outcome) (a : ULong) :
    reads[1]? = some a ↔ ∃ phdrs, t.readPhdrs phdr phnum = .ok phdrs ∧
      (findDynamic t phnum phdrs).1 ≠ 0 ∧
      (findDynamic t phnum phdrs).1 + (phdr - t.sizeofEhdr) = a := by
  rcases h with hphdrs | ⟨hphdrs, rfl, hnull⟩ |
    ⟨hphdrs, rfl, hdynamic, _⟩ | ⟨hphdrs, rfl, hdynamic, _, _⟩ |
    ⟨hphdrs, rfl, hdynamic, _, _⟩
  · simp [hphdrs]
  · simp [hphdrs, hnull]
  · simpa [hphdrs] using fun _ => hdynamic
  · simpa [hphdrs] using fun _ => hdynamic
  · simpa [hphdrs] using fun _ => hdynamic

/-- The third read is at the pointer the second search came to. -/
theorem third_iff (h : SearchEnds t phdr phnum reads outcome) (a : ULong) :
    reads[2]? = some a ↔ ∃ phdrs dyns, t.readPhdrs phdr phnum = .ok phdrs ∧
      (findDynamic t phnum phdrs).1 ≠ 0 ∧
      t.readDyns ((findDynamic t phnum phdrs).1 + (phdr - t.sizeofEhdr))
        (findDynamic t phnum phdrs).2 = .ok dyns ∧
      findDebug t (findDynamic t phnum phdrs).2 dyns ≠ 0 ∧
      findDebug t (findDynamic t phnum phdrs).2 dyns = a := by
  rcases h with hphdrs | ⟨hphdrs, rfl, hnull⟩ |
    ⟨hphdrs, rfl, hdynamic, hdyns⟩ | ⟨hphdrs, rfl, hdynamic, hdyns, hnull⟩ |
    ⟨hphdrs, rfl, hdynamic, hdyns, hdebug⟩
  · simp [hphdrs]
  · simp [hphdrs, hnull]
  · simp [hphdrs, hdyns]
  · simp [hphdrs, hdyns, hnull]
  · simpa [hphdrs, hdyns] using
      ⟨fun ha => ⟨hdynamic, hdebug, ha⟩, fun ha => ha.2.2⟩

theorem assertion_of_dynamic (h : SearchEnds t phdr phnum reads outcome)
    {phdrs : List ElfPhdr} (hphdrs : t.readPhdrs phdr phnum = .ok phdrs)
    (hnull : (findDynamic t phnum phdrs).1 = 0) :
    outcome = .error .assertion := by
  rcases h with hunread | - | ⟨hread, rfl, hdynamic, _⟩ |
    - | ⟨hread, rfl, hdynamic, _, _⟩
  · exact absurd hphdrs (hunread phdrs)
  · rfl
  · cases hphdrs.symm.trans hread
    exact absurd hnull hdynamic
  · rfl
  · cases hphdrs.symm.trans hread
    exact absurd hnull hdynamic

theorem assertion_of_debug (h : SearchEnds t phdr phnum reads outcome)
    {phdrs : List ElfPhdr} {dyns : List ElfDyn}
    (hphdrs : t.readPhdrs phdr phnum = .ok phdrs)
    (hdyns : t.readDyns ((findDynamic t phnum phdrs).1 +
      (phdr - t.sizeofEhdr)) (findDynamic t phnum phdrs).2 = .ok dyns)
    (hnull : findDebug t (findDynamic t phnum phdrs).2 dyns = 0) :
    outcome = .error .assertion := by
  rcases h with hunread | - | ⟨hread, rfl, _, hunread⟩ |
    - | ⟨hread, rfl, _, hdyns', hdebug⟩
  · exact absurd hphdrs (hunread phdrs)
  · rfl
  · cases hphdrs.symm.trans hread
    exact absurd hdyns (hunread dyns)
  · rfl
  · cases hphdrs.symm.trans hread
    cases hdyns.symm.trans hdyns'
    exact absurd hnull hdebug

end SearchEnds

/-! ### The reads of `get_r_debug` -/

theorem remoteReads_window {α : Type} (m : Scan α) :
    remoteReads (WindowMark.window .attach .detach m).trace =
      remoteReads m.trace := by
  rw [WindowMark.window]
  cases h : m.outcome with
  | ok a =>
      rw [Run.trace_bind_ok rfl, Run.trace_bind_ok h, remoteReads_append,
        remoteReads_append]
      exact List.append_nil _
  | error s =>
      rw [Run.trace_bind_ok rfl, Run.bind_error h, remoteReads_append]
      rfl

theorem outcome_window {α : Type} (m : Scan α) :
    (WindowMark.window .attach .detach m).outcome = m.outcome := by
  rw [WindowMark.window]
  cases h : m.outcome with
  | ok a => rw [Run.outcome_bind_ok rfl, Run.outcome_bind_ok h]; rfl
  | error s => rw [Run.outcome_bind_ok rfl, Run.bind_error h]

/-- Every read is at an address found in a table of the target, the third at
the pointer of `DT_DEBUG`, which the loop over the dynamic table finds inside
its buffer; where an entry is missing an assertion stops the program. -/
structure ReadsDebugEntry (t : Target) (auxv : List Auxinfo)
    (reads : List ULong) (outcome : Except Stop RDebug) : Prop where
  length_le : reads.length ≤ 3
  first : ∀ a, reads[0]? = some a → phdrEntry auxv = some a
  second : ∀ a, reads[1]? = some a → ∃ phdr phdrs p,
    PhdrsAt t auxv phdr phdrs ∧
      dynamicEntry (phentPhnum t auxv).2 phdrs = some p ∧
      a = segmentAddr t phdr p
  final : ∀ a, reads[2]? = some a → ∃ phdr p dyns d,
    DynsAt t auxv phdr p dyns ∧
      debugEntry (p.pMemsz.setWidth 32) dyns = some d ∧ a = d.dPtr
  noPhdr : phdrEntry auxv = none → outcome = .error .assertion
  noDynamic : ∀ phdr phdrs, PhdrsAt t auxv phdr phdrs →
    dynamicEntry (phentPhnum t auxv).2 phdrs = none →
    outcome = .error .assertion
  noDebug : ∀ phdr p dyns, DynsAt t auxv phdr p dyns →
    debugEntry (p.pMemsz.setWidth 32) dyns = none →
    outcome = .error .assertion
  indices : ∀ dynSize dyns, ∀ i ∈ (dynScan dynSize dyns).1,
    i < entriesAllocated dynSize
  scanned : ∀ dynSize dyns, findDebug t dynSize dyns =
    (dynScan dynSize dyns).2.elim t.debugLocal (·.dPtr)

/-- No entry is missing, or the pointer that stands in for it is `NULL`. -/
structure EntriesPresent (t : Target) (auxv : List Auxinfo) : Prop where
  phdr : phdrEntry auxv ≠ none
  dynamic : ∀ phdr phdrs, PhdrsAt t auxv phdr phdrs →
    dynamicEntry (phentPhnum t auxv).2 phdrs = none → t.dynLocal = 0
  debug : ∀ phdr p dyns, DynsAt t auxv phdr p dyns → p.pVaddr ≠ 0 →
    debugEntry (p.pMemsz.setWidth 32) dyns = none → t.debugLocal = 0

section Search

variable {t : Target} {auxv : List Auxinfo} {phdr : ULong}
  {reads : List ULong} {outcome : Except Stop RDebug}

namespace SearchEnds

/-- Where `PT_DYNAMIC` is missing, only a `NULL` pointer keeps the search from
reading at the pointer that stands in for it. -/
theorem dynLocal_of_readsDebugEntry (hphdr : phdrEntry auxv = some phdr)
    (h : SearchEnds t phdr (phentPhnum t auxv).2 reads outcome)
    (hreads : ReadsDebugEntry t auxv reads outcome) {phdrs : List ElfPhdr}
    (hat : PhdrsAt t auxv phdr phdrs)
    (hnone : dynamicEntry (phentPhnum t auxv).2 phdrs = none) :
    t.dynLocal = 0 := by
  by_contra hlocal
  have hdyn := findDynamic_none (t := t) hnone
  have hsecond := (h.second_iff _).mpr ⟨phdrs, hat.read, by rwa [hdyn], rfl⟩
  obtain ⟨_, _, p, hat', hfound, _⟩ := hreads.second _ hsecond
  cases hphdr.symm.trans hat'.entry
  cases hat.read.symm.trans hat'.read
  exact absurd (hnone.symm.trans hfound) nofun

/-- The same where `DT_DEBUG` is missing. -/
theorem debugLocal_of_readsDebugEntry (hphdr : phdrEntry auxv = some phdr)
    (h : SearchEnds t phdr (phentPhnum t auxv).2 reads outcome)
    (hreads : ReadsDebugEntry t auxv reads outcome) {p : ElfPhdr}
    {dyns : List ElfDyn} (hat : DynsAt t auxv phdr p dyns)
    (hvaddr : p.pVaddr ≠ 0)
    (hnone : debugEntry (p.pMemsz.setWidth 32) dyns = none) :
    t.debugLocal = 0 := by
  by_contra hlocal
  obtain ⟨phdrs, hphdrs, hdynamic⟩ := hat.entry
  have hdyn := findDynamic_some (t := t) hdynamic
  have hdebug := findDebug_none (t := t) hnone
  have hthird : reads[2]? = some t.debugLocal := by
    rw [h.third_iff]
    refine ⟨phdrs, dyns, hphdrs.read, ?_⟩
    rw [hdyn, hdebug]
    exact ⟨hvaddr, hat.read, hlocal, rfl⟩
  obtain ⟨_, p', dyns', d, hat', hfound, _⟩ := hreads.final _ hthird
  obtain ⟨_, hphdrs', hdynamic'⟩ := hat'.entry
  cases hphdr.symm.trans hphdrs'.entry
  cases hphdrs.read.symm.trans hphdrs'.read
  cases hdynamic.symm.trans hdynamic'
  cases hat.read.symm.trans hat'.read
  exact absurd (hnone.symm.trans hfound) nofun

/-- A search on which nothing is missing. -/
theorem readsDebugEntry_of_present (hphdr : phdrEntry auxv = some phdr)
    (h : SearchEnds t phdr (phentPhnum t auxv).2 reads outcome)
    (hpresent : EntriesPresent t auxv) :
    ReadsDebugEntry t auxv reads outcome := by
  constructor
  · exact h.length_le
  · intro a ha
    rw [hphdr, ← h.first, ha]
  · intro a ha
    obtain ⟨phdrs, hread, hdyn, rfl⟩ := (h.second_iff a).mp ha
    have hat : PhdrsAt t auxv phdr phdrs := ⟨hphdr, hread⟩
    rcases hfound : dynamicEntry (phentPhnum t auxv).2 phdrs with - | p
    · rw [findDynamic_none hfound] at hdyn
      exact absurd (hpresent.dynamic phdr phdrs hat hfound) hdyn
    · rw [findDynamic_some hfound]
      exact ⟨phdr, phdrs, p, hat, hfound, rfl⟩
  · intro a ha
    obtain ⟨phdrs, dyns, hread, hdyn, hdyns, hdebug, rfl⟩ :=
      (h.third_iff a).mp ha
    have hat : PhdrsAt t auxv phdr phdrs := ⟨hphdr, hread⟩
    rcases hfound : dynamicEntry (phentPhnum t auxv).2 phdrs with - | p
    · rw [findDynamic_none hfound] at hdyn
      exact absurd (hpresent.dynamic phdr phdrs hat hfound) hdyn
    · rw [findDynamic_some hfound] at hdyn hdyns hdebug ⊢
      have hdynsAt : DynsAt t auxv phdr p dyns := ⟨⟨phdrs, hat, hfound⟩, hdyns⟩
      rcases hentry : debugEntry (p.pMemsz.setWidth 32) dyns with - | d
      · rw [findDebug_none hentry] at hdebug
        exact absurd (hpresent.debug phdr p dyns hdynsAt hdyn hentry) hdebug
      · exact ⟨phdr, p, dyns, d, hdynsAt, hentry, findDebug_some hentry⟩
  · intro hnone
    exact absurd hnone hpresent.phdr
  · intro phdr' phdrs hat hnone
    cases hphdr.symm.trans hat.entry
    apply h.assertion_of_dynamic hat.read
    rw [findDynamic_none hnone]
    exact hpresent.dynamic phdr phdrs hat hnone
  · intro phdr' p dyns hat hnone
    obtain ⟨phdrs, hphdrs, hdynamic⟩ := hat.entry
    cases hphdr.symm.trans hphdrs.entry
    have hdyn := findDynamic_some (t := t) hdynamic
    by_cases hvaddr : p.pVaddr = 0
    · exact h.assertion_of_dynamic hphdrs.read (by rwa [hdyn])
    · have hdyns : t.readDyns ((findDynamic t (phentPhnum t auxv).2 phdrs).1 +
          (phdr - t.sizeofEhdr))
          (findDynamic t (phentPhnum t auxv).2 phdrs).2 = .ok dyns := by
        rw [hdyn]
        exact hat.read
      apply h.assertion_of_debug hphdrs.read hdyns
      rw [hdyn, findDebug_none hnone]
      exact hpresent.debug phdr p dyns hat hvaddr hnone
  · exact dynScan_lt_allocated
  · exact findDebug_eq_dynScan t

end SearchEnds

end Search

section GetRDebug

variable {t : Target} {auxv : List Auxinfo} (hauxv : t.auxv = some auxv)

include hauxv

theorem getRDebug_refused
    (hphent : (phentPhnum t auxv).1.signExtend 64 ≠ t.sizeofPhdr) :
    getRDebug t = Run.stop .assertion := by
  rw [getRDebug_eq, hauxv]
  exact if_pos hphent

theorem getRDebug_search
    (hphent : (phentPhnum t auxv).1.signExtend 64 = t.sizeofPhdr) :
    getRDebug t = WindowMark.window .attach .detach
      (searchRDebug t ((phdrEntry auxv).getD t.auxLocals.1)
        (phentPhnum t auxv).2) := by
  rw [getRDebug_eq, hauxv, ← fst_foldl_auxStep]
  exact if_neg (not_not_intro hphent)

/-- `get_r_debug` reads only at addresses found in the target's tables, and
stops where an entry is missing, exactly when the size of a program header is
not the one expected or no entry is missing: the pointers that stand in for
missing entries are not `NULL`, so that the assertions do not catch them. -/
theorem getRDebug_reads_iff :
    ReadsDebugEntry t auxv (remoteReads (getRDebug t).trace)
        (getRDebug t).outcome ↔
      ((phentPhnum t auxv).1.signExtend 64 = t.sizeofPhdr →
        EntriesPresent t auxv) := by
  by_cases hphent : (phentPhnum t auxv).1.signExtend 64 = t.sizeofPhdr
  · have hends := searchEnds t ((phdrEntry auxv).getD t.auxLocals.1)
      (phentPhnum t auxv).2
    rw [getRDebug_search hauxv hphent, remoteReads_window, outcome_window]
    rcases hphdr : phdrEntry auxv with - | phdr
    · rw [hphdr] at hends
      constructor
      · intro hreads
        have hfirst := hreads.first _ hends.first
        exact absurd (hphdr.symm.trans hfirst) nofun
      · intro hpresent
        exact absurd hphdr (hpresent hphent).phdr
    · rw [hphdr] at hends
      constructor
      · intro hreads _
        refine ⟨by simp [hphdr], ?_, ?_⟩
        · intro phdr' phdrs hat hnone
          cases hphdr.symm.trans hat.entry
          exact hends.dynLocal_of_readsDebugEntry hphdr hreads hat hnone
        · intro phdr' p dyns hat hvaddr hnone
          obtain ⟨_, hphdrs, _⟩ := hat.entry
          cases hphdr.symm.trans hphdrs.entry
          exact hends.debugLocal_of_readsDebugEntry hphdr hreads hat hvaddr
            hnone
      · intro hpresent
        exact hends.readsDebugEntry_of_present hphdr (hpresent hphent)
  · rw [getRDebug_refused hauxv hphent]
    refine ⟨fun _ h => absurd h hphent, fun _ => ?_⟩
    constructor
    · exact Nat.zero_le 3
    · exact nofun
    · exact nofun
    · exact nofun
    · exact fun _ => rfl
    · exact fun _ _ _ _ => rfl
    · exact fun _ _ _ _ _ => rfl
    · exact dynScan_lt_allocated
    · exact findDebug_eq_dynScan t

end GetRDebug

/-- The auxiliary vector of a process whose program headers are at
`0x100040`. -/
def sampleAuxv : List Auxinfo :=
  [⟨.atPhdr, 0x100040⟩, ⟨.atPhent, 56⟩, ⟨.atPhnum, 1⟩]

/-- A process whose program headers are the given ones. -/
def withPhdrs (phdrs : List ElfPhdr) : Target where
  __ := Target.sample [] fun _ =>
    ⟨fun _ => none, fun _ => ⟨false, ⟨0, [], 0, 0, none⟩⟩⟩
  dynLocal := 0x801000
  debugLocal := 0x801008
  readPhdrs _ _ := .ok phdrs
  readRDebug _ := .failed

/-- A statically linked process has no `PT_DYNAMIC`: the second read is at the
pointer that stands in for it, and no assertion stops the program. -/
theorem static_reads_stray :
    remoteReads (getRDebug (withPhdrs [⟨false, 0, 64⟩])).trace =
        [0x100040, 0x901000, 0x801008] ∧
      (getRDebug (withPhdrs [⟨false, 0, 64⟩])).outcome = .error .errx ∧
      ¬ ReadsDebugEntry (withPhdrs [⟨false, 0, 64⟩]) sampleAuxv
        (remoteReads (getRDebug (withPhdrs [⟨false, 0, 64⟩])).trace)
        (getRDebug (withPhdrs [⟨false, 0, 64⟩])).outcome := by
  refine ⟨rfl, rfl, fun h => ?_⟩
  have hstop := h.noDynamic 0x100040 [⟨false, 0, 64⟩] ⟨rfl, rfl⟩ rfl
  cases hstop

/-- A dynamically linked process is searched as intended. -/
theorem dynamic_reads_followed :
    ReadsDebugEntry (withPhdrs [⟨true, 0x3000, 16⟩]) sampleAuxv
      (remoteReads (getRDebug (withPhdrs [⟨true, 0x3000, 16⟩])).trace)
      (getRDebug (withPhdrs [⟨true, 0x3000, 16⟩])).outcome := by
  rw [getRDebug_reads_iff rfl]
  intro _
  constructor
  · exact nofun
  · intro phdr phdrs hat hnone
    cases hat.entry
    cases hat.read
    cases hnone
  · intro phdr p dyns hat _ hnone
    obtain ⟨phdrs, hphdrs, hdynamic⟩ := hat.entry
    cases hphdrs.entry
    cases hphdrs.read
    cases hdynamic
    cases hat.read
    cases hnone

end Chericat
