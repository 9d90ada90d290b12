import Mathlib.Data.List.Forall2
import Mathlib.Data.List.TakeWhile
import Chericat.GetString
import Chericat.ScanCompletes
import Chericat.UnreadableNames

/-!
The strings of a scan are those that `get_string` finds in the memory of the
process: the paths of the link map, and the names of the compartments.
-/

namespace Chericat

open SqlText

/-! ### One string -/

/-- The call as the scan sees it. -/
def RemoteMemory.stringRead (m : RemoteMemory) (addr : ULong) : StringRead where
  requests := (m.getString addr 0 2).trace.map StringRequest.remote
  result :=
    match (m.getString addr 0 2).outcome with
    | .ok (some buf) =>
        (cString buf).map fun bytes => bytes.map fun b => Char.ofNat b.toNat
    | _ => none

/-- The bytes in front of the first `NUL`, 4095 of them at most. -/
def RemoteMemory.stringAt (m : RemoteMemory) (addr : ULong) : Text :=
  ((m.bytesAt addr (ptraceReadStringMaxsize - 1)).takeWhile (· ≠ 0)).map
    fun b => Char.ofNat b.toNat

/-- The pages of the string can be read, as far as its `NUL` or the limit. -/
def RemoteMemory.StringMapped (m : RemoteMemory) (addr : ULong) : Prop :=
  ∀ k < ptraceReadStringMaxsize, NoNul m addr k →
    m.readable (pageNumber (offsetBy addr k)) = true

section Strings

variable {m : RemoteMemory} {addr : ULong}

theorem takeWhile_bytesAt_of_noNul {n : Nat} (h : NoNul m addr n) :
    (m.bytesAt addr n).takeWhile (· ≠ 0) = m.bytesAt addr n := by
  rw [List.takeWhile_eq_self_iff]
  intro b hb
  refine decide_eq_true fun hzero => not_mem_bytesAt h ?_
  rwa [hzero] at hb

theorem takeWhile_bytesAt_of_nul {k n : Nat} (hk : k < n)
    (hbefore : NoNul m addr k) (hzero : m.byte (offsetBy addr k) = 0) :
    (m.bytesAt addr n).takeWhile (· ≠ 0) = m.bytesAt addr k := by
  obtain ⟨rest, hrest⟩ := m.bytesAt_eq_append addr hk
  rw [hrest, hzero, List.takeWhile_append_of_pos,
    List.takeWhile_cons_of_neg (by simp), List.append_nil]
  intro b hb
  refine decide_eq_true fun hb0 => not_mem_bytesAt hbefore ?_
  rwa [hb0] at hb

/-- A buffer that is returned holds the string. -/
theorem StringEnds.cString_eq {buf : Buffer} (h : StringEnds m addr (some buf)) :
    cString buf = some
      ((m.bytesAt addr (ptraceReadStringMaxsize - 1)).takeWhile (· ≠ 0)) := by
  by_cases hlong : NoNul m addr ptraceReadStringMaxsize
  · have hless : NoNul m addr (ptraceReadStringMaxsize - 1) :=
      fun k hk => hlong k (by omega)
    rw [h.long hlong, takeWhile_bytesAt_of_noNul hless]
  · obtain ⟨k, hk, hbefore, hzero⟩ := exists_first_nul hlong
    rw [h.short hk hbefore hzero]
    rcases Nat.lt_or_ge k (ptraceReadStringMaxsize - 1) with hlt | hge
    · rw [takeWhile_bytesAt_of_nul hlt hbefore hzero]
    · obtain rfl : k = ptraceReadStringMaxsize - 1 := by omega
      rw [takeWhile_bytesAt_of_noNul hbefore]

variable (addr) in
/-- The scan gets the string exactly where its pages can be read. -/
theorem stringRead_eq_some_iff (hallocates : ∀ n, m.allocates n = true)
    {s : Text} : (m.stringRead addr).result = some s ↔
      m.StringMapped addr ∧ s = m.stringAt addr := by
  obtain ⟨⟨r, hr, hends⟩, _⟩ :=
    getString_sound addr hallocates (Nat.le_refl 2)
  have hmapped : m.StringMapped addr ↔ r ≠ none := by
    simp only [ne_eq, hends.null_iff, RemoteMemory.StringMapped, not_exists,
      not_and, Bool.not_eq_false]
  rw [hmapped, RemoteMemory.stringRead, hr]
  rcases r with - | buf
  · simp
  · dsimp only
    rw [hends.cString_eq, Option.map_some, ← RemoteMemory.stringAt,
      Option.some.injEq, eq_comm]
    exact (and_iff_right (Option.some_ne_none buf)).symm

end Strings

-- unfolded, it is a list of 4095 bytes
attribute [irreducible] RemoteMemory.stringAt

/-! ### The strings of the link map and of the compartment array -/

/-- The process, with the strings that stand in this memory. -/
def Target.reading (t : Target) (m : RemoteMemory) : Target :=
  { t with getString := m.stringRead }

/-- A sub-compartment whose name can be read. -/
def HoldsSubobject (m : RemoteMemory) (sub : Remote CompartEntry)
    (s : Subobject) : Prop :=
  ∃ entry, sub.read = .ok entry ∧ m.StringMapped entry.compartName ∧
    s = ⟨m.stringAt entry.compartName, entry.compartId, entry.start, entry.stop⟩

/-- An object whose path and the names of whose sub-compartments can be read. -/
def HoldsObject (m : RemoteMemory) (obj : Remote ObjEntry)
    (o : CompartObject) : Prop :=
  ∃ entry, obj.read = .ok entry ∧ m.StringMapped entry.lName ∧
    o.object = ⟨m.stringAt entry.lName, entry.defaultCompartId, entry.mapbase,
      entry.mapsize⟩ ∧
    List.Forall₂ (HoldsSubobject m) entry.comparts o.subs

/-- An element of the compartment array, and its name if that can be read. -/
def HoldsName (m : RemoteMemory) (entry : Remote ULong)
    (name : Option Text) : Prop :=
  ∃ addr, entry.read = .ok addr ∧
    ∀ s, name = some s ↔ m.StringMapped addr ∧ s = m.stringAt addr

section Reading

variable {t : Target} {m : RemoteMemory} (hallocates : ∀ n, m.allocates n = true)
include hallocates

theorem subobject_reading_iff {sub : Remote CompartEntry} {s : Subobject} :
    subobject (t.reading m) sub = some s ↔ HoldsSubobject m sub s := by
  rw [subobject, HoldsSubobject]
  split
  · next entry hread =>
      simp only [Option.map_eq_some_iff, Target.reading,
        stringRead_eq_some_iff _ hallocates, hread, ReadResult.ok.injEq]
      constructor
      · rintro ⟨_, ⟨hmapped, rfl⟩, rfl⟩
        exact ⟨entry, rfl, hmapped, rfl⟩
      · rintro ⟨_, rfl, hmapped, rfl⟩
        exact ⟨_, ⟨hmapped, rfl⟩, rfl⟩
  · next hnot =>
      constructor
      · intro h
        cases h
      · rintro ⟨entry, hread, _⟩
        exact absurd hread (hnot entry)

theorem readsObject_reading_iff {obj : Remote ObjEntry} {o : CompartObject} :
    ReadsObject (t.reading m) obj o ↔ HoldsObject m obj o := by
  have hsubs (entry : ObjEntry) :
      entry.comparts.map (subobject (t.reading m)) = o.subs.map some ↔
        List.Forall₂ (HoldsSubobject m) entry.comparts o.subs := by
    rw [← List.forall₂_eq_eq_eq, List.forall₂_map_left_iff,
      List.forall₂_map_right_iff]
    simp only [subobject_reading_iff hallocates]
  constructor
  · rintro ⟨hobject, hread⟩
    rw [linkObject] at hobject
    split at hobject
    · next entry hentry =>
        obtain ⟨path, hpath, ho⟩ := Option.map_eq_some_iff.1 hobject
        obtain ⟨hmapped, rfl⟩ := (stringRead_eq_some_iff _ hallocates).1 hpath
        exact ⟨entry, hentry, hmapped, ho.symm,
          (hsubs entry).1 (hread entry hentry)⟩
    · cases hobject
  · rintro ⟨entry, hentry, hmapped, ho, hheld⟩
    constructor
    · have hpath : (m.stringRead entry.lName).result =
          some (m.stringAt entry.lName) :=
        (stringRead_eq_some_iff _ hallocates).2 ⟨hmapped, rfl⟩
      rw [linkObject, hentry, ho]
      exact congrArg (Option.map _) hpath
    · intro entry' hentry'
      cases hentry.symm.trans hentry'
      exact (hsubs entry).2 hheld

theorem readsName_reading_iff {entry : Remote ULong} {name : Option Text} :
    ReadsName (t.reading m) entry name ↔ HoldsName m entry name := by
  refine exists_congr fun addr => and_congr_right fun _ => ?_
  rw [eq_comm, Option.ext_iff]
  exact forall_congr' fun s =>
    iff_congr Iff.rfl (stringRead_eq_some_iff addr hallocates)

theorem HoldsObject.readable {obj : Remote ObjEntry} {o : CompartObject}
    (h : HoldsObject m obj o) : ObjectReadable (t.reading m) obj := by
  have hread {addr : ULong} (hmapped : m.StringMapped addr) :
      (m.stringRead addr).result ≠ none :=
    Option.ne_none_iff_exists'.2
      ⟨_, (stringRead_eq_some_iff _ hallocates).2 ⟨hmapped, rfl⟩⟩
  obtain ⟨entry, hentry, hmapped, -, hsubs⟩ := h
  have hreadable : ∀ sub s, HoldsSubobject m sub s →
      SubcompartReadable (t.reading m) sub ∧ HoldsSubobject m sub s := by
    rintro sub s ⟨e, he, hname, hs⟩
    exact ⟨⟨e, he, hread hname⟩, e, he, hname, hs⟩
  exact ⟨entry, hentry, hread hmapped,
    ((List.forall₂_and_left _ _).1 (hsubs.imp hreadable)).1⟩

/-- The link map can be read exactly when what is read of it stands in the
memory. -/
theorem readable_reading_iff {rMap : List (Remote ObjEntry)} :
    (∀ obj ∈ rMap, ObjectReadable (t.reading m) obj) ↔
      ∃ objs, List.Forall₂ (HoldsObject m) rMap objs := by
  constructor
  · intro h
    obtain ⟨objs, hobjs, -⟩ := exists_readsObjects h
    exact ⟨objs, hobjs.imp fun _ _ => (readsObject_reading_iff hallocates).1⟩
  · rintro ⟨objs, hobjs⟩
    have hboth := hobjs.imp fun _ _ h =>
      And.intro (HoldsObject.readable (t := t) hallocates h) h
    exact ((List.forall₂_and_left _ _).1 hboth).1

end Reading

/-- A scan of a process whose strings stand in this memory: how far it comes,
and what it makes of the link map and of the compartment array. -/
structure ScansStrings (t : Target) (m : RemoteMemory) : Prop where
  reaches : ReachesBlocks (t.reading m) ↔ FindsMap t ∧
    ∃ debug objs, (getRDebug t).outcome = .ok debug ∧
      List.Forall₂ (HoldsObject m) debug.rMap objs ∧
      ∀ entry ∈ debug.rComparts, CompartReadable entry
  linkMap : ∀ debug objs, List.Forall₂ (HoldsObject m) debug.rMap objs →
    (scanRtldLinkmap (t.reading m) debug).outcome =
        .ok (scannedComparts (objs.map CompartObject.object)) ∧
      statements (scanRtldLinkmap (t.reading m) debug).trace =
        objs.flatMap CompartObject.inserts
  array : ∀ debug names, List.Forall₂ (HoldsName m) debug.rComparts names →
    (scanRComparts (t.reading m) debug).outcome = .ok names ∧
      statements (scanRComparts (t.reading m) debug).trace =
        nameStatements names

/-- Where every allocation succeeds, a scan gets to the blocks exactly when the
paths of the link map and the names of the sub-compartments stand in pages that
can be read; it takes them from there as they are, and passes over the names of
the array that cannot be read. -/
theorem scan_strings {m : RemoteMemory}
    (hallocates : ∀ n, m.allocates n = true) (t : Target) :
    ScansStrings t m := by
  constructor
  · have hblocks {map} (hprocs : t.procs = some 1)
        (hmap : t.vmmap = some map) : ReachesBlocks (t.reading m) ↔
          ∃ debug, (getRDebug t).outcome = .ok debug ∧
            (∃ objs, List.Forall₂ (HoldsObject m) debug.rMap objs) ∧
            ∀ entry ∈ debug.rComparts, CompartReadable entry := by
      simp only [← readable_reading_iff (t := t) hallocates]
      exact reachesBlocks_iff (t := t.reading m) hprocs hmap
    constructor
    · intro h
      obtain ⟨hprocs, map, hmap⟩ := h.findsMap
      obtain ⟨debug, hdebug, ⟨objs, hobjs⟩, hnames⟩ := (hblocks hprocs hmap).1 h
      exact ⟨⟨hprocs, map, hmap⟩, debug, objs, hdebug, hobjs, hnames⟩
    · rintro ⟨⟨hprocs, map, hmap⟩, debug, objs, hdebug, hobjs, hnames⟩
      exact (hblocks hprocs hmap).2 ⟨debug, hdebug, ⟨objs, hobjs⟩, hnames⟩
  · intro debug objs hobjs
    have hreads : List.Forall₂ (ReadsObject (t.reading m)) debug.rMap objs :=
      hobjs.imp fun _ _ => (readsObject_reading_iff hallocates).2
    obtain ⟨⟨comparts, hok⟩, hinserts⟩ := scanRtldLinkmap_inserts hreads
    obtain ⟨found, hfound, rfl⟩ := scanRtldLinkmap_ok hok
    have hsame : found.map some = (objs.map CompartObject.object).map some := by
      rw [← hfound, List.map_map, ← List.forall₂_eq_eq_eq,
        List.forall₂_map_left_iff, List.forall₂_map_right_iff]
      exact hreads.imp fun _ _ h => h.object
    rw [← List.map_injective_iff.2 (Option.some_injective _) hsame]
    exact ⟨hok, hinserts⟩
  · intro debug names hnames
    exact scanRComparts_names
      (hnames.imp fun _ _ => (readsName_reading_iff hallocates).2)

/-- One object, whose path goes across the end of a page. -/
def acrossDebug : RDebug where
  rMap := [⟨0x8000, .ok ⟨0x1ffe, 0x40000, 0x2000, 1, []⟩⟩]
  rComparts := []

def acrossTarget : Target :=
  { Target.sample [] fun _ =>
      ⟨fun _ => none, fun _ => ⟨false, ⟨0, [], 0, 0, none⟩⟩⟩ with
    readRDebug := fun _ => .ok acrossDebug }

theorem acrossPages_mapped : acrossPages.StringMapped 0x1ffe := by
  have hnear : ∀ k < 5,
      acrossPages.readable (pageNumber (offsetBy 0x1ffe k)) = true := by
    decide
  intro k _ hbefore
  refine hnear k ?_
  by_contra hfar
  exact hbefore 4 (by omega) (by decide)

/-- The path is put together from both pages. -/
theorem acrossPages_scanned :
    ReachesBlocks (acrossTarget.reading acrossPages) ∧
      (scanRtldLinkmap (acrossTarget.reading acrossPages)
        acrossDebug).outcome =
          .ok [⟨1, some "AAAA".toList, 0x40000, 0x42000, true⟩] := by
  have hstrings : ScansStrings acrossTarget acrossPages :=
    scan_strings (fun _ => rfl) acrossTarget
  have hpath : acrossPages.stringAt 0x1ffe = "AAAA".toList := by
    decide +kernel
  have hobjs : List.Forall₂ (HoldsObject acrossPages) acrossDebug.rMap
      [⟨⟨"AAAA".toList, 1, 0x40000, 0x2000⟩, []⟩] :=
    .cons ⟨_, rfl, acrossPages_mapped, by rw [hpath], .nil⟩ .nil
  exact ⟨hstrings.reaches.2 ⟨⟨rfl, [], rfl⟩, acrossDebug, _, rfl, hobjs,
    List.forall_mem_nil _⟩, (hstrings.linkMap _ _ hobjs).1⟩

end Chericat
