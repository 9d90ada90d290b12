import Chericat.CompartTotals
import Chericat.PermissionClasses
import Chericat.ProcessGraphs
import Chericat.ScanHistory
import Chericat.UnreadableNames
import Mathlib.Data.List.Sigma

/-!
The overviews of a process.  When its memory can be read, the counters of
`vm_caps_view` and `comp_caps_view` are numbers of the capabilities it held,
and the ranges of the second view are those of its link map.
-/

namespace Chericat

open Numeral

/-! ### The rows of the capabilities -/

/-- The counters for some capabilities. -/
def countHeld (held : List HeldCap) : CapCounts :=
  held.foldl (fun n h => n.count h.cap.perms) .zero

/-- The row shows the capability, under some path. -/
structure CapInfo.Shows (c : CapInfo) (h : HeldCap) : Prop where
  located : c.At h.loc h.cap.address
  perms : c.perms = h.cap.perms

/-- A test of the rows counts what the same test of the capabilities takes. -/
theorem countCaps_eq_countHeld {rows : List CapInfo} {held : List HeldCap}
    (h : List.Forall₂ CapInfo.Shows rows held) {test : CapInfo → Bool}
    {p : HeldCap → Bool} (htest : ∀ c h, c.Shows h → test c = p h) :
    countCaps test rows = countHeld (held.filter p) := by
  rw [countCaps, countHeld, List.foldl_filter]
  generalize CapCounts.zero = n
  induction h generalizing n with
  | nil => rfl
  | cons hshows _ ih =>
      rw [List.foldl_cons, List.foldl_cons, htest _ _ hshows, hshows.perms, ih]

/-- The order of the capabilities does not matter. -/
theorem countHeld_perm {held held' : List HeldCap} (h : held.Perm held') :
    countHeld held = countHeld held' := by
  have hcomm : RightCommutative fun (n : CapCounts) (h : HeldCap) =>
      n.count h.cap.perms := by
    refine ⟨fun n h h' => CapCounts.ext_ofClass rfl fun k => ?_⟩
    simp only [CapCounts.ofClass_count]
    omega
  exact h.foldl_eq _

/-! ### The counters of a block -/

/-- A test that takes one part of a list and nothing of the others. -/
theorem filter_flatMap_eq {α β : Type} {l : List α} {f : α → List β}
    {p : β → Bool} {a : α} (hl : l.Nodup) (ha : a ∈ l)
    (hown : ∀ b ∈ f a, p b = true)
    (hother : ∀ a' ∈ l, a' ≠ a → ∀ b ∈ f a', p b = false) :
    (l.flatMap f).filter p = f a := by
  obtain ⟨s, u, rfl⟩ := List.append_of_mem ha
  have hnot : a ∉ s ++ u := (List.nodup_middle.1 hl).notMem
  have hempty : ∀ l', l' ⊆ s ++ u → (l'.flatMap f).filter p = [] := by
    intro l' hsub
    rw [List.filter_eq_nil_iff]
    intro b hb
    obtain ⟨a', ha', hb⟩ := List.mem_flatMap.1 hb
    have hmem : a' ∈ s ++ a :: u := by
      have hsplit := hsub ha'
      simp only [List.mem_append, List.mem_cons] at hsplit ⊢
      tauto
    have hne : a' ≠ a := fun heq => hnot (heq ▸ hsub ha')
    simp [hother a' hmem hne b hb]
  rw [List.flatMap_append, List.flatMap_cons, List.filter_append,
    List.filter_append, hempty s (List.subset_append_left s u),
    hempty u (List.subset_append_right s u), List.filter_eq_self.2 hown,
    List.append_nil, List.nil_append]

/-- What passes one of two tests that exclude each other. -/
theorem filter_or_perm {α : Type} {p q : α → Bool}
    (h : ∀ a, q a = true → p a = false) (l : List α) :
    (l.filter fun a => p a || q a).Perm (l.filter p ++ l.filter q) := by
  have hsplit := List.filter_append_perm p (l.filter fun a => p a || q a)
  have hp : ∀ a, (p a && (p a || q a)) = p a := by
    intro a
    cases p a <;> rfl
  have hq : ∀ a, ((!p a) && (p a || q a)) = q a := by
    intro a
    cases hqa : q a with
    | false => cases p a <;> rfl
    | true => simp [h a hqa]
  simp only [List.filter_filter, hp, hq] at hsplit
  exact hsplit.symm

variable {t : Target} {map : List KinfoVmentry}

/-- What is counted in the row of a block: what the block holds, and what is
held elsewhere at an address that the row's test takes in. -/
def countedWith (t : Target) (map : List KinfoVmentry)
    (e : KinfoVmentry × Nat) : List HeldCap :=
  blockHeld t e ++ (processHeld t map).filter fun h =>
    Overcounted e.1.kveStart e.1.kveEnd h.loc

/-- Of the capabilities of the process, those in the range of a block are its
own. -/
theorem filter_inRange_processHeld (hok : MapOk map) (h : CapturesHeld t map)
    {e : KinfoVmentry × Nat} (he : e ∈ map.zipIdx) :
    ((processHeld t map).filter fun h =>
      InRange e.1.kveStart e.1.kveEnd h.loc) = blockHeld t e := by
  refine filter_flatMap_eq ((List.nodup_zipIdx_map_snd map).of_map _) he ?_ ?_
  · intro b hb
    exact decide_eq_true (contains_of_mem_blockHeld hok h he hb)
  · intro e' he' hne b hb
    refine decide_eq_false fun hin => hne ?_
    have hcontains := contains_of_mem_blockHeld hok h he' hb
    have hindex := hok.unique (List.mem_zipIdx_iff_getElem?.1 he')
      (List.mem_zipIdx_iff_getElem?.1 he) hcontains hin
    have hentry := List.mem_zipIdx_iff_getElem?.1 he'
    rw [hindex, List.mem_zipIdx_iff_getElem?.1 he, Option.some.injEq] at hentry
    exact Prod.ext hentry.symm hindex

theorem vmCounts_eq_countHeld (hok : MapOk map) (h : CapturesHeld t map)
    {rows : List CapInfo}
    (hrows : List.Forall₂ CapInfo.Shows rows (processHeld t map))
    {e : KinfoVmentry × Nat} (he : e ∈ map.zipIdx) {v : VmInfo}
    (hv : v.toVmEntry.RecordOf e.1) :
    vmCounts rows v = countHeld (countedWith t map e) := by
  have htest : ∀ (c : CapInfo) (h : HeldCap), c.Shows h →
      inVmBlock v.toVmEntry c.capLocAddr =
        (decide (InRange e.1.kveStart e.1.kveEnd h.loc) ||
          decide (Overcounted e.1.kveStart e.1.kveEnd h.loc)) := by
    intro c h hshows
    rw [Bool.eq_iff_iff, hshows.located.1,
      inVmBlock_hexText ⟨hv.startAddr, hv.endAddr⟩, passes_iff]
    simp
  rw [vmCounts, countCaps_eq_countHeld hrows htest, countedWith,
    ← filter_inRange_processHeld hok h he]
  refine countHeld_perm (filter_or_perm ?_ _)
  intro a hover
  exact decide_eq_false (not_inRange_of_overcounted (of_decide_eq_true hover))

/-! ### The compartments of the link map -/

/-- The id and the range of an object or of a sub-compartment. -/
structure CompartRange where
  id : Nat
  start : ULong
  stop : ULong

/-- What `comp_caps_view` takes for an address in the range. -/
def CompartRange.Takes (range : CompartRange) (a : ULong) : Prop :=
  InRange range.start range.stop a ∨ Overcounted range.start range.stop a

instance (range : CompartRange) (a : ULong) : Decidable (range.Takes a) :=
  inferInstanceAs (Decidable (_ ∨ _))

def CompartObject.ranges (o : CompartObject) : List CompartRange :=
  ⟨o.object.defaultCompartId, o.object.mapbase,
      o.object.mapbase + o.object.mapsize⟩ ::
    o.subs.map fun s => ⟨s.compartId, s.start, s.stop⟩

/-- The last range of the link map with this id. -/
def lastRange (objs : List CompartObject) (id : Int) : Option CompartRange :=
  lastWrite (fun range => if id = range.id then some range else none)
    (objs.flatMap CompartObject.ranges)

/-- The row has the id and the range. -/
structure CompInfo.Ranges (r : CompInfo) (range : CompartRange) : Prop where
  compartId : r.compartId = range.id
  spans : r.Spans range.start range.stop

/-- The name of the row does not matter. -/
theorem CompInfo.ranges_rename {r : CompInfo} {range : CompartRange}
    {name : Option Text} : (r.rename name).Ranges range ↔ r.Ranges range :=
  ⟨fun h => ⟨h.compartId, h.spans⟩, fun h => ⟨h.compartId, h.spans⟩⟩

/-- The row last inserted under an id has the last range with it. -/
theorem lastWrite_inserts (objs : List CompartObject) (id : Int) :
    Option.Rel CompInfo.Ranges
      (lastWrite (rowWrite id) (objs.flatMap CompartObject.inserts))
      (lastRange objs id) := by
  refine lastWrite_rel ?_
  refine List.rel_flatMap (List.forall₂_same.2 fun o _ => Eq.refl o) ?_
  rintro o _ rfl
  refine .cons ?_ ?_
  · rw [rowWrite, LinkObject.compart]
    by_cases hid : id = o.object.defaultCompartId
    · rw [if_pos hid, if_pos hid]
      exact .some ⟨rfl, rfl, rfl⟩
    · rw [if_neg hid, if_neg hid]
      exact .none
  · rw [List.forall₂_map_left_iff, List.forall₂_map_right_iff,
      List.forall₂_same]
    intro s _
    rw [rowWrite, Subobject.compart]
    by_cases hid : id = s.compartId
    · rw [if_pos hid, if_pos hid]
      exact .some ⟨rfl, rfl, rfl⟩
    · rw [if_neg hid, if_neg hid]
      exact .none

/-- Names change no range. -/
theorem rel_map_rename {row : Option CompInfo} {range : Option CompartRange}
    (h : Option.Rel CompInfo.Ranges row range) (name : CompInfo → Option Text) :
    Option.Rel CompInfo.Ranges (row.map fun r => r.rename (name r)) range := by
  cases h with
  | none => exact .none
  | some h => exact .some (CompInfo.ranges_rename.2 h)

theorem Comparts.SameButNames.ranges {cs cs' : Comparts}
    (h : cs.SameButNames cs') {id : Int} {range : Option CompartRange}
    (hrange : Option.Rel CompInfo.Ranges (cs'.lookup id) range) :
    Option.Rel CompInfo.Ranges (cs.lookup id) range := by
  have hsame := h id
  generalize cs.lookup id = row, cs'.lookup id = row' at hsame hrange
  cases hrange with
  | none =>
      rw [Option.map_eq_none_iff.1 hsame]
      exact .none
  | some h =>
      obtain ⟨r, rfl, hr⟩ := Option.map_eq_some_iff.1 hsame
      rw [← CompInfo.ranges_rename, ← hr, CompInfo.ranges_rename] at h
      exact .some h

/-- The row of an id has the last range that the link map has for it. -/
theorem CompletedScan.ranges (c : CompletedScan t map)
    {objs : List CompartObject}
    (hobjs : List.Forall₂ (ReadsObject t) c.debug.rMap objs) (id : Int) :
    Option.Rel CompInfo.Ranges
      ((c.before.foldl Statement.runComparts Comparts.empty).lookup id)
      (lastRange objs id) := by
  have hsearch : Spare .comparts (statements (getRDebug t).trace) :=
    spare_statements (spares_of_writes (@writes_getRDebug .vm t) (by decide))
  have hcreate : (statements createTables.trace).foldl (Statement.onRow id)
      (Comparts.empty.lookup id) = none := rfl
  have hput : Option.Rel CompInfo.Ranges
      ((objs.flatMap CompartObject.inserts).foldl (Statement.onRow id) none)
      (lastRange objs id) := by
    rw [foldl_onRow, lastRow, Option.or_none]
    exact rel_map_rename (lastWrite_inserts objs id) fun r =>
      (lastWrite (nameWrite id) (objs.flatMap CompartObject.inserts)).getD
        r.compartName
  rw [lookup_foldl_runComparts, before, (scanRtldLinkmap_inserts hobjs).2,
    List.foldl_append, List.foldl_append, List.foldl_append, hcreate,
    hsearch.onRow]
  rcases (onlyNames_scanRComparts t c.debug).onRow id _ with hkeep | ⟨n, hname⟩
  · rw [hkeep]
    exact hput
  · rw [hname]
    exact rel_map_rename hput fun _ => n

/-- So has the row that SQLite has stored. -/
theorem CompletedScan.ranges_dbScanned (c : CompletedScan t map)
    (hclean : t.Clean) (hmap : t.vmmap = some map)
    (hscan : (scanMem t).outcome = .ok ⟨⟩) {objs : List CompartObject}
    (hobjs : List.Forall₂ (ReadsObject t) c.debug.rMap objs) (id : Int) :
    Option.Rel CompInfo.Ranges ((dbScanned t Db.empty).comparts.lookup id)
      (lastRange objs id) := by
  have hcomparts : (dbAfter t Db.empty).comparts =
      c.before.foldl Statement.runComparts Comparts.empty := by
    rw [c.dbAfter_eq hmap hscan, Db.empty]
  refine (sameRows_dbScanned hclean Db.empty).comparts.ranges ?_
  rw [hcomparts]
  exact c.ranges hobjs id

theorem lastRange_ne_none {objs : List CompartObject} {o : CompartObject}
    (ho : o ∈ objs) {range : CompartRange} (hrange : range ∈ o.ranges) :
    lastRange objs range.id ≠ none := by
  intro hlast
  have hnone := lastWrite_eq_none_iff.1 hlast range
    (List.mem_flatMap.2 ⟨o, ho, hrange⟩)
  simp at hnone

/-- An id with a range has a row. -/
theorem Comparts.exists_mem_rows {cs : Comparts} {id : Int}
    {range : Option CompartRange} (hne : range ≠ none)
    (h : Option.Rel CompInfo.Ranges (cs.lookup id) range) :
    ∃ r ∈ cs.rows, r.compartId = id := by
  cases hrow : cs.lookup id with
  | none =>
      rw [hrow] at h
      cases h
      exact absurd rfl hne
  | some r =>
      have hid := Comparts.compartId_of_lookup hrow
      refine ⟨r, ?_, hid⟩
      rwa [Comparts.mem_rows_iff, hid]

theorem compCounts_eq_countHeld {rows : List CapInfo} {held : List HeldCap}
    (hrows : List.Forall₂ CapInfo.Shows rows held) {r : CompInfo}
    {range : CompartRange} (hr : r.Ranges range) :
    compCounts rows r = countHeld (held.filter fun h =>
      range.Takes h.loc ∧ range.Takes h.cap.address) := by
  refine countCaps_eq_countHeld hrows fun c h hshows => ?_
  rw [Bool.eq_iff_iff, inCompart_hexText hr.spans hshows.located, passes_iff,
    passes_iff, decide_eq_true_eq]
  rfl

/-! ### Both overviews -/

/-- The rows and the numbers of both views are those of the process. -/
structure ViewsShow (t : Target) (map : List KinfoVmentry)
    (objs : List CompartObject) (db : Db) : Prop where
  captured : List.Forall₂ CapInfo.Shows db.capInfo (processHeld t map)
  blocks : List.Forall₂ (fun row e => row.1.toVmEntry.RecordOf e.1 ∧
    row.2 = countHeld (countedWith t map e)) (vmCapsView db) map.zipIdx
  comparts : ∀ row ∈ compCapsView db, ∃ range,
    lastRange objs row.1.compartId = some range ∧ row.1.Ranges range ∧
      row.2 = countHeld ((processHeld t map).filter fun h =>
        range.Takes h.loc ∧ range.Takes h.cap.address)
  listed : ∀ o ∈ objs, ∀ range ∈ o.ranges,
    ∃ row ∈ compCapsView db, row.1.compartId = range.id

/-- The rows of `cap_info` are the capabilities of the process, in order. -/
theorem BlocksScanned.capInfo_shows {c : CompletedScan t map}
    {scanned : List ((KinfoVmentry × Nat) × VmEntry)}
    (h : BlocksScanned t c.comparts map.zipIdx c.blocks c.final scanned)
    (hclean : t.Clean) (hmap : t.vmmap = some map)
    (hscan : (scanMem t).outcome = .ok ⟨⟩) (hok : MapOk map)
    (hreads : CapturesHeld t map) :
    List.Forall₂ CapInfo.Shows (dbScanned t Db.empty).capInfo
      (processHeld t map) := by
  have hsame : List.Forall₂ (fun p p' => p ∈ scanned ∧ p' = p)
      scanned scanned := List.forall₂_same.2 fun p hp => ⟨hp, rfl⟩
  rw [h.capInfo_eq hclean hmap hscan hok, processHeld, ← h.entries,
    List.flatMap_map]
  refine List.rel_flatMap hsame ?_
  rintro _ p ⟨hp, rfl⟩
  have hentry : p.1 ∈ map.zipIdx := by
    rw [← h.entries]
    exact List.mem_map_of_mem hp
  rw [blockRows_eq hreads hentry, List.forall₂_map_left_iff, List.forall₂_same]
  exact fun _ _ => ⟨⟨rfl, rfl⟩, rfl⟩

end Chericat
