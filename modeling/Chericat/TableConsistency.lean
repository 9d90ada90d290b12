import Chericat.ScanTables

/-!
`vm` and `cap_info` of one scan agree: each captured location lies in exactly
one block, under the name and the flags of that block, and is recorded once.
-/

namespace Chericat

open Numeral

def KinfoVmentry.Contains (e : KinfoVmentry) (a : ULong) : Prop :=
  e.kveStart ≤ a ∧ a < e.kveEnd

/-- A map of page-aligned, pairwise disjoint entries. -/
structure MapOk (map : List KinfoVmentry) : Prop where
  aligned : ∀ e ∈ map, Aligned e
  disjoint : map.Pairwise fun e f => ∀ a, e.Contains a → ¬ f.Contains a

theorem MapOk.entries {map : List KinfoVmentry} (h : MapOk map) :
    ∀ e ∈ map.zipIdx, Aligned e.1 := fun e he =>
  h.aligned e.1 (List.fst_mem_of_mem_zipIdx he)

/-- Entries in the order of their addresses are disjoint. -/
theorem MapOk.of_sorted {map : List KinfoVmentry}
    (haligned : ∀ e ∈ map, Aligned e)
    (hsorted : map.Pairwise fun e f => e.kveEnd ≤ f.kveStart) : MapOk map := by
  refine ⟨haligned, hsorted.imp fun {e f} hle a he hf => ?_⟩
  exact absurd he.2 (BitVec.not_lt.mpr (BitVec.le_trans hle hf.1))

theorem MapOk.unique {map : List KinfoVmentry} (h : MapOk map) {i j : Nat}
    {e f : KinfoVmentry} (hi : map[i]? = some e) (hj : map[j]? = some f)
    {a : ULong} (he : e.Contains a) (hf : f.Contains a) : i = j := by
  have hpair := List.pairwise_iff_getElem.mp h.disjoint
  obtain ⟨hilt, rfl⟩ := List.getElem?_eq_some_iff.mp hi
  obtain ⟨hjlt, rfl⟩ := List.getElem?_eq_some_iff.mp hj
  rcases Nat.lt_trichotomy i j with hij | hij | hij
  · exact absurd hf (hpair i j hilt hjlt hij a he)
  · exact hij
  · exact absurd he (hpair j i hjlt hilt hij a hf)

/-- The row that describes a map entry. -/
structure VmEntry.RecordOf (v : VmEntry) (kivp : KinfoVmentry) : Prop where
  startAddr : v.startAddr = hexText kivp.kveStart.toNat
  endAddr : v.endAddr = hexText kivp.kveEnd.toNat
  kveProtection : v.kveProtection = kivp.kveProtection.toInt
  mmapFlags : v.mmapFlags = kivp.kveFlags.toInt
  vnodeType : v.vnodeType = kivp.kveType.toInt

/-- The address lies in the range that a row's texts denote. -/
def VmEntry.Covers (v : VmEntry) (a : ULong) : Prop :=
  ∃ start stop : ULong, v.startAddr = hexText start.toNat ∧
    v.endAddr = hexText stop.toNat ∧ start ≤ a ∧ a < stop

theorem VmEntry.RecordOf.covers_iff {v : VmEntry} {kivp : KinfoVmentry}
    (h : v.RecordOf kivp) (a : ULong) : v.Covers a ↔ kivp.Contains a := by
  constructor
  · rintro ⟨start, stop, hstart, hstop, hle, hlt⟩
    rw [h.startAddr] at hstart
    rw [h.endAddr] at hstop
    rw [← hexText_eq_iff.1 hstart] at hle
    rw [← hexText_eq_iff.1 hstop] at hlt
    exact ⟨hle, hlt⟩
  · rintro ⟨hle, hlt⟩
    exact ⟨kivp.kveStart, kivp.kveEnd, h.startAddr, h.endAddr, hle, hlt⟩

/-- The captured location of a row is `a`, in the block `kivp` which the row
`v` of `vm` describes. -/
structure CapturedIn (t : Target) (c : CapInfo) (a : ULong)
    (kivp : KinfoVmentry) (v : VmEntry) : Prop where
  capLocAddr : c.capLocAddr = hexText a.toNat
  granule_aligned : a.toNat % 16 = 0
  covers : v.Covers a
  hascap : hascap t kivp = true
  capLocPath : c.capLocPath = v.mmapPath

/-- The columns that a scan inserts into `vm`, and `cap_info`. -/
structure TablesConsistent (t : Target) (map : List KinfoVmentry)
    (vm : List VmEntry) (caps : List CapInfo) : Prop where
  described : List.Forall₂ VmEntry.RecordOf vm map
  located : ∀ c ∈ caps, ∃ (a : ULong) (i : Nat) (kivp : KinfoVmentry)
    (v : VmEntry), map[i]? = some kivp ∧ vm[i]? = some v ∧
      CapturedIn t c a kivp v ∧
      ∀ (k : Nat) (w : VmEntry), vm[k]? = some w → w.Covers a → k = i
  distinct : (caps.map CapInfo.capLocAddr).Nodup

def ScanConsistent (t : Target) (map : List KinfoVmentry) (db : Db) : Prop :=
  TablesConsistent t map (db.vm.map VmInfo.toVmEntry) db.capInfo

@[simp] theorem toVmEntry_apply (u : SectionUpdate) (r : VmInfo) :
    (u.apply r).toVmEntry = r.toVmEntry := by
  rw [SectionUpdate.apply]
  split <;> rfl

@[simp] theorem toVmEntry_applyUpdates (ssect : List SpecialSections)
    (r : VmInfo) : (applyUpdates ssect r).toVmEntry = r.toVmEntry := by
  induction ssect generalizing r with
  | nil => rfl
  | cons s ss ih =>
      rw [applyUpdates, List.foldl_cons]
      exact (ih _).trans (toVmEntry_apply _ r)

/-- The `UPDATE` of the section columns keeps the tables consistent. -/
theorem ScanConsistent.updateVm {t : Target} {map : List KinfoVmentry}
    {db : Db} (h : ScanConsistent t map db) (u : SectionUpdate) :
    ScanConsistent t map ((Statement.updateVm u).run db) := by
  simpa [ScanConsistent, Statement.run, Function.comp_def] using h

/-! ### The tables of a scan -/

/-- Every granule a scan captures, block by block. -/
def scanCaps (t : Target) (map : List KinfoVmentry) : List ULong :=
  map.zipIdx.flatMap fun e => blockCaps t e.2 e.1

theorem mem_blockCaps {t : Target} {i : Nat} {kivp : KinfoVmentry}
    (h : Aligned kivp) {a : ULong} :
    a ∈ blockCaps t i kivp ↔
      hascap t kivp = true ∧ kivp.Contains a ∧ Captured (t.memory i) a := by
  rw [blockCaps]
  split
  · next hcap => simp [mem_blockGranules h.1 h.2, hcap, KinfoVmentry.Contains]
  · next hcap => simp [hcap]

theorem scanCaps_nodup {t : Target} {map : List KinfoVmentry}
    (h : MapOk map) : (scanCaps t map).Nodup := by
  have haligned := h.entries
  rw [scanCaps, List.nodup_flatMap]
  constructor
  · intro e he
    rw [blockCaps]
    split
    · exact blockGranules_nodup _ (haligned e he).1
    · exact List.nodup_nil
  · have hdisjoint : map.zipIdx.Pairwise fun e f =>
        ∀ a, e.1.Contains a → ¬ f.1.Contains a := by
      rw [← List.pairwise_map (f := Prod.fst)
        (R := fun e f : KinfoVmentry => ∀ a, e.Contains a → ¬ f.Contains a),
        List.zipIdx_map_fst]
      exact h.disjoint
    refine hdisjoint.imp_of_mem ?_
    intro e f he hf hef a hae haf
    rw [mem_blockCaps (haligned e he)] at hae
    rw [mem_blockCaps (haligned f hf)] at haf
    exact hef a hae.2.1 haf.2.1

theorem blockEntry_recordOf (t : Target) (comparts : List CompartData)
    (st : ScanState) (kivp : KinfoVmentry) :
    (blockEntry t comparts st kivp).RecordOf kivp :=
  ⟨rfl, rfl, rfl, rfl, rfl⟩

section Scanned

variable {t : Target} {comparts : List CompartData}
  {map : List KinfoVmentry} {ss : List Statement} {st : ScanState}
  {scanned : List ((KinfoVmentry × Nat) × VmEntry)}

theorem BlocksScanned.recordOf
    (h : BlocksScanned t comparts map.zipIdx ss st scanned) :
    ∀ p ∈ scanned, p.2.RecordOf p.1.1 := by
  intro p hp
  obtain ⟨st', heq⟩ := h.described p hp
  rw [heq]
  exact blockEntry_recordOf t comparts st' p.1.1

theorem BlocksScanned.map_eq
    (h : BlocksScanned t comparts map.zipIdx ss st scanned) :
    map = scanned.map fun p => p.1.1 := by
  have hfst := congrArg (List.map Prod.fst) h.entries
  rw [List.zipIdx_map_fst, List.map_map] at hfst
  exact hfst.symm

theorem BlocksScanned.forall₂
    (h : BlocksScanned t comparts map.zipIdx ss st scanned) :
    List.Forall₂ VmEntry.RecordOf st.values map := by
  rw [← h.values, h.map_eq, List.forall₂_map_left_iff,
    List.forall₂_map_right_iff, List.forall₂_same]
  exact h.recordOf

/-- The captured addresses do not depend on the names of the blocks. -/
theorem BlocksScanned.addresses
    (h : BlocksScanned t comparts map.zipIdx ss st scanned) (hok : MapOk map) :
    (ss.flatMap Statement.capRows).map CapInfo.capLocAddr =
      (scanCaps t map).map fun a => hexText a.toNat := by
  rw [h.captured hok.entries, scanCaps, ← h.entries, List.flatMap_map, List.map_flatMap,
    List.map_flatMap]
  congr 1
  funext p
  exact map_rowAt_capLocAddr _ _ _ _

theorem BlocksScanned.consistent
    (h : BlocksScanned t comparts map.zipIdx ss st scanned) (hok : MapOk map) :
    TablesConsistent t map st.values (ss.flatMap Statement.capRows) := by
  constructor
  · exact h.forall₂
  · intro c hc
    rw [h.captured hok.entries, List.mem_flatMap] at hc
    obtain ⟨p, hp, hc⟩ := hc
    obtain ⟨a, ha, rfl⟩ := List.mem_map.mp hc
    obtain ⟨i, hi⟩ := List.mem_iff_getElem?.mp hp
    have hrow := h.recordOf p hp
    have hmap : map[i]? = some p.1.1 := by
      rw [h.map_eq, List.getElem?_map, hi]
      rfl
    have hvm : st.values[i]? = some p.2 := by
      rw [← h.values, List.getElem?_map, hi]
      rfl
    have haligned := hok.aligned p.1.1 (List.mem_of_getElem? hmap)
    obtain ⟨hcap, hcontains, hcaptured⟩ := (mem_blockCaps haligned).1 ha
    refine ⟨a, i, p.1.1, p.2, hmap, hvm, ⟨rfl, hcaptured.1,
      (hrow.covers_iff a).2 hcontains, hcap, rfl⟩, ?_⟩
    -- another row covering the address would be a second block around it
    intro k w hk hcovers
    rw [← h.values, List.getElem?_map, Option.map_eq_some_iff] at hk
    obtain ⟨q, hq, rfl⟩ := hk
    have hother := (h.recordOf q (List.mem_of_getElem? hq)).covers_iff a
    have hmapk : map[k]? = some q.1.1 := by
      rw [h.map_eq, List.getElem?_map, hq]
      rfl
    exact hok.unique hmapk hmap (hother.1 hcovers) hcontains
  · rw [h.addresses hok]
    exact (scanCaps_nodup hok).map fun a b => hexText_eq_iff.1

end Scanned

/-! ### A process with two blocks -/

def adjacentBlocks : List KinfoVmentry :=
  [.sample 0x40000 0x41000, .sample 0x41000 0x42000]

/-- Every granule of the first block carries a capability. -/
def fullMemory (i : Nat) : Memory where
  tags _ := if i = 0 then some (Vector.replicate 32 0xff) else
    some (Vector.replicate 32 0)
  cap _ := ⟨true, ⟨0x40000, "rwRW".toList, 0x40000, 0x41000, none⟩⟩

theorem adjacentBlocks_ok : MapOk adjacentBlocks :=
  .of_sorted (by decide) (by decide)

theorem scan_tables_consistent {t : Target} {map : List KinfoVmentry}
    (hmap : t.vmmap = some map) (hok : MapOk map)
    (hscan : (scanMem t).outcome = .ok ⟨⟩) :
    ScanConsistent t map (dbAfter t Db.empty) := by
  obtain ⟨c⟩ := exists_completedScan hmap hscan
  obtain ⟨scanned, hscanned⟩ := loop_scanEntry c.final_eq
  have hconsistent := hscanned.consistent hok
  rw [ScanConsistent, c.dbAfter_eq hmap hscan]
  simpa [Db.empty, Function.comp_def, VmEntry.inserted,
    CompletedScan.blocks] using hconsistent

/-- A completed scan into empty tables leaves them consistent; the `UPDATE`
pass keeps them so, and no page loop runs for ever. -/
theorem scan_consistent {t : Target} {map : List KinfoVmentry}
    (hmap : t.vmmap = some map) (hok : MapOk map)
    (hscan : (scanMem t).outcome = .ok ⟨⟩) :
    ScanConsistent t map (dbAfter t Db.empty) ∧
      (∀ u db, ScanConsistent t map db →
        ScanConsistent t map ((Statement.updateVm u).run db)) ∧
      ∀ kivp ∈ map, ∀ m path,
        (pageLoop t m path pageTurns kivp.kveStart kivp.kveEnd).outcome =
          .ok ⟨⟩ := by
  refine ⟨scan_tables_consistent hmap hok hscan, fun u db h => h.updateVm u, ?_⟩
  intro kivp hkivp m path
  have haligned := hok.aligned kivp hkivp
  exact (pageLoop_spec t m path haligned.1 haligned.2
    (pagesBetween_le_pageTurns _ _)).1

/-- The tables of a process with two adjacent blocks, the first of
them full of capabilities. -/
theorem adjacent_blocks_consistent :
    ScanConsistent (Target.sample adjacentBlocks fullMemory) adjacentBlocks
        (dbAfter (Target.sample adjacentBlocks fullMemory) Db.empty) ∧
      (∀ u db, ScanConsistent (Target.sample adjacentBlocks fullMemory)
          adjacentBlocks db →
        ScanConsistent (Target.sample adjacentBlocks fullMemory)
          adjacentBlocks ((Statement.updateVm u).run db)) ∧
      ∀ kivp ∈ adjacentBlocks, ∀ m path,
        (pageLoop (Target.sample adjacentBlocks fullMemory) m path pageTurns
          kivp.kveStart kivp.kveEnd).outcome = .ok ⟨⟩ :=
  scan_consistent rfl adjacentBlocks_ok
    (scanMem_sample_ok adjacentBlocks fullMemory (by decide))

end Chericat
