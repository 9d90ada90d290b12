import Chericat.AddressText
import Chericat.ScanTexts

/-!
`TOTAL` against what was captured.  The scan stops a block's pages before its
end; `vm_caps_view` counts up to and including it, on clamped addresses.
-/

namespace Chericat

open Numeral

theorem countP_eq_iff {α : Type} {p q : α → Bool} {l : List α}
    (h : ∀ a ∈ l, q a = true → p a = true) :
    l.countP p = l.countP q ↔ ∀ a ∈ l, p a = true → q a = true := by
  induction l with
  | nil => simp
  | cons a as ih =>
      have htail := fun b hb => h b (List.mem_cons_of_mem a hb)
      have hle := List.countP_mono_left htail
      have hhead := h a List.mem_cons_self
      rw [List.forall_mem_cons, ← ih htail, List.countP_cons, List.countP_cons]
      cases hp : p a <;> cases hq : q a <;> simp [hp, hq] at hhead ⊢
      omega

/-! ### What a total counts -/

instance (e : KinfoVmentry) (a : ULong) : Decidable (e.Contains a) :=
  inferInstanceAs (Decidable (_ ∧ _))

/-- The range test of `vm_caps_view` on the numbers behind the texts. -/
def countedIn (e : KinfoVmentry) (a : ULong) : Bool :=
  clamp e.kveStart ≤ clamp a && clamp a ≤ clamp e.kveEnd

/-- A location counted in a block it was not captured in: at the block's end,
or confused with it by the clamp. -/
def Miscounted (e : KinfoVmentry) (a : ULong) : Prop :=
  (a = e.kveEnd ∧ e.kveStart ≤ e.kveEnd) ∨
    2 ^ 63 ≤ e.kveEnd.toNat ∧
      (e.kveEnd < a ∨ 2 ^ 63 ≤ a.toNat ∧ a < e.kveStart)

theorem countedIn_iff {e : KinfoVmentry} {a : ULong} :
    countedIn e a = true ↔
      clamp e.kveStart ≤ clamp a ∧ clamp a ≤ clamp e.kveEnd := by
  rw [countedIn, Bool.and_eq_true, decide_eq_true_iff, decide_eq_true_iff]

theorem countedIn_of_contains {e : KinfoVmentry} {a : ULong}
    (h : e.Contains a) : countedIn e a = true := by
  obtain ⟨hle, hlt⟩ := h
  rw [BitVec.le_def] at hle
  rw [BitVec.lt_def] at hlt
  rw [countedIn_iff, clamp, clamp, clamp]
  omega

theorem miscounted_iff {e : KinfoVmentry} (he : Aligned e) {a : ULong}
    (ha : a.toNat % 16 = 0) :
    Miscounted e a ↔ countedIn e a = true ∧ ¬ e.Contains a := by
  obtain ⟨hstart, hstop⟩ := he
  rw [PageAligned] at hstart hstop
  simp only [Miscounted, KinfoVmentry.Contains, countedIn_iff, clamp,
    BitVec.le_def, BitVec.lt_def, ← BitVec.toNat_inj]
  omega

/-- `TOTAL` counts every captured location that passes the range test. -/
theorem vmCounts_of_recordOf {v : VmInfo} {kivp : KinfoVmentry}
    (hv : v.toVmEntry.RecordOf kivp) {caps : List CapInfo}
    {addrs : List ULong}
    (hcaps : caps.map CapInfo.capLocAddr =
      addrs.map fun a => hexText a.toNat) :
    (vmCounts caps v).outCapCount = addrs.countP (countedIn kivp) := by
  rw [vmCounts_outCapCount, hcaps, List.countP_map]
  apply List.countP_congr
  intro a _
  have htest := inVmBlock_hexText ⟨hv.startAddr, hv.endAddr⟩ a
  simpa [countedIn] using htest

/-! ### What was captured -/

theorem mem_scanCaps {t : Target} {map : List KinfoVmentry} (h : MapOk map)
    {a : ULong} :
    a ∈ scanCaps t map ↔ ∃ (i : Nat) (kivp : KinfoVmentry),
      map[i]? = some kivp ∧ hascap t kivp = true ∧ kivp.Contains a ∧
        Captured (t.memory i) a := by
  simp only [scanCaps, List.mem_flatMap, List.mem_zipIdx_iff_getElem?,
    Prod.exists]
  constructor
  · rintro ⟨kivp, i, hi, ha⟩
    have haligned := h.aligned kivp (List.mem_of_getElem? hi)
    exact ⟨i, kivp, hi, (mem_blockCaps haligned).1 ha⟩
  · rintro ⟨i, kivp, hi, ha⟩
    have haligned := h.aligned kivp (List.mem_of_getElem? hi)
    exact ⟨kivp, i, hi, (mem_blockCaps haligned).2 ha⟩

/-- The captures inside a block are those made in its own window. -/
theorem countP_contains {t : Target} {map : List KinfoVmentry}
    (h : MapOk map) {i : Nat} {kivp : KinfoVmentry}
    (hi : map[i]? = some kivp) :
    (scanCaps t map).countP (fun a => kivp.Contains a) =
      (blockCaps t i kivp).length := by
  have haligned := h.aligned kivp (List.mem_of_getElem? hi)
  have hnodup : (blockCaps t i kivp).Nodup := by
    rw [blockCaps]
    split
    · exact blockGranules_nodup _ haligned.1
    · exact List.nodup_nil
  rw [List.countP_eq_length_filter]
  apply List.Perm.length_eq
  rw [List.perm_ext_iff_of_nodup ((scanCaps_nodup h).filter _) hnodup]
  intro a
  rw [List.mem_filter, mem_scanCaps h, mem_blockCaps haligned,
    decide_eq_true_iff]
  constructor
  · rintro ⟨⟨k, e, hk, hcap, hin, hcaptured⟩, hcontains⟩
    cases h.unique hi hk hcontains hin
    rw [hi, Option.some.injEq] at hk
    subst hk
    exact ⟨hcap, hin, hcaptured⟩
  · rintro ⟨hcap, hin, hcaptured⟩
    exact ⟨⟨i, kivp, hi, hcap, hin, hcaptured⟩, hin⟩

theorem dbAfter_addresses {t : Target} {map : List KinfoVmentry}
    (hmap : t.vmmap = some map) (hok : MapOk map)
    (hscan : (scanMem t).outcome = .ok ⟨⟩) :
    (dbAfter t Db.empty).capInfo.map CapInfo.capLocAddr =
      (scanCaps t map).map fun a => hexText a.toNat := by
  obtain ⟨c⟩ := exists_completedScan hmap hscan
  obtain ⟨scanned, hscanned⟩ := loop_scanEntry c.final_eq
  rw [c.dbAfter_eq hmap hscan]
  simpa [Db.empty, CompletedScan.blocks] using hscanned.addresses hok

/-! ### Exact totals -/

/-- Each row of `vm` shows the number of rows inserted in the window of its
block, which are the captures inside the block; together they are all rows of
`cap_info`. -/
structure TotalsExact (t : Target) (map : List KinfoVmentry) (db : Db) :
    Prop where
  total : ∀ (i : Nat) (kivp : KinfoVmentry) (v : VmInfo),
    map[i]? = some kivp → db.vm[i]? = some v →
    (vmCounts db.capInfo v).outCapCount = (blockCaps t i kivp).length ∧
      (vmCounts db.capInfo v).outCapCount =
        (scanCaps t map).countP fun a => kivp.Contains a
  sum : ((vmCapsView db).map fun r => r.2.outCapCount).sum = db.capInfo.length

section Totals

variable {t : Target} {map : List KinfoVmentry} {db : Db}

theorem ScanConsistent.recordOf (h : ScanConsistent t map db) {i : Nat}
    {kivp : KinfoVmentry} {v : VmInfo} (hi : map[i]? = some kivp)
    (hv : db.vm[i]? = some v) : v.toVmEntry.RecordOf kivp := by
  have hlength := h.described.length_eq
  obtain ⟨hilt, rfl⟩ := List.getElem?_eq_some_iff.mp hi
  obtain ⟨hvlt, rfl⟩ := List.getElem?_eq_some_iff.mp hv
  simpa using h.described.get (by simpa using hvlt) hilt

/-- The row at an index shows its block's captures exactly when none is
miscounted in it. -/
theorem total_eq_iff (hok : MapOk map) (hconsistent : ScanConsistent t map db)
    (hcaps : db.capInfo.map CapInfo.capLocAddr =
      (scanCaps t map).map fun a => hexText a.toNat)
    {i : Nat} {kivp : KinfoVmentry} {v : VmInfo} (hi : map[i]? = some kivp)
    (hv : db.vm[i]? = some v) :
    (vmCounts db.capInfo v).outCapCount =
        (scanCaps t map).countP (fun a => kivp.Contains a) ↔
      ∀ a ∈ scanCaps t map, ¬ Miscounted kivp a := by
  have haligned := hok.aligned kivp (List.mem_of_getElem? hi)
  rw [vmCounts_of_recordOf (hconsistent.recordOf hi hv) hcaps,
    countP_eq_iff fun a _ ha => countedIn_of_contains (by simpa using ha)]
  refine forall₂_congr fun a ha => ?_
  obtain ⟨_, _, _, _, _, halign, _⟩ := (mem_scanCaps hok).1 ha
  rw [miscounted_iff haligned halign, decide_eq_true_iff, not_and_not_right]

theorem sum_totals (hok : MapOk map) (hconsistent : ScanConsistent t map db)
    (hcaps : db.capInfo.map CapInfo.capLocAddr =
      (scanCaps t map).map fun a => hexText a.toNat)
    (htotal : ∀ (i : Nat) (kivp : KinfoVmentry) (v : VmInfo),
      map[i]? = some kivp → db.vm[i]? = some v →
      (vmCounts db.capInfo v).outCapCount =
        (scanCaps t map).countP fun a => kivp.Contains a) :
    ((vmCapsView db).map fun r => r.2.outCapCount).sum =
      db.capInfo.length := by
  have hlength : db.capInfo.length = (scanCaps t map).length := by
    simpa using congrArg List.length hcaps
  rw [hlength, scanCaps, List.length_flatMap]
  congr 1
  apply List.ext_getElem?
  intro i
  rw [vmCapsView, List.map_map, List.getElem?_map, List.getElem?_map,
    List.getElem?_zipIdx]
  cases hi : map[i]? with
  | none =>
      have hle : db.vm.length ≤ i := by
        have hvm := hconsistent.described.length_eq
        rw [List.length_map] at hvm
        rw [hvm]
        exact List.getElem?_eq_none_iff.mp hi
      simp [List.getElem?_eq_none hle]
  | some kivp =>
      have hlt : i < db.vm.length := by
        have hvm := hconsistent.described.length_eq
        rw [List.length_map] at hvm
        rw [hvm]
        exact (List.getElem?_eq_some_iff.mp hi).1
      have hv : db.vm[i]? = some db.vm[i] := List.getElem?_eq_getElem hlt
      rw [hv]
      simp [htotal i kivp _ hi hv, countP_contains hok hi]

end Totals

theorem TotalsExact.not_miscounted {t : Target} {map : List KinfoVmentry}
    {db : Db} (hexact : TotalsExact t map db) (hok : MapOk map)
    (hconsistent : ScanConsistent t map db)
    (hcaps : db.capInfo.map CapInfo.capLocAddr =
      (scanCaps t map).map fun a => hexText a.toNat)
    {a : ULong} (ha : a ∈ scanCaps t map) {kivp : KinfoVmentry}
    (hkivp : kivp ∈ map) : ¬ Miscounted kivp a := by
  obtain ⟨k, hk⟩ := List.mem_iff_getElem?.mp hkivp
  have hvm := hconsistent.described.length_eq
  rw [List.length_map] at hvm
  have hlt : k < db.vm.length := by
    rw [hvm]
    exact (List.getElem?_eq_some_iff.mp hk).1
  have hv := List.getElem?_eq_getElem hlt
  exact (total_eq_iff hok hconsistent hcaps hk hv).1
    (hexact.total k kivp _ hk hv).2 a ha

/-- The tables that SQLite reads in the texts of a completed scan are
consistent, and hold the captured locations. -/
theorem scanned_tables_consistent {t : Target} {map : List KinfoVmentry}
    (hclean : t.Clean) (hmap : t.vmmap = some map) (hok : MapOk map)
    (hscan : (scanMem t).outcome = .ok ⟨⟩) :
    ScanConsistent t map (dbScanned t Db.empty) ∧
      (dbScanned t Db.empty).capInfo.map CapInfo.capLocAddr =
        (scanCaps t map).map fun a => hexText a.toNat := by
  obtain ⟨comparts, hdb⟩ := exists_dbScanned hclean Db.empty
  rw [hdb]
  exact ⟨scan_tables_consistent hmap hok hscan,
    dbAfter_addresses hmap hok hscan⟩

/-- After a scan into empty tables the totals are exact if and only if no
location captured in a block that may hold capabilities is miscounted in any
block. -/
theorem totalsExact_iff {t : Target} {map : List KinfoVmentry}
    (hclean : t.Clean) (hmap : t.vmmap = some map) (hok : MapOk map)
    (hscan : (scanMem t).outcome = .ok ⟨⟩) :
    TotalsExact t map (dbScanned t Db.empty) ↔
      ∀ (i : Nat) (e : KinfoVmentry) (a : ULong), map[i]? = some e →
        hascap t e = true → e.Contains a → Captured (t.memory i) a →
        ∀ kivp ∈ map, ¬ Miscounted kivp a := by
  obtain ⟨hconsistent, hcaps⟩ :=
    scanned_tables_consistent hclean hmap hok hscan
  constructor
  · intro hexact i e a hi hcap hin hcaptured kivp hkivp
    exact hexact.not_miscounted hok hconsistent hcaps
      ((mem_scanCaps hok).2 ⟨i, e, hi, hcap, hin, hcaptured⟩) hkivp
  · intro hnone
    have htotal : ∀ (i : Nat) (kivp : KinfoVmentry) (v : VmInfo),
        map[i]? = some kivp → (dbScanned t Db.empty).vm[i]? = some v →
        (vmCounts (dbScanned t Db.empty).capInfo v).outCapCount =
          (scanCaps t map).countP fun a => kivp.Contains a := by
      intro i kivp v hi hv
      rw [total_eq_iff hok hconsistent hcaps hi hv]
      intro a ha
      obtain ⟨k, e, hk, hcap, hin, hcaptured⟩ := (mem_scanCaps hok).1 ha
      exact hnone k e a hk hcap hin hcaptured kivp (List.mem_of_getElem? hi)
    constructor
    · intro i kivp v hi hv
      have heq := htotal i kivp v hi hv
      exact ⟨by rw [heq, countP_contains hok hi], heq⟩
    · exact sum_totals hok hconsistent hcaps htotal

/-- A capability in the first granule of the second of two adjacent blocks. -/
def boundaryMemory (i : Nat) : Memory where
  tags _ := some (.ofFirst (if i = 1 then 1 else 0))
  cap _ := ⟨true, ⟨0x40000, "rwRW".toList, 0x40000, 0x41000, none⟩⟩

theorem boundary_captured : Captured (boundaryMemory 1) 0x41000 := by
  refine ⟨rfl, _, rfl, ?_⟩
  rw [mem_capturedBits]
  decide

theorem boundary_clean :
    (Target.sample adjacentBlocks boundaryMemory).Clean :=
  sample_clean (by decide) fun _ _ =>
    (by decide : SqlText.QuoteFree "rwRW".toList)

/-- The capability at the shared boundary is counted twice. -/
theorem boundary_counted_twice :
    MapOk adjacentBlocks ∧
      (scanMem (Target.sample adjacentBlocks boundaryMemory)).outcome =
        .ok ⟨⟩ ∧
      ¬ TotalsExact (Target.sample adjacentBlocks boundaryMemory)
        adjacentBlocks
        (dbScanned (Target.sample adjacentBlocks boundaryMemory) Db.empty) := by
  have hscan := scanMem_sample_ok adjacentBlocks boundaryMemory (by decide)
  refine ⟨adjacentBlocks_ok, hscan, fun hexact => ?_⟩
  have hmem : 0x41000 ∈ scanCaps
      (Target.sample adjacentBlocks boundaryMemory) adjacentBlocks :=
    (mem_scanCaps adjacentBlocks_ok).2 ⟨1, .sample 0x41000 0x42000, rfl,
      by decide, by decide, boundary_captured⟩
  obtain ⟨hconsistent, hcaps⟩ := scanned_tables_consistent boundary_clean rfl
    adjacentBlocks_ok hscan
  exact hexact.not_miscounted adjacentBlocks_ok hconsistent hcaps hmem
    List.mem_cons_self (Or.inl ⟨rfl, by decide⟩)

/-- Capabilities in the first of the blocks only are counted once. -/
theorem first_block_totals :
    TotalsExact (Target.sample adjacentBlocks fullMemory) adjacentBlocks
      (dbScanned (Target.sample adjacentBlocks fullMemory) Db.empty) := by
  have hclean : (Target.sample adjacentBlocks fullMemory).Clean :=
    sample_clean (by decide) fun _ _ =>
      (by decide : SqlText.QuoteFree "rwRW".toList)
  refine (totalsExact_iff hclean rfl adjacentBlocks_ok
    (scanMem_sample_ok adjacentBlocks fullMemory (by decide))).2 ?_
  have hsmall : ∀ kivp ∈ adjacentBlocks, kivp.kveEnd.toNat < 2 ^ 63 ∧
      0x41000 ≤ kivp.kveEnd.toNat := by decide
  intro i e a hi _ hin hcaptured kivp hkivp hmiscounted
  obtain ⟨hlt, hle⟩ := hsmall kivp hkivp
  rcases i with - | i
  · -- captured below the shared boundary
    cases hi
    have hbelow : a.toNat < 0x41000 := hin.2
    rcases hmiscounted with ⟨rfl, _⟩ | ⟨hbig, _⟩ <;> omega
  · -- nothing is tagged anywhere else
    obtain ⟨_, tagsbuf, htags, hbit⟩ := hcaptured
    cases htags
    simp [mem_capturedBits] at hbit

end Chericat
