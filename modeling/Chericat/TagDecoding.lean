import Mathlib.Data.List.FinRange
import Chericat.CapCapture

/-!
What the double loop of `get_tags` makes of a bitmap.  The bits that are set
are listed once, in address order; the loop captures those of them that do not
lie in a byte equal to the character `'0'`.
-/

namespace Chericat

open Numeral

/-- A page-aligned address. -/
def PageAligned (a : ULong) : Prop := a.toNat % 4096 = 0

instance (a : ULong) : Decidable (PageAligned a) :=
  inferInstanceAs (Decidable (_ = _))

/-- Bit `j` of byte `i`, for all `i` and `j`. -/
def allBits : List (Fin 32 × Fin 8) :=
  (List.finRange 32).flatMap fun i => (List.finRange 8).map (Prod.mk i)

/-- The bits that are set. -/
def setBits (tagsbuf : TagBuf) : List (Fin 32 × Fin 8) :=
  allBits.filter fun b => tagsbuf[b.1].getLsbD b.2

/-- The address a bit stands for. -/
def bitAddress (start : ULong) (b : Fin 32 × Fin 8) : ULong :=
  start + BitVec.ofNat 64 (128 * b.1 + 16 * b.2)

/-- The bits that the guard on whole bytes lets through. -/
def capturedBits (tagsbuf : TagBuf) : List (Fin 32 × Fin 8) :=
  (setBits tagsbuf).filter fun b => zeroChar ≠ tagsbuf[b.1]

@[simp] theorem mem_allBits (b : Fin 32 × Fin 8) : b ∈ allBits := by
  simp only [allBits, List.mem_flatMap, List.mem_map]
  exact ⟨b.1, List.mem_finRange _, b.2, List.mem_finRange _, rfl⟩

@[simp] theorem mem_setBits {tagsbuf : TagBuf} {b : Fin 32 × Fin 8} :
    b ∈ setBits tagsbuf ↔ tagsbuf[b.1].getLsbD b.2 = true := by
  simp only [setBits, List.mem_filter, mem_allBits, true_and]

@[simp] theorem mem_capturedBits {tagsbuf : TagBuf} {b : Fin 32 × Fin 8} :
    b ∈ capturedBits tagsbuf ↔
      tagsbuf[b.1].getLsbD b.2 = true ∧ zeroChar ≠ tagsbuf[b.1] := by
  simp only [capturedBits, List.mem_filter, mem_setBits, decide_eq_true_eq]

/-! ### Order -/

theorem bits_increasing :
    allBits.Pairwise fun a b =>
      128 * a.1.val + 16 * a.2.val < 128 * b.1.val + 16 * b.2.val := by
  rw [allBits, List.pairwise_flatMap]
  constructor
  · intro i _
    rw [List.pairwise_map]
    exact (List.pairwise_lt_finRange 8).imp fun h => by simp; omega
  · refine (List.pairwise_lt_finRange 32).imp ?_
    intro i k hik a ha b hb
    simp only [List.mem_map] at ha hb
    obtain ⟨j, _, rfl⟩ := ha
    obtain ⟨l, _, rfl⟩ := hb
    have hlt : i.val < k.val := hik
    change 128 * i.val + 16 * j.val < 128 * k.val + 16 * l.val
    omega

theorem toNat_bitAddress {start : ULong} (h : PageAligned start)
    (b : Fin 32 × Fin 8) :
    (bitAddress start b).toNat = start.toNat + (128 * b.1 + 16 * b.2) := by
  have hstart := start.isLt
  simp only [bitAddress, BitVec.toNat_add, BitVec.toNat_ofNat]
  rw [PageAligned] at h
  omega

theorem addresses_increasing {start : ULong} (h : PageAligned start)
    {bits : List (Fin 32 × Fin 8)}
    (hbits : bits.Sublist allBits) :
    (bits.map (bitAddress start)).Pairwise (· < ·) := by
  rw [List.pairwise_map]
  refine (bits_increasing.sublist hbits).imp ?_
  intro a b hab
  rw [BitVec.lt_def, toNat_bitAddress h, toNat_bitAddress h]
  omega

theorem setBits_sublist (tagsbuf : TagBuf) :
    (setBits tagsbuf).Sublist allBits :=
  List.filter_sublist

theorem capturedBits_sublist (tagsbuf : TagBuf) :
    (capturedBits tagsbuf).Sublist allBits :=
  List.filter_sublist.trans (setBits_sublist tagsbuf)

/-! ### The loop captures the bits its guard lets through -/

theorem granule_eq_bitAddress (start : ULong) (b : Fin 32 × Fin 8) :
    granule start b.1 b.2 = bitAddress start b := by
  rw [granule, bitAddress, BitVec.add_assoc, ← BitVec.ofNat_add]
  congr 2
  omega

theorem byteGranules_eq (start : ULong) (tagsbuf : TagBuf) (i : Fin 32) :
    byteGranules start tagsbuf i =
      (((List.finRange 8).map (Prod.mk i)).filter fun b =>
        tagsbuf[b.1].getLsbD b.2 && zeroChar ≠ tagsbuf[b.1]).map
          (bitAddress start) := by
  by_cases hzero : zeroChar = tagsbuf[i]
  · simp [byteGranules, hzero]
  · rw [byteGranules, if_pos hzero, ← List.map_coe_finRange_eq_range]
    simp only [List.filter_map, List.map_map]
    simp only [Function.comp_def, hzero, ne_eq, not_false_eq_true,
      decide_true, Bool.and_true, ← granule_eq_bitAddress]

theorem capturedGranules_eq (start : ULong) (tagsbuf : TagBuf) :
    capturedGranules start tagsbuf =
      (capturedBits tagsbuf).map (bitAddress start) := by
  rw [capturedGranules, capturedBits, setBits, List.filter_filter, allBits,
    List.filter_flatMap, List.map_flatMap]
  congr 1
  funext i
  rw [byteGranules_eq]
  congr 2
  funext b
  rw [Bool.and_comm]

theorem pageGranules_none {m : Memory} {start : ULong}
    (h : m.tags start = none) : pageGranules m start = [] := by
  rw [pageGranules, h]

theorem pageGranules_some {m : Memory} {start : ULong} {tagsbuf : TagBuf}
    (h : m.tags start = some tagsbuf) :
    pageGranules m start = (capturedBits tagsbuf).map (bitAddress start) := by
  rw [pageGranules, h]
  exact capturedGranules_eq start tagsbuf

/-! ### Exact decoding -/

/-- The decoding a page calls for: the rows that are appended, one for each
bit that is set and none where the tag read fails. -/
structure TagsDecoded (t : Target) (m : Memory) (start : ULong) (path : Text)
    (rows : List CapInfo) : Prop where
  count : (getTags t m start path).outcome = .ok rows.length
  inserted : ∀ db, runAll (statements (getTags t m start path).trace) db =
    { db with capInfo := db.capInfo ++ rows }
  failed : m.tags start = none → rows = []
  located : ∀ tagsbuf, m.tags start = some tagsbuf →
    rows.map CapInfo.capLocAddr =
      (setBits tagsbuf).map fun b => hexText (bitAddress start b).toNat
  increasing : ∀ tagsbuf, m.tags start = some tagsbuf →
    ((setBits tagsbuf).map (bitAddress start)).Pairwise (· < ·)
  path_eq : ∀ r ∈ rows, r.capLocPath = path

/-- The rows `get_tags` sends. -/
theorem runAll_getTags (t : Target) (m : Memory) (start : ULong) (path : Text)
    (db : Db) :
    runAll (statements (getTags t m start path).trace) db =
      { db with capInfo := db.capInfo ++
        (pageGranules m start).map (rowAt t m path) } := by
  rw [getTags_eq]
  simp

/-- Only the rows `get_tags` sends can be the decoding. -/
theorem TagsDecoded.rows_eq {t : Target} {m : Memory} {start : ULong}
    {path : Text} {rows : List CapInfo}
    (h : TagsDecoded t m start path rows) :
    rows = (pageGranules m start).map (rowAt t m path) := by
  have hrows := h.inserted Db.empty
  rw [runAll_getTags] at hrows
  simpa [Db.empty] using (congrArg Db.capInfo hrows).symm

theorem map_rowAt_capLocAddr (t : Target) (m : Memory) (path : Text)
    (addrs : List ULong) :
    (addrs.map (rowAt t m path)).map CapInfo.capLocAddr =
      addrs.map fun a => hexText a.toNat := by
  rw [List.map_map]
  rfl

/-- A byte equal to the character `'0'` has two bits set and none captured. -/
theorem not_tagsDecoded {t : Target} {m : Memory} {start : ULong} {path : Text}
    {tagsbuf : TagBuf} (htags : m.tags start = some tagsbuf)
    (hmem : zeroChar ∈ tagsbuf) (rows : List CapInfo) :
    ¬ TagsDecoded t m start path rows := by
  intro h
  obtain ⟨k, hk, hbyte⟩ := Vector.mem_iff_getElem.mp hmem
  let i : Fin 32 := ⟨k, hk⟩
  have hzero : tagsbuf[i] = zeroChar := hbyte
  have hlocated := h.located tagsbuf htags
  rw [h.rows_eq, map_rowAt_capLocAddr, pageGranules_some htags,
    List.map_map] at hlocated
  have hlength := congrArg List.length hlocated
  rw [List.length_map, List.length_map, capturedBits,
    List.length_filter_eq_length_iff] at hlength
  have hset : (i, (4 : Fin 8)) ∈ setBits tagsbuf := by
    rw [mem_setBits, hzero]
    change zeroChar.getLsbD 4 = true
    decide
  have hkept := hlength _ hset
  simp [hzero] at hkept

theorem capturedBits_eq_setBits {tagsbuf : TagBuf}
    (h : zeroChar ∉ tagsbuf) : capturedBits tagsbuf = setBits tagsbuf := by
  rw [capturedBits, List.filter_eq_self]
  intro b _
  rw [decide_eq_true_iff]
  rintro hzero
  exact h (hzero ▸ Vector.getElem_mem b.1.isLt)

/-- A page is decoded exactly when no byte of its bitmap is the character
`'0'`. -/
theorem tagsDecoded_iff (t : Target) (m : Memory) (path : Text)
    {start : ULong} (hstart : PageAligned start) :
    (∃ rows, TagsDecoded t m start path rows) ↔
      ∀ tagsbuf, m.tags start = some tagsbuf → zeroChar ∉ tagsbuf := by
  constructor
  · rintro ⟨rows, h⟩ tagsbuf htags hmem
    exact not_tagsDecoded htags hmem rows h
  · intro h
    refine ⟨(pageGranules m start).map (rowAt t m path), ?_⟩
    constructor
    · rw [getTags_eq, List.length_map]
    · exact runAll_getTags t m start path
    · intro htags
      rw [pageGranules_none htags, List.map_nil]
    · intro tagsbuf htags
      rw [map_rowAt_capLocAddr, pageGranules_some htags,
        capturedBits_eq_setBits (h tagsbuf htags), List.map_map]
      rfl
    · intro tagsbuf _
      exact addresses_increasing hstart (setBits_sublist tagsbuf)
    · intro r hr
      obtain ⟨a, _, rfl⟩ := List.mem_map.mp hr
      rfl

/-- A page whose first byte is the character `'0'`: the granules four and five
are tagged. -/
def zeroCharMemory : Memory where
  tags _ := some (.ofFirst zeroChar)
  cap _ := ⟨true, ⟨0x2000, "rwRW".toList, 0x2000, 0x3000, none⟩⟩

/-- The two tagged granules of that page are lost. -/
theorem zeroChar_page_dropped :
    PageAligned 0x40000 ∧
      ∀ rows, ¬ TagsDecoded (Target.sample [] fun _ => zeroCharMemory)
        zeroCharMemory 0x40000 "Heap(others)".toList rows :=
  ⟨rfl, fun rows => @not_tagsDecoded _ zeroCharMemory _ _ _ rfl
    (by decide +kernel) rows⟩

/-- A bitmap with every tag set is decoded in full. -/
theorem full_page_decoded :
    ∃ rows, TagsDecoded (Target.sample [] fun _ => zeroCharMemory)
      ⟨fun _ => some (Vector.replicate 32 0xff), zeroCharMemory.cap⟩ 0x40000
      "Heap(others)".toList rows := by
  refine (tagsDecoded_iff _ _ _ (by decide)).2 ?_
  rintro tagsbuf h
  cases h
  decide +kernel

end Chericat
