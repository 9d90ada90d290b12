import Chericat.TagDecoding
import Chericat.MemScan

/-!
The page loop of `scan_mem` over one block: it ends in 64-bit arithmetic, and
what it captures is a set of granules described without the loop.
-/

namespace Chericat

open Numeral

/-- The number of pages between two page-aligned addresses. -/
def pagesBetween (start stop : ULong) : Nat := (stop.toNat - start.toNat) / 4096

def pageAt (start : ULong) (k : Nat) : ULong :=
  start + BitVec.ofNat 64 (4096 * k)

def pageStarts (start stop : ULong) : List ULong :=
  (List.range (pagesBetween start stop)).map (pageAt start)

/-- The granules captured while a block's pages are scanned. -/
def blockGranules (m : Memory) (start stop : ULong) : List ULong :=
  (pageStarts start stop).flatMap (pageGranules m)

theorem pagesBetween_le_pageTurns (start stop : ULong) :
    pagesBetween start stop ≤ pageTurns := by
  have hstop := stop.isLt
  rw [pagesBetween, pageTurns]
  omega

@[simp] theorem pageAt_zero (start : ULong) : pageAt start 0 = start := by
  simp [pageAt]

theorem pageAt_succ (start : ULong) (k : Nat) :
    pageAt start (k + 1) = pageAt (start + 4096) k := by
  rw [pageAt, pageAt, BitVec.add_assoc, Nat.mul_succ, Nat.add_comm (4096 * k),
    BitVec.ofNat_add]
  rfl

theorem toNat_pageAt {start stop : ULong} {k : Nat}
    (hk : k < pagesBetween start stop) :
    (pageAt start k).toNat = start.toNat + 4096 * k := by
  have hstop := stop.isLt
  rw [pagesBetween] at hk
  simp only [pageAt, BitVec.toNat_add, BitVec.toNat_ofNat]
  omega

theorem pageAt_aligned {start stop : ULong} (hstart : PageAligned start)
    {k : Nat} (hk : k < pagesBetween start stop) :
    PageAligned (pageAt start k) := by
  rw [PageAligned] at hstart ⊢
  rw [toNat_pageAt hk]
  omega

/-! ### The loop -/

theorem getTags_outcome (t : Target) (m : Memory) (start : ULong)
    (path : Text) :
    (getTags t m start path).outcome = .ok (pageGranules m start).length := by
  rw [getTags_eq]

/-- The statements one page leads to. -/
def pageStatements (t : Target) (m : Memory) (path : Text) (start : ULong) :
    List Statement :=
  captureStatements ((pageGranules m start).map (rowAt t m path))

theorem statements_getTags (t : Target) (m : Memory) (start : ULong)
    (path : Text) :
    statements (getTags t m start path).trace =
      pageStatements t m path start := by
  rw [getTags_eq]
  simp [pageStatements]

theorem pageLoop_done (t : Target) (m : Memory) (path : Text) (turns : Nat)
    {start stop : ULong} (h : ¬ start < stop) :
    pageLoop t m path turns start stop = pure ⟨⟩ := by
  cases turns <;> rw [pageLoop, if_neg h]

/-- The loop over `n` pages, `start` and `stop` being that far apart. -/
theorem pageLoop_pages (t : Target) (m : Memory) (path : Text)
    (stop : ULong) : ∀ (n turns : Nat) (start : ULong),
      start.toNat + 4096 * n = stop.toNat → n ≤ turns →
      (pageLoop t m path turns start stop).outcome = .ok ⟨⟩ ∧
        statements (pageLoop t m path turns start stop).trace =
          ((List.range n).map (pageAt start)).flatMap
            (pageStatements t m path) := by
  intro n
  induction n with
  | zero =>
      intro turns start hstop _
      have hdone : ¬ start < stop := by
        rw [BitVec.lt_def]
        omega
      rw [pageLoop_done t m path turns hdone]
      exact ⟨rfl, rfl⟩
  | succ n ih =>
      intro turns start hstop hturns
      obtain ⟨turns, rfl⟩ := Nat.exists_eq_add_of_le' (Nat.lt_of_lt_of_le
        (Nat.succ_pos n) hturns)
      have hlt : start < stop := by
        rw [BitVec.lt_def]
        omega
      have hnext : (start + 4096).toNat = start.toNat + 4096 := by
        have hbound := stop.isLt
        rw [BitVec.toNat_add]
        change (start.toNat + 4096) % 2 ^ 64 = _
        omega
      have hpage := getTags_outcome t m start path
      obtain ⟨hok, htrace⟩ := ih turns (start + 4096) (by omega) (by omega)
      rw [pageLoop, if_pos hlt]
      constructor
      · rw [Run.outcome_bind_ok hpage]
        exact hok
      · rw [Run.trace_bind_ok hpage, statements_append, statements_getTags,
          htrace, List.range_succ_eq_map]
        simp [Function.comp_def, pageAt_succ]

/-- The page loop over a page-aligned block ends, having scanned each of its
pages once, in order. -/
theorem pageLoop_spec (t : Target) (m : Memory) (path : Text)
    {start stop : ULong} (hstart : PageAligned start)
    (hstop : PageAligned stop) {turns : Nat}
    (hturns : pagesBetween start stop ≤ turns) :
    (pageLoop t m path turns start stop).outcome = .ok ⟨⟩ ∧
      statements (pageLoop t m path turns start stop).trace =
        (pageStarts start stop).flatMap (pageStatements t m path) := by
  by_cases hlt : start < stop
  · apply pageLoop_pages t m path stop _ turns start _ hturns
    rw [PageAligned] at hstart hstop
    rw [BitVec.lt_def] at hlt
    rw [pagesBetween]
    omega
  · have hnone : pagesBetween start stop = 0 := by
      rw [BitVec.lt_def] at hlt
      rw [pagesBetween]
      omega
    rw [pageLoop_done t m path turns hlt, pageStarts, hnone]
    exact ⟨rfl, rfl⟩

/-! ### The granules of a block -/

/-- The page an address lies on, and its bit in the page's bitmap. -/
def pageOf (a : ULong) : ULong := BitVec.ofNat 64 (a.toNat / 4096 * 4096)

def bitOf (a : ULong) : Fin 32 × Fin 8 :=
  (⟨a.toNat % 4096 / 128, by omega⟩, ⟨a.toNat % 128 / 16, by omega⟩)

/-- An address is captured when it is the start of a granule whose tag is set
and whose tag byte passes the guard. -/
def Captured (m : Memory) (a : ULong) : Prop :=
  a.toNat % 16 = 0 ∧ ∃ tagsbuf, m.tags (pageOf a) = some tagsbuf ∧
    bitOf a ∈ capturedBits tagsbuf

theorem toNat_pageOf (a : ULong) :
    (pageOf a).toNat = a.toNat / 4096 * 4096 := by
  have ha := a.isLt
  simp only [pageOf, BitVec.toNat_ofNat]
  omega

theorem pageOf_eq_iff {p a : ULong} (hp : PageAligned p) :
    pageOf a = p ↔ p.toNat ≤ a.toNat ∧ a.toNat < p.toNat + 4096 := by
  rw [← BitVec.toNat_inj, toNat_pageOf]
  rw [PageAligned] at hp
  omega

theorem bitAddress_eq_iff {p : ULong} (hp : PageAligned p) (a : ULong)
    (b : Fin 32 × Fin 8) :
    bitAddress p b = a ↔ pageOf a = p ∧ a.toNat % 16 = 0 ∧ bitOf a = b := by
  obtain ⟨⟨i, hi⟩, ⟨j, hj⟩⟩ := b
  rw [pageOf_eq_iff hp, ← BitVec.toNat_inj, toNat_bitAddress hp]
  simp only [bitOf, Prod.mk.injEq, Fin.mk.injEq]
  rw [PageAligned] at hp
  omega

theorem mem_pageGranules {m : Memory} {p : ULong} (hp : PageAligned p)
    {a : ULong} :
    a ∈ pageGranules m p ↔ pageOf a = p ∧ Captured m a := by
  cases htags : m.tags p with
  | none =>
      rw [pageGranules_none htags]
      constructor
      · intro h
        cases h
      · rintro ⟨rfl, _, tagsbuf, hsome, _⟩
        rw [htags] at hsome
        cases hsome
  | some tagsbuf =>
      rw [pageGranules_some htags, List.mem_map]
      constructor
      · rintro ⟨b, hb, hba⟩
        obtain ⟨hpage, halign, rfl⟩ := (bitAddress_eq_iff hp a b).1 hba
        exact ⟨hpage, halign, tagsbuf, by rw [hpage, htags], hb⟩
      · rintro ⟨hpage, halign, buf, hbuf, hbit⟩
        rw [hpage, htags, Option.some.injEq] at hbuf
        subst hbuf
        exact ⟨bitOf a, hbit, (bitAddress_eq_iff hp a _).2
          ⟨hpage, halign, rfl⟩⟩

/-- The granules captured in a block are those of the half-open range. -/
theorem mem_blockGranules {m : Memory} {start stop : ULong}
    (hstart : PageAligned start) (hstop : PageAligned stop) {a : ULong} :
    a ∈ blockGranules m start stop ↔
      (start ≤ a ∧ a < stop) ∧ Captured m a := by
  simp only [blockGranules, pageStarts, List.mem_flatMap, List.mem_map,
    List.mem_range]
  rw [BitVec.le_def, BitVec.lt_def]
  constructor
  · rintro ⟨p, ⟨k, hk, rfl⟩, ha⟩
    rw [mem_pageGranules (pageAt_aligned hstart hk)] at ha
    refine ⟨?_, ha.2⟩
    have hpage := (pageOf_eq_iff (pageAt_aligned hstart hk)).1 ha.1
    rw [toNat_pageAt hk] at hpage
    rw [pagesBetween] at hk
    omega
  · rintro ⟨⟨hle, hlt⟩, ha⟩
    have hk : (a.toNat - start.toNat) / 4096 < pagesBetween start stop := by
      rw [PageAligned] at hstart hstop
      rw [pagesBetween]
      omega
    refine ⟨pageAt start ((a.toNat - start.toNat) / 4096), ⟨_, hk, rfl⟩, ?_⟩
    rw [mem_pageGranules (pageAt_aligned hstart hk)]
    refine ⟨?_, ha⟩
    rw [pageOf_eq_iff (pageAt_aligned hstart hk), toNat_pageAt hk]
    omega

theorem pageGranules_nodup (m : Memory) {p : ULong} (hp : PageAligned p) :
    (pageGranules m p).Nodup := by
  cases htags : m.tags p with
  | none =>
      rw [pageGranules_none htags]
      exact List.nodup_nil
  | some tagsbuf =>
      rw [pageGranules_some htags]
      refine (addresses_increasing hp (capturedBits_sublist tagsbuf)).imp ?_
      intro a b hlt heq
      rw [heq] at hlt
      exact BitVec.lt_irrefl b hlt

/-- No granule of a block is captured twice. -/
theorem blockGranules_nodup (m : Memory) {start stop : ULong}
    (hstart : PageAligned start) : (blockGranules m start stop).Nodup := by
  rw [blockGranules, List.nodup_flatMap]
  constructor
  · intro p hp
    obtain ⟨k, hk, rfl⟩ := List.mem_map.mp hp
    exact pageGranules_nodup m (pageAt_aligned hstart (List.mem_range.mp hk))
  · rw [pageStarts, List.pairwise_map]
    refine List.pairwise_lt_range.imp_of_mem ?_
    intro k l hk hl hkl a hak hal
    rw [List.mem_range] at hk hl
    rw [mem_pageGranules (pageAt_aligned hstart hk),
      pageOf_eq_iff (pageAt_aligned hstart hk), toNat_pageAt hk] at hak
    rw [mem_pageGranules (pageAt_aligned hstart hl),
      pageOf_eq_iff (pageAt_aligned hstart hl), toNat_pageAt hl] at hal
    omega

end Chericat
