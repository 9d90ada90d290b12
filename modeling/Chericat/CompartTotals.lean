import Chericat.BlockTotals

/-!
`TOTAL` of a compartment against the half-open range the scan records for it.
`comp_caps_view` takes the end of the range for a part of it.
-/

namespace Chericat

open Numeral

/-! ### Counting by rows -/

/-- One more element is counted once for every row it belongs to. -/
theorem sum_countP_cons {α β : Type} (p : β → α → Bool) (rows : List β) (a : α)
    (as : List α) :
    (rows.map fun r => (a :: as).countP (p r)).sum =
      (rows.map fun r => as.countP (p r)).sum +
        rows.countP fun r => p r a := by
  induction rows with
  | nil => rfl
  | cons r rs ih =>
      simp only [List.map_cons, List.sum_cons, List.countP_cons] at ih ⊢
      omega

/-- When each element belongs to at most one row, the counts of the rows add up
to at most the number of elements. -/
theorem sum_countP_le_length {α β : Type} {p : β → α → Bool} {rows : List β}
    {l : List α} (h : ∀ a ∈ l, rows.countP (fun r => p r a) ≤ 1) :
    (rows.map fun r => l.countP (p r)).sum ≤ l.length := by
  induction l with
  | nil => simp
  | cons a as ih =>
      rw [List.forall_mem_cons] at h
      have htail := ih h.2
      have hone := h.1
      rw [sum_countP_cons, List.length_cons]
      omega

/-- Rows that exclude each other share no element. -/
theorem countP_le_one_of_pairwise {β : Type} {q : β → Bool} {rows : List β}
    (h : rows.Pairwise fun r r' => ¬ (q r = true ∧ q r' = true)) :
    rows.countP q ≤ 1 := by
  induction rows with
  | nil => simp
  | cons r rs ih =>
      rw [List.pairwise_cons] at h
      have htail := ih h.2
      rw [List.countP_cons]
      by_cases hr : q r = true
      · have hnone : rs.countP q = 0 := by
          rw [List.countP_eq_zero]
          exact fun r' hr' hq => h.1 r' hr' ⟨hr, hq⟩
        simp [hr, hnone]
      · simpa [hr] using htail

/-! ### Capabilities inside a compartment -/

/-- The addresses of a half-open range. -/
def InRange (start stop a : ULong) : Prop := start ≤ a ∧ a < stop

instance (start stop a : ULong) : Decidable (InRange start stop a) :=
  inferInstanceAs (Decidable (_ ∧ _))

/-- An address the test of `comp_caps_view` takes into a range it is not in: the
end of the range, or an address `strtol` clamps. -/
def Overcounted (start stop a : ULong) : Prop :=
  (a = stop ∧ start ≤ stop) ∨
    2 ^ 63 - 1 ≤ stop.toNat ∧
      (stop ≤ a ∨ 2 ^ 63 - 1 ≤ a.toNat ∧ a < start)

instance (start stop a : ULong) : Decidable (Overcounted start stop a) :=
  inferInstanceAs (Decidable (_ ∨ _))

theorem passes_iff (start stop a : ULong) :
    (clamp start ≤ clamp a ∧ clamp a ≤ clamp stop) ↔
      InRange start stop a ∨ Overcounted start stop a := by
  simp only [InRange, Overcounted, clamp, BitVec.le_def, BitVec.lt_def,
    ← BitVec.toNat_inj]
  omega

theorem not_inRange_of_overcounted {start stop a : ULong}
    (h : Overcounted start stop a) : ¬ InRange start stop a := by
  simp only [InRange, Overcounted, BitVec.le_def, BitVec.lt_def,
    ← BitVec.toNat_inj] at h ⊢
  omega

/-- The numbers behind the texts of both tables. -/
structure Addresses (db : Db) where
  start : CompInfo → ULong
  stop : CompInfo → ULong
  loc : CapInfo → ULong
  addr : CapInfo → ULong
  spans : ∀ r ∈ db.comparts.rows, r.Spans (start r) (stop r)
  located : ∀ c ∈ db.capInfo, c.At (loc c) (addr c)

section Totals

variable {db : Db} (n : Addresses db)

/-- Location and target both lie in the half-open range of the row. -/
def Addresses.Internal (r : CompInfo) (c : CapInfo) : Prop :=
  InRange (n.start r) (n.stop r) (n.loc c) ∧
    InRange (n.start r) (n.stop r) (n.addr c)

instance (r : CompInfo) (c : CapInfo) : Decidable (n.Internal r c) :=
  inferInstanceAs (Decidable (_ ∧ _))

/-- One of the two addresses is overcounted, and the other one does not keep the
capability out. -/
def Addresses.Miscounts (r : CompInfo) (c : CapInfo) : Prop :=
  (Overcounted (n.start r) (n.stop r) (n.loc c) ∧
      (InRange (n.start r) (n.stop r) (n.addr c) ∨
        Overcounted (n.start r) (n.stop r) (n.addr c))) ∨
    InRange (n.start r) (n.stop r) (n.loc c) ∧
      Overcounted (n.start r) (n.stop r) (n.addr c)

/-- No address lies in two of the ranges. -/
def Addresses.Disjoint : Prop :=
  db.comparts.rows.Pairwise fun r r' => ∀ a,
    ¬ (InRange (n.start r) (n.stop r) a ∧ InRange (n.start r') (n.stop r') a)

/-- `TOTAL` of every compartment is the number of its internal capabilities.
Then the first byte after a compartment is outside of it, and disjoint
compartments share no capability. -/
structure CompartTotalsExact : Prop where
  total : ∀ r ∈ db.comparts.rows, (compCounts db.capInfo r).outCapCount =
    db.capInfo.countP fun c => n.Internal r c
  boundary : ∀ r ∈ db.comparts.rows, ∀ c ∈ db.capInfo,
    n.addr c = n.stop r → inCompart r c = false
  sum : n.Disjoint → ((compCapsView db).map fun r => r.2.outCapCount).sum ≤
    db.capInfo.length

variable {n} in
/-- What `comp_caps_view` counts. -/
theorem Addresses.inCompart_iff {r : CompInfo} (hr : r ∈ db.comparts.rows)
    {c : CapInfo} (hc : c ∈ db.capInfo) :
    inCompart r c = true ↔ n.Internal r c ∨ n.Miscounts r c := by
  rw [inCompart_hexText (n.spans r hr) (n.located c hc), passes_iff,
    passes_iff, Internal, Miscounts]
  tauto

variable {n} in
theorem Addresses.Miscounts.not_internal {r : CompInfo} {c : CapInfo}
    (h : n.Miscounts r c) : ¬ n.Internal r c := by
  rintro ⟨hloc, haddr⟩
  rcases h with ⟨hover, _⟩ | ⟨_, hover⟩
  · exact not_inRange_of_overcounted hover hloc
  · exact not_inRange_of_overcounted hover haddr

variable {n} in
/-- The total of one row is exact when nothing is miscounted in it. -/
theorem Addresses.total_eq_iff {r : CompInfo} (hr : r ∈ db.comparts.rows) :
    (compCounts db.capInfo r).outCapCount =
        db.capInfo.countP (fun c => n.Internal r c) ↔
      ∀ c ∈ db.capInfo, ¬ n.Miscounts r c := by
  have hcounted : ∀ c ∈ db.capInfo,
      decide (n.Internal r c) = true → inCompart r c = true := by
    intro c hc hin
    exact (inCompart_iff hr hc).2 (Or.inl (of_decide_eq_true hin))
  rw [compCounts, countCaps_outCapCount, countP_eq_iff hcounted]
  refine forall₂_congr fun c hc => ?_
  rw [inCompart_iff hr hc, decide_eq_true_iff]
  constructor
  · intro h hmis
    exact hmis.not_internal (h (Or.inr hmis))
  · rintro h (hin | hmis)
    · exact hin
    · exact absurd hmis h

variable {n} in
/-- Disjoint ranges share no internal capability. -/
theorem Addresses.Disjoint.countP_le_one (h : n.Disjoint) (c : CapInfo) :
    db.comparts.rows.countP (fun r => n.Internal r c) ≤ 1 := by
  apply countP_le_one_of_pairwise
  refine h.imp fun hnone => ?_
  rintro ⟨hr, hr'⟩
  rw [decide_eq_true_iff] at hr hr'
  exact hnone (n.loc c) ⟨hr.1, hr'.1⟩

/-- `comp_caps_view` counts exactly the internal capabilities if and only if no
capability of the table has an address at the end of a compartment, or behind
the clamp of `strtol`, with the other one inside or there as well. -/
theorem compartTotalsExact_iff :
    CompartTotalsExact n ↔
      ∀ r ∈ db.comparts.rows, ∀ c ∈ db.capInfo, ¬ n.Miscounts r c := by
  constructor
  · intro hexact r hr
    exact (Addresses.total_eq_iff hr).1 (hexact.total r hr)
  · intro hnone
    have htotal : ∀ r ∈ db.comparts.rows,
        (compCounts db.capInfo r).outCapCount =
          db.capInfo.countP fun c => n.Internal r c := fun r hr =>
      (Addresses.total_eq_iff hr).2 (hnone r hr)
    refine ⟨htotal, ?_, ?_⟩
    · intro r hr c hc haddr
      rw [Bool.eq_false_iff, ne_eq, Addresses.inCompart_iff (n := n) hr hc]
      rintro (⟨_, _, hlt⟩ | hmis)
      · rw [haddr] at hlt
        exact BitVec.lt_irrefl _ hlt
      · exact hnone r hr c hc hmis
    · intro hdisjoint
      have hmap : (compCapsView db).map (fun r => r.2.outCapCount) =
          db.comparts.rows.map fun r =>
            db.capInfo.countP fun c => n.Internal r c := by
        rw [compCapsView, List.map_map]
        exact List.map_congr_left htotal
      rw [hmap]
      exact sum_countP_le_length fun c _ => hdisjoint.countP_le_one c

end Totals

/-! ### Two adjacent compartments -/

/-- The rows of two libraries that lie next to each other. -/
def adjacentComparts : Comparts :=
  (Comparts.empty.replace
    (DefaultCompart.row ⟨1, "liba.so".toList, 0x40000, 0x41000, 1⟩)).replace
    (DefaultCompart.row ⟨2, "libb.so".toList, 0x41000, 0x42000, 1⟩)

/-- A capability in the first of them with the given target. -/
def capTo (addr : ULong) : CapInfo where
  capLocAddr := hexText 0x40010
  capLocPath := "/lib/liba.so".toList
  capAddr := hexText addr.toNat
  perms := "rwRW".toList
  base := hexText addr.toNat
  top := hexText 0x42000

def adjacentDb (addr : ULong) : Db :=
  ⟨[], [capTo addr], [], adjacentComparts⟩

def adjacentAddresses (addr : ULong) : Addresses (adjacentDb addr) where
  start r := compBound r.startAddr
  stop r := compBound r.endAddr
  loc c := uintptr c.capLocAddr
  addr _ := addr
  spans := by
    intro r hr
    have hrows : ∀ r ∈ adjacentComparts.rows,
        r.startAddr = some (hexText (compBound r.startAddr).toNat) ∧
          r.endAddr = some (hexText (compBound r.endAddr).toNat) := by
      decide
    exact hrows r hr
  located := by
    intro c hc
    rw [adjacentDb, List.mem_singleton] at hc
    subst hc
    have hloc : hexText 0x40010 =
        hexText (uintptr (hexText 0x40010)).toNat := by decide
    exact ⟨hloc, rfl⟩

/-- A capability to the first byte of the next compartment is counted as
internal. -/
theorem next_compartment_counted :
    ¬ CompartTotalsExact (adjacentAddresses 0x41000) := by
  intro hexact
  have hout := hexact.boundary
    (DefaultCompart.row ⟨1, "liba.so".toList, 0x40000, 0x41000, 1⟩)
    (by decide) (capTo 0x41000) List.mem_cons_self (by decide)
  revert hout
  decide

end Chericat
