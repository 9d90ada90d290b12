import Chericat.CapsViews
import Chericat.PageScan

/-!
Comparing addresses through their texts.  `strtol` clamps at `2 ^ 63 - 1`,
which no page-aligned end below `2 ^ 63` can tell from the number itself; the
text of an address determines it.
-/

namespace Chericat

open Numeral

/-- What `strtol` makes of an address. -/
def clamp (a : ULong) : Nat := min (2 ^ 63 - 1) a.toNat

theorem toNat_uintptr (a : ULong) :
    (uintptr (hexText a.toNat)).toNat = clamp a := by
  rw [uintptr, strtol_hexText, BitVec.toNat_ofInt, clamp, longMax]
  omega

/-- A page-aligned bound below the clamp is never reached by it. -/
theorem clamp_le_iff {stop : ULong} (haligned : PageAligned stop)
    (hsmall : stop.toNat < 2 ^ 63) (a : ULong) :
    clamp a ≤ clamp stop ↔ a ≤ stop := by
  rw [PageAligned] at haligned
  rw [clamp, clamp, BitVec.le_def]
  omega

/-- Below such a bound clamping keeps the order. -/
theorem clamp_between {stop : ULong} (haligned : PageAligned stop)
    (hsmall : stop.toNat < 2 ^ 63) (start a : ULong) :
    (clamp start ≤ clamp a ∧ clamp a ≤ clamp stop) ↔ start ≤ a ∧ a ≤ stop := by
  rw [clamp_le_iff haligned hsmall]
  rw [PageAligned] at haligned
  rw [clamp, clamp, BitVec.le_def, BitVec.le_def]
  omega

/-- The row's bounds are the texts of two addresses. -/
def VmEntry.Spans (v : VmEntry) (start stop : ULong) : Prop :=
  v.startAddr = hexText start.toNat ∧ v.endAddr = hexText stop.toNat

def CompInfo.Spans (r : CompInfo) (start stop : ULong) : Prop :=
  r.startAddr = some (hexText start.toNat) ∧
    r.endAddr = some (hexText stop.toNat)

/-- The row's location and target are the texts of two addresses. -/
def CapInfo.At (c : CapInfo) (loc addr : ULong) : Prop :=
  c.capLocAddr = hexText loc.toNat ∧ c.capAddr = hexText addr.toNat

/-- The test of `vm_caps_view` on the clamped numbers. -/
theorem inVmBlock_hexText {v : VmEntry} {start stop : ULong}
    (hv : v.Spans start stop) (a : ULong) :
    inVmBlock v (hexText a.toNat) = true ↔
      clamp start ≤ clamp a ∧ clamp a ≤ clamp stop := by
  rw [inVmBlock, hv.1, hv.2, Bool.and_eq_true, decide_eq_true_iff,
    decide_eq_true_iff, BitVec.le_def, BitVec.le_def]
  simp only [toNat_uintptr]

theorem inCompart_hexText {r : CompInfo} {c : CapInfo}
    {start stop loc addr : ULong} (hr : r.Spans start stop)
    (hc : c.At loc addr) :
    inCompart r c = true ↔
      (clamp start ≤ clamp loc ∧ clamp loc ≤ clamp stop) ∧
        clamp start ≤ clamp addr ∧ clamp addr ≤ clamp stop := by
  rw [inCompart, hr.1, hr.2, hc.1, hc.2]
  simp only [compBound, Bool.and_eq_true, decide_eq_true_iff, BitVec.le_def,
    toNat_uintptr, and_assoc]

theorem symAt_hexText {syms : List SymInfo} {num : SymInfo → ULong}
    (hsyms : ∀ s ∈ syms, s.addr = hexText (num s).toNat) (a : ULong) :
    symAt syms (hexText a.toNat) = syms.find? fun s => num s = a := by
  induction syms with
  | nil => rfl
  | cons s ss ih =>
      have htail := ih fun s hs => hsyms s (List.mem_cons_of_mem _ hs)
      rw [symAt] at htail ⊢
      rw [List.find?_cons, List.find?_cons, htail,
        hsyms s List.mem_cons_self]
      simp only [hexText_eq_iff, eq_comm]

/-! ### The text shown for an address -/

theorem symText_none : symText none = "- (-)".toList := rfl

/-- Only a row of name and type `-` is shown as two dashes. -/
theorem symText_some_eq_dash {s : SymInfo} :
    symText (some s) = "- (-)".toList ↔
      s.symName = "-".toList ∧ s.type = "-".toList := by
  constructor
  · intro h
    have hlength := congrArg List.length h
    rcases hname : s.symName with - | ⟨c, - | ⟨d, name⟩⟩
    · simp [symText, hname] at h
    · simp only [symText, hname, List.cons_append, List.nil_append,
        String.reduceToList, List.cons.injEq, true_and] at h
      obtain ⟨rfl, htype⟩ := h
      exact ⟨rfl, @List.append_cancel_right _ _ [')'] _ htype⟩
    · simp only [symText, hname, List.cons_append, String.reduceToList,
        List.cons.injEq] at h
      obtain ⟨-, -, h⟩ := h
      rcases name with - | ⟨e, name⟩
      · simp at h
      · simp [symText, hname] at hlength
        omega
  · rintro ⟨hname, htype⟩
    rw [symText, hname, htype]
    rfl

/-- Name and type of the first symbol at the address are shown, and two dashes
where there is none; only there, when no type is a dash itself. -/
structure FirstShown (syms : List SymInfo) (num : SymInfo → ULong) (a : ULong)
    (shown : Text) : Prop where
  first : ∀ before s after, syms = before ++ s :: after → num s = a →
    (∀ r ∈ before, num r ≠ a) →
    shown = s.symName ++ " (".toList ++ s.type ++ ")".toList
  none : (∀ s ∈ syms, num s ≠ a) → shown = "- (-)".toList
  dash : (∀ s ∈ syms, s.type ≠ "-".toList) → shown = "- (-)".toList →
    ∀ s ∈ syms, num s ≠ a

theorem firstShown_symAt {syms : List SymInfo} {num : SymInfo → ULong}
    (hsyms : ∀ s ∈ syms, s.addr = hexText (num s).toNat) (a : ULong) :
    FirstShown syms num a (symText (symAt syms (hexText a.toNat))) := by
  rw [symAt_hexText hsyms]
  constructor
  · rintro before s after rfl hs hbefore
    have hnone : before.find? (fun r => decide (num r = a)) = none := by
      simpa using hbefore
    rw [List.find?_append, hnone, Option.none_or,
      List.find?_cons_of_pos (by simpa using hs)]
    rfl
  · intro hnone
    rw [List.find?_eq_none.2 (by simpa using hnone), symText_none]
  · intro htypes hdash
    rcases hfind : syms.find? (fun s => decide (num s = a)) with - | s
    · simpa using hfind
    · rw [hfind, symText_some_eq_dash] at hdash
      exact absurd hdash.2 (htypes s (List.mem_of_find?_eq_some hfind))

/-- The views compare the texts of addresses as the addresses themselves:
both range tests below a page-aligned end under `2 ^ 63`, and the join with
the symbols, which shows the first symbol at an address and dashes exactly when
there is none. -/
theorem views_compare_addresses {c : CapInfo} {loc addr : ULong}
    (hc : c.At loc addr) :
    (∀ (v : VmEntry) (start stop : ULong), v.Spans start stop →
        PageAligned stop → stop.toNat < 2 ^ 63 →
        (inVmBlock v c.capLocAddr = true ↔ start ≤ loc ∧ loc ≤ stop)) ∧
      (∀ (r : CompInfo) (start stop : ULong), r.Spans start stop →
        PageAligned stop → stop.toNat < 2 ^ 63 →
        (inCompart r c = true ↔
          (start ≤ loc ∧ loc ≤ stop) ∧ start ≤ addr ∧ addr ≤ stop)) ∧
      ∀ (syms : List SymInfo) (num : SymInfo → ULong),
        (∀ s ∈ syms, s.addr = hexText (num s).toNat) →
        FirstShown syms num loc (capSyms syms c).symInfoForLoc ∧
          FirstShown syms num addr (capSyms syms c).symInfoForCap := by
  refine ⟨?_, ?_, ?_⟩
  · intro v start stop hv haligned hsmall
    rw [hc.1, inVmBlock_hexText hv, clamp_between haligned hsmall]
  · intro r start stop hr haligned hsmall
    rw [inCompart_hexText hr hc, clamp_between haligned hsmall,
      clamp_between haligned hsmall]
  · intro syms num hsyms
    have hloc := firstShown_symAt hsyms loc
    have haddr := firstShown_symAt hsyms addr
    rw [← hc.1] at hloc
    rw [← hc.2] at haddr
    exact ⟨hloc, haddr⟩

/-- A capability whose target `strtol` clamps. -/
def clampedCap : CapInfo where
  capLocAddr := "0x41000".toList
  capLocPath := "Heap(others)".toList
  capAddr := "0xffff000000000000".toList
  perms := "rwRW".toList
  base := "0xffff000000000000".toList
  top := "0xffffffffffffffff".toList

/-- The clamped target lies outside a compartment around the location. -/
theorem clamped_target_outside :
    inCompart ⟨1, none, none, some "0x40000".toList, some "0x42000".toList,
      some 1, none⟩ clampedCap = false := by
  have hviews := @views_compare_addresses clampedCap 0x41000
    0xffff000000000000 ⟨rfl, rfl⟩
  have htest := hviews.2.1 ⟨1, none, none, some "0x40000".toList,
    some "0x42000".toList, some 1, none⟩ 0x40000 0x42000 ⟨rfl, rfl⟩
    (by decide) (by decide)
  rw [Bool.eq_false_iff, ne_eq, htest]
  decide

end Chericat
