import Chericat.AddressText
import Chericat.Graphs
import Chericat.NumeralOrder

/-!
The graphs compare the texts of addresses letter by letter.  Texts of different
lengths are compared by their leading digits only, and then the order may be
the wrong one.
-/

namespace Chericat

open Numeral

/-- How many hexadecimal digits an address has. -/
def hexDigits (n : Nat) : Nat := digitCount 16 n

/-- The longer of the two numbers has leading digits below the shorter
number. -/
def Inverted (m n : Nat) : Prop :=
  (hexDigits m < hexDigits n ∧
      n / 16 ^ (hexDigits n - hexDigits m) < m) ∨
    hexDigits n < hexDigits m ∧ m / 16 ^ (hexDigits m - hexDigits n) < n

instance (m n : Nat) : Decidable (Inverted m n) :=
  inferInstanceAs (Decidable (_ ∨ _))

theorem hexText_lt_iff (m n : Nat) :
    hexText m < hexText n ↔ numeral 16 m < numeral 16 n := by
  rw [hexText, hexText, List.cons_lt_cons_self, List.cons_lt_cons_self]

/-- Texts are in the order of the numbers unless the numbers are inverted. -/
theorem hexText_le_iff (m n : Nat) :
    hexText m ≤ hexText n ↔
      (m ≤ n ∧ ¬ Inverted m n) ∨ (n < m ∧ Inverted m n) := by
  rw [← not_lt, hexText_lt_iff, numeral_lt_iff (by omega) (by omega),
    Inverted, hexDigits, hexDigits]
  rcases lt_trichotomy (digitCount 16 m) (digitCount 16 n) with hlt | heq | hlt
  · have hmn := lt_of_digitCount_lt (by omega) hlt
    rw [Nat.sub_eq_zero_of_le hlt.le, pow_zero, Nat.div_one]
    omega
  · rw [heq, Nat.sub_self, pow_zero, Nat.div_one, Nat.div_one]
    omega
  · have hmn := lt_of_digitCount_lt (by omega) hlt
    rw [Nat.sub_eq_zero_of_le hlt.le, pow_zero, Nat.div_one]
    omega

/-- The test of the graphs on the texts of three addresses. -/
theorem pointsInto_hexText {v : VmEntry} {start stop : ULong}
    (hv : v.Spans start stop) (a : ULong) :
    pointsInto (hexText a.toNat) v = true ↔
      hexText start.toNat ≤ hexText a.toNat ∧
        hexText a.toNat ≤ hexText stop.toNat := by
  rw [pointsInto, hv.1, hv.2, Bool.and_eq_true, decide_eq_true_iff,
    decide_eq_true_iff]

/-- Inside the block neither comparison is inverted; outside of it an inverted
comparison does not let the address in. -/
def OrderKept (start stop a : Nat) : Prop :=
  (start ≤ a ∧ a ≤ stop ∧ ¬ Inverted start a ∧ ¬ Inverted a stop) ∨
    (a < start ∧ a ≤ stop ∧ (Inverted start a → Inverted a stop)) ∨
    (start ≤ a ∧ stop < a ∧ (Inverted a stop → Inverted start a)) ∨
    (a < start ∧ stop < a ∧ ¬ (Inverted start a ∧ Inverted a stop))

instance (start stop a : Nat) : Decidable (OrderKept start stop a) :=
  inferInstanceAs (Decidable (_ ∨ _))

/-- The containment test of the graphs agrees with the numbers if and only if
no inversion of the address and a bound decides it; then it agrees with the
test of the views below a page-aligned end as well. -/
theorem pointsInto_agrees_iff {v : VmEntry} {start stop : ULong}
    (hv : v.Spans start stop) (a : ULong) :
    ((pointsInto (hexText a.toNat) v = true ↔ start ≤ a ∧ a ≤ stop) ↔
        OrderKept start.toNat stop.toNat a.toNat) ∧
      (PageAligned stop → stop.toNat < 2 ^ 63 →
        ((pointsInto (hexText a.toNat) v = true ↔
            inVmBlock v (hexText a.toNat) = true) ↔
          OrderKept start.toNat stop.toNat a.toNat)) := by
  have hnumbers : (pointsInto (hexText a.toNat) v = true ↔
      start ≤ a ∧ a ≤ stop) ↔ OrderKept start.toNat stop.toNat a.toNat := by
    rw [pointsInto_hexText hv, hexText_le_iff, hexText_le_iff, BitVec.le_def,
      BitVec.le_def, OrderKept]
    by_cases hs : Inverted start.toNat a.toNat <;>
      by_cases he : Inverted a.toNat stop.toNat <;>
      simp only [hs, he, not_true_eq_false, not_false_eq_true, and_true,
        and_false, true_implies, false_implies, and_self, or_false,
        false_or, true_iff] <;>
      omega
  refine ⟨hnumbers, fun haligned hsmall => ?_⟩
  rw [inVmBlock_hexText hv, clamp_between haligned hsmall]
  exact hnumbers

/-- A block of a program that is not position independent. -/
def lowBlock : VmEntry where
  startAddr := "0x10000".toList
  endAddr := "0x20000".toList
  mmapPath := "/bin/cat".toList
  compartId := 1
  kveProtection := 3
  mmapFlags := 0
  vnodeType := 2

/-- An address far behind the block is taken into it, as its text begins like
the text of the start. -/
theorem high_address_taken_in :
    ¬ (pointsInto (hexText (0x100000000 : ULong).toNat) lowBlock = true ↔
      (0x10000 : ULong) ≤ 0x100000000 ∧ (0x100000000 : ULong) ≤ 0x20000) := by
  decide

/-- Inside the block the test is right. -/
theorem low_address_taken_in :
    ((pointsInto (hexText (0x18000 : ULong).toNat) lowBlock = true ↔
        (0x10000 : ULong) ≤ 0x18000 ∧ (0x18000 : ULong) ≤ 0x20000) ↔
      OrderKept 0x10000 0x20000 0x18000) ∧
    (PageAligned 0x20000 → (0x20000 : ULong).toNat < 2 ^ 63 →
      ((pointsInto (hexText (0x18000 : ULong).toNat) lowBlock = true ↔
          inVmBlock lowBlock (hexText (0x18000 : ULong).toNat) = true) ↔
        OrderKept 0x10000 0x20000 0x18000)) :=
  pointsInto_agrees_iff ⟨rfl, rfl⟩ 0x18000

end Chericat
