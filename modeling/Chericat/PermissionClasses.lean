import Mathlib.Data.Fintype.Fin
import Chericat.CapsViews

/-!
The four counters next to `TOTAL`.  Both views sort the capabilities they count
by the letters of their permissions.
-/

namespace Chericat

/-! ### Classes -/

inductive PermClass where
  | ro | rw | rx | rwx
deriving Repr, DecidableEq

/-- The letters that a class asks for and excludes. -/
def PermClass.Has : PermClass → Text → Prop
  | .ro, perms => 'r' ∈ perms ∧ 'w' ∉ perms ∧ 'x' ∉ perms
  | .rw, perms => 'r' ∈ perms ∧ 'w' ∈ perms ∧ 'x' ∉ perms
  | .rx, perms => 'r' ∈ perms ∧ 'x' ∈ perms ∧ 'w' ∉ perms
  | .rwx, perms => 'r' ∈ perms ∧ 'w' ∈ perms ∧ 'x' ∈ perms

instance (k : PermClass) (perms : Text) : Decidable (k.Has perms) := by
  cases k <;> exact inferInstanceAs (Decidable (_ ∧ _ ∧ _))

/-- The counter of a class. -/
def CapCounts.ofClass (n : CapCounts) : PermClass → Nat
  | .ro => n.roCount
  | .rw => n.rwCount
  | .rx => n.rxCount
  | .rwx => n.rwxCount

/-- The four counters together. -/
def CapCounts.readable (n : CapCounts) : Nat :=
  n.roCount + n.rwCount + n.rxCount + n.rwxCount

theorem PermClass.Has.unique {k l : PermClass} {perms : Text}
    (hk : k.Has perms) (hl : l.Has perms) : k = l := by
  cases k <;> cases l <;> simp_all [Has]

/-- Counting a capability moves the counter of its class. -/
theorem CapCounts.ofClass_count (k : PermClass) (n : CapCounts)
    (perms : Text) : (n.count perms).ofClass k =
      n.ofClass k + if decide (k.Has perms) then 1 else 0 := by
  by_cases h : k.Has perms
  · rw [decide_eq_true h, if_pos rfl]
    cases k <;> exact if_pos (by simpa [PermClass.Has, and_comm] using h)
  · rw [decide_eq_false h, if_neg Bool.false_ne_true]
    cases k <;> exact if_neg (by simpa [PermClass.Has, and_comm] using h)

theorem CapCounts.readable_count (n : CapCounts) (perms : Text) :
    (n.count perms).readable =
      n.readable + if decide ('r' ∈ perms) then 1 else 0 := by
  by_cases hr : 'r' ∈ perms <;> by_cases hw : 'w' ∈ perms <;>
    by_cases hx : 'x' ∈ perms <;> simp [readable, count, hr, hw, hx] <;> omega

/-- All five numbers. -/
theorem CapCounts.ext_ofClass {n n' : CapCounts}
    (htotal : n.outCapCount = n'.outCapCount)
    (hclass : ∀ k, n.ofClass k = n'.ofClass k) : n = n' := by
  obtain ⟨_, _, _, _, _⟩ := n
  obtain ⟨_, _, _, _, _⟩ := n'
  cases htotal
  cases hclass .ro
  cases hclass .rw
  cases hclass .rx
  cases hclass .rwx
  rfl

/-! ### Counting -/

/-- The positions at which the capabilities of a class pass the test. -/
def classIn (test : CapInfo → Bool) (caps : List CapInfo) (k : PermClass) :
    Finset (Fin caps.length) :=
  {i | test caps[i] = true ∧ k.Has caps[i].perms}

theorem countP_eq_card {α : Type} (p : α → Bool) (l : List α) :
    l.countP p = ({i | p l[i] = true} : Finset (Fin l.length)).card := by
  induction l with
  | nil => rfl
  | cons a l ih =>
      rw [List.countP_cons, ih]
      exact (Nat.add_comm _ _).trans
        (Fin.card_filter_univ_succ' fun i => p (a :: l)[i] = true).symm

/-- The counters of a row, for the capabilities that pass its test. -/
structure ClassesCounted (test : CapInfo → Bool) (caps : List CapInfo)
    (n : CapCounts) : Prop where
  size : ∀ k, n.ofClass k = (classIn test caps k).card
  disjoint : ∀ k l, k ≠ l → Disjoint (classIn test caps k) (classIn test caps l)
  readable : n.readable = caps.countP fun c => test c && 'r' ∈ c.perms
  total : n.outCapCount = caps.countP test
  others : n.outCapCount - n.readable =
    caps.countP fun c => test c && !decide ('r' ∈ c.perms)

theorem countP_and_add_countP_and_not {α : Type} (p q : α → Bool)
    (l : List α) : l.countP (fun a => p a && q a) +
      l.countP (fun a => p a && !q a) = l.countP p := by
  induction l with
  | nil => rfl
  | cons a l ih =>
      simp only [List.countP_cons]
      cases p a <;> cases q a <;> simp <;> omega

theorem countCaps_ofClass (test : CapInfo → Bool) (caps : List CapInfo)
    (k : PermClass) : (countCaps test caps).ofClass k =
      caps.countP fun c => test c && k.Has c.perms := by
  have hzero : CapCounts.zero.ofClass k = 0 := by cases k <;> rfl
  exact countCaps_field (·.ofClass k) (fun perms => k.Has perms) hzero
    (CapCounts.ofClass_count k) test caps

theorem countCaps_classes (test : CapInfo → Bool) (caps : List CapInfo) :
    ClassesCounted test caps (countCaps test caps) := by
  have hreadable := countCaps_field CapCounts.readable (fun perms => 'r' ∈ perms)
    rfl CapCounts.readable_count test caps
  have htotal := countCaps_outCapCount test caps
  constructor
  · intro k
    rw [countCaps_ofClass, countP_eq_card]
    simp only [Bool.and_eq_true, decide_eq_true_eq]
    rfl
  · intro k l hne
    rw [Finset.disjoint_left]
    intro i hk hl
    rw [classIn, Finset.mem_filter_univ] at hk hl
    exact hne (hk.2.unique hl.2)
  · exact hreadable
  · exact htotal
  · have hsplit := countP_and_add_countP_and_not test
      (fun c => decide ('r' ∈ c.perms)) caps
    omega

/-- The order of the capabilities does not matter. -/
theorem countCaps_perm (test : CapInfo → Bool) {caps caps' : List CapInfo}
    (h : caps.Perm caps') : countCaps test caps = countCaps test caps' := by
  apply CapCounts.ext_ofClass
  · rw [countCaps_outCapCount, countCaps_outCapCount, h.countP_eq]
  · intro k
    rw [countCaps_ofClass, countCaps_ofClass, h.countP_eq]

theorem countCaps_and (test test' : CapInfo → Bool) (caps : List CapInfo) :
    countCaps (fun c => test c && test' c) caps =
      countCaps test (caps.filter test') := by
  rw [countCaps, countCaps, List.foldl_filter]
  congr 1
  funext n c
  cases test c <;> cases test' c <;> rfl

/-! ### Both views -/

/-- The two rows have the same range. -/
def SameRange (v : VmInfo) (r : CompInfo) : Prop :=
  compBound r.startAddr = uintptr v.startAddr ∧
    compBound r.endAddr = uintptr v.endAddr

/-- The numbers of both views, for the capabilities of one table. -/
structure PermissionClasses (caps : List CapInfo) : Prop where
  vm : ∀ v, ClassesCounted (fun c => inVmBlock v.toVmEntry c.capLocAddr) caps
    (vmCounts caps v)
  comp : ∀ r, ClassesCounted (inCompart r) caps (compCounts caps r)
  vmOrder : ∀ caps', caps'.Perm caps → ∀ v, vmCounts caps' v = vmCounts caps v
  compOrder : ∀ caps', caps'.Perm caps →
    ∀ r, compCounts caps' r = compCounts caps r
  sameRange : ∀ v r, SameRange v r → compCounts caps r =
    vmCounts (caps.filter fun c => inVmBlock v.toVmEntry c.capAddr) v

/-- For every table of capabilities, each view sorts those of a range into four
disjoint classes, in any order of the rows; for one range `comp_caps_view`
counts what `vm_caps_view` counts of those with their target in it. -/
theorem permissionClasses (caps : List CapInfo) : PermissionClasses caps := by
  constructor
  · exact fun v => countCaps_classes _ caps
  · exact fun r => countCaps_classes _ caps
  · exact fun caps' h v => countCaps_perm _ h
  · exact fun caps' h r => countCaps_perm _ h
  · rintro v r ⟨hstart, hend⟩
    have htest : inCompart r = fun c => inVmBlock v.toVmEntry c.capLocAddr &&
        inVmBlock v.toVmEntry c.capAddr := by
      funext c
      rw [inCompart, hstart, hend, inVmBlock, inVmBlock, Bool.and_assoc]
    rw [compCounts, htest, countCaps_and, vmCounts]

end Chericat
