import Chericat.BlockNames
import Chericat.Graphs

/-!
The filter that is meant to keep a library from pointing to itself.  It cuts
six characters off both names, whether or not a suffix is there.
-/

namespace Chericat

/-! ### Cutting six characters off -/

theorem cutSuffix_append {u x : Text} (hx : x.length = 6) :
    cutSuffix (u ++ x) = u := by
  simp [cutSuffix, hx]

theorem cutSuffix_eq_nil_iff {s : Text} : cutSuffix s = [] ↔ s.length ≤ 6 := by
  rw [cutSuffix, ← List.length_eq_zero_iff, List.length_take]
  omega

/-- A text of at least six characters ends with the six that are cut off. -/
theorem exists_eq_cutSuffix_append {s : Text} (h : 6 ≤ s.length) :
    ∃ x, x.length = 6 ∧ s = cutSuffix s ++ x := by
  refine ⟨s.drop (s.length - 6), ?_, (List.take_append_drop _ s).symm⟩
  rw [List.length_drop]
  omega

/-- Two names the filter takes for one library. -/
inductive Confusable (p q : Text) : Prop where
  | same (h : p = q)
  | short (hp : p.length ≤ 6) (hq : q.length ≤ 6)
  | tails (u x y : Text) (hx : x.length = 6) (hy : y.length = 6)
      (hp : p = u ++ x) (hq : q = u ++ y)
  | longer (x : Text) (hx : x.length = 6) (hq : q = p ++ x)
  | shorter (x : Text) (hx : x.length = 6) (hp : p = q ++ x)

theorem confusable_of_eq_cutSuffix {p q : Text} (h : p = cutSuffix q) :
    Confusable p q := by
  by_cases hq : 6 ≤ q.length
  · obtain ⟨x, hx, heq⟩ := exists_eq_cutSuffix_append hq
    rw [← h] at heq
    exact .longer x hx heq
  · have hnil : p = [] := h.trans (cutSuffix_eq_nil_iff.2 (by omega))
    exact .short (by simp [hnil]) (by omega)

theorem Confusable.symm {p q : Text} (h : Confusable p q) : Confusable q p := by
  rcases h with heq | ⟨hp, hq⟩ | ⟨u, x, y, hx, hy, hp, hq⟩ | ⟨x, hx, hq⟩ |
    ⟨x, hx, hp⟩
  · exact .same heq.symm
  · exact .short hq hp
  · exact .tails u y x hy hx hq hp
  · exact .shorter x hx hq
  · exact .longer x hx hp

theorem confusable_of_cutSuffix_eq {p q : Text}
    (h : cutSuffix p = cutSuffix q) : Confusable p q := by
  by_cases hp : p.length ≤ 6
  · have hq : q.length ≤ 6 :=
      cutSuffix_eq_nil_iff.1 (h ▸ cutSuffix_eq_nil_iff.2 hp)
    exact .short hp hq
  · have hq : ¬ q.length ≤ 6 := fun hq => hp
      (cutSuffix_eq_nil_iff.1 (h.trans (cutSuffix_eq_nil_iff.2 hq)))
    obtain ⟨x, hx, hpx⟩ := exists_eq_cutSuffix_append (s := p) (by omega)
    obtain ⟨y, hy, hqy⟩ := exists_eq_cutSuffix_append (s := q) (by omega)
    rw [← h] at hqy
    exact .tails _ x y hx hy hpx hqy

/-- The four comparisons, as a relation between the names. -/
theorem sameLibrary_iff (p q : Text) :
    sameLibrary p q = true ↔ Confusable p q := by
  simp only [sameLibrary, Bool.or_eq_true, decide_eq_true_iff]
  constructor
  · rintro (((h | h) | h) | h)
    · exact .same h
    · exact confusable_of_eq_cutSuffix h
    · exact (confusable_of_eq_cutSuffix h.symm).symm
    · exact confusable_of_cutSuffix_eq h
  · rintro (h | ⟨hp, hq⟩ | ⟨u, x, y, hx, hy, rfl, rfl⟩ | ⟨x, hx, rfl⟩ |
      ⟨x, hx, rfl⟩)
    · exact Or.inl (Or.inl (Or.inl h))
    · exact Or.inr (by
        rw [cutSuffix_eq_nil_iff.2 hp, cutSuffix_eq_nil_iff.2 hq])
    · exact Or.inr (by rw [cutSuffix_append hx, cutSuffix_append hy])
    · exact Or.inl (Or.inl (Or.inr (cutSuffix_append hx).symm))
    · exact Or.inl (Or.inr (cutSuffix_append hx))

/-! ### Names of one library -/

/-- One of the names has both suffixes, and the other one has no `(.plt)`. -/
def TwoSuffixesApart (p q : VmName) : Prop :=
  (p.plt ∧ p.got ∧ ¬ q.plt) ∨ (q.plt ∧ q.got ∧ ¬ p.plt)

/-- Two suffixes are more than the filter cuts off. -/
theorem not_confusable_of_two_suffixes (b : Text) (got : Bool) :
    ¬ Confusable (VmName.text ⟨b, true, true⟩) (VmName.text ⟨b, false, got⟩) := by
  have hp : (VmName.text ⟨b, true, true⟩).length = b.length + 12 := by
    simp [VmName.text]
  have hq : (VmName.text ⟨b, false, got⟩).length =
      b.length + if got then 6 else 0 := by
    cases got <;> simp [VmName.text]
  rintro (h | ⟨hps, _⟩ | ⟨u, x, y, hx, hy, hpu, hqu⟩ | ⟨x, hx, hqx⟩ |
    ⟨x, hx, hpx⟩)
  · have hlength := congrArg List.length h
    split at hq <;> omega
  · omega
  · have hpl := congrArg List.length hpu
    have hql := congrArg List.length hqu
    rw [List.length_append] at hpl hql
    split at hq <;> omega
  · have hql := congrArg List.length hqx
    rw [List.length_append] at hql
    split at hq <;> omega
  · have hpl := congrArg List.length hpx
    rw [List.length_append] at hpl
    cases got
    · simp only [Bool.false_eq_true, ↓reduceIte] at hq
      omega
    · -- only `(.got)` could follow, where `(.plt)` does
      simp [VmName.text] at hpx

/-- Names of one library are told apart only by two suffixes. -/
theorem confusable_iff_of_base_eq {p q : VmName} (h : p.base = q.base) :
    Confusable p.text q.text ↔ ¬ TwoSuffixesApart p q := by
  obtain ⟨b, pplt, pgot⟩ := p
  obtain ⟨b', qplt, qgot⟩ := q
  cases h
  constructor
  · rintro hconf (⟨hplt, hgot, hnone⟩ | ⟨hplt, hgot, hnone⟩)
    · simp only [Bool.not_eq_true] at hplt hgot hnone
      subst hplt hgot hnone
      exact not_confusable_of_two_suffixes b qgot hconf
    · simp only [Bool.not_eq_true] at hplt hgot hnone
      subst hplt hgot hnone
      exact not_confusable_of_two_suffixes b pgot hconf.symm
  · intro hnear
    rw [← sameLibrary_iff]
    -- one suffix, or none, is cut off each name
    have hcut (x : Text) (hx : x.length = 6) : cutSuffix (b ++ x) = b :=
      cutSuffix_append hx
    have hcutGot : cutSuffix (b ++ ("(.plt)".toList ++ "(.got)".toList)) =
        b ++ "(.plt)".toList := by
      rw [← List.append_assoc]
      exact cutSuffix_append rfl
    cases pplt <;> cases pgot <;> cases qplt <;> cases qgot <;>
      simp_all [sameLibrary, VmName.text, TwoSuffixesApart]

/-- The filter suppresses exactly the edges between blocks of one library, if
and only if the names of one library do not differ by two suffixes, and those
of different ones are not confusable. -/
theorem filterExact_iff (p q : VmName) :
    (sameLibrary p.text q.text = true ↔ p.base = q.base) ↔
      (p.base = q.base → ¬ TwoSuffixesApart p q) ∧
        (p.base ≠ q.base → ¬ Confusable p.text q.text) := by
  rw [sameLibrary_iff]
  by_cases hbase : p.base = q.base
  · simp [hbase, confusable_iff_of_base_eq hbase]
  · simp [hbase]

/-- A guard and a stack are taken for one library, and a library whose block
holds both sections points to itself. -/
theorem filter_fails_both_ways :
    ¬ (sameLibrary (VmName.text ⟨"Guard".toList, false, false⟩)
          (VmName.text ⟨"Stack".toList, false, false⟩) = true ↔
        "Guard".toList = "Stack".toList) ∧
      ¬ (sameLibrary (VmName.text ⟨"/lib/libc.so.7".toList, true, true⟩)
          (VmName.text ⟨"/lib/libc.so.7".toList, false, false⟩) = true ↔
        "/lib/libc.so.7".toList = "/lib/libc.so.7".toList) := by
  decide

end Chericat
