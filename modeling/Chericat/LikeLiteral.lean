import Mathlib
import Chericat.SqlLike

/-!
Patterns that match nothing but themselves.  `LIKE` between two `%` is the
search for a part of the text exactly when the pattern has no wildcard and no
ASCII letter.  No single module of Mathlib has the lemmas on the case of ASCII
letters.
-/

namespace SqlLike

/-- A character that matches itself only. -/
def Literal (c : Char) : Prop := c ≠ '%' ∧ c ≠ '_' ∧ c.isAlpha = false

instance (c : Char) : Decidable (Literal c) :=
  inferInstanceAs (Decidable (_ ∧ _ ∧ _))

theorem fold_eq_fold_iff {c : Char} (hc : c.isAlpha = false) {d : Char} :
    fold c = fold d ↔ c = d := by
  have hupper : ∀ {e : Char}, e.isAlpha = false → fold e = e := fun {e} he =>
    Char.toLower_eq_of_not_isUpper fun h => by
      rw [Char.isAlpha, h] at he
      cases he
  constructor
  · intro h
    have hd : d.isAlpha = false := by
      rw [← Char.isAlpha_toLower_eq_isAlpha, ← fold, ← h, hupper hc, hc]
    rwa [hupper hc, hupper hd] at h
  · intro h
    rw [h]

/-- An ASCII letter matches the letter of the other case. -/
theorem exists_fold_eq {c : Char} (hc : c.isAlpha = true) :
    ∃ d, d ≠ c ∧ fold c = fold d := by
  by_cases hupper : c.isUpper = true
  · refine ⟨c.toLower, fun h => ?_, (Char.toLower_toLower_eq_toLower c).symm⟩
    have hlower := Char.isUpper_toLower_eq_false c
    rw [h, hupper] at hlower
    cases hlower
  · refine ⟨c.toUpper, fun h => ?_, (Char.toLower_toUpper_eq_toLower c).symm⟩
    have hup := Char.isUpper_toUpper_eq_isAlpha c
    rw [h, hc] at hup
    exact hupper hup

/-- A literal pattern matches itself. -/
theorem like_iff_eq {p : List Char} (hp : ∀ c ∈ p, Literal c) {s : List Char} :
    like p s = true ↔ s = p := by
  induction p generalizing s with
  | nil => exact like_nil
  | cons c cs ih =>
      obtain ⟨hpercent, hscore, halpha⟩ := hp c List.mem_cons_self
      have hcs : ∀ t, like cs t = true ↔ t = cs := fun t =>
        ih fun d hd => hp d (List.mem_cons_of_mem c hd)
      simp only [like_cons hpercent, hcs, hscore, false_or,
        fold_eq_fold_iff halpha]
      constructor
      · rintro ⟨d, ds, rfl, rfl, rfl⟩
        rfl
      · intro h
        exact ⟨c, cs, h, rfl, rfl⟩

/-- A text with the pattern in it is always matched. -/
theorem like_within_of_infix {p s : List Char} (h : p <:+: s) :
    like (within p) s = true := by
  obtain ⟨u, w, rfl⟩ := h
  exact like_within.2 ⟨u, p, w, rfl, like_self p⟩

/-- The other text a pattern matches at a character that is not literal: the
character is left out when it is `%`, and is another one otherwise. -/
theorem exists_like_of_not_literal {c : Char} (hc : ¬ Literal c) :
    ∃ t, t ≠ [c] ∧ t.length ≤ 1 ∧ like [c] t = true := by
  by_cases hpercent : c = '%'
  · subst hpercent
    exact ⟨[], by simp, by simp, by decide⟩
  · have hother : ∃ d, d ≠ c ∧ (c = '_' ∨ fold c = fold d) := by
      by_cases hscore : c = '_'
      · subst hscore
        exact ⟨'-', by decide, Or.inl rfl⟩
      · have halpha : c.isAlpha = true := by
          by_contra hnot
          exact hc ⟨hpercent, hscore, Bool.eq_false_iff.2 hnot⟩
        obtain ⟨d, hd, hfold⟩ := exists_fold_eq halpha
        exact ⟨d, hd, Or.inr hfold⟩
    obtain ⟨d, hd, hmatch⟩ := hother
    refine ⟨[d], by simpa using hd, by simp, ?_⟩
    exact (like_cons hpercent).2 ⟨d, [], rfl, hmatch, rfl⟩

/-- The matched texts are those with the pattern in them, if and only if every
character of the pattern is literal. -/
theorem like_within_infix_iff {p : List Char} :
    (∀ s, like (within p) s = true → p <:+: s) ↔ ∀ c ∈ p, Literal c := by
  constructor
  · intro hall c hc
    by_contra hnot
    obtain ⟨u, v, rfl⟩ := List.append_of_mem hc
    obtain ⟨t, ht, hlength, hlike⟩ := exists_like_of_not_literal hnot
    have hmatch : like (u ++ c :: v) (u ++ t ++ v) = true := by
      rw [show u ++ c :: v = u ++ [c] ++ v by simp]
      exact like_append.2 ⟨u ++ t, v, rfl,
        like_append.2 ⟨u, t, rfl, like_self u, hlike⟩, like_self v⟩
    have hinfix := hall (u ++ t ++ v)
      (like_within.2 ⟨[], _, [], by simp, hmatch⟩)
    have heq := hinfix.eq_of_length_le (by simp; omega)
    rw [List.append_assoc, List.append_cancel_left_eq, ← List.singleton_append,
      List.append_cancel_right_eq] at heq
    exact ht heq.symm
  · intro hp s h
    obtain ⟨u, v, w, rfl, hv⟩ := like_within.1 h
    rw [like_iff_eq hp] at hv
    exact ⟨u, w, by rw [hv]⟩

end SqlLike
