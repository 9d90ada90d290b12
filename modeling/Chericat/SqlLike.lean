import Mathlib.Data.List.Infix

/-!
The `LIKE` of SQL without an escape character: `%` stands for any text, `_` for
any one character, and ASCII letters match in either case.
-/

namespace SqlLike

/-- The case folding of `LIKE`, which knows the ASCII letters only. -/
def fold (c : Char) : Char := c.toLower

/-- A pattern and a text. -/
def like : List Char → List Char → Bool
  | [], s => s.isEmpty
  | p :: ps, s =>
      if p = '%' then s.tails.any (like ps)
      else
        match s with
        | [] => false
        | c :: cs => (p = '_' || fold p = fold c) && like ps cs

@[simp] theorem like_nil {s : List Char} : like [] s = true ↔ s = [] := by
  simp [like]

theorem like_percent {ps s : List Char} :
    like ('%' :: ps) s = true ↔ ∃ u v, s = u ++ v ∧ like ps v = true := by
  simp only [like, ↓reduceIte, List.any_eq_true, List.mem_tails]
  constructor
  · rintro ⟨v, ⟨u, rfl⟩, hv⟩
    exact ⟨u, v, rfl, hv⟩
  · rintro ⟨u, v, rfl, hv⟩
    exact ⟨v, List.suffix_append u v, hv⟩

theorem like_cons {p : Char} (hp : p ≠ '%') {ps s : List Char} :
    like (p :: ps) s = true ↔
      ∃ c cs, s = c :: cs ∧ (p = '_' ∨ fold p = fold c) ∧ like ps cs = true := by
  rcases s with - | ⟨c, cs⟩
  · simp [like, hp]
  · simp [like, hp]

/-- Two patterns, one after the other, match two texts, one after the other. -/
theorem like_append {p q s : List Char} :
    like (p ++ q) s = true ↔
      ∃ u v, s = u ++ v ∧ like p u = true ∧ like q v = true := by
  induction p generalizing s with
  | nil => simp
  | cons c ps ih =>
      rw [List.cons_append]
      by_cases hc : c = '%'
      · subst hc
        simp only [like_percent, ih]
        constructor
        · rintro ⟨u, _, rfl, v, w, rfl, hv, hw⟩
          exact ⟨u ++ v, w, by simp, ⟨u, v, rfl, hv⟩, hw⟩
        · rintro ⟨_, w, rfl, ⟨u, v, rfl, hv⟩, hw⟩
          exact ⟨u, v ++ w, by simp, v, w, rfl, hv, hw⟩
      · simp only [like_cons hc, ih]
        constructor
        · rintro ⟨d, _, rfl, hd, v, w, rfl, hv, hw⟩
          exact ⟨d :: v, w, rfl, ⟨d, v, rfl, hd, hv⟩, hw⟩
        · rintro ⟨_, w, rfl, ⟨d, v, rfl, hd, hv⟩, hw⟩
          exact ⟨d, v ++ w, rfl, hd, v, w, rfl, hv, hw⟩

/-- A text matches itself, whatever wildcards it holds. -/
theorem like_self (s : List Char) : like s s = true := by
  induction s with
  | nil => rfl
  | cons c cs ih =>
      by_cases hc : c = '%'
      · subst hc
        exact like_percent.2 ⟨['%'], cs, rfl, ih⟩
      · exact (like_cons hc).2 ⟨c, cs, rfl, Or.inr rfl, ih⟩

/-! ### A pattern anywhere in a text -/

/-- The pattern between two `%`. -/
def within (p : List Char) : List Char := '%' :: (p ++ ['%'])

theorem like_within {p s : List Char} :
    like (within p) s = true ↔
      ∃ u v w, s = u ++ v ++ w ∧ like p v = true := by
  simp only [within, like_percent, like_append]
  constructor
  · rintro ⟨u, _, rfl, v, w, rfl, hv, -⟩
    exact ⟨u, v, w, by simp, hv⟩
  · rintro ⟨u, v, w, rfl, hv⟩
    exact ⟨u, v ++ w, by simp, v, w, rfl, hv, w, [], by simp, by simp⟩

theorem like_within_self (s : List Char) : like (within s) s = true :=
  like_within.2 ⟨[], s, [], by simp, like_self s⟩

/-- A part of a pattern is found wherever the pattern is. -/
theorem like_within_of_append {p q s : List Char}
    (h : like (within (p ++ q)) s = true) : like (within q) s = true := by
  obtain ⟨u, _, w, rfl, hpq⟩ := like_within.1 h
  obtain ⟨v, v', rfl, _, hq⟩ := like_append.1 hpq
  exact like_within.2 ⟨u ++ v, v', w, by simp, hq⟩

end SqlLike
