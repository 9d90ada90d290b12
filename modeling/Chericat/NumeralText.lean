import Chericat.Numeral

/-!
The texts `strtol` reads to their end in base 10: blanks, an optional sign and
at least one digit, or nothing at all.
-/

namespace Numeral

/-! ### Signed numerals -/

/-- The digit a character stands for. -/
def digit (c : Char) : Nat := (digitVal c).getD 0

inductive Sign where
  | none | plus | minus
deriving Repr, DecidableEq

def Sign.text : Sign → List Char
  | .none => []
  | .plus => ['+']
  | .minus => ['-']

def Sign.apply : Sign → Nat → Int
  | .minus, n => -(n : Int)
  | _, n => n

/-- `s` is a decimal numeral of `i`, with a sign or without. -/
structure SignedNumeral (s : List Char) (i : Int) (blanks : List Char) (sign : Sign)
    (digits : List Char) : Prop where
  text : s = blanks ++ (sign.text ++ digits)
  blank : ∀ c ∈ blanks, isSpace c = true
  nonempty : digits ≠ []
  decimal : ∀ c ∈ digits, isDigit 10 c = true
  denotes : i = sign.apply (value 10 (digits.map digit))

def IsNumeral (s : List Char) (i : Int) : Prop :=
  ∃ blanks sign digits, SignedNumeral s i blanks sign digits

theorem isDigit_iff {b : Nat} {c : Char} :
    isDigit b c = true ↔ ∃ d < b, digitVal c = some d := by
  rw [isDigit]
  cases digitVal c <;> simp

/-- What is left behind the digits is nothing exactly when there is nothing but
digits. -/
theorem takeDigits_eq_nil_iff {b : Nat} {s : List Char} {ds : List Nat} :
    takeDigits b s = (ds, []) ↔
      (∀ c ∈ s, isDigit b c = true) ∧ ds = s.map digit := by
  induction s generalizing ds with
  | nil =>
      rw [takeDigits, Prod.mk.injEq, List.map_nil, @eq_comm _ ds]
      simp
  | cons c cs ih =>
      rw [List.forall_mem_cons, List.map_cons]
      by_cases hc : isDigit b c = true
      · obtain ⟨d, hd, hval⟩ := isDigit_iff.1 hc
        have hdigit : digit c = d := by rw [digit, hval, Option.getD_some]
        have htail := @ih (takeDigits b cs).1
        simp only [takeDigits, hval, hd, if_true, Prod.mk.injEq, hc, true_and,
          hdigit] at htail ⊢
        constructor
        · rintro ⟨rfl, hrest⟩
          obtain ⟨hcs, hds⟩ := htail.1 (Prod.ext rfl hrest)
          exact ⟨hcs, by rw [hds]⟩
        · rintro ⟨hcs, rfl⟩
          have hall := (@ih (cs.map digit)).2 ⟨hcs, rfl⟩
          simp [hall]
      · refine iff_of_false ?_ fun h => hc h.1.1
        have hends : EndsNumeral b (c :: cs) := by
          intro e es he
          cases he
          exact Bool.eq_false_iff.2 hc
        rw [takeDigits_of_endsNumeral hends]
        simp

/-- Decimal digits are neither blanks nor signs. -/
theorem unsigned_of_isDigit {c : Char} (h : isDigit 10 c = true) :
    isSpace c = false ∧ c ≠ '-' ∧ c ≠ '+' := by
  have hle : '0' ≤ c := by
    obtain ⟨d, hd, hval⟩ := isDigit_iff.1 h
    rw [digitVal] at hval
    split at hval
    · next hc => exact hc.1
    · split at hval
      · cases hval
        omega
      · split at hval
        · cases hval
          omega
        · cases hval
  have hlater : ∀ e : Char, ¬ '0' ≤ e → c ≠ e := fun e he hce =>
    he (hce ▸ hle)
  have hblank : ¬ c ≤ '\r' := fun hc =>
    absurd (Char.le_trans hle hc) (by decide)
  refine ⟨?_, hlater '-' (by decide), hlater '+' (by decide)⟩
  simp [isSpace, hlater ' ' (by decide), hblank]

theorem skipSpace_append {blanks rest : List Char}
    (h : ∀ c ∈ blanks, isSpace c = true) :
    skipSpace (blanks ++ rest) = skipSpace rest := by
  induction blanks with
  | nil => rfl
  | cons c cs ih =>
      rw [List.forall_mem_cons] at h
      rw [List.cons_append, skipSpace, if_pos h.1, ih h.2]

theorem exists_skipSpace (s : List Char) :
    ∃ blanks, s = blanks ++ skipSpace s ∧ ∀ c ∈ blanks, isSpace c = true := by
  induction s with
  | nil => exact ⟨[], rfl, nofun⟩
  | cons c cs ih =>
      rw [skipSpace]
      split
      · next hc =>
          obtain ⟨blanks, heq, hblank⟩ := ih
          refine ⟨c :: blanks, congrArg (List.cons c) heq, ?_⟩
          exact List.forall_mem_cons.2 ⟨hc, hblank⟩
      · exact ⟨[], rfl, nofun⟩

theorem exists_takeSign (s : List Char) :
    ∃ sign : Sign, s = sign.text ++ (takeSign s).2 ∧
      ((takeSign s).1 = true ↔ sign = .minus) := by
  rcases s with - | ⟨c, cs⟩
  · exact ⟨.none, rfl, by simp [takeSign]⟩
  · by_cases hminus : c = '-'
    · subst hminus
      exact ⟨.minus, rfl, by simp [takeSign]⟩
    · by_cases hplus : c = '+'
      · subst hplus
        exact ⟨.plus, rfl, by simp [takeSign]⟩
      · have hnone : takeSign (c :: cs) = (false, c :: cs) := by
          simp [takeSign, hminus, hplus]
        exact ⟨.none, by rw [hnone]; rfl, by simp [hnone]⟩

/-- The sign is found again behind the blanks. -/
theorem takeSign_skipSpace {blanks digits : List Char} {sign : Sign}
    (hblank : ∀ c ∈ blanks, isSpace c = true) (hne : digits ≠ [])
    (hdigits : ∀ c ∈ digits, isDigit 10 c = true) :
    takeSign (skipSpace (blanks ++ (sign.text ++ digits))) =
      (decide (sign = .minus), digits) := by
  rw [skipSpace_append hblank]
  obtain ⟨d, ds, rfl⟩ := List.exists_cons_of_ne_nil hne
  obtain ⟨hspace, hminus, hplus⟩ := unsigned_of_isDigit
    (hdigits d List.mem_cons_self)
  cases sign
  · simp [Sign.text, skipSpace, takeSign, hspace, hminus, hplus]
  · rfl
  · rfl

/-! ### What `strtol` reads to the end -/

theorem scanInteger_ten (s : List Char) :
    scanInteger 10 s =
      match takeDigits 10 (takeSign (skipSpace s)).2 with
      | ([], _) => none
      | (d :: ds, rest) =>
          some ((takeSign (skipSpace s)).1, value 10 (d :: ds), rest) :=
  rfl

theorem IsNumeral.scanInteger {s : List Char} {i : Int} (h : IsNumeral s i) :
    ∃ negative m, scanInteger 10 s = some (negative, m, []) ∧
      i = if negative then -(m : Int) else m := by
  obtain ⟨blanks, sign, digits, rfl, hblank, hne, hdigits, rfl⟩ := h
  have hall := takeDigits_eq_nil_iff.2 ⟨hdigits, rfl⟩
  rw [scanInteger_ten, takeSign_skipSpace hblank hne hdigits, hall]
  obtain ⟨d, ds, rfl⟩ := List.exists_cons_of_ne_nil hne
  refine ⟨_, _, rfl, ?_⟩
  cases sign <;> rfl

theorem isNumeral_of_scanInteger {s : List Char} {negative : Bool} {m : Nat}
    (h : scanInteger 10 s = some (negative, m, [])) :
    IsNumeral s (if negative then -(m : Int) else m) := by
  obtain ⟨blanks, hs, hblank⟩ := exists_skipSpace s
  obtain ⟨sign, htext, hminus⟩ := exists_takeSign (skipSpace s)
  rw [scanInteger_ten] at h
  split at h
  · cases h
  · next d ds rest hdigits =>
      cases h
      obtain ⟨hall, hds⟩ := takeDigits_eq_nil_iff.1 hdigits
      refine ⟨blanks, sign, (takeSign (skipSpace s)).2, ?_, hblank, ?_, hall, ?_⟩
      · rw [← htext, ← hs]
      · intro hnil
        rw [hnil] at hds
        cases hds
      · rw [← hds]
        cases sign
        · rw [Bool.eq_false_iff.2 (mt hminus.1 nofun)]
          rfl
        · rw [Bool.eq_false_iff.2 (mt hminus.1 nofun)]
          rfl
        · rw [hminus.2 rfl]
          rfl

/-- A text is the numeral of one number at most. -/
theorem IsNumeral.unique {s : List Char} {i j : Int} (hi : IsNumeral s i)
    (hj : IsNumeral s j) : i = j := by
  obtain ⟨negative, m, hscan, rfl⟩ := hi.scanInteger
  obtain ⟨negative', m', hscan', rfl⟩ := hj.scanInteger
  rw [hscan] at hscan'
  cases hscan'
  rfl

theorem not_isNumeral_nil (i : Int) : ¬ IsNumeral [] i := by
  intro h
  obtain ⟨negative, m, hscan, _⟩ := h.scanInteger
  cases hscan

/-- The value of a numeral, clamped to a `long`. -/
theorem IsNumeral.strtol {s : List Char} {i : Int} (h : IsNumeral s i) :
    strtol 10 s = (max longMin (min longMax i), []) := by
  obtain ⟨negative, m, hscan, rfl⟩ := h.scanInteger
  rw [Numeral.strtol, hscan]
  cases negative
  · have hpos : longMin ≤ min longMax (m : Int) := by
      simp only [longMin, longMax]
      omega
    simp [hpos]
  · have hneg : min longMax (-(m : Int)) = -(m : Int) := by
      simp only [longMax]
      omega
    simp [hneg]

/-- The end pointer is at the end of numerals, and of the empty text. -/
theorem strtol_end_iff {s : List Char} :
    (strtol 10 s).2 = [] ↔ s = [] ∨ ∃ i, IsNumeral s i := by
  constructor
  · intro h
    rw [strtol] at h
    split at h
    · exact Or.inl h
    · next m rest hscan =>
        cases h
        exact Or.inr ⟨_, isNumeral_of_scanInteger hscan⟩
    · next m rest hscan =>
        cases h
        exact Or.inr ⟨_, isNumeral_of_scanInteger hscan⟩
  · rintro (rfl | ⟨i, hi⟩)
    · rfl
    · rw [hi.strtol]

theorem isNumeral_decText (i : Int) : IsNumeral (decText i) i := by
  have hdigits (n : Nat) : (∀ c ∈ numeral 10 n, isDigit 10 c = true) ∧
      digits 10 n = (numeral 10 n).map digit := by
    have hread := takeDigits_numeral (by norm_num) (by norm_num : 10 ≤ 16) n
      (endsNumeral_nil 10)
    rw [List.append_nil] at hread
    exact takeDigits_eq_nil_iff.1 hread
  rcases i with n | n
  · obtain ⟨hall, hds⟩ := hdigits n
    refine ⟨[], .none, numeral 10 n, rfl, nofun, numeral_ne_nil 10 n, hall, ?_⟩
    rw [← hds, value_digits (by norm_num)]
    rfl
  · obtain ⟨hall, hds⟩ := hdigits (n + 1)
    refine ⟨[], .minus, numeral 10 (n + 1), rfl, nofun,
      numeral_ne_nil 10 (n + 1), hall, ?_⟩
    rw [← hds, value_digits (by norm_num)]
    rfl

end Numeral
