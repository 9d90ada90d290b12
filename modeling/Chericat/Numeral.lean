import Mathlib.Data.List.Basic
import Mathlib.Tactic.Linarith

/-!
Numerals as C prints and reads them.  `numeral b n` is what a `printf`
conversion of base `b` emits; `scanInteger` is the subject sequence of the
`strtol` family, and `strtol` and `strtoul` are its two clamped readings.
-/

namespace Numeral

/-- Digits of `n`, most significant first.  The first argument bounds their
number; `n + 1` always suffices. -/
def digitsAux (b : Nat) : Nat → Nat → List Nat
  | 0, _ => []
  | fuel + 1, n => if n < b then [n] else digitsAux b fuel (n / b) ++ [n % b]

def digits (b n : Nat) : List Nat := digitsAux b (n + 1) n

/-- The number a digit list denotes, by Horner's rule. -/
def value (b : Nat) (ds : List Nat) : Nat :=
  ds.foldl (fun v d => v * b + d) 0

theorem value_append_singleton (b : Nat) (ds : List Nat) (d : Nat) :
    value b (ds ++ [d]) = value b ds * b + d := by
  simp [value, List.foldl_append]

theorem value_digitsAux {b : Nat} (hb : 2 ≤ b) :
    ∀ fuel n, n < fuel → value b (digitsAux b fuel n) = n := by
  intro fuel
  induction fuel with
  | zero => intro n hn; omega
  | succ fuel ih =>
      intro n hn
      by_cases hlt : n < b
      · simp [digitsAux, hlt, value]
      · have hdiv : n / b < fuel := by
          have : n / b < n := Nat.div_lt_self (by omega) (by omega)
          omega
        rw [digitsAux, if_neg hlt, value_append_singleton, ih _ hdiv]
        exact Nat.div_add_mod' n b

@[simp] theorem value_digits {b : Nat} (hb : 2 ≤ b) (n : Nat) :
    value b (digits b n) = n :=
  value_digitsAux hb (n + 1) n (Nat.lt_succ_self n)

theorem mem_digitsAux_lt {b : Nat} (hb : 0 < b) :
    ∀ fuel n, ∀ d ∈ digitsAux b fuel n, d < b := by
  intro fuel
  induction fuel with
  | zero => intro n d hd; simp [digitsAux] at hd
  | succ fuel ih =>
      intro n d hd
      by_cases hlt : n < b
      · simp only [digitsAux, hlt, ↓reduceIte, List.mem_singleton] at hd
        omega
      · simp only [digitsAux, hlt, ↓reduceIte, List.mem_append,
          List.mem_singleton] at hd
        rcases hd with hd | rfl
        · exact ih _ d hd
        · exact Nat.mod_lt n hb

theorem mem_digits_lt {b : Nat} (hb : 0 < b) (n : Nat) :
    ∀ d ∈ digits b n, d < b :=
  mem_digitsAux_lt hb (n + 1) n

theorem digits_ne_nil (b n : Nat) : digits b n ≠ [] := by
  rw [digits, digitsAux]
  split <;> simp

/-- Value of a digit character, in either letter case. -/
def digitVal (c : Char) : Option Nat :=
  if '0' ≤ c ∧ c ≤ '9' then some (c.toNat - '0'.toNat)
  else if 'a' ≤ c ∧ c ≤ 'z' then some (c.toNat - 'a'.toNat + 10)
  else if 'A' ≤ c ∧ c ≤ 'Z' then some (c.toNat - 'A'.toNat + 10)
  else none

/-- The digit characters of base `b`. -/
def isDigit (b : Nat) (c : Char) : Bool :=
  match digitVal c with
  | some d => decide (d < b)
  | none => false

/-- The numeral of `n` in base `b`, in lower case and without leading
zeros. -/
def numeral (b n : Nat) : List Char := (digits b n).map Nat.digitChar

theorem digitVal_digitChar : ∀ d < 16, digitVal d.digitChar = some d := by
  decide

theorem numeral_ne_nil (b n : Nat) : numeral b n ≠ [] := by
  simp [numeral, digits_ne_nil]

theorem isDigit_of_mem_numeral {b : Nat} (hpos : 0 < b) (hb : b ≤ 16)
    (n : Nat) {c : Char} (hc : c ∈ numeral b n) : isDigit b c = true := by
  simp only [numeral, List.mem_map] at hc
  obtain ⟨d, hd, rfl⟩ := hc
  have hlt := mem_digits_lt hpos n d hd
  simp [isDigit, digitVal_digitChar d (by omega), hlt]

/-- The longest prefix of digits of base `b`, and what follows it. -/
def takeDigits (b : Nat) : List Char → List Nat × List Char
  | [] => ([], [])
  | c :: cs =>
      match digitVal c with
      | some d =>
          if d < b then (d :: (takeDigits b cs).1, (takeDigits b cs).2)
          else ([], c :: cs)
      | none => ([], c :: cs)

/-- `rest` does not continue a numeral of base `b`. -/
def EndsNumeral (b : Nat) (rest : List Char) : Prop :=
  ∀ c cs, rest = c :: cs → isDigit b c = false

theorem endsNumeral_nil (b : Nat) : EndsNumeral b [] := by
  intro c cs h
  cases h

theorem takeDigits_of_endsNumeral {b : Nat} {rest : List Char}
    (hrest : EndsNumeral b rest) : takeDigits b rest = ([], rest) := by
  cases rest with
  | nil => rfl
  | cons c cs =>
      have hc := hrest c cs rfl
      cases hval : digitVal c with
      | none => simp [takeDigits, hval]
      | some d =>
          simp only [isDigit, hval, decide_eq_false_iff_not] at hc
          simp [takeDigits, hval, hc]

theorem takeDigits_map_digitChar {b : Nat} (hb : b ≤ 16) {ds : List Nat}
    (hds : ∀ d ∈ ds, d < b) {rest : List Char} (hrest : EndsNumeral b rest) :
    takeDigits b (ds.map Nat.digitChar ++ rest) = (ds, rest) := by
  induction ds with
  | nil => simpa using takeDigits_of_endsNumeral hrest
  | cons d ds ih =>
      have hd : d < b := hds d List.mem_cons_self
      have htail := ih fun e he => hds e (List.mem_cons_of_mem d he)
      simp [takeDigits, digitVal_digitChar d (by omega), hd, htail]

/-- Reading back a printed numeral consumes exactly its digits. -/
theorem takeDigits_numeral {b : Nat} (hpos : 0 < b) (hb : b ≤ 16) (n : Nat)
    {rest : List Char} (hrest : EndsNumeral b rest) :
    takeDigits b (numeral b n ++ rest) = (digits b n, rest) :=
  takeDigits_map_digitChar hb (mem_digits_lt hpos n) hrest

/-- Different numbers have different numerals. -/
theorem numeral_injective {b : Nat} (hb : 2 ≤ b) (hb' : b ≤ 16) :
    Function.Injective (numeral b) := by
  intro m n h
  have hm := takeDigits_numeral (by omega) hb' m (endsNumeral_nil b)
  have hn := takeDigits_numeral (by omega) hb' n (endsNumeral_nil b)
  rw [h, hn] at hm
  have hdigits : digits b n = digits b m := (Prod.mk.inj hm).1
  rw [← value_digits hb m, ← value_digits hb n, hdigits]

/-! ### The `strtol` family -/

def isSpace (c : Char) : Bool :=
  c == ' ' || ('\t' ≤ c && c ≤ '\r')

def skipSpace : List Char → List Char
  | [] => []
  | c :: cs => if isSpace c then skipSpace cs else c :: cs

/-- An optional sign; `true` is minus. -/
def takeSign : List Char → Bool × List Char
  | '-' :: cs => (true, cs)
  | '+' :: cs => (false, cs)
  | cs => (false, cs)

/-- A `0x` that is followed by a hexadecimal digit. -/
def takeHexPrefix : List Char → Option (List Char)
  | '0' :: x :: c :: cs =>
      if (x == 'x' || x == 'X') && isDigit 16 c then some (c :: cs) else none
  | _ => none

/-- The radix in force after the sign: base `0` looks at the prefix. -/
def takeRadix (base : Nat) (s : List Char) : Nat × List Char :=
  if base = 0 ∨ base = 16 then
    match takeHexPrefix s with
    | some rest => (16, rest)
    | none =>
        if base = 16 then (16, s)
        else if s.head? = some '0' then (8, s) else (10, s)
  else (base, s)

/-- Sign, magnitude and the end pointer of the subject sequence, or `none`
when there are no digits to convert. -/
def scanInteger (base : Nat) (s : List Char) :
    Option (Bool × Nat × List Char) :=
  let signed := takeSign (skipSpace s)
  let radix := takeRadix base signed.2
  match takeDigits radix.1 radix.2 with
  | ([], _) => none
  | (d :: ds, rest) => some (signed.1, value radix.1 (d :: ds), rest)

def longMax : Int := 2 ^ 63 - 1
def longMin : Int := -2 ^ 63
def ulongMax : Nat := 2 ^ 64 - 1

/-- `strtol`: the value, clamped to a 64-bit `long`, and the end pointer. -/
def strtol (base : Nat) (s : List Char) : Int × List Char :=
  match scanInteger base s with
  | none => (0, s)
  | some (true, m, rest) => (max longMin (-(m : Int)), rest)
  | some (false, m, rest) => (min longMax (m : Int), rest)

/-- `strtoul`: a minus sign negates modulo `2 ^ 64`, and a magnitude out of
range gives `ULONG_MAX`. -/
def strtoul (base : Nat) (s : List Char) : Nat × List Char :=
  match scanInteger base s with
  | none => (0, s)
  | some (negative, m, rest) =>
      if ulongMax < m then (ulongMax, rest)
      else if negative then ((ulongMax + 1 - m) % (ulongMax + 1), rest)
      else (m, rest)

/-- The `0x`-prefixed numeral of `%#lx` and `%p`. -/
def hexText (n : Nat) : List Char := '0' :: 'x' :: numeral 16 n

theorem hexText_injective : Function.Injective hexText := by
  intro m n h
  exact numeral_injective (by norm_num) (by norm_num)
    (List.cons.inj (List.cons.inj h).2).2

theorem takeHexPrefix_hexText (n : Nat) (rest : List Char) :
    takeHexPrefix (hexText n ++ rest) = some (numeral 16 n ++ rest) := by
  cases hnum : numeral 16 n with
  | nil => exact absurd hnum (numeral_ne_nil 16 n)
  | cons c cs =>
      have hc : isDigit 16 c = true :=
        isDigit_of_mem_numeral (by norm_num) le_rfl n (by simp [hnum])
      simp [hexText, hnum, takeHexPrefix, hc]

/-- Bases `0` and `16` read a `0x` numeral back exactly. -/
theorem scanInteger_hexText {base : Nat} (hbase : base = 0 ∨ base = 16)
    (n : Nat) {rest : List Char} (hrest : EndsNumeral 16 rest) :
    scanInteger base (hexText n ++ rest) = some (false, n, rest) := by
  have hsign : takeSign (skipSpace (hexText n ++ rest)) =
      (false, hexText n ++ rest) := rfl
  have hradix : takeRadix base (hexText n ++ rest) =
      (16, numeral 16 n ++ rest) := by
    simp [takeRadix, hbase, takeHexPrefix_hexText]
  have hdigits := takeDigits_numeral (by norm_num) (le_refl 16) n hrest
  have hvalue := value_digits (b := 16) (by norm_num) n
  simp only [scanInteger, hsign, hradix, hdigits]
  cases hds : digits 16 n with
  | nil => exact absurd hds (digits_ne_nil 16 n)
  | cons d ds => simp [← hds, hvalue]

/-- `strtol` with base `0` reads a hexadecimal address back, clamped. -/
theorem strtol_hexText (n : Nat) :
    strtol 0 (hexText n) = (min longMax (n : Int), []) := by
  have hscan := scanInteger_hexText (Or.inl rfl) n (endsNumeral_nil 16)
  rw [List.append_nil] at hscan
  simp [strtol, hscan]

/-- `%d`: an optional minus sign and a decimal numeral. -/
def decText : Int → List Char
  | .ofNat n => numeral 10 n
  | .negSucc n => '-' :: numeral 10 (n + 1)

theorem mem_numeral {b n : Nat} (hpos : 0 < b) {c : Char}
    (hc : c ∈ numeral b n) : ∃ d < b, c = d.digitChar := by
  rw [numeral, List.mem_map] at hc
  obtain ⟨d, hd, rfl⟩ := hc
  exact ⟨d, mem_digits_lt hpos n d hd, rfl⟩

theorem digitChar_unsigned : ∀ d < 10, isSpace d.digitChar = false ∧
    d.digitChar ≠ '-' ∧ d.digitChar ≠ '+' := by
  decide

/-- Neither blanks nor a sign stand before a numeral. -/
theorem takeSign_numeral (n : Nat) :
    takeSign (skipSpace (numeral 10 n)) = (false, numeral 10 n) := by
  rcases hnum : numeral 10 n with - | ⟨c, cs⟩
  · exact absurd hnum (numeral_ne_nil 10 n)
  · have hc : c ∈ numeral 10 n := by rw [hnum]; exact List.mem_cons_self
    obtain ⟨d, hd, rfl⟩ := mem_numeral (by norm_num) hc
    obtain ⟨hspace, hminus, hplus⟩ := digitChar_unsigned d hd
    rw [skipSpace, hspace, if_neg Bool.false_ne_true, takeSign]
    · intro cs' h
      exact hminus (List.cons.inj h).1
    · intro cs' h
      exact hplus (List.cons.inj h).1

theorem scanInteger_signed {s : List Char} {negative : Bool} {n : Nat}
    (h : takeSign (skipSpace s) = (negative, numeral 10 n)) :
    scanInteger 10 s = some (negative, n, []) := by
  have hdigits := takeDigits_numeral (by norm_num) (by norm_num : 10 ≤ 16) n
    (endsNumeral_nil 10)
  have hvalue := value_digits (b := 10) (by norm_num) n
  rw [List.append_nil] at hdigits
  simp only [scanInteger, h, takeRadix, OfNat.ofNat_ne_zero,
    Nat.reduceEqDiff, or_self, ↓reduceIte, hdigits]
  rcases hds : digits 10 n with - | ⟨d, ds⟩
  · exact absurd hds (digits_ne_nil 10 n)
  · simp [← hds, hvalue]

/-- `strtol` with base `10` reads a decimal number back, clamped. -/
theorem strtol_decText (i : Int) :
    strtol 10 (decText i) = (max longMin (min longMax i), []) := by
  rcases i with n | n
  · have hscan := scanInteger_signed (takeSign_numeral n)
    have hpos : longMin ≤ min longMax (n : Int) := by
      simp only [longMin, longMax]
      omega
    simp [strtol, decText, hscan, hpos]
  · have hsign : takeSign (skipSpace ('-' :: numeral 10 (n + 1))) =
        (true, numeral 10 (n + 1)) := rfl
    have hscan := scanInteger_signed hsign
    have hneg : min longMax (Int.negSucc n) = -((n + 1 : Nat) : Int) := by
      simp only [longMax]
      omega
    simp [strtol, decText, hscan, hneg]

theorem decText_injective : Function.Injective decText := by
  have hread (i : Int) : scanInteger 10 (decText i) =
      some (decide (i < 0), i.natAbs, []) := by
    rcases i with n | n
    · exact scanInteger_signed (takeSign_numeral n)
    · rw [decide_eq_true (Int.negSucc_lt_zero n)]
      exact @scanInteger_signed ('-' :: numeral 10 (n + 1)) true (n + 1) rfl
  intro i j h
  have hi := hread i
  rw [h, hread j] at hi
  simp only [Option.some.injEq, Prod.mk.injEq, decide_eq_decide] at hi
  omega

end Numeral
