import Mathlib.Data.Char
import Mathlib.Data.List.Lex
import Mathlib.Data.List.Induction
import Chericat.Numeral

/-!
The lexicographic order of numerals.  It is the order of the numbers for
numerals of one length, and looks at the leading digits only for others.
-/

namespace Numeral

/-! ### Digit lists -/

theorem value_append (b : Nat) (ds es : List Nat) :
    value b (ds ++ es) = value b ds * b ^ es.length + value b es := by
  induction es using List.reverseRecOn with
  | nil => simp [value]
  | append_singleton es e ih =>
      rw [← List.append_assoc, value_append_singleton, ih,
        value_append_singleton, List.length_append, List.length_singleton,
        pow_succ, add_mul, mul_assoc, add_assoc]

theorem value_cons (b d : Nat) (ds : List Nat) :
    value b (d :: ds) = d * b ^ ds.length + value b ds := by
  simpa [value] using value_append b [d] ds

theorem value_lt_pow {b : Nat} {ds : List Nat} (h : ∀ d ∈ ds, d < b) :
    value b ds < b ^ ds.length := by
  induction ds with
  | nil => simp [value]
  | cons d ds ih =>
      rw [List.forall_mem_cons] at h
      have hd : d + 1 ≤ b := h.1
      have htail := ih h.2
      calc value b (d :: ds) = d * b ^ ds.length + value b ds :=
            value_cons b d ds
        _ < (d + 1) * b ^ ds.length := by rw [add_mul]; omega
        _ ≤ b * b ^ ds.length := Nat.mul_le_mul_right _ hd
        _ = b ^ (ds.length + 1) := (pow_succ' b _).symm

/-- Lists whose first halves have one length are compared by these first. -/
theorem append_lt_append_iff {α : Type} [LT α]
    [Std.Irrefl (· < · : α → α → Prop)] {ds es gs fs : List α}
    (h : ds.length = es.length) :
    ds ++ gs < es ++ fs ↔ ds < es ∨ ds = es ∧ gs < fs := by
  induction ds generalizing es with
  | nil =>
      cases List.length_eq_zero_iff.mp h.symm
      simp
  | cons d ds ih =>
      rcases es with - | ⟨e, es⟩
      · simp at h
      · simp only [List.length_cons, Nat.add_right_cancel_iff] at h
        simp only [List.cons_append, List.cons_lt_cons_iff, ih h,
          List.cons.injEq]
        tauto

/-- Digit lists of one length are ordered as the numbers they denote. -/
theorem lt_iff_value_lt {b : Nat} {ds es : List Nat}
    (hlength : ds.length = es.length) (hds : ∀ d ∈ ds, d < b)
    (hes : ∀ e ∈ es, e < b) : ds < es ↔ value b ds < value b es := by
  induction ds generalizing es with
  | nil =>
      cases List.length_eq_zero_iff.mp hlength.symm
      simp
  | cons d ds ih =>
      rcases es with - | ⟨e, es⟩
      · simp at hlength
      · simp only [List.length_cons, Nat.add_right_cancel_iff] at hlength
        rw [List.forall_mem_cons] at hds hes
        have hd := value_lt_pow hds.2
        have he := value_lt_pow hes.2
        have htail := ih hlength hds.2 hes.2
        rw [List.cons_lt_cons_iff, htail, value_cons, value_cons, hlength]
        rw [hlength] at hd
        rcases lt_trichotomy d e with hlt | rfl | hlt
        · have hstep := Nat.mul_le_mul_right (b ^ es.length) hlt
          rw [Nat.succ_mul] at hstep
          exact ⟨fun _ => by omega, fun _ => Or.inl hlt⟩
        · simp
        · have hstep := Nat.mul_le_mul_right (b ^ es.length) hlt
          rw [Nat.succ_mul] at hstep
          constructor
          · rintro (h | ⟨rfl, _⟩) <;> omega
          · intro h
            omega

theorem value_eq_iff {b : Nat} {ds es : List Nat}
    (hlength : ds.length = es.length) (hds : ∀ d ∈ ds, d < b)
    (hes : ∀ e ∈ es, e < b) : value b ds = value b es ↔ ds = es := by
  refine ⟨fun h => ?_, fun h => by rw [h]⟩
  apply List.le_antisymm
  · intro hlt
    rw [lt_iff_value_lt hlength.symm hes hds] at hlt
    omega
  · intro hlt
    rw [lt_iff_value_lt hlength hds hes] at hlt
    omega

/-! ### Counting digits -/

/-- How many digits the numeral of a number has. -/
def digitCount (b n : Nat) : Nat := (digits b n).length

theorem digitCount_pos (b n : Nat) : 0 < digitCount b n :=
  List.length_pos_iff.2 (digits_ne_nil b n)

theorem lt_pow_digitCount {b : Nat} (hb : 2 ≤ b) (n : Nat) :
    n < b ^ digitCount b n := by
  have h := value_lt_pow (mem_digits_lt (b := b) (by omega) n)
  rwa [value_digits hb] at h

theorem pow_digitsAux_le {b : Nat} (hb : 2 ≤ b) {fuel n : Nat}
    (hfuel : n < fuel) (hn : 0 < n) :
    b ^ ((digitsAux b fuel n).length - 1) ≤ n := by
  induction fuel generalizing n with
  | zero => omega
  | succ fuel ih =>
      by_cases hlt : n < b
      · simp only [digitsAux, hlt, ↓reduceIte, List.length_singleton,
          Nat.sub_self, pow_zero]
        exact hn
      · have hdiv : n / b < n := Nat.div_lt_self hn (by omega)
        have hpos : 0 < n / b := Nat.div_pos (by omega) (by omega)
        have hhigh := ih (by omega) hpos
        rw [digitsAux, if_neg hlt, List.length_append, List.length_singleton,
          Nat.add_sub_cancel]
        rcases Nat.eq_zero_or_pos (digitsAux b fuel (n / b)).length with
          hzero | hlen
        · rw [hzero]
          exact hn
        · calc b ^ (digitsAux b fuel (n / b)).length
              = b ^ ((digitsAux b fuel (n / b)).length - 1) * b := by
                rw [← pow_succ, Nat.sub_add_cancel hlen]
            _ ≤ n / b * b := Nat.mul_le_mul_right b hhigh
            _ ≤ n := Nat.div_mul_le_self n b

/-- A number with more digits is larger. -/
theorem lt_of_digitCount_lt {b : Nat} (hb : 2 ≤ b) {m n : Nat}
    (h : digitCount b m < digitCount b n) : m < n := by
  have hm := lt_pow_digitCount hb m
  rcases Nat.eq_zero_or_pos n with rfl | hn
  · have hzero : digitCount b 0 = 1 := by
      simp [digitCount, digits, digitsAux, show 0 < b by omega]
    have := digitCount_pos b m
    omega
  · calc m < b ^ digitCount b m := hm
      _ ≤ b ^ (digitCount b n - 1) := Nat.pow_le_pow_right (by omega) (by omega)
      _ ≤ n := pow_digitsAux_le hb (Nat.lt_succ_self n) hn

/-! ### Numerals -/

theorem digitChar_lt_iff : ∀ d < 16, ∀ e < 16,
    d.digitChar < e.digitChar ↔ d < e := by
  decide

theorem digitChar_inj : ∀ d < 16, ∀ e < 16,
    d.digitChar = e.digitChar ↔ d = e := by
  decide

theorem map_digitChar_lt_iff {ds es : List Nat} (hds : ∀ d ∈ ds, d < 16)
    (hes : ∀ e ∈ es, e < 16) :
    ds.map Nat.digitChar < es.map Nat.digitChar ↔ ds < es := by
  induction ds generalizing es with
  | nil => cases es <;> simp
  | cons d ds ih =>
      rcases es with - | ⟨e, es⟩
      · simp
      · rw [List.forall_mem_cons] at hds hes
        rw [List.map_cons, List.map_cons, List.cons_lt_cons_iff,
          List.cons_lt_cons_iff, digitChar_lt_iff d hds.1 e hes.1,
          digitChar_inj d hds.1 e hes.1, ih hds.2 hes.2]

/-- The leading digits denote a quotient. -/
theorem value_take {b : Nat} {ds : List Nat} (h : ∀ d ∈ ds, d < b) (k : Nat) :
    value b (ds.take k) = value b ds / b ^ (ds.length - k) := by
  have hlow := value_lt_pow fun d hd => h d (List.mem_of_mem_drop (i := k) hd)
  have hsplit := value_append b (ds.take k) (ds.drop k)
  rw [List.take_append_drop] at hsplit
  rw [List.length_drop] at hlow hsplit
  rw [hsplit, mul_comm, Nat.mul_add_div (by omega), Nat.div_eq_of_lt hlow,
    Nat.add_zero]

theorem drop_min_lt_iff (ds es : List Nat) :
    ds.drop (min ds.length es.length) < es.drop (min ds.length es.length) ↔
      ds.length < es.length := by
  rcases Nat.lt_or_ge ds.length es.length with hlt | hge
  · rw [Nat.min_eq_left hlt.le, List.drop_length]
    have hne : es.drop ds.length ≠ [] := by simpa using hlt
    obtain ⟨e, es', hes⟩ := List.exists_cons_of_ne_nil hne
    simp [hes, hlt]
  · rw [Nat.min_eq_right hge, List.drop_length]
    simpa using hge

/-- Numerals are compared by as many leading digits as both have; of two
numerals that agree on these the shorter one is less. -/
theorem numeral_lt_iff {b : Nat} (hb : 2 ≤ b) (hb' : b ≤ 16) (m n : Nat) :
    numeral b m < numeral b n ↔
      m / b ^ (digitCount b m - digitCount b n) <
          n / b ^ (digitCount b n - digitCount b m) ∨
        m / b ^ (digitCount b m - digitCount b n) =
            n / b ^ (digitCount b n - digitCount b m) ∧
          digitCount b m < digitCount b n := by
  have hm := mem_digits_lt (b := b) (by omega) m
  have hn := mem_digits_lt (b := b) (by omega) n
  have hlift (k : Nat) : ∀ d ∈ digits b k, d < 16 := fun d hd =>
    (mem_digits_lt (b := b) (by omega) k d hd).trans_le hb'
  have htake {k j : Nat} : ∀ d ∈ (digits b k).take j, d < b := fun d hd =>
    mem_digits_lt (by omega) k d (List.mem_of_mem_take hd)
  have hlength : ((digits b m).take (min (digitCount b m)
        (digitCount b n))).length =
      ((digits b n).take (min (digitCount b m) (digitCount b n))).length := by
    rw [List.length_take, List.length_take, digitCount, digitCount]
    omega
  rw [numeral, numeral, map_digitChar_lt_iff (hlift m) (hlift n)]
  calc digits b m < digits b n
      ↔ (digits b m).take (min (digitCount b m) (digitCount b n)) ++
            (digits b m).drop (min (digitCount b m) (digitCount b n)) <
          (digits b n).take (min (digitCount b m) (digitCount b n)) ++
            (digits b n).drop (min (digitCount b m) (digitCount b n)) := by
        rw [List.take_append_drop, List.take_append_drop]
    _ ↔ _ := by
        rw [append_lt_append_iff hlength, lt_iff_value_lt hlength htake htake,
          ← value_eq_iff hlength htake htake, value_take hm, value_take hn,
          value_digits hb, value_digits hb]
        have hdrop := drop_min_lt_iff (digits b m) (digits b n)
        rw [show (digits b m).length - min (digitCount b m) (digitCount b n) =
            digitCount b m - digitCount b n by rw [digitCount, digitCount]; omega,
          show (digits b n).length - min (digitCount b m) (digitCount b n) =
            digitCount b n - digitCount b m by rw [digitCount, digitCount]; omega]
        exact or_congr_right (and_congr_right fun _ => hdrop)

end Numeral
