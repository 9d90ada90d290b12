import Mathlib.Data.List.Induction

/-!
Logs of writes to a register.  An action writes a value or leaves the register
as it is, so that it holds at the end of a log what was written last, or what it
held before.
-/

universe u v

section LastWrite

variable {ε κ : Type u} {ω σ : Type v}

/-- What the last writing action of a log writes. -/
def lastWrite (w : ε → Option ω) (log : List ε) : Option ω :=
  (log.filterMap w).getLast?

@[simp] theorem lastWrite_nil (w : ε → Option ω) : lastWrite w [] = none := rfl

theorem lastWrite_append (w : ε → Option ω) (log more : List ε) :
    lastWrite w (log ++ more) = (lastWrite w more).or (lastWrite w log) := by
  rw [lastWrite, List.filterMap_append, List.getLast?_append]
  rfl

theorem lastWrite_concat (w : ε → Option ω) (log : List ε) (e : ε) :
    lastWrite w (log ++ [e]) = (w e).or (lastWrite w log) := by
  rw [lastWrite_append]
  cases h : w e <;> simp [lastWrite, h]

theorem lastWrite_cons (w : ε → Option ω) (e : ε) (log : List ε) :
    lastWrite w (e :: log) = (lastWrite w log).or (w e) := by
  rw [← List.singleton_append, lastWrite_append]
  cases h : w e <;> simp [lastWrite, h]

theorem lastWrite_eq_none_iff {w : ε → Option ω} {log : List ε} :
    lastWrite w log = none ↔ ∀ e ∈ log, w e = none := by
  rw [lastWrite, List.getLast?_eq_none_iff, List.filterMap_eq_nil_iff]

/-- The last write is that of an action after which nothing is written. -/
theorem lastWrite_eq_some_iff {w : ε → Option ω} {log : List ε} {a : ω} :
    lastWrite w log = some a ↔ ∃ before e after, log = before ++ e :: after ∧
      w e = some a ∧ ∀ e' ∈ after, w e' = none := by
  constructor
  · intro h
    induction log using List.reverseRecOn with
    | nil => cases h
    | append_singleton log e ih =>
        rw [lastWrite_concat] at h
        cases he : w e with
        | some b =>
            rw [he, Option.some_or] at h
            exact ⟨log, e, [], rfl, he.trans h, List.forall_mem_nil _⟩
        | none =>
            rw [he, Option.none_or] at h
            obtain ⟨before, e', after, rfl, hwrite, hnone⟩ := ih h
            refine ⟨before, e', after ++ [e], by simp, hwrite, ?_⟩
            intro d hd
            rcases List.mem_append.1 hd with hd | hd
            · exact hnone d hd
            · rwa [List.mem_singleton.1 hd]
  · rintro ⟨before, e, after, rfl, hwrite, hnone⟩
    rw [lastWrite_append, lastWrite_cons, lastWrite_eq_none_iff.2 hnone,
      hwrite]
    rfl

/-- Logs whose actions correspond end with corresponding writes. -/
theorem lastWrite_rel {ε' : Type u} {ω' : Type v} {w : ε → Option ω}
    {w' : ε' → Option ω'} {R : ω → ω' → Prop} {log : List ε} {log' : List ε'}
    (h : List.Forall₂ (fun e e' => Option.Rel R (w e) (w' e')) log log') :
    Option.Rel R (lastWrite w log) (lastWrite w' log') := by
  induction h with
  | nil => exact .none
  | cons he _ ih =>
      rw [lastWrite_cons, lastWrite_cons]
      generalize lastWrite w _ = last at ih ⊢
      generalize lastWrite w' _ = last' at ih ⊢
      cases ih with
      | none => exact he
      | some hlast => exact .some hlast

/-- A register that every action overwrites or keeps holds the last write, or
what it held at the start; `I` is what the actions do not change. -/
theorem read_foldl {w : ε → Option ω} {step : σ → ε → σ} {read : σ → ω}
    {I : σ → Prop} (hI : ∀ s e, I s → I (step s e))
    (hread : ∀ s e, I s → read (step s e) = (w e).getD (read s)) {s : σ}
    (hs : I s) (log : List ε) :
    read (log.foldl step s) = (lastWrite w log).getD (read s) := by
  induction log generalizing s with
  | nil => rfl
  | cons e log ih =>
      rw [List.foldl_cons, ih (hI s e hs), hread s e hs, lastWrite_cons]
      cases lastWrite w log <;> rfl

end LastWrite
