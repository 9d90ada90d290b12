import Mathlib.Algebra.GroupWithZero.Nat
import Mathlib.Algebra.BigOperators.Group.List.Lemmas
import Mathlib.Algebra.Order.BigOperators.Group.List
import Mathlib.Data.List.Nodup
import Mathlib.Data.List.ProdSigma
import Chericat.ProgramRun

/-!
Partial steps that count.  A state stands for numbers, one for each key, and a
step adds its hits to them; the states a run goes through include those in the
middle of a step.
-/

namespace Steps

variable {σ α κ τ : Type*} {step : σ → α → Option σ}

/-! ### Loops in one another -/

theorem run_concat (s : σ) (as : List α) (a : α) :
    run step s (as ++ [a]) = (run step s as).bind (step · a) := by
  rw [run_append]
  simp only [run, Option.bind_fun_some]

theorem run_map {β : Type*} (f : β → α) (s : σ) (bs : List β) :
    run step s (bs.map f) = run (fun s b => step s (f b)) s bs := by
  induction bs generalizing s with
  | nil => rfl
  | cons b bs ih =>
      simp only [List.map_cons, run, ih]

/-- Two loops are one over all pairs. -/
theorem run_product {β : Type*} (inner : α → σ → β → Option σ) (s : σ)
    (as : List α) (bs : List β) :
    run (fun s a => run (inner a) s bs) s as =
      run (fun s p => inner p.1 s p.2) s (as ×ˢ bs) := by
  induction as generalizing s with
  | nil => rfl
  | cons a as ih =>
      rw [run, List.product_cons, run_append, run_map]
      simp only [ih]

/-- A loop that takes a step for some elements only. -/
theorem run_filter {β : Type*} (p : β → Prop) [DecidablePred p] (f : β → α)
    (s : σ) (bs : List β) :
    run (fun s b => if p b then step s (f b) else some s) s bs =
      run step s ((bs.filter (p ·)).map f) := by
  induction bs generalizing s with
  | nil => rfl
  | cons b bs ih =>
      rw [run, List.filter_cons]
      by_cases hb : p b
      · simp only [hb, if_true, decide_true, List.map_cons, run, ih]
      · simp [hb, ih]

/-! ### Hits -/

/-- The step can be taken for the elements that are `ok`, in a state that
stands for some numbers, and then adds its hits to these. -/
structure Tallies (step : σ → α → Option σ) (Stands : σ → (κ → Nat) → Prop)
    (ok : α → Prop) (hits : α → κ → Nat) : Prop where
  taken : ∀ s n a, Stands s n → ok a →
    ∃ s', step s a = some s' ∧ Stands s' fun k => n k + hits a k
  refused : ∀ s n a, Stands s n → ¬ ok a → step s a = none

variable {Stands : σ → (κ → Nat) → Prop} {ok : α → Prop}
  {hits : α → κ → Nat}

/-- The steps one after the other add all their hits. -/
theorem Tallies.run (h : Tallies step Stands ok hits) :
    Tallies (run step) Stands (fun as => ∀ a ∈ as, ok a)
      fun as k => (as.map (hits · k)).sum := by
  constructor
  · intro s n as hs hok
    induction as generalizing s n with
    | nil => exact ⟨s, rfl, by simpa using hs⟩
    | cons a as ih =>
        rw [List.forall_mem_cons] at hok
        obtain ⟨u, hu, hstands⟩ := h.taken s n a hs hok.1
        obtain ⟨s', hs', hstands'⟩ := ih u _ hstands hok.2
        refine ⟨s', run_cons_eq_some.mpr ⟨u, hu, hs'⟩, ?_⟩
        simpa only [List.map_cons, List.sum_cons, add_assoc] using hstands'
  · intro s n as hs hok
    induction as generalizing s n with
    | nil => exact absurd (List.forall_mem_nil _) hok
    | cons a as ih =>
        rw [Steps.run]
        by_cases ha : ok a
        · obtain ⟨u, hu, hstands⟩ := h.taken s n a hs ha
          rw [hu, Option.bind_some]
          exact ih u _ hstands fun has =>
            hok (List.forall_mem_cons.mpr ⟨ha, has⟩)
        · rw [h.refused s n a hs ha, Option.bind_none]

/-- An outer step that goes through a list of its own, from a state that it
sets up to one that it takes the result from. -/
theorem Tallies.nested {β ρ : Type*} {inner : β → σ → α → Option σ}
    {Inner : β → σ → (κ → Nat) → Prop} {ok : β → α → Prop}
    {hits : β → α → κ → Nat} (Outer : ρ → (κ → Nat) → Prop) (start : ρ → σ)
    (finish : σ → ρ) (list : β → List α)
    (h : ∀ b, Tallies (inner b) (Inner b) (ok b) (hits b))
    (hstart : ∀ b s n, Outer s n → Inner b (start s) n)
    (hfinish : ∀ b s n, Inner b s n → Outer (finish s) n) :
    Tallies (fun s b => (Steps.run (inner b) (start s) (list b)).map finish)
      Outer (fun b => ∀ a ∈ list b, ok b a)
      fun b k => ((list b).map (hits b · k)).sum := by
  constructor
  · intro s n b hs hok
    obtain ⟨s', hs', hstands⟩ :=
      (h b).run.taken (start s) n (list b) (hstart b s n hs) hok
    exact ⟨finish s', by rw [hs', Option.map_some], hfinish b s' _ hstands⟩
  · intro s n b hs hok
    rw [(h b).run.refused (start s) n (list b) (hstart b s n hs) hok,
      Option.map_none]

/-! ### Sums over lists -/

/-- Where a hit counts one, a list counts how many it has. -/
theorem sum_map_ite (p : α → Prop) [DecidablePred p] (as : List α) :
    (as.map fun a => if p a then 1 else 0).sum = as.countP (p ·) := by
  induction as with
  | nil => rfl
  | cons a as ih =>
      rw [List.map_cons, List.sum_cons, ih, List.countP_cons, add_comm]
      simp only [decide_eq_true_eq]

/-- Which of two loops is the outer one does not matter for a sum. -/
theorem sum_map_sum_map {β : Type*} (f : α → β → Nat) (as : List α)
    (bs : List β) : (as.map fun a => (bs.map fun b => f a b).sum).sum =
      (bs.map fun b => (as.map fun a => f a b).sum).sum := by
  induction as with
  | nil => simp
  | cons a as ih =>
      simp only [List.map_cons, List.sum_cons, ih, List.sum_map_add]

theorem nodup_eraseDups [BEq α] [LawfulBEq α] (as : List α) :
    as.eraseDups.Nodup := by
  induction hlen : as.length using Nat.strongRecOn generalizing as with
  | ind n ih =>
      cases as with
      | nil => exact List.nodup_nil
      | cons a as =>
          rw [List.eraseDups_cons, List.nodup_cons]
          have hshorter := List.length_filter_le (fun b => !b == a) as
          rw [List.length_cons] at hlen
          refine ⟨by simp [List.mem_eraseDups], ih _ ?_ _ rfl⟩
          omega

/-- A sum over the elements of a list without repetitions, only one of which
counts. -/
theorem sum_map_single [DecidableEq α] {f : α → Nat} {a : α}
    (h : ∀ b, b ≠ a → f b = 0) {as : List α} (hnodup : as.Nodup) :
    (as.map f).sum = if a ∈ as then f a else 0 := by
  rw [List.sum_map_eq_nsmul_single a f fun b hb _ => h b hb]
  split
  · next hmem =>
      rw [List.count_eq_one_of_mem hnodup hmem, one_nsmul]
  · next hmem =>
      rw [List.count_eq_zero.mpr hmem, zero_nsmul]

/-- Counting right in total: what is hit too often makes up for what is not
hit. -/
theorem sum_map_eq_countP_iff (hits : α → Nat) (p : α → Prop)
    [DecidablePred p] (as : List α) : (as.map hits).sum = as.countP (p ·) ↔
      (as.map fun a => hits a - if p a then 1 else 0).sum =
        as.countP fun a => p a ∧ hits a = 0 := by
  have hbalance : (as.map hits).sum + as.countP (fun a => p a ∧ hits a = 0) =
      (as.map fun a => hits a - if p a then 1 else 0).sum +
        as.countP (p ·) := by
    induction as with
    | nil => rfl
    | cons a as ih =>
        simp only [List.map_cons, List.sum_cons, List.countP_cons,
          decide_eq_true_eq]
        by_cases ha : p a
        · by_cases hzero : hits a = 0
          · simp only [ha, hzero, and_self, if_true]
            omega
          · simp only [ha, hzero, and_false, if_true, if_false]
            omega
        · simp only [ha, false_and, if_false]
          omega
  omega

/-! ### What is left by a step -/

/-- What each step leaves and the later ones keep is there in the end. -/
theorem run_leaves {Left : α → σ → Prop} {s s' : σ} {as : List α}
    (hleaves : ∀ s a s', step s a = some s' → Left a s')
    (hkeeps : ∀ s a s' b, Left b s → step s a = some s' → Left b s')
    (h : run step s as = some s') : ∀ a ∈ as, Left a s' := by
  induction as using List.reverseRecOn generalizing s' with
  | nil => exact List.forall_mem_nil _
  | append_singleton as b ih =>
      rw [run_append] at h
      obtain ⟨u, hu, hlast⟩ := Option.bind_eq_some_iff.mp h
      obtain ⟨u', hu', hend⟩ := run_cons_eq_some.mp hlast
      cases hend
      rw [List.forall_mem_append, List.forall_mem_singleton]
      exact ⟨fun a ha => hkeeps u b s' a (ih hu a ha) hu',
        hleaves u b s' hu'⟩

/-! ### States on the way -/

/-- What a run shows: the state it starts from and those after its steps, as
`view` shows them, and what a step shows `inside`, even when it then fails. -/
def Shows (view : σ → τ) (inside : σ → α → τ → Prop)
    (step : σ → α → Option σ) (s : σ) (as : List α) (t : τ) : Prop :=
  ∃ done rest u, as = done ++ rest ∧ run step s done = some u ∧
    (t = view u ∨ ∃ a rest', rest = a :: rest' ∧ inside u a t)

theorem Shows.of_invariant {view : σ → τ} {inside : σ → α → τ → Prop}
    {s : σ} {as : List α} {P : τ → Prop} (Inv : σ → Prop) (hstart : Inv s)
    (hstep : ∀ u a u', a ∈ as → Inv u → step u a = some u' → Inv u')
    (hview : ∀ u, Inv u → P (view u))
    (hinside : ∀ u a t, a ∈ as → Inv u → inside u a t → P t) {t : τ}
    (h : Shows view inside step s as t) : P t := by
  obtain ⟨done, rest, u, rfl, hdone, ht⟩ := h
  have hu : Inv u := by
    refine run_induction hdone hstart ?_
    intro done' a rest' v v' hsplit _ hv hinv
    refine hstep v a v' ?_ hinv hv
    simp [hsplit]
  rcases ht with rfl | ⟨a, rest', rfl, hin⟩
  · exact hview u hu
  · exact hinside u a t (by simp) hu hin

/-- A run that counts keeps what is true of all states that stand for some
numbers. -/
theorem Tallies.shows (h : Tallies step Stands ok hits) {view : σ → τ}
    {inside : σ → α → τ → Prop} {s : σ} {n : κ → Nat} {as : List α}
    {P : τ → Prop} (hs : Stands s n)
    (hview : ∀ u m, Stands u m → P (view u))
    (hinside : ∀ u m a t, a ∈ as → Stands u m → inside u a t → P t) {t : τ}
    (hshown : Shows view inside step s as t) : P t := by
  refine hshown.of_invariant (fun u => ∃ m, Stands u m) ⟨n, hs⟩ ?_ ?_ ?_
  · rintro u a u' _ ⟨m, hm⟩ hu'
    by_cases ha : ok a
    · obtain ⟨v, hv, hstands⟩ := h.taken u m a hm ha
      rw [hv, Option.some.injEq] at hu'
      exact ⟨_, hu' ▸ hstands⟩
    · rw [h.refused u m a hm ha] at hu'
      cases hu'
  · rintro u ⟨m, hm⟩
    exact hview u m hm
  · rintro u a t ha ⟨m, hm⟩ hin
    exact hinside u m a t ha hm hin

end Steps
