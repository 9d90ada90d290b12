import Mathlib.Data.List.Induction

/-!
Runs of a program that talks to its environment and may stop early: the
actions it performs, in order, and how it ends.  The rules here are the ones
every proof about a run uses: how binding composes runs, and how a loop
carries an invariant.
-/

universe u

/-- The actions performed, and the value returned or the early stop. -/
structure Run (ε σ α : Type u) where
  trace : List ε
  outcome : Except σ α

namespace Run

variable {ε σ α β : Type u}

/-- Perform one action. -/
def emit (e : ε) : Run ε σ PUnit := ⟨[e], .ok ⟨⟩⟩

/-- End the program here. -/
def stop (s : σ) : Run ε σ α := ⟨[], .error s⟩

def andThen (m : Run ε σ α) (f : α → Run ε σ β) : Run ε σ β :=
  match m.outcome with
  | .ok a => ⟨m.trace ++ (f a).trace, (f a).outcome⟩
  | .error s => ⟨m.trace, .error s⟩

instance : Monad (Run ε σ) where
  pure a := ⟨[], .ok a⟩
  bind := andThen

@[simp] theorem trace_pure (a : α) : (pure a : Run ε σ α).trace = [] := rfl

@[simp] theorem outcome_pure (a : α) :
    (pure a : Run ε σ α).outcome = .ok a := rfl

@[simp] theorem trace_emit (e : ε) :
    (emit e : Run ε σ PUnit).trace = [e] := rfl

@[simp] theorem outcome_emit (e : ε) :
    (emit e : Run ε σ PUnit).outcome = .ok ⟨⟩ := rfl

@[simp] theorem trace_stop (s : σ) : (stop s : Run ε σ α).trace = [] := rfl

@[simp] theorem outcome_stop (s : σ) :
    (stop s : Run ε σ α).outcome = .error s := rfl

theorem trace_bind_ok {m : Run ε σ α} {a : α} (h : m.outcome = .ok a)
    (f : α → Run ε σ β) : (m >>= f).trace = m.trace ++ (f a).trace := by
  change (andThen m f).trace = _
  rw [andThen, h]

theorem outcome_bind_ok {m : Run ε σ α} {a : α} (h : m.outcome = .ok a)
    (f : α → Run ε σ β) : (m >>= f).outcome = (f a).outcome := by
  change (andThen m f).outcome = _
  rw [andThen, h]

theorem bind_error {m : Run ε σ α} {s : σ} (h : m.outcome = .error s)
    (f : α → Run ε σ β) : m >>= f = ⟨m.trace, .error s⟩ := by
  change andThen m f = _
  rw [andThen, h]

@[simp] theorem mk_ok_bind (tr : List ε) (a : α) (f : α → Run ε σ β) :
    (⟨tr, .ok a⟩ : Run ε σ α) >>= f =
      ⟨tr ++ (f a).trace, (f a).outcome⟩ := rfl

theorem mem_trace_bind {m : Run ε σ α} {f : α → Run ε σ β} {e : ε} :
    e ∈ (m >>= f).trace ↔
      e ∈ m.trace ∨ ∃ a, m.outcome = .ok a ∧ e ∈ (f a).trace := by
  cases hm : m.outcome with
  | ok a => simp [trace_bind_ok hm]
  | error s => simp [bind_error hm]

/-- A run that returns did so through both of its halves. -/
theorem bind_eq_ok {m : Run ε σ α} {f : α → Run ε σ β} {b : β}
    (h : (m >>= f).outcome = .ok b) :
    ∃ a, m.outcome = .ok a ∧ (f a).outcome = .ok b := by
  cases hm : m.outcome with
  | ok a => exact ⟨a, rfl, by rw [← outcome_bind_ok hm f, h]⟩
  | error s => rw [bind_error hm] at h; cases h

@[simp] theorem stop_bind (s : σ) (f : α → Run ε σ β) :
    stop s >>= f = stop s :=
  bind_error rfl f

theorem bind_pure_self (m : Run ε σ α) :
    m >>= (fun a => pure (id a)) = m := by
  change andThen m _ = m
  obtain ⟨trace, outcome⟩ := m
  cases outcome <;> simp [andThen]

theorem pure_then (a : α) (f : α → Run ε σ β) : pure a >>= f = f a := by
  change andThen _ f = f a
  simp [andThen]

theorem bind_then {γ : Type u} (m : Run ε σ α) (f : α → Run ε σ β)
    (g : β → Run ε σ γ) : m >>= f >>= g = m >>= fun a => f a >>= g := by
  change andThen (andThen m f) g = andThen m fun a => andThen (f a) g
  obtain ⟨trace, outcome⟩ := m
  cases outcome with
  | error s => rfl
  | ok a =>
      cases hfa : (f a).outcome <;> simp [andThen, hfa]

instance : LawfulMonad (Run ε σ) :=
  LawfulMonad.mk' (Run ε σ) bind_pure_self pure_then bind_then

@[simp] theorem map_mk_ok (tr : List ε) (a : α) (f : α → β) :
    f <$> (⟨tr, .ok a⟩ : Run ε σ α) = ⟨tr, .ok (f a)⟩ := by
  rw [map_eq_pure_bind, mk_ok_bind]
  simp

/-! ### Loops -/

/-- A loop over a list, threading a state. -/
def loop (f : β → α → Run ε σ β) : β → List α → Run ε σ β
  | b, [] => pure b
  | b, a :: as => f b a >>= fun b' => loop f b' as

@[simp] theorem loop_nil (f : β → α → Run ε σ β) (b : β) :
    loop f b [] = pure b := rfl

theorem loop_cons (f : β → α → Run ε σ β) (b : β) (a : α) (as : List α) :
    loop f b (a :: as) = f b a >>= fun b' => loop f b' as := rfl

theorem loop_append (f : β → α → Run ε σ β) (b : β) (as bs : List α) :
    loop f b (as ++ bs) = loop f b as >>= fun b' => loop f b' bs := by
  induction as generalizing b with
  | nil => simp
  | cons a as ih =>
      rw [List.cons_append, loop_cons, loop_cons, bind_assoc]
      exact congrArg _ (funext ih)

/-- The last iteration of a loop that returns. -/
theorem loop_concat_ok {f : β → α → Run ε σ β} {b b' : β} {as : List α} {a : α}
    (h : (loop f b (as ++ [a])).outcome = .ok b') :
    ∃ b₁, (loop f b as).outcome = .ok b₁ ∧ (f b₁ a).outcome = .ok b' := by
  rw [loop_append] at h
  obtain ⟨b₁, hloop, h⟩ := bind_eq_ok h
  rw [loop_cons] at h
  obtain ⟨b₂, hlast, h⟩ := bind_eq_ok h
  cases h
  exact ⟨b₁, hloop, hlast⟩

/-- A loop stops at the first of its iterations that stops. -/
theorem loop_eq_error_iff {f : β → α → Run ε σ β} {b : β} {as : List α}
    {s : σ} :
    (loop f b as).outcome = .error s ↔
      ∃ before a after, as = before ++ a :: after ∧
        ∃ b', (loop f b before).outcome = .ok b' ∧
          (f b' a).outcome = .error s := by
  induction as generalizing b with
  | nil => exact iff_of_false nofun (by simp)
  | cons a as ih =>
      rw [loop_cons]
      rcases hstep : (f b a).outcome with s' | b₁
      · rw [bind_error hstep]
        constructor
        · intro h
          exact ⟨[], a, as, rfl, b, rfl, hstep.trans h⟩
        · rintro ⟨before, a', after, hsplit, b', hbefore, hstop⟩
          cases before with
          | nil =>
              obtain ⟨rfl, rfl⟩ := List.cons.inj hsplit
              cases hbefore
              exact hstep.symm.trans hstop
          | cons x before =>
              obtain ⟨rfl, rfl⟩ := List.cons.inj hsplit
              rw [loop_cons, bind_error hstep] at hbefore
              cases hbefore
      · rw [outcome_bind_ok hstep, ih]
        constructor
        · rintro ⟨before, a', after, rfl, b', hbefore, hstop⟩
          refine ⟨a :: before, a', after, rfl, b', ?_, hstop⟩
          rwa [loop_cons, outcome_bind_ok hstep]
        · rintro ⟨before, a', after, hsplit, b', hbefore, hstop⟩
          cases before with
          | nil =>
              obtain ⟨rfl, rfl⟩ := List.cons.inj hsplit
              cases hbefore
              cases hstep.symm.trans hstop
          | cons x before =>
              obtain ⟨rfl, rfl⟩ := List.cons.inj hsplit
              rw [loop_cons, outcome_bind_ok hstep] at hbefore
              exact ⟨before, a', after, rfl, b', hbefore, hstop⟩

/-- What every iteration preserves, a loop that returns preserves: `P` relates
the elements done and the trace so far to the state. -/
theorem loop_induction {f : β → α → Run ε σ β}
    {P : List α → List ε → β → Prop} {as : List α} {b b' : β}
    (h : (loop f b as).outcome = .ok b') (hstart : P [] [] b)
    (hstep : ∀ done tr b a b', P done tr b → (f b a).outcome = .ok b' →
      P (done ++ [a]) (tr ++ (f b a).trace) b') :
    P as (loop f b as).trace b' := by
  suffices hrest : ∀ done tr, P done tr b →
      P (done ++ as) (tr ++ (loop f b as).trace) b' from
    hrest [] [] hstart
  clear hstart
  induction as generalizing b with
  | nil =>
      intro done tr hb
      cases h
      simpa using hb
  | cons a as ih =>
      intro done tr hb
      obtain ⟨b₁, hb₁, hloop⟩ := bind_eq_ok h
      have htail := ih hloop _ _ (hstep done tr b a b₁ hb hb₁)
      rw [loop_cons, trace_bind_ok hb₁, ← List.append_assoc]
      simpa using htail

/-- Where every iteration that starts well returns and ends well, the loop
returns and ends well. -/
theorem loop_total {f : β → α → Run ε σ β} {P : List α → List ε → β → Prop}
    {as : List α} {b : β} (hstart : P [] [] b)
    (hstep : ∀ done tr b, ∀ a ∈ as, P done tr b → ∃ b',
      (f b a).outcome = .ok b' ∧ P (done ++ [a]) (tr ++ (f b a).trace) b') :
    ∃ b', (loop f b as).outcome = .ok b' ∧ P as (loop f b as).trace b' := by
  suffices hrest : ∀ done tr, P done tr b → ∃ b',
      (loop f b as).outcome = .ok b' ∧
        P (done ++ as) (tr ++ (loop f b as).trace) b' from
    hrest [] [] hstart
  clear hstart
  induction as generalizing b with
  | nil =>
      intro done tr hb
      exact ⟨b, rfl, by simpa using hb⟩
  | cons a as ih =>
      intro done tr hb
      obtain ⟨b₁, hok, hb₁⟩ := hstep done tr b a List.mem_cons_self hb
      obtain ⟨b', hloop, hb'⟩ := ih
        (fun done tr b c hc => hstep done tr b c (List.mem_cons_of_mem a hc))
        _ _ hb₁
      refine ⟨b', by rw [loop_cons, outcome_bind_ok hok, hloop], ?_⟩
      rw [loop_cons, trace_bind_ok hok, ← List.append_assoc]
      simpa using hb'

/-! ### Runs that return -/

/-- The run returns. -/
def Succeeds (m : Run ε σ α) : Prop := ∃ a, m.outcome = .ok a

theorem not_succeeds_iff {m : Run ε σ α} :
    ¬ Succeeds m ↔ ∃ s, m.outcome = .error s := by
  cases h : m.outcome <;> simp [Succeeds, h]

theorem succeeds_bind_iff {m : Run ε σ α} {f : α → Run ε σ β} :
    Succeeds (m >>= f) ↔ ∃ a, m.outcome = .ok a ∧ Succeeds (f a) := by
  constructor
  · rintro ⟨b, hb⟩
    obtain ⟨a, ha, hfa⟩ := bind_eq_ok hb
    exact ⟨a, ha, b, hfa⟩
  · rintro ⟨a, ha, b, hfa⟩
    exact ⟨b, by rw [outcome_bind_ok ha, hfa]⟩

/-- A loop returns when each of its iterations does, where that does not
depend on the state. -/
theorem loop_succeeds_iff {f : β → α → Run ε σ β} {good : α → Prop}
    (h : ∀ b a, Succeeds (f b a) ↔ good a) (b : β) (as : List α) :
    Succeeds (loop f b as) ↔ ∀ a ∈ as, good a := by
  induction as generalizing b with
  | nil => simp [Succeeds]
  | cons a as ih =>
      rw [loop_cons, succeeds_bind_iff, List.forall_mem_cons, ← h b a]
      constructor
      · rintro ⟨b', hb', htail⟩
        exact ⟨⟨b', hb'⟩, (ih b').1 htail⟩
      · rintro ⟨⟨b', hb'⟩, htail⟩
        exact ⟨b', hb', (ih b').2 htail⟩

/-- A loop that returns has performed what each of its iterations performs,
whatever the state. -/
theorem mem_trace_loop {f : β → α → Run ε σ β} {b : β} {as : List α}
    (h : Succeeds (loop f b as)) {a : α} (ha : a ∈ as) {e : ε}
    (he : ∀ b', e ∈ (f b' a).trace) : e ∈ (loop f b as).trace := by
  induction as generalizing b with
  | nil => cases ha
  | cons c cs ih =>
      obtain ⟨b', hb', htail⟩ := succeeds_bind_iff.1 h
      rw [loop_cons, mem_trace_bind]
      rcases List.mem_cons.1 ha with rfl | ha
      · exact Or.inl (he b)
      · exact Or.inr ⟨b', hb', ih htail ha⟩

/-! ### Actions of one kind -/

/-- Every action of the run satisfies `P`. -/
def Emits (P : ε → Prop) (m : Run ε σ α) : Prop := ∀ e ∈ m.trace, P e

variable {P : ε → Prop}

theorem emits_pure (a : α) : Emits P (pure a : Run ε σ α) := by
  simp [Emits]

theorem emits_stop (s : σ) : Emits P (stop s : Run ε σ α) := by
  simp [Emits]

theorem emits_emit {e : ε} (h : P e) : Emits P (emit e : Run ε σ PUnit) := by
  simpa [Emits] using h

theorem Emits.bind {m : Run ε σ α} {f : α → Run ε σ β} (hm : Emits P m)
    (hf : ∀ a, Emits P (f a)) : Emits P (m >>= f) := by
  cases h : m.outcome with
  | error s => rw [bind_error h]; exact hm
  | ok a =>
      intro e he
      rw [trace_bind_ok h, List.mem_append] at he
      exact he.elim (hm e) (hf a e)

theorem Emits.loop {f : β → α → Run ε σ β} (hf : ∀ b a, Emits P (f b a))
    (b : β) (as : List α) : Emits P (loop f b as) := by
  induction as generalizing b with
  | nil => exact emits_pure b
  | cons a as ih => exact (hf b a).bind ih

/-- Every action of the run satisfies `P`, and what it returns satisfies
`R`. -/
structure Ensures (P : ε → Prop) (R : α → Prop) (m : Run ε σ α) : Prop where
  emits : Emits P m
  returns : ∀ a, m.outcome = .ok a → R a

section Ensures

variable {R : α → Prop}

theorem ensures_pure {a : α} (h : R a) :
    Ensures P R (pure a : Run ε σ α) := by
  refine ⟨emits_pure a, fun b hb => ?_⟩
  cases hb
  exact h

theorem ensures_stop (s : σ) : Ensures P R (stop s : Run ε σ α) :=
  ⟨emits_stop s, nofun⟩

/-- Nothing is said about what is returned. -/
theorem Emits.ensures {m : Run ε σ α} (h : Emits P m) :
    Ensures P (fun a => m.outcome = .ok a) m := ⟨h, fun _ ha => ha⟩

theorem Ensures.bind {S : β → Prop} {m : Run ε σ α} {f : α → Run ε σ β}
    (hm : Ensures P R m) (hf : ∀ a, R a → Ensures P S (f a)) :
    Ensures P S (m >>= f) := by
  cases h : m.outcome with
  | error s =>
      rw [bind_error h]
      exact ⟨hm.emits, nofun⟩
  | ok a =>
      have hrest := hf a (hm.returns a h)
      constructor
      · intro e he
        rw [trace_bind_ok h, List.mem_append] at he
        exact he.elim (hm.emits e) (hrest.emits e)
      · rw [outcome_bind_ok h]
        exact hrest.returns

/-- A loop whose turns keep the invariant. -/
theorem Ensures.loop {I : β → Prop} {f : β → α → Run ε σ β} {as : List α}
    (hf : ∀ a ∈ as, ∀ b, I b → Ensures P I (f b a)) {b : β} (hb : I b) :
    Ensures P I (loop f b as) := by
  induction as generalizing b with
  | nil => exact ensures_pure hb
  | cons a as ih =>
      exact (hf a List.mem_cons_self b hb).bind fun b' hb' =>
        ih (fun a' ha' => hf a' (List.mem_cons_of_mem a ha')) hb'

end Ensures

/-! ### Stops of one kind -/

/-- Every early stop of the run satisfies `Q`. -/
def Stops (Q : σ → Prop) (m : Run ε σ α) : Prop :=
  ∀ s, m.outcome = .error s → Q s

variable {Q : σ → Prop}

theorem stops_mk_ok (tr : List ε) (a : α) :
    Stops Q (⟨tr, .ok a⟩ : Run ε σ α) := by
  intro s h
  cases h

theorem stops_pure (a : α) : Stops Q (pure a : Run ε σ α) :=
  stops_mk_ok [] a

theorem stops_stop {s : σ} (h : Q s) : Stops Q (stop s : Run ε σ α) := by
  intro s' hs
  cases hs
  exact h

theorem Stops.bind {m : Run ε σ α} {f : α → Run ε σ β} (hm : Stops Q m)
    (hf : ∀ a, Stops Q (f a)) : Stops Q (m >>= f) := by
  intro s hs
  cases h : m.outcome with
  | error s' =>
      rw [bind_error h] at hs
      cases hs
      exact hm s h
  | ok a =>
      rw [outcome_bind_ok h] at hs
      exact hf a s hs

theorem Stops.loop {f : β → α → Run ε σ β} (hf : ∀ b a, Stops Q (f b a))
    (b : β) (as : List α) : Stops Q (loop f b as) := by
  induction as generalizing b with
  | nil => exact stops_pure b
  | cons a as ih => exact (hf b a).bind ih

/-! ### Logs -/

section Logs

variable {γ δ : Type u} {view : ε → Option γ}

/-- The actions `view` shows are `log`; a run that stops early has performed
the first of them. -/
structure Logs (view : ε → Option γ) (log : List γ) (m : Run ε σ α) :
    Prop where
  isPrefix : m.trace.filterMap view <+: log
  full : ∀ a, m.outcome = .ok a → m.trace.filterMap view = log

theorem logs_of_eq {log : List γ} {m : Run ε σ α}
    (h : m.trace.filterMap view = log) : Logs view log m :=
  ⟨h ▸ List.prefix_refl _, fun _ _ => h⟩

theorem logs_pure (a : α) : Logs view [] (pure a : Run ε σ α) :=
  logs_of_eq rfl

theorem logs_emit {e : ε} {c : γ} (h : view e = some c) :
    Logs view [c] (emit e : Run ε σ PUnit) :=
  logs_of_eq (by simp [h])

/-- A run that shows nothing. -/
theorem logs_of_emits {m : Run ε σ α} (h : Emits (view · = none) m) :
    Logs view [] m :=
  logs_of_eq (List.filterMap_eq_nil_iff.mpr h)

theorem Logs.bind {log log' : List γ} {m : Run ε σ α} {f : α → Run ε σ β}
    (hm : Logs view log m)
    (hf : ∀ a, m.outcome = .ok a → Logs view log' (f a)) :
    Logs view (log ++ log') (m >>= f) := by
  cases h : m.outcome with
  | error s =>
      rw [bind_error h]
      exact ⟨hm.isPrefix.trans (List.prefix_append _ _), nofun⟩
  | ok a =>
      have hlog := hm.full a h
      have htail := hf a h
      constructor
      · rw [trace_bind_ok h, List.filterMap_append, hlog]
        exact (List.prefix_append_right_inj _).mpr htail.isPrefix
      · intro b hb
        rw [outcome_bind_ok h] at hb
        rw [trace_bind_ok h, List.filterMap_append, hlog, htail.full b hb]

/-- What is logged while going through a list, when each element logs and
leaves what the state at it says. -/
def logFrom (next : δ → α → δ) (log : δ → α → List γ) :
    δ → List α → List γ
  | _, [] => []
  | d, a :: as => log d a ++ logFrom next log (next d a) as

theorem logFrom_concat (next : δ → α → δ) (log : δ → α → List γ) (d : δ)
    (as : List α) (a : α) :
    logFrom next log d (as ++ [a]) =
      logFrom next log d as ++ log (as.foldl next d) a := by
  induction as generalizing d with
  | nil => simp [logFrom]
  | cons b as ih => simp [logFrom, ih]

theorem logFrom_map {κ : Type u} (next : δ → α → δ) (log : δ → α → List γ)
    (g : κ → α) (d : δ) (ks : List κ) :
    logFrom next log d (ks.map g) =
      logFrom (fun d k => next d (g k)) (fun d k => log d (g k)) d ks := by
  induction ks generalizing d with
  | nil => rfl
  | cons k ks ih => simp [logFrom, ih]

theorem Logs.loop {f : β → α → Run ε σ β} {p : β → δ}
    {next : δ → α → δ} {log : δ → α → List γ}
    (hlog : ∀ b a, Logs view (log (p b) a) (f b a))
    (hnext : ∀ b a b', (f b a).outcome = .ok b' →
      p b' = next (p b) a) (b : β) (as : List α) :
    Logs view (logFrom next log (p b) as) (Run.loop f b as) := by
  induction as generalizing b with
  | nil => exact logs_pure b
  | cons a as ih =>
      apply (hlog b a).bind
      intro b' hb'
      rw [← hnext b a b' hb']
      exact ih b'

end Logs

/-! ### Refinement -/

section Refines

variable {ε' α' β' : Type u} {view : ε → Option ε'}

/-- The run `m` performs, among others, the actions of `m'`, and ends as `m'`
does, with related values. -/
structure Refines (view : ε → Option ε') (R : α → α' → Prop)
    (m : Run ε σ α) (m' : Run ε' σ α') : Prop where
  trace : m.trace.filterMap view = m'.trace
  ok : ∀ a, m.outcome = .ok a → ∃ a', m'.outcome = .ok a' ∧ R a a'
  error : ∀ s, m.outcome = .error s → m'.outcome = .error s

theorem refines_pure {R : α → α' → Prop} {a : α} {a' : α'} (h : R a a') :
    Refines view R (pure a : Run ε σ α) (pure a' : Run ε' σ α') where
  trace := rfl
  ok b hb := by
    cases hb
    exact ⟨a', rfl, h⟩
  error := nofun

theorem refines_stop {R : α → α' → Prop} (s : σ) :
    Refines view R (stop s : Run ε σ α) (stop s : Run ε' σ α') where
  trace := rfl
  ok _ h := by cases h
  error _ h := by
    cases h
    rfl

/-- An action that the other run does not perform. -/
theorem Refines.hidden {R : α → α' → Prop} {e : ε} (h : view e = none)
    {f : PUnit → Run ε σ α} {m' : Run ε' σ α'}
    (hf : Refines view R (f ⟨⟩) m') :
    Refines view R (emit e >>= f) m' where
  trace := by
    rw [trace_bind_ok (outcome_emit e), trace_emit, List.filterMap_append,
      hf.trace]
    simp [h]
  ok a ha := hf.ok a ha
  error s hs := hf.error s hs

theorem Refines.mono {R S : α → α' → Prop} {m : Run ε σ α}
    {m' : Run ε' σ α'} (h : Refines view R m m')
    (hRS : ∀ a a', R a a' → S a a') : Refines view S m m' where
  trace := h.trace
  ok a ha := by
    obtain ⟨a', ha', hR⟩ := h.ok a ha
    exact ⟨a', ha', hRS a a' hR⟩
  error := h.error

theorem Refines.bind {R : α → α' → Prop} {S : β → β' → Prop}
    {m : Run ε σ α} {m' : Run ε' σ α'} {f : α → Run ε σ β}
    {f' : α' → Run ε' σ β'} (hm : Refines view R m m')
    (hf : ∀ a a', R a a' → Refines view S (f a) (f' a')) :
    Refines view S (m >>= f) (m' >>= f') := by
  cases h : m.outcome with
  | error s =>
      rw [bind_error h, bind_error (hm.error s h)]
      constructor
      · exact hm.trace
      · exact nofun
      · intro _ hs
        cases hs
        rfl
  | ok a =>
      obtain ⟨a', ha', hR⟩ := hm.ok a h
      have htail := hf a a' hR
      constructor
      · rw [trace_bind_ok h, trace_bind_ok ha', List.filterMap_append,
          hm.trace, htail.trace]
      · intro b hb
        rw [outcome_bind_ok h] at hb
        rw [outcome_bind_ok ha']
        exact htail.ok b hb
      · intro s hs
        rw [outcome_bind_ok h] at hs
        rw [outcome_bind_ok ha']
        exact htail.error s hs

/-- Loops over one list refine each other when their steps do; the relation may
depend on the elements done. -/
theorem Refines.loop {R : List α → β → β' → Prop} {f : β → α → Run ε σ β}
    {f' : β' → α → Run ε' σ β'} {as : List α}
    (hstep : ∀ done a rest b b', as = done ++ a :: rest → R done b b' →
      Refines view (R (done ++ [a])) (f b a) (f' b' a))
    {b : β} {b' : β'} (hstart : R [] b b') :
    Refines view (R as) (Run.loop f b as) (Run.loop f' b' as) := by
  suffices hrest : ∀ rest done b b', as = done ++ rest → R done b b' →
      Refines view (R as) (Run.loop f b rest) (Run.loop f' b' rest) from
    hrest as [] b b' rfl hstart
  intro rest
  induction rest with
  | nil =>
      intro done b b' has hb
      rw [List.append_nil] at has
      exact refines_pure (has ▸ hb)
  | cons a rest ih =>
      intro done b b' has hb
      apply (hstep done a rest b b' has hb).bind
      intro c c' hc
      exact ih (done ++ [a]) c c' (by simp [has]) hc

/-- The run `m` performs, among others, the first of the actions of `m'`; when
it returns, `m'` does so, too, and all of them have been performed. -/
structure Follows (view : ε → Option ε') (m : Run ε σ α) (m' : Run ε' σ α') :
    Prop where
  isPrefix : m.trace.filterMap view <+: m'.trace
  full : ∀ a, m.outcome = .ok a →
    Succeeds m' ∧ m.trace.filterMap view = m'.trace

/-- A run that performs none of them, before or without the other. -/
theorem follows_of_emits {m : Run ε σ α} (h : Emits (view · = none) m)
    {m' : Run ε' σ α'} {a' : α'} (hm' : m' = pure a') : Follows view m m' := by
  have hnil : m.trace.filterMap view = [] := List.filterMap_eq_nil_iff.2 h
  subst hm'
  exact ⟨hnil ▸ List.prefix_rfl, fun _ _ => ⟨⟨a', rfl⟩, hnil⟩⟩

theorem Follows.bind {m : Run ε σ α} {m' : Run ε' σ α'} {f : α → Run ε σ β}
    {f' : α' → Run ε' σ β'} (hm : Follows view m m')
    (hf : ∀ a a', m.outcome = .ok a → m'.outcome = .ok a' →
      Follows view (f a) (f' a')) : Follows view (m >>= f) (m' >>= f') := by
  rcases hok : m.outcome with s | a
  · rw [bind_error hok]
    refine ⟨hm.isPrefix.trans ?_, fun _ h => nomatch h⟩
    rcases hok' : m'.outcome with s' | a'
    · simp only [bind_error hok', List.prefix_rfl]
    · rw [trace_bind_ok hok']
      exact List.prefix_append _ _
  · obtain ⟨⟨a', hok'⟩, htrace⟩ := hm.full a hok
    have hrest := hf a a' hok hok'
    constructor
    · rw [trace_bind_ok hok, trace_bind_ok hok', List.filterMap_append,
        htrace]
      exact (List.prefix_append_right_inj _).2 hrest.isPrefix
    · intro b hb
      rw [outcome_bind_ok hok] at hb
      obtain ⟨⟨b', hb'⟩, heq⟩ := hrest.full b hb
      refine ⟨⟨b', (outcome_bind_ok hok' f').trans hb'⟩, ?_⟩
      rw [trace_bind_ok hok, trace_bind_ok hok', List.filterMap_append,
        htrace, heq]

/-- What comes behind a run performs nothing that is viewed. -/
theorem viewed_bind {m : Run ε σ α} {f : α → Run ε σ β}
    (hf : ∀ a, Emits (view · = none) (f a)) :
    (m >>= f).trace.filterMap view = m.trace.filterMap view := by
  rcases hok : m.outcome with s | a
  · rw [bind_error hok]
  · rw [trace_bind_ok hok, List.filterMap_append,
      List.filterMap_eq_nil_iff.2 (hf a), List.append_nil]

/-- The run with its actions renamed. -/
def mapTrace (f : ε' → ε) (m : Run ε' σ α) : Run ε σ α :=
  ⟨m.trace.map f, m.outcome⟩

theorem refines_mapTrace {f : ε' → ε} (h : ∀ e, view (f e) = some e)
    (m : Run ε' σ α) : Refines view Eq (mapTrace f m) m where
  trace := by
    have hview : view ∘ f = some := funext h
    rw [mapTrace, List.filterMap_map, hview, List.filterMap_some]
  ok a ha := ⟨a, ha, rfl⟩
  error _ hs := hs

theorem Refines.succeeds_iff {R : α → α' → Prop} {m : Run ε σ α}
    {m' : Run ε' σ α'} (h : Refines view R m m') :
    m.Succeeds ↔ m'.Succeeds := by
  constructor
  · rintro ⟨a, ha⟩
    obtain ⟨a', ha', _⟩ := h.ok a ha
    exact ⟨a', ha'⟩
  · rintro ⟨a', ha'⟩
    cases hm : m.outcome with
    | ok a => exact ⟨a, hm⟩
    | error s => cases (h.error s hm).symm.trans ha'

theorem Refines.follows {R : α → α' → Prop} {m : Run ε σ α}
    {m' : Run ε' σ α'} (h : Refines view R m m') : Follows view m m' where
  isPrefix := h.trace ▸ List.prefix_rfl
  full a ha := by
    obtain ⟨a', ha', _⟩ := h.ok a ha
    exact ⟨⟨a', ha'⟩, h.trace⟩

end Refines

end Run

/-! ### Partial steps -/

namespace Steps

variable {σ α : Type*} {step : σ → α → Option σ}

/-- The steps one after the other, as long as they are possible. -/
def run (step : σ → α → Option σ) : σ → List α → Option σ
  | s, [] => some s
  | s, a :: as => (step s a).bind (run step · as)

theorem run_cons_eq_some {s s' : σ} {a : α} {as : List α} :
    run step s (a :: as) = some s' ↔
      ∃ u, step s a = some u ∧ run step u as = some s' :=
  Option.bind_eq_some_iff

theorem run_append (s : σ) (as bs : List α) :
    run step s (as ++ bs) = (run step s as).bind (run step · bs) := by
  induction as generalizing s with
  | nil => rfl
  | cons a as ih =>
      cases hstep : step s a <;> simp [run, hstep, ih]

/-- What every step preserves, the whole run preserves.  The step comes with
the steps around it, so that it may rely on where it is taken. -/
theorem run_induction {P : σ → Prop} {s s' : σ} {as : List α}
    (h : run step s as = some s') (hstart : P s)
    (hstep : ∀ done a rest u u', as = done ++ a :: rest →
      run step s done = some u → step u a = some u' → P u → P u') : P s' := by
  induction as using List.reverseRecOn generalizing s' with
  | nil =>
      cases h
      exact hstart
  | append_singleton as a ih =>
      rw [run_append] at h
      obtain ⟨u, hu, hlast⟩ := Option.bind_eq_some_iff.mp h
      obtain ⟨u', hu', hend⟩ := run_cons_eq_some.mp hlast
      cases hend
      refine hstep as a [] u _ rfl hu hu' (ih hu ?_)
      intro done b rest v v' has
      exact hstep done b (rest ++ [a]) v v' (by simp [has])

/-- Two runs whose steps are taken, or refused, together. -/
theorem run_rel {σ' : Type*} {step' : σ' → α → Option σ'} {R : σ → σ' → Prop}
    (hstep : ∀ s s' a, R s s' → Option.Rel R (step s a) (step' s' a)) {s : σ}
    {s' : σ'} (h : R s s') (as : List α) :
    Option.Rel R (run step s as) (run step' s' as) := by
  induction as generalizing s s' with
  | nil => exact .some h
  | cons a as ih =>
      rw [run, run]
      have hrel := hstep s s' a h
      generalize step s a = u at hrel ⊢
      generalize step' s' a = u' at hrel ⊢
      cases hrel with
      | none => exact .none
      | some hu => exact ih hu

/-- The step can be taken for the elements that are `ok`; it keeps the
invariant, and adds to what a state holds what `adds` says. -/
structure Adds {κ : Type*} (step : σ → α → Option σ) (Inv : σ → Prop)
    (Holds : σ → κ → Prop) (ok : α → Prop) (adds : α → κ → Prop) : Prop where
  taken : ∀ s a, Inv s → ok a → ∃ s', step s a = some s' ∧ Inv s' ∧
    ∀ k, Holds s' k ↔ Holds s k ∨ adds a k
  refused : ∀ s a, Inv s → ¬ ok a → step s a = none

/-- The steps one after the other add what each of them adds. -/
theorem Adds.run {κ : Type*} {Inv : σ → Prop} {Holds : σ → κ → Prop}
    {ok : α → Prop} {adds : α → κ → Prop} (h : Adds step Inv Holds ok adds) :
    Adds (run step) Inv Holds (fun as => ∀ a ∈ as, ok a)
      (fun as k => ∃ a ∈ as, adds a k) := by
  constructor
  · intro s as hs hok
    induction as generalizing s with
    | nil => exact ⟨s, rfl, hs, by simp⟩
    | cons a as ih =>
        rw [List.forall_mem_cons] at hok
        obtain ⟨u, hu, hinv, hheld⟩ := h.taken s a hs hok.1
        obtain ⟨s', hs', hinv', hheld'⟩ := ih u hinv hok.2
        refine ⟨s', run_cons_eq_some.mpr ⟨u, hu, hs'⟩, hinv', fun k => ?_⟩
        simp only [hheld', hheld, List.mem_cons, exists_eq_or_imp, or_assoc]
  · intro s as hs hok
    induction as generalizing s with
    | nil => exact absurd (List.forall_mem_nil _) hok
    | cons a as ih =>
        rw [Steps.run]
        by_cases ha : ok a
        · obtain ⟨u, hu, hinv, _⟩ := h.taken s a hs ha
          rw [hu, Option.bind_some]
          exact ih u hinv fun has => hok (List.forall_mem_cons.mpr ⟨ha, has⟩)
        · rw [h.refused s a hs ha, Option.bind_none]

/-- An outer step that goes through a list of its own. -/
theorem Adds.nested {β κ : Type*} {inner : β → σ → α → Option σ}
    {Inv : σ → Prop} {Holds : σ → κ → Prop} {ok : β → α → Prop}
    {adds : β → α → κ → Prop} (list : β → List α)
    (h : ∀ b, Adds (inner b) Inv Holds (ok b) (adds b)) :
    Adds (fun s b => Steps.run (inner b) s (list b)) Inv Holds
      (fun b => ∀ a ∈ list b, ok b a)
      (fun b k => ∃ a ∈ list b, adds b a k) where
  taken s b hs hok := (h b).run.taken s (list b) hs hok
  refused s b hs hok := (h b).run.refused s (list b) hs hok

end Steps

/-! ### Windows -/

/-- How an action bears on the windows of a trace. -/
inductive WindowMark where
  | opens | closes | inside | free
deriving Repr, DecidableEq

namespace WindowMark

/-- One action of a trace of windows; `true` is inside a window.  Nested
openings, and actions meant for the inside of a window outside one, fail. -/
def step : Bool → WindowMark → Option Bool
  | false, .opens => some true
  | true, .closes => some false
  | true, .inside => some true
  | b, .free => some b
  | _, _ => none

def run (b : Bool) (ks : List WindowMark) : Option Bool := Steps.run step b ks

@[simp] theorem run_nil (b : Bool) : run b [] = some b := rfl

@[simp] theorem run_cons (b : Bool) (k : WindowMark) (ks : List WindowMark) :
    run b (k :: ks) = (step b k).bind (run · ks) := rfl

theorem run_append (b : Bool) (ks ls : List WindowMark) :
    run b (ks ++ ls) = (run b ks).bind (run · ls) :=
  Steps.run_append b ks ls

/-- Free actions change nothing. -/
theorem run_free (b : Bool) {ks : List WindowMark} (h : ∀ k ∈ ks, k = .free) :
    run b ks = some b := by
  induction ks with
  | nil => rfl
  | cons k ks ih =>
      have hk := h k List.mem_cons_self
      have htail := ih fun l hl => h l (List.mem_cons_of_mem k hl)
      cases b <;> simp [hk, step, htail]

/-- Free and inside actions keep a window open. -/
theorem run_inside {ks : List WindowMark}
    (h : ∀ k ∈ ks, k = .free ∨ k = .inside) : run true ks = some true := by
  induction ks with
  | nil => rfl
  | cons k ks ih =>
      have htail := ih fun l hl => h l (List.mem_cons_of_mem k hl)
      rcases h k List.mem_cons_self with rfl | rfl <;>
        simp [step, htail]

variable {ε σ α β : Type u} (mark : ε → WindowMark)

/-- Where a run that starts outside of a window ends: inside one, outside, or
nowhere, when its actions are not a sequence of windows. -/
def after (m : Run ε σ α) : Option Bool := run false (m.trace.map mark)

theorem after_bind_ok {m : Run ε σ α} {a : α} (h : m.outcome = .ok a)
    (hm : after mark m = some false) (f : α → Run ε σ β) :
    after mark (m >>= f) = after mark (f a) := by
  rw [after] at hm
  rw [after, Run.trace_bind_ok h, List.map_append, run_append, hm]
  rfl

theorem after_bind_error {m : Run ε σ α} {s : σ} (h : m.outcome = .error s)
    (f : α → Run ε σ β) : after mark (m >>= f) = after mark m := by
  rw [Run.bind_error h]
  rfl

theorem after_free {m : Run ε σ α}
    (h : Run.Emits (fun e => mark e = .free) m) :
    after mark m = some false := by
  apply run_free
  simpa [Run.Emits] using h

/-- The actions of a run that may stand inside a window. -/
def Fits (m : Run ε σ α) : Prop :=
  Run.Emits (fun e => mark e = .free ∨ mark e = .inside) m

/-- Open, run, close; a run that stops does not get to the closing. -/
def window (opening closing : ε) (m : Run ε σ α) : Run ε σ α := do
  Run.emit opening
  let a ← m
  Run.emit closing
  pure a

section Window

variable {mark} {opening closing : ε} (hopen : mark opening = .opens)
  (hclose : mark closing = .closes) {m : Run ε σ α} (hm : Fits mark m)
include hopen hm

theorem window_error {s : σ} (h : m.outcome = .error s) :
    (window opening closing m).outcome = .error s ∧
      after mark (window opening closing m) = some true := by
  have hinside : run true (m.trace.map mark) = some true :=
    run_inside (by simpa [Fits, Run.Emits] using hm)
  have hwindow : window opening closing m =
      ⟨opening :: m.trace, .error s⟩ := by
    rw [window, Run.bind_error h]
    rfl
  rw [hwindow]
  exact ⟨rfl, by simp [after, hopen, step, hinside]⟩

include hclose in
theorem window_ok {a : α} (h : m.outcome = .ok a) :
    (window opening closing m).outcome = .ok a ∧
      after mark (window opening closing m) = some false := by
  have hinside : run true (m.trace.map mark) = some true :=
    run_inside (by simpa [Fits, Run.Emits] using hm)
  have hwindow : window opening closing m =
      ⟨opening :: (m.trace ++ [closing]), .ok a⟩ := by
    obtain ⟨trace, outcome⟩ := m
    cases h
    rfl
  rw [hwindow]
  refine ⟨rfl, ?_⟩
  simp [after, hopen, hclose, step, run_append, hinside]

include hclose in
/-- A window is closed exactly when what it holds returns. -/
theorem window_cases :
    (∃ a, m.outcome = .ok a ∧ (window opening closing m).outcome = .ok a ∧
        after mark (window opening closing m) = some false) ∨
      ∃ s, m.outcome = .error s ∧
        (window opening closing m).outcome = .error s ∧
        after mark (window opening closing m) = some true := by
  cases h : m.outcome with
  | ok a => exact Or.inl ⟨a, rfl, window_ok hopen hclose hm h⟩
  | error s => exact Or.inr ⟨s, rfl, window_error hopen hm h⟩

end Window

end WindowMark
