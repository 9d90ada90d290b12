import Chericat.ProgramRun

/-!
Runs whose actions open and close things.  What is closed has to be the thing
opened last; a run that returns has closed what it opened, and one that stops
early has closed nothing else.
-/

universe u

/-- What an action does to the things that are open. -/
inductive BracketMark (κ : Type u) where
  | opens (k : κ)
  | closes (k : κ)
  | plain

namespace BracketMark

variable {κ : Type u} [DecidableEq κ]

/-- The things open afterwards, the last one first; `none` when the thing to be
closed is not the one opened last. -/
def act : BracketMark κ → List κ → Option (List κ)
  | .opens k, stack => some (k :: stack)
  | .closes _, [] => none
  | .closes k, k' :: stack => if k = k' then some stack else none
  | .plain, stack => some stack

/-- The things open after a sequence of actions. -/
def nest {ε : Type u} (kind : ε → BracketMark κ) (stack : List κ) (es : List ε) :
    Option (List κ) :=
  Steps.run (fun stack e => (kind e).act stack) stack es

variable {ε : Type u} {kind : ε → BracketMark κ}

theorem nest_cons (e : ε) (es : List ε) (stack : List κ) :
    nest kind stack (e :: es) = ((kind e).act stack).bind (nest kind · es) :=
  rfl

theorem nest_append (es more : List ε) (stack : List κ) :
    nest kind stack (es ++ more) =
      (nest kind stack es).bind (nest kind · more) :=
  Steps.run_append stack es more

theorem nest_plain {es : List ε} (h : ∀ e ∈ es, kind e = .plain)
    (stack : List κ) : nest kind stack es = some stack := by
  induction es with
  | nil => rfl
  | cons e es ih =>
      rw [List.forall_mem_cons] at h
      rw [nest_cons, h.1]
      exact ih h.2

end BracketMark

namespace Run

open BracketMark

variable {κ ε σ α β : Type u} [DecidableEq κ] {kind : ε → BracketMark κ}

/-- From any things that are open, the run only closes what it has opened, and
all of it when it returns. -/
structure Nests (kind : ε → BracketMark κ) (m : Run ε σ α) : Prop where
  safe : ∀ stack, (nest kind stack m.trace).isSome
  settled : ∀ a, m.outcome = .ok a →
    ∀ stack, nest kind stack m.trace = some stack

/-- A run whose actions open and close nothing. -/
theorem nests_of_emits {m : Run ε σ α}
    (h : Emits (fun e => kind e = .plain) m) : Nests kind m :=
  ⟨fun stack => by rw [nest_plain h]; rfl, fun _ _ => nest_plain h⟩

theorem nests_pure (a : α) : Nests kind (pure a : Run ε σ α) :=
  nests_of_emits (emits_pure a)

theorem nests_stop (s : σ) : Nests kind (stop s : Run ε σ α) :=
  nests_of_emits (emits_stop s)

theorem Nests.bind {m : Run ε σ α} {f : α → Run ε σ β} (hm : Nests kind m)
    (hf : ∀ a, Nests kind (f a)) : Nests kind (m >>= f) := by
  rcases hok : m.outcome with s | a
  · rw [bind_error hok]
    exact ⟨hm.safe, fun _ h => nomatch h⟩
  · have htrace : ∀ stack, nest kind stack (m >>= f).trace =
        nest kind stack (f a).trace := by
      intro stack
      rw [trace_bind_ok hok, nest_append, hm.settled a hok]
      rfl
    refine ⟨fun stack => by rw [htrace]; exact (hf a).safe stack, ?_⟩
    intro b hb stack
    rw [outcome_bind_ok hok] at hb
    rw [htrace, (hf a).settled b hb]

/-- What a window holds may leave things open where it stops, and nothing where
the window is closed. -/
theorem Nests.window {m : Run ε σ α} {k : κ} {opening closing : ε}
    (hopen : kind opening = .opens k) (hclose : kind closing = .closes k)
    (h : Nests kind m) : Nests kind (WindowMark.window opening closing m) := by
  rcases hok : m.outcome with s | a
  · have hwindow : WindowMark.window opening closing m =
        ⟨opening :: m.trace, .error s⟩ := by
      rw [WindowMark.window, bind_error hok]
      rfl
    rw [hwindow]
    refine ⟨fun stack => ?_, fun _ h => by cases h⟩
    rw [nest_cons, hopen]
    exact h.safe (k :: stack)
  · have hwindow : WindowMark.window opening closing m =
        ⟨opening :: (m.trace ++ [closing]), .ok a⟩ := by
      obtain ⟨trace, outcome⟩ := m
      cases hok
      rfl
    have hnest : ∀ stack,
        nest kind stack (opening :: (m.trace ++ [closing])) =
          some stack := by
      intro stack
      rw [nest_cons, hopen]
      change nest kind (k :: stack) (m.trace ++ [closing]) = some stack
      rw [nest_append, h.settled a hok, Option.bind_some, nest_cons, hclose,
        act, if_pos rfl]
      rfl
    rw [hwindow]
    exact ⟨fun stack => by rw [hnest]; rfl, fun _ _ stack => hnest stack⟩

end Run
