import Chericat.FetchRuns
import Chericat.NumeralText

/-!
Integers from texts: `convert_str_to_int`, and the pid `main` takes from its
options.  Both look only at the end pointer of `strtol`.
-/

namespace Chericat

open Numeral

/-! ### The options of `main` -/

/-- What `getopt_long` returns, with its argument. -/
inductive Opt where
  | debug
  | db (arg : Text)
  | attach (arg : Text)
  | overview
  | capsInfo (arg : Text)
  | other
deriving Repr, DecidableEq

/-- The variables the options set. -/
structure MainState where
  pid : BitVec 64
  attach : Bool
  overview : Bool
  capsInfo : Option Text
deriving Repr, DecidableEq

def MainState.start : MainState := ⟨-1, false, false, none⟩

/-- The functions of the program that `main` calls. -/
inductive Call where
  | scanMem (pid : CInt)
  | vmCapsView
  | compCapsView
  | capsSymsView (lib : Text)
deriving Repr, DecidableEq

/-- What `main` depends on: whether the database can be opened, and how
`scan_mem` ends. -/
structure MainEnv where
  opens : Bool
  scanMem : CInt → Except Stop PUnit

abbrev Main := Run Call Stop

def exitUsage {α : Type} : Main α := Run.stop .exit

/-- `arg[0] == '-'`. -/
def startsWithDash (arg : Text) : Bool := arg.head? = some '-'

/-- One turn of the option loop. -/
def optStep (s : MainState) : Opt → Main MainState
  | .debug => pure s
  | .db arg => if startsWithDash arg then exitUsage else pure s
  | .attach arg =>
      if (strtol 10 arg).2 ≠ [] then Run.stop .errx
      else pure
        { s with pid := BitVec.ofInt 64 (strtol 10 arg).1, attach := true }
  | .overview => pure { s with overview := true }
  | .capsInfo arg =>
      if startsWithDash arg then exitUsage
      else pure { s with capsInfo := some arg }
  | .other => exitUsage

/-- The words behind the options are `show lib` or `show comp`. -/
def showsView (args : List Text) : Bool :=
  args[0]? = some "show".toList &&
    (args[1]? = some "lib".toList || args[1]? = some "comp".toList)

/-- Both kinds of views need a command. -/
def MainState.commandOk (s : MainState) (args : List Text) : Bool :=
  !(s.overview || s.capsInfo.isSome) || showsView args

def openDb (env : MainEnv) : Main PUnit :=
  if env.opens then pure ⟨⟩ else Run.stop .exit

def checkCommand (s : MainState) (args : List Text) : Main PUnit :=
  if s.commandOk args then pure ⟨⟩ else exitUsage

/-- `scan_mem(db, pid)`: the `long` becomes an `int`. -/
def attachPid (env : MainEnv) (s : MainState) : Main PUnit :=
  if s.attach then do
    openDb env
    Run.emit (.scanMem (s.pid.setWidth 32))
    ⟨[], env.scanMem (s.pid.setWidth 32)⟩
  else pure ⟨⟩

def showOverview (env : MainEnv) (s : MainState) (args : List Text) :
    Main PUnit :=
  if s.overview then do
    openDb env
    Run.emit (if args[1]? = some "lib".toList then .vmCapsView
      else .compCapsView)
  else pure ⟨⟩

/-- There is no view of the capabilities of a compartment. -/
def showCapsInfo (env : MainEnv) (s : MainState) (args : List Text) :
    Main PUnit :=
  match s.capsInfo with
  | none => pure ⟨⟩
  | some lib => do
      openDb env
      if args[1]? = some "lib".toList then Run.emit (.capsSymsView lib)
      else pure ⟨⟩

/-- `main`, from its options on. -/
def chericatMain (env : MainEnv) (opts : List Opt) (args : List Text) :
    Main PUnit :=
  if opts = [] then exitUsage
  else do
    let s ← Run.loop optStep .start opts
    checkCommand s args
    attachPid env s
    showOverview env s args
    showCapsInfo env s args

/-! ### What the options come to -/

def Opt.Acceptable : Opt → Prop
  | .db arg => startsWithDash arg = false
  | .attach arg => (strtol 10 arg).2 = []
  | .capsInfo arg => startsWithDash arg = false
  | .other => False
  | _ => True

def MainState.next (s : MainState) : Opt → MainState
  | .attach arg =>
      { s with pid := BitVec.ofInt 64 (strtol 10 arg).1, attach := true }
  | .overview => { s with overview := true }
  | .capsInfo arg => { s with capsInfo := some arg }
  | _ => s

/-- The variables when all options are accepted. -/
def finalState (opts : List Opt) : MainState :=
  opts.foldl MainState.next .start

theorem optStep_acceptable {o : Opt} (h : o.Acceptable) (s : MainState) :
    optStep s o = pure (s.next o) := by
  cases o with
  | db arg => exact if_neg (Bool.eq_false_iff.1 h)
  | attach arg => exact if_neg (not_not_intro h)
  | capsInfo arg => exact if_neg (Bool.eq_false_iff.1 h)
  | other => exact h.elim
  | debug => rfl
  | overview => rfl

theorem optStep_refused {o : Opt} (h : ¬ o.Acceptable) (s : MainState) :
    ∃ e, optStep s o = Run.stop e := by
  cases o with
  | db arg => exact ⟨_, if_pos (Bool.not_eq_false _ ▸ h)⟩
  | attach arg => exact ⟨_, if_pos h⟩
  | capsInfo arg => exact ⟨_, if_pos (Bool.not_eq_false _ ▸ h)⟩
  | other => exact ⟨_, rfl⟩
  | debug => exact absurd trivial h
  | overview => exact absurd trivial h

theorem loop_optStep {opts : List Opt} (h : ∀ o ∈ opts, o.Acceptable)
    (s : MainState) :
    Run.loop optStep s opts = pure (opts.foldl MainState.next s) := by
  induction opts generalizing s with
  | nil => rfl
  | cons o opts ih =>
      rw [List.forall_mem_cons] at h
      rw [Run.loop_cons, optStep_acceptable h.1, pure_bind, ih h.2]
      rfl

theorem loop_optStep_refused {opts : List Opt}
    (h : ¬ ∀ o ∈ opts, o.Acceptable) (s : MainState) :
    ∃ e, Run.loop optStep s opts = Run.stop e := by
  induction opts generalizing s with
  | nil => exact absurd (List.forall_mem_nil _) h
  | cons o opts ih =>
      rw [List.forall_mem_cons, not_and] at h
      by_cases ho : o.Acceptable
      · rw [Run.loop_cons, optStep_acceptable ho, pure_bind]
        exact ih (h ho) _
      · obtain ⟨e, he⟩ := optStep_refused ho s
        exact ⟨e, by rw [Run.loop_cons, he, Run.stop_bind]⟩

/-- Nothing stops `main` before its call of `scan_mem`. -/
structure ScanReached (env : MainEnv) (opts : List Opt) (args : List Text) :
    Prop where
  given : opts ≠ []
  accepted : ∀ o ∈ opts, o.Acceptable
  command : (finalState opts).commandOk args = true
  attach : (finalState opts).attach = true
  opens : env.opens = true

/-- Neither view calls `scan_mem`. -/
theorem not_mem_trace_show (env : MainEnv) (s : MainState) (args : List Text)
    (pid : CInt) : .scanMem pid ∉ (showOverview env s args).trace ∧
      .scanMem pid ∉ (showCapsInfo env s args).trace := by
  have hopen : (openDb env).trace = [] := by
    rw [openDb]
    split <;> rfl
  constructor
  · rw [showOverview]
    split
    · rw [Run.mem_trace_bind, hopen]
      rintro (h | ⟨_, _, h⟩)
      · cases h
      · rw [Run.trace_emit, List.mem_singleton] at h
        split at h <;> cases h
    · exact nofun
  · rw [showCapsInfo]
    split
    · exact nofun
    · rw [Run.mem_trace_bind, hopen]
      rintro (h | ⟨_, _, h⟩)
      · cases h
      · split at h
        · cases List.mem_singleton.1 h
        · cases h

theorem mem_trace_attachPid {env : MainEnv} {s : MainState} {pid : CInt} :
    .scanMem pid ∈ (attachPid env s).trace ↔
      (s.attach = true ∧ env.opens = true) ∧ pid = s.pid.setWidth 32 := by
  rw [attachPid, openDb]
  cases s.attach <;> cases env.opens <;> simp [Run.mem_trace_bind]

theorem mem_trace_main {env : MainEnv} {opts : List Opt} {args : List Text}
    {pid : CInt} : .scanMem pid ∈ (chericatMain env opts args).trace ↔
      ScanReached env opts args ∧ pid = (finalState opts).pid.setWidth 32 := by
  rw [chericatMain]
  by_cases hgiven : opts = []
  · rw [if_pos hgiven]
    exact iff_of_false nofun fun h => h.1.given hgiven
  · rw [if_neg hgiven]
    by_cases haccepted : ∀ o ∈ opts, o.Acceptable
    · rw [loop_optStep haccepted, pure_bind, ← finalState, checkCommand]
      by_cases hcommand : (finalState opts).commandOk args = true
      · have hshow := not_mem_trace_show env (finalState opts) args pid
        rw [if_pos hcommand, pure_bind, Run.mem_trace_bind, or_iff_left,
          mem_trace_attachPid]
        · constructor
          · rintro ⟨⟨hattach, hopens⟩, hpid⟩
            exact ⟨⟨hgiven, haccepted, hcommand, hattach, hopens⟩, hpid⟩
          · rintro ⟨hreached, hpid⟩
            exact ⟨⟨hreached.attach, hreached.opens⟩, hpid⟩
        · rintro ⟨_, _, h⟩
          rw [Run.mem_trace_bind] at h
          rcases h with h | ⟨_, _, h⟩
          · exact hshow.1 h
          · exact hshow.2 h
      · rw [if_neg hcommand, exitUsage, Run.stop_bind]
        exact iff_of_false nofun fun h => hcommand h.1.command
    · obtain ⟨e, he⟩ := loop_optStep_refused haccepted .start
      rw [he, Run.stop_bind]
      exact iff_of_false nofun fun h => haccepted h.1.accepted

/-- The argument of the last `-p`. -/
def lastAttach (opts : List Opt) : Option Text :=
  (opts.filterMap fun
    | .attach arg => some arg
    | _ => none).getLast?

theorem lastAttach_concat (opts : List Opt) (o : Opt) :
    lastAttach (opts ++ [o]) =
      match o with
      | .attach arg => some arg
      | _ => lastAttach opts := by
  cases o <;> simp [lastAttach, List.filterMap_append]

/-- The last `-p` decides. -/
theorem finalState_attach (opts : List Opt) :
    (finalState opts).attach = (lastAttach opts).isSome ∧
      ∀ arg, lastAttach opts = some arg →
        (finalState opts).pid = BitVec.ofInt 64 (strtol 10 arg).1 := by
  induction opts using List.reverseRecOn with
  | nil => exact ⟨rfl, nofun⟩
  | append_singleton opts o ih =>
      rw [finalState, List.foldl_append, ← finalState, lastAttach_concat]
      cases o with
      | attach arg =>
          refine ⟨rfl, fun arg' harg => ?_⟩
          cases harg
          rfl
      | _ => exact ih

theorem mem_of_lastAttach {opts : List Opt} {arg : Text}
    (h : lastAttach opts = some arg) : .attach arg ∈ opts := by
  obtain ⟨o, ho, harg⟩ := List.mem_filterMap.1 (List.mem_of_getLast? h)
  cases o with
  | attach arg' =>
      cases harg
      exact ho
  | _ => cases harg

/-! ### Texts that are taken for integers -/

/-- The text is not a numeral of a number that is no `int`. -/
def InIntRange (s : Text) : Prop := ∀ i, IsNumeral s i → IsInt i

/-- An `int` is returned exactly for its numerals, and everything else stops
the program. -/
structure ConvertsExactly (s : Text) : Prop where
  returned : ∀ v : CInt, (convertStrToInt (some s) : Fetch CInt).outcome =
    .ok v ↔ IsNumeral s v.toInt
  refused : (∀ v : CInt, ¬ IsNumeral s v.toInt) →
    (convertStrToInt (some s) : Fetch CInt) = Run.stop .errx

/-- `scan_mem` is called only when every `-p` came with the numeral of an `int`,
and with that of the last one. -/
def PidExact (env : MainEnv) (opts : List Opt) (args : List Text) : Prop :=
  ∀ pid, .scanMem pid ∈ (chericatMain env opts args).trace →
    (∀ arg, .attach arg ∈ opts → ∃ v : CInt, IsNumeral arg v.toInt) ∧
      ∃ arg, lastAttach opts = some arg ∧ IsNumeral arg pid.toInt

theorem isInt_toInt (v : CInt) : IsInt v.toInt :=
  ⟨BitVec.le_toInt v, BitVec.toInt_lt⟩

theorem asInt_toInt (v : CInt) : asInt v.toInt = v :=
  BitVec.eq_of_toInt_eq (toInt_asInt (isInt_toInt v))

/-- The conversion of a `long` to `int`. -/
theorem setWidth_ofInt (i : Int) :
    (BitVec.ofInt 64 i).setWidth 32 = BitVec.ofInt 32 i := by
  apply BitVec.eq_of_toNat_eq
  rw [BitVec.toNat_setWidth, BitVec.toNat_ofInt, BitVec.toNat_ofInt]
  omega

theorem convertStrToInt_numeral {s : Text} {i : Int} (h : IsNumeral s i) :
    (convertStrToInt (some s) : Fetch CInt) = pure (asInt i) := by
  simp only [convertStrToInt, h.strtol, if_true, asInt]

theorem convertStrToInt_other {s : Text} (hne : s ≠ [])
    (h : ∀ i, ¬ IsNumeral s i) :
    (convertStrToInt (some s) : Fetch CInt) = Run.stop .errx := by
  have hend : ¬ (strtol 10 s).2 = [] := by
    rw [strtol_end_iff, not_or, not_exists]
    exact ⟨hne, h⟩
  exact if_neg hend

theorem convertsExactly_iff (s : Text) :
    ConvertsExactly s ↔ s ≠ [] ∧ InIntRange s := by
  constructor
  · intro h
    constructor
    · rintro rfl
      exact not_isNumeral_nil _ ((h.returned 0).1 rfl)
    · intro i hi
      have hreturned := (h.returned (asInt i)).1 (by
        rw [convertStrToInt_numeral hi]
        rfl)
      rw [hi.unique hreturned]
      exact isInt_toInt _
  · rintro ⟨hne, hrange⟩
    by_cases hnumeral : ∃ i, IsNumeral s i
    · obtain ⟨i, hi⟩ := hnumeral
      have hint := toInt_asInt (hrange i hi)
      rw [← hint] at hi
      refine ⟨fun v => ?_, fun hnone => absurd hi (hnone _)⟩
      rw [convertStrToInt_numeral hi, asInt_toInt]
      constructor
      · intro hv
        cases hv
        exact hi
      · intro hv
        rw [BitVec.eq_of_toInt_eq (hi.unique hv)]
        rfl
    · rw [not_exists] at hnumeral
      have hstop := convertStrToInt_other hne hnumeral
      refine ⟨fun v => iff_of_false ?_ (hnumeral _), fun _ => hstop⟩
      rw [hstop]
      exact nofun

theorem pidExact_iff (env : MainEnv) (opts : List Opt) (args : List Text) :
    PidExact env opts args ↔ (ScanReached env opts args →
      ∀ arg, .attach arg ∈ opts → arg ≠ [] ∧ InIntRange arg) := by
  constructor
  · intro h hreached arg harg
    obtain ⟨v, hv⟩ := (h _ (mem_trace_main.2 ⟨hreached, rfl⟩)).1 arg harg
    constructor
    · rintro rfl
      exact not_isNumeral_nil _ hv
    · intro i hi
      rw [hi.unique hv]
      exact isInt_toInt v
  · intro h pid hpid
    obtain ⟨hreached, rfl⟩ := mem_trace_main.1 hpid
    have hargs : ∀ arg, .attach arg ∈ opts →
        ∃ i, IsNumeral arg i ∧ IsInt i := by
      intro arg harg
      obtain ⟨hne, hrange⟩ := h hreached arg harg
      obtain ⟨i, hi⟩ := (strtol_end_iff.1 (hreached.accepted _ harg)).resolve_left
        hne
      exact ⟨i, hi, hrange i hi⟩
    constructor
    · intro arg harg
      obtain ⟨i, hi, hint⟩ := hargs arg harg
      exact ⟨asInt i, by rwa [toInt_asInt hint]⟩
    · have hattach := finalState_attach opts
      rw [hreached.attach] at hattach
      obtain ⟨arg, harg⟩ := Option.isSome_iff_exists.1 hattach.1.symm
      obtain ⟨i, hi, hint⟩ := hargs arg (mem_of_lastAttach harg)
      refine ⟨arg, harg, ?_⟩
      rw [hattach.2 arg harg, hi.strtol, setWidth_ofInt, ← asInt,
        toInt_asInt hint]
      exact hi

/-- A text is converted, and a pid taken over, exactly if the text is not empty
and not the numeral of a number that is no `int`; what the scan prints for an
`int` is read back. -/
theorem integerTexts_iff (s : Text) (env : MainEnv) (opts : List Opt)
    (args : List Text) (i : CInt) :
    (ConvertsExactly s ↔ s ≠ [] ∧ InIntRange s) ∧
      (PidExact env opts args ↔ (ScanReached env opts args →
        ∀ arg, .attach arg ∈ opts → arg ≠ [] ∧ InIntRange arg)) ∧
      ConvertsExactly (decText i.toInt) ∧
      (convertStrToInt (some (decText i.toInt)) : Fetch CInt) = pure i := by
  refine ⟨convertsExactly_iff s, pidExact_iff env opts args, ?_⟩
  have hi := isNumeral_decText i.toInt
  constructor
  · rw [convertsExactly_iff]
    constructor
    · intro hnil
      rw [hnil] at hi
      exact not_isNumeral_nil _ hi
    · intro j hj
      rw [hj.unique hi]
      exact isInt_toInt i
  · rw [convertStrToInt_numeral hi, asInt_toInt]

/-- An empty text is the integer 0 and the pid 0, and `2 ^ 32 + 1` is 1. -/
theorem empty_text_accepted :
    ¬ ConvertsExactly [] ∧ ¬ ConvertsExactly "4294967297".toList ∧
      ¬ PidExact ⟨true, fun _ => .ok ⟨⟩⟩ [.attach []] [] := by
  refine ⟨fun h => ?_, fun h => ?_, fun h => ?_⟩
  · exact not_isNumeral_nil _ ((h.returned 0).1 rfl)
  · have hread : (convertStrToInt (some "4294967297".toList) :
        Fetch CInt).outcome = .ok 1 := by decide
    have hone := (h.returned 1).1 hread
    have htext := isNumeral_decText 4294967297
    have hsame : decText 4294967297 = "4294967297".toList := by decide
    rw [hsame] at htext
    exact absurd (htext.unique hone) (by decide)
  · obtain ⟨hargs, _⟩ := h 0 (by decide)
    obtain ⟨v, hv⟩ := hargs [] List.mem_cons_self
    exact not_isNumeral_nil _ hv

end Chericat
