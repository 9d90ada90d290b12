import Chericat.ViewRuns
import Chericat.TablePresence

/-!
The program: `main` with the functions it calls.  It completes, and prints what
the tables hold, exactly when nothing that its options ask for is missing.
-/

namespace Chericat

open SqlLike SqlText

/-! ### `main` and the functions it calls -/

/-- What a run depends on: whether the database opens, the processes there are,
which statements of the scan do not fail for reasons of their own, what each
kind of view meets, and what a library name that ends its pattern early does to
the file. -/
structure ProgramEnv where
  opens : Bool
  target : CInt → Target
  ok : Nat → Bool
  overview : ViewEnv
  capsInfo : ViewEnv
  injected : Text → Database → Database

def ProgramEnv.main (env : ProgramEnv) : MainEnv :=
  ⟨env.opens, fun pid => (scanMem (env.target pid)).outcome⟩

/-- `dbname`, as `get_dbname` returns it. -/
def dbName (opts : List Opt) : Text :=
  opts.foldl (fun name o =>
    match o with
    | .db arg => arg
    | _ => name) ":memory:".toList

/-- The process that `main` attaches to. -/
def ProgramEnv.attached (env : ProgramEnv) (s : MainState) : Target :=
  env.target (s.pid.setWidth 32)

/-- The database behind the scan. -/
def ProgramEnv.scanned (env : ProgramEnv) (s : MainState) (d : Database) :
    Database :=
  if s.attach then scanInto env.ok (env.attached s) d else d

def runAttach (env : ProgramEnv) (s : MainState) : Program PUnit :=
  if s.attach then do
    calling (openDb env.main)
    calling (Run.emit (.scanMem (s.pid.setWidth 32)))
    (scanMem (env.attached s)).mapTrace .scan
  else pure ⟨⟩

def runOverview (env : ProgramEnv) (name : Text) (s : MainState)
    (args : List Text) (d : Database) (index : Indexes) : Program Indexes :=
  if s.overview then do
    calling (openDb env.main)
    if args[1]? = some "lib".toList then
      inItem .container "vm_view" do
        calling (Run.emit .vmCapsView)
        printVmCapsView env.overview name d.present d.db index
    else
      inItem .container "compart_view" do
        calling (Run.emit .compCapsView)
        printCompCapsView env.overview name d.present d.db index
  else pure index

/-- The container for the capabilities of a compartment stays empty. -/
def runCapsInfo (env : ProgramEnv) (name : Text) (s : MainState)
    (args : List Text) (d : Database) (index : Indexes) : Program Indexes :=
  match s.capsInfo with
  | none => pure index
  | some lib => do
      calling (openDb env.main)
      if args[1]? = some "lib".toList then
        inItem .container "caps_info_lib" do
          calling (Run.emit (.capsSymsView lib))
          printCapsSymsView env.capsInfo name d.present d.db lib index
      else inItem .container "caps_info_compart" (pure index)

/-- `main` on a database that holds `d`, up to `terminate_chericat(0)`. -/
def program (env : ProgramEnv) (opts : List Opt) (args : List Text)
    (d : Database) : Program PUnit :=
  if opts = [] then calling exitUsage
  else do
    let s ← calling (Run.loop optStep .start opts)
    calling (checkCommand s args)
    runAttach env s
    let index ← runOverview env (dbName opts) s args (env.scanned s d) .zero
    let _ ← runCapsInfo env (dbName opts) s args (env.scanned s d) index
    emitAll [.finish]

/-! ### What a complete run prints -/

/-- Nothing that the overview asks for is missing. -/
def OverviewCompletes (env : ProgramEnv) (s : MainState) (args : List Text)
    (present : Table → Bool) : Prop :=
  s.overview = true → env.opens = true ∧
    if args[1]? = some "lib".toList then
      CanFetch env.overview present .vm ∧ CanFetch env.overview present .capInfo
    else
      CanFetch env.overview present .comparts ∧
        CanFetch env.overview present .capInfo

/-- Nothing that the capabilities of a library ask for is missing. -/
def CapsInfoCompletes (env : ProgramEnv) (s : MainState) (args : List Text)
    (present : Table → Bool) : Prop :=
  s.capsInfo.isSome = true → env.opens = true ∧
    (args[1]? = some "lib".toList →
      present .capInfo = true ∧ present .elfSym = true)

/-- There are options, they are accepted, and so is the command. -/
structure OptionsOk (opts : List Opt) (args : List Text) : Prop where
  given : opts ≠ []
  accepted : ∀ o ∈ opts, o.Acceptable
  command : (finalState opts).commandOk args = true

/-- The argument of `-i` holds no quote. -/
def LibQuoteFree (s : MainState) : Prop :=
  ∀ lib, s.capsInfo = some lib → QuoteFree lib

/-- The options are accepted, and nothing that they ask for is missing. -/
structure Completes (env : ProgramEnv) (opts : List Opt) (args : List Text)
    (present : Table → Bool) : Prop extends OptionsOk opts args where
  attach : (finalState opts).attach = true →
    env.opens = true ∧ (scanMem (env.attached (finalState opts))).Succeeds
  overview : OverviewCompletes env (finalState opts) args present
  capsInfo : CapsInfoCompletes env (finalState opts) args present

def overviewCalls (env : ProgramEnv) (name : Text) (s : MainState)
    (args : List Text) (db : Db) : List XoCall :=
  if s.overview then
    if args[1]? = some "lib".toList then
      itemCalls .container "vm_view" (vmViewCalls env.overview name db)
    else itemCalls .container "compart_view" (compViewCalls name db)
  else []

def capsInfoCalls (env : ProgramEnv) (name : Text) (s : MainState)
    (args : List Text) (db : Db) : List XoCall :=
  match s.capsInfo with
  | none => []
  | some lib =>
      if args[1]? = some "lib".toList then
        itemCalls .container "caps_info_lib"
          (symsViewCalls env.capsInfo name db lib)
      else itemCalls .container "caps_info_compart" []

/-- The output for tables that hold `db`. -/
def programCalls (env : ProgramEnv) (opts : List Opt) (args : List Text)
    (db : Db) : List XoCall :=
  overviewCalls env (dbName opts) (finalState opts) args db ++
    (capsInfoCalls env (dbName opts) (finalState opts) args db ++ [.finish])

section Completes

variable {env : ProgramEnv} {name : Text} {s : MainState} {args : List Text}
  {d : Database}

theorem xoCalls_mapTrace {ε α : Type} {f : ε → Act} (hf : ∀ e x, f e ≠ .xo x)
    (m : Run ε Stop α) : xoCalls (m.mapTrace f).trace = [] := by
  refine List.filterMap_eq_nil_iff.2 fun act hact => ?_
  obtain ⟨e, _, rfl⟩ := List.mem_map.1 hact
  cases h : f e with
  | xo x => exact absurd h (hf e x)
  | _ => rfl

/-- A run that calls nothing of libxo. -/
theorem printsWhen_mapTrace {ε α : Type} {f : ε → Act}
    (hf : ∀ e x, f e ≠ .xo x) {m : Run ε Stop α} {P : Prop} {a : α}
    (hok : P → m.outcome = .ok a) (hstop : ¬ P → ¬ m.Succeeds) :
    PrintsWhen P (m.mapTrace f) a [] where
  prints hP := ⟨hok hP, xoCalls_mapTrace hf m⟩
  stops := hstop
  isPrefix := xoCalls_mapTrace hf m ▸ List.prefix_rfl

theorem prints_calling {α : Type} (tr : List Call) (a : α) :
    Prints (calling ⟨tr, .ok a⟩) a [] :=
  ⟨rfl, xoCalls_mapTrace (f := .call) (fun _ _ => nofun) _⟩

theorem printsWhen_openDb :
    PrintsWhen (env.opens = true) (calling (openDb env.main)) ⟨⟩ [] := by
  refine printsWhen_mapTrace (f := .call) (fun _ _ => nofun) ?_ ?_
  · intro h
    exact congrArg Run.outcome (if_pos h)
  · rintro h ⟨_, hok⟩
    cases (congrArg Run.outcome (if_neg h)).symm.trans hok

theorem printsWhen_runAttach :
    PrintsWhen (s.attach = true →
        env.opens = true ∧ (scanMem (env.attached s)).Succeeds)
      (runAttach env s) ⟨⟩ [] := by
  rw [runAttach]
  split
  · next h =>
      have hscan : PrintsWhen (scanMem (env.attached s)).Succeeds
          ((scanMem (env.attached s)).mapTrace .scan) ⟨⟩ [] :=
        printsWhen_mapTrace (f := .scan) (fun _ _ => nofun)
          (fun hP => hP.choose_spec) id
      have hcall := (prints_calling [.scanMem (s.pid.setWidth 32)] PUnit.unit).when
        trivial
      exact (printsWhen_openDb.bind_silent (hcall.bind_silent hscan)).congr
        (by simp [h])
  · next h => exact (prints_pure _).when fun hattach => absurd hattach h

theorem printsWhen_runOverview (hfit : FitsInt d.db) :
    PrintsWhen (OverviewCompletes env s args d.present)
      (runOverview env name s args d .zero) .zero
      (overviewCalls env name s args d.db) := by
  rw [runOverview, overviewCalls]
  split
  · next h =>
      simp only [OverviewCompletes, h, true_implies]
      refine printsWhen_openDb.bind_silent ?_
      split
      · exact (((prints_calling [.vmCapsView] PUnit.unit).when trivial
          |>.bind_silent (printsWhen_vmCapsView hfit)).inItem _ _).congr
            (by simp)
      · exact (((prints_calling [.compCapsView] PUnit.unit).when trivial
          |>.bind_silent (printsWhen_compCapsView hfit)).inItem _ _).congr
            (by simp)
  · next h => exact (prints_pure _).when fun hover => absurd hover h

theorem printsWhen_runCapsInfo (hfit : FitsInt d.db) (hlib : LibQuoteFree s) :
    PrintsWhen (CapsInfoCompletes env s args d.present)
      (runCapsInfo env name s args d .zero) .zero
      (capsInfoCalls env name s args d.db) := by
  rw [runCapsInfo, capsInfoCalls, CapsInfoCompletes]
  cases hcaps : s.capsInfo with
  | none => exact (prints_pure _).when nofun
  | some lib =>
      simp only [Option.isSome_some, true_implies]
      refine printsWhen_openDb.bind_silent ?_
      split
      · next h =>
          exact (((prints_calling [.capsSymsView lib] PUnit.unit).when trivial
            |>.bind_silent (printsWhen_capsSymsView hfit (hlib lib hcaps))).inItem
              _ _).congr (by simp [h])
      · next h =>
          exact ((prints_pure _).inItem _ _).when fun hlib => absurd hlib h

end Completes

variable {env : ProgramEnv} {opts : List Opt} {args : List Text}
  {d : Database}

/-- Behind the options, or stopped by them. -/
theorem program_cases (env : ProgramEnv) (opts : List Opt)
    (args : List Text) (d : Database) :
    (OptionsOk opts args ∧ program env opts args d = do
      runAttach env (finalState opts)
      let index ← runOverview env (dbName opts) (finalState opts) args
        (env.scanned (finalState opts) d) .zero
      let _ ← runCapsInfo env (dbName opts) (finalState opts) args
        (env.scanned (finalState opts) d) index
      emitAll [.finish]) ∨
    ¬ OptionsOk opts args ∧ ∃ e, program env opts args d = Run.stop e := by
  rw [program]
  by_cases hgiven : opts = []
  · rw [if_pos hgiven]
    exact .inr ⟨fun h => h.given hgiven, _, rfl⟩
  · rw [if_neg hgiven]
    by_cases haccepted : ∀ o ∈ opts, o.Acceptable
    · rw [loop_optStep haccepted, ← finalState]
      have hstate : (calling (pure (finalState opts) : Main MainState)) =
          pure (finalState opts) := rfl
      rw [hstate, pure_bind, checkCommand]
      split
      · next hcommand => exact .inl ⟨⟨hgiven, haccepted, hcommand⟩, rfl⟩
      · next hcommand =>
          exact .inr ⟨fun h => hcommand h.command, .exit, rfl⟩
    · obtain ⟨e, he⟩ := loop_optStep_refused haccepted .start
      rw [he]
      exact .inr ⟨fun h => haccepted h.accepted, e, rfl⟩

theorem completes_iff {present : Table → Bool} :
    Completes env opts args present ↔ OptionsOk opts args ∧
      ((finalState opts).attach = true → env.opens = true ∧
        (scanMem (env.attached (finalState opts))).Succeeds) ∧
      OverviewCompletes env (finalState opts) args present ∧
      CapsInfoCompletes env (finalState opts) args present :=
  ⟨fun h => ⟨h.toOptionsOk, h.attach, h.overview, h.capsInfo⟩,
    fun ⟨hopts, hattach, hover, hcaps⟩ => ⟨hopts, hattach, hover, hcaps⟩⟩

/-- The program completes where nothing that is asked for is missing, and prints
what the tables hold behind the scan; when it stops, it has printed the
beginning of that. -/
theorem printsWhen_program
    (hfit : FitsInt (env.scanned (finalState opts) d).db)
    (hlib : LibQuoteFree (finalState opts)) :
    PrintsWhen
      (Completes env opts args (env.scanned (finalState opts) d).present)
      (program env opts args d) ⟨⟩
      (programCalls env opts args (env.scanned (finalState opts) d).db) := by
  rcases program_cases env opts args d with ⟨hopts, heq⟩ | ⟨hrefused, e, he⟩
  · rw [heq]
    refine PrintsWhen.congr (printsWhen_runAttach.bind_silent
      ((printsWhen_runOverview hfit).bind ((printsWhen_runCapsInfo hfit hlib).bind
        ((prints_emitAll [.finish]).when trivial)))) ?_
    simp [completes_iff, hopts]
  · rw [he]
    exact printsWhen_stop (fun h => hrefused h.toOptionsOk) e _ _

/-! ### What every run does -/

def Act.called : Act → Option Call
  | .call c => some c
  | _ => none

def Act.scanned : Act → Option Event
  | .scan e => some e
  | _ => none

def Act.queried : Act → Option Text
  | .query lib => some lib
  | _ => none

/-- The file after the queries for a library name.  The text that is read as one
`SELECT` changes nothing. -/
def queryFile (injected : Text → Database → Database) (d : Database)
    (lib : Text) : Database :=
  match takeQuoted (within lib ++ ['"', ';']) with
  | some (_, [';']) => d
  | _ => injected lib d

/-- The file after a run: what the texts of the scan have made of it, and what
the queries for library names have. -/
def fileAfter (env : ProgramEnv) (m : Program PUnit) (d : Database) :
    Database :=
  let ss := statements (m.trace.filterMap Act.scanned)
  (m.trace.filterMap Act.queried).foldl (queryFile env.injected)
    (execFile (succeeded (sentAndOk env.ok ss) ss) d)

theorem foldl_queryFile {injected : Text → Database → Database}
    {libs : List Text} (h : ∀ lib ∈ libs, QuoteFree lib) (d : Database) :
    libs.foldl (queryFile injected) d = d := by
  induction libs with
  | nil => rfl
  | cons lib libs ih =>
      rw [List.forall_mem_cons] at h
      have hsame : queryFile injected d lib = d := by
        rw [queryFile, takeQuoted_within h.1]
        rfl
      rw [List.foldl_cons, hsame]
      exact ih h.2

/-- The action is no call and no action of the scan. -/
def Act.Quiet (act : Act) : Prop := act.called = none ∧ act.scanned = none

/-- What holds of fetches and of calls of libxo, views do nothing else. -/
theorem emits_rule {P : Act → Prop} (hfetch : ∀ w, P (.fetch w))
    (hxo : ∀ x, P (.xo x)) : ViewRule (Run.Emits P) where
  pure := Run.emits_pure
  stop := Run.emits_stop
  bind := Run.Emits.bind
  fetching m act hact := by
    obtain ⟨w, _, rfl⟩ := List.mem_map.1 hact
    exact hfetch w
  emitAll _ act hact := by
    obtain ⟨x, _, rfl⟩ := List.mem_map.1 hact
    exact hxo x
  inItem _ _ h := Run.Emits.bind (Run.emits_emit (hxo _)) fun _ =>
    h.bind fun _ => (Run.emits_emit (hxo _)).bind fun _ => Run.emits_pure _

theorem quiet_rule : ViewRule (Run.Emits Act.Quiet) :=
  emits_rule (fun _ => ⟨rfl, rfl⟩) fun _ => ⟨rfl, rfl⟩

theorem plainCalls_finish : PlainCalls [.finish] := by
  simp [PlainCalls, Act.kind]

/-- What holds of the query for a name holds of the part that sends it. -/
theorem emits_queryLib {P : Act → Prop} {lib : Text} (h : P (.query lib))
    (present : Table → Bool) : Run.Emits P (queryLib present lib) := by
  rw [queryLib]
  split
  · exact Run.emits_emit h
  · exact Run.emits_pure _

/-- What holds of views and of calls. -/
structure StageRule (Q : ∀ {α : Type}, Program α → Prop) : Prop
    extends ViewRule Q where
  calling : ∀ {α : Type} (m : Main α), Q (calling m)

namespace StageRule

variable {Q : ∀ {α : Type}, Program α → Prop} (h : StageRule Q)
include h

theorem overview (name : Text) (s : MainState) (index : Indexes) :
    Q (runOverview env name s args d index) := by
  rw [runOverview]
  split
  · refine h.bind (h.calling _) fun _ => ?_
    split
    · exact h.inItem _ _ (h.bind (h.calling _) fun _ => h.vmCapsView index)
    · exact h.inItem _ _ (h.bind (h.calling _) fun _ => h.compCapsView index)
  · exact h.pure _

theorem capsInfo (name : Text) {s : MainState}
    (hquery : ∀ lib, s.capsInfo = some lib → Q (queryLib d.present lib))
    (index : Indexes) : Q (runCapsInfo env name s args d index) := by
  rw [runCapsInfo]
  cases hcaps : s.capsInfo with
  | none => exact h.pure _
  | some lib =>
      refine h.bind (h.calling _) fun _ => ?_
      split
      · exact h.inItem _ _
          (h.bind (h.calling _) fun _ =>
            h.capsSymsView (hquery lib hcaps) index)
      · exact h.inItem _ _ (h.pure _)

/-- Everything behind the scan. -/
theorem views {s : MainState} {d : Database}
    (hquery : ∀ lib, s.capsInfo = some lib → Q (queryLib d.present lib)) :
    Q (runOverview env (dbName opts) s args d .zero >>= fun index =>
      runCapsInfo env (dbName opts) s args d index >>= fun _ =>
        emitAll [.finish]) :=
  h.bind (h.overview _ s _) fun index =>
    h.bind (h.capsInfo _ hquery index) fun _ => h.emitAll plainCalls_finish

end StageRule

/-! ### The items of the output -/

theorem nests_stages : StageRule (Run.Nests Act.kind) where
  toViewRule := nests_rule
  calling := nests_mapTrace fun _ => rfl

/-- In every run, however it ends, the item that is closed is the one opened
last, and a run that returns has closed them all. -/
theorem nests_program : Run.Nests Act.kind (program env opts args d) := by
  have hattach : ∀ s, Run.Nests Act.kind (runAttach env s) := by
    intro s
    rw [runAttach]
    split
    · exact (nests_stages.calling _).bind fun _ =>
        (nests_stages.calling _).bind fun _ => nests_mapTrace (fun _ => rfl) _
    · exact Run.nests_pure _
  rcases program_cases env opts args d with ⟨-, heq⟩ | ⟨-, e, he⟩
  · rw [heq]
    exact (hattach _).bind fun _ => nests_stages.views fun lib _ =>
      Run.nests_of_emits (emits_queryLib (P := fun act => act.kind = .plain)
        rfl _)
  · rw [he]
    exact Run.nests_stop e

section Calls

variable {α β : Type}

/-! ### The calls of `main` -/

theorem follows_calling (m : Main α) :
    Run.Follows Act.called (calling m) m := by
  have hcalled : ∀ c, Act.called (.call c) = some c := fun _ => rfl
  exact (Run.refines_mapTrace hcalled m).follows

/-- The same run under `main` and in the program goes on from one value. -/
theorem follows_calling_bind (m : Main α) {f : α → Program β} {f' : α → Main β}
    (hf : ∀ a, Run.Follows Act.called (f a) (f' a)) :
    Run.Follows Act.called (calling m >>= f) (m >>= f') := by
  refine (follows_calling m).bind fun a a' ha ha' => ?_
  cases (show m.outcome = .ok a from ha).symm.trans ha'
  exact hf a

/-- A run that calls nothing, in the place of one that does nothing. -/
theorem follows_quiet {m : Program α} (hm : Run.Emits Act.Quiet m) (b : β) :
    Run.Follows Act.called m (pure b : Main β) :=
  Run.follows_of_emits (fun act hact => (hm act hact).1) rfl

theorem follows_view {m : Program α} (c : Call)
    (hm : Run.Emits Act.Quiet m) :
    Run.Follows Act.called (calling (Run.emit c) >>= fun _ => m)
      (Run.emit c : Main PUnit) := by
  have hbind : Run.Follows Act.called (calling (Run.emit c) >>= fun _ => m)
      (Run.emit c >>= fun _ => (pure ⟨⟩ : Main PUnit)) :=
    (follows_calling _).bind fun _ _ _ _ => follows_quiet hm PUnit.unit
  rwa [bind_pure_unit] at hbind

theorem follows_inItem {m : Program α} {m' : Main β}
    (hm : Run.Follows Act.called m m') (item : XoItem) (name : String) :
    Run.Follows Act.called (inItem item name m) m' := by
  have hplain : ∀ x, Run.Emits Act.Quiet (Run.emit (.xo x) : Program PUnit) :=
    fun x => Run.emits_emit ⟨rfl, rfl⟩
  have hbind : Run.Follows Act.called (inItem item name m)
      ((pure ⟨⟩ : Main PUnit) >>= fun _ => m' >>= fun b =>
        (pure ⟨⟩ : Main PUnit) >>= fun _ => pure b) :=
    (follows_quiet (hplain _) _).bind fun _ _ _ _ => hm.bind fun a b _ _ =>
      (follows_quiet (hplain _) _).bind fun _ _ _ _ =>
        follows_quiet (Run.emits_pure a) b
  simpa using hbind

theorem follows_runAttach (s : MainState) :
    Run.Follows Act.called (runAttach env s) (attachPid env.main s) := by
  rw [runAttach, attachPid]
  split
  · refine follows_calling_bind _ fun _ => follows_calling_bind _ fun _ => ?_
    have hnone : ((scanMem (env.attached s)).mapTrace
        Act.scan).trace.filterMap Act.called = [] := by
      rw [Run.mapTrace, List.filterMap_map]
      exact List.filterMap_eq_nil_iff.2 fun _ _ => rfl
    exact ⟨hnone ▸ List.prefix_rfl, fun a ha => ⟨⟨a, ha⟩, hnone⟩⟩
  · exact follows_quiet (Run.emits_pure _) _

theorem follows_runOverview (name : Text) (s : MainState) (index : Indexes) :
    Run.Follows Act.called (runOverview env name s args d index)
      (showOverview env.main s args) := by
  rw [runOverview, showOverview]
  split
  · refine (follows_calling _).bind fun _ _ _ _ => ?_
    split
    · exact follows_inItem (follows_view _ (quiet_rule.vmCapsView index)) _ _
    · exact follows_inItem (follows_view _ (quiet_rule.compCapsView index))
        _ _
  · exact follows_quiet (Run.emits_pure _) _

theorem follows_runCapsInfo (name : Text) (s : MainState) (index : Indexes) :
    Run.Follows Act.called (runCapsInfo env name s args d index)
      (showCapsInfo env.main s args) := by
  rw [runCapsInfo, showCapsInfo]
  cases s.capsInfo with
  | none => exact follows_quiet (Run.emits_pure _) _
  | some lib =>
      refine (follows_calling _).bind fun _ _ _ _ => ?_
      split
      · exact follows_inItem
          (follows_view _ (quiet_rule.capsSymsView
            (emits_queryLib ⟨rfl, rfl⟩ _) index)) _ _
      · exact follows_inItem (follows_quiet (Run.emits_pure _) _) _ _

/-- The functions are called that `main` calls when their outcomes do not
matter. -/
theorem follows_program : Run.Follows Act.called (program env opts args d)
    (chericatMain env.main opts args) := by
  have hlast : ∀ s, showCapsInfo env.main s args =
      showCapsInfo env.main s args >>= fun _ => pure ⟨⟩ :=
    fun s => bind_pure_unit.symm
  rw [program, chericatMain]
  split
  · exact follows_calling _
  · refine follows_calling_bind _ fun s => follows_calling_bind _ fun _ => ?_
    refine (follows_runAttach s).bind fun _ _ _ _ =>
      (follows_runOverview _ s _).bind fun index _ _ _ => ?_
    rw [hlast]
    exact (follows_runCapsInfo _ s index).bind fun _ _ _ _ =>
      follows_quiet (quiet_rule.emitAll plainCalls_finish) PUnit.unit

end Calls

/-! ### The file -/

theorem unscanned_stages :
    StageRule (Run.Emits fun act => act.scanned = none) where
  toViewRule := emits_rule (fun _ => rfl) fun _ => rfl
  calling m act hact := by
    obtain ⟨c, _, rfl⟩ := List.mem_map.1 hact
    rfl

theorem scanned_runAttach (s : MainState) :
    (runAttach env s).trace.filterMap Act.scanned =
      if s.attach = true ∧ env.opens = true then
        (scanMem (env.attached s)).trace
      else [] := by
  have hscan : ((scanMem (env.attached s)).mapTrace
      Act.scan).trace.filterMap Act.scanned = (scanMem (env.attached s)).trace := by
    simp [Run.mapTrace, List.filterMap_map, Function.comp_def, Act.scanned]
  rw [runAttach, openDb, ProgramEnv.main]
  cases s.attach with
  | false => rfl
  | true =>
      cases env.opens with
      | false => rfl
      | true =>
          rw [if_pos rfl, if_pos rfl, if_pos ⟨rfl, rfl⟩, ← hscan]
          rfl

/-- The queries of the program are for names without quotes. -/
theorem quoteFree_queried (hlib : LibQuoteFree (finalState opts)) :
    ∀ lib ∈ (program env opts args d).trace.filterMap Act.queried,
      QuoteFree lib := by
  have hplain : ∀ act, Act.queried act = none →
      ∀ lib, act.queried = some lib → QuoteFree lib := by
    intro act hnone lib hsome
    cases hnone.symm.trans hsome
  have hstages : StageRule (Run.Emits fun act =>
      ∀ lib, act.queried = some lib → QuoteFree lib) :=
    { toViewRule := emits_rule (fun _ => hplain _ rfl) fun _ => hplain _ rfl
      calling := fun m act hact => by
        obtain ⟨c, _, rfl⟩ := List.mem_map.1 hact
        exact hplain _ rfl }
  have hattach : ∀ s, Run.Emits
      (fun act => ∀ lib, act.queried = some lib → QuoteFree lib)
      (runAttach env s) := by
    intro s
    rw [runAttach]
    split
    · refine (hstages.calling _).bind fun _ => (hstages.calling _).bind
        fun _ act hact => ?_
      obtain ⟨e, _, rfl⟩ := List.mem_map.1 hact
      exact hplain _ rfl
    · exact Run.emits_pure _
  have hemits : Run.Emits
      (fun act => ∀ lib, act.queried = some lib → QuoteFree lib)
      (program env opts args d) := by
    rcases program_cases env opts args d with ⟨-, heq⟩ | ⟨-, e, he⟩
    · rw [heq]
      refine (hattach _).bind fun _ => hstages.views fun lib hcaps =>
        emits_queryLib ?_ _
      rintro _ ⟨⟩
      exact hlib lib hcaps
    · rw [he]
      exact Run.emits_stop e
  intro lib hmem
  obtain ⟨act, hact, hquery⟩ := List.mem_filterMap.1 hmem
  exact hemits act hact lib hquery

/-- The program writes into the file what the scan writes. -/
theorem fileAfter_program (hlib : LibQuoteFree (finalState opts)) :
    (ScanReached env.main opts args →
      fileAfter env (program env opts args d) d =
        scanInto env.ok (env.attached (finalState opts)) d) ∧
    (¬ ScanReached env.main opts args →
      fileAfter env (program env opts args d) d = d) := by
  have hfile : fileAfter env (program env opts args d) d =
      let ss := statements
        ((program env opts args d).trace.filterMap Act.scanned)
      execFile (succeeded (sentAndOk env.ok ss) ss) d :=
    foldl_queryFile (quoteFree_queried hlib) _
  have hnothing : (program env opts args d).trace.filterMap Act.scanned = [] →
      fileAfter env (program env opts args d) d = d := by
    intro hnone
    rw [hfile, hnone]
    rfl
  rcases program_cases env opts args d with ⟨hopts, heq⟩ | ⟨hrefused, e, he⟩
  · have hscanned : (program env opts args d).trace.filterMap Act.scanned =
        if (finalState opts).attach = true ∧ env.opens = true then
          (scanMem (env.attached (finalState opts))).trace
        else [] := by
      rw [heq, Run.viewed_bind fun _ => unscanned_stages.views fun _ _ =>
        emits_queryLib (P := fun act => act.scanned = none) rfl _,
        scanned_runAttach]
    constructor
    · intro hreached
      rw [if_pos ⟨hreached.attach, hreached.opens⟩] at hscanned
      rw [hfile, hscanned]
      rfl
    · intro hnot
      refine hnothing ?_
      rw [hscanned, if_neg]
      rintro ⟨hattach, hopens⟩
      exact hnot ⟨hopts.given, hopts.accepted, hopts.command, hattach, hopens⟩
  · constructor
    · intro h
      exact absurd ⟨h.given, h.accepted, h.command⟩ hrefused
    · exact fun _ => hnothing (by rw [he]; rfl)

/-- However a run ends: its calls are those of `main`, as far as it comes, its
output is nested, and the file holds what the scan has written, and nothing
else. -/
structure RunsInOrder (env : ProgramEnv) (opts : List Opt)
    (args : List Text) (d : Database) : Prop where
  calls : Run.Follows Act.called (program env opts args d)
    (chericatMain env.main opts args)
  items : Run.Nests Act.kind (program env opts args d)
  scanned : ScanReached env.main opts args →
    fileAfter env (program env opts args d) d =
      execAll (sentStatements env.ok (env.attached (finalState opts))) d
  unscanned : ¬ ScanReached env.main opts args →
    fileAfter env (program env opts args d) d = d

/-- A run without quotes in the names that it meets. -/
theorem program_runsInOrder (env : ProgramEnv) {opts : List Opt}
    {args : List Text} (hlib : LibQuoteFree (finalState opts))
    (hscan : ScanReached env.main opts args →
      ScanJob.Clean ⟨env.attached (finalState opts), env.ok⟩) (d : Database) :
    RunsInOrder env opts args d where
  calls := follows_program
  items := nests_program
  scanned h := ((fileAfter_program hlib).1 h).trans ((hscan h).scanInto_eq d)
  unscanned := (fileAfter_program hlib).2

def KvmeMasks.sample : KvmeMasks :=
  { protRead := 1
    protWrite := 2
    protExec := 4
    protReadCap := 8
    protWriteCap := 16
    flagCow := 1
    flagNeedsCopy := 2
    flagSuper := 8
    flagGrowsUp := 16
    flagGrowsDown := 32
    flagUserWired := 64
    typeNone := 0
    typeDefault := 1
    typeVnode := 2
    typeSwap := 3
    typeDevice := 4
    typePhys := 5
    typeDead := 6
    typeSg := 7
    typeMgtdevice := 8
    typeGuard := 9 }

/-- No select fails. -/
def ViewEnv.sample : ViewEnv :=
  ⟨16, KvmeMasks.sample, fun _ => none, none, fun _ => none⟩

def lsEnv : ProgramEnv :=
  ⟨true, fun _ => lsTarget, fun _ => true, ViewEnv.sample, ViewEnv.sample,
    fun _ d => d⟩

/-- The run that `chericat -f a -p 1` is. -/
theorem ls_runsInOrder :
    RunsInOrder lsEnv [.db "a".toList, .attach "1".toList] [] Database.new := by
  refine program_runsInOrder lsEnv ?_ (fun _ => lsJob_clean) Database.new
  have hnone : (finalState [.db "a".toList, .attach "1".toList]).capsInfo =
      none := rfl
  intro lib hlib
  cases hnone.symm.trans hlib

end Chericat
