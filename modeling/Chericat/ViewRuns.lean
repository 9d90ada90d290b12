import Chericat.ViewOutput

/-!
The views print the rows that the tables hold, and nothing else.  A view that
stops early has closed no item it has not opened.
-/

namespace Chericat

open SqlLike

/-! ### Runs that print -/

/-- The run returns `a`, and these are its calls of libxo. -/
structure Prints {α : Type} (m : Program α) (a : α) (xs : List XoCall) :
    Prop where
  outcome : m.outcome = .ok a
  calls : xoCalls m.trace = xs

section Prints

variable {α β : Type} {a : α} {xs ys : List XoCall}

theorem xoCalls_append (tr us : List Act) :
    xoCalls (tr ++ us) = xoCalls tr ++ xoCalls us :=
  List.filterMap_append

theorem prints_pure (a : α) : Prints (pure a) a [] := ⟨rfl, rfl⟩

theorem Prints.bind {m : Program α} {f : α → Program β} {b : β}
    (hm : Prints m a xs) (hf : Prints (f a) b ys) :
    Prints (m >>= f) b (xs ++ ys) := by
  constructor
  · rw [Run.outcome_bind_ok hm.outcome]
    exact hf.outcome
  · rw [Run.trace_bind_ok hm.outcome, xoCalls_append, hm.calls, hf.calls]

/-- A run that prints nothing, and another one. -/
theorem Prints.bind_silent {m : Program α} {f : α → Program β} {b : β}
    (hm : Prints m a []) (hf : Prints (f a) b ys) : Prints (m >>= f) b ys :=
  hm.bind hf

theorem Prints.bind_last {m : Program α} {f : α → Program β} {b : β}
    (hm : Prints m a xs) (hf : Prints (f a) b []) : Prints (m >>= f) b xs := by
  simpa using hm.bind hf

theorem prints_emitAll (xs : List XoCall) : Prints (emitAll xs) ⟨⟩ xs := by
  refine ⟨rfl, ?_⟩
  rw [xoCalls, emitAll, List.filterMap_map]
  exact List.filterMap_some

/-- The calls for an item with the given contents. -/
def itemCalls (item : XoItem) (name : String) (xs : List XoCall) :
    List XoCall :=
  .opens item name.toList :: (xs ++ [.closes item name.toList])

theorem Prints.inItem {m : Program α} (item : XoItem) (name : String)
    (hm : Prints m a xs) :
    Prints (inItem item name m) a (itemCalls item name xs) := by
  obtain ⟨trace, outcome⟩ := m
  obtain ⟨rfl, rfl⟩ := hm
  refine ⟨rfl, ?_⟩
  change xoCalls ([_] ++ (trace ++ ([_] ++ []))) = _
  simp only [xoCalls_append]
  rfl

/-- The run prints `xs` and returns `a` where `P` holds, and stops early
elsewhere, when it has printed the beginning of `xs`. -/
structure PrintsWhen (P : Prop) (m : Program α) (a : α) (xs : List XoCall) :
    Prop where
  prints : P → Prints m a xs
  stops : ¬ P → ¬ m.Succeeds
  isPrefix : xoCalls m.trace <+: xs

theorem PrintsWhen.succeeds_iff {P : Prop} {m : Program α}
    (h : PrintsWhen P m a xs) : m.Succeeds ↔ P := by
  constructor
  · intro hm
    by_contra hP
    exact h.stops hP hm
  · exact fun hP => ⟨a, (h.prints hP).outcome⟩

theorem Prints.when {P : Prop} {m : Program α} (hP : P)
    (h : Prints m a xs) : PrintsWhen P m a xs :=
  ⟨fun _ => h, fun hnot => absurd hP hnot, h.calls ▸ List.prefix_rfl⟩

theorem printsWhen_stop {P : Prop} (hP : ¬ P) (s : Stop) (a : α)
    (xs : List XoCall) : PrintsWhen P (Run.stop s) a xs where
  prints h := absurd h hP
  stops _ h := by
    obtain ⟨_, h⟩ := h
    cases h
  isPrefix := List.nil_prefix

theorem PrintsWhen.bind {P Q : Prop} {m : Program α} {f : α → Program β}
    {b : β} (hm : PrintsWhen P m a xs) (hf : PrintsWhen Q (f a) b ys) :
    PrintsWhen (P ∧ Q) (m >>= f) b (xs ++ ys) := by
  constructor
  · exact fun h => (hm.prints h.1).bind (hf.prints h.2)
  · intro hnot hsucceeds
    obtain ⟨a', ha', hrest⟩ := Run.succeeds_bind_iff.1 hsucceeds
    have hP := hm.succeeds_iff.1 ⟨a', ha'⟩
    cases (hm.prints hP).outcome.symm.trans ha'
    exact hf.stops (fun hQ => hnot ⟨hP, hQ⟩) hrest
  · rcases hok : m.outcome with s | a'
    · rw [Run.bind_error hok]
      exact hm.isPrefix.trans (List.prefix_append xs ys)
    · have hprints := hm.prints (hm.succeeds_iff.1 ⟨a', hok⟩)
      rw [Run.trace_bind_ok hprints.outcome, xoCalls_append, hprints.calls]
      exact (List.prefix_append_right_inj xs).2 hf.isPrefix

theorem PrintsWhen.congr {P Q : Prop} {m : Program α}
    (h : PrintsWhen P m a xs) (hPQ : P ↔ Q) : PrintsWhen Q m a xs := by
  rwa [← propext hPQ]

/-- A run that prints nothing, and another one. -/
theorem PrintsWhen.bind_silent {P Q : Prop} {m : Program α}
    {f : α → Program β} {b : β} (hm : PrintsWhen P m a [])
    (hf : PrintsWhen Q (f a) b ys) : PrintsWhen (P ∧ Q) (m >>= f) b ys :=
  hm.bind hf

theorem PrintsWhen.then {P : Prop} {m : Program α} {f : α → Program β}
    {b : β} (hm : PrintsWhen P m a []) (hf : Prints (f a) b ys) :
    PrintsWhen P (m >>= f) b ys :=
  (hm.bind_silent (hf.when trivial)).congr (iff_of_eq (and_true P))

/-- A run that always prints nothing, and another one. -/
theorem Prints.bind_when {P : Prop} {m : Program α} {f : α → Program β}
    {b : β} (hm : Prints m a []) (hf : PrintsWhen P (f a) b ys) :
    PrintsWhen P (m >>= f) b ys :=
  ((hm.when trivial).bind_silent hf).congr (iff_of_eq (true_and P))

theorem PrintsWhen.inItem {P : Prop} {m : Program α} (item : XoItem)
    (name : String) (hm : PrintsWhen P m a xs) :
    PrintsWhen P (inItem item name m) a (itemCalls item name xs) := by
  refine ⟨fun hP => (hm.prints hP).inItem item name, fun hnot h => ?_, ?_⟩
  · obtain ⟨_, _, h⟩ := Run.succeeds_bind_iff.1 h
    obtain ⟨a', ha', _⟩ := Run.succeeds_bind_iff.1 h
    exact hm.stops hnot ⟨a', ha'⟩
  · rcases hok : m.outcome with s | a'
    · -- the item is left open
      have hitem : Chericat.inItem item name m =
          ⟨.xo (.opens item name.toList) :: m.trace, .error s⟩ := by
        rw [Chericat.inItem, WindowMark.window, Run.bind_error hok]
        rfl
      rw [hitem]
      exact (List.prefix_cons_inj _).2
        (hm.isPrefix.trans (List.prefix_append xs _))
    · have hprints := hm.prints (hm.succeeds_iff.1 ⟨a', hok⟩)
      simp only [(hprints.inItem item name).calls, List.prefix_rfl]

end Prints

/-! ### Fetching a table -/

/-- The integer columns of the tables are of the type `int`, and so are the
numbers of their rows. -/
structure FitsInt (db : Db) : Prop where
  ints : HoldsInts db
  vm : db.vm.length < 2 ^ 31
  capInfo : db.capInfo.length < 2 ^ 31
  elfSym : db.elfSym.length < 2 ^ 31
  comparts : db.comparts.rows.length < 2 ^ 31

/-- The table is there, and its select does not fail. -/
def CanFetch (env : ViewEnv) (present : Table → Bool) (tb : Table) : Prop :=
  present tb = true ∧ env.fails tb = none

section Fetch

variable {α ρ : Type} {argv : α → Argv} {callback : Argv → Fetch ρ}
  {read : α → ρ} {rows : List α} {s : Snapshot} {tb : Table}

/-- What is fetched: the number of rows, and the rows. -/
def fetchedRows (rows : List ρ) : Fetched ρ := ⟨rows.length, rows.map some⟩

theorem cells_fetchedRows (rows : List ρ) :
    (fetchedRows rows).cells = rows.map some := by
  rw [Fetched.cells, fetchedRows, Int.toNat_natCast]
  exact List.take_of_length_le (by simp)

/-- A fetch of a table that is there returns its rows, or `-1` when the select
fails. -/
theorem prints_fetching (hpresent : s.present tb = true)
    (hread : ∀ a ∈ rows, callback (argv a) = pure (read a))
    (hcount : rows.length < 2 ^ 31) :
    ∃ r, Prints (fetching (getInfo s tb (rows.map argv) callback 0))
        (r, 0) [] ∧
      (s.fails = none → r = fetchedRows (rows.map read)) ∧
      (s.fails ≠ none → r.ret = -1) := by
  have hint : (asInt rows.length).toInt = rows.length :=
    toInt_asInt ⟨by omega, by omega⟩
  obtain ⟨cells, hget, hcells⟩ :=
    getInfo_eq hpresent hread (by rw [hint]; omega)
  refine ⟨_, ⟨congrArg (fun m => m.outcome) hget, ?_⟩, ?_, ?_⟩
  · rw [fetching, Run.mapTrace, xoCalls, List.filterMap_map]
    exact List.filterMap_eq_nil_iff.2 fun _ _ => rfl
  · intro hfails
    have hnat : (asInt rows.length).toNat = rows.length := by
      have := toNat_of_nonneg (c := asInt rows.length) (by omega)
      omega
    have hall : s.delivered rows = rows := by
      rw [Snapshot.delivered, hfails]
    rw [hall, hnat] at hcells
    simp [hcells le_rfl, hfails, hint, fetchedRows, storedCells, hnat]
  · intro hfails
    rw [if_neg (by simpa [Option.isNone_iff_eq_none] using hfails)]

theorem fetching_absent (hpresent : s.present tb = false)
    (rows : List Argv) (index : CInt) :
    fetching (getInfo s tb rows callback index) = Run.stop .errx := by
  have hassert : assertDbTableExists s tb = Run.stop .errx := by
    simp [assertDbTableExists, hpresent]
  rw [getInfo, hassert, Run.stop_bind]
  rfl

/-- A fetch that is asserted to succeed returns the rows, or stops. -/
theorem printsWhen_fetchAsserted (env : ViewEnv) (present : Table → Bool)
    (db : Db) (tb : Table)
    (hread : ∀ a ∈ rows, callback (argv a) = pure (read a))
    (hcount : rows.length < 2 ^ 31) :
    PrintsWhen (CanFetch env present tb) (fetchAsserted (getInfo
      (env.snapshot present db tb) tb (rows.map argv) callback 0))
        (fetchedRows (rows.map read), 0) [] := by
  cases hpresent : present tb with
  | false =>
      rw [fetchAsserted, fetching_absent hpresent, Run.stop_bind]
      exact printsWhen_stop (fun h => by simp [h.1] at hpresent) _ _ _
  | true =>
      obtain ⟨r, hprints, hrows, hfailed⟩ := prints_fetching
        (s := env.snapshot present db tb) hpresent hread hcount
      constructor
      · rintro ⟨-, hfails⟩
        have hr := hrows hfails
        subst hr
        have hne : (fetchedRows (rows.map read)).ret ≠ -1 := by
          simp [fetchedRows]
        refine hprints.bind_silent ?_
        rw [if_neg hne]
        exact prints_pure _
      · rintro hfails ⟨_, h⟩
        have hret : r.ret = -1 := hfailed fun h => hfails ⟨hpresent, h⟩
        rw [fetchAsserted, Run.outcome_bind_ok hprints.outcome,
          if_pos hret] at h
        cases h
      · rw [fetchAsserted, Run.trace_bind_ok hprints.outcome, xoCalls_append,
          hprints.calls]
        dsimp only
        split <;> exact List.prefix_rfl

end Fetch

/-! ### Rows -/

theorem readCells_some {ρ : Type} (rows : List ρ) :
    readCells (rows.map some) = pure rows := by
  have hloop : ∀ done : List ρ, Run.loop (fun as cell => do
      let a ← readCell cell
      pure (as ++ [a])) done (rows.map some) =
        (pure (done ++ rows) : Program (List ρ)) := by
    induction rows with
    | nil => simp
    | cons a rows ih =>
        intro done
        have hnext := ih (done ++ [a])
        rw [List.append_assoc, List.singleton_append] at hnext
        exact hnext
  exact hloop []

theorem findSym_some (addr : Text) (syms : List SymInfo) :
    findSym addr (syms.map some) = pure (symAt syms addr) := by
  rw [symAt]
  induction syms with
  | nil => rfl
  | cons s syms ih =>
      rw [List.map_cons, findSym, List.find?_cons]
      split
      · next heq => simp [heq]
      · next hne =>
          rw [ih]
          simp [hne]

theorem prints_rows {ρ : Type} {f : PUnit → Option ρ → Program PUnit}
    {calls : ρ → List XoCall} {rows : List ρ}
    (h : ∀ r ∈ rows, Prints (f ⟨⟩ (some r)) ⟨⟩ (calls r)) :
    Prints (Run.loop f ⟨⟩ (rows.map some)) ⟨⟩ (rows.flatMap calls) := by
  induction rows with
  | nil => exact prints_pure _
  | cons r rows ih =>
      rw [List.forall_mem_cons] at h
      exact h.1.bind (ih h.2)

/-- A row of `vm_caps_view`. -/
def vmRowCalls (env : ViewEnv) (total : Nat) (row : VmInfo × CapCounts) :
    List XoCall :=
  itemCalls .inst "vm_cap_output" (vmRowHead env row.1 ++
    (countFields "%5d" " " row.2 total ++ vmRowTail env row.1))

/-- A row of `comp_caps_view`. -/
def compRowCalls (total : Nat) (row : CompInfo × CapCounts) : List XoCall :=
  itemCalls .inst "comp_cap_output" (compRowHead row.1 ++
    countFields "%11d" "\n" row.2 total)

/-- A row of `caps_syms_view`; the symbols are missing when their select has
failed. -/
def symsRowCalls (failed : Bool) (row : CapSyms) : List XoCall :=
  let shown sym := if failed then none else some sym
  itemCalls .inst "cap_sym_output"
    ([xoStr "" "%12s" "" row.capLocAddr] ++
      ([xoStr "" "  %43-s" "" (shown row.symInfoForLoc),
        xoStr "capinfo" "% 45-s" "" row.capInfo] ++
        [xoStr "" " %43-s" "\n" (shown row.symInfoForCap)]))

theorem prints_vmRow (env : ViewEnv) (caps : List CapInfo) (v : VmInfo) :
    Prints (printVmRow env (fetchedRows caps) ⟨⟩ (some v)) ⟨⟩
      (vmRowCalls env caps.length (v, vmCounts caps v)) := by
  refine Prints.inItem .inst "vm_cap_output" ?_
  simp only [readCell, cells_fetchedRows, readCells_some, pure_bind]
  exact (prints_emitAll _).bind ((prints_emitAll _).bind (prints_emitAll _))

theorem prints_compRow (caps : List CapInfo) (r : CompInfo) :
    Prints (printCompRow (fetchedRows caps) ⟨⟩ (some r)) ⟨⟩
      (compRowCalls caps.length (r, compCounts caps r)) := by
  refine Prints.inItem .inst "comp_cap_output" ?_
  simp only [readCell, cells_fetchedRows, readCells_some, pure_bind]
  exact (prints_emitAll _).bind (prints_emitAll _)

/-- What the fetch of the symbols came to. -/
structure SymsFetched (failed : Bool) (rows : List SymInfo)
    (r : Fetched SymInfo) : Prop where
  rows : failed = false → r = fetchedRows rows
  failed : failed = true → r.ret = -1

theorem SymsFetched.formattedSym {failed : Bool} {rows : List SymInfo}
    {r : Fetched SymInfo} (h : SymsFetched failed rows r) (addr : Text) :
    formattedSym r addr =
      pure (if failed then none else some (symText (symAt rows addr))) := by
  cases failed with
  | false =>
      have hne : (fetchedRows rows).ret ≠ -1 := by
        simp [fetchedRows]
      rw [h.rows rfl, Chericat.formattedSym, cells_fetchedRows, findSym_some,
        pure_bind, if_neg fun hret => hne hret.2]
      rfl
  | true =>
      have hcells : r.cells = [] := by
        rw [Fetched.cells, h.failed rfl]
        rfl
      rw [Chericat.formattedSym, hcells, findSym, pure_bind,
        if_pos ⟨rfl, h.failed rfl⟩]
      rfl

theorem prints_symsRow {failed : Bool} {rows : List SymInfo}
    {r : Fetched SymInfo} (h : SymsFetched failed rows r) (c : CapInfo) :
    Prints (printSymsRow r ⟨⟩ (some c)) ⟨⟩
      (symsRowCalls failed (capSyms rows c)) := by
  refine Prints.inItem .inst "cap_sym_output" ?_
  simp only [readCell, h.formattedSym, pure_bind]
  refine (prints_emitAll _).bind ((prints_emitAll _).bind ?_)
  cases failed <;> exact prints_emitAll _

/-! ### Whole views -/

def vmViewCalls (env : ViewEnv) (name : Text) (db : Db) : List XoCall :=
  banner name ++ [vmTitles env] ++ itemCalls .list "vm_cap_output"
    ((vmCapsView db).flatMap (vmRowCalls env db.capInfo.length))

def compViewCalls (name : Text) (db : Db) : List XoCall :=
  banner name ++ [compTitles] ++ itemCalls .list "comp_cap_output"
    ((compCapsView db).flatMap (compRowCalls db.capInfo.length))

/-- The rows that the query for the name selects. -/
def libCapInfo (db : Db) (lib : Text) : List CapInfo :=
  db.capInfo.filter fun c => like (within lib) c.capLocPath

/-- The capabilities shown: none when their select fails. -/
def capsShown (env : ViewEnv) (db : Db) (lib : Text) : List CapInfo :=
  if env.fails .capInfo = none then libCapInfo db lib else []

/-- The number shown. -/
def countShown (env : ViewEnv) (db : Db) (lib : Text) : Int :=
  if env.fails .capInfo = none then (libCapInfo db lib).length else -1

def symsViewCalls (env : ViewEnv) (name : Text) (db : Db) (lib : Text) :
    List XoCall :=
  itemCalls .list "cap_sym_output"
    (symsBanner name (countShown env db lib) ++ [symsTitles] ++
      (capsShown env db lib).flatMap fun c =>
        symsRowCalls (env.fails .elfSym).isSome (capSyms db.elfSym c))

variable {env : ViewEnv} {name : Text} {present : Table → Bool} {db : Db}

theorem printsWhen_allVm (h : FitsInt db) :
    PrintsWhen (CanFetch env present .vm) (fetchAsserted
      (getAllVmInfo (env.snapshot present db .vm) 0))
        (fetchedRows db.vm, 0) [] := by
  have hfetch := printsWhen_fetchAsserted env present db .vm
    (vmInfoQueryCallback_argv h.ints) h.vm
  rwa [List.map_id'] at hfetch

theorem printsWhen_allCap (h : FitsInt db) :
    PrintsWhen (CanFetch env present .capInfo) (fetchAsserted
      (getAllCapInfo (env.snapshot present db .capInfo) 0))
        (fetchedRows db.capInfo, 0) [] := by
  have hfetch := printsWhen_fetchAsserted env present db .capInfo
    (fun c _ => capInfoQueryCallback_argv c) h.capInfo
  rwa [List.map_id'] at hfetch

theorem printsWhen_allComp (h : FitsInt db) :
    PrintsWhen (CanFetch env present .comparts) (fetchAsserted
      (getAllCompInfo (env.snapshot present db .comparts) 0))
        (fetchedRows (db.comparts.rows.map CompInfo.fetched), 0) [] :=
  printsWhen_fetchAsserted env present db .comparts
    (compInfoQueryCallback_argv h.ints) h.comparts

/-- `vm_caps_view` prints the rows of `vm` with their counters, where both
tables can be fetched. -/
theorem printsWhen_vmCapsView (h : FitsInt db) :
    PrintsWhen (CanFetch env present .vm ∧ CanFetch env present .capInfo)
      (printVmCapsView env name present db .zero) .zero
      (vmViewCalls env name db) := by
  have hrows : Prints (Run.loop (printVmRow env (fetchedRows db.capInfo)) ⟨⟩
      (fetchedRows db.vm).cells) ⟨⟩
        ((vmCapsView db).flatMap (vmRowCalls env db.capInfo.length)) := by
    rw [cells_fetchedRows, vmCapsView, List.flatMap_map]
    exact prints_rows fun v _ => prints_vmRow env db.capInfo v
  refine (printsWhen_allVm h).bind_silent ((printsWhen_allCap h).then ?_)
  rw [vmViewCalls]
  exact (prints_emitAll _).bind
    ((hrows.inItem .list "vm_cap_output").bind_last (prints_pure Indexes.zero))

/-- `comp_caps_view` prints the rows of `comparts`. -/
theorem printsWhen_compCapsView (h : FitsInt db) :
    PrintsWhen (CanFetch env present .comparts ∧ CanFetch env present .capInfo)
      (printCompCapsView env name present db .zero) .zero
      (compViewCalls name db) := by
  have hrows : Prints (Run.loop (printCompRow (fetchedRows db.capInfo)) ⟨⟩
      (fetchedRows (db.comparts.rows.map CompInfo.fetched)).cells) ⟨⟩
        ((compCapsView db).flatMap (compRowCalls db.capInfo.length)) := by
    have hprint := prints_rows fun r (_ : r ∈ db.comparts.rows.map
      CompInfo.fetched) => prints_compRow db.capInfo r
    rw [List.flatMap_map] at hprint
    -- a `NULL` that was read as `0` is not printed
    rw [cells_fetchedRows, compCapsView, List.flatMap_map]
    exact hprint
  refine (printsWhen_allComp h).bind_silent ((printsWhen_allCap h).then ?_)
  rw [compViewCalls]
  exact (prints_emitAll _).bind
    ((hrows.inItem .list "comp_cap_output").bind_last
      (prints_pure Indexes.zero))

theorem printsWhen_present {α ρ : Type} {argv : α → Argv}
    {callback : Argv → Fetch ρ} {read : α → ρ} {rows : List α} (s : Snapshot)
    (tb : Table) (hread : ∀ a ∈ rows, callback (argv a) = pure (read a))
    (hcount : rows.length < 2 ^ 31) :
    ∃ r, PrintsWhen (s.present tb = true)
        (fetching (getInfo s tb (rows.map argv) callback 0)) (r, 0) [] ∧
      (s.fails = none → r = fetchedRows (rows.map read)) ∧
      (s.fails ≠ none → r.ret = -1) := by
  cases hpresent : s.present tb with
  | true =>
      obtain ⟨r, hprints, hr⟩ := prints_fetching hpresent hread hcount
      exact ⟨r, hprints.when rfl, hr⟩
  | false =>
      rw [fetching_absent hpresent]
      refine ⟨if s.fails = none then fetchedRows (rows.map read)
        else ⟨-1, []⟩, printsWhen_stop (by simp) _ _ _, ?_⟩
      split <;> simp_all

theorem prints_queryLib (present : Table → Bool) (lib : Text) :
    Prints (queryLib present lib) ⟨⟩ [] := by
  rw [queryLib]
  split
  · exact ⟨rfl, rfl⟩
  · exact prints_pure _

/-- `caps_syms_view` prints the capabilities of a library where both tables are
there, even if a select fails. -/
theorem printsWhen_capsSymsView (h : FitsInt db) {lib : Text}
    (hquote : SqlText.QuoteFree lib) :
    PrintsWhen (present .capInfo = true ∧ present .elfSym = true)
      (printCapsSymsView env name present db lib .zero) .zero
      (symsViewCalls env name db lib) := by
  have hlib : (libCapInfo db lib).length < 2 ^ 31 :=
    (List.length_filter_le _ _).trans_lt h.capInfo
  have hquery : fetchCapInfoForLib env.other env.unset
      (env.snapshot present db .capInfo) 0 lib =
        getInfo (env.snapshot present db .capInfo) .capInfo
          ((libCapInfo db lib).map CapInfo.argv) capInfoQueryCallback 0 := by
    rw [fetchCapInfoForLib, libSelects_of_quoteFree env.other hquote]
    rfl
  obtain ⟨caps, hcaps, hcapRows, hcapFailed⟩ := printsWhen_present
    (env.snapshot present db .capInfo) .capInfo
    (fun c _ => capInfoQueryCallback_argv c) hlib
  obtain ⟨syms, hsyms, hsymRows, hsymFailed⟩ := printsWhen_present
    (env.snapshot present db .elfSym) .elfSym
    (fun s _ => symInfoQueryCallback_argv s) h.elfSym
  rw [List.map_id'] at hcapRows hsymRows
  have hshown : caps.ret = countShown env db lib ∧
      caps.cells = (capsShown env db lib).map some := by
    rw [countShown, capsShown]
    by_cases hfails : env.fails .capInfo = none
    · rw [if_pos hfails, if_pos hfails, hcapRows hfails]
      exact ⟨rfl, cells_fetchedRows _⟩
    · rw [if_neg hfails, if_neg hfails, Fetched.cells, hcapFailed hfails]
      exact ⟨rfl, rfl⟩
  have hfetched : SymsFetched (env.fails .elfSym).isSome db.elfSym syms :=
    ⟨fun hnone => hsymRows (Option.isSome_eq_false_iff.1 hnone |>
        Option.isNone_iff_eq_none.1),
      fun hsome => hsymFailed (Option.isSome_iff_ne_none.1 hsome)⟩
  rw [← hquery] at hcaps
  refine (prints_queryLib present lib).bind_when
    (hcaps.bind_silent (hsyms.then ?_))
  obtain ⟨hret, hcells⟩ := hshown
  have hrows : Prints (Run.loop (printSymsRow syms) ⟨⟩ caps.cells) ⟨⟩
      ((capsShown env db lib).flatMap fun c =>
        symsRowCalls (env.fails .elfSym).isSome (capSyms db.elfSym c)) := by
    rw [hcells]
    exact prints_rows fun c _ => prints_symsRow hfetched c
  rw [hret]
  exact (((prints_emitAll _).bind hrows).inItem .list
    "cap_sym_output").bind_last (prints_pure Indexes.zero)

/-! ### Items that are open -/

/-- The calls open and close nothing. -/
def PlainCalls (xs : List XoCall) : Prop :=
  ∀ x ∈ xs, (Act.xo x).kind = .plain

theorem plainCalls_append {xs ys : List XoCall} :
    PlainCalls (xs ++ ys) ↔ PlainCalls xs ∧ PlainCalls ys :=
  List.forall_mem_append

theorem plainCalls_banner (name : Text) : PlainCalls (banner name) := by
  intro x hx
  simp only [banner, List.mem_append, List.mem_cons,
    List.mem_replicate] at hx
  rcases hx with ⟨-, rfl⟩ | rfl | ⟨-, rfl⟩ <;> rfl

theorem plainCalls_symsBanner (name : Text) (count : Int) :
    PlainCalls (symsBanner name count) := by
  intro x hx
  simp only [symsBanner, List.mem_append, List.mem_cons,
    List.mem_replicate] at hx
  rcases hx with ⟨-, rfl⟩ | rfl | ⟨-, rfl⟩ <;> rfl

theorem plainCalls_vmRow (env : ViewEnv) (v : VmInfo) :
    PlainCalls (vmRowHead env v) ∧ PlainCalls (vmRowTail env v) := by
  simp [PlainCalls, vmRowHead, vmRowTail, protField, xoStr, xoInt, Act.kind]

theorem plainCalls_countFields (first last : String) (n : CapCounts)
    (total : Int) : PlainCalls (countFields first last n total) := by
  simp [PlainCalls, countFields, xoInt, Act.kind]

/-- What holds of the parts that a view is made of, and of runs made of such
runs. -/
structure ViewRule (Q : ∀ {α : Type}, Program α → Prop) : Prop where
  pure : ∀ {α : Type} (a : α), Q (pure a : Program α)
  stop : ∀ {α : Type} (s : Stop), Q (Run.stop s : Program α)
  bind : ∀ {α β : Type} {m : Program α} {f : α → Program β},
    Q m → (∀ a, Q (f a)) → Q (m >>= f)
  fetching : ∀ {α : Type} (m : Fetch α), Q (fetching m)
  emitAll : ∀ {xs : List XoCall}, PlainCalls xs → Q (emitAll xs)
  inItem : ∀ {α : Type} {m : Program α} (item : XoItem) (name : String),
    Q m → Q (inItem item name m)

namespace ViewRule

variable {Q : ∀ {α : Type}, Program α → Prop} (h : ViewRule Q)
include h

theorem loop {α β : Type} {f : β → α → Program β} (hf : ∀ b a, Q (f b a))
    (b : β) (as : List α) : Q (Run.loop f b as) := by
  induction as generalizing b with
  | nil => exact h.pure b
  | cons a as ih => exact h.bind (hf b a) fun b' => ih b'

theorem fetchAsserted {ρ : Type} (m : Fetch (Fetched ρ × CInt)) :
    Q (fetchAsserted m) := by
  refine h.bind (h.fetching m) fun r => ?_
  split
  · exact h.stop _
  · exact h.pure _

theorem readCell {ρ : Type} (cell : Option ρ) : Q (readCell cell) := by
  cases cell
  · exact h.stop _
  · exact h.pure _

theorem readCells {ρ : Type} (cells : List (Option ρ)) :
    Q (readCells cells) :=
  h.loop (fun _ cell => h.bind (h.readCell cell) fun _ => h.pure _) _ _

theorem formattedSym (syms : Fetched SymInfo) (addr : Text) :
    Q (formattedSym syms addr) := by
  refine h.bind ?_ fun _ => h.pure _
  induction syms.cells with
  | nil => exact h.pure _
  | cons cell rest ih =>
      cases cell with
      | none => exact h.stop _
      | some s =>
          rw [findSym]
          split
          · exact h.pure _
          · exact ih

theorem vmCapsView (index : Indexes) :
    Q (printVmCapsView env name present db index) := by
  have hrow : ∀ caps u cell, Q (printVmRow env caps u cell) :=
    fun caps u cell => h.inItem _ _ (h.bind (h.readCell cell) fun v =>
      h.bind (h.emitAll (plainCalls_vmRow env v).1) fun _ =>
      h.bind (h.readCells _) fun _ =>
      h.bind (h.emitAll (plainCalls_countFields _ _ _ _)) fun _ =>
      h.emitAll (plainCalls_vmRow env v).2)
  have htitles : PlainCalls [vmTitles env] := by
    simp [PlainCalls, vmTitles, Act.kind]
  exact h.bind (h.fetchAsserted _) fun _ =>
    h.bind (h.fetchAsserted _) fun caps =>
    h.bind (h.emitAll (plainCalls_append.2
      ⟨plainCalls_banner name, htitles⟩)) fun _ =>
    h.bind (h.inItem _ _ (h.loop (hrow caps.1) _ _)) fun _ => h.pure _

theorem compCapsView (index : Indexes) :
    Q (printCompCapsView env name present db index) := by
  have hrow : ∀ caps u cell, Q (printCompRow caps u cell) :=
    fun caps u cell => h.inItem _ _ (h.bind (h.readCell cell) fun _ =>
      h.bind (h.emitAll (by
        simp [PlainCalls, compRowHead, xoInt, xoStr, Act.kind])) fun _ =>
      h.bind (h.readCells _) fun _ =>
      h.emitAll (plainCalls_countFields _ _ _ _))
  have htitles : PlainCalls [compTitles] := by
    simp [PlainCalls, compTitles, Act.kind]
  exact h.bind (h.fetchAsserted _) fun _ =>
    h.bind (h.fetchAsserted _) fun caps =>
    h.bind (h.emitAll (plainCalls_append.2
      ⟨plainCalls_banner name, htitles⟩)) fun _ =>
    h.bind (h.inItem _ _ (h.loop (hrow caps.1) _ _)) fun _ => h.pure _

theorem capsSymsView {lib : Text} (hquery : Q (queryLib present lib))
    (index : Indexes) :
    Q (printCapsSymsView env name present db lib index) := by
  have hrow : ∀ syms u cell, Q (printSymsRow syms u cell) :=
    fun syms u cell => h.inItem _ _ (h.bind (h.readCell cell) fun _ =>
      h.bind (h.emitAll (by simp [PlainCalls, xoStr, Act.kind])) fun _ =>
      h.bind (h.formattedSym syms _) fun _ =>
      h.bind (h.emitAll (by simp [PlainCalls, xoStr, Act.kind])) fun _ =>
      h.bind (h.formattedSym syms _) fun _ =>
      h.emitAll (by simp [PlainCalls, xoStr, Act.kind]))
  have htitles : PlainCalls [symsTitles] := by
    simp [PlainCalls, symsTitles, Act.kind]
  exact h.bind hquery fun _ => h.bind (h.fetching _) fun _ =>
    h.bind (h.fetching _) fun syms =>
    h.bind (h.inItem _ _ (h.bind (h.emitAll (plainCalls_append.2
      ⟨plainCalls_symsBanner name _, htitles⟩)) fun _ =>
      h.loop (hrow syms.1) _ _)) fun _ => h.pure _

end ViewRule

/-- Actions that open and close nothing. -/
theorem nests_mapTrace {ε α : Type} {f : ε → Act}
    (hf : ∀ e, (f e).kind = .plain) (m : Run ε Stop α) :
    Run.Nests Act.kind (m.mapTrace f) := by
  refine Run.nests_of_emits fun e he => ?_
  obtain ⟨e', _, rfl⟩ := List.mem_map.1 he
  exact hf e'

theorem nests_rule : ViewRule (Run.Nests Act.kind) where
  pure := Run.nests_pure
  stop := Run.nests_stop
  bind := Run.Nests.bind
  fetching := nests_mapTrace fun _ => rfl
  emitAll h := Run.nests_of_emits fun e he => by
    obtain ⟨x, hx, rfl⟩ := List.mem_map.1 he
    exact h x hx
  inItem _ _ h := Run.Nests.window rfl rfl h

end Chericat
