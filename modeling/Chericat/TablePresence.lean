import Chericat.ScanHistory
import Chericat.ScanCompletes
import Chericat.SeenEntries

/-!
The tables that a database file has.  A statement about a table that is not
there fails.  The scan sends the `CREATE` of a table before anything else about
it, so that rows are lost only where a `CREATE` has failed.
-/

namespace Chericat

/-! ### Database files -/

/-- The table has no rows. -/
def Db.Vacant (db : Db) : Table → Prop
  | .vm => db.vm = []
  | .capInfo => db.capInfo = []
  | .elfSym => db.elfSym = []
  | .comparts => db.comparts = Comparts.empty

/-- The tables there are, and their rows; one that is not there has none. -/
structure Database where
  present : Table → Bool
  db : Db
  vacant : ∀ tb, present tb = false → db.Vacant tb

theorem Db.vacant_empty (tb : Table) : Db.empty.Vacant tb := by
  cases tb <;> rfl

/-- A new file, or one in memory. -/
def Database.new : Database :=
  ⟨fun _ => false, Db.empty, fun tb _ => Db.vacant_empty tb⟩

/-- The `CREATE` statement of a table. -/
def Table.ddl : Table → Text
  | .vm => vmTable
  | .capInfo => capInfoTable
  | .elfSym => elfSymTable
  | .comparts => compartsTable

/-- The table that a text creates. -/
def textCreates (text : Text) : Option Table :=
  [Table.vm, .capInfo, .elfSym, .comparts].find? (·.ddl = text)

/-- The table a statement creates. -/
def Statement.creates : Statement → Option Table
  | .createTable ddl => textCreates ddl
  | _ => none

/-- How the `CREATE` statement of a table begins. -/
def Table.ddlHead : Table → Text
  | .vm => "CREATE TABLE IF NOT EXISTS vm(".toList
  | .capInfo => "CREATE TABLE IF NOT EXISTS cap_info(".toList
  | .elfSym => "CREATE TABLE IF NOT EXISTS elf_sym(".toList
  | .comparts => "CREATE TABLE IF NOT EXISTS comparts(".toList

theorem prefix_append_toList {head : Text} {s u : String}
    (h : head <+: s.toList) : head <+: (s ++ u).toList := by
  rw [String.toList_append]
  exact h.trans (List.prefix_append _ _)

theorem ddlHead_isPrefix (tb : Table) : tb.ddlHead <+: tb.ddl := by
  cases tb with
  | vm =>
      iterate 11 refine prefix_append_toList ?_
      exact List.prefix_rfl
  | capInfo =>
      iterate 6 refine prefix_append_toList ?_
      exact List.prefix_rfl
  | elfSym =>
      iterate 7 refine prefix_append_toList ?_
      exact List.prefix_rfl
  | comparts =>
      iterate 7 refine prefix_append_toList ?_
      exact List.prefix_rfl

/-- The beginnings tell the statements apart. -/
theorem ddl_injective {tb tb' : Table} (h : tb.ddl = tb'.ddl) : tb = tb' := by
  have hheads : tb.ddlHead <+: tb'.ddlHead ∨ tb'.ddlHead <+: tb.ddlHead :=
    List.prefix_or_prefix_of_prefix (ddlHead_isPrefix tb)
      (h ▸ ddlHead_isPrefix tb')
  cases tb <;> cases tb' <;> first | rfl | exact absurd hheads (by decide)

theorem creates_ddl (tb : Table) :
    (Statement.createTable tb.ddl).creates = some tb := by
  have hkey : (fun tb' : Table => decide (tb'.ddl = tb.ddl)) =
      fun tb' => decide (tb' = tb) :=
    funext fun tb' => decide_eq_decide.2 ⟨ddl_injective, congrArg _⟩
  rw [Statement.creates, textCreates, hkey]
  cases tb <;> rfl

theorem Db.Vacant.run {db : Db} {tb : Table} (h : db.Vacant tb)
    {s : Statement} (hs : s.writes ≠ some tb) : (s.run db).Vacant tb := by
  cases s <;> cases tb <;> first | exact h | exact absurd rfl hs

/-- What becomes of the file when SQLite executes the statement. -/
def Statement.exec (s : Statement) (d : Database) : Database where
  present tb := d.present tb || s.creates = some tb
  db := if s.writes.all d.present then s.run d.db else d.db
  vacant := by
    intro tb habsent
    obtain ⟨hpresent, -⟩ := Bool.or_eq_false_iff.1 habsent
    have hvacant := d.vacant tb hpresent
    split
    · next hall =>
        refine hvacant.run fun hwrites => ?_
        rw [hwrites, Option.all_some, hpresent] at hall
        cases hall
    · exact hvacant

def execAll (ss : List Statement) (d : Database) : Database :=
  ss.foldl (fun d s => s.exec d) d

theorem execAll_concat (ss : List Statement) (s : Statement) (d : Database) :
    execAll (ss ++ [s]) d = s.exec (execAll ss d) := by
  rw [execAll, List.foldl_append]
  rfl

theorem present_execAll (ss : List Statement) (d : Database) (tb : Table) :
    (execAll ss d).present tb = true ↔
      d.present tb = true ∨ ∃ s ∈ ss, s.creates = some tb := by
  induction ss using List.reverseRecOn with
  | nil => simp [execAll]
  | append_singleton ss s ih =>
      rw [execAll_concat, Statement.exec]
      simp only [Bool.or_eq_true, ih, decide_eq_true_eq, or_assoc,
        List.mem_append, List.mem_singleton, or_and_right, exists_or,
        exists_eq_left]

/-! ### Texts on files -/

/-- The table that an operation changes. -/
def RowOp.table : RowOp → Table
  | .insertVm _ => .vm
  | .insertCapInfo _ => .capInfo
  | .insertElfSym _ => .elfSym
  | .replaceCompart _ => .comparts
  | .updateCompartName _ _ => .comparts
  | .updateSections _ _ _ _ _ => .vm

theorem Db.Vacant.runOps {ops : List RowOp} {db : Db} {tb : Table}
    (h : db.Vacant tb) (hops : ∀ op ∈ ops, op.table ≠ tb) :
    (ops.foldl RowOp.run db).Vacant tb := by
  induction ops generalizing db with
  | nil => exact h
  | cons op ops ih =>
      rw [List.forall_mem_cons] at hops
      refine ih ?_ hops.2
      cases op <;> cases tb <;> first | exact h | exact absurd rfl hops.1

/-- What becomes of the file when SQLite executes the text: an operation on a
table that is not there fails. -/
def execText (text : Text) (d : Database) : Database where
  present tb := d.present tb || textCreates text = some tb
  db :=
    match textOps text with
    | some ops =>
        if ops.all fun op => d.present op.table then ops.foldl RowOp.run d.db
        else d.db
    | none => d.db
  vacant := by
    intro tb habsent
    obtain ⟨hpresent, -⟩ := Bool.or_eq_false_iff.1 habsent
    have hvacant := d.vacant tb hpresent
    split
    · next ops _ =>
        split
        · next hall =>
            refine hvacant.runOps fun op hop htable => ?_
            rw [← htable, List.all_eq_true.1 hall op hop] at hpresent
            cases hpresent
        · exact hvacant
    · exact hvacant

def execFile (ss : List Statement) (d : Database) : Database :=
  ss.foldl (fun d s => execText s.text d) d

theorem Database.ext {d d' : Database} (hpresent : d.present = d'.present)
    (hdb : d.db = d'.db) : d = d' := by
  cases d
  cases d'
  cases hpresent
  cases hdb
  rfl

theorem present_execText {s : Statement}
    (hcreates : textCreates s.text = s.creates) (d : Database) :
    (execText s.text d).present = (s.exec d).present := by
  funext tb
  change (d.present tb || decide (textCreates s.text = some tb)) =
    (d.present tb || decide (s.creates = some tb))
  rw [hcreates]

/-- A text that is read as operations on the table of its statement. -/
theorem execText_eq_exec {s : Statement} {ops : List RowOp}
    (hfaithful : s.Faithful) (hcreates : textCreates s.text = s.creates)
    (hops : textOps s.text = some ops) (hne : ops ≠ [])
    (htable : ∀ op ∈ ops, s.writes = some op.table) (d : Database) :
    execText s.text d = s.exec d := by
  have hall : (ops.all fun op => d.present op.table) =
      s.writes.all d.present := by
    obtain ⟨op, hop⟩ := List.exists_mem_of_ne_nil ops hne
    rw [htable op hop, Option.all_some, Bool.eq_iff_iff, List.all_eq_true]
    refine ⟨fun h => h op hop, fun h op' hop' => ?_⟩
    rwa [← Option.some.inj ((htable op hop).symm.trans (htable op' hop'))]
  have hrun := hfaithful d.db
  rw [sqlite3Exec, hops, Option.map_some, Option.getD_some] at hrun
  refine Database.ext (present_execText hcreates d) ?_
  simp only [execText, Statement.exec, hops, hall, hrun]

theorem head_append {hdr rest : Text} {c : Char} (h : hdr.head? = some c) :
    (hdr ++ rest).head? = some c := by
  rw [List.head?_append, h, Option.some_or]

/-- A text that does not begin as a `CREATE` statement does. -/
theorem textCreates_of_head {text : Text} (h : text.head? ≠ some 'C') :
    textCreates text = none := by
  have hddl : ∀ tb : Table, tb.ddl.head? = some 'C' := by
    intro tb
    obtain ⟨rest, hrest⟩ := ddlHead_isPrefix tb
    rw [← hrest]
    exact head_append (by cases tb <;> rfl)
  rw [textCreates, List.find?_eq_none]
  intro tb _ heq
  exact h (of_decide_eq_true heq ▸ hddl tb)

/-- Only the texts of `CREATE` statements create tables. -/
theorem textCreates_text {s : Statement} (h : s.Plain) :
    textCreates s.text = s.creates := by
  have hI : ∀ hdr rest : Text, hdr.head? = some 'I' →
      textCreates (hdr ++ rest) = none := fun hdr rest hhead =>
    textCreates_of_head (by rw [head_append hhead]; decide)
  have hU : ∀ hdr rest : Text, hdr.head? = some 'U' →
      textCreates (hdr ++ rest) = none := fun hdr rest hhead =>
    textCreates_of_head (by rw [head_append hhead]; decide)
  cases s with
  | createTable ddl => rfl
  | insertVm b | insertCapInfo b | insertElfSym b | replaceDefault c
  | replaceSubcompart c =>
      rw [Statement.text, List.append_assoc]
      exact hI _ _ rfl
  | updateCompartName name id =>
      simp only [Statement.text, List.append_assoc]
      exact hU _ _ rfl
  | updateVm u =>
      unfold Statement.text SectionUpdate.text
      simp only [List.append_assoc]
      exact hU _ _ rfl
  | indeterminate hdr values => exact h.elim

/-- A text without quotes has the effect of its statement. -/
theorem execText_eq {s : Statement} (h : s.Plain) (hname : s.NamesNoColumn)
    (d : Database) : execText s.text d = s.exec d := by
  have hcreates := textCreates_text h
  have hfaithful := h.faithful hname
  cases s with
  | createTable ddl =>
      have hexec : ((Statement.createTable ddl).exec d).db = d.db := rfl
      refine Database.ext (present_execText hcreates d) ?_
      rw [hexec]
      simp only [execText, Statement.text, textOps_create h]
  | insertVm b =>
      exact execText_eq_exec hfaithful hcreates
        ((textOps_iff rfl).2 h) (by simpa using b.nonempty)
        (List.forall_mem_map.2 fun _ _ => rfl) d
  | insertCapInfo b =>
      exact execText_eq_exec hfaithful hcreates
        ((textOps_iff rfl).2 h) (by simpa using b.nonempty)
        (List.forall_mem_map.2 fun _ _ => rfl) d
  | insertElfSym b =>
      exact execText_eq_exec hfaithful hcreates
        ((textOps_iff rfl).2 h) (by simpa using b.nonempty)
        (List.forall_mem_map.2 fun _ _ => rfl) d
  | replaceDefault c =>
      exact execText_eq_exec hfaithful hcreates
        ((textOps_iff rfl).2 (rowClean_defaultCompart h)) (List.cons_ne_nil _ _)
        (List.forall_mem_singleton.2 rfl) d
  | replaceSubcompart c =>
      exact execText_eq_exec hfaithful hcreates
        ((textOps_iff rfl).2 (rowClean_subcompart h)) (List.cons_ne_nil _ _)
        (List.forall_mem_singleton.2 rfl) d
  | updateCompartName name id =>
      exact execText_eq_exec hfaithful hcreates
        ((textOps_iff rfl).2 ⟨h, hname⟩) (List.cons_ne_nil _ _)
        (List.forall_mem_singleton.2 rfl) d
  | updateVm u =>
      exact execText_eq_exec hfaithful hcreates
        (textOps_updateVm h.1 h.2) (List.cons_ne_nil _ _)
        (List.forall_mem_singleton.2 rfl) d
  | indeterminate hdr values => exact h.elim

theorem execFile_eq {ss : List Statement}
    (h : ∀ s ∈ ss, s.Plain ∧ s.NamesNoColumn) (d : Database) :
    execFile ss d = execAll ss d := by
  induction ss generalizing d with
  | nil => rw [execFile, execAll, List.foldl_nil, List.foldl_nil]
  | cons s ss ih =>
      rw [List.forall_mem_cons] at h
      rw [execFile, List.foldl_cons, execText_eq h.1.1 h.1.2]
      exact ih h.2 _

/-! ### Statements that meet their table -/

/-- Every statement about the table comes behind its `CREATE`. -/
def Guarded (tb : Table) (ss : List Statement) : Prop :=
  ∀ before s after, ss = before ++ s :: after → s.writes = some tb →
    ∃ c ∈ before, c.creates = some tb

variable {tb : Table} {ss more : List Statement}

theorem guarded_nil : Guarded tb [] := by
  intro before s after h
  simp at h

theorem guarded_concat_iff {s : Statement} :
    Guarded tb (ss ++ [s]) ↔ Guarded tb ss ∧
      (s.writes = some tb → ∃ c ∈ ss, c.creates = some tb) := by
  constructor
  · intro h
    refine ⟨fun before s' after hsplit => ?_, h ss s [] rfl⟩
    exact h before s' (after ++ [s]) (by simp [hsplit])
  · rintro ⟨h, hlast⟩ before s' after hsplit
    rcases concat_eq_split.1 hsplit with ⟨rfl, rfl, -⟩ | ⟨after', rfl, -⟩
    · exact hlast
    · exact h before s' after' rfl

theorem guarded_of_spare (h : Spare tb ss) : Guarded tb ss := by
  rintro before s after rfl hwrites
  exact absurd hwrites (h s (by simp))

theorem Guarded.append (h : Guarded tb ss) (hmore : Guarded tb more) :
    Guarded tb (ss ++ more) := by
  induction more using List.reverseRecOn with
  | nil => rwa [List.append_nil]
  | append_singleton more s ih =>
      rw [guarded_concat_iff] at hmore
      rw [← List.append_assoc, guarded_concat_iff]
      refine ⟨ih hmore.1, fun hwrites => ?_⟩
      obtain ⟨c, hc, hcreates⟩ := hmore.2 hwrites
      exact ⟨c, List.mem_append_right _ hc, hcreates⟩

/-- Behind its `CREATE` a table is there. -/
theorem Guarded.append_of_creates (h : Guarded tb ss)
    (hcreate : ∃ c ∈ ss, c.creates = some tb) (more : List Statement) :
    Guarded tb (ss ++ more) := by
  induction more using List.reverseRecOn with
  | nil => rwa [List.append_nil]
  | append_singleton more s ih =>
      rw [← List.append_assoc, guarded_concat_iff]
      obtain ⟨c, hc, hcreates⟩ := hcreate
      exact ⟨ih, fun _ => ⟨c, List.mem_append_left _ hc, hcreates⟩⟩

/-- Statements that find their tables act on the rows as they are meant to. -/
theorem db_execAll {d : Database}
    (h : ∀ tb, d.present tb = true ∨ Guarded tb ss) :
    (execAll ss d).db = runAll ss d.db := by
  induction ss using List.reverseRecOn with
  | nil => rfl
  | append_singleton ss s ih =>
      have hall : s.writes.all (execAll ss d).present = true := by
        cases hwrites : s.writes with
        | none => rfl
        | some tb =>
            rw [Option.all_some, present_execAll]
            exact (h tb).imp_right fun hg =>
              (guarded_concat_iff.1 hg).2 hwrites
      have hexec : (s.exec (execAll ss d)).db = s.run (execAll ss d).db :=
        if_pos hall
      rw [execAll_concat, hexec,
        ih fun tb => (h tb).imp_right fun hg => (guarded_concat_iff.1 hg).1,
        runAll, runAll, List.foldl_append]
      rfl

/-- Those that do not find their tables are as good as failed. -/
theorem exists_sublist_execAll (ss : List Statement) (d : Database) :
    ∃ ss', ss'.Sublist ss ∧ (execAll ss d).db = runAll ss' d.db := by
  induction ss using List.reverseRecOn with
  | nil => exact ⟨[], List.Sublist.refl _, rfl⟩
  | append_singleton ss s ih =>
      obtain ⟨ss', hsub, hdb⟩ := ih
      rw [execAll_concat, Statement.exec]
      dsimp only
      split
      · refine ⟨ss' ++ [s], hsub.append (List.Sublist.refl _), ?_⟩
        rw [hdb, runAll, runAll, List.foldl_append]
        rfl
      · exact ⟨ss', hsub.trans (List.sublist_append_left _ _), hdb⟩

/-! ### The statements of a scan -/

section Runs

variable {α : Type} {m : Scan α}

/-- The run sends the `CREATE` of the table before anything else about it. -/
def GuardsTable (tb : Table) (m : Scan α) : Prop :=
  Guarded tb (statements m.trace)

theorem guards_of_spares (h : Run.Emits (Event.Spares tb) m) :
    GuardsTable tb m :=
  guarded_of_spare (spare_statements h)

theorem GuardsTable.bind {β : Type} {f : α → Scan β} (hm : GuardsTable tb m)
    (hf : ∀ a, GuardsTable tb (f a)) : GuardsTable tb (m >>= f) := by
  rcases hok : m.outcome with s | a
  · rw [GuardsTable, Run.bind_error hok]
    exact hm
  · rw [GuardsTable, Run.trace_bind_ok hok, statements_append]
    exact Guarded.append hm (hf a)

theorem GuardsTable.loop {β : Type} {f : β → α → Scan β}
    (hf : ∀ b a, GuardsTable tb (f b a)) (b : β) (as : List α) :
    GuardsTable tb (Run.loop f b as) := by
  induction as generalizing b with
  | nil => exact guarded_nil
  | cons a as ih => exact (hf b a).bind fun b' => ih b'

end Runs

theorem guards_getElfInfo (file : ElfFile) (source : Text)
    (sourceBase : ULong) :
    GuardsTable .elfSym (getElfInfo file source sourceBase) := by
  have hcreate : Guarded .elfSym [Statement.createTable elfSymTable] :=
    guarded_of_spare (by simp [Spare, Statement.writes])
  rw [GuardsTable, getElfInfo, sqlQueryExec,
    Run.trace_bind_ok (Run.outcome_emit _), statements_append]
  exact hcreate.append_of_creates
    ⟨_, List.mem_singleton_self _, creates_ddl .elfSym⟩ _

theorem guards_parseFile (t : Target) (st : ScanState)
    (kivp : KinfoVmentry) : GuardsTable .elfSym (parseFile t st kivp) := by
  have hread : ∀ path, GuardsTable .elfSym (readElf t path) := by
    intro path
    rw [readElf]
    split <;> exact guarded_nil
  rw [parseFile]
  split
  · exact guarded_nil
  · split
    · exact guarded_nil
    · exact (hread _).bind fun file =>
        (guards_getElfInfo file _ _).bind fun _ => guarded_nil

theorem guards_scanMap (t : Target) (map : List KinfoVmentry) :
    GuardsTable .elfSym (scanMap t map) := by
  have hcomparts : Table.comparts ≠ .elfSym := nofun
  have hcap : Table.capInfo ≠ .elfSym := nofun
  have hvm : Table.vm ≠ .elfSym := nofun
  have hentry : ∀ comparts st entry,
      GuardsTable .elfSym (scanEntry t comparts st entry) :=
    fun comparts st entry => (guards_parseFile t st entry.1).bind fun st =>
      (guards_of_spares (spares_of_writes (writes_scanBlock t entry.2 entry.1
        (mmapPath t st entry.1)) hcap)).bind fun _ => guarded_nil
  have hupdate : ∀ u r, GuardsTable .elfSym (updateStep u r) := by
    intro u r
    have hspare : Spare .elfSym [.updateVm (sectionUpdate r)] := by
      simp [Spare, Statement.writes]
    exact guarded_of_spare hspare
  exact (guards_of_spares (spares_of_writes writes_createTables hcomparts)).bind
    fun _ => (guards_of_spares
      (spares_of_writes (writes_getRDebug t) hcomparts)).bind fun debug =>
    (guards_of_spares (spares_of_writes
      (writes_scanRtldLinkmap t debug) hcomparts)).bind fun comparts =>
    (guards_of_spares (spares_of_writes
      (writes_scanRComparts t debug) hcomparts)).bind fun _ =>
    (GuardsTable.loop (hentry comparts) _ _).bind fun st =>
    (guards_of_spares (spares_of_writes
      (writes_insertVmEntries t st.values) hvm)).bind fun _ =>
    GuardsTable.loop hupdate _ _

/-- The tables that are created first. -/
def createdFirst : List Table := [.capInfo, .vm, .comparts]

/-- What a scan sends starts with their `CREATE` statements, if it finds the
map. -/
theorem scanStatements_cases (t : Target) :
    (FindsMap t ∧ ∃ rest, scanStatements t =
      createdFirst.map (fun tb => .createTable tb.ddl) ++ rest) ∨
      ¬ FindsMap t ∧ scanStatements t = [] := by
  by_cases hfound : FindsMap t
  · obtain ⟨hprocs, map, hmap⟩ := hfound
    refine .inl ⟨⟨hprocs, map, hmap⟩, ?_⟩
    rw [scanStatements, scanMem_of_map hprocs hmap, scanMap,
      Run.trace_bind_ok createTables_ok, statements_append]
    exact ⟨_, rfl⟩
  · refine .inr ⟨hfound, ?_⟩
    rw [scanStatements, scanMem_of_noMap hfound]
    rfl

/-- A scan sends the `CREATE` of a table before anything else about it. -/
theorem guarded_scan (tb : Table) (t : Target) :
    Guarded tb (scanStatements t) := by
  have hcreates : Spare tb
      (createdFirst.map fun tb => .createTable tb.ddl) := by
    intro s hs
    obtain ⟨_, _, rfl⟩ := List.mem_map.1 hs
    exact nofun
  rcases scanStatements_cases t with ⟨hfound, rest, hrest⟩ | ⟨-, hnone⟩
  · by_cases hfirst : tb ∈ createdFirst
    · rw [hrest]
      exact (guarded_of_spare hcreates).append_of_creates
        ⟨_, List.mem_map_of_mem hfirst, creates_ddl tb⟩ rest
    · have helf : tb = .elfSym := by
        cases tb <;> simp [createdFirst] at hfirst ⊢
      obtain ⟨hprocs, map, hmap⟩ := hfound
      rw [helf, scanStatements, scanMem_of_map hprocs hmap]
      exact guards_scanMap t map
  · rw [hnone]
    exact guarded_nil

/-! ### Scans into a file -/

theorem succeeded_cons (ok : Nat → Bool) (s : Statement)
    (ss : List Statement) : succeeded ok (s :: ss) =
      if ok 0 then s :: succeeded (fun i => ok (i + 1)) ss
      else succeeded (fun i => ok (i + 1)) ss := by
  rw [succeeded, List.zipIdx_cons, List.filter_cons, List.zipIdx_succ,
    List.filter_map, succeeded]
  split <;> simp [Function.comp_def]

theorem succeeded_concat (ok : Nat → Bool) (ss : List Statement)
    (s : Statement) : succeeded ok (ss ++ [s]) =
      succeeded ok ss ++ if ok ss.length then [s] else [] := by
  rw [succeeded, List.zipIdx_append, List.filter_append, List.map_append]
  cases hok : ok ss.length <;> simp [succeeded, hok]

theorem succeeded_congr {ok ok' : Nat → Bool}
    (h : ∀ i < ss.length, ok i = ok' i) :
    succeeded ok ss = succeeded ok' ss := by
  induction ss generalizing ok ok' with
  | nil => rfl
  | cons s ss ih =>
      rw [succeeded_cons, succeeded_cons, h 0 (Nat.zero_lt_succ _),
        ih fun i hi => h (i + 1) (Nat.succ_lt_succ hi)]

/-- Any choice of statements are those that succeed in some case. -/
theorem exists_succeeded {ss ss' : List Statement} (h : ss'.Sublist ss) :
    ∃ ok, succeeded ok ss = ss' := by
  induction h with
  | slnil => exact ⟨fun _ => true, rfl⟩
  | cons s _ ih =>
      obtain ⟨ok, rfl⟩ := ih
      refine ⟨fun | 0 => false | i + 1 => ok i, ?_⟩
      rw [succeeded_cons]
      rfl
  | cons_cons s _ ih =>
      obtain ⟨ok, rfl⟩ := ih
      refine ⟨fun | 0 => true | i + 1 => ok i, ?_⟩
      rw [succeeded_cons]
      rfl

theorem succeeded_sublist (ok : Nat → Bool) (ss : List Statement) :
    (succeeded ok ss).Sublist ss := by
  have hsub : (succeeded ok ss).Sublist (ss.zipIdx.map Prod.fst) :=
    List.filter_sublist.map Prod.fst
  rwa [List.zipIdx_map_fst] at hsub

/-- A statement that succeeds is kept. -/
theorem mem_succeeded {ok : Nat → Bool} {s : Statement} {i : Nat}
    (hs : ss[i]? = some s) (hok : ok i = true) : s ∈ succeeded ok ss := by
  refine List.mem_map.2 ⟨(s, i), List.mem_filter.2 ⟨?_, hok⟩, rfl⟩
  exact List.mem_zipIdx_iff_getElem?.2 hs

/-- `create_vm_cap_db` sends the `CREATE` of `vm` when that of `cap_info` has
succeeded. -/
def sentAndOk (ok : Nat → Bool) (ss : List Statement) (i : Nat) : Bool :=
  ok i && ((ss[i]?.bind Statement.creates) ≠ some .vm || ok 0)

/-- The statements of a scan that succeed, their tables apart. -/
def sentStatements (ok : Nat → Bool) (t : Target) : List Statement :=
  succeeded (sentAndOk ok (scanStatements t)) (scanStatements t)

/-- The file after a call of `scan_mem`, `ok` telling which of its statements
do not fail for other reasons. -/
def scanInto (ok : Nat → Bool) (t : Target) (d : Database) : Database :=
  execFile (sentStatements ok t) d

/-- Where its texts are read as they are meant. -/
theorem ScanJob.Clean.scanInto_eq {j : ScanJob} (h : j.Clean) (d : Database) :
    scanInto j.ok j.target d = execAll (sentStatements j.ok j.target) d := by
  refine execFile_eq (fun s hs => ?_) d
  have hsent := mem_of_mem_succeeded hs
  exact ⟨plain_statements h.texts s hsent,
    namesNoColumn_statements h.texts h.array s hsent⟩

/-- The rows after a scan are those of a scan in which some statements
failed. -/
theorem ScanJob.Clean.exists_scanInto {j : ScanJob} (h : j.Clean)
    (d : Database) : ∃ ok, (scanInto j.ok j.target d).db =
      dbScannedSome ok j.target d.db := by
  obtain ⟨ss', hsub, hdb⟩ :=
    exists_sublist_execAll (sentStatements j.ok j.target) d
  obtain ⟨ok, hok⟩ :=
    exists_succeeded (hsub.trans (succeeded_sublist _ _))
  refine ⟨ok, ?_⟩
  rw [h.scanInto_eq, hdb, dbScannedSome_eq h.texts h.array, dbAfterSome]
  exact congrArg (runAll · d.db) hok.symm

/-- No `CREATE` of the scan fails. -/
def CreatesSucceed (ok : Nat → Bool) (t : Target) : Prop :=
  ∀ (i : Nat) s, (scanStatements t)[i]? = some s → s.creates ≠ none →
    ok i = true

theorem CreatesSucceed.sentStatements_eq {ok : Nat → Bool} {t : Target}
    (h : CreatesSucceed ok t) :
    sentStatements ok t = succeeded ok (scanStatements t) := by
  refine succeeded_congr fun i hi => ?_
  rcases scanStatements_cases t with ⟨-, rest, hrest⟩ | ⟨-, hnone⟩
  · have hfirst := h 0 (.createTable Table.capInfo.ddl)
      (by simp [hrest, createdFirst]) (by simp [creates_ddl])
    simp [sentAndOk, hfirst]
  · simp [hnone] at hi

theorem Guarded.succeeded {ok : Nat → Bool} (h : Guarded tb ss)
    (hok : ∀ (i : Nat) s, ss[i]? = some s → s.creates ≠ none → ok i = true) :
    Guarded tb (succeeded ok ss) := by
  induction ss using List.reverseRecOn with
  | nil => exact guarded_nil
  | append_singleton ss s ih =>
      rw [guarded_concat_iff] at h
      have hold : ∀ (i : Nat) s', ss[i]? = some s' → s'.creates ≠ none →
          ok i = true := by
        intro i s' hs'
        refine hok i s' ?_
        obtain ⟨hi, rfl⟩ := List.getElem?_eq_some_iff.1 hs'
        rw [List.getElem?_append_left hi, List.getElem?_eq_getElem hi]
      rw [succeeded_concat]
      split
      · refine guarded_concat_iff.2 ⟨ih h.1 hold, fun hwrites => ?_⟩
        obtain ⟨c, hc, hcreates⟩ := h.2 hwrites
        obtain ⟨i, hi⟩ := List.mem_iff_getElem?.1 hc
        exact ⟨c, mem_succeeded hi (hold i c hi (by simp [hcreates])),
          hcreates⟩
      · rw [List.append_nil]
        exact ih h.1 hold

/-- Without failed `CREATE` statements the rows are those of the statements
that succeed. -/
theorem ScanJob.Clean.db_scanInto {j : ScanJob} (hj : j.Clean)
    (h : CreatesSucceed j.ok j.target) (d : Database) :
    (scanInto j.ok j.target d).db = dbScannedSome j.ok j.target d.db := by
  rw [hj.scanInto_eq, h.sentStatements_eq,
    db_execAll fun tb => .inr ((guarded_scan tb j.target).succeeded h),
    hj.scanned_eq]
  rfl

/-- The scan sends the `CREATE` of the table. -/
def CreatesTable (t : Target) (tb : Table) : Prop :=
  ∃ s ∈ scanStatements t, s.creates = some tb

theorem ScanJob.Clean.present_scanInto {j : ScanJob} (hj : j.Clean)
    (h : CreatesSucceed j.ok j.target) (d : Database) (tb : Table) :
    (scanInto j.ok j.target d).present tb = true ↔
      d.present tb = true ∨ CreatesTable j.target tb := by
  rw [hj.scanInto_eq, h.sentStatements_eq, present_execAll]
  refine or_congr_right ⟨?_, ?_⟩
  · rintro ⟨s, hs, hcreates⟩
    exact ⟨s, mem_of_mem_succeeded hs, hcreates⟩
  · rintro ⟨s, hs, hcreates⟩
    obtain ⟨i, hi⟩ := List.mem_iff_getElem?.1 hs
    exact ⟨s, mem_succeeded hi (h i s hi (by simp [hcreates])), hcreates⟩

/-- A table that is there stays there, whatever fails. -/
theorem ScanJob.Clean.present_of_present {j : ScanJob} (hj : j.Clean)
    {d : Database} {tb : Table} (h : d.present tb = true) :
    (scanInto j.ok j.target d).present tb = true := by
  rw [hj.scanInto_eq, present_execAll]
  exact .inl h

/-- `vm` is never there without `cap_info`, whatever fails. -/
theorem ScanJob.Clean.capInfo_of_vm {j : ScanJob} (hj : j.Clean)
    {d : Database} (h : d.present .vm = true → d.present .capInfo = true)
    (hvm : (scanInto j.ok j.target d).present .vm = true) :
    (scanInto j.ok j.target d).present .capInfo = true := by
  rw [hj.scanInto_eq, present_execAll] at hvm ⊢
  rcases hvm with hvm | ⟨s, hs, hcreates⟩
  · exact .inl (h hvm)
  · right
    obtain ⟨⟨s', i⟩, hmem, rfl⟩ := List.mem_map.1 hs
    obtain ⟨hmem, hok⟩ := List.mem_filter.1 hmem
    have hi := List.mem_zipIdx_iff_getElem?.1 hmem
    -- the `CREATE` of `cap_info`, sent first, has succeeded
    have hfirst : j.ok 0 = true := by
      dsimp only at hi hcreates hok
      simpa [sentAndOk, hi, hcreates] using
        (Bool.and_eq_true_iff.1 hok).2
    rcases scanStatements_cases j.target with ⟨-, rest, hrest⟩ | ⟨-, hnone⟩
    · have hcreate : (scanStatements j.target)[0]? =
          some (.createTable Table.capInfo.ddl) := by
        simp [hrest, createdFirst]
      refine ⟨_, mem_succeeded hcreate ?_, creates_ddl .capInfo⟩
      simp [sentAndOk, hfirst]
    · rw [hnone] at hi
      cases hi

theorem createsTable_iff {t : Target} {tb : Table} (h : tb ∈ createdFirst) :
    CreatesTable t tb ↔ FindsMap t := by
  rcases scanStatements_cases t with ⟨hfound, rest, hrest⟩ | ⟨hlost, hnone⟩
  · refine iff_of_true ⟨.createTable tb.ddl, ?_, creates_ddl tb⟩ hfound
    rw [hrest]
    exact List.mem_append_left _ (List.mem_map_of_mem h)
  · refine iff_of_false ?_ hlost
    rintro ⟨s, hs, -⟩
    rw [hnone] at hs
    cases hs

end Chericat
