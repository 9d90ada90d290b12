import Chericat.MemScan
import Chericat.StatementText

/-!
Statements that SQLite reads as they are meant: those whose strings hold no
double quote.  A name that is given to a compartment must not be that of a
column either, but whatever it is it changes `comparts` only.
-/

namespace Chericat

open Numeral SqlText

/-! ### Statements that create a table -/

theorem parse_create (ts : List Token) :
    parse (.word "CREATE".toList :: ts) = none := by
  unfold parse
  split
  · next a b c rest heq =>
      cases heq
      rw [if_neg (by decide), if_neg (by decide)]
  · rfl

/-- A text that begins with `CREATE` is no statement on rows. -/
theorem readStatement_create (rest : Text) :
    readStatement ("CREATE ".toList ++ rest) = none := by
  have hrun : runLex .between "CREATE ".toList =
      some ([.word "CREATE".toList], .between) := by decide
  rw [readStatement, lex, lexFrom_append hrun]
  rcases lexFrom .between rest with - | ts
  · rfl
  · exact parse_create ts

theorem isInit_toList_append {p : Text} {s t : String} (h : p <+: s.toList) :
    p <+: (s ++ t).toList := by
  rw [String.toList_append]
  exact List.prefix_append_of_prefix h

/-- The text begins with `CREATE`. -/
def IsCreate (ddl : Text) : Prop := "CREATE ".toList <+: ddl

theorem creates_capInfo : IsCreate capInfoTable := by
  unfold IsCreate capInfoTable
  iterate 6 apply isInit_toList_append
  decide

theorem creates_vm : IsCreate vmTable := by
  unfold IsCreate vmTable
  iterate 11 apply isInit_toList_append
  decide

theorem creates_comparts : IsCreate compartsTable := by
  unfold IsCreate compartsTable
  iterate 7 apply isInit_toList_append
  decide

theorem creates_elfSym : IsCreate elfSymTable := by
  unfold IsCreate elfSymTable
  iterate 7 apply isInit_toList_append
  decide

theorem textOps_create {ddl : Text} (h : IsCreate ddl) :
    textOps ddl = none := by
  obtain ⟨rest, rfl⟩ := h
  rw [textOps, readStatement_create]
  rfl

theorem createTable_faithful {ddl : Text} (h : IsCreate ddl) :
    (Statement.createTable ddl).Faithful := by
  intro db
  rw [sqlite3Exec, Statement.text, textOps_create h]
  rfl

/-! ### The statement on the section columns -/

/-- The tokens of the statement, whatever its strings are. -/
theorem parse_updateVm (a b c d path : Text) :
    parse [.word "UPDATE".toList, .word "vm".toList, .word "SET".toList,
      .word "plt_addr".toList, .equals, .quoted a, .comma,
      .word "plt_size".toList, .equals, .quoted b, .comma,
      .word "got_addr".toList, .equals, .quoted c, .comma,
      .word "got_size".toList, .equals, .quoted d,
      .word "WHERE".toList, .word "mmap_path".toList, .equals, .quoted path,
      .semi] = some (.update "vm".toList
        [("plt_addr".toList, .quoted a), ("plt_size".toList, .quoted b),
          ("got_addr".toList, .quoted c), ("got_size".toList, .quoted d)]
        "mmap_path".toList (.quoted path)) := by rfl

/-- The statement is read with its own path in the condition. -/
theorem readStatement_updateVm {u : SectionUpdate}
    (h : QuoteFree u.mmapPath) :
    readStatement u.text = some (.update "vm".toList
      [("plt_addr".toList, .quoted (hexText u.pltAddr.toNat)),
        ("plt_size".toList, .quoted (hexText u.pltSize.toNat)),
        ("got_addr".toList, .quoted (hexText u.gotAddr.toNat)),
        ("got_size".toList, .quoted (hexText u.gotSize.toNat))]
      "mmap_path".toList (.quoted u.mmapPath)) := by
  have hhex : ∀ n : ULong, (Expr.quoted (hexText n.toNat)).Clean := fun n =>
    quoteFree_hexText n.toNat
  have hpath : (Expr.quoted u.mmapPath).Clean := h
  have hcomma : IsDelimiter ',' := Or.inl rfl
  have hspace : IsDelimiter ' ' := Or.inr (Or.inr (Or.inr rfl))
  have hsemi : IsDelimiter ';' := Or.inr (Or.inr (Or.inl rfl))
  have hset : runLex .between "UPDATE vm SET plt_addr=".toList =
      some ([.word "UPDATE".toList, .word "vm".toList, .word "SET".toList,
        .word "plt_addr".toList, .equals], .between) := by rfl
  have hpltSize : runLex .between ", plt_size=".toList =
      some ([.comma, .word "plt_size".toList, .equals], .between) := by rfl
  have hgotAddr : runLex .between ", got_addr=".toList =
      some ([.comma, .word "got_addr".toList, .equals], .between) := by rfl
  have hgotSize : runLex .between ", got_size=".toList =
      some ([.comma, .word "got_size".toList, .equals], .between) := by rfl
  have hwhere : runLex .between " WHERE mmap_path=".toList =
      some ([.word "WHERE".toList, .word "mmap_path".toList, .equals],
        .between) := by rfl
  have hlex := lexFrom_text hpath hsemi []
  rw [lexFrom_semi, prepend_some] at hlex
  unfold readStatement lex SectionUpdate.text hexField
  simp only [List.append_assoc]
  rw [lexFrom_append hset, lexFrom_text_append (hhex _) hcomma rfl hpltSize,
    lexFrom_text_append (hhex _) hcomma rfl hgotAddr,
    lexFrom_text_append (hhex _) hcomma rfl hgotSize,
    lexFrom_text_append (hhex _) hspace rfl hwhere, hlex]
  simp only [prepend_some, Option.bind_some, Expr.tokens, List.cons_append,
    List.nil_append]
  exact parse_updateVm _ _ _ _ _

/-- No address text is the name of a column, which begins with a letter. -/
theorem hexText_not_column (n : Nat) : lower (hexText n) ∉ vmNames := by
  have hfirst : ∀ w ∈ vmNames, w.head? ≠ some '0' := by decide +kernel
  intro hmem
  exact hfirst _ hmem rfl

theorem textOps_updateVm {u : SectionUpdate} (hfree : QuoteFree u.mmapPath)
    (hname : lower u.mmapPath ∉ vmNames) : textOps u.text =
      some [.updateSections (hexText u.pltAddr.toNat) (hexText u.pltSize.toNat)
        (hexText u.gotAddr.toNat) (hexText u.gotSize.toNat) u.mmapPath] := by
  have hvm : "vm".toList ≠ "comparts".toList := by decide
  have hstrings : ∀ s ∈ [hexText u.pltAddr.toNat, hexText u.pltSize.toNat,
      hexText u.gotAddr.toNat, hexText u.gotSize.toNat, u.mmapPath],
      lower s ∉ vmNames := by
    simp only [List.forall_mem_cons]
    exact ⟨hexText_not_column _, hexText_not_column _, hexText_not_column _,
      hexText_not_column _, hname, List.forall_mem_nil _⟩
  rw [textOps, readStatement_updateVm hfree, Option.bind_some, stmtOps,
    if_neg hvm, if_pos rfl, sectionOps, if_pos ⟨rfl, rfl, hstrings⟩]

theorem updateVm_faithful {u : SectionUpdate} (hfree : QuoteFree u.mmapPath)
    (hname : lower u.mmapPath ∉ vmNames) :
    (Statement.updateVm u).Faithful := by
  intro db
  rw [sqlite3Exec, Statement.text, textOps_updateVm hfree hname,
    Option.map_some]
  rfl

/-! ### Texts without quotes -/

theorem quoteFree_altHex (n : Nat) : QuoteFree (altHex n) := by
  rw [altHex]
  split
  · decide
  · exact quoteFree_hexText n

theorem quoteFree_unknownText (n : Nat) : QuoteFree (unknownText n) :=
  quoteFree_append.2 ⟨quoteFree_append.2 ⟨by decide, quoteFree_altHex n⟩,
    by decide⟩

theorem quoteFree_ite {c : Prop} [Decidable c] {s t : Text}
    (hs : QuoteFree s) (ht : QuoteFree t) : QuoteFree (if c then s else t) := by
  split
  · exact hs
  · exact ht

theorem quoteFree_stBind (sbind : Nat) : QuoteFree (stBind sbind) := by
  unfold stBind
  repeat' apply quoteFree_ite
  any_goals decide
  exact quoteFree_unknownText sbind

theorem quoteFree_stType (mach os stype : Nat) :
    QuoteFree (stType mach os stype) := by
  unfold stType
  repeat' apply quoteFree_ite
  any_goals decide
  · exact quoteFree_append.2 ⟨by decide, quoteFree_altHex _⟩
  · exact quoteFree_append.2 ⟨by decide, quoteFree_altHex _⟩
  · exact quoteFree_unknownText stype

theorem quoteFree_stShndx (shndx : Nat) : QuoteFree (stShndx shndx) := by
  unfold stShndx
  repeat' apply quoteFree_ite
  any_goals decide
  exact quoteFree_numeral (by decide) (by decide) shndx

theorem quoteFree_padLeft3 {s : Text} (hs : QuoteFree s) :
    QuoteFree (padLeft3 s) := by
  refine quoteFree_append.2 ⟨fun hmem => ?_, hs⟩
  cases List.eq_of_mem_replicate hmem

/-- The path and the name are the only texts of a row that may hold a quote. -/
theorem rowClean_symRow {file : ElfFile} {source : Text} {sourceBase : ULong}
    {s : ElfSymbol} {symname : Text} (hsource : QuoteFree source)
    (hname : QuoteFree symname) :
    RowClean (symRow file source sourceBase s symname).fields := by
  simp only [RowClean, SymInfo.fields, symRow, List.forall_mem_cons]
  exact ⟨hsource, hname, quoteFree_hexText _,
    quoteFree_padLeft3 (quoteFree_stShndx _), quoteFree_stType _ _ _,
    quoteFree_stBind _, quoteFree_hexText _, List.forall_mem_nil _⟩

theorem quoteFree_fileName {path : Text} (h : QuoteFree path) :
    QuoteFree (fileName path) := by
  intro hmem
  rw [fileName, List.mem_reverse] at hmem
  exact h (List.mem_reverse.1 ((List.takeWhile_prefix _).subset hmem))

/-! ### Statements of one kind -/

/-- The strings of the statement hold no quote; a path by which rows of `vm` are
found is not the name of a column, and no list is sent that was never
assigned. -/
def Statement.Plain : Statement → Prop
  | .createTable ddl => IsCreate ddl
  | .insertVm b => ∀ e ∈ b.rows, RowClean e.fields
  | .insertCapInfo b => ∀ c ∈ b.rows, RowClean c.fields
  | .insertElfSym b => ∀ s ∈ b.rows, RowClean s.fields
  | .replaceDefault c => QuoteFree c.libraryPath
  | .replaceSubcompart c => QuoteFree c.compartName
  | .updateCompartName name _ => QuoteFree name
  | .updateVm u => QuoteFree u.mmapPath ∧ lower u.mmapPath ∉ vmNames
  | .indeterminate _ _ => False

/-- The name that a statement gives to a compartment is not that of a
column. -/
def Statement.NamesNoColumn : Statement → Prop
  | .updateCompartName name _ => lower name ∉ compartsNames
  | _ => True

theorem rowClean_defaultCompart {c : DefaultCompart}
    (h : QuoteFree c.libraryPath) : RowClean c.fields := by
  simp only [RowClean, DefaultCompart.fields, List.forall_mem_cons]
  exact ⟨trivial, h, quoteFree_hexText _, quoteFree_hexText _, trivial,
    List.forall_mem_nil _⟩

theorem rowClean_subcompart {c : Subcompart} (h : QuoteFree c.compartName) :
    RowClean c.fields := by
  simp only [RowClean, Subcompart.fields, List.forall_mem_cons]
  exact ⟨trivial, h, quoteFree_hexText _, quoteFree_hexText _, trivial,
    trivial, List.forall_mem_nil _⟩

theorem Statement.Plain.faithful {st : Statement} (h : st.Plain)
    (hname : st.NamesNoColumn) : st.Faithful := by
  cases st with
  | createTable ddl => exact createTable_faithful h
  | insertVm b => exact Statement.Clean.faithful h rfl
  | insertCapInfo b => exact Statement.Clean.faithful h rfl
  | insertElfSym b => exact Statement.Clean.faithful h rfl
  | replaceDefault c =>
      exact Statement.Clean.faithful (rowClean_defaultCompart h) rfl
  | replaceSubcompart c =>
      exact Statement.Clean.faithful (rowClean_subcompart h) rfl
  | updateCompartName name id => exact Statement.Clean.faithful ⟨h, hname⟩ rfl
  | updateVm u => exact updateVm_faithful h.1 h.2
  | indeterminate hdr values => exact h.elim

/-! ### Tables of rows -/

def CompInfo.rename (name : Option Text) (r : CompInfo) : CompInfo :=
  { r with compartName := name }

@[simp] theorem rename_setName (name : Option Text)
    (f : CompInfo → Option Text) (id : Int) (r : CompInfo) :
    (Comparts.setName f id r).rename name = r.rename name := by
  rw [Comparts.setName]
  split <;> rfl

/-- The tables hold the same rows under the same keys, but for the names. -/
def Comparts.SameButNames (cs cs' : Comparts) : Prop :=
  ∀ id, (cs.lookup id).map (CompInfo.rename none) =
    (cs'.lookup id).map (CompInfo.rename none)

theorem Comparts.SameButNames.replace {cs cs' : Comparts}
    (h : cs.SameButNames cs') (row : CompInfo) :
    (cs.replace row).SameButNames (cs'.replace row) := by
  intro id
  rw [lookup_replace, lookup_replace]
  split
  · rfl
  · exact h id

theorem Comparts.SameButNames.updateNameBy {cs cs' : Comparts}
    (h : cs.SameButNames cs') (f f' : CompInfo → Option Text) (i : Int) :
    (cs.updateNameBy f i).SameButNames (cs'.updateNameBy f' i) := by
  have hkept (f : CompInfo → Option Text) (row : Option CompInfo) :
      (row.map (setName f i)).map (CompInfo.rename none) =
        row.map (CompInfo.rename none) := by
    cases row <;> simp
  intro id
  rw [lookup_updateNameBy, lookup_updateNameBy, hkept, hkept]
  exact h id

/-- The databases differ in the names of compartments at most. -/
structure SameRows (db db' : Db) : Prop where
  vm : db.vm = db'.vm
  capInfo : db.capInfo = db'.capInfo
  elfSym : db.elfSym = db'.elfSym
  comparts : db.comparts.SameButNames db'.comparts

theorem SameRows.rfl {db : Db} : SameRows db db :=
  ⟨.refl _, .refl _, .refl _, fun _ => .refl _⟩

/-- Only the table `comparts` of the second database is another one. -/
theorem SameRows.eq {db db' : Db} (h : SameRows db db') :
    db = { db' with comparts := db.comparts } := by
  obtain ⟨vm, capInfo, elfSym, comparts⟩ := db
  obtain ⟨rfl, rfl, rfl, _⟩ := h
  rfl

theorem SameRows.run {db db' : Db} (h : SameRows db db') (st : Statement) :
    SameRows (st.run db) (st.run db') := by
  cases st with
  | replaceDefault c | replaceSubcompart c =>
      exact ⟨h.vm, h.capInfo, h.elfSym, h.comparts.replace _⟩
  | updateCompartName name id =>
      exact ⟨h.vm, h.capInfo, h.elfSym, h.comparts.updateNameBy _ _ _⟩
  | createTable ddl | insertVm b | insertCapInfo b | insertElfSym b
  | updateVm u | indeterminate hdr values =>
      constructor <;>
        simp only [Statement.run, h.vm, h.capInfo, h.elfSym, h.comparts]

/-- A name without a quote is read as some name of the same compartment. -/
theorem textOps_updateCompartName {name : Text} (h : QuoteFree name)
    (id : Int) : textOps (Statement.updateCompartName name id).text =
      some [.updateCompartName (resolveName name) id] := by
  rw [textOps, Statement.text, readStatement_update announces_compartName h,
    Option.bind_some, stmtOps, if_pos rfl, compartNameOps, if_pos ⟨rfl, rfl⟩]

/-- Whatever name a compartment is given, the other tables are as they are
meant. -/
theorem Statement.Plain.sameRows {st : Statement} (h : st.Plain)
    {db db' : Db} (hsame : SameRows db db') :
    SameRows ((sqlite3Exec st.text db).getD db) (st.run db') := by
  cases st with
  | updateCompartName name id =>
      rw [sqlite3Exec, textOps_updateCompartName h]
      exact ⟨hsame.vm, hsame.capInfo, hsame.elfSym,
        hsame.comparts.updateNameBy _ _ _⟩
  | createTable ddl | insertVm b | insertCapInfo b | insertElfSym b
  | replaceDefault c | replaceSubcompart c | updateVm u
  | indeterminate hdr values =>
      rw [Statement.Plain.faithful h trivial db]
      exact hsame.run _

theorem sameRows_execTexts {ss : List Statement} (h : ∀ st ∈ ss, st.Plain)
    {db db' : Db} (hsame : SameRows db db') :
    SameRows (execTexts ss db) (runAll ss db') := by
  induction ss generalizing db db' with
  | nil => exact hsame
  | cons st ss ih =>
      exact ih (fun s hs => h s (List.mem_cons_of_mem st hs))
        ((h st List.mem_cons_self).sameRows hsame)

end Chericat
