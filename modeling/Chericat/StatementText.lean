import Chericat.Database

/-!
The texts handed to `sqlite3_exec`, read back by the grammar of SQL: what rows
they insert or update, and for which strings these are the intended ones.
-/

namespace Chericat

open Numeral SqlText

/-! ### What a statement text does -/

/-- The value assigned by `SET`: a string, or the value of a column whose name
the quotes enclose. -/
inductive NameSource where
  | text (s : Text)
  | column (c : Text)
deriving Repr, DecidableEq

/-- One row inserted, replaced or updated. -/
inductive RowOp where
  | insertVm (e : VmEntry)
  | insertCapInfo (c : CapInfo)
  | insertElfSym (s : SymInfo)
  | replaceCompart (r : CompInfo)
  | updateCompartName (source : NameSource) (id : Int)
  | updateSections (pltAddr pltSize gotAddr gotSize mmapPath : Text)
deriving Repr, DecidableEq

/-- The names in scope of an `UPDATE` of `comparts`: its columns, and those of
the row id. -/
def compartsNames : List Text :=
  ["compart_id".toList, "compart_name".toList, "library_path".toList,
    "start_addr".toList, "end_addr".toList, "is_default".toList,
    "parent_id".toList, "rowid".toList, "oid".toList, "_rowid_".toList]

/-- A double-quoted token in that scope. -/
def resolveName (s : Text) : NameSource :=
  if lower s ∈ compartsNames then .column (lower s) else .text s

/-- The text of a column; a number has its decimal text. -/
def CompInfo.column (r : CompInfo) (c : Text) : Option Text :=
  if c = "compart_name".toList then r.compartName
  else if c = "library_path".toList then r.libraryPath
  else if c = "start_addr".toList then r.startAddr
  else if c = "end_addr".toList then r.endAddr
  else if c = "is_default".toList then r.isDefault.map decText
  else if c = "parent_id".toList then r.parentId.map decText
  else some (decText r.compartId)

def NameSource.value (source : NameSource) (r : CompInfo) : Option Text :=
  match source with
  | .text s => some s
  | .column c => r.column c

/-- `SET` of the section columns of the rows with the given path. -/
def VmInfo.setSections (pltAddr pltSize gotAddr gotSize mmapPath : Text)
    (r : VmInfo) : VmInfo :=
  if r.mmapPath = mmapPath then
    { r with
      pltAddr := some pltAddr
      pltSize := some pltSize
      gotAddr := some gotAddr
      gotSize := some gotSize }
  else r

def RowOp.run (db : Db) : RowOp → Db
  | .insertVm e => { db with vm := db.vm ++ [e.inserted] }
  | .insertCapInfo c => { db with capInfo := db.capInfo ++ [c] }
  | .insertElfSym s => { db with elfSym := db.elfSym ++ [s] }
  | .replaceCompart r => { db with comparts := db.comparts.replace r }
  | .updateCompartName source id =>
      { db with comparts := db.comparts.updateNameBy source.value id }
  | .updateSections a b c d path =>
      { db with vm := db.vm.map (VmInfo.setSections a b c d path) }

/-- A value for a column of text affinity. -/
def readText : Expr → Option Text
  | .quoted s => some s
  | .int n => some (decText n)

/-- A value for a column of integer affinity, which turns the text of a number
into the number. -/
def readInt : Expr → Option Int
  | .int n => some n
  | .quoted s =>
      match scanInteger 10 s with
      | some (true, n, []) => some (-n)
      | some (false, n, []) => some n
      | _ => none

def readVmEntry : List Expr → Option VmEntry
  | [a, b, c, d, e, f, g] => do
      let startAddr ← readText a
      let endAddr ← readText b
      let mmapPath ← readText c
      let compartId ← readInt d
      let kveProtection ← readInt e
      let mmapFlags ← readInt f
      let vnodeType ← readInt g
      pure ⟨startAddr, endAddr, mmapPath, compartId, kveProtection, mmapFlags,
        vnodeType⟩
  | _ => none

def readCapInfo : List Expr → Option CapInfo
  | [a, b, c, d, e, f] => do
      let capLocAddr ← readText a
      let capLocPath ← readText b
      let capAddr ← readText c
      let perms ← readText d
      let base ← readText e
      let top ← readText f
      pure ⟨capLocAddr, capLocPath, capAddr, perms, base, top⟩
  | _ => none

def readSymInfo : List Expr → Option SymInfo
  | [a, b, c, d, e, f, g] => do
      let sourcePath ← readText a
      let symName ← readText b
      let symOffset ← readText c
      let shndx ← readText d
      let type ← readText e
      let bind ← readText f
      let addr ← readText g
      pure ⟨sourcePath, symName, symOffset, shndx, type, bind, addr⟩
  | _ => none

/-- A row of `defaultHdr`. -/
def readDefault : List Expr → Option CompInfo
  | [a, b, c, d, e] => do
      let compartId ← readInt a
      let libraryPath ← readText b
      let startAddr ← readText c
      let endAddr ← readText d
      let isDefault ← readInt e
      pure ⟨compartId, none, libraryPath, startAddr, endAddr, isDefault, none⟩
  | _ => none

/-- A row of `subcompartHdr`. -/
def readSubcompart : List Expr → Option CompInfo
  | [a, b, c, d, e, f] => do
      let compartId ← readInt a
      let compartName ← readText b
      let startAddr ← readText c
      let endAddr ← readText d
      let isDefault ← readInt e
      let parentId ← readInt f
      pure ⟨compartId, compartName, none, startAddr, endAddr, isDefault, parentId⟩
  | _ => none

/-- All rows, or nothing: a statement with one bad row inserts none. -/
def readAll {β : Type} (read : List Expr → Option β) :
    List (List Expr) → Option (List β)
  | [] => some []
  | row :: rows =>
      (read row).bind fun b => (readAll read rows).map (b :: ·)

def vmColumns : List Text :=
  ["start_addr".toList, "end_addr".toList, "mmap_path".toList,
    "compart_id".toList, "kve_protection".toList, "mmap_flags".toList,
    "vnode_type".toList]

def defaultColumns : List Text :=
  ["compart_id".toList, "library_path".toList, "start_addr".toList,
    "end_addr".toList, "is_default".toList]

def subcompartColumns : List Text :=
  ["compart_id".toList, "compart_name".toList, "start_addr".toList,
    "end_addr".toList, "is_default".toList, "parent_id".toList]

/-- The names in scope of an `UPDATE` of `vm`. -/
def vmNames : List Text :=
  vmColumns ++ ["plt_addr".toList, "plt_size".toList, "got_addr".toList,
    "got_size".toList, "rowid".toList, "oid".toList, "_rowid_".toList]

/-- `SET compart_name = … WHERE compart_id = …`. -/
def compartNameOps : List (Text × Expr) → Text → Expr → Option (List RowOp)
  | [(c, .quoted s)], whereColumn, .int id =>
      if c = "compart_name".toList ∧ whereColumn = "compart_id".toList then
        some [.updateCompartName (resolveName s) id]
      else none
  | _, _, _ => none

/-- `SET` of the four section columns `WHERE mmap_path = …`, all of them strings:
none is the name of a column. -/
def sectionOps : List (Text × Expr) → Text → Expr → Option (List RowOp)
  | [(c₁, .quoted a), (c₂, .quoted b), (c₃, .quoted c), (c₄, .quoted d)],
      whereColumn, .quoted path =>
      if [c₁, c₂, c₃, c₄] = ["plt_addr".toList, "plt_size".toList,
            "got_addr".toList, "got_size".toList] ∧
          whereColumn = "mmap_path".toList ∧
          ∀ s ∈ [a, b, c, d, path], lower s ∉ vmNames then
        some [.updateSections a b c d path]
      else none
  | _, _, _ => none

/-- The row operations of a statement on the four tables. -/
def stmtOps : Stmt → Option (List RowOp)
  | .insert false table columns rows =>
      if table = "vm".toList ∧ columns = vmColumns then
        (readAll readVmEntry rows).map (List.map .insertVm)
      else if table = "cap_info".toList ∧ columns = [] then
        (readAll readCapInfo rows).map (List.map .insertCapInfo)
      else if table = "elf_sym".toList ∧ columns = [] then
        (readAll readSymInfo rows).map (List.map .insertElfSym)
      else none
  | .insert true table columns rows =>
      if table = "comparts".toList ∧ columns = defaultColumns then
        (readAll readDefault rows).map (List.map .replaceCompart)
      else if table = "comparts".toList ∧ columns = subcompartColumns then
        (readAll readSubcompart rows).map (List.map .replaceCompart)
      else none
  | .update table sets whereColumn value =>
      if table = "comparts".toList then compartNameOps sets whereColumn value
      else if table = "vm".toList then sectionOps sets whereColumn value
      else none

/-- The row operations of a text; `none` is an error, or a text of another
shape. -/
def textOps (text : Text) : Option (List RowOp) :=
  (readStatement text).bind stmtOps

/-- `sqlite3_exec` of a text. -/
def sqlite3Exec (text : Text) (db : Db) : Option Db :=
  (textOps text).map fun ops => ops.foldl RowOp.run db

/-! ### What is intended -/

/-- The rows a statement is meant to write, for the statements that write
rows. -/
def Statement.rowOps : Statement → Option (List RowOp)
  | .insertVm b => some (b.rows.map .insertVm)
  | .insertCapInfo b => some (b.rows.map .insertCapInfo)
  | .insertElfSym b => some (b.rows.map .insertElfSym)
  | .replaceDefault c => some [.replaceCompart c.row]
  | .replaceSubcompart c => some [.replaceCompart c.row]
  | .updateCompartName name id => some [.updateCompartName (.text name) id]
  | .createTable _ => none
  | .updateVm _ => none
  | .indeterminate _ _ => none

theorem foldl_insertVm (rows : List VmEntry) (db : Db) :
    (rows.map RowOp.insertVm).foldl RowOp.run db =
      { db with vm := db.vm ++ rows.map VmEntry.inserted } := by
  induction rows generalizing db with
  | nil => simp
  | cons r rs ih => simp [RowOp.run, ih]

theorem foldl_insertCapInfo (rows : List CapInfo) (db : Db) :
    (rows.map RowOp.insertCapInfo).foldl RowOp.run db =
      { db with capInfo := db.capInfo ++ rows } := by
  induction rows generalizing db with
  | nil => simp
  | cons r rs ih => simp [RowOp.run, ih]

theorem foldl_insertElfSym (rows : List SymInfo) (db : Db) :
    (rows.map RowOp.insertElfSym).foldl RowOp.run db =
      { db with elfSym := db.elfSym ++ rows } := by
  induction rows generalizing db with
  | nil => simp
  | cons r rs ih => simp [RowOp.run, ih]

/-- The intended rows are the intended effect. -/
theorem foldl_rowOps {st : Statement} {ops : List RowOp}
    (h : st.rowOps = some ops) (db : Db) :
    ops.foldl RowOp.run db = st.run db := by
  cases st with
  | insertVm b =>
      cases h
      exact foldl_insertVm b.rows db
  | insertCapInfo b =>
      cases h
      exact foldl_insertCapInfo b.rows db
  | insertElfSym b =>
      cases h
      exact foldl_insertElfSym b.rows db
  | replaceDefault c =>
      cases h
      rfl
  | replaceSubcompart c =>
      cases h
      rfl
  | updateCompartName name id =>
      cases h
      rfl
  | createTable ddl => cases h
  | updateVm u => cases h
  | indeterminate hdr values => cases h

/-- The text is read as the intended rows, in order, and does what is intended
to every database. -/
structure ReadsAsIntended (st : Statement) (ops : List RowOp) : Prop where
  rows : textOps st.text = some ops
  effect : ∀ db, sqlite3Exec st.text db = some (st.run db)

theorem readsAsIntended_of_rows {st : Statement} {ops : List RowOp}
    (h : st.rowOps = some ops) (hrows : textOps st.text = some ops) :
    ReadsAsIntended st ops := by
  refine ⟨hrows, fun db => ?_⟩
  rw [sqlite3Exec, hrows, Option.map_some, foldl_rowOps h]

/-! ### Formats of rows -/

theorem agrees_quoted {s : Text} {e : Expr} (h : readText e = some s) :
    (Expr.quoted s).Agrees e := by
  rintro _ v hs rfl
  rw [readText, Option.some.injEq] at h
  rw [h]
  exact Expr.quoted.inj hs

theorem agrees_int (n : Int) (e : Expr) : (Expr.int n).Agrees e := by
  rintro s v hn
  cases hn

/-- A kind of row as it is printed and as it is read: reading undoes printing,
and what is read as the same row agrees with what was printed. -/
structure RowFormat (α β : Type) where
  fields : α → List Expr
  row : α → β
  read : List Expr → Option β
  fields_ne_nil : ∀ a, fields a ≠ []
  read_fields : ∀ a, read (fields a) = some (row a)
  agrees : ∀ a es, read es = some (row a) →
    List.Forall₂ Expr.Agrees (fields a) es

section Format

variable {α β : Type} (F : RowFormat α β)

theorem RowFormat.readAll_fields (as : List α) :
    readAll F.read (as.map F.fields) = some (as.map F.row) := by
  induction as with
  | nil => rfl
  | cons a as ih => simp [readAll, F.read_fields, ih]

theorem RowFormat.readAll_agrees {as : List α} {rows : List (List Expr)}
    (h : readAll F.read rows = some (as.map F.row)) :
    List.Forall₂ (List.Forall₂ Expr.Agrees) (as.map F.fields) rows := by
  induction rows generalizing as with
  | nil =>
      cases as with
      | nil => exact List.Forall₂.nil
      | cons a as => cases h
  | cons row rows ih =>
      obtain ⟨b, hb, h⟩ := Option.bind_eq_some_iff.mp h
      obtain ⟨bs, hbs, heq⟩ := Option.map_eq_some_iff.mp h
      cases as with
      | nil => cases heq
      | cons a as =>
          rw [List.map_cons, List.cons.injEq] at heq
          obtain ⟨rfl, rfl⟩ := heq
          exact List.Forall₂.cons (F.agrees a row hb) (ih hbs)

/-- An `INSERT` of printed rows inserts these rows, in order, exactly when
their strings hold no double quote. -/
theorem RowFormat.textOps_iff {hdr table : Text} {replace : Bool}
    {columns : List Text} (hhdr : AnnouncesInsert hdr replace table columns)
    {op : β → RowOp} (hop : Function.Injective op)
    (hstmt : ∀ rows, stmtOps (.insert replace table columns rows) =
      (readAll F.read rows).map (List.map op))
    {as : List α} (hne : as ≠ []) :
    textOps (hdr ++ rowsText (as.map F.fields) ++ [';']) =
        some ((as.map F.row).map op) ↔
      ∀ a ∈ as, RowClean (F.fields a) := by
  have hnil : as.map F.fields ≠ [] := by simpa using hne
  constructor
  · intro h
    obtain ⟨stmt, hread, hops⟩ := Option.bind_eq_some_iff.mp h
    obtain ⟨rows', rfl, hclean⟩ := rowClean_of_readStatement hhdr hnil hread
    rw [hstmt] at hops
    obtain ⟨bs, hbs, heq⟩ := Option.map_eq_some_iff.mp hops
    rw [List.map_injective_iff.mpr hop heq] at hbs
    intro a ha
    exact hclean (F.readAll_agrees hbs) _ (List.mem_map_of_mem ha)
  · intro hclean
    have hread := readStatement_insert hhdr hnil
      (by
        intro row hrow
        obtain ⟨a, _, rfl⟩ := List.mem_map.mp hrow
        exact F.fields_ne_nil a)
      (by
        intro row hrow
        obtain ⟨a, ha, rfl⟩ := List.mem_map.mp hrow
        exact hclean a ha)
    rw [textOps, hread, Option.bind_some, hstmt, F.readAll_fields,
      Option.map_some]

end Format

def vmFormat : RowFormat VmEntry VmEntry where
  fields := VmEntry.fields
  row := id
  read := readVmEntry
  fields_ne_nil _ := nofun
  read_fields _ := rfl
  agrees := by
    rintro v es h
    unfold readVmEntry at h
    split at h
    · simp only [Option.bind_eq_bind, Option.bind_eq_some_iff, Option.pure_def,
        Option.some.injEq] at h
      obtain ⟨_, ha, _, hb, _, hc, _, hd, _, he, _, hf, _, hg, rfl⟩ := h
      exact .cons (agrees_quoted ha) (.cons (agrees_quoted hb)
        (.cons (agrees_quoted hc) (.cons (agrees_int _ _)
          (.cons (agrees_int _ _) (.cons (agrees_int _ _)
            (.cons (agrees_int _ _) .nil))))))
    · cases h

def capInfoFormat : RowFormat CapInfo CapInfo where
  fields := CapInfo.fields
  row := id
  read := readCapInfo
  fields_ne_nil _ := nofun
  read_fields _ := rfl
  agrees := by
    rintro c es h
    unfold readCapInfo at h
    split at h
    · simp only [Option.bind_eq_bind, Option.bind_eq_some_iff, Option.pure_def,
        Option.some.injEq] at h
      obtain ⟨_, ha, _, hb, _, hc, _, hd, _, he, _, hf, rfl⟩ := h
      exact .cons (agrees_quoted ha) (.cons (agrees_quoted hb)
        (.cons (agrees_quoted hc) (.cons (agrees_quoted hd)
          (.cons (agrees_quoted he) (.cons (agrees_quoted hf) .nil)))))
    · cases h

def symInfoFormat : RowFormat SymInfo SymInfo where
  fields := SymInfo.fields
  row := id
  read := readSymInfo
  fields_ne_nil _ := nofun
  read_fields _ := rfl
  agrees := by
    rintro s es h
    unfold readSymInfo at h
    split at h
    · simp only [Option.bind_eq_bind, Option.bind_eq_some_iff, Option.pure_def,
        Option.some.injEq] at h
      obtain ⟨_, ha, _, hb, _, hc, _, hd, _, he, _, hf, _, hg, rfl⟩ := h
      exact .cons (agrees_quoted ha) (.cons (agrees_quoted hb)
        (.cons (agrees_quoted hc) (.cons (agrees_quoted hd)
          (.cons (agrees_quoted he) (.cons (agrees_quoted hf)
            (.cons (agrees_quoted hg) .nil))))))
    · cases h

def defaultFormat : RowFormat DefaultCompart CompInfo where
  fields := DefaultCompart.fields
  row := DefaultCompart.row
  read := readDefault
  fields_ne_nil _ := nofun
  read_fields _ := rfl
  agrees := by
    rintro c es h
    unfold readDefault at h
    split at h
    · simp only [Option.bind_eq_bind, Option.bind_eq_some_iff, Option.pure_def,
        Option.some.injEq, DefaultCompart.row, CompInfo.mk.injEq] at h
      obtain ⟨_, ha, _, hb, _, hc, _, hd, _, he, -, -, rfl, rfl, rfl, -, -⟩ := h
      exact .cons (agrees_int _ _) (.cons (agrees_quoted hb)
        (.cons (agrees_quoted hc) (.cons (agrees_quoted hd)
          (.cons (agrees_int _ _) .nil))))
    · cases h

def subcompartFormat : RowFormat Subcompart CompInfo where
  fields := Subcompart.fields
  row := Subcompart.row
  read := readSubcompart
  fields_ne_nil _ := nofun
  read_fields _ := rfl
  agrees := by
    rintro c es h
    unfold readSubcompart at h
    split at h
    · simp only [Option.bind_eq_bind, Option.bind_eq_some_iff, Option.pure_def,
        Option.some.injEq, Subcompart.row, CompInfo.mk.injEq] at h
      obtain ⟨_, ha, _, hb, _, hc, _, hd, _, he, _, hf, -, rfl, -, rfl, rfl,
        -, -⟩ := h
      exact .cons (agrees_int _ _) (.cons (agrees_quoted hb)
        (.cons (agrees_quoted hc) (.cons (agrees_quoted hd)
          (.cons (agrees_int _ _) (.cons (agrees_int _ _) .nil)))))
    · cases h

/-! ### The statement templates -/

/-- The tokens of an unquoted name. -/
def word (s : String) : Token := .word s.toList

/-- A column list, with its parentheses. -/
def nameTokens (columns : List Text) : List Token :=
  .lparen :: (columns.map Token.word).intersperse .comma ++ [.rparen]

theorem announces_vm : AnnouncesInsert vmHdr false "vm".toList vmColumns :=
  ⟨[word "INSERT", word "INTO", word "vm"] ++ nameTokens vmColumns ++
    [word "VALUES"], by decide +kernel, fun us => by rfl⟩

theorem announces_capInfo :
    AnnouncesInsert capInfoHdr false "cap_info".toList [] :=
  ⟨[word "INSERT", word "INTO", word "cap_info", word "VALUES"],
    by rfl, fun us => by rfl⟩

theorem announces_elfSym :
    AnnouncesInsert elfSymHdr false "elf_sym".toList [] :=
  ⟨[word "INSERT", word "INTO", word "elf_sym", word "VALUES"],
    by rfl, fun us => by rfl⟩

theorem announces_default :
    AnnouncesInsert defaultHdr true "comparts".toList defaultColumns :=
  ⟨[word "INSERT", word "OR", word "REPLACE", word "INTO", word "comparts"] ++
    nameTokens defaultColumns ++ [word "VALUES"], by decide +kernel, fun us => by rfl⟩

theorem announces_subcompart :
    AnnouncesInsert subcompartHdr true "comparts".toList subcompartColumns :=
  ⟨[word "INSERT", word "OR", word "REPLACE", word "INTO", word "comparts"] ++
    nameTokens subcompartColumns ++ [word "VALUES"], by decide +kernel, fun us => by rfl⟩

theorem announces_compartName :
    AnnouncesUpdate compartNameHdr compartNameWhere "comparts".toList
      "compart_name".toList "compart_id".toList := by
  refine ⟨[word "UPDATE", word "comparts", word "SET", word "compart_name",
    .equals], by rfl, ?_, [word "WHERE", word "compart_id", .equals], by rfl, ?_⟩
  · intro s us stmt h
    obtain ⟨p, hp, h⟩ := Option.bind_eq_some_iff.mp h
    obtain ⟨sets, hsets⟩ := parseSets_quoted hp
    obtain ⟨wc, w, rfl⟩ := parseWhere_some h
    exact ⟨sets, wc, w, by rw [hsets]; rfl⟩
  · intro s w
    rcases w with (n | n) | v <;> rfl

/-! The rows of each template, and how they are read. -/

theorem stmtOps_vm (rows : List (List Expr)) :
    stmtOps (.insert false "vm".toList vmColumns rows) =
      (readAll readVmEntry rows).map (List.map .insertVm) := by
  rw [stmtOps, if_pos ⟨rfl, rfl⟩]

theorem stmtOps_capInfo (rows : List (List Expr)) :
    stmtOps (.insert false "cap_info".toList [] rows) =
      (readAll readCapInfo rows).map (List.map .insertCapInfo) := by
  rw [stmtOps, if_neg (by decide), if_pos ⟨rfl, rfl⟩]

theorem stmtOps_elfSym (rows : List (List Expr)) :
    stmtOps (.insert false "elf_sym".toList [] rows) =
      (readAll readSymInfo rows).map (List.map .insertElfSym) := by
  rw [stmtOps, if_neg (by decide), if_neg (by decide), if_pos ⟨rfl, rfl⟩]

theorem stmtOps_default (rows : List (List Expr)) :
    stmtOps (.insert true "comparts".toList defaultColumns rows) =
      (readAll readDefault rows).map (List.map .replaceCompart) := by
  rw [stmtOps, if_pos ⟨rfl, rfl⟩]

theorem stmtOps_subcompart (rows : List (List Expr)) :
    stmtOps (.insert true "comparts".toList subcompartColumns rows) =
      (readAll readSubcompart rows).map (List.map .replaceCompart) := by
  rw [stmtOps, if_neg (by decide), if_pos ⟨rfl, rfl⟩]

theorem resolveName_eq_text {v s : Text} :
    resolveName v = .text s ↔ v = s ∧ lower v ∉ compartsNames := by
  rw [resolveName]
  split
  · next h => simp [h]
  · next h => simp [h]

/-- The name assigned by an `UPDATE` is the intended one exactly when it holds
no double quote and is not the name of a column. -/
theorem textOps_updateCompartName_iff (name : Text) (id : Int) :
    textOps (Statement.updateCompartName name id).text =
        some [.updateCompartName (.text name) id] ↔
      QuoteFree name ∧ lower name ∉ compartsNames := by
  rw [textOps, Statement.text]
  constructor
  · intro h
    obtain ⟨stmt, hread, hops⟩ := Option.bind_eq_some_iff.mp h
    obtain ⟨v, sets, wc, w, rfl, hfree⟩ :=
      quoteFree_of_readStatement announces_compartName hread
    rw [stmtOps, if_pos rfl] at hops
    cases sets with
    | cons set sets => cases hops
    | nil =>
        cases w with
        | quoted w => cases hops
        | int n =>
            rw [compartNameOps] at hops
            split at hops
            · simp only [Option.some.injEq, List.cons.injEq,
                RowOp.updateCompartName.injEq, and_true] at hops
              obtain ⟨rfl, hname⟩ := resolveName_eq_text.1 hops.1
              exact ⟨hfree rfl, hname⟩
            · cases hops
  · rintro ⟨hfree, hname⟩
    have hresolve : resolveName name = .text name :=
      resolveName_eq_text.2 ⟨rfl, hname⟩
    rw [readStatement_update announces_compartName hfree, Option.bind_some,
      stmtOps, if_pos rfl, compartNameOps, if_pos ⟨rfl, rfl⟩, hresolve]

/-! ### Numbers as texts -/

theorem quoteFree_append {s t : Text} :
    QuoteFree (s ++ t) ↔ QuoteFree s ∧ QuoteFree t := by
  simp [QuoteFree, not_or]

theorem quoteFree_numeral {b : Nat} (hpos : 0 < b) (hb : b ≤ 16) (n : Nat) :
    QuoteFree (numeral b n) := by
  intro hmem
  have hdigit := isDigit_of_mem_numeral hpos hb n hmem
  rw [isDigit, show digitVal '"' = none from rfl] at hdigit
  cases hdigit

theorem quoteFree_hexText (n : Nat) : QuoteFree (hexText n) :=
  quoteFree_append (s := ['0', 'x']).2
    ⟨by decide, quoteFree_numeral (by decide) (by decide) n⟩

/-! ### The statements of a scan -/

/-- The strings put into a statement hold no double quote, and a name put into
an `UPDATE` is not that of a column. -/
def Statement.Clean : Statement → Prop
  | .insertVm b => ∀ e ∈ b.rows, RowClean e.fields
  | .insertCapInfo b => ∀ c ∈ b.rows, RowClean c.fields
  | .insertElfSym b => ∀ s ∈ b.rows, RowClean s.fields
  | .replaceDefault c => RowClean c.fields
  | .replaceSubcompart c => RowClean c.fields
  | .updateCompartName name _ => QuoteFree name ∧ lower name ∉ compartsNames
  | .createTable _ => True
  | .updateVm _ => True
  | .indeterminate _ _ => True

theorem textOps_iff {st : Statement} {ops : List RowOp}
    (h : st.rowOps = some ops) : textOps st.text = some ops ↔ st.Clean := by
  cases st with
  | insertVm b =>
      cases h
      simpa [vmFormat, Statement.text, Statement.Clean] using
        vmFormat.textOps_iff announces_vm (fun _ _ => RowOp.insertVm.inj)
          stmtOps_vm b.nonempty
  | insertCapInfo b =>
      cases h
      simpa [capInfoFormat, Statement.text, Statement.Clean] using
        capInfoFormat.textOps_iff announces_capInfo
          (fun _ _ => RowOp.insertCapInfo.inj) stmtOps_capInfo b.nonempty
  | insertElfSym b =>
      cases h
      simpa [symInfoFormat, Statement.text, Statement.Clean] using
        symInfoFormat.textOps_iff announces_elfSym
          (fun _ _ => RowOp.insertElfSym.inj) stmtOps_elfSym b.nonempty
  | replaceDefault c =>
      cases h
      simpa [defaultFormat, Statement.text, Statement.Clean] using
        defaultFormat.textOps_iff announces_default
          (fun _ _ => RowOp.replaceCompart.inj) stmtOps_default
          (List.cons_ne_nil c [])
  | replaceSubcompart c =>
      cases h
      simpa [subcompartFormat, Statement.text, Statement.Clean] using
        subcompartFormat.textOps_iff announces_subcompart
          (fun _ _ => RowOp.replaceCompart.inj) stmtOps_subcompart
          (List.cons_ne_nil c [])
  | updateCompartName name id =>
      cases h
      exact textOps_updateCompartName_iff name id
  | createTable ddl => cases h
  | updateVm u => cases h
  | indeterminate hdr values => cases h

/-- Texts executed one after the other, where one that fails changes
nothing. -/
def execTexts (ss : List Statement) (db : Db) : Db :=
  ss.foldl (fun db st => (sqlite3Exec st.text db).getD db) db

/-- The text has the effect of the statement. -/
def Statement.Faithful (st : Statement) : Prop :=
  ∀ db, (sqlite3Exec st.text db).getD db = st.run db

theorem execTexts_eq_runAll {ss : List Statement}
    (h : ∀ st ∈ ss, st.Faithful) (db : Db) : execTexts ss db = runAll ss db := by
  induction ss generalizing db with
  | nil => rfl
  | cons st ss ih =>
      have hhead := h st List.mem_cons_self db
      rw [execTexts, List.foldl_cons, hhead]
      exact ih (fun s hs => h s (List.mem_cons_of_mem st hs)) (st.run db)

/-- A statement on rows with clean strings. -/
theorem Statement.Clean.faithful {st : Statement} {ops : List RowOp}
    (hclean : st.Clean) (h : st.rowOps = some ops) : st.Faithful := by
  intro db
  have hreads := readsAsIntended_of_rows h ((textOps_iff h).2 hclean)
  rw [hreads.effect db]
  rfl

/-- A text does what its statement is meant to do exactly when the strings in
it are clean. -/
theorem readsAsIntended_iff {st : Statement} {ops : List RowOp}
    (h : st.rowOps = some ops) : ReadsAsIntended st ops ↔ st.Clean := by
  rw [← textOps_iff h]
  exact ⟨ReadsAsIntended.rows, readsAsIntended_of_rows h⟩

def plainCap : CapInfo where
  capLocAddr := "0x41000".toList
  capLocPath := "Stack".toList
  capAddr := "0x40000".toList
  perms := "rwRW".toList
  base := "0x40000".toList
  top := "0x41000".toList

/-- The path of a file in a directory whose name holds a quote. -/
def quotedPathCap : CapInfo :=
  { plainCap with capLocPath := "/tmp/a\"b/lib.so".toList }

/-- One path with a quote voids the rows of the whole batch, and a compartment
named after a column gets the contents of that column. -/
theorem quoted_path_voids_batch :
    (¬ ReadsAsIntended
        (.insertCapInfo ⟨[plainCap, quotedPathCap], List.cons_ne_nil _ _⟩)
        [.insertCapInfo plainCap, .insertCapInfo quotedPathCap] ∧
      textOps (Statement.insertCapInfo
        ⟨[plainCap, quotedPathCap], List.cons_ne_nil _ _⟩).text = none) ∧
      textOps (Statement.updateCompartName "Parent_ID".toList 1).text =
        some [.updateCompartName (.column "parent_id".toList) 1] := by
  have hnone : textOps (Statement.insertCapInfo
      ⟨[plainCap, quotedPathCap], List.cons_ne_nil _ _⟩).text = none := by
    decide +kernel
  refine ⟨⟨fun h => ?_, hnone⟩, by decide +kernel⟩
  have hrows := h.rows
  rw [hnone] at hrows
  cases hrows

/-- A batch of clean rows is inserted. -/
theorem plain_batch_inserted :
    ReadsAsIntended (.insertCapInfo ⟨[plainCap, plainCap], List.cons_ne_nil _ _⟩)
      [.insertCapInfo plainCap, .insertCapInfo plainCap] := by
  refine (readsAsIntended_iff rfl).2 ?_
  intro c hc
  have heq : c = plainCap := by simpa using hc
  subst heq
  intro e he
  revert e
  decide

end Chericat
