import Chericat.SqlText

/-!
One `INSERT` or `UPDATE` of literals: its parser, the printer that puts
strings between double quotes unescaped, and the exact class of rows for which
reading the printed text gives the rows back.
-/

namespace SqlText

open Numeral

/-- A literal of the fragment.  Whether a quoted one is a string or a column
is decided by the columns in scope, not by the grammar. -/
inductive Expr where
  | int (n : Int)
  | quoted (s : List Char)
deriving Repr, DecidableEq

inductive Stmt where
  | insert (replace : Bool) (table : List Char) (columns : List (List Char))
      (rows : List (List Expr))
  | update (table : List Char) (sets : List (List Char × Expr))
      (whereColumn : List Char) (whereValue : Expr)
deriving Repr, DecidableEq

/-- Keywords and unquoted names compare in lower case. -/
def lower (w : List Char) : List Char := w.map Char.toLower

def parseExpr : List Token → Option (Expr × List Token)
  | .quoted s :: ts => some (.quoted s, ts)
  | .num n :: ts => some (.int n, ts)
  | .minus :: .num n :: ts => some (.int (-n), ts)
  | _ => none

/-- `e, e, … )`, the opening parenthesis having been read. -/
def parseExprs : Nat → List Token → Option (List Expr × List Token)
  | 0, _ => none
  | fuel + 1, ts =>
      match parseExpr ts with
      | some (e, .comma :: rest) =>
          (parseExprs fuel rest).map fun p => (e :: p.1, p.2)
      | some (e, .rparen :: rest) => some ([e], rest)
      | _ => none

/-- `(…),(…),…` up to the end of the statement. -/
def parseRows : Nat → List Token → Option (List (List Expr))
  | 0, _ => none
  | fuel + 1, .lparen :: ts =>
      match parseExprs ts.length ts with
      | some (row, .comma :: rest) => (parseRows fuel rest).map (row :: ·)
      | some (row, [.semi]) => some [row]
      | some (row, []) => some [row]
      | _ => none
  | _ + 1, _ => none

/-- A column list, the opening parenthesis having been read. -/
def parseNames : List Token → Option (List (List Char) × List Token)
  | .word w :: .comma :: ts =>
      (parseNames ts).map fun p => (lower w :: p.1, p.2)
  | .word w :: .rparen :: ts => some ([lower w], ts)
  | _ => none

def parseBody (replace : Bool) (table : List Char)
    (columns : List (List Char)) (ts : List Token) : Option Stmt :=
  (parseRows ts.length ts).map (.insert replace table columns)

def parseValues (replace : Bool) (table : List Char)
    (columns : List (List Char)) : List Token → Option Stmt
  | .word v :: ts =>
      if lower v = "values".toList then parseBody replace table columns ts
      else none
  | _ => none

def parseInto (replace : Bool) : List Token → Option Stmt
  | .word i :: .word t :: .lparen :: ts =>
      if lower i = "into".toList then
        (parseNames ts).bind fun p => parseValues replace (lower t) p.1 p.2
      else none
  | .word i :: .word t :: ts =>
      if lower i = "into".toList then parseValues replace (lower t) [] ts
      else none
  | _ => none

/-- `c = e, c = e, …`. -/
def parseSets : Nat → List Token →
    Option (List (List Char × Expr) × List Token)
  | fuel + 1, .word c :: .equals :: ts =>
      match parseExpr ts with
      | some (e, .comma :: rest) =>
          (parseSets fuel rest).map fun p => ((lower c, e) :: p.1, p.2)
      | some (e, rest) => some ([(lower c, e)], rest)
      | none => none
  | _, _ => none

def parseWhere (table : List Char) (sets : List (List Char × Expr)) :
    List Token → Option Stmt
  | .word w :: .word c :: .equals :: ts =>
      if lower w = "where".toList then
        match parseExpr ts with
        | some (e, [.semi]) => some (.update table sets (lower c) e)
        | some (e, []) => some (.update table sets (lower c) e)
        | _ => none
      else none
  | _ => none

def parseUpdate : List Token → Option Stmt
  | .word t :: .word s :: ts =>
      if lower s = "set".toList then
        (parseSets ts.length ts).bind fun p => parseWhere (lower t) p.1 p.2
      else none
  | _ => none

def parse : List Token → Option Stmt
  | .word a :: .word b :: .word c :: ts =>
      if lower a = "insert".toList then
        if lower b = "or".toList ∧ lower c = "replace".toList then
          parseInto true ts
        else parseInto false (.word b :: .word c :: ts)
      else if lower a = "update".toList then
        parseUpdate (.word b :: .word c :: ts)
      else none
  | _ => none

/-- The text read as one statement; `none` when it is not one of this
fragment, a text with anything after its semicolon included. -/
def readStatement (text : List Char) : Option Stmt := (lex text).bind parse

/-! ### The unescaped printer -/

def Expr.text : Expr → List Char
  | .int n => decText n
  | .quoted s => '"' :: s ++ ['"']

/-- `e, e, …`. -/
def fieldsText : List Expr → List Char
  | [] => []
  | [e] => e.text
  | e :: es => e.text ++ ',' :: ' ' :: fieldsText es

def tupleText (row : List Expr) : List Char := '(' :: fieldsText row ++ [')']

/-- Tuples joined by a bare comma. -/
def rowsText : List (List Expr) → List Char
  | [] => []
  | [row] => tupleText row
  | row :: rows => tupleText row ++ ',' :: rowsText rows

/-- The string of a quoted literal holds no quote itself. -/
def Expr.Clean : Expr → Prop
  | .int _ => True
  | .quoted s => QuoteFree s

instance (e : Expr) : Decidable e.Clean := by
  cases e <;> unfold Expr.Clean <;> infer_instance

def Expr.tokens : Expr → List Token
  | .int (.ofNat n) => [.num n]
  | .int (.negSucc n) => [.minus, .num (n + 1)]
  | .quoted s => [.quoted s]

@[simp] theorem parseExpr_tokens (e : Expr) (ts : List Token) :
    parseExpr (e.tokens ++ ts) = some (e, ts) := by
  rcases e with (n | n) | s <;> rfl

/-- The characters the printer puts behind a literal. -/
def IsDelimiter (c : Char) : Prop := c = ',' ∨ c = ')' ∨ c = ';' ∨ c = ' '

theorem IsDelimiter.ne_quote {c : Char} (hc : IsDelimiter c) : c ≠ '"' := by
  rcases hc with rfl | rfl | rfl | rfl <;> decide

theorem IsDelimiter.step_inNum {c : Char} (hc : IsDelimiter c) (n : Nat) :
    step (.inNum n) c = emitThen (.num n) c := by
  rcases hc with rfl | rfl | rfl | rfl <;> rfl

theorem digitChar_isDigit : ∀ d < 10, isDigit 10 d.digitChar = true := by
  decide

theorem stepBetween_digitChar :
    ∀ d < 10, stepBetween d.digitChar = some ([], .inNum d) := by
  decide

theorem lexFrom_inNum {c : Char} (hc : IsDelimiter c) (rest : List Char)
    {ds : List Nat} (hds : ∀ d ∈ ds, d < 10) (n : Nat) :
    lexFrom (.inNum n) (ds.map Nat.digitChar ++ c :: rest) =
      prepend [.num (ds.foldl (fun v d => v * 10 + d) n)]
        (lexFrom .between (c :: rest)) := by
  induction ds generalizing n with
  | nil => exact lexFrom_emitThen (hc.step_inNum n) rest
  | cons d ds ih =>
      have hd : d < 10 := hds d List.mem_cons_self
      have htail := ih (fun e he => hds e (List.mem_cons_of_mem d he))
      simp [lexFrom, step, digitChar_isDigit d hd,
        digitVal_digitChar d (by omega), htail]

theorem lexFrom_numeral {c : Char} (hc : IsDelimiter c) (rest : List Char)
    (n : Nat) :
    lexFrom .between (numeral 10 n ++ c :: rest) =
      prepend [.num n] (lexFrom .between (c :: rest)) := by
  have hlt := mem_digits_lt (b := 10) (by norm_num) n
  have hvalue := value_digits (b := 10) (by norm_num) n
  cases hds : digits 10 n with
  | nil => exact absurd hds (digits_ne_nil 10 n)
  | cons d ds =>
      rw [hds] at hlt hvalue
      have htail := lexFrom_inNum hc rest
        (fun e he => hlt e (List.mem_cons_of_mem d he)) d
      have hfold : ds.foldl (fun v d => v * 10 + d) d = n := by
        simpa [value] using hvalue
      rw [hfold] at htail
      simp [numeral, hds, lexFrom, step,
        stepBetween_digitChar d (hlt d List.mem_cons_self), htail]

/-- A printed string is read by `takeQuoted`, clean or not. -/
theorem lexFrom_quotedText (s rest : List Char) :
    lexFrom .between ((Expr.quoted s).text ++ rest) =
      (takeQuoted (s ++ '"' :: rest)).bind fun p =>
        prepend [.quoted p.1] (lexFrom .between p.2) := by
  have hopen : runLex .between ['"'] = some ([], .inQuotes []) := rfl
  have happ := lexFrom_append hopen (s ++ '"' :: rest)
  rw [prepend_nil, lexFrom_inQuotes] at happ
  simpa [Expr.text] using happ

/-- A clean literal is read as its own tokens. -/
theorem lexFrom_text {e : Expr} (he : e.Clean) {c : Char}
    (hc : IsDelimiter c) (rest : List Char) :
    lexFrom .between (e.text ++ c :: rest) =
      prepend e.tokens (lexFrom .between (c :: rest)) := by
  rcases e with (n | n) | s
  · exact lexFrom_numeral hc rest n
  · have hminus : runLex .between ['-'] = some ([.minus], .between) := rfl
    have happ := lexFrom_append hminus (numeral 10 (n + 1) ++ c :: rest)
    simp only [lexFrom_numeral hc, prepend_prepend] at happ
    exact happ
  · rw [lexFrom_quotedText, takeQuoted_of_quoteFree he
      (endsQuoted_cons rest hc.ne_quote)]
    rfl

/-- A clean literal, with a piece of text behind it. -/
theorem lexFrom_text_append {e : Expr} (he : e.Clean) {c : Char}
    (hc : IsDelimiter c) {piece : List Char} (hhead : piece.head? = some c)
    {ts : List Token} (hrun : runLex .between piece = some (ts, .between))
    (rest : List Char) :
    lexFrom .between (e.text ++ (piece ++ rest)) =
      prepend (e.tokens ++ ts) (lexFrom .between rest) := by
  obtain ⟨cs, rfl⟩ := List.head?_eq_some_iff.1 hhead
  have htail := lexFrom_append hrun rest
  rw [List.cons_append] at htail ⊢
  rw [lexFrom_text he hc, htail, prepend_prepend]

/-- The first token of a printed string is that string only if it is
clean. -/
theorem quoteFree_of_lexFrom {s : List Char} {c : Char} (hc : IsDelimiter c)
    {rest : List Char} {ts : List Token}
    (hlex : lexFrom .between ((Expr.quoted s).text ++ c :: rest) = some ts) :
    ∃ t us, ts = .quoted t :: us ∧ (t = s → QuoteFree s) := by
  rw [lexFrom_quotedText] at hlex
  cases htake : takeQuoted (s ++ '"' :: c :: rest) with
  | none => simp [htake] at hlex
  | some p =>
      obtain ⟨t, r⟩ := p
      simp only [htake, Option.bind_some] at hlex
      cases hrest : lexFrom .between r with
      | none => simp [hrest] at hlex
      | some us =>
          simp only [hrest, prepend_some, List.singleton_append,
            Option.some.injEq] at hlex
          refine ⟨t, us, hlex.symm, ?_⟩
          rintro rfl
          exact (takeQuoted_eq_self (endsQuoted_cons rest hc.ne_quote)
            htake).1

/-- What is read agrees with what was printed, as far as quoted literals
go. -/
def Expr.Agrees (printed read : Expr) : Prop :=
  ∀ s v, printed = .quoted s → read = .quoted v → v = s

/-- Conversely, a literal whose text reads back in agreement with it is
clean. -/
theorem clean_of_parseExpr {e e' : Expr} {c : Char} (hc : IsDelimiter c)
    {rest : List Char} {ts us : List Token} (hagree : e.Agrees e')
    (hlex : lexFrom .between (e.text ++ c :: rest) = some ts)
    (hparse : parseExpr ts = some (e', us)) : e.Clean := by
  rcases e with n | s
  · trivial
  · obtain ⟨t, more, rfl, hclean⟩ := quoteFree_of_lexFrom hc hlex
    simp only [parseExpr, Option.some.injEq, Prod.mk.injEq] at hparse
    exact hclean (hagree s t rfl hparse.1.symm)

/-! ### Tuples and batches -/

theorem fieldsText_cons_cons (e f : Expr) (es : List Expr)
    (rest : List Char) :
    fieldsText (e :: f :: es) ++ rest =
      e.text ++ ',' :: (' ' :: (fieldsText (f :: es) ++ rest)) := by
  simp [fieldsText]

theorem lexFrom_char {c : Char} {ts : List Token}
    (hstep : step .between c = some (ts, .between)) (cs : List Char) :
    lexFrom .between (c :: cs) = prepend ts (lexFrom .between cs) := by
  simp [lexFrom, hstep]

@[simp] theorem lexFrom_comma (cs : List Char) :
    lexFrom .between (',' :: cs) = prepend [.comma] (lexFrom .between cs) :=
  lexFrom_char rfl cs

@[simp] theorem lexFrom_space (cs : List Char) :
    lexFrom .between (' ' :: cs) = lexFrom .between cs := by
  simpa using @lexFrom_char ' ' [] rfl cs

@[simp] theorem lexFrom_lparen (cs : List Char) :
    lexFrom .between ('(' :: cs) = prepend [.lparen] (lexFrom .between cs) :=
  lexFrom_char rfl cs

@[simp] theorem lexFrom_rparen (cs : List Char) :
    lexFrom .between (')' :: cs) = prepend [.rparen] (lexFrom .between cs) :=
  lexFrom_char rfl cs

@[simp] theorem lexFrom_semi : lexFrom .between [';'] = some [.semi] := rfl

def RowClean (row : List Expr) : Prop := ∀ e ∈ row, e.Clean

instance (row : List Expr) : Decidable (RowClean row) :=
  inferInstanceAs (Decidable (∀ e ∈ row, e.Clean))

def fieldsTokens : List Expr → List Token
  | [] => []
  | [e] => e.tokens
  | e :: es => e.tokens ++ .comma :: fieldsTokens es

def rowTokens (row : List Expr) : List Token :=
  .lparen :: fieldsTokens row ++ [.rparen]

def rowsTokens : List (List Expr) → List Token
  | [] => []
  | [row] => rowTokens row
  | row :: rows => rowTokens row ++ .comma :: rowsTokens rows

theorem lexFrom_fieldsText {row : List Expr} (hne : row ≠ [])
    (hrow : RowClean row) (rest : List Char) :
    lexFrom .between (fieldsText row ++ ')' :: rest) =
      prepend (fieldsTokens row ++ [.rparen]) (lexFrom .between rest) := by
  induction row with
  | nil => exact absurd rfl hne
  | cons e es ih =>
      have he : e.Clean := hrow e List.mem_cons_self
      cases es with
      | nil =>
          simp [fieldsText, fieldsTokens,
            lexFrom_text he (Or.inr (Or.inl rfl))]
      | cons f fs =>
          have htail := ih (by simp)
            (fun x hx => hrow x (List.mem_cons_of_mem e hx))
          rw [fieldsText_cons_cons, lexFrom_text he (Or.inl rfl)]
          simp [htail, fieldsTokens]

theorem tokens_ne_nil (e : Expr) : 1 ≤ e.tokens.length := by
  rcases e with (n | n) | s <;> simp [Expr.tokens]

theorem length_le_fieldsTokens (row : List Expr) :
    row.length ≤ (fieldsTokens row).length := by
  induction row with
  | nil => simp [fieldsTokens]
  | cons e es ih =>
      have he := tokens_ne_nil e
      cases es with
      | nil => simpa [fieldsTokens] using he
      | cons f fs =>
          simp only [fieldsTokens, List.length_append,
            List.length_cons] at ih ⊢
          omega

theorem parseExprs_tokens {row : List Expr} (hne : row ≠ []) {fuel : Nat}
    (hfuel : row.length ≤ fuel) (ts : List Token) :
    parseExprs fuel (fieldsTokens row ++ .rparen :: ts) = some (row, ts) := by
  induction row generalizing fuel with
  | nil => exact absurd rfl hne
  | cons e es ih =>
      cases fuel with
      | zero => simp at hfuel
      | succ fuel =>
          cases es with
          | nil => simp [fieldsTokens, parseExprs]
          | cons f fs =>
              have htail := @ih (by simp) fuel (by simpa using hfuel)
              rw [show fieldsTokens (e :: f :: fs) =
                e.tokens ++ .comma :: fieldsTokens (f :: fs) from rfl]
              simp [parseExprs, htail]

/-- The whole remaining text is enough fuel. -/
theorem parseExprs_tokens_length {row : List Expr} (hne : row ≠ [])
    (ts : List Token) :
    parseExprs (fieldsTokens row ++ .rparen :: ts).length
      (fieldsTokens row ++ .rparen :: ts) = some (row, ts) := by
  apply parseExprs_tokens hne
  have hlen := length_le_fieldsTokens row
  rw [List.length_append]
  omega

/-- What a successful reading of a field list began with. -/
theorem parseExprs_cons {fuel : Nat} {ts us : List Token} {e : Expr}
    {es : List Expr} (h : parseExprs fuel ts = some (e :: es, us)) :
    (es = [] ∧ parseExpr ts = some (e, .rparen :: us)) ∨
      ∃ less rest, parseExpr ts = some (e, .comma :: rest) ∧
        parseExprs less rest = some (es, us) := by
  cases fuel with
  | zero => simp [parseExprs] at h
  | succ fuel =>
      rw [parseExprs] at h
      split at h
      · next e' rest hexpr =>
          simp only [Option.map_eq_some_iff, Prod.mk.injEq, List.cons.injEq,
            Prod.exists] at h
          obtain ⟨es', us', hrest, ⟨rfl, rfl⟩, rfl⟩ := h
          exact Or.inr ⟨fuel, rest, hexpr, hrest⟩
      · next e' rest hexpr =>
          simp only [Option.some.injEq, Prod.mk.injEq, List.cons.injEq] at h
          obtain ⟨⟨rfl, rfl⟩, rfl⟩ := h
          exact Or.inl ⟨rfl, hexpr⟩
      · cases h

theorem parseExprs_ne_nil {fuel : Nat} {ts us : List Token} :
    parseExprs fuel ts ≠ some ([], us) := by
  intro h
  cases fuel with
  | zero => simp [parseExprs] at h
  | succ fuel =>
      rw [parseExprs] at h
      split at h <;> simp at h

/-- A field list that reads back in agreement was clean, and the text behind
it was read from its own start. -/
theorem rowClean_of_parseExprs {row row' : List Expr} {rest : List Char}
    {ts us : List Token} {fuel : Nat}
    (hagree : List.Forall₂ Expr.Agrees row row')
    (hlex : lexFrom .between (fieldsText row ++ ')' :: rest) = some ts)
    (hparse : parseExprs fuel ts = some (row', us)) :
    RowClean row ∧ lexFrom .between rest = some us := by
  induction hagree generalizing ts fuel with
  | nil => exact absurd hparse parseExprs_ne_nil
  | @cons e e' es es' hhead hagree ih =>
      cases hagree with
      | nil =>
          rcases parseExprs_cons hparse with ⟨-, hexpr⟩ | ⟨_, _, _, hnil⟩
          · have hparen : IsDelimiter ')' := Or.inr (Or.inl rfl)
            have he := clean_of_parseExpr hparen hhead hlex hexpr
            refine ⟨by simpa [RowClean] using he, ?_⟩
            change lexFrom .between (e.text ++ ')' :: rest) = some ts at hlex
            rw [lexFrom_text he hparen, lexFrom_rparen] at hlex
            cases hrest : lexFrom .between rest with
            | none => simp [hrest] at hlex
            | some vs =>
                simp only [hrest, prepend_some, List.singleton_append,
                  Option.some.injEq] at hlex
                subst hlex
                simp only [parseExpr_tokens, Option.some.injEq, Prod.mk.injEq,
                  List.cons.injEq, true_and] at hexpr
                rw [hexpr.2]
          · exact absurd hnil parseExprs_ne_nil
      | @cons f f' fs fs' hnext hagree =>
          rcases parseExprs_cons hparse with ⟨hnil, -⟩ | ⟨less, ws, hexpr, htail⟩
          · cases hnil
          · have hcomma : IsDelimiter ',' := Or.inl rfl
            rw [fieldsText_cons_cons] at hlex
            have he := clean_of_parseExpr hcomma hhead hlex hexpr
            rw [lexFrom_text he hcomma, lexFrom_comma, lexFrom_space] at hlex
            cases hmore : lexFrom .between (fieldsText (f :: fs) ++ ')' :: rest) with
            | none => simp [hmore] at hlex
            | some vs =>
                simp only [hmore, prepend_some, List.singleton_append,
                  Option.some.injEq] at hlex
                subst hlex
                simp only [parseExpr_tokens, Option.some.injEq, Prod.mk.injEq,
                  List.cons.injEq, true_and] at hexpr
                obtain ⟨-, rfl⟩ := hexpr
                obtain ⟨hclean, hrest⟩ := ih hmore htail
                refine ⟨?_, hrest⟩
                intro x hx
                rcases List.mem_cons.mp hx with rfl | hx
                · exact he
                · exact hclean x hx

theorem rowsText_cons_cons (row next : List Expr) (rows : List (List Expr))
    (rest : List Char) :
    rowsText (row :: next :: rows) ++ rest =
      '(' :: (fieldsText row ++
        ')' :: (',' :: (rowsText (next :: rows) ++ rest))) := by
  simp [rowsText, tupleText]

theorem rowsText_singleton (row : List Expr) (rest : List Char) :
    rowsText [row] ++ rest = '(' :: (fieldsText row ++ ')' :: rest) := by
  simp [rowsText, tupleText]

/-- A clean batch is read as its own tokens. -/
theorem lexFrom_rowsText {rows : List (List Expr)} (hne : rows ≠ [])
    (hrows : ∀ row ∈ rows, row ≠ [] ∧ RowClean row) :
    lexFrom .between (rowsText rows ++ [';']) =
      some (rowsTokens rows ++ [.semi]) := by
  induction rows with
  | nil => exact absurd rfl hne
  | cons row rows ih =>
      obtain ⟨hrow, hclean⟩ := hrows row List.mem_cons_self
      cases rows with
      | nil =>
          rw [rowsText_singleton, lexFrom_lparen,
            lexFrom_fieldsText hrow hclean, lexFrom_semi]
          simp [rowsTokens, rowTokens]
      | cons next rows =>
          have htail := ih (by simp)
            (fun r hr => hrows r (List.mem_cons_of_mem row hr))
          rw [rowsText_cons_cons, lexFrom_lparen,
            lexFrom_fieldsText hrow hclean, lexFrom_comma, htail]
          simp [rowsTokens, rowTokens]

theorem length_le_rowsTokens (rows : List (List Expr)) :
    rows.length ≤ (rowsTokens rows).length := by
  induction rows with
  | nil => simp [rowsTokens]
  | cons row rows ih =>
      cases rows with
      | nil => simp [rowsTokens, rowTokens]
      | cons next rows =>
          simp only [rowsTokens, rowTokens, List.length_append,
            List.length_cons] at ih ⊢
          omega

theorem parseRows_tokens {rows : List (List Expr)} (hne : rows ≠ [])
    (hrows : ∀ row ∈ rows, row ≠ []) {fuel : Nat}
    (hfuel : rows.length ≤ fuel) :
    parseRows fuel (rowsTokens rows ++ [.semi]) = some rows := by
  induction rows generalizing fuel with
  | nil => exact absurd rfl hne
  | cons row rows ih =>
      have hrow := hrows row List.mem_cons_self
      cases fuel with
      | zero => simp at hfuel
      | succ fuel =>
          cases rows with
          | nil =>
              rw [show rowsTokens [row] ++ [Token.semi] =
                .lparen :: (fieldsTokens row ++ [.rparen, .semi]) by
                simp [rowsTokens, rowTokens]]
              rw [parseRows, parseExprs_tokens_length hrow]
          | cons next rows =>
              have htail := @ih (by simp)
                (fun r hr => hrows r (List.mem_cons_of_mem row hr))
                fuel (by simpa using hfuel)
              rw [show rowsTokens (row :: next :: rows) ++ [Token.semi] =
                .lparen :: (fieldsTokens row ++ .rparen :: .comma ::
                  (rowsTokens (next :: rows) ++ [.semi])) by
                simp [rowsTokens, rowTokens]]
              rw [parseRows, parseExprs_tokens_length hrow]
              simp [htail]

theorem parseRows_cons {fuel : Nat} {ts : List Token} {row : List Expr}
    {rows : List (List Expr)} (h : parseRows fuel ts = some (row :: rows)) :
    ∃ us, ts = .lparen :: us ∧
      ((rows = [] ∧ ∃ vs, (vs = [.semi] ∨ vs = []) ∧
          parseExprs us.length us = some (row, vs)) ∨
        ∃ less vs, parseExprs us.length us = some (row, .comma :: vs) ∧
          parseRows less vs = some rows) := by
  cases fuel with
  | zero => simp [parseRows] at h
  | succ fuel =>
      cases ts with
      | nil => simp [parseRows] at h
      | cons t us =>
          cases t <;> try (simp [parseRows] at h; done)
          refine ⟨us, rfl, ?_⟩
          rw [parseRows] at h
          split at h
          · next row' vs hexprs =>
              simp only [Option.map_eq_some_iff, List.cons.injEq] at h
              obtain ⟨rows', hrows, rfl, rfl⟩ := h
              exact Or.inr ⟨fuel, vs, hexprs, hrows⟩
          · next row' hexprs =>
              simp only [Option.some.injEq, List.cons.injEq] at h
              obtain ⟨rfl, rfl⟩ := h
              exact Or.inl ⟨rfl, _, Or.inl rfl, hexprs⟩
          · next row' hexprs =>
              simp only [Option.some.injEq, List.cons.injEq] at h
              obtain ⟨rfl, rfl⟩ := h
              exact Or.inl ⟨rfl, _, Or.inr rfl, hexprs⟩
          · cases h

/-- A batch that reads back in agreement was clean in every row. -/
theorem rowClean_of_parseRows {rows rows' : List (List Expr)}
    {ts : List Token} {fuel : Nat}
    (hagree : List.Forall₂ (List.Forall₂ Expr.Agrees) rows rows')
    (hlex : lexFrom .between (rowsText rows ++ [';']) = some ts)
    (hparse : parseRows fuel ts = some rows') :
    ∀ row ∈ rows, RowClean row := by
  induction hagree generalizing ts fuel with
  | nil => simp
  | @cons row row' rows rows' hrow hagree ih =>
      obtain ⟨us, rfl, hcases⟩ := parseRows_cons hparse
      cases hagree with
      | nil =>
          rw [rowsText_singleton, lexFrom_lparen] at hlex
          cases hrest : lexFrom .between (fieldsText row ++ [')', ';']) with
          | none => simp [hrest] at hlex
          | some vs =>
              simp only [hrest, prepend_some, List.singleton_append,
                Option.some.injEq, List.cons.injEq, true_and] at hlex
              subst hlex
              rcases hcases with ⟨-, ws, -, hexprs⟩ | ⟨less, ws, hexprs, -⟩
              · simpa using (rowClean_of_parseExprs hrow hrest hexprs).1
              · simpa using (rowClean_of_parseExprs hrow hrest hexprs).1
      | @cons next next' rows rows' hnext hagree =>
          rcases hcases with ⟨hnil, -⟩ | ⟨less, ws, hexprs, htail⟩
          · cases hnil
          · rw [rowsText_cons_cons, lexFrom_lparen] at hlex
            cases hrest : lexFrom .between (fieldsText row ++
                ')' :: (',' :: (rowsText (next :: rows) ++ [';']))) with
            | none => simp [hrest] at hlex
            | some vs =>
                simp only [hrest, prepend_some, List.singleton_append,
                  Option.some.injEq, List.cons.injEq, true_and] at hlex
                subst hlex
                obtain ⟨hclean, hmore⟩ :=
                  rowClean_of_parseExprs hrow hrest hexprs
                rw [lexFrom_comma] at hmore
                cases hlast : lexFrom .between
                    (rowsText (next :: rows) ++ [';']) with
                | none => simp [hlast] at hmore
                | some xs =>
                    simp only [hlast, prepend_some, List.singleton_append,
                      Option.some.injEq, List.cons.injEq, true_and] at hmore
                    subst hmore
                    intro r hr
                    rcases List.mem_cons.mp hr with rfl | hr
                    · exact hclean
                    · exact ih hlast htail r hr

/-! ### Whole statements -/

theorem parseSets_quoted {fuel : Nat} {c s : List Char} {us : List Token}
    {p : List (List Char × Expr) × List Token}
    (h : parseSets fuel (.word c :: .equals :: .quoted s :: us) = some p) :
    ∃ sets, p.1 = (lower c, .quoted s) :: sets := by
  cases fuel with
  | zero => simp [parseSets] at h
  | succ fuel =>
      simp only [parseSets, parseExpr] at h
      split at h
      · next heq =>
          cases heq
          obtain ⟨q, -, rfl⟩ := Option.map_eq_some_iff.mp h
          exact ⟨q.1, rfl⟩
      · next heq =>
          cases heq
          cases h
          exact ⟨[], rfl⟩
      · cases h

theorem parseWhere_some {table : List Char} {sets : List (List Char × Expr)}
    {ts : List Token} {stmt : Stmt} (h : parseWhere table sets ts = some stmt) :
    ∃ wc w, stmt = .update table sets wc w := by
  unfold parseWhere at h
  split at h
  · split at h
    · split at h <;> cases h <;> exact ⟨_, _, rfl⟩
    · cases h
  · cases h

/-- `hdr`, up to the parenthesis that opens the first tuple, announces an
`INSERT` into `table`. -/
def AnnouncesInsert (hdr : List Char) (replace : Bool) (table : List Char)
    (columns : List (List Char)) : Prop :=
  ∃ ts, runLex .between (hdr ++ ['(']) = some (ts ++ [.lparen], .between) ∧
    ∀ us, parse (ts ++ .lparen :: us) =
      parseBody replace table columns (.lparen :: us)

section Insert

variable {hdr table : List Char} {replace : Bool} {columns : List (List Char)}
  (hhdr : AnnouncesInsert hdr replace table columns)
include hhdr

/-- Behind the header there is nothing but the tuples to read. -/
theorem readStatement_announced {rows : List (List Expr)} (hne : rows ≠ []) :
    readStatement (hdr ++ rowsText rows ++ [';']) =
      (lexFrom .between (rowsText rows ++ [';'])).bind
        (parseBody replace table columns) := by
  obtain ⟨ts, hrun, hparse⟩ := hhdr
  obtain ⟨body, hbody⟩ : ∃ body, rowsText rows ++ [';'] = '(' :: body := by
    rcases rows with - | ⟨row, - | ⟨next, rows⟩⟩
    · exact absurd rfl hne
    · exact ⟨_, rowsText_singleton row _⟩
    · exact ⟨_, rowsText_cons_cons row next rows _⟩
  have hlex : lex (hdr ++ rowsText rows ++ [';']) =
      prepend ts (lexFrom .between (rowsText rows ++ [';'])) := by
    have happ := lexFrom_append hrun body
    rw [List.append_assoc, hbody, lexFrom_lparen, prepend_prepend, ← happ,
      List.append_assoc]
    rfl
  rw [readStatement, hlex, hbody, lexFrom_lparen]
  cases lexFrom .between body with
  | none => rfl
  | some us => simp [hparse]

/-- An `INSERT` of printed rows is read as one, and where the rows it is read
as agree with the printed ones no printed string holds a double quote. -/
theorem rowClean_of_readStatement {rows : List (List Expr)} (hne : rows ≠ [])
    {stmt : Stmt}
    (hread : readStatement (hdr ++ rowsText rows ++ [';']) = some stmt) :
    ∃ rows', stmt = .insert replace table columns rows' ∧
      (List.Forall₂ (List.Forall₂ Expr.Agrees) rows rows' →
        ∀ row ∈ rows, RowClean row) := by
  rw [readStatement_announced hhdr hne] at hread
  obtain ⟨us, hlex, hbody⟩ := Option.bind_eq_some_iff.mp hread
  obtain ⟨rows', hrows', rfl⟩ := Option.map_eq_some_iff.mp hbody
  exact ⟨rows', rfl, fun hagree => rowClean_of_parseRows hagree hlex hrows'⟩

/-- Clean rows are read back. -/
theorem readStatement_insert {rows : List (List Expr)} (hne : rows ≠ [])
    (hrows : ∀ row ∈ rows, row ≠ []) (hclean : ∀ row ∈ rows, RowClean row) :
    readStatement (hdr ++ rowsText rows ++ [';']) =
      some (.insert replace table columns rows) := by
  have hboth : ∀ row ∈ rows, row ≠ [] ∧ RowClean row :=
    fun row hrow => ⟨hrows row hrow, hclean row hrow⟩
  have hlen := length_le_rowsTokens rows
  have hlong : rows.length ≤ (rowsTokens rows ++ [Token.semi]).length := by
    rw [List.length_append]
    omega
  rw [readStatement_announced hhdr hne, lexFrom_rowsText hne hboth,
    Option.bind_some, parseBody, parseRows_tokens hne hrows hlong,
    Option.map_some]

end Insert

/-- `hdr` opens an `UPDATE` that assigns `column` of `table`, and `mid` goes
on to its `WHERE` on `whereColumn`. -/
structure AnnouncesUpdate (hdr mid table column whereColumn : List Char) :
    Prop where
  reads : ∃ ts, runLex .between hdr = some (ts, .between) ∧
    (∀ s us stmt, parse (ts ++ .quoted s :: us) = some stmt →
      ∃ sets wc w, stmt = .update table ((column, .quoted s) :: sets) wc w) ∧
    ∃ ms, runLex .between (' ' :: mid) = some (ms, .between) ∧
      ∀ s w, parse (ts ++ .quoted s :: (ms ++ (Expr.tokens w ++ [.semi]))) =
        some (.update table [(column, .quoted s)] whereColumn w)

/-- Behind the opening of an `UPDATE` there is the printed string to read. -/
theorem lex_update {hdr : List Char} {ts : List Token}
    (hrun : runLex .between hdr = some (ts, .between)) (s mid : List Char)
    (n : Int) :
    lex (hdr ++ (Expr.quoted s).text ++ ' ' :: mid ++ (Expr.int n).text ++
        [';']) =
      prepend ts (lexFrom .between ((Expr.quoted s).text ++
        ' ' :: (mid ++ ((Expr.int n).text ++ [';'])))) := by
  rw [← lexFrom_append hrun]
  simp [lex]

section Update

variable {hdr mid table column whereColumn : List Char}
  (hann : AnnouncesUpdate hdr mid table column whereColumn)
include hann

/-- A printed `UPDATE` is read as one, and where the assigned string is the
printed one it holds no double quote. -/
theorem quoteFree_of_readStatement {s : List Char} {n : Int} {stmt : Stmt}
    (hread : readStatement (hdr ++ (Expr.quoted s).text ++ ' ' :: mid ++
      (Expr.int n).text ++ [';']) = some stmt) :
    ∃ v sets wc w, stmt = .update table ((column, .quoted v) :: sets) wc w ∧
      (v = s → QuoteFree s) := by
  obtain ⟨ts, hrun, hfirst, -⟩ := hann.reads
  have hspace : IsDelimiter ' ' := Or.inr (Or.inr (Or.inr rfl))
  rw [readStatement, lex_update hrun] at hread
  cases hmore : lexFrom .between ((Expr.quoted s).text ++
      ' ' :: (mid ++ ((Expr.int n).text ++ [';']))) with
  | none =>
      rw [hmore] at hread
      cases hread
  | some us =>
      rw [hmore, prepend_some, Option.bind_some] at hread
      -- whatever string comes first, the statement carries it
      obtain ⟨v, vs, rfl, hclean⟩ := quoteFree_of_lexFrom hspace hmore
      obtain ⟨sets, wc, w, rfl⟩ := hfirst _ _ _ hread
      exact ⟨v, sets, wc, w, rfl, hclean⟩

/-- A string without a double quote is read back. -/
theorem readStatement_update {s : List Char} (hfree : QuoteFree s) (n : Int) :
    readStatement (hdr ++ (Expr.quoted s).text ++ ' ' :: mid ++
        (Expr.int n).text ++ [';']) =
      some (.update table [(column, .quoted s)] whereColumn (.int n)) := by
  obtain ⟨ts, hrun, -, ms, hmid, hparse⟩ := hann.reads
  let rest := mid ++ ((Expr.int n).text ++ [';'])
  have hspace : IsDelimiter ' ' := Or.inr (Or.inr (Or.inr rfl))
  have hsemi : IsDelimiter ';' := Or.inr (Or.inr (Or.inl rfl))
  have hclean : (Expr.quoted s).Clean := hfree
  have htail : lexFrom .between (' ' :: rest) =
      some (ms ++ ((Expr.int n).tokens ++ [.semi])) := by
    rw [show ' ' :: rest = (' ' :: mid) ++ ((Expr.int n).text ++ [';']) from rfl,
      lexFrom_append hmid, lexFrom_text (e := .int n) trivial hsemi]
    simp
  rw [readStatement, lex_update hrun, lexFrom_text hclean hspace, htail]
  simpa [Expr.tokens] using hparse s (.int n)

end Update

end SqlText
