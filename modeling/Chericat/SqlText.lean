import Chericat.Numeral

/-!
Reading SQL text.  The lexer is a character automaton, so that the reading of
a concatenation is computed piece by piece; the parser covers one `INSERT` or
`UPDATE` of literals.  The printer below puts strings between double quotes
as they are: `takeQuoted_eq_self` says exactly which strings survive that.
-/

namespace SqlText

open Numeral

/-- `quoted s` is a double-quoted token with its doubled quotes undone. -/
inductive Token where
  | word (w : List Char)
  | quoted (s : List Char)
  | num (n : Nat)
  | lparen | rparen | comma | semi | equals | minus
deriving Repr, DecidableEq

/-- What the lexer is in the middle of. -/
inductive Mode where
  | between
  | inWord (w : List Char)
  | inNum (n : Nat)
  | inQuotes (s : List Char)
  | quoteSeen (s : List Char)
deriving Repr, DecidableEq

def isWordStart (c : Char) : Bool := c.isAlpha || c == '_'

def isWordChar (c : Char) : Bool := c.isAlphanum || c == '_'

def punctuation : Char → Option Token
  | '(' => some .lparen
  | ')' => some .rparen
  | ',' => some .comma
  | ';' => some .semi
  | '=' => some .equals
  | '-' => some .minus
  | _ => none

/-- One character read outside any token. -/
def stepBetween (c : Char) : Option (List Token × Mode) :=
  if isSpace c then some ([], .between)
  else if c = '"' then some ([], .inQuotes [])
  else if isDigit 10 c then some ([], .inNum ((digitVal c).getD 0))
  else if isWordStart c then some ([], .inWord [c])
  else (punctuation c).map fun t => ([t], .between)

/-- `c` ends the pending token `t` and is then read on its own. -/
def emitThen (t : Token) (c : Char) : Option (List Token × Mode) :=
  (stepBetween c).map fun next => (t :: next.1, next.2)

def step : Mode → Char → Option (List Token × Mode)
  | .between, c => stepBetween c
  | .inWord w, c =>
      if isWordChar c then some ([], .inWord (w ++ [c])) else emitThen (.word w) c
  | .inNum n, c =>
      if isDigit 10 c then some ([], .inNum (n * 10 + (digitVal c).getD 0))
      else if isWordStart c then none
      else emitThen (.num n) c
  | .inQuotes s, c =>
      if c = '"' then some ([], .quoteSeen s) else some ([], .inQuotes (s ++ [c]))
  | .quoteSeen s, c =>
      if c = '"' then some ([], .inQuotes (s ++ ['"'])) else emitThen (.quoted s) c

/-- The tokens still pending at the end of the text. -/
def finish : Mode → Option (List Token)
  | .between => some []
  | .inWord w => some [.word w]
  | .inNum n => some [.num n]
  | .inQuotes _ => none
  | .quoteSeen s => some [.quoted s]

/-- Tokens already read, in front of what the rest of the text yields. -/
def prepend (ts : List Token) (more : Option (List Token)) :
    Option (List Token) :=
  more.map (ts ++ ·)

@[simp] theorem prepend_none (ts : List Token) : prepend ts none = none := rfl

@[simp] theorem prepend_some (ts more : List Token) :
    prepend ts (some more) = some (ts ++ more) := rfl

@[simp] theorem prepend_nil (more : Option (List Token)) :
    prepend [] more = more := by
  cases more <;> rfl

@[simp] theorem prepend_prepend (ts us : List Token)
    (more : Option (List Token)) :
    prepend ts (prepend us more) = prepend (ts ++ us) more := by
  cases more <;> simp

def lexFrom : Mode → List Char → Option (List Token)
  | mode, [] => finish mode
  | mode, c :: cs =>
      match step mode c with
      | none => none
      | some (ts, next) => prepend ts (lexFrom next cs)

def lex (text : List Char) : Option (List Token) := lexFrom .between text

/-- The automaton run over a prefix: its tokens and the mode it ends in. -/
def runLex : Mode → List Char → Option (List Token × Mode)
  | mode, [] => some ([], mode)
  | mode, c :: cs =>
      match step mode c with
      | none => none
      | some (ts, next) => (runLex next cs).map fun r => (ts ++ r.1, r.2)

/-- Reading a concatenation continues from the mode its prefix ends in. -/
theorem lexFrom_append {mode next : Mode} {pre : List Char} {ts : List Token}
    (hrun : runLex mode pre = some (ts, next)) (rest : List Char) :
    lexFrom mode (pre ++ rest) = prepend ts (lexFrom next rest) := by
  induction pre generalizing mode ts with
  | nil =>
      simp only [runLex, Option.some.injEq, Prod.mk.injEq] at hrun
      obtain ⟨rfl, rfl⟩ := hrun
      simp
  | cons c cs ih =>
      cases hstep : step mode c with
      | none => simp [runLex, hstep] at hrun
      | some out =>
          obtain ⟨head, mid⟩ := out
          simp only [runLex, hstep, Option.map_eq_some_iff,
            Prod.mk.injEq, Prod.exists] at hrun
          obtain ⟨tail, last, htail, rfl, rfl⟩ := hrun
          simp [lexFrom, hstep, ih htail]

/-! ### Double-quoted tokens -/

/-- The content of a double-quoted token whose opening quote has been read,
and the text after its closing quote. -/
def takeQuoted : List Char → Option (List Char × List Char)
  | [] => none
  | [c] => if c = '"' then some ([], []) else none
  | c :: d :: cs =>
      if c = '"' then
        if d = '"' then (takeQuoted cs).map fun p => ('"' :: p.1, p.2)
        else some ([], d :: cs)
      else (takeQuoted (d :: cs)).map fun p => (c :: p.1, p.2)

/-- A character that ends a pending token is read on its own afterwards. -/
theorem lexFrom_emitThen {mode : Mode} {t : Token} {c : Char}
    (hstep : step mode c = emitThen t c) (cs : List Char) :
    lexFrom mode (c :: cs) = prepend [t] (lexFrom .between (c :: cs)) := by
  have hbetween : step .between c = stepBetween c := rfl
  rw [lexFrom, lexFrom, hstep, hbetween]
  cases hnext : stepBetween c with
  | none => simp [emitThen, hnext]
  | some out => simp [emitThen, hnext]

/-- The automaton reads a quoted token the way `takeQuoted` does. -/
theorem lexFrom_inQuotes (acc text : List Char) :
    lexFrom (.inQuotes acc) text =
      (takeQuoted text).bind fun p =>
        prepend [.quoted (acc ++ p.1)] (lexFrom .between p.2) := by
  induction text using takeQuoted.induct generalizing acc with
  | case1 => rfl
  | case2 => simp [lexFrom, step, takeQuoted, finish]
  | case3 c hc => simp [lexFrom, step, takeQuoted, hc, finish]
  | case4 cs ih =>
      simp only [lexFrom, step, ↓reduceIte, prepend_nil, ih, takeQuoted,
        Option.bind_map, Function.comp_def, List.append_assoc,
        List.singleton_append]
  | case5 d cs hd =>
      have hclose : lexFrom (.quoteSeen acc) (d :: cs) =
          prepend [.quoted acc] (lexFrom .between (d :: cs)) :=
        lexFrom_emitThen (by simp [step, hd]) cs
      rw [lexFrom]
      simp [step, hclose, takeQuoted, hd]
  | case6 c d cs hc ih =>
      rw [lexFrom]
      simp [step, hc, ih, takeQuoted, Option.bind_map]

/-- No double quote occurs in `s`. -/
def QuoteFree (s : List Char) : Prop := '"' ∉ s

instance (s : List Char) : Decidable (QuoteFree s) :=
  inferInstanceAs (Decidable ('"' ∉ s))

/-- `rest` does not begin with a double quote. -/
def EndsQuoted (rest : List Char) : Prop := ∀ cs, rest ≠ '"' :: cs

theorem endsQuoted_cons {c : Char} (cs : List Char) (hc : c ≠ '"') :
    EndsQuoted (c :: cs) := by
  intro ds h
  exact hc (List.cons.inj h).1

theorem takeQuoted_close {rest : List Char} (hrest : EndsQuoted rest) :
    takeQuoted ('"' :: rest) = some ([], rest) := by
  cases rest with
  | nil => rfl
  | cons d cs =>
      have hd : d ≠ '"' := fun h => hrest cs (by rw [h])
      simp [takeQuoted, hd]

theorem takeQuoted_cons {c : Char} (hc : c ≠ '"') (cs : List Char) :
    takeQuoted (c :: cs) = (takeQuoted cs).map fun p => (c :: p.1, p.2) := by
  cases cs with
  | nil => simp [takeQuoted, hc]
  | cons d ds => simp [takeQuoted, hc]

/-- A quote-free string between two quotes reads back as itself. -/
theorem takeQuoted_of_quoteFree {s rest : List Char} (hs : QuoteFree s)
    (hrest : EndsQuoted rest) :
    takeQuoted (s ++ '"' :: rest) = some (s, rest) := by
  induction s with
  | nil => exact takeQuoted_close hrest
  | cons c cs ih =>
      simp only [QuoteFree, List.mem_cons, not_or] at hs
      rw [List.cons_append, takeQuoted_cons (Ne.symm hs.1), ih hs.2]
      rfl

/-- After at least one quote read too few, the token never catches up: the
content read lags behind the string by the quotes that were undoubled. -/
theorem takeQuoted_lags {rest : List Char} (hrest : EndsQuoted rest) :
    ∀ (s : List Char) (k : Nat) (r : List Char),
      takeQuoted (s ++ '"' :: rest) ≠
        some (List.replicate (k + 1) '"' ++ s, r) := by
  intro s
  induction s using takeQuoted.induct with
  | case1 =>
      intro k r
      simp [takeQuoted_close hrest, List.replicate_succ]
  | case2 =>
      intro k r
      -- the string is one quote, paired with the closing one
      have hquotes : List.replicate (k + 1) '"' ++ ['"'] =
          '"' :: '"' :: List.replicate k '"' := by
        rw [← List.replicate_succ', List.replicate_succ, List.replicate_succ]
      rw [hquotes]
      simp only [List.cons_append, List.nil_append, takeQuoted, ↓reduceIte]
      cases rest with
      | nil => simp [takeQuoted]
      | cons c cs =>
          have hc : c ≠ '"' := fun h => hrest cs (by rw [h])
          rw [takeQuoted_cons hc]
          cases takeQuoted cs <;> simp [hc]
  | case3 c hc =>
      intro k r
      rw [List.cons_append, takeQuoted_cons hc]
      cases takeQuoted ([] ++ '"' :: rest) <;>
        simp [List.replicate_succ, hc]
  | case4 cs ih =>
      intro k r h
      simp only [List.cons_append, takeQuoted, ↓reduceIte,
        Option.map_eq_some_iff, Prod.mk.injEq, Prod.exists] at h
      obtain ⟨t, r', ht, heq, rfl⟩ := h
      refine ih (k + 1) r' ?_
      rw [ht]
      congr 2
      have hshift : List.replicate (k + 1) '"' ++ '"' :: '"' :: cs =
          '"' :: (List.replicate (k + 1 + 1) '"' ++ cs) := by
        rw [← List.cons_append, ← List.replicate_succ,
          List.replicate_succ' (n := k + 1 + 1), List.replicate_succ' (n := k + 1)]
        simp
      rw [hshift] at heq
      exact (List.cons.inj heq).2
  | case5 d cs hd =>
      intro k r
      simp [takeQuoted, hd, List.replicate_succ]
  | case6 c d cs hc _ =>
      intro k r
      rw [List.cons_append, takeQuoted_cons hc]
      cases takeQuoted (d :: cs ++ '"' :: rest) <;>
        simp [List.replicate_succ, hc]

/-- The strings a token reads back unchanged are the quote-free ones. -/
theorem takeQuoted_eq_self {rest : List Char} (hrest : EndsQuoted rest)
    {s r : List Char} (h : takeQuoted (s ++ '"' :: rest) = some (s, r)) :
    QuoteFree s ∧ r = rest := by
  induction s generalizing r with
  | nil =>
      rw [List.nil_append, takeQuoted_close hrest] at h
      simp only [Option.some.injEq, Prod.mk.injEq, true_and] at h
      exact ⟨by simp [QuoteFree], h.symm⟩
  | cons c cs ih =>
      by_cases hc : c = '"'
      · subst hc
        exfalso
        cases cs with
        | nil =>
            simp only [List.cons_append, List.nil_append, takeQuoted,
              ↓reduceIte, Option.map_eq_some_iff, Prod.mk.injEq,
              List.cons.injEq, true_and, Prod.exists] at h
            obtain ⟨t, r', ht, rfl, -⟩ := h
            cases rest with
            | nil => simp [takeQuoted] at ht
            | cons d ds =>
                have hd : d ≠ '"' := fun h => hrest ds (by rw [h])
                rw [takeQuoted_cons hd] at ht
                cases htail : takeQuoted ds <;> simp [htail] at ht
        | cons d ds =>
            by_cases hd : d = '"'
            · subst hd
              simp only [List.cons_append, takeQuoted, ↓reduceIte,
                Option.map_eq_some_iff, Prod.mk.injEq, List.cons.injEq,
                true_and, Prod.exists] at h
              obtain ⟨t, r', ht, rfl, -⟩ := h
              exact takeQuoted_lags hrest ds 0 r' (by simpa using ht)
            · simp [takeQuoted, hd] at h
      · rw [List.cons_append, takeQuoted_cons hc] at h
        simp only [Option.map_eq_some_iff, Prod.mk.injEq, List.cons.injEq,
          true_and, Prod.exists] at h
        obtain ⟨t, r', ht, rfl, rfl⟩ := h
        obtain ⟨hfree, hr⟩ := ih ht
        exact ⟨by simpa [QuoteFree, hfree] using ⟨Ne.symm hc, hfree⟩, hr⟩

end SqlText
