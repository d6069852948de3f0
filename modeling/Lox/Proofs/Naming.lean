import Mathlib
import Lox.Proofs.Rereading
import Lox.Token.Scan

/-!
# Names in programs

In the tokens of a source no name is a keyword, and a keyword is written in one way
(`Token.fits_of_mem_scanAll`). Trees that are read from such tokens are *regular* (`Expr.Regular`,
`Stmt.Regular`): no variable is called `this` or `super`, and declarations stand in lists of
statements only, never alone as the body of a loop or of a branch.
-/

namespace Lox

/-! ### Scanned tokens -/

/-- A kind of token is written with the text: a name with one that is no keyword, and a keyword with
    its own. -/
def Token.Kind.Fits : Token.Kind → String → Prop
  | .identifier, text => Keyword.ofText? text = none
  | .keyword word, text => Keyword.ofText? text = some word
  | _, _ => True

namespace Segment

theorem fits_wordKind (word : List UInt8) : (wordKind word).Fits (Text.decodeLossy word) := by
  unfold wordKind
  split
  · next h => exact h
  · next h => exact h

/-- A segment that is a token is written as its kind asks for. -/
def Fits : Segment → Prop
  | token kind bytes => kind.Fits (Text.decodeLossy bytes)
  | _ => True

/-- What is split off a source is written as its kind asks for. -/
theorem fits_next (b : UInt8) (rest : List UInt8) : (next b rest).1.Fits := by
  unfold next
  split
  · trivial
  split
  · unfold nextString
    split <;> trivial
  split
  · unfold nextNumber
    split
    · split <;> trivial
    · trivial
  split
  · exact fits_wordKind _
  split
  · unfold nextMark
    repeat' split
    all_goals trivial
  · trivial

variable {source : List UInt8}

/-- What holds of every segment that can be split off holds of the segments of a source. -/
theorem of_mem_split {P : Segment → Prop} (hP : ∀ b rest, P (next b rest).1) {s : Segment}
    (h : s ∈ split source) : P s := by
  induction hn : source.length using Nat.strong_induction_on generalizing source with
  | _ n ih =>
    cases source with
    | nil => cases h
    | cons b rest =>
      rw [split_cons] at h
      rcases List.mem_cons.1 h with rfl | h
      · exact hP b rest
      · exact ih _ (hn ▸ next_length_lt b rest) h rfl

theorem fits_of_mem_split {s : Segment} (h : s ∈ split source) : s.Fits :=
  of_mem_split fits_next h

end Segment

namespace Token

/-- Tokens are written as their segments are. -/
theorem fits_of_mem_itemsFrom {segments : List Segment} (hs : ∀ s ∈ segments, s.Fits) {line : Nat}
    {t : Token} (h : .ok t ∈ itemsFrom line segments) : t.kind.Fits t.lexeme := by
  induction segments generalizing line with
  | nil =>
    cases List.mem_singleton.1 h
    trivial
  | cons s segments ih =>
    rw [itemsFrom, List.mem_append] at h
    rcases h with h | h
    · cases s with
      | token kind bytes =>
        cases List.mem_singleton.1 h
        exact hs (.token kind bytes) (List.mem_cons_self ..)
      | blank byte => cases h
      | comment bytes => cases h
      | stray byte => cases List.mem_singleton.1 h
      | unterminated bytes => cases List.mem_singleton.1 h
    · exact ih (fun s' hs' => hs s' (List.mem_cons_of_mem _ hs')) h

/-- The tokens of a source are written as their kinds ask for. -/
theorem fits_of_mem_scanAll {source : List UInt8} {t : Token} (h : t ∈ (scanAll source).1) :
    t.kind.Fits t.lexeme := by
  obtain ⟨item, hitem, ht⟩ := List.mem_filterMap.1 h
  rw [scan_eq] at hitem
  cases item with
  | error e => cases ht
  | ok t' =>
    cases ht
    exact fits_of_mem_itemsFrom (fun _ => Segment.fits_of_mem_split) hitem

end Token

/-- A symbol asks for a lexeme that fits its kind. -/
def Symbol.Fits (symbol : Symbol) : Prop := ∀ l ∈ symbol.lexeme, symbol.kind.Fits l.text

theorem Symbol.fits_of_spells {symbol : Symbol} {t : Token} (h : symbol.Spells t)
    (ht : t.kind.Fits t.lexeme) : symbol.Fits := by
  intro l hl
  rw [← h.1, ← h.2 l hl]
  exact ht

/-- All symbols of a list fit. -/
def SymbolsFit (symbols : List Symbol) : Prop := ∀ symbol ∈ symbols, symbol.Fits

variable {symbols : List Symbol} {l : Lexeme} {initial : Option Expr} {source : List UInt8}

@[simp]
theorem symbolsFit_cons {symbol : Symbol} :
    SymbolsFit (symbol :: symbols) ↔ symbol.Fits ∧ SymbolsFit symbols := by
  simp [SymbolsFit]

@[simp]
theorem symbolsFit_append {symbols' : List Symbol} :
    SymbolsFit (symbols ++ symbols') ↔ SymbolsFit symbols ∧ SymbolsFit symbols' := by
  simp [SymbolsFit, or_imp, forall_and]

theorem Spelled.fits {tokens : List Token} (h : Spelled symbols tokens)
    (ht : ∀ t ∈ tokens, t.kind.Fits t.lexeme) : SymbolsFit symbols := by
  induction h with
  | nil => nofun
  | cons h _ ih =>
    exact symbolsFit_cons.2 ⟨Symbol.fits_of_spells h (ht _ (List.mem_cons_self ..)),
      ih fun t hm => ht t (List.mem_cons_of_mem _ hm)⟩

/-! ### Regular trees -/

/-- The text is that of a name, not that of a keyword. -/
def Lexeme.IsName (l : Lexeme) : Prop := Keyword.ofText? l.text = none

@[simp]
theorem Symbol.fits_name : (Symbol.name l).Fits ↔ l.IsName := by
  simp [Symbol.Fits, Symbol.name, Token.Kind.Fits, Lexeme.IsName]

theorem Lexeme.IsName.ne_this (h : l.IsName) : l.text ≠ "this" := by
  intro ht
  rw [IsName, ht] at h
  cases h

theorem Lexeme.IsName.ne_super (h : l.IsName) : l.text ≠ "super" := by
  intro ht
  rw [IsName, ht] at h
  cases h

theorem Keyword.eq_this_of_ofText? {text : String} (h : ofText? text = some .this) :
    text = "this" := by
  unfold ofText? at h
  split at h <;> first | rfl | cases h

theorem Keyword.eq_super_of_ofText? {text : String} (h : ofText? text = some .super) :
    text = "super" := by
  unfold ofText? at h
  split at h <;> first | rfl | cases h

namespace Expr

mutual

/-- Variables are called by names, and `this` and `super` are written like that. -/
def Regular : Expr → Prop
  | literal _ _ => True
  | unary _ _ _ right => right.Regular
  | binary _ _ _ left right => left.Regular ∧ right.Regular
  | logical _ _ _ left right => left.Regular ∧ right.Regular
  | grouping _ inner => inner.Regular
  | var _ name => name.IsName
  | assign _ name value => name.IsName ∧ value.Regular
  | call _ callee _ arguments => callee.Regular ∧ AllRegular arguments
  | get _ object _ => object.Regular
  | set _ object _ value => object.Regular ∧ value.Regular
  | this _ keyword => keyword.text = "this"
  | super _ keyword _ => keyword.text = "super"

/-- All of the expressions are regular. -/
def AllRegular : List Expr → Prop
  | [] => True
  | e :: rest => e.Regular ∧ AllRegular rest

end

mutual

/-- An expression whose symbols fit is regular. -/
theorem regular_of_yield : (e : Expr) → SymbolsFit e.yield → e.Regular
  | literal _ _, _ => trivial
  | unary _ _ _ right, h => right.regular_of_yield (symbolsFit_cons.1 h).2
  | binary _ _ _ left right, h => by
    rw [yield, symbolsFit_append, symbolsFit_cons] at h
    exact ⟨left.regular_of_yield h.1, right.regular_of_yield h.2.2⟩
  | logical _ _ _ left right, h => by
    rw [yield, symbolsFit_append, symbolsFit_cons] at h
    exact ⟨left.regular_of_yield h.1, right.regular_of_yield h.2.2⟩
  | grouping _ inner, h => by
    rw [yield, symbolsFit_cons, symbolsFit_append] at h
    exact inner.regular_of_yield h.2.1
  | var _ name, h => Symbol.fits_name.1 (symbolsFit_cons.1 h).1
  | assign _ name value, h => by
    rw [yield, symbolsFit_cons, symbolsFit_cons, Symbol.fits_name] at h
    exact ⟨h.1, value.regular_of_yield h.2.2⟩
  | call _ callee _ arguments, h => by
    rw [yield, symbolsFit_append, symbolsFit_cons, symbolsFit_append] at h
    exact ⟨callee.regular_of_yield h.1, allRegular_of_yieldAll arguments h.2.2.1⟩
  | get _ object _, h => object.regular_of_yield (symbolsFit_append.1 h).1
  | set _ object _ value, h => by
    rw [yield, symbolsFit_append, symbolsFit_cons, symbolsFit_cons, symbolsFit_cons] at h
    exact ⟨object.regular_of_yield h.1, value.regular_of_yield h.2.2.2.2⟩
  | this _ keyword, h => Keyword.eq_this_of_ofText? ((symbolsFit_cons.1 h).1 keyword rfl)
  | super _ keyword _, h => Keyword.eq_super_of_ofText? ((symbolsFit_cons.1 h).1 keyword rfl)

theorem allRegular_of_yieldAll : (es : List Expr) → SymbolsFit (yieldAll es) → AllRegular es
  | [], _ => trivial
  | [e], h => ⟨e.regular_of_yield h, trivial⟩
  | e :: e' :: rest, h => by
    rw [yieldAll_cons_cons, symbolsFit_append, symbolsFit_cons] at h
    exact ⟨e.regular_of_yield h.1, allRegular_of_yieldAll (e' :: rest) h.2.2⟩

end

/-- An expression is regular, or missing. -/
def OptionRegular (e : Option Expr) : Prop := ∀ e' ∈ e, e'.Regular

theorem optionRegular_of_yieldOption {e : Option Expr} (h : SymbolsFit (yieldOption e)) :
    OptionRegular e := by
  rintro e' rfl
  exact e'.regular_of_yield h

end Expr

namespace Stmt

/-- Whether a statement declares a name in the scope in which it stands. -/
def declares? : Stmt → Option Lexeme
  | var name _ => some name
  | function decl => some decl.name
  | classDecl name _ _ => some name
  | _ => none

mutual

/-- Expressions are regular, names are names, and the parts of branches and loops declare
    nothing. -/
def Regular : Stmt → Prop
  | expression e => e.Regular
  | print e => e.Regular
  | var name initial => name.IsName ∧ Expr.OptionRegular initial
  | block body => AllRegular body
  | branch condition yes no =>
    condition.Regular ∧ (yes.Regular ∧ yes.declares? = none) ∧ OptionRegular no
  | loop condition body => condition.Regular ∧ body.Regular ∧ body.declares? = none
  | function decl => decl.name.IsName ∧ DeclRegular decl
  | ret _ value => Expr.OptionRegular value
  | classDecl name superclass methods =>
    name.IsName ∧ (∀ ref ∈ superclass, ref.name.IsName) ∧ DeclsRegular methods

/-- All of the statements are regular. -/
def AllRegular : List Stmt → Prop
  | [] => True
  | stmt :: rest => stmt.Regular ∧ AllRegular rest

def OptionRegular : Option Stmt → Prop
  | none => True
  | some stmt => stmt.Regular ∧ stmt.declares? = none

def DeclRegular : FunctionDecl Stmt → Prop
  | ⟨_, params, body⟩ => (∀ param ∈ params, param.IsName) ∧ AllRegular body

def DeclsRegular : List (FunctionDecl Stmt) → Prop
  | [] => True
  | decl :: rest => DeclRegular decl ∧ DeclsRegular rest

end

end Stmt

theorem isName_of_mem_yieldNames {names : List Lexeme} (h : SymbolsFit (yieldNames names)) :
    ∀ name ∈ names, name.IsName := by
  induction names with
  | nil => nofun
  | cons name rest ih =>
    cases rest with
    | nil =>
      rintro _ (_ | ⟨_, ⟨⟩⟩)
      exact Symbol.fits_name.1 (symbolsFit_cons.1 h).1
    | cons name' rest =>
      rw [yieldNames_cons_cons, symbolsFit_cons, symbolsFit_cons, Symbol.fits_name] at h
      exact List.forall_mem_cons.2 ⟨h.1, ih h.2.2⟩

theorem Expr.regular_of_yieldInitial {name : Lexeme} (h : SymbolsFit (yieldInitial name initial)) :
    name.IsName ∧ OptionRegular initial := by
  cases initial with
  | none => exact ⟨Symbol.fits_name.1 (symbolsFit_cons.1 h).1, nofun⟩
  | some e =>
    rw [yieldInitial, symbolsFit_cons, symbolsFit_cons, Symbol.fits_name] at h
    exact ⟨h.1, optionRegular_of_yieldOption h.2.2⟩

theorem regular_of_yieldVar {name : Lexeme} (h : SymbolsFit (yieldVar name initial)) :
    name.IsName ∧ Expr.OptionRegular initial :=
  Expr.regular_of_yieldInitial (symbolsFit_append.1 (symbolsFit_cons.1 h).2).1

/-- What a form says about its trees if its symbols fit. -/
def Form.Regular : Form → Prop
  | statement _ stmt => stmt.Regular ∧ stmt.declares? = none
  | declaration stmt => stmt.Regular
  | function decl => decl.name.IsName ∧ Stmt.DeclRegular decl
  | body stmts => Stmt.AllRegular stmts
  | methods decls => Stmt.DeclsRegular decls

theorem WrittenFirst.regular {initial : Option Stmt} {first : List Symbol}
    (h : WrittenFirst initial first) (hs : SymbolsFit first) : ∀ stmt ∈ initial, stmt.Regular := by
  cases h with
  | none => nofun
  | var _ =>
    rintro _ ⟨⟩
    exact regular_of_yieldVar hs
  | expression _ =>
    rintro _ ⟨⟩
    exact Expr.regular_of_yield _ (symbolsFit_append.1 hs).1

/-- The loop that a `for` stands for puts its declaration into a block. -/
theorem Read.ForClauses.regular_toLoop {clauses : ForClauses} {body : Stmt}
    (hi : ∀ stmt ∈ clauses.initial, stmt.Regular) (hc : clauses.condition.Regular)
    (hn : Expr.OptionRegular clauses.increment) (hb : body.Regular ∧ body.declares? = none) :
    (clauses.toLoop body).Regular ∧ (clauses.toLoop body).declares? = none := by
  obtain ⟨initial, condition, increment⟩ := clauses
  cases initial <;> cases increment <;>
    simp_all [ForClauses.toLoop, Stmt.Regular, Stmt.AllRegular, Stmt.declares?, Expr.OptionRegular]

/-- What is written with symbols that fit is regular. -/
theorem Written.regular {form : Form} (h : Written form symbols) (hs : SymbolsFit symbols) :
    form.Regular := by
  induction h with try simp only [symbolsFit_cons, symbolsFit_append, Symbol.fits_name] at hs
  | expression _ => exact ⟨Expr.regular_of_yield _ hs.1, rfl⟩
  | print _ => exact ⟨Expr.regular_of_yield _ hs.2.1, rfl⟩
  | ret _ => exact ⟨Expr.optionRegular_of_yieldOption hs.2.1, rfl⟩
  | block _ ih => exact ⟨ih hs.2.1, rfl⟩
  | branch _ _ ih =>
    obtain ⟨-, -, he, -, hyes⟩ := hs
    exact ⟨⟨Expr.regular_of_yield _ he, ih hyes, trivial⟩, rfl⟩
  | branchElse _ _ _ ih ih' =>
    obtain ⟨-, -, he, -, hyes, -, hno⟩ := hs
    exact ⟨⟨Expr.regular_of_yield _ he, ih hyes, ih' hno⟩, rfl⟩
  | loop _ _ ih =>
    obtain ⟨-, -, he, -, hbody⟩ := hs
    exact ⟨⟨Expr.regular_of_yield _ he, ih hbody⟩, rfl⟩
  | forLoop hfirst _ _ hcond _ ih =>
    obtain ⟨-, -, hf, hw, -, hi, -, hbody⟩ := hs
    refine Read.ForClauses.regular_toLoop (hfirst.regular hf) ?_
      (Expr.optionRegular_of_yieldOption hi) (ih hbody)
    cases hcond with
    | none id => trivial
    | some => exact Expr.regular_of_yield _ hw
  | statement _ ih => exact (ih hs).1
  | var _ => exact regular_of_yieldVar hs
  | functionDecl _ ih => exact ih hs.2
  | classDecl _ ih =>
    obtain ⟨-, hname, hsuper, -, hmethods, -⟩ := hs
    refine ⟨hname, ?_, ih hmethods⟩
    rintro ref rfl
    exact Symbol.fits_name.1 (symbolsFit_cons.1 (symbolsFit_cons.1 hsuper).2).1
  | function _ _ ih =>
    obtain ⟨hname, -, hparams, -, -, hbody, -⟩ := hs
    exact ⟨hname, isName_of_mem_yieldNames hparams, ih hbody⟩
  | bodyNil => trivial
  | bodyCons _ _ ih ih' => exact ⟨ih hs.1, ih' hs.2⟩
  | methodsNil => trivial
  | methodsCons _ _ ih ih' => exact ⟨(ih hs.1).2, ih' hs.2⟩

/-- The expression that a source is read as is regular. -/
theorem Expr.regular_of_parse {n : Nat} {e : Expr}
    (h : (Expr.parse (.ofTokens (Token.scanAll source).1 n)).1 = .ok e) : e.Regular := by
  refine e.regular_of_yield ((wellFormed_of_parse h).2.fits fun t ht => ?_)
  exact Token.fits_of_mem_scanAll ((List.takeWhile_sublist _).subset ht)

/-- The program that a source is read as is regular. -/
theorem Program.regular_of_parse {n : Nat} {p : Program}
    (h : (Program.parse (.ofTokens (Token.scanAll source).1 n)).1 = .ok p) : Stmt.AllRegular p := by
  obtain ⟨symbols, hw, hsp⟩ := Program.written_of_parse (Cursor.proper_ofTokens _ n) h
  refine hw.regular (hsp.fits fun t ht => ?_)
  exact Token.fits_of_mem_scanAll ((List.takeWhile_sublist _).subset ht)

end Lox
