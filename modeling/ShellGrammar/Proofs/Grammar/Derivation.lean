import ShellGrammar.Grammar.Command
import ShellGrammar.Proofs.Grammar.Nesting

/-! What the productions yield, as a relation.

`Derives c p nodes ts levels` says that in the context `c` the phrase `p` can be read
from the tokens `ts` as `nodes`, opening `levels` levels of nesting at most. There is a
case for each way in which a production can end well, and it names the tokens that are
taken there and the rules under which they are read. The cases mention no parser and no
state: what holds of every tree is proved by induction on derivations, and that the
trees of the parser have derivations is proved apart from it, once. -/
namespace ShellGrammar

namespace Context

/-- Newlines one after another. -/
def Newlines (c : Context) (ts : List Token) : Prop := ∀ t ∈ ts, c.Finds [.newline] t

/-- A token of a given shape, or none. -/
def Optional (c : Context) (pattern : Pattern) (kind : Kind) (o : Option Token) : Prop :=
  ∀ t, o = some t → c.Accepts pattern kind t

/-- The brace that closes an expansion. -/
def Closes (c : Context) (blankBeforeBrace : Bool) (t : Token) : Prop :=
  if blankBeforeBrace then c.Takes (.lit ['}']) .rbrace true t else c.Finds [.rbrace] t

end Context

open Grammar

/-- The marks and the name of a parameter, out of the tokens for a length, a reference
and a name. -/
inductive Heading (c : Context) : Head → List Token → Prop where
  | named {length ref : Option Token} {t : Token} :
      c.Optional (.lit ['#']) .sharp length → c.Optional (.lit ['!']) .bang ref →
      c.Finds [.name] t →
      Heading c ⟨length.isSome, ref.isSome, t.body⟩ (length.toList ++ ref.toList ++ [t])
  | bang {length : Option Token} {t : Token} :
      c.Optional (.lit ['#']) .sharp length → c.Accepts (.lit ['!']) .bang t →
      Heading c ⟨length.isSome, false, ['!']⟩ (length.toList ++ [t])
  | sharp {t : Token} :
      c.Accepts (.lit ['#']) .sharp t → Heading c ⟨false, false, ['#']⟩ [t]

/-- The phrases of the grammar. Chains are told apart by how many operators they have
taken. -/
inductive Phrase where
  /-- A phrase any number of times. -/
  | many (p : Phrase)
  -- Commands
  /-- Entries and the closer behind them. -/
  | list (closer : Closer)
  | entries
  | entry
  | andOr (folds : Nat)
  | pipeline
  | pipe (folds : Nat)
  | command
  | assign
  -- Words
  | word
  /-- A piece, which may have to touch what stands before it. -/
  | piece (adjacent : Bool)
  /-- A word under a rule set, or nothing. -/
  | payload (rules : Rules)
  -- Behind an opener
  | doubleQuoted
  | parameter
  | arithExpansion
  | nestedList (closer : Closer)
  -- Parameters
  /-- What follows a name, and whether blank may stand before the brace. -/
  | form (ref : Bool) (name : Text) (blankBeforeBrace : Bool)
  /-- An arithmetic expression inside an expansion. -/
  | operand
  -- Arithmetic
  | comma (folds : Nat)
  | assignment
  | ternary
  /-- Operators from a row inward. -/
  | binary (min folds : Nat)
  | power
  | unary
  | post
  | primary

/-- Whether a phrase can stand any number of times. -/
def Phrase.isPart : Phrase → Bool
  | assign | word | piece _ => true
  | _ => false

inductive Derives : Context → Phrase → List Node → List Token → Nat → Prop where
  | manyNil {c p} : Derives c (.many p) [] [] 0
  | manyCons {c p a as ts us n m} : p.isPart = true → Derives c p [a] ts n →
      Derives c (.many p) as us m → Derives c (.many p) (a :: as) (ts ++ us) (max n m)
  -- Commands
  | list {c closer as ts n t} : Derives c .entries as ts n → c.Finds [closer.kind] t →
      Derives c (.list closer) [.list as] (ts ++ [t]) n
  | entriesNil {c us} : c.Newlines us → Derives c .entries [] us 0
  | entriesLast {c us a ts n} : c.Newlines us → Derives c .entry [a] ts n →
      isTerminated a = false → Derives c .entries [a] (us ++ ts) n
  | entriesCons {c us a as ts vs n m} : c.Newlines us → Derives c .entry [a] ts n →
      isTerminated a = true → Derives c .entries as vs m →
      Derives c .entries (a :: as) (us ++ (ts ++ vs)) (max n m)
  | entry {c folds a ts n} : Derives c (.andOr folds) [a] ts n →
      Derives c .entry [.pipelines a none] ts n
  | entryTerminated {c folds a ts n t} : Derives c (.andOr folds) [a] ts n →
      c.Finds terminals t → Derives c .entry [.pipelines a (some t.body)] (ts ++ [t]) n
  | andOrFirst {c a ts n} : Derives c .pipeline [a] ts n → Derives c (.andOr 0) [a] ts n
  | andOrFold {c folds a b ts us vs n m t} : Derives c (.andOr folds) [a] ts n →
      c.Finds [.andAnd, .orOr] t → c.Newlines us → Derives c .pipeline [b] vs m →
      Derives c (.andOr (folds + 1)) [.andOr t.body a b] (ts ++ (t :: us ++ vs))
        (max n (folds + 1 + m))
  | pipeline {c folds a ts n} : Derives c (.pipe folds) [a] ts n →
      Derives c .pipeline [.pipeline false a] ts n
  | pipelineNegated {c folds a ts n t} : c.Finds [.str] t → t.body = ['!'] →
      Derives c (.pipe folds) [a] ts n → Derives c .pipeline [.pipeline true a] (t :: ts) n
  | pipeFirst {c a ts n} : Derives c .command [a] ts n → Derives c (.pipe 0) [a] ts n
  | pipeFold {c folds a b ts us vs n m t} : Derives c (.pipe folds) [a] ts n →
      c.Finds [.pipe, .pipeAmp] t → c.Newlines us → Derives c .command [b] vs m →
      Derives c (.pipe (folds + 1)) [.pipe t.body a b] (ts ++ (t :: us ++ vs))
        (max n (folds + 1 + m))
  | command {c as bs ts us n m} : Derives c (.many .assign) as ts n →
      Derives c (.many .word) bs us m → (as.isEmpty && bs.isEmpty) = false →
      Derives c .command [.simpleCommand as bs] (ts ++ us) (max n m)
  | assignBare {c t} : c.Accepts assignHead .assignHead t →
      Derives c .assign [.assign t.body.dropLast none] [t] 0
  | assign {c t a ts n} : c.Accepts assignHead .assignHead t →
      Derives (c.under .command false) .word [a] ts n →
      Derives c .assign [.assign t.body.dropLast (some a)] (t :: ts) n
  -- Words
  | word {c a ts n} : Derives c (.piece false) [a] ts n → Derives c .word [a] ts n
  | wordConcat {c a b as ts us n m} : Derives c (.piece false) [a] ts n →
      Derives c (.many (.piece true)) (b :: as) us m →
      Derives c .word [.concat (a :: b :: as)] (ts ++ us) (max n m)
  | str {c adjacent t} : c.Sees adjacent t → t.kind = .str →
      Derives c (.piece adjacent) [.str t.body] [t] 0
  | singleQuoted {c adjacent t} : c.Sees adjacent t → t.kind = .singleQuote →
      Derives c (.piece adjacent) [.singleQuoted (between t.body)] [t] 0
  | simpleParam {c adjacent t} : c.Sees adjacent t → t.kind = .dollarName →
      Derives c (.piece adjacent) [.simpleParam (withoutDollar t.body)] [t] 0
  | pieceQuoted {c adjacent t a ts n} : c.Sees adjacent t → t.kind = .doubleQuote →
      Derives c .doubleQuoted [a] ts n → Derives c (.piece adjacent) [a] (t :: ts) (1 + n)
  | pieceParameter {c adjacent t a ts n} : c.Sees adjacent t → t.kind = .dollarBrace →
      Derives c .parameter [a] ts n → Derives c (.piece adjacent) [a] (t :: ts) (1 + n)
  | pieceArith {c adjacent t a ts n} : c.Sees adjacent t → t.kind = .dollarParen2 →
      Derives c .arithExpansion [a] ts n → Derives c (.piece adjacent) [a] (t :: ts) (1 + n)
  | pieceCommand {c adjacent t a ts n} : c.Sees adjacent t → t.kind = .dollarParen →
      Derives c (.nestedList .paren) [a] ts n →
      Derives c (.piece adjacent) [.commandSubst t.body a] (t :: ts) (1 + n)
  | pieceBackquoted {c adjacent t a ts n} : c.Sees adjacent t → t.kind = .backquote →
      c.inBackquote = false → Derives c (.nestedList .backquote) [a] ts n →
      Derives c (.piece adjacent) [.commandSubst t.body a] (t :: ts) (1 + n)
  | pieceProcess {c adjacent t a ts n} : c.Sees adjacent t → t.kind ∈ [.inParen, .outParen] →
      Derives c (.nestedList .paren) [a] ts n →
      Derives c (.piece adjacent) [.processSubst (t.body.takeWhile (· != '(')) a] (t :: ts) (1 + n)
  | payloadEmpty {c rules} : Derives c (.payload rules) [.empty] [] 0
  | payload {c rules a ts n} : Derives (c.under rules true) .word [a] ts n →
      Derives c (.payload rules) [a] ts n
  -- Behind an opener
  | doubleQuoted {c as ts n t} : Derives (c.under .doubleQuote true) (.many (.piece false)) as ts n →
      (c.under .doubleQuote true).Finds [.doubleQuote] t →
      Derives c .doubleQuoted [.doubleQuoted as] (ts ++ [t]) n
  | parameterLength {c h hs t} : Heading (c.under .param false) h hs → h.length = true →
      (c.under .param false).Closes false t →
      Derives c .parameter [.paramLength h.ref h.name] (hs ++ [t]) 0
  | parameter {c h hs blank a ts n t} : Heading (c.under .param false) h hs → h.length = false →
      Derives (c.under .param false) (.form h.ref h.name blank) [a] ts n →
      (c.under .param false).Closes blank t → Derives c .parameter [a] (hs ++ (ts ++ [t])) n
  | arithExpansion {c folds a ts n t} : Derives (c.under .arith true) (.comma folds) [a] ts n →
      (c.under .arith true).Accepts (.lit [')', ')']) .rparen t →
      Derives c .arithExpansion [.arithExpansion a] (ts ++ [t]) n
  | nestedList {c closer a ts n} :
      Derives ((c.inside closer).under .command true) (.list closer) [a] ts n →
      Derives c (.nestedList closer) [a] ts n
  -- Parameters
  | param {c ref name} : Derives c (.form ref name false) [.param ref name] [] 0
  | arrayKeys {c name t} : c.Finds [.bracketAt, .bracketStar] t →
      Derives c (.form true name false) [.arrayKeys name (between t.body)] [t] 0
  | arrayElements {c name t} : c.Finds [.bracketAt, .bracketStar] t →
      Derives c (.form false name false) [.arrayElements name (between t.body)] [t] 0
  | paramDefault {c ref name t a ts n} : c.Accepts defaultOp .op t →
      Derives c (.payload .wordUntilBrace) [a] ts n →
      Derives c (.form ref name false) [.paramDefault ref name t.body a] (t :: ts) n
  | substring {c ref name t a ts n} : c.Accepts (.lit [':']) .colon t →
      Derives c .operand [a] ts n →
      Derives c (.form ref name true) [.substring ref name a .empty] (t :: ts) n
  | substringLength {c ref name t a ts n u b us m} : c.Accepts (.lit [':']) .colon t →
      Derives c .operand [a] ts n → c.Takes (.lit [':']) .colon true u →
      Derives c .operand [b] us m →
      Derives c (.form ref name true) [.substring ref name a b] (t :: ts ++ u :: us) (max n m)
  | patternRemoval {c ref name t a ts n} : c.Accepts removalOp .op t →
      Derives c (.payload .wordUntilBrace) [a] ts n →
      Derives c (.form ref name false) [.patternRemoval ref name t.body a] (t :: ts) n
  | caseChange {c ref name t a ts n} : c.Accepts caseOp .op t →
      Derives c (.payload .wordUntilBrace) [a] ts n →
      Derives c (.form ref name false) [.caseChange ref name t.body a] (t :: ts) n
  | patternReplacement {c ref name t anchor a ts n} : c.Accepts (.lit ['/']) .slash t →
      c.Optional replacementMode .op anchor → Derives c (.payload .wordUntilSlash) [a] ts n →
      Derives c (.form ref name false)
        [.patternReplacement ref name (t.body ++ (anchor.map (·.body)).getD []) a none]
        (t :: anchor.toList ++ ts) n
  | patternReplaced {c ref name t anchor a ts n u b us m} : c.Accepts (.lit ['/']) .slash t →
      c.Optional replacementMode .op anchor → Derives c (.payload .wordUntilSlash) [a] ts n →
      c.Accepts (.lit ['/']) .slash u → Derives c (.payload .wordUntilBrace) [b] us m →
      Derives c (.form ref name false)
        [.patternReplacement ref name (t.body ++ (anchor.map (·.body)).getD []) a (some b)]
        (t :: anchor.toList ++ (ts ++ u :: us)) (max n m)
  | paramTransform {c ref name t u} : c.Accepts (.lit ['@']) .glyph t → c.Accepts transformOp .op u →
      Derives c (.form ref name false) [.paramTransform ref name u.body] [t, u] 0
  | namesStarting {c name mark t} : mark = '@' ∨ mark = '*' → c.Accepts (.lit [mark]) .glyph t →
      Text.isVariableName name = true →
      Derives c (.form true name false) [.namesStarting name [mark]] [t] 0
  | arrayElement {c ref name t a ts n u} : c.Finds [.lbracket] t → Derives c .operand [a] ts n →
      c.Takes (.lit [']']) .rbracket true u →
      Derives c (.form ref name false) [.arrayElement ref name a] (t :: ts ++ [u]) n
  | operand {c folds a ts n} : Derives (c.under .arith true) (.comma folds) [a] ts n →
      Derives c .operand [a] ts n
  -- Arithmetic
  | commaFirst {c a ts n} : Derives c .assignment [a] ts n → Derives c (.comma 0) [a] ts n
  | commaFold {c folds a b ts us n m t} : Derives c (.comma folds) [a] ts n → c.Finds [.comma] t →
      Derives c .assignment [b] us m →
      Derives c (.comma (folds + 1)) [.binOp t.body a b] (ts ++ t :: us) (max n (folds + 1 + m))
  | assignment {c a ts n} : Derives c .ternary [a] ts n → Derives c .assignment [a] ts n
  | assignmentOp {c t u a ts n} : c.Finds [.ident] t → c.Finds assignmentOps u →
      Derives c .assignment [a] ts n →
      Derives c .assignment [.binOp u.body (.var t.body false) a] (t :: u :: ts) (1 + n)
  | ternary {c folds a ts n} : Derives c (.binary 0 folds) [a] ts n → Derives c .ternary [a] ts n
  | ternaryOp {c folds₁ folds₂ a b d ts us vs n m k t u} : Derives c (.binary 0 folds₁) [a] ts n →
      c.Finds [.question] t → Derives c (.comma folds₂) [b] us m → c.Finds [.colon] u →
      Derives c .ternary [d] vs k →
      Derives c .ternary [.ternary a b d] (ts ++ t :: us ++ u :: vs)
        (max n (max (1 + m) (1 + k)))
  | binaryFirst {c min a ts n} : Derives c .power [a] ts n → Derives c (.binary min 0) [a] ts n
  | binaryFold {c min folds row folds' a b ts us n m t} : Derives c (.binary min folds) [a] ts n →
      c.Reads t → rowOf? t.kind = some row → min ≤ row →
      Derives c (.binary (row + 1) folds') [b] us m →
      Derives c (.binary min (folds + 1)) [.binOp t.body a b] (ts ++ t :: us)
        (max n (folds + 1 + m))
  | power {c a ts n} : Derives c .unary [a] ts n → Derives c .power [a] ts n
  | powerOp {c a b ts us n m t} : Derives c .unary [a] ts n → c.Finds [.starStar] t →
      Derives c .power [b] us m →
      Derives c .power [.binOp t.body a b] (ts ++ t :: us) (max n (1 + m))
  | unary {c a ts n} : Derives c .post [a] ts n → Derives c .unary [a] ts n
  | unaryOp {c t a ts n} : c.Finds frontOps t → Derives c .unary [a] ts n →
      Derives c .unary [.unOp t.body a] (t :: ts) (1 + n)
  | post {c a ts n} : Derives c .primary [a] ts n → Derives c .post [a] ts n
  | postOp {c a ts n t} : Derives c .primary [a] ts n → c.Finds behindOps t →
      Derives c .post [.postOp t.body a] (ts ++ [t]) n
  | number {c t} : c.Reads t → t.kind = .number → Derives c .primary [.number t.body] [t] 0
  | var {c t} : c.Reads t → t.kind = .ident → Derives c .primary [.var t.body false] [t] 0
  | varDollar {c t} : c.Reads t → t.kind = .dollarName →
      Derives c .primary [.var (withoutDollar t.body) true] [t] 0
  | parentheses {c t folds a ts n u} : c.Reads t → t.kind = .lparen →
      Derives c (.comma folds) [a] ts n → c.Finds [.rparen] u →
      Derives c .primary [.parentheses a] (t :: ts ++ [u]) (1 + n)
  | primaryParameter {c t a ts n} : c.Reads t → t.kind = .dollarBrace →
      Derives c .parameter [a] ts n → Derives c .primary [a] (t :: ts) (1 + n)
  | primaryArith {c t a ts n} : c.Reads t → t.kind = .dollarParen2 →
      Derives c .arithExpansion [a] ts n → Derives c .primary [a] (t :: ts) (1 + n)
  | primaryCommand {c t a ts n} : c.Reads t → t.kind = .dollarParen →
      Derives c (.nestedList .paren) [a] ts n →
      Derives c .primary [.commandSubst t.body a] (t :: ts) (1 + n)

/-- The same derivation under other names for its tokens and levels. -/
theorem Derives.cast {c : Context} {p : Phrase} {as : List Node} {ts us : List Token} {n m : Nat}
    (h : Derives c p as ts n) (hts : us = ts) (hn : m = n) : Derives c p as us m := by
  rw [hts, hn]
  exact h

/-! ### Productions that yield derivations -/

/-- Every run of a production yields a node that the phrase derives. -/
def Yields (source : Text) (c : Context) (act : ParseM Unit → ParseM Node) (p : Phrase) : Prop :=
  Runs source c act fun a ts n => Derives c p [a] ts n

/-- Every run of a production yields a node that the phrase derives, or reads nothing. -/
def MayYield (source : Text) (c : Context) (act : ParseM Unit → ParseM (Option Node))
    (p : Phrase) : Prop :=
  Runs source c act (OrNothing fun a ts n => Derives c p [a] ts n)

variable {source : Text} {c : Context}

/-- The productions one level further in yield what they should, however levels are
opened. -/
structure Sound (source : Text) (G : ParseM Unit → Grammar) : Prop where
  descend : ∀ d, (G d).descend = d
  steps : ∃ steps, ∀ d, (G d).steps = steps
  doubleQuoted : ∀ c, Yields source c (fun d => (G d).doubleQuoted) .doubleQuoted
  parameter : ∀ c, Yields source c (fun d => (G d).parameter) .parameter
  arithExpansion : ∀ c, Yields source c (fun d => (G d).arithExpansion) .arithExpansion
  nestedList : ∀ c closer, Yields source c (fun d => (G d).nestedList closer) (.nestedList closer)
  arith : ∀ c, Runs source c (fun d => (G d).arith) fun a ts n =>
    ∃ folds, Derives c (.comma folds) [a] ts n
  assignment : ∀ c, Yields source c (fun d => (G d).assignment) .assignment
  ternary : ∀ c, Yields source c (fun d => (G d).ternary) .ternary
  binary : ∀ c min, Runs source c (fun d => (G d).binary min) fun a ts n =>
    ∃ folds, Derives c (.binary min folds) [a] ts n
  power : ∀ c, Yields source c (fun d => (G d).power) .power
  unary : ∀ c, Yields source c (fun d => (G d).unary) .unary

end ShellGrammar
