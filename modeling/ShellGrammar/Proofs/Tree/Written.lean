import ShellGrammar.Proofs.Rules.Spelling
import ShellGrammar.Proofs.Script

/-! A tree keeps every token.

`Node.written` writes a tree back: fields in order, with the delimiters of each
construct between them and no blank. `Derives.spells` says that this is the text of the
tokens a phrase was read from, newlines apart: nothing is lost, made up or moved. The
tokens of a script end with the end of the source, which stands nowhere else among them
(`Derives.noEos`), and they tile it; `run_faithful` puts the three together. -/
namespace ShellGrammar

/-! ### Writing a tree back -/

/-- The mark of a reference, if there is one. -/
@[simp] def bangMark (ref : Bool) : Text := if ref then ['!'] else []

/-- What ends an entry. Newlines are not written. -/
def terminalText : Option Text → Text
  | none => []
  | some t => if t = ['\n'] then [] else t

mutual

/-- A tree as text without blank. -/
@[simp] def Node.written : Node → Text
  | .list body | .concat body => Node.writtenAll body
  | .pipelines body terminal => body.written ++ terminalText terminal
  | .andOr op left right | .pipe op left right | .binOp op left right =>
    left.written ++ op ++ right.written
  | .pipeline excl body => bangMark excl ++ body.written
  | .simpleCommand assigns body => Node.writtenAll assigns ++ Node.writtenAll body
  | .assign name value => name ++ ['='] ++ Node.writtenOpt value
  | .str body => body
  | .singleQuoted body => ['\''] ++ body ++ ['\'']
  | .doubleQuoted body => ['"'] ++ Node.writtenAll body ++ ['"']
  | .simpleParam name => ['$'] ++ name
  | .param ref name => ['$', '{'] ++ bangMark ref ++ name ++ ['}']
  | .paramLength ref name => ['$', '{', '#'] ++ bangMark ref ++ name ++ ['}']
  | .paramDefault ref name op value =>
    ['$', '{'] ++ bangMark ref ++ name ++ op ++ value.written ++ ['}']
  | .substring ref name offset length =>
    ['$', '{'] ++ bangMark ref ++ name ++ [':'] ++ offset.written ++
      (if length = .empty then [] else [':'] ++ length.written) ++ ['}']
  | .patternRemoval ref name mode pattern | .caseChange ref name mode pattern =>
    ['$', '{'] ++ bangMark ref ++ name ++ mode ++ pattern.written ++ ['}']
  | .patternReplacement ref name mode pattern replace =>
    ['$', '{'] ++ bangMark ref ++ name ++ mode ++ pattern.written ++
      (if replace.isSome then ['/'] else []) ++ Node.writtenOpt replace ++ ['}']
  | .namesStarting stem mode => ['$', '{', '!'] ++ stem ++ mode ++ ['}']
  | .paramTransform ref name op => ['$', '{'] ++ bangMark ref ++ name ++ ['@'] ++ op ++ ['}']
  | .arrayElements array mode => ['$', '{'] ++ array ++ ['['] ++ mode ++ [']'] ++ ['}']
  | .arrayKeys array mode => ['$', '{', '!'] ++ array ++ ['['] ++ mode ++ [']'] ++ ['}']
  | .arrayElement ref name subscript =>
    ['$', '{'] ++ bangMark ref ++ name ++ ['['] ++ subscript.written ++ [']'] ++ ['}']
  | .commandSubst style body =>
    style ++ body.written ++ (if style = ['`'] then ['`'] else [')'])
  | .processSubst direction body => direction ++ ['('] ++ body.written ++ [')']
  | .arithExpansion body => ['$', '(', '('] ++ body.written ++ [')', ')']
  | .number value => value
  | .var name dollar => (if dollar then ['$'] else []) ++ name
  | .unOp op operand => op ++ operand.written
  | .postOp op operand => operand.written ++ op
  | .ternary cond yes no => cond.written ++ ['?'] ++ yes.written ++ [':'] ++ no.written
  | .parentheses body => ['('] ++ body.written ++ [')']
  | .empty => []

@[simp] def Node.writtenAll : List Node → Text
  | [] => []
  | a :: as => a.written ++ Node.writtenAll as

@[simp] def Node.writtenOpt : Option Node → Text
  | none => []
  | some a => a.written

end

/-! ### The text of tokens -/

/-- What is written for a token: its body, or nothing for a newline. -/
def Token.shown (t : Token) : Text := if t.kind = .newline then [] else t.body

/-- What is written for some tokens. -/
def shown (ts : List Token) : Text := ts.flatMap Token.shown

@[simp] theorem shown_nil : shown [] = [] := rfl

@[simp] theorem shown_cons (t : Token) (ts : List Token) : shown (t :: ts) = t.shown ++ shown ts := by
  simp [shown]

@[simp] theorem shown_append (ts us : List Token) : shown (ts ++ us) = shown ts ++ shown us := by
  simp [shown]

theorem Token.shown_of_ne {t : Token} (h : t.kind ≠ .newline) : t.shown = t.body :=
  if_neg h

namespace Context
variable {c : Context} {t : Token}

theorem Sees.shown {adjacent : Bool} {kind : Kind} {spelling : Text} (h : c.Sees adjacent t)
    (hk : t.kind = kind) (hs : kind.spelling? = some spelling) (hn : kind ≠ .newline) :
    t.shown = spelling := by
  rw [Token.shown_of_ne (hk ▸ hn)]
  exact Rules.body_of_spelling h.lexed (hk ▸ hs)

theorem Sees.body {adjacent : Bool} {kind : Kind} {spelling : Text} (h : c.Sees adjacent t)
    (hk : t.kind = kind) (hs : kind.spelling? = some spelling) : t.body = spelling :=
  Rules.body_of_spelling h.lexed (hk ▸ hs)

/-- A single-quoted string is written between its quotes. -/
theorem Sees.shown_singleQuote {adjacent : Bool} (h : c.Sees adjacent t)
    (hk : t.kind = .singleQuote) : t.shown = ['\''] ++ Grammar.between t.body ++ ['\''] := by
  rw [Token.shown_of_ne (by rw [hk]; decide)]
  exact Rules.body_of_singleQuote h.lexed hk

/-- A name behind a `$` is written behind it. -/
theorem Sees.shown_dollarName {adjacent : Bool} (h : c.Sees adjacent t)
    (hk : t.kind = .dollarName) : t.shown = ['$'] ++ Grammar.withoutDollar t.body := by
  rw [Token.shown_of_ne (by rw [hk]; decide)]
  exact Rules.body_of_dollarName h.lexed hk

theorem Finds.shown {kind : Kind} {spelling : Text} (h : c.Finds [kind] t)
    (hs : kind.spelling? = some spelling) (hn : kind ≠ .newline) : t.shown = spelling :=
  h.reads.shown h.kind_eq hs hn

theorem Finds.shown_eq_body {kind : Kind} {kinds : List Kind} (h : c.Finds (kind :: kinds) t)
    (hn : .newline ∉ kind :: kinds) : t.shown = t.body := by
  apply Token.shown_of_ne
  intro hk
  exact hn (hk ▸ h.mem)

theorem Takes.shown {pattern : Pattern} {kind : Kind} {allowBlank : Bool}
    (h : c.Takes pattern kind allowBlank t) (hn : kind ≠ .newline) : t.shown = t.body := by
  apply Token.shown_of_ne
  rw [(Rules.takeAt_matches h).1]
  exact hn

theorem Takes.shown_lit {l : Text} {kind : Kind} {allowBlank : Bool}
    (h : c.Takes (.lit l) kind allowBlank t) (hn : kind ≠ .newline) : t.shown = l := by
  rw [h.shown hn]
  exact (Rules.takeAt_matches h).2.of_lit

/-- A terminal is written as it stands, unless it is a newline. -/
theorem Finds.shown_terminal (h : c.Finds Grammar.terminals t) :
    t.shown = terminalText (some t.body) := by
  have hmem := h.mem
  simp only [List.mem_cons, List.not_mem_nil, or_false] at hmem
  rcases hmem with hk | hk | hk
  · rw [h.reads.shown hk rfl (by decide), h.reads.body hk rfl]
    rfl
  · rw [h.reads.body hk rfl]
    exact if_pos hk
  · rw [h.reads.shown hk rfl (by decide), h.reads.body hk rfl]
    rfl

/-- The head of an assignment is the name and a `=`. -/
theorem Accepts.shown_assign (h : c.Accepts Grammar.assignHead .assignHead t) :
    t.shown = t.body.dropLast ++ ['='] := by
  rw [Takes.shown h (by decide)]
  obtain ⟨x, _, hbody, _, heq⟩ := (Rules.takeAt_matches h).2.of_seq
  rw [hbody, heq.of_lit, List.dropLast_concat]

/-- What asks for all elements of an array stands between brackets. -/
theorem Finds.shown_brackets (h : c.Finds [.bracketAt, .bracketStar] t) :
    t.shown = ['['] ++ Grammar.between t.body ++ [']'] := by
  have hmem := h.mem
  simp only [List.mem_cons, List.not_mem_nil, or_false] at hmem
  rcases hmem with hk | hk
  · rw [h.reads.shown hk rfl (by decide), h.reads.body hk rfl]
    rfl
  · rw [h.reads.shown hk rfl (by decide), h.reads.body hk rfl]
    rfl

theorem Newlines.shown {ts : List Token} (h : c.Newlines ts) : shown ts = [] := by
  induction ts with
  | nil => rfl
  | cons t ts ih =>
    have ht : t.shown = [] := if_pos (h t List.mem_cons_self).kind_eq
    rw [shown_cons, ht, ih fun u hu => h u (List.mem_cons_of_mem t hu)]
    rfl

theorem Optional.shown {pattern : Pattern} {kind : Kind} {o : Option Token}
    (h : c.Optional pattern kind o) (hn : kind ≠ .newline) :
    ShellGrammar.shown o.toList = (o.map (·.body)).getD [] := by
  cases o with
  | none => rfl
  | some t =>
    rw [Option.toList, shown_cons, (h t rfl).shown hn]
    exact List.append_nil _

theorem Optional.shown_lit {l : Text} {kind : Kind} {o : Option Token}
    (h : c.Optional (.lit l) kind o) (hn : kind ≠ .newline) :
    ShellGrammar.shown o.toList = if o.isSome then l else [] := by
  cases o with
  | none => rfl
  | some t =>
    rw [Option.toList, shown_cons, (h t rfl).shown_lit hn]
    exact List.append_nil _

theorem Closes.shown {blankBeforeBrace : Bool} (h : c.Closes blankBeforeBrace t) :
    t.shown = ['}'] := by
  cases blankBeforeBrace with
  | true => exact Takes.shown_lit h (by decide)
  | false => exact Finds.shown h rfl (by decide)

end Context

/-- The text of a parameter's marks and name. -/
theorem Heading.shown {c : Context} {h : Grammar.Head} {ts : List Token} (hh : Heading c h ts) :
    shown ts = (if h.length then ['#'] else []) ++ bangMark h.ref ++ h.name := by
  cases hh with
  | named hlength href ht =>
    rw [shown_append, shown_append, hlength.shown_lit (by decide), href.shown_lit (by decide),
      shown_cons, ht.shown_eq_body (by decide)]
    simp
  | bang hlength ht =>
    rw [shown_append, hlength.shown_lit (by decide), shown_cons, ht.shown_lit (by decide)]
    simp
  | sharp ht =>
    rw [shown_cons, ht.shown_lit (by decide)]
    rfl

/-! ### Derivations -/

/-- What is written for a closer. -/
@[simp] def Closer.text : Closer → Text
  | endOfSource => []
  | paren => [')']
  | backquote => ['`']

theorem Closer.spelling?_kind (closer : Closer) : closer.kind.spelling? = some closer.text := by
  cases closer <;> rfl

theorem Closer.kind_ne_newline (closer : Closer) : closer.kind ≠ .newline := by
  cases closer <;> decide

/-- How the text of a phrase's tokens and its nodes go together. A phrase behind an opener
lacks the opener, a form lacks everything around it, and a list has its closer, which
belongs to whatever opened it. -/
@[simp] def Phrase.Spells : Phrase → List Node → Text → Prop
  | .list closer, as, t | .nestedList closer, as, t => t = Node.writtenAll as ++ closer.text
  | .doubleQuoted, as, t => ['"'] ++ t = Node.writtenAll as
  | .parameter, as, t => ['$', '{'] ++ t = Node.writtenAll as
  | .arithExpansion, as, t => ['$', '(', '('] ++ t = Node.writtenAll as
  | .form ref name _, as, t => ['$', '{'] ++ bangMark ref ++ name ++ t ++ ['}'] = Node.writtenAll as
  | _, as, t => t = Node.writtenAll as

theorem Phrase.spells_of_isPart {p : Phrase} (hp : p.isPart = true) {as : List Node} {t : Text} :
    p.Spells as t ↔ t = Node.writtenAll as := by
  cases p <;> first | exact Iff.rfl | cases hp

theorem ne_of_rowOf? {kind kind' : Kind} {row : Nat} (h : Grammar.rowOf? kind = some row)
    (h' : Grammar.rowOf? kind' = none) : kind ≠ kind' := by
  intro heq
  rw [← heq, h] at h'
  cases h'

/-- Only a payload can be empty. -/
theorem Derives.empty_not_mem {c : Context} {p : Phrase} {as : List Node} {ts : List Token}
    {n : Nat} (h : Derives c p as ts n) (hp : ∀ rules, p ≠ .payload rules) : .empty ∉ as := by
  induction h with
  | manyCons hpart _ _ ih ih' =>
    rw [List.mem_cons, not_or]
    refine ⟨fun ha => ih ?_ (by rw [ha]; exact List.mem_cons_self), ih' (by simp)⟩
    intro rules heq
    rw [heq] at hpart
    cases hpart
  | _ => simp_all

/-- What is written for the nodes of a phrase is the text of its tokens. -/
theorem Derives.spells {c : Context} {p : Phrase} {as : List Node} {ts : List Token} {n : Nat}
    (h : Derives c p as ts n) : p.Spells as (shown ts) := by
  induction h with
  | manyNil => rfl
  | manyCons hp _ _ ih ih' =>
    rw [Phrase.spells_of_isPart hp] at ih
    simp_all
  | list _ ht ih =>
    have hclose := ht.shown (Closer.spelling?_kind _) (Closer.kind_ne_newline _)
    simp_all
  | entriesNil hus => exact hus.shown
  | entriesLast hus _ _ ih => simp_all [hus.shown]
  | entriesCons hus _ _ _ ih ih' => simp_all [hus.shown]
  | entry _ ih => simp_all [terminalText]
  | entryTerminated _ ht ih =>
    have hend := ht.shown_terminal
    simp_all
  | andOrFold _ ht hus _ ih ih' | pipeFold _ ht hus _ ih ih' =>
    have hop := ht.shown_eq_body (by decide)
    simp_all [hus.shown]
  | pipeline _ ih => simp_all
  | pipelineNegated ht hbang _ ih =>
    have hmark := ht.shown_eq_body (by decide)
    simp_all
  | command _ _ _ ih ih' => simp_all
  | assignBare ht | assign ht _ ih =>
    have hhead := Context.Accepts.shown_assign ht
    simp_all
  | wordConcat _ _ ih ih' => simp_all
  | str ht hk =>
    have hbody := Token.shown_of_ne (by rw [hk]; decide)
    simp_all
  | singleQuoted ht hk =>
    simp only [Phrase.Spells, Node.writtenAll, Node.written, shown_cons, shown_nil,
      ht.shown_singleQuote hk]
  | simpleParam ht hk =>
    simp only [Phrase.Spells, Node.writtenAll, Node.written, shown_cons, shown_nil,
      ht.shown_dollarName hk]
  | pieceQuoted ht hk _ ih | pieceParameter ht hk _ ih | pieceArith ht hk _ ih
  | primaryParameter ht hk _ ih | primaryArith ht hk _ ih =>
    have hopen := ht.shown hk rfl (by decide)
    simp_all
  | pieceCommand ht hk _ ih | pieceBackquoted ht hk _ _ ih | primaryCommand ht hk _ ih =>
    have hopen := ht.shown hk rfl (by decide)
    have hstyle := ht.body hk rfl
    simp_all
  | pieceProcess ht hk _ ih =>
    simp only [List.mem_cons, List.not_mem_nil, or_false] at hk
    rcases hk with hk | hk
    · have hopen := ht.shown hk rfl (by decide)
      have hstyle := ht.body hk rfl
      simp_all
    · have hopen := ht.shown hk rfl (by decide)
      have hstyle := ht.body hk rfl
      simp_all
  | payloadEmpty => rfl
  | doubleQuoted _ ht ih =>
    have hclose := ht.shown rfl (by decide)
    simp_all
  | parameterLength hh hlength ht =>
    simp_all [hh.shown, ht.shown]
  | parameter hh hlength _ ht ih =>
    simp_all [hh.shown, ht.shown]
  | arithExpansion _ ht ih =>
    have hclose := ht.shown_lit (by decide)
    simp_all
  | param => simp
  | arrayKeys ht | arrayElements ht =>
    simp [ht.shown_brackets]
  | paramDefault ht _ ih | patternRemoval ht _ ih | caseChange ht _ ih =>
    have hop := ht.shown (by decide)
    simp_all
  | substring ht _ ih =>
    have hcolon := ht.shown_lit (by decide)
    simp_all
  | substringLength ht _ hu hb ih ih' =>
    have hcolon := ht.shown_lit (by decide)
    have hcolon' := hu.shown_lit (by decide)
    have hwritten := fun h => hb.empty_not_mem (by simp) (List.mem_singleton.mpr (Eq.symm h))
    simp_all
  | patternReplacement ht hanchor _ ih =>
    have hslash := ht.shown (by decide)
    have hmode := hanchor.shown (by decide)
    simp_all
  | patternReplaced ht hanchor _ hu _ ih ih' =>
    have hslash := ht.shown (by decide)
    have hmode := hanchor.shown (by decide)
    have hslash' := hu.shown_lit (by decide)
    simp_all
  | paramTransform ht hu =>
    have hmark := ht.shown_lit (by decide)
    have hop := hu.shown (by decide)
    simp_all
  | namesStarting hmark ht hname =>
    have hmark := ht.shown_lit (by decide)
    simp_all
  | arrayElement ht _ hu ih =>
    have hopen := ht.shown rfl (by decide)
    have hclose := hu.shown_lit (by decide)
    simp_all
  | commaFold _ ht _ ih ih' | powerOp _ ht _ ih ih' =>
    have hop := ht.shown_eq_body (by decide)
    simp_all
  | assignmentOp ht hu _ ih =>
    have hname := ht.shown_eq_body (by decide)
    have hop := hu.shown_eq_body (by decide)
    simp_all
  | ternaryOp _ ht _ hu _ ih₁ ih₂ ih₃ =>
    have hquestion := ht.shown rfl (by decide)
    have hcolon := hu.shown rfl (by decide)
    simp_all
  | binaryFold _ ht hrow _ _ ih ih' =>
    have hop := Token.shown_of_ne (ne_of_rowOf? hrow rfl)
    simp_all
  | unaryOp ht _ ih | postOp _ ht ih =>
    have hop := ht.shown_eq_body (by decide)
    simp_all
  | number ht hk | var ht hk =>
    have hbody := Token.shown_of_ne (by rw [hk]; decide)
    simp_all
  | varDollar ht hk =>
    simp only [Phrase.Spells, Node.writtenAll, Node.written, shown_cons, shown_nil,
      ht.shown_dollarName hk]
    rfl
  | parentheses ht hk _ hu ih =>
    have hopen := ht.shown hk rfl (by decide)
    have hclose := hu.shown rfl (by decide)
    simp_all
  | _ => assumption

/-! ### The end of the source -/

/-- None of some tokens is the end of the source. -/
def NoEos (ts : List Token) : Prop := ∀ t ∈ ts, t.kind ≠ .eos

@[simp] theorem noEos_nil : NoEos [] := fun _ h => (List.not_mem_nil h).elim

@[simp] theorem noEos_cons {t : Token} {ts : List Token} :
    NoEos (t :: ts) ↔ t.kind ≠ .eos ∧ NoEos ts := List.forall_mem_cons

@[simp] theorem noEos_append {ts us : List Token} : NoEos (ts ++ us) ↔ NoEos ts ∧ NoEos us :=
  List.forall_mem_append

namespace Context
variable {c : Context} {t : Token}

theorem Finds.ne_eos {kind : Kind} {kinds : List Kind} (h : c.Finds (kind :: kinds) t)
    (hn : .eos ∉ kind :: kinds) : t.kind ≠ .eos := by
  intro hk
  exact hn (hk ▸ h.mem)

theorem Takes.kind_eq {pattern : Pattern} {kind : Kind} {allowBlank : Bool}
    (h : c.Takes pattern kind allowBlank t) : t.kind = kind :=
  (Rules.takeAt_matches h).1

theorem Closes.kind_eq {blankBeforeBrace : Bool} (h : c.Closes blankBeforeBrace t) :
    t.kind = .rbrace := by
  cases blankBeforeBrace with
  | true => exact Takes.kind_eq h
  | false => exact Finds.kind_eq h

theorem Newlines.noEos {ts : List Token} (h : c.Newlines ts) : NoEos ts := by
  intro t ht hk
  rw [(h t ht).kind_eq] at hk
  cases hk

theorem Optional.noEos {pattern : Pattern} {kind : Kind} {o : Option Token}
    (h : c.Optional pattern kind o) (hn : kind ≠ .eos) : NoEos o.toList := by
  intro t ht hk
  exact hn ((h t (Option.mem_toList.mp ht)).kind_eq ▸ hk)

end Context

theorem Heading.noEos {c : Context} {h : Grammar.Head} {ts : List Token} (hh : Heading c h ts) :
    NoEos ts := by
  cases hh with
  | named hlength href ht => simp [hlength.noEos, href.noEos, ht.kind_eq]
  | bang hlength ht => simp [hlength.noEos, ht.kind_eq]
  | sharp ht => simp [ht.kind_eq]

/-- The phrases that take the end of the source. -/
@[simp] def Phrase.endsSource : Phrase → Bool
  | .list .endOfSource | .nestedList .endOfSource => true
  | _ => false

/-- No other phrase takes the end of the source, at any depth. -/
theorem Derives.noEos {c : Context} {p : Phrase} {as : List Node} {ts : List Token} {n : Nat}
    (h : Derives c p as ts n) (hp : p.endsSource = false) : NoEos ts := by
  induction h with
  | @manyCons _ p _ _ _ _ _ _ hpart _ _ ih ih' =>
    have hends : p.endsSource = false := by cases p <;> first | rfl | cases hpart
    rw [noEos_append]
    exact ⟨ih hends, ih' rfl⟩
  | @list _ closer _ _ _ _ _ ht ih =>
    have hk := ht.kind_eq
    cases closer <;> simp_all [Closer.kind]
  | entriesNil hus => exact hus.noEos
  | entriesLast hus _ _ ih => simp_all [hus.noEos]
  | entriesCons hus _ _ _ ih ih' => simp_all [hus.noEos]
  | andOrFold _ ht hus _ ih ih' | pipeFold _ ht hus _ ih ih' =>
    have hk := ht.ne_eos (by decide)
    simp_all [hus.noEos]
  | pipelineNegated ht _ _ ih | doubleQuoted _ ht ih | entryTerminated _ ht ih | unaryOp ht _ ih
  | postOp _ ht ih | commaFold _ ht _ ih ih' | powerOp _ ht _ ih ih' | arrayKeys ht
  | arrayElements ht =>
    have hk := ht.ne_eos (by decide)
    simp_all
  | assignBare ht | assign ht _ ih | arithExpansion _ ht ih | paramDefault ht _ ih
  | patternRemoval ht _ ih | caseChange ht _ ih | substring ht _ ih | namesStarting _ ht _ =>
    have hk := ht.kind_eq
    simp_all
  | @binaryFold _ _ _ _ _ _ _ _ _ _ _ t _ _ hrow _ _ ih ih' =>
    have hk : t.kind ≠ .eos := ne_of_rowOf? hrow rfl
    simp_all
  | pieceProcess _ hk _ ih =>
    simp only [List.mem_cons, List.not_mem_nil, or_false] at hk
    rcases hk with hk | hk <;> simp_all
  | paramTransform ht hu | substringLength ht _ hu _ ih ih' | arrayElement ht _ hu ih =>
    have hk := ht.kind_eq
    have hk' := hu.kind_eq
    simp_all
  | assignmentOp ht hu _ ih | ternaryOp _ ht _ hu _ ih ih' ih'' =>
    have hk := ht.ne_eos (by decide)
    have hk' := hu.ne_eos (by decide)
    simp_all
  | parentheses _ hk _ hu ih =>
    have hk' := hu.kind_eq
    simp_all
  | parameterLength hh _ ht | parameter hh _ _ ht ih =>
    have hk := ht.kind_eq
    simp_all [hh.noEos]
  | patternReplacement ht hanchor _ ih =>
    have hk := ht.kind_eq
    simp_all [hanchor.noEos]
  | patternReplaced ht hanchor _ hu _ ih ih' =>
    have hk := ht.kind_eq
    have hk' := hu.kind_eq
    simp_all [hanchor.noEos]
  | @nestedList _ closer _ _ _ _ ih => cases closer <;> simp_all
  | _ => simp_all

/-! ### Scripts -/

theorem shown_eq_filter (ts : List Token) :
    shown ts = (ts.filter (·.kind ≠ .newline)).flatMap (·.body) := by
  induction ts with
  | nil => rfl
  | cons t ts ih =>
    by_cases hk : t.kind = .newline
    · simp [Token.shown, hk, ih]
    · simp [Token.shown, hk, ih]

/-- A tree and tokens that say the same about a source: the tree is written as the tokens
are, newlines apart; the last token and no other is the end of the source; and the
tokens cover the source from its start to its end. -/
structure Faithful (source : Text) (t : Node) (tokens : List Token) : Prop where
  written : t.written = (tokens.filter (·.kind ≠ .newline)).flatMap (·.body)
  ends : ∃ front eos, tokens = front ++ [eos] ∧ eos.kind = .eos ∧ ∀ u ∈ front, u.kind ≠ .eos
  tiles : ∃ stop, Tiles (.ofText source) tokens stop ∧ stop.rest = []
  whole : tokens.flatMap Token.text = source

/-- The tree of a script loses, invents and moves nothing, whatever the limit. -/
theorem run_faithful {options : Options} {source : Text} {t : Node} {s : ParseState}
    (h : run options source = .ok t s) : Faithful source t s.lexer.consumed := by
  obtain ⟨_, _, hcurrent, hderives⟩ := run_derives h
  obtain ⟨stop, htiles, _⟩ := tiles_append.mp
    ((Lexer.consumed_append_ahead s.lexer).symm ▸ hcurrent.tiles)
  have hwritten := hderives.spells
  rw [shown_eq_filter] at hwritten
  generalize s.lexer.consumed = tokens at htiles hderives hwritten ⊢
  cases hderives with
  | @list _ _ _ front _ eos hentries heos =>
    have hstop : stop = eos.after := by
      rw [htiles.end_eq, List.getLast?_concat]
      rfl
    have hrest : stop.rest = [] := by
      rw [hstop]
      exact Rules.rest_after_eos heos.reads.lexed heos.kind_eq
    obtain ⟨hon, hcovered⟩ := htiles.on (Scan.on_ofText source)
    refine ⟨?_, ⟨front, eos, rfl, heos.kind_eq, hentries.noEos rfl⟩, ⟨stop, htiles, hrest⟩, ?_⟩
    · simpa [Phrase.Spells, Node.writtenAll, Closer.text] using hwritten.symm
    · have hwhole := hon.whole
      rw [Scan.source, hrest, List.append_nil, hcovered] at hwhole
      exact hwhole

/-- Two lines, the first of which assigns `${!}`. -/
theorem run_faithful_lines :
    ∃ s, run ⟨1⟩ ['x', '=', '$', '{', '!', '}', '\n', 'y'] = .ok (.list [
        .pipelines (.pipeline false
          (.simpleCommand [.assign ['x'] (some (.param false ['!']))] [])) (some ['\n']),
        .pipelines (.pipeline false (.simpleCommand [] [.str ['y']])) none]) s ∧
      Faithful ['x', '=', '$', '{', '!', '}', '\n', 'y'] (.list [
        .pipelines (.pipeline false
          (.simpleCommand [.assign ['x'] (some (.param false ['!']))] [])) (some ['\n']),
        .pipelines (.pipeline false (.simpleCommand [] [.str ['y']])) none]) s.lexer.consumed := by
  have hparse : (parse ⟨1⟩ ['x', '=', '$', '{', '!', '}', '\n', 'y']).toOption = some (.list [
      .pipelines (.pipeline false
        (.simpleCommand [.assign ['x'] (some (.param false ['!']))] [])) (some ['\n']),
      .pipelines (.pipeline false (.simpleCommand [] [.str ['y']])) none]) := by decide +kernel
  obtain ⟨s, hs⟩ := parse_eq_ok_iff.mp (parse_of_toOption hparse)
  exact ⟨s, hs, run_faithful hs⟩

end ShellGrammar
