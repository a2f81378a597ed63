import ShellGrammar.Proofs.Reader.Answers
import ShellGrammar.Proofs.Reader.Script
import ShellGrammar.Proofs.Rules.Front
import ShellGrammar.Proofs.Rules.Reach
import ShellGrammar.Proofs.Tree.Contract

/-! Every tree keeps the contract.

Each production makes nodes of one class, which keep the contract if those that it calls do
(`Contracted`). Nearly all of this can be read off the table of productions. What cannot is
that the first word of a command is none that starts like an assignment: it is a word
because no assignment was found where it starts. So what a word starts with is compared
with the text it was read from (`Echoes`), as far as the characters of an assignment's head
go; that is bare text, which a tree keeps as it stands. -/
namespace ShellGrammar
open Grammar ParseM Node

variable {c : Context} {place place' : Scan} {ns : List Node} {n : Node}

/-! ### What a token opens -/

/-- The forms that a piece of a word has behind a token of some kind. -/
def Node.openedBy : Kind → Node → Bool
  | .str, .str _ | .singleQuote, .singleQuoted _ | .doubleQuote, .doubleQuoted _
  | .dollarName, .simpleParam _ | .dollarParen2, .arithExpansion _
  | .dollarParen, .commandSubst .. | .backquote, .commandSubst ..
  | .inParen, .processSubst .. | .outParen, .processSubst .. => true
  | .dollarBrace, n => n.isParameter
  | _, _ => false

theorem Node.isQuotable_of_isParameter (h : n.isParameter = true) : n.isQuotable = true := by
  cases n <;> first | rfl | cases h

/-- Without quotes and parentheses of its own a piece can stand in double quotes. -/
theorem Node.isQuotable_of_openedBy {kind : Kind} (h : n.openedBy kind = true)
    (hquoted : kind ≠ .singleQuote ∧ kind ≠ .doubleQuote)
    (hprocess : ¬ (kind = .inParen ∨ kind = .outParen)) : n.isQuotable = true := by
  unfold openedBy at h
  split at h
  case h_11 => cases h
  case h_10 => exact isQuotable_of_isParameter h
  all_goals simp_all [isQuotable]

theorem Node.isInnerPiece_of_openedBy {kind : Kind} (h : n.openedBy kind = true)
    (hprocess : ¬ (kind = .inParen ∨ kind = .outParen)) : n.isInnerPiece = true := by
  unfold openedBy at h
  split at h
  case h_11 => cases h
  case h_10 => cases n <;> first | rfl | cases h
  all_goals simp_all [isInnerPiece, isQuotable]

/-- The pieces of words under a rule set. -/
def Rules.isPiece : Rules → Node → Bool
  | .command => Node.isPiece
  | _ => Node.isInnerPiece

namespace Rules

theorem command_of_process {rules : Rules} {t : Token} (ht : rules.tokenAt place = .ok t)
    (hk : t.kind = .inParen ∨ t.kind = .outParen) : rules = .command := by
  obtain ⟨heos, _⟩ | ⟨r, hr, hkind, _⟩ := tokenAt_rule ht
  · rw [heos] at hk
    rcases hk with hk | hk <;> cases hk
  · have htable : ∀ r ∈ rules.set.rules, r.kind = .inParen ∨ r.kind = .outParen →
        rules = .command := by
      cases rules <;> decide
    exact htable r hr (hkind ▸ hk)

theorem ne_singleQuote {t : Token} (ht : doubleQuote.tokenAt place = .ok t) :
    t.kind ≠ .singleQuote := by
  obtain ⟨heos, _⟩ | ⟨r, hr, hkind, _⟩ := tokenAt_rule ht
  · rw [heos]
    decide
  · have htable : ∀ r ∈ doubleQuote.set.rules, r.kind ≠ .singleQuote := by decide
    exact hkind ▸ htable r hr

end Rules

theorem Node.isExpression_of_isParameter (h : n.isParameter = true) : n.isExpression = true := by
  cases n <;> first | rfl | cases h

theorem Node.isAndOrChain_of_isPipeline (h : n.isPipeline = true) : n.isAndOrChain = true := by
  cases n <;> first | rfl | cases h

theorem Node.isPipeChain_of_isSimpleCommand (h : n.isSimpleCommand = true) :
    n.isPipeChain = true := by
  cases n <;> first | rfl | cases h

namespace Rules

theorem isPiece_of_inner {rules : Rules} (h : n.isInnerPiece = true) : rules.isPiece n = true := by
  cases rules <;> cases n <;> first | rfl | cases h

theorem isPiece_command {rules : Rules} (h : rules.isPiece n = true) : n.isPiece = true := by
  cases rules <;> cases n <;> first | rfl | cases h

/-- A word is one among commands. -/
theorem isWordOf_command {rules : Rules} (h : n.isWordOf rules.isPiece = true) :
    n.isWordOf Node.isPiece = true := by
  cases n with
  | concat body =>
    exact List.all_eq_true.mpr fun p hp => isPiece_command (List.all_eq_true.mp h p hp)
  | _ => exact isPiece_command h

/-- One piece is a word. -/
theorem isWordOf_of_isPiece {rules : Rules} (h : rules.isPiece n = true) :
    n.isWordOf rules.isPiece = true := by
  cases n with
  | concat body => cases rules <;> cases h
  | _ => exact h

end Rules

/-! ### Assignments -/

/-- The text has no characters but those of names and assignments. -/
def Plain (p : Text) : Prop := ∀ ch ∈ p, Text.isNameRest ch = true ∨ ch = '='

/-- What a text starts with, another one starts with, as long as it is plain. -/
def Echoes (w text : Text) : Prop := ∀ p, Plain p → p <+: w → p <+: text

namespace Echoes
variable {w text : Text}

theorem nil : Echoes [] text := by
  intro p _ hp
  rw [List.prefix_nil.mp hp]
  exact List.nil_prefix

theorem append (h : Echoes w text) (t : Text) : Echoes (t ++ w) (t ++ text) := by
  intro p hplain hp
  obtain hshort | ⟨q, rfl⟩ := List.prefix_or_prefix_of_prefix hp (List.prefix_append t w)
  · exact hshort.trans (List.prefix_append t text)
  · have hq : q <+: w := List.prefix_append_right_inj t |>.mp hp
    refine (List.prefix_append_right_inj t).mpr (h q (fun ch hch => ?_) hq)
    exact hplain ch (List.mem_append_right t hch)

theorem refl : Echoes w w := fun _ _ => id

/-- Behind a character that is not plain nothing has to be said. -/
theorem of_head {ch : Char} (h : ¬ (Text.isNameRest ch = true ∨ ch = '=')) :
    Echoes (ch :: w) text := by
  intro p hplain hp
  cases p with
  | nil => exact List.nil_prefix
  | cons x p =>
    obtain rfl : x = ch := (List.cons_prefix_cons.mp hp).1
    exact absurd (hplain x List.mem_cons_self) h

end Echoes

/-- A node whose text starts with a character that is not plain. -/
def Node.Masked (n : Node) : Prop :=
  ∃ ch w, n.written = ch :: w ∧ ¬ (Text.isNameRest ch = true ∨ ch = '=')

theorem Node.Masked.echoes (h : n.Masked) (w text : Text) : Echoes (n.written ++ w) text := by
  obtain ⟨ch, w', hwritten, hch⟩ := h
  rw [hwritten]
  exact .of_head hch

theorem Node.masked_of_isParameter (h : n.isParameter = true) : n.Masked := by
  cases n <;> first | exact ⟨'$', _, rfl, by decide⟩ | cases h

/-! ### What productions make -/

/-- The nodes of a chain. -/
def Chain.makes : Chain → Node → Bool
  | .andOr => Node.isAndOrChain
  | .pipe => Node.isPipeChain
  | .comma | .binary _ => Node.isExpression

/-- The nodes of a production. What a piece is depends on the token it starts with. -/
def Production.Makes (c : Context) : Production → Scan → Node → Prop
  | many p, _, n => ∃ place, p.Makes c place n
  | chain ch, _, n | chainRest ch _, _, n => ch.makes n
  | newlines, _, _ => False
  | list _, _, n => n.isList
  | entries _, _, n | entry, _, n => n.isEntry
  | pipeline, _, n => n.isPipeline
  | command, _, n => n.isSimpleCommand
  | assign, _, n => n.isAssign
  | word, _, n => n.isWordOf c.mode.rules.isPiece
  | piece adjacent, place, n => ∃ t, c.token? place = some t ∧
      c.wants adjacent (among (pieceStart c.inBackquote)) t = true ∧ n.openedBy t.kind
  | quoted, _, n => c.mode.rules = .doubleQuote → n.isQuotable
  | braced, _, n => n.isParameter
  | arithClosed, _, n => ∃ body, n = .arithExpansion body
  | assignment, _, n | ternary, _, n | power, _, n | unary, _, n | post, _, n
  | primary, _, n => n.isExpression

/-- What is made already when a production is called. -/
def Production.Given : Production → Prop
  | many p => p.Given
  | chainRest ch left => ch.makes left ∧ left.Contract
  | _ => True

/-- No assignment starts at a place. -/
def NoAssignment (c : Context) (place : Scan) : Prop :=
  c.mode.rules.takeAt assignHead .assignHead c.mode.allowBlank place = none

/-- What the text of a token and what is behind it have to do with the word that starts
with it: they start like an assignment if the word does. -/
def LeadsWord (c : Context) (place : Scan) (w : Node) : Prop :=
  ∃ t, c.token? place = some t ∧ c.wants false (among (pieceStart c.inBackquote)) t = true ∧
    Echoes w.written (t.body ++ t.after.rest)

/-- What is true of the nodes of a production together, and of the places it leads between. -/
def Production.Arranges (c : Context) : Production → Scan → List Node → Scan → Prop
  | entries _, _, ns, _ => ∀ e ∈ ns.dropLast, isTerminated e
  | assign, _, ns, place' => ns = [] → NoAssignment c place'
  | many assign, _, _, place' => NoAssignment c place'
  | piece adjacent, place, ns, place' => ∀ n rest, ns = n :: rest → rest = [] ∧
      ∃ t, c.token? place = some t ∧
        c.wants adjacent (among (pieceStart c.inBackquote)) t = true ∧
        ((n = .str t.body ∧ place' = t.after) ∨ n.Masked)
  | many (piece true), place, ns, _ => Echoes (Node.writtenAll ns) place.rest
  | word, place, ns, _ | many word, place, ns, _ => ∀ w, ns.head? = some w → LeadsWord c place w
  | braced, _, ns, _ | arithClosed, _, ns, _ => ∃ n, ns = [n]
  | _, _, _, _ => True

/-- A production makes the nodes of its class, and they keep the contract. -/
structure Contracted (c : Context) (p : Production) (place : Scan) (ns : List Node)
    (place' : Scan) : Prop where
  makes : ∀ n ∈ ns, p.Makes c place n
  contract : ∀ n ∈ ns, n.Contract
  arranges : p.Arranges c place ns place'

/-- What is known of the productions that a production calls. -/
def Known : Yielding := fun c p place ns place' =>
  Parses c p place ns place' ∧ (p.Given → Contracted c p place ns place')

theorem Contracted.nil {p : Production} (h : p.Arranges c place [] place') :
    Contracted c p place [] place' :=
  ⟨fun _ hn => (List.not_mem_nil hn).elim, fun _ hn => (List.not_mem_nil hn).elim, h⟩

theorem Contracted.one {p : Production} (h : p.Makes c place n) (hcontract : n.Contract)
    (harranges : p.Arranges c place [n] place') : Contracted c p place [n] place' := by
  refine ⟨fun m hm => ?_, fun m hm => ?_, harranges⟩
  · exact List.mem_singleton.mp hm ▸ h
  · exact List.mem_singleton.mp hm ▸ hcontract

theorem Known.one {p : Production} (h : Known c p place [n] place') (hgiven : p.Given) :
    p.Makes c place n ∧ n.Contract :=
  ⟨(h.2 hgiven).makes n (List.mem_singleton.mpr rfl),
    (h.2 hgiven).contract n (List.mem_singleton.mpr rfl)⟩

/-- A node keeps the contract if it is proper and those below it keep it. -/
theorem Node.Contract.of (hproper : n.Proper) (hchildren : ∀ m ∈ n.children, m.Contract) :
    n.Contract := contract_iff.mpr ⟨hproper, hchildren⟩

/-- A node over one other. -/
theorem Node.Contract.over {m : Node} (hproper : n.Proper) (hchildren : n.children = [m])
    (h : m.Contract) : n.Contract := by
  refine .of hproper fun k hk => ?_
  rw [hchildren, List.mem_singleton] at hk
  exact hk ▸ h

/-- A node over two others. -/
theorem Node.Contract.overTwo {m k : Node} (hproper : n.Proper) (hchildren : n.children = [m, k])
    (h : m.Contract) (h' : k.Contract) : n.Contract := by
  refine .of hproper fun x hx => ?_
  rw [hchildren, List.mem_cons, List.mem_singleton] at hx
  rcases hx with rfl | rfl
  · exact h
  · exact h'

/-- A node over none. -/
theorem Node.Contract.leaf (hproper : n.Proper) (hchildren : n.children = []) : n.Contract := by
  refine .of hproper fun m hm => ?_
  rw [hchildren] at hm
  exact (List.not_mem_nil hm).elim

/-! ### Arithmetic -/

namespace Contracted

theorem post (h : Production.post.body.LeadsBy Known c place ns place') :
    Contracted c .post place ns place' := by
  obtain ⟨operand, place₁, hoperand, hrest⟩ := leads_bind.mp h
  obtain ⟨hmakes, hcontract⟩ := (leads_one.mp hoperand).one trivial
  obtain ⟨o, place₂, hnext, hrest⟩ := leads_bind.mp hrest
  cases o with
  | none =>
    obtain ⟨rfl, -⟩ := leads_pure.mp hrest
    exact .one hmakes hcontract trivial
  | some op =>
    obtain ⟨rfl, -⟩ := leads_pure.mp hrest
    exact .one rfl (.over hmakes rfl hcontract) trivial

theorem unary (h : Production.unary.body.LeadsBy Known c place ns place') :
    Contracted c .unary place ns place' := by
  obtain ⟨o, place₁, hnext, hrest⟩ := leads_bind.mp h
  cases o with
  | none =>
    obtain ⟨hmakes, hcontract, _⟩ := (leads_all.mp hrest).2 trivial
    exact ⟨hmakes, hcontract, trivial⟩
  | some op =>
    obtain ⟨operand, place₂, hoperand, hdone⟩ := leads_bind.mp hrest
    obtain ⟨rfl, -⟩ := leads_pure.mp hdone
    obtain ⟨hmakes, hcontract⟩ := (leads_one.mp hoperand).one trivial
    exact .one rfl (.over hmakes rfl hcontract) trivial

theorem power (h : Production.power.body.LeadsBy Known c place ns place') :
    Contracted c .power place ns place' := by
  obtain ⟨base, place₁, hbase, hrest⟩ := leads_bind.mp h
  obtain ⟨hmakes, hcontract⟩ := (leads_one.mp hbase).one trivial
  obtain ⟨o, place₂, hnext, hrest⟩ := leads_bind.mp hrest
  cases o with
  | none =>
    obtain ⟨rfl, -⟩ := leads_pure.mp hrest
    exact .one hmakes hcontract trivial
  | some op =>
    obtain ⟨right, place₃, hright, hdone⟩ := leads_bind.mp hrest
    obtain ⟨rfl, -⟩ := leads_pure.mp hdone
    obtain ⟨hmakes', hcontract'⟩ := (leads_one.mp hright).one trivial
    exact .one rfl (.overTwo ⟨hmakes, hmakes'⟩ rfl hcontract hcontract') trivial

theorem ternary (h : Production.ternary.body.LeadsBy Known c place ns place') :
    Contracted c .ternary place ns place' := by
  obtain ⟨cond, place₁, hcond, hrest⟩ := leads_bind.mp h
  obtain ⟨hmakes, hcontract⟩ := (leads_one.mp hcond).one trivial
  obtain ⟨o, place₂, hnext, hrest⟩ := leads_bind.mp hrest
  cases o with
  | none =>
    obtain ⟨rfl, -⟩ := leads_pure.mp hrest
    exact .one hmakes hcontract trivial
  | some _ =>
    obtain ⟨yes, place₃, hyes, hrest⟩ := leads_bind.mp hrest
    obtain ⟨_, place₄, _, hrest⟩ := leads_bind.mp hrest
    obtain ⟨no, place₅, hno, hdone⟩ := leads_bind.mp hrest
    obtain ⟨rfl, -⟩ := leads_pure.mp hdone
    obtain ⟨hyes, hyes'⟩ := (leads_one.mp hyes).one trivial
    obtain ⟨hno, hno'⟩ := (leads_one.mp hno).one trivial
    refine .one rfl (.of ⟨hmakes, hyes, hno⟩ fun m hm => ?_) trivial
    simp only [children, List.mem_cons, List.not_mem_nil, or_false] at hm
    rcases hm with rfl | rfl | rfl <;> assumption

theorem assignment (h : Production.assignment.body.LeadsBy Known c place ns place') :
    Contracted c .assignment place ns place' := by
  obtain ⟨o, place₁, htarget, hrest⟩ := leads_bind.mp h
  cases o with
  | none =>
    obtain ⟨hmakes, hcontract, _⟩ := (leads_all.mp hrest).2 trivial
    exact ⟨hmakes, hcontract, trivial⟩
  | some target =>
    obtain ⟨value, place₂, hvalue, hdone⟩ := leads_bind.mp hrest
    obtain ⟨rfl, -⟩ := leads_pure.mp hdone
    obtain ⟨hmakes, hcontract⟩ := (leads_one.mp hvalue).one trivial
    exact .one rfl (.overTwo ⟨rfl, hmakes⟩ rfl (.leaf trivial rfl) hcontract) trivial

theorem primary (h : Production.primary.body.LeadsBy Known c place ns place') :
    Contracted c .primary place ns place' := by
  obtain ⟨l, place₁, _, hrest⟩ := leads_bind.mp h
  rw [Reader.primaryRest] at hrest
  split at hrest
  · obtain ⟨rfl, -⟩ := leads_pure.mp hrest
    exact .one rfl (.leaf trivial rfl) trivial
  · obtain ⟨rfl, -⟩ := leads_pure.mp hrest
    exact .one rfl (.leaf trivial rfl) trivial
  · obtain ⟨rfl, -⟩ := leads_pure.mp hrest
    exact .one rfl (.leaf trivial rfl) trivial
  · obtain ⟨body, place₂, hbody, hrest⟩ := leads_bind.mp hrest
    obtain ⟨_, place₃, _, hdone⟩ := leads_bind.mp hrest
    obtain ⟨rfl, -⟩ := leads_pure.mp hdone
    obtain ⟨hmakes, hcontract⟩ := (leads_one.mp hbody).one trivial
    exact .one rfl (.over hmakes rfl hcontract) trivial
  · obtain ⟨hmakes, hcontract, _⟩ := (leads_all.mp hrest).2 trivial
    refine ⟨fun n hn => ?_, hcontract, trivial⟩
    exact isExpression_of_isParameter (hmakes n hn)
  · obtain ⟨hmakes, hcontract, _⟩ := (leads_all.mp hrest).2 trivial
    refine ⟨fun n hn => ?_, hcontract, trivial⟩
    obtain ⟨body, rfl⟩ := hmakes n hn
    rfl
  · obtain ⟨body, place₂, hbody, hdone⟩ := leads_bind.mp hrest
    obtain ⟨rfl, -⟩ := leads_pure.mp hdone
    obtain ⟨hmakes, hcontract⟩ := (leads_one.mp hbody).one trivial
    exact .one rfl (.over hmakes rfl hcontract) trivial
  · exact (not_leads_stop hrest).elim

/-! ### Chains -/

/-- The operators of a chain of commands. -/
theorem operator_spelled {ch : Chain} {op : Lexeme}
    (h : ch.operator.LeadsBy Known c place (some op) place') :
    match ch with
    | .andOr => op.body = ['&', '&'] ∨ op.body = ['|', '|']
    | .pipe => op.body = ['|'] ∨ op.body = ['|', '&']
    | .comma | .binary _ => True := by
  obtain ⟨o, place₁, htake, hrest⟩ := leads_bind.mp h
  cases o with
  | none => cases (leads_pure.mp hrest).1
  | some op' =>
    obtain rfl : op = op' := by
      dsimp only at hrest
      split at hrest
      · obtain ⟨_, _, _, hdone⟩ := leads_bind.mp hrest
        exact Option.some.inj (leads_pure.mp hdone).1
      · exact Option.some.inj (leads_pure.mp hrest).1
    obtain ⟨t, ht, hwants, rfl, -⟩ := Query.take_some.mp (leads_query.mp htake)
    have hkind := (Context.wants_iff.mp hwants).1
    have hbody : ∀ {spelling}, t.kind.spelling? = some spelling → t.lexeme.body = spelling :=
      Rules.body_of_spelling (Context.token?_eq_some.mp ht)
    cases ch with
    | andOr =>
      have hk : t.kind = .andAnd ∨ t.kind = .orOr := by simpa [Chain.wants, among] using hkind
      exact hk.imp (fun hk => hbody (by rw [hk]; rfl)) fun hk => hbody (by rw [hk]; rfl)
    | pipe =>
      have hk : t.kind = .pipe ∨ t.kind = .pipeAmp := by simpa [Chain.wants, among] using hkind
      exact hk.imp (fun hk => hbody (by rw [hk]; rfl)) fun hk => hbody (by rw [hk]; rfl)
    | comma | binary => trivial

theorem chain {ch : Chain} (h : (Production.chain ch).body.LeadsBy Known c place ns place') :
    Contracted c (.chain ch) place ns place' := by
  obtain ⟨left, place₁, hleft, hrest⟩ := leads_bind.mp h
  obtain ⟨hmakes, hcontract⟩ := (leads_one.mp hleft).one (by cases ch <;> trivial)
  have hfirst : ch.makes left = true := by
    cases ch with
    | andOr => exact isAndOrChain_of_isPipeline hmakes
    | pipe => exact isPipeChain_of_isSimpleCommand hmakes
    | comma | binary => exact hmakes
  obtain ⟨hmakes, hcontract, _⟩ := (leads_all.mp hrest).2 ⟨hfirst, hcontract⟩
  exact ⟨hmakes, hcontract, trivial⟩

theorem chainRest {ch : Chain} {left : Node}
    (h : (Production.chainRest ch left).body.LeadsBy Known c place ns place')
    (hleft : ch.makes left ∧ left.Contract) : Contracted c (.chainRest ch left) place ns place' := by
  obtain ⟨o, place₁, hop, hrest⟩ := leads_bind.mp h
  cases o with
  | none =>
    obtain ⟨rfl, -⟩ := leads_pure.mp hrest
    exact .one hleft.1 hleft.2 trivial
  | some op =>
    obtain ⟨right, place₂, hright, hrest⟩ := leads_bind.mp hrest
    obtain ⟨hmakes, hcontract⟩ := (leads_one.mp hright).one (by cases ch <;> trivial)
    have hjoined : ch.makes (ch.join op.body left right) ∧
        (ch.join op.body left right).Contract := by
      have hspelled := operator_spelled hop
      cases ch with
      | andOr => exact ⟨rfl, .overTwo ⟨hspelled, hleft.1, hmakes⟩ rfl hleft.2 hcontract⟩
      | pipe => exact ⟨rfl, .overTwo ⟨hspelled, hleft.1, hmakes⟩ rfl hleft.2 hcontract⟩
      | comma | binary => exact ⟨rfl, .overTwo ⟨hleft.1, hmakes⟩ rfl hleft.2 hcontract⟩
    obtain ⟨hmakes, hcontract, _⟩ := (leads_all.mp hrest).2 hjoined
    exact ⟨hmakes, hcontract, trivial⟩

/-! ### Words -/

/-- Behind the last round, the production reads nothing. -/
theorem arranges_many_nil {p : Production} (h : Contracted c p place [] place') :
    (Production.many p).Arranges c place [] place' := by
  cases p with
  | assign => exact h.arranges rfl
  | word => exact nofun
  | piece adjacent =>
    cases adjacent with
    | true => exact .nil
    | false => trivial
  | _ => trivial

theorem arranges_many_cons {p : Production} {rest : List Node} {place₁ : Scan}
    (hn : Contracted c p place (n :: ns) place₁)
    (hrest : (Production.many p).Arranges c place₁ rest place') :
    (Production.many p).Arranges c place (n :: rest) place' := by
  cases p with
  | assign => exact hrest
  | word =>
    intro w hw
    exact hn.arranges w hw
  | piece adjacent =>
    cases adjacent with
    | false => trivial
    | true =>
      obtain ⟨_, t, ht, hwants, hpiece⟩ := hn.arranges n ns rfl
      show Echoes (n.written ++ Node.writtenAll rest) place.rest
      obtain ⟨rfl, rfl⟩ | hmasked := hpiece
      · have hblank : t.blank = [] := by simpa using (Context.wants_iff.mp hwants).2
        have hfront := Rules.tokenAt_front (Context.token?_eq_some.mp ht)
        rw [hblank, List.nil_append] at hfront
        rw [hfront]
        exact Echoes.append hrest t.body
      · exact hmasked.echoes _ _
  | _ => trivial

theorem many {p : Production} (hgiven : p.Given)
    (h : (Production.many p).body.LeadsBy Known c place ns place') :
    Contracted c (.many p) place ns place' := by
  obtain ⟨o, place₁, hfirst, hrest⟩ := leads_bind.mp h
  obtain ⟨ms, hms, rfl⟩ := leads_first?.mp hfirst
  cases ms with
  | nil =>
    obtain ⟨rfl, rfl⟩ := leads_pure.mp hrest
    exact .nil (arranges_many_nil (hms.2 hgiven))
  | cons n ms =>
    obtain ⟨rest, place₂, hall, hdone⟩ := leads_bind.mp hrest
    obtain ⟨rfl, rfl⟩ := leads_pure.mp hdone
    have hn := hms.2 hgiven
    have hrest := (leads_all.mp hall).2 hgiven
    refine ⟨fun k hk => ?_, fun k hk => ?_, arranges_many_cons hn hrest.arranges⟩
    · rcases List.mem_cons.mp hk with rfl | hk
      · exact ⟨place, hn.makes _ List.mem_cons_self⟩
      · exact hrest.makes k hk
    · rcases List.mem_cons.mp hk with rfl | hk
      · exact hn.contract _ List.mem_cons_self
      · exact hrest.contract k hk

theorem piece {adjacent : Bool}
    (h : (Production.piece adjacent).body.LeadsBy Known c place ns place') :
    Contracted c (.piece adjacent) place ns place' := by
  obtain ⟨o, place₁, htake, hrest⟩ := leads_bind.mp h
  cases o with
  | none =>
    obtain ⟨rfl, -⟩ := leads_pure.mp hrest
    exact .nil nofun
  | some l =>
    obtain ⟨t, ht, hwants, rfl, rfl⟩ := Query.take_some.mp (leads_query.mp htake)
    have hmakes : ∀ {n : Node}, n.openedBy t.lexeme.kind = true →
        (Production.piece adjacent).Makes c place n := fun h => ⟨t, ht, hwants, h⟩
    have hmasked : ∀ {n : Node}, n.Masked →
        (Production.piece adjacent).Arranges c place [n] place' := by
      intro n hn m rest heq
      obtain ⟨rfl, rfl⟩ := List.cons.inj heq
      exact ⟨rfl, t, ht, hwants, .inr hn⟩
    have hspelled : ∀ {spelling}, t.lexeme.kind.spelling? = some spelling →
        t.lexeme.body = spelling := Rules.body_of_spelling (Context.token?_eq_some.mp ht)
    have hstyle : ∀ {kind : Kind} {ch : Char} {w : Text} {body : Node}, t.lexeme.kind = kind →
        kind.spelling? = some (ch :: w) → ¬ (Text.isNameRest ch = true ∨ ch = '=') →
        (Node.commandSubst t.lexeme.body body).Masked := by
      intro kind ch w body hk hs hch
      exact ⟨ch, _, by rw [Node.written, hspelled (by rw [hk]; exact hs)]; rfl, hch⟩
    dsimp only at hrest
    unfold Reader.pieceRest at hrest
    split at hrest <;> rename_i hk
    · obtain ⟨rfl, rfl⟩ := leads_pure.mp hrest
      refine .one (hmakes (by rw [hk]; rfl)) (.leaf trivial rfl) fun m rest heq => ?_
      obtain ⟨rfl, rfl⟩ := List.cons.inj heq
      exact ⟨rfl, t, ht, hwants, .inl ⟨rfl, rfl⟩⟩
    · obtain ⟨rfl, -⟩ := leads_pure.mp hrest
      exact .one (hmakes (by rw [hk]; rfl)) (.leaf trivial rfl) (hmasked ⟨_, _, rfl, by decide⟩)
    · obtain ⟨rfl, -⟩ := leads_pure.mp hrest
      exact .one (hmakes (by rw [hk]; rfl)) (.leaf trivial rfl) (hmasked ⟨_, _, rfl, by decide⟩)
    · obtain ⟨body, place₂, hall, hdone⟩ := leads_bind.mp hrest
      obtain ⟨rfl, -⟩ := leads_pure.mp hdone
      have hbody := (leads_all.mp hall).2 trivial
      refine .one (hmakes (by rw [hk]; rfl)) (.of (fun p hp => ?_) hbody.contract)
        (hmasked ⟨_, _, rfl, by decide⟩)
      exact hbody.makes p hp rfl
    · have hbraced := (leads_all.mp hrest).2 trivial
      obtain ⟨n, rfl⟩ := hbraced.arranges
      have hn := hbraced.makes n List.mem_cons_self
      refine .one (hmakes ?_) (hbraced.contract n List.mem_cons_self)
        (hmasked (masked_of_isParameter hn))
      rw [hk]
      exact hn
    · have harith := (leads_all.mp hrest).2 trivial
      obtain ⟨n, rfl⟩ := harith.arranges
      obtain ⟨body, rfl⟩ := harith.makes n List.mem_cons_self
      exact .one (hmakes (by rw [hk]; rfl)) (harith.contract _ List.mem_cons_self)
        (hmasked ⟨_, _, rfl, by decide⟩)
    · obtain ⟨body, place₂, hbody, hdone⟩ := leads_bind.mp hrest
      obtain ⟨rfl, -⟩ := leads_pure.mp hdone
      obtain ⟨hlist, hcontract⟩ := (leads_one.mp hbody).one trivial
      exact .one (hmakes (by rw [hk]; rfl)) (.over hlist rfl hcontract)
        (hmasked (hstyle hk rfl (by decide)))
    · obtain ⟨body, place₂, hbody, hdone⟩ := leads_bind.mp hrest
      obtain ⟨rfl, -⟩ := leads_pure.mp hdone
      obtain ⟨hlist, hcontract⟩ := (leads_one.mp hbody).one trivial
      exact .one (hmakes (by rw [hk]; rfl)) (.over hlist rfl hcontract)
        (hmasked (hstyle hk rfl (by decide)))
    · obtain ⟨body, place₂, hbody, hdone⟩ := leads_bind.mp hrest
      obtain ⟨rfl, -⟩ := leads_pure.mp hdone
      obtain ⟨hlist, hcontract⟩ := (leads_one.mp hbody).one trivial
      refine .one (hmakes (by rw [hk]; rfl)) (.over hlist rfl hcontract) (hmasked ?_)
      exact ⟨'<', _, by rw [Node.written, hspelled (by rw [hk]; rfl)]; rfl, by decide⟩
    · obtain ⟨body, place₂, hbody, hdone⟩ := leads_bind.mp hrest
      obtain ⟨rfl, -⟩ := leads_pure.mp hdone
      obtain ⟨hlist, hcontract⟩ := (leads_one.mp hbody).one trivial
      refine .one (hmakes (by rw [hk]; rfl)) (.over hlist rfl hcontract) (hmasked ?_)
      exact ⟨'>', _, by rw [Node.written, hspelled (by rw [hk]; rfl)]; rfl, by decide⟩
    · exact (not_leads_stop hrest).elim

/-- Pieces are pieces of the rule set in force. -/
theorem isPiece_of_makes {adjacent : Bool} (h : (Production.piece adjacent).Makes c place n) :
    c.mode.rules.isPiece n := by
  obtain ⟨t, ht, -, hopened⟩ := h
  by_cases hprocess : t.kind = .inParen ∨ t.kind = .outParen
  · rw [Rules.command_of_process (Context.token?_eq_some.mp ht) hprocess]
    rcases hprocess with hk | hk <;> rw [hk] at hopened <;>
      cases n <;> first | rfl | cases hopened
  · exact Rules.isPiece_of_inner (isInnerPiece_of_openedBy hopened hprocess)

/-- The text of a word starts with the text of its first token. -/
theorem leadsWord {rest : List Node} {place₁ : Scan}
    (hfirst : (Production.piece false).Arranges c place (n :: ns) place₁)
    (hrest : Echoes (Node.writtenAll rest) place₁.rest) {w : Node}
    (hw : w.written = n.written ++ Node.writtenAll rest) : LeadsWord c place w := by
  obtain ⟨_, t, ht, hwants, hpiece⟩ := hfirst n ns rfl
  refine ⟨t, ht, hwants, ?_⟩
  rw [hw]
  obtain ⟨rfl, rfl⟩ | hmasked := hpiece
  · exact hrest.append t.body
  · exact hmasked.echoes _ _

theorem word (h : Production.word.body.LeadsBy Known c place ns place') :
    Contracted c .word place ns place' := by
  obtain ⟨o, place₁, hfirst, hrest⟩ := leads_bind.mp h
  obtain ⟨ms, hms, rfl⟩ := leads_first?.mp hfirst
  cases ms with
  | nil =>
    obtain ⟨rfl, -⟩ := leads_pure.mp hrest
    exact .nil nofun
  | cons first ms =>
    obtain ⟨rest, place₂, hall, hdone⟩ := leads_bind.mp hrest
    obtain ⟨rfl, -⟩ := leads_pure.mp hdone
    have hfirst := hms.2 trivial
    have hpiece := isPiece_of_makes (hfirst.makes first List.mem_cons_self)
    have hrest := (leads_all.mp hall).2 trivial
    have hleads : ∀ w : Node, w.written = first.written ++ Node.writtenAll rest →
        ∀ w', [w].head? = some w' → LeadsWord c place w' := by
      rintro w hw _ ⟨⟩
      exact leadsWord hfirst.arranges hrest.arranges hw
    cases rest with
    | nil =>
      refine .one (Rules.isWordOf_of_isPiece hpiece) (hfirst.contract first List.mem_cons_self)
        (hleads _ ?_)
      exact (List.append_nil _).symm
    | cons second rest =>
      have hpieces : ∀ p ∈ first :: second :: rest, c.mode.rules.isPiece p := by
        intro p hp
        rcases List.mem_cons.mp hp with rfl | hp
        · exact hpiece
        · obtain ⟨place, hmakes⟩ := hrest.makes p hp
          exact isPiece_of_makes hmakes
      refine .one (List.all_eq_true.mpr hpieces) (.of ⟨?_, fun p hp => ?_⟩ fun p hp => ?_)
        (hleads _ rfl)
      · simp
      · exact Rules.isPiece_command (hpieces p hp)
      · rcases List.mem_cons.mp hp with rfl | hp
        · exact hfirst.contract _ List.mem_cons_self
        · exact hrest.contract p hp

theorem quoted (h : Production.quoted.body.LeadsBy Known c place ns place') :
    Contracted c .quoted place ns place' := by
  obtain ⟨o, place₁, hnext, hrest⟩ := leads_bind.mp h
  cases o with
  | some _ =>
    obtain ⟨rfl, -⟩ := leads_pure.mp hrest
    exact .nil trivial
  | none =>
    obtain ⟨t, ht, hclosed, rfl⟩ := leads_next_none.mp hnext
    obtain ⟨o, place₂, hfirst, hrest⟩ := leads_bind.mp hrest
    obtain ⟨ms, hms, rfl⟩ := leads_first?.mp hfirst
    cases ms with
    | nil => exact (not_leads_stop hrest).elim
    | cons p ms =>
      obtain ⟨rest, place₃, hall, hdone⟩ := leads_bind.mp hrest
      obtain ⟨rfl, -⟩ := leads_pure.mp hdone
      have hp := hms.2 trivial
      have hrest := (leads_all.mp hall).2 trivial
      refine ⟨fun k hk => ?_, fun k hk => ?_, trivial⟩
      · rcases List.mem_cons.mp hk with rfl | hk
        · obtain ⟨u, hu, hwants, hopened⟩ := hp.makes _ List.mem_cons_self
          obtain rfl : t = u := Option.some.inj (ht.symm.trans hu)
          intro hrules
          have hlexed := Context.token?_eq_some.mp ht
          rw [hrules] at hlexed
          refine isQuotable_of_openedBy hopened ⟨Rules.ne_singleQuote hlexed, fun hk => ?_⟩
            fun hprocess => nomatch Rules.command_of_process hlexed hprocess
          -- The closing quote was looked for right before.
          have hwanted : c.wants false (among [.doubleQuote]) t = true :=
            Context.wants_iff.mpr ⟨by rw [hk]; rfl, (Context.wants_iff.mp hwants).2⟩
          rw [hclosed] at hwanted
          cases hwanted
        · exact hrest.makes k hk
      · rcases List.mem_cons.mp hk with rfl | hk
        · exact hp.contract _ List.mem_cons_self
        · exact hrest.contract k hk

theorem arithClosed (h : Production.arithClosed.body.LeadsBy Known c place ns place') :
    Contracted c .arithClosed place ns place' := by
  obtain ⟨body, place₁, hbody, hrest⟩ := leads_bind.mp h
  obtain ⟨_, place₂, _, hdone⟩ := leads_bind.mp hrest
  obtain ⟨rfl, -⟩ := leads_pure.mp hdone
  obtain ⟨hmakes, hcontract⟩ := (leads_one.mp hbody).one trivial
  exact .one ⟨body, rfl⟩ (.over hmakes rfl hcontract) ⟨_, rfl⟩

/-! ### Parameters -/

/-- The form is one of `${…}` and keeps the contract. -/
def Formed (form : Form) : Prop := form.node.isParameter ∧ form.node.Contract

section Forms
variable {ref : Bool} {name : Text} {form : Form}

theorem payload {rules : Rules} (hrules : rules = .wordUntilBrace ∨ rules = .wordUntilSlash)
    (h : (Reader.payload rules).LeadsBy Known c place n place') : n.isPayload ∧ n.Contract := by
  obtain ⟨o, place₁, hfirst, hdone⟩ := leads_bind.mp h
  obtain ⟨rfl, -⟩ := leads_pure.mp hdone
  obtain ⟨ms, hms, rfl⟩ := leads_first?.mp hfirst
  cases ms with
  | nil => exact ⟨rfl, .leaf trivial rfl⟩
  | cons w ms =>
    have hw := hms.2 trivial
    have hword : w.isWordOf rules.isPiece := hw.makes w List.mem_cons_self
    refine ⟨?_, hw.contract w List.mem_cons_self⟩
    show (w == .empty || w.isWordOf isInnerPiece) = true
    rw [Bool.or_eq_true]
    rcases hrules with rfl | rfl <;> exact .inr hword

theorem operand (h : Reader.arithOperand.LeadsBy Known c place n place') :
    n.isExpression ∧ n.Contract :=
  (leads_one.mp h).one trivial

theorem elementsForm (h : (Reader.elementsForm ref name).LeadsBy Known c place (some form) place') :
    Formed form := by
  obtain ⟨o, place₁, _, hrest⟩ := leads_bind.mp h
  cases o with
  | none => cases (leads_pure.mp hrest).1
  | some l =>
    cases (leads_pure.mp hrest).1
    cases ref <;> exact ⟨rfl, .leaf trivial rfl⟩

/-- A form that is an operator and a payload. -/
theorem payloadForm {shape : Shape} {rules : Rules} {f : Text → Node → Form}
    (hrules : rules = .wordUntilBrace ∨ rules = .wordUntilSlash)
    (hf : ∀ op n, n.isPayload → n.Contract → Formed (f op n))
    (h : Reader.LeadsBy Known c (do
      match ← Reader.accept shape with
      | none => pure none
      | some op => pure (some (f op (← Reader.payload rules)))) place (some form) place') :
    Formed form := by
  obtain ⟨o, place₁, _, hrest⟩ := leads_bind.mp h
  cases o with
  | none => cases (leads_pure.mp hrest).1
  | some op =>
    obtain ⟨value, place₂, hvalue, hdone⟩ := leads_bind.mp hrest
    cases (leads_pure.mp hdone).1
    exact hf op value (payload hrules hvalue).1 (payload hrules hvalue).2

theorem substringForm
    (h : (Reader.substringForm ref name).LeadsBy Known c place (some form) place') :
    Formed form := by
  obtain ⟨o, place₁, _, hrest⟩ := leads_bind.mp h
  cases o with
  | none => cases (leads_pure.mp hrest).1
  | some _ =>
    obtain ⟨offset, place₂, hoffset, hrest⟩ := leads_bind.mp hrest
    obtain ⟨hoffset, hoffset'⟩ := operand hoffset
    obtain ⟨o, place₃, _, hrest⟩ := leads_bind.mp hrest
    cases o with
    | none =>
      cases (leads_pure.mp hrest).1
      exact ⟨rfl, .overTwo ⟨hoffset, .inl rfl⟩ rfl hoffset' (.leaf trivial rfl)⟩
    | some _ =>
      obtain ⟨length, place₄, hlength, hdone⟩ := leads_bind.mp hrest
      cases (leads_pure.mp hdone).1
      obtain ⟨hlength, hlength'⟩ := operand hlength
      exact ⟨rfl, .overTwo ⟨hoffset, .inr hlength⟩ rfl hoffset' hlength'⟩

theorem replacementForm
    (h : (Reader.replacementForm ref name).LeadsBy Known c place (some form) place') :
    Formed form := by
  obtain ⟨o, place₁, _, hrest⟩ := leads_bind.mp h
  cases o with
  | none => cases (leads_pure.mp hrest).1
  | some slash =>
    obtain ⟨anchor, place₂, _, hrest⟩ := leads_bind.mp hrest
    obtain ⟨pattern, place₃, hpattern, hrest⟩ := leads_bind.mp hrest
    obtain ⟨hpattern, hpattern'⟩ := payload (.inr rfl) hpattern
    obtain ⟨o, place₄, _, hrest⟩ := leads_bind.mp hrest
    cases o with
    | none =>
      cases (leads_pure.mp hrest).1
      exact ⟨rfl, .over ⟨hpattern, nofun⟩ rfl hpattern'⟩
    | some _ =>
      obtain ⟨replace, place₅, hreplace, hdone⟩ := leads_bind.mp hrest
      cases (leads_pure.mp hdone).1
      obtain ⟨hreplace, hreplace'⟩ := payload (.inl rfl) hreplace
      refine ⟨rfl, .overTwo ⟨hpattern, ?_⟩ rfl hpattern' hreplace'⟩
      rintro _ ⟨⟩
      exact hreplace

theorem matchingNames {mode : Text}
    (h : (Reader.matchingNames ref name mode).LeadsBy Known c place form place') :
    Formed form := by
  unfold Reader.matchingNames at h
  split at h
  · rename_i hnames
    obtain ⟨rfl, -⟩ := leads_pure.mp h
    exact ⟨rfl, .leaf (Bool.and_eq_true_iff.mp hnames).2 rfl⟩
  · exact (not_leads_stop h).elim

theorem atForm (h : (Reader.atForm ref name).LeadsBy Known c place (some form) place') :
    Formed form := by
  obtain ⟨o, place₁, _, hrest⟩ := leads_bind.mp h
  cases o with
  | none => cases (leads_pure.mp hrest).1
  | some _ =>
    obtain ⟨o, place₂, _, hrest⟩ := leads_bind.mp hrest
    cases o with
    | some op =>
      cases (leads_pure.mp hrest).1
      exact ⟨rfl, .leaf trivial rfl⟩
    | none =>
      obtain ⟨f, place₃, hnames, hdone⟩ := leads_bind.mp hrest
      cases (leads_pure.mp hdone).1
      exact matchingNames hnames

theorem starForm (h : (Reader.starForm ref name).LeadsBy Known c place (some form) place') :
    Formed form := by
  obtain ⟨o, place₁, _, hrest⟩ := leads_bind.mp h
  cases o with
  | none => cases (leads_pure.mp hrest).1
  | some _ =>
    obtain ⟨f, place₃, hnames, hdone⟩ := leads_bind.mp hrest
    cases (leads_pure.mp hdone).1
    exact matchingNames hnames

theorem elementForm (h : (Reader.elementForm ref name).LeadsBy Known c place (some form) place') :
    Formed form := by
  obtain ⟨o, place₁, _, hrest⟩ := leads_bind.mp h
  cases o with
  | none => cases (leads_pure.mp hrest).1
  | some _ =>
    obtain ⟨subscript, place₂, hsubscript, hrest⟩ := leads_bind.mp hrest
    obtain ⟨_, place₃, _, hdone⟩ := leads_bind.mp hrest
    cases (leads_pure.mp hdone).1
    obtain ⟨hmakes, hcontract⟩ := operand hsubscript
    exact ⟨rfl, .over hmakes rfl hcontract⟩

theorem forms (h : (Reader.firstOf (Reader.forms ref name)).LeadsBy Known c place (some form) place') :
    Formed form := by
  obtain ⟨alternative, hmem, place₁, h⟩ := leads_firstOf h
  simp only [Reader.forms, List.mem_cons, List.not_mem_nil, or_false] at hmem
  rcases hmem with rfl | rfl | rfl | rfl | rfl | rfl | rfl | rfl | rfl
  · exact elementsForm h
  · exact payloadForm (f := fun op value => ⟨.paramDefault ref name op value, false⟩) (.inl rfl)
      (fun _ _ hn hcontract => ⟨rfl, .over hn rfl hcontract⟩) h
  · exact substringForm h
  · exact payloadForm (f := fun mode pattern => ⟨.patternRemoval ref name mode pattern, false⟩)
      (.inl rfl) (fun _ _ hn hcontract => ⟨rfl, .over hn rfl hcontract⟩) h
  · exact payloadForm (f := fun mode pattern => ⟨.caseChange ref name mode pattern, false⟩)
      (.inl rfl) (fun _ _ hn hcontract => ⟨rfl, .over hn rfl hcontract⟩) h
  · exact replacementForm h
  · exact atForm h
  · exact starForm h
  · exact elementForm h

theorem parameterBody (h : Reader.parameterBody.LeadsBy Known c place form place') :
    Formed form := by
  obtain ⟨head, place₁, _, hrest⟩ := leads_bind.mp h
  split at hrest
  · cases (leads_pure.mp hrest).1
    exact ⟨rfl, .leaf trivial rfl⟩
  · obtain ⟨o, place₂, hforms, hdone⟩ := leads_bind.mp hrest
    cases (leads_pure.mp hdone).1
    cases o with
    | none => exact ⟨rfl, .leaf trivial rfl⟩
    | some f => exact forms hforms

end Forms

theorem braced (h : Production.braced.body.LeadsBy Known c place ns place') :
    Contracted c .braced place ns place' := by
  obtain ⟨form, place₁, hform, hrest⟩ := leads_bind.mp h
  have hns : ns = [form.node] := by
    split at hrest
    · obtain ⟨_, _, _, hdone⟩ := leads_bind.mp hrest
      exact (leads_pure.mp hdone).1
    · obtain ⟨_, _, _, hdone⟩ := leads_bind.mp hrest
      exact (leads_pure.mp hdone).1
  obtain ⟨hparameter, hcontract⟩ := parameterBody hform
  subst hns
  exact .one hparameter hcontract ⟨_, rfl⟩

/-! ### Commands -/

theorem newlines (h : Production.newlines.body.LeadsBy Known c place ns place') :
    Contracted c .newlines place ns place' := by
  obtain ⟨o, place₁, _, hrest⟩ := leads_bind.mp h
  cases o with
  | none =>
    cases (leads_pure.mp hrest).1
    exact .nil trivial
  | some _ =>
    have hrest := (leads_all.mp hrest).2 trivial
    exact ⟨hrest.makes, hrest.contract, trivial⟩

theorem list {closer : Closer}
    (h : (Production.list closer).body.LeadsBy Known c place ns place') :
    Contracted c (.list closer) place ns place' := by
  obtain ⟨body, place₁, hbody, hrest⟩ := leads_bind.mp h
  obtain ⟨_, place₂, _, hdone⟩ := leads_bind.mp hrest
  cases (leads_pure.mp hdone).1
  obtain ⟨hmakes, hcontract, harranges⟩ := (leads_all.mp hbody).2 trivial
  exact .one rfl (.of ⟨hmakes, harranges⟩ hcontract) trivial

theorem entries {closer : Closer}
    (h : (Production.entries closer).body.LeadsBy Known c place ns place') :
    Contracted c (.entries closer) place ns place' := by
  obtain ⟨_, place₁, _, hrest⟩ := leads_bind.mp h
  obtain ⟨ended, place₂, _, hrest⟩ := leads_bind.mp hrest
  split at hrest
  · cases (leads_pure.mp hrest).1
    exact .nil nofun
  · obtain ⟨first, place₃, hfirst, hrest⟩ := leads_bind.mp hrest
    obtain ⟨hmakes, hcontract⟩ := (leads_one.mp hfirst).one trivial
    split at hrest
    · rename_i hterminated
      obtain ⟨rest, place₄, hall, hdone⟩ := leads_bind.mp hrest
      cases (leads_pure.mp hdone).1
      have hrest := (leads_all.mp hall).2 trivial
      refine ⟨?_, ?_, ?_⟩
      · exact List.forall_mem_cons.mpr ⟨hmakes, hrest.makes⟩
      · exact List.forall_mem_cons.mpr ⟨hcontract, hrest.contract⟩
      · intro e he
        cases rest with
        | nil => exact (List.not_mem_nil he).elim
        | cons second rest =>
          rcases List.mem_cons.mp he with rfl | he
          · exact hterminated
          · exact hrest.arranges e he
    · cases (leads_pure.mp hrest).1
      exact .one hmakes hcontract nofun

theorem entry (h : Production.entry.body.LeadsBy Known c place ns place') :
    Contracted c .entry place ns place' := by
  obtain ⟨body, place₁, hbody, hrest⟩ := leads_bind.mp h
  obtain ⟨o, place₂, hterminal, hdone⟩ := leads_bind.mp hrest
  cases (leads_pure.mp hdone).1
  obtain ⟨hmakes, hcontract⟩ := (leads_one.mp hbody).one trivial
  refine .one rfl (.over ⟨hmakes, fun text htext => ?_⟩ rfl hcontract) trivial
  cases o with
  | none => cases htext
  | some l =>
    cases htext
    obtain ⟨t, ht, hwants, rfl, -⟩ := leads_next_some.mp hterminal
    have hbody : ∀ {spelling}, t.kind.spelling? = some spelling → t.lexeme.body = spelling :=
      Rules.body_of_spelling (Context.token?_eq_some.mp ht)
    have hk : t.kind = .semi ∨ t.kind = .newline ∨ t.kind = .amp := by
      simpa [terminals, among] using (Context.wants_iff.mp hwants).1
    exact hk.imp (fun hk => hbody (by rw [hk]; rfl)) fun hk =>
      hk.imp (fun hk => hbody (by rw [hk]; rfl)) fun hk => hbody (by rw [hk]; rfl)

theorem pipeline (h : Production.pipeline.body.LeadsBy Known c place ns place') :
    Contracted c .pipeline place ns place' := by
  obtain ⟨excl, place₁, _, hrest⟩ := leads_bind.mp h
  obtain ⟨body, place₂, hbody, hdone⟩ := leads_bind.mp hrest
  cases (leads_pure.mp hdone).1
  obtain ⟨hmakes, hcontract⟩ := (leads_one.mp hbody).one trivial
  exact .one rfl (.over hmakes rfl hcontract) trivial

/-- What stands in front of an assignment's `=` is the name of a variable. -/
theorem isVariableName_of_assignHead {rules : Rules} {allowBlank : Bool} {t : Token}
    (h : rules.takeAt assignHead .assignHead allowBlank place = some t) :
    Text.isVariableName t.body.dropLast = true := by
  obtain ⟨x, _, hbody, hname, heq⟩ := (Rules.takeAt_matches h).2.of_seq
  rw [hbody, heq.of_lit, List.dropLast_concat]
  exact hname.of_variableName

theorem assign (h : Production.assign.body.LeadsBy Known c place ns place') :
    Contracted c .assign place ns place' := by
  obtain ⟨o, place₁, haccept, hrest⟩ := leads_bind.mp h
  cases o with
  | none =>
    obtain ⟨hnone, rfl⟩ := leads_accept_none.mp haccept
    obtain ⟨rfl, rfl⟩ := leads_pure.mp hrest
    exact .nil fun _ => hnone
  | some head =>
    obtain ⟨t, ht, rfl, -⟩ := leads_accept_some.mp haccept
    obtain ⟨value, place₂, hvalue, hdone⟩ := leads_bind.mp hrest
    cases (leads_pure.mp hdone).1
    obtain ⟨ms, hms, rfl⟩ := leads_first?.mp hvalue
    have hname := isVariableName_of_assignHead ht
    cases ms with
    | nil => exact .one rfl (.leaf ⟨hname, nofun⟩ rfl) nofun
    | cons w ms =>
      have hw := hms.2 trivial
      refine .one rfl (.over ⟨hname, fun w' hw' => ?_⟩ rfl (hw.contract w List.mem_cons_self)) nofun
      obtain rfl := Option.some.inj hw'
      exact hw.makes _ List.mem_cons_self

/-- Where no assignment starts, no token that can start a word does so with a name and `=`. -/
theorem not_head_of_noAssignment {t : Token} {name : Text} (hno : NoAssignment c place)
    (ht : c.token? place = some t)
    (hwants : c.wants false (among (pieceStart c.inBackquote)) t = true)
    (hname : Text.isVariableName name = true) : ¬ name ++ ['='] <+: t.body ++ t.after.rest := by
  rintro ⟨more, hmore⟩
  obtain ⟨hwanted, hvisible⟩ := Context.wants_iff.mp hwants
  have hlexed := Context.token?_eq_some.mp ht
  have hkind : ∀ {kind}, among (pieceStart c.inBackquote) kind = false → t.kind ≠ kind := by
    rintro kind hnot rfl
    rw [hwanted] at hnot
    cases hnot
  have heos : t.kind ≠ .eos := hkind (by cases c.inBackquote <;> rfl)
  have hnewline : t.kind ≠ .newline := hkind (by cases c.inBackquote <;> rfl)
  obtain ⟨hblank, hfront⟩ := Rules.tokenAt_blank hlexed heos hnewline
  have hreach : assignHead.reach? (t.body ++ t.after.rest) = some (name.length + 1) := by
    refine Pattern.reach?_eq_some_iff.mpr ⟨?_, Nat.succ_pos _⟩
    rw [← hmore, List.append_assoc, assignHead]
    have hstop : ∀ ch, (['='] ++ more).head? = some ch → Text.isNameRest ch = false := by
      rintro ch ⟨⟩
      decide
    simp only [Pattern.reach, Pattern.reach_variableName hname hstop, List.drop_left,
      Option.bind_eq_bind, Option.bind_some, Option.pure_def]
    rfl
  have hallowed : (decide (0 < c.mode.rules.blankLength place.rest) && !c.mode.allowBlank) =
      false := by
    rcases hvisible with ⟨_, hallow⟩ | hnone
    · rw [hallow]
      exact Bool.and_false _
    · have hzero : c.mode.rules.blankLength place.rest = 0 := by
        rw [hnone] at hblank
        have hlength := congrArg List.length hblank
        have hle := Rules.blankLength_le c.mode.rules place.rest
        rw [List.length_take] at hlength
        simp only [List.length_nil] at hlength
        omega
      rw [hzero]
      rfl
  simp only [NoAssignment, Rules.takeAt, hallowed, Bool.false_eq_true, if_false, hfront, hreach,
    Option.map_some] at hno
  cases hno

/-- Where no assignment starts, no word starts like one. -/
theorem not_startsAssignment {w : Node} (hno : NoAssignment c place) (h : LeadsWord c place w) :
    ¬ StartsAssignment w.written := by
  rintro ⟨name, rest, hname, hwritten⟩
  obtain ⟨t, ht, hwants, hechoes⟩ := h
  refine not_head_of_noAssignment hno ht hwants hname (hechoes _ (fun ch hch => ?_) ?_)
  · rcases List.mem_append.mp hch with hch | hch
    · exact .inl (Text.isNameRest_of_mem hname hch)
    · exact .inr (List.mem_singleton.mp hch)
  · exact ⟨rest, by rw [hwritten, List.append_assoc]; rfl⟩

theorem command (h : Production.command.body.LeadsBy Known c place ns place') :
    Contracted c .command place ns place' := by
  obtain ⟨assigns, place₁, hassigns, hrest⟩ := leads_bind.mp h
  obtain ⟨body, place₂, hbody, hrest⟩ := leads_bind.mp hrest
  split at hrest
  · exact (not_leads_stop hrest).elim
  · rename_i hsome
    cases (leads_pure.mp hrest).1
    have hassigns := (leads_all.mp hassigns).2 trivial
    have hbody := (leads_all.mp hbody).2 trivial
    refine .one rfl (.of ⟨?_, fun a ha => ?_, fun w hw => ?_, fun w hw => ?_⟩ ?_) trivial
    · cases assigns with
      | cons a assigns => exact .inl nofun
      | nil =>
        cases body with
        | cons w body => exact .inr nofun
        | nil => exact absurd rfl hsome
    · obtain ⟨_, hassign⟩ := hassigns.makes a ha
      exact hassign
    · obtain ⟨_, hword⟩ := hbody.makes w hw
      exact Rules.isWordOf_command hword
    · exact not_startsAssignment hassigns.arranges (hbody.arranges w hw)
    · exact List.forall_mem_append.mpr ⟨hassigns.contract, hbody.contract⟩

end Contracted

/-- Whatever is read is of its class and keeps the contract. -/
theorem contracted {p : Production} (h : Parses c p place ns place') (hgiven : p.Given) :
    Contracted c p place ns place' := by
  have hall : p.Given → Contracted c p place ns place' := by
    refine h.induct (P := fun c p place ns place' => p.Given → Contracted c p place ns place')
      fun {c p place ns place'} h hgiven => ?_
    cases p with
    | many p => exact .many hgiven h
    | chain ch => exact .chain h
    | chainRest ch left => exact .chainRest h hgiven
    | newlines => exact .newlines h
    | list closer => exact .list h
    | entries closer => exact .entries h
    | entry => exact .entry h
    | pipeline => exact .pipeline h
    | command => exact .command h
    | assign => exact .assign h
    | word => exact .word h
    | piece adjacent => exact .piece h
    | quoted => exact .quoted h
    | braced => exact .braced h
    | arithClosed => exact .arithClosed h
    | assignment => exact .assignment h
    | ternary => exact .ternary h
    | power => exact .power h
    | unary => exact .unary h
    | post => exact .post h
    | primary => exact .primary h
  exact hall hgiven

/-- Every tree that a parse yields is a list and keeps the contract, whatever the limit. -/
theorem parse_contract {options : Options} {source : Text} {t : Node}
    (h : parse options source = .ok t) : t.isList ∧ ∀ n ∈ t.preorder, n.Proper := by
  obtain ⟨s, hs⟩ := parse_eq_ok_iff.mp h
  obtain ⟨es, last, front, rfl, hscript, -⟩ := Script.of_run (run_unlimited hs)
  obtain ⟨-, hcontract, -⟩ := contracted hscript.list trivial
  exact ⟨rfl, hcontract _ List.mem_cons_self⟩

/-- `a=b c=d | "${e:-}"f &`, where the first command has two assignments and no word. -/
theorem parse_contract_assignments :
    ∃ t, parse ⟨3⟩ ['a', '=', 'b', ' ', 'c', '=', 'd', ' ', '|', ' ', '"', '$', '{', 'e', ':', '-',
      '}', '"', 'f', ' ', '&'] = .ok t ∧ t.isList ∧ ∀ n ∈ t.preorder, n.Proper := by
  have hparse : (parse ⟨3⟩ ['a', '=', 'b', ' ', 'c', '=', 'd', ' ', '|', ' ', '"', '$', '{', 'e',
      ':', '-', '}', '"', 'f', ' ', '&']).toOption = some (.list [.pipelines (.pipeline false
        (.pipe ['|']
          (.simpleCommand [.assign ['a'] (some (.str ['b'])), .assign ['c'] (some (.str ['d']))] [])
          (.simpleCommand [] [.concat [
            .doubleQuoted [.paramDefault false ['e'] [':', '-'] .empty], .str ['f']]])))
        (some ['&'])]) := by decide +kernel
  exact ⟨_, parse_of_toOption hparse, parse_contract (parse_of_toOption hparse)⟩

end ShellGrammar
