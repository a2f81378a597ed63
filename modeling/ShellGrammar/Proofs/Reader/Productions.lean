import ShellGrammar.Proofs.Reader.Mirrors

/-! The productions do what the table says.

`mirrored_level` is the circle closed: each production of a level does what its reader in
the table says, if those of the level below do. A script is then read the way the table
says, whatever bounds the loops have (`Script…`). -/
namespace ShellGrammar
open ParseM Grammar Mirrors

variable {source : Text} {c : Context} {g : Grammar}

/-- The productions one level further in do what their readers say. -/
structure Mirrored (source : Text) (g : Grammar) : Prop where
  descend : g.descend = unlimited
  doubleQuoted : ∀ c, Mirrors source c (fun n ns => n = .doubleQuoted ns) g.doubleQuoted
    (Reader.all (.under .doubleQuote true) .quoted)
  parameter : ∀ c, Mirrors source c (fun n ns => ns = [n]) g.parameter
    (Reader.all (.under .param false) .braced)
  arithExpansion : ∀ c, Mirrors source c (fun n ns => ns = [n]) g.arithExpansion
    (Reader.all (.under .arith true) .arithClosed)
  nestedList : ∀ c closer, Mirrors source c (fun n ns => ns = [n]) (g.nestedList closer)
    (Reader.all (.inside closer) (.list closer))
  arith : ∀ c, Mirrors source c (fun n ns => ns = [n]) g.arith
    (Reader.all .here (.chain .comma))
  assignment : ∀ c, Mirrors source c (fun n ns => ns = [n]) g.assignment
    (Reader.all .here .assignment)
  ternary : ∀ c, Mirrors source c (fun n ns => ns = [n]) g.ternary (Reader.all .here .ternary)
  binary : ∀ c min, Mirrors source c (fun n ns => ns = [n]) (g.binary min)
    (Reader.all .here (.chain (.binary min)))
  power : ∀ c, Mirrors source c (fun n ns => ns = [n]) g.power (Reader.all .here .power)
  unary : ∀ c, Mirrors source c (fun n ns => ns = [n]) g.unary (Reader.all .here .unary)

namespace Mirrored

/-! ### Arithmetic -/

theorem primary (hg : Mirrored source g) :
    Mirrors source c (fun n ns => ns = [n]) (Grammar.primary g) (Reader.all .here .primary) := by
  refine ofBody ?_
  simp only [Grammar.primary, hg.descend]
  refine expect_bind fail fun t hkind => ?_
  have hmem : t.kind ∈ primaryStart := List.contains_iff_mem.mp hkind
  simp only [primaryStart, List.mem_cons, List.not_mem_nil, or_false] at hmem
  simp only [Reader.primaryRest, Token.lexeme]
  rcases hmem with hk | hk | hk | hk | hk | hk | hk <;> simp only [hk]
  · exact pure rfl
  · exact pure rfl
  · exact pure rfl
  · exact nested ((hg.arith c).one.eq_bind fun body => expect_bind fail_bind fun _ _ => pure rfl)
  · exact nested (hg.parameter c)
  · exact nested (hg.arithExpansion c)
  · exact (nested (hg.nestedList c .paren)).one.eq_bind fun body => pure rfl

theorem postOperand (hg : Mirrored source g) :
    Mirrors source c (fun n ns => ns = [n]) (Grammar.postOperand g) (Reader.all .here .post) :=
  ofBody (hg.primary.one.eq_bind fun _ => next_bind (pure rfl) fun _ _ => pure rfl)

theorem unaryOperand (hg : Mirrored source g) :
    Mirrors source c (fun n ns => ns = [n]) (Grammar.unaryOperand g) (Reader.all .here .unary) := by
  refine ofBody ?_
  simp only [Grammar.unaryOperand, hg.descend]
  refine next_bind hg.postOperand fun t _ => ?_
  exact (nested (hg.unary c)).one.eq_bind fun _ => pure rfl

theorem powerOperand (hg : Mirrored source g) :
    Mirrors source c (fun n ns => ns = [n]) (Grammar.powerOperand g) (Reader.all .here .power) := by
  refine ofBody ?_
  simp only [Grammar.powerOperand, hg.descend]
  refine hg.unaryOperand.one.eq_bind fun base => next_bind (pure rfl) fun t _ => ?_
  exact (nested (hg.power c)).one.eq_bind fun _ => pure rfl

theorem binaryOperand (hg : Mirrored source g) (min : Nat) :
    Mirrors source c (fun n ns => ns = [n]) (Grammar.binaryOperand g min)
      (Reader.all .here (.chain (.binary min))) := by
  refine chain hg.descend hg.powerOperand ?_
  have htake := @take source c false fun _ => isBinaryFrom min
  refine (htake.bind fun o l hl => ?_).congr fun s hs _ => binaryOperator_eq_take hs min
  obtain ⟨rfl, _⟩ := hl
  cases o with
  | none => exact pure .none
  | some t => exact pure (.some ⟨hg.binary c _, rfl⟩)

theorem ternaryOperand (hg : Mirrored source g) :
    Mirrors source c (fun n ns => ns = [n]) (Grammar.ternaryOperand g)
      (Reader.all .here .ternary) := by
  refine ofBody ?_
  simp only [Grammar.ternaryOperand, hg.descend]
  refine (hg.binaryOperand 0).one.eq_bind fun cond => next_bind (pure rfl) fun _ _ => ?_
  refine (nested (hg.arith c)).one.eq_bind fun yes => expect_bind fail_bind fun _ _ => ?_
  exact (nested (hg.ternary c)).one.eq_bind fun no => pure rfl

theorem assignmentOperand (hg : Mirrored source g) :
    Mirrors source c (fun n ns => ns = [n]) (Grammar.assignmentOperand g)
      (Reader.all .here .assignment) := by
  refine ofBody ?_
  rw [assignmentOperand_eq_over, assignmentOver_eq, hg.descend]
  refine target.bind fun o l hl => ?_
  subst hl
  cases o with
  | none => exact hg.ternaryOperand
  | some tu => exact (nested (hg.assignment c)).one.eq_bind fun value => pure rfl

theorem expression (hg : Mirrored source g) :
    Mirrors source c (fun n ns => ns = [n]) (Grammar.expression g)
      (Reader.all .here (.chain .comma)) := by
  refine chain hg.descend hg.assignmentOperand ?_
  refine next_bind (pure .none) fun t _ => pure (.some ⟨hg.assignmentOperand, rfl⟩)

/-! ### Words -/

theorem piece (hg : Mirrored source g) (adjacent : Bool) :
    Mirrors source c (fun o ns => ns = o.toList) (Grammar.piece g adjacent)
      (Reader.all .here (.piece adjacent)) := by
  refine ofBody ?_
  simp only [Grammar.piece, hg.descend]
  refine pieceStartHere_bind (look_next_bind rfl (fun _ => rfl) (pure rfl) fun t hkind => ?_)
  have hmem : t.kind ∈ pieceStart c.inBackquote := by
    cases hb : c.inBackquote <;> rw [hb] at hkind <;> exact List.contains_iff_mem.mp hkind
  simp only [Reader.pieceRest, Token.lexeme]
  rcases mem_pieceStart hmem with
    hk | hk | hk | hk | hk | hk | hk | ⟨hk, _⟩ | hk | hk <;> simp only [hk]
  · exact pure rfl
  · exact pure rfl
  · exact (nested (hg.doubleQuoted c)).bind fun n ns hn => pure (by rw [hn]; rfl)
  · exact pure rfl
  · exact map ((nested (hg.parameter c)).mono fun _ _ h => h)
  · exact (nested (hg.nestedList c .paren)).one.eq_bind fun body => pure rfl
  · exact map ((nested (hg.arithExpansion c)).mono fun _ _ h => h)
  · exact (nested (hg.nestedList c .backquote)).one.eq_bind fun body => pure rfl
  · exact (nested (hg.nestedList c .paren)).one.eq_bind fun body => pure rfl
  · exact (nested (hg.nestedList c .paren)).one.eq_bind fun body => pure rfl

theorem word (hg : Mirrored source g) :
    Mirrors source c (fun o ns => ns = o.toList) (Grammar.word g) (Reader.all .here .word) := by
  refine ofBody ((hg.piece false).first?.eq_bind fun o => ?_)
  cases o with
  | none => exact pure rfl
  | some first => exact (many (hg.piece true) g.steps).eq_bind fun rest => pure rfl

theorem payload (hg : Mirrored source g) (rules : Rules) :
    Mirrors source c Eq (Grammar.payload g rules) (Reader.payload rules) :=
  (withRules hg.word).first?.eq_bind fun _ => pure rfl

theorem doubleQuotedRest (hg : Mirrored source g) :
    Mirrors source c (fun n ns => n = .doubleQuoted ns) (Grammar.doubleQuotedRest g)
      (Reader.all (.under .doubleQuote true) .quoted) := by
  have hrest : ∀ {c bound}, Mirrors source c Eq (gather (Grammar.quotedPiece g) bound)
      (Reader.all .here .quoted) := by
    intro c bound
    induction bound with
    | zero => exact Mirrors.breached _
    | succ bound ih =>
      refine ofBody ?_
      rw [gather, Grammar.quotedPiece, bind_assoc]
      refine next_bind (?_) fun t _ => pure rfl
      simp only [Option.isSome_none, Bool.false_eq_true, if_false, bind_assoc]
      refine (hg.piece false).first?.eq_bind fun o => ?_
      cases o with
      | none => exact fail_bind
      | some p => exact ih.eq_bind fun ps => pure rfl
  exact withRules (map (hrest.mono fun ns ms h => by rw [h]))

theorem arithExpansionRest (hg : Mirrored source g) :
    Mirrors source c (fun n ns => ns = [n]) (Grammar.arithExpansionRest g)
      (Reader.all (.under .arith true) .arithClosed) := by
  refine map (withRules (ofBody (hg.expression.one.eq_bind fun body => ?_)))
  exact accept_close_bind .arith fail_bind fun _ => pure rfl

/-! ### Parameters -/

section Forms
variable {ref : Bool} {name : Text}

theorem arithOperand (hg : Mirrored source g) :
    Mirrors source c Eq (Grammar.arithOperand g) Reader.arithOperand :=
  (withRules hg.expression).one

theorem elementsForm :
    Mirrors source c Eq (Grammar.elementsForm ref name) (Reader.elementsForm ref name) :=
  next_bind (pure rfl) fun _ _ => pure rfl

/-- A form that is an operator and a payload. -/
theorem payloadForm (hg : Mirrored source g) (shape : Shape) (rules : Rules)
    (f : Text → Node → Form) :
    Mirrors source c Eq
      (ParseM.accept shape.pattern shape.kind >>= fun o =>
        match o with
        | none => Pure.pure none
        | some op => Grammar.payload g rules >>= fun value => Pure.pure (some (f op.body value)))
      (Reader.accept shape >>= fun o =>
        match o with
        | none => Pure.pure none
        | some op => Reader.payload rules >>= fun value => Pure.pure (some (f op value))) :=
  accept_bind shape (pure rfl) fun _ => (hg.payload rules).eq_bind fun _ => pure rfl

theorem defaultForm (hg : Mirrored source g) :
    Mirrors source c Eq (Grammar.defaultForm g ref name) (Reader.defaultForm ref name) :=
  hg.payloadForm .default .wordUntilBrace fun op value => ⟨.paramDefault ref name op value, false⟩

theorem substringForm (hg : Mirrored source g) :
    Mirrors source c Eq (Grammar.substringForm g ref name) (Reader.substringForm ref name) := by
  refine accept_bind .colon (pure rfl) fun _ => hg.arithOperand.eq_bind fun offset => ?_
  refine (acceptPastBlank .colon).bind fun o t ht => ?_
  subst ht
  cases o with
  | none => exact pure rfl
  | some _ => exact hg.arithOperand.eq_bind fun _ => pure rfl

theorem removalForm (hg : Mirrored source g) :
    Mirrors source c Eq (Grammar.removalForm g ref name) (Reader.removalForm ref name) :=
  hg.payloadForm .removal .wordUntilBrace fun mode pattern =>
    ⟨.patternRemoval ref name mode pattern, false⟩

theorem caseForm (hg : Mirrored source g) :
    Mirrors source c Eq (Grammar.caseForm g ref name) (Reader.caseForm ref name) :=
  hg.payloadForm .caseChange .wordUntilBrace fun mode pattern =>
    ⟨.caseChange ref name mode pattern, false⟩

theorem replacementForm (hg : Mirrored source g) :
    Mirrors source c Eq (Grammar.replacementForm g ref name)
      (Reader.replacementForm ref name) := by
  refine accept_bind .slash (pure rfl) fun _ => (accept .anchor).bind fun o t ht => ?_
  subst ht
  refine (hg.payload .wordUntilSlash).eq_bind fun pattern => ?_
  refine accept_bind .slash (pure rfl) fun _ => ?_
  exact (hg.payload .wordUntilBrace).eq_bind fun _ => pure rfl

theorem matchingNames {mode : Text} :
    Mirrors source c Eq (Grammar.matchingNames ref name mode)
      (Reader.matchingNames ref name mode) := by
  simp only [Grammar.matchingNames, Reader.matchingNames]
  cases ref with
  | false => exact fail_bind
  | true =>
    cases Text.isVariableName name with
    | false => exact fail_bind
    | true => exact pure rfl

theorem atForm : Mirrors source c Eq (Grammar.atForm ref name) (Reader.atForm ref name) := by
  refine accept_bind .atSign (pure rfl) fun _ => ?_
  exact accept_bind .transform (matchingNames.eq_bind fun _ => pure rfl) fun _ => pure rfl

theorem starForm : Mirrors source c Eq (Grammar.starForm ref name) (Reader.starForm ref name) :=
  accept_bind .star (pure rfl) fun _ => matchingNames.eq_bind fun _ => pure rfl

theorem elementForm (hg : Mirrored source g) :
    Mirrors source c Eq (Grammar.elementForm g ref name) (Reader.elementForm ref name) := by
  refine next_bind (pure rfl) fun _ _ => hg.arithOperand.eq_bind fun subscript => ?_
  exact close_bind .bracket true fail_bind fun _ => pure rfl

theorem forms (hg : Mirrored source g) :
    Mirrors source c Eq (firstOf (Grammar.forms g ref name))
      (Reader.firstOf (Reader.forms ref name)) := by
  refine firstOf_cons elementsForm ?_
  refine firstOf_cons hg.defaultForm ?_
  refine firstOf_cons hg.substringForm ?_
  refine firstOf_cons hg.removalForm ?_
  refine firstOf_cons hg.caseForm ?_
  refine firstOf_cons hg.replacementForm ?_
  refine firstOf_cons atForm ?_
  refine firstOf_cons starForm ?_
  exact firstOf_cons hg.elementForm firstOf_nil

end Forms

theorem head : Mirrors source c Eq Grammar.head Reader.head := by
  refine (accept .sharp).bind fun o t ht => ?_
  subst ht
  refine (accept .bang).bind fun o' t' ht' => ?_
  subst ht'
  simp only [Option.isSome_map]
  refine next_bind ?_ fun _ _ => pure rfl
  cases hmarked : o'.isSome || o.isSome with
  | false => exact fail
  | true =>
    refine peek.bind fun p b hb => ?_
    subst hb
    cases p with
    | none => exact fail
    | some _ => cases o'.isSome <;> exact pure rfl

theorem parameterBody (hg : Mirrored source g) :
    Mirrors source c Eq (Grammar.parameterBody g) Reader.parameterBody := by
  refine head.eq_bind fun h => ?_
  cases h.length with
  | true => exact pure rfl
  | false => exact hg.forms.eq_bind fun _ => pure rfl

theorem parameterRest (hg : Mirrored source g) :
    Mirrors source c (fun n ns => ns = [n]) (Grammar.parameterRest g)
      (Reader.all (.under .param false) .braced) := by
  refine withRules (ofBody (hg.parameterBody.eq_bind fun form => ?_))
  cases form.blankBeforeBrace with
  | true => exact close_bind .brace true fail_bind fun _ => pure rfl
  | false => exact expect_bind fail_bind fun _ _ => pure rfl

/-! ### Commands -/

theorem assignment? (hg : Mirrored source g) :
    Mirrors source c (fun o ns => ns = o.toList) (Grammar.assignment? g)
      (Reader.all .here .assign) := by
  refine ofBody (accept_bind .assignHead (pure rfl) fun t => ?_)
  exact (withRules hg.word).first?.eq_bind fun _ => pure rfl

theorem simpleCommand (hg : Mirrored source g) :
    Mirrors source c (fun n ns => ns = [n]) (Grammar.simpleCommand g)
      (Reader.all .here .command) := by
  refine ofBody ((many hg.assignment? g.steps).eq_bind fun assigns => ?_)
  refine (many hg.word g.steps).eq_bind fun body => ?_
  cases assigns.isEmpty && body.isEmpty with
  | true => exact fail_bind
  | false => exact pure rfl

theorem commandOperator (ch : Chain) {kinds : List Kind} {operand : Text → ParseM Node}
    (hwants : ch.wants = among kinds) (hcommand : ch.isCommand = true)
    (hoperand : ∀ l : Lexeme, Mirrors source c (fun n ns => ns = [n]) (operand l.body)
      (Reader.all .here (ch.operand l.kind))) :
    Mirrors source c (Option.Rel (JoinsAs source c ch operand ch.join))
      (Grammar.commandOperator g kinds) ch.operator := by
  rw [Chain.operator, hwants, hcommand]
  refine next_bind (pure .none) fun t _ => ?_
  exact (Mirrors.skipNewlines g.steps).bind fun _ _ _ => pure (.some ⟨hoperand t.lexeme, rfl⟩)

theorem pipeline (hg : Mirrored source g) :
    Mirrors source c (fun n ns => ns = [n]) (Grammar.pipeline g) (Reader.all .here .pipeline) := by
  have hbody : Mirrors source c (fun n ns => ns = [n])
      (ParseM.chain g (Grammar.simpleCommand g) (Grammar.commandOperator g [.pipe, .pipeAmp])
        (fun _ => Grammar.simpleCommand g) .pipe) (Reader.all .here (.chain .pipe)) :=
    chain hg.descend hg.simpleCommand
      (commandOperator .pipe rfl rfl fun _ => hg.simpleCommand)
  exact ofBody (bang.eq_bind fun excl => hbody.one.eq_bind fun _ => pure rfl)

theorem andOr (hg : Mirrored source g) :
    Mirrors source c (fun n ns => ns = [n]) (Grammar.andOr g)
      (Reader.all .here (.chain .andOr)) :=
  chain hg.descend hg.pipeline (commandOperator .andOr rfl rfl fun _ => hg.pipeline)

theorem entry (hg : Mirrored source g) :
    Mirrors source c (fun n ns => ns = [n]) (Grammar.entry g) (Reader.all .here .entry) :=
  ofBody (hg.andOr.one.eq_bind fun _ => next_bind (pure rfl) fun _ _ => pure rfl)

theorem entries (hg : Mirrored source g) (closer : Closer) :
    ∀ bound, Mirrors source c Eq (Grammar.entries g closer bound)
      (Reader.all .here (.entries closer))
  | 0 => Mirrors.breached _
  | bound + 1 => by
    refine ofBody ((Mirrors.skipNewlines g.steps).bind fun _ _ _ => peek.bind fun o b hb => ?_)
    subst hb
    cases o with
    | some _ => exact pure rfl
    | none =>
      refine hg.entry.one.eq_bind fun first => ?_
      cases isTerminated first with
      | true => exact (entries hg closer bound).eq_bind fun _ => pure rfl
      | false => exact pure rfl

theorem list (hg : Mirrored source g) (closer : Closer) :
    Mirrors source c (fun n ns => ns = [n]) (Grammar.list g closer)
      (Reader.all .here (.list closer)) :=
  ofBody ((hg.entries closer g.steps).eq_bind fun _ =>
    expect_bind fail_bind fun _ _ => pure rfl)

end Mirrored

/-! ### Levels -/

/-- The productions of every level do what their readers say. -/
theorem mirrored_level (source : Text) : ∀ n, Mirrored source (Grammar.level unlimited n)
  | 0 =>
    { descend := rfl
      doubleQuoted := fun _ => Mirrors.breached _
      parameter := fun _ => Mirrors.breached _
      arithExpansion := fun _ => Mirrors.breached _
      nestedList := fun _ _ => Mirrors.breached _
      arith := fun _ => Mirrors.breached _
      assignment := fun _ => Mirrors.breached _
      ternary := fun _ => Mirrors.breached _
      binary := fun _ _ => Mirrors.breached _
      power := fun _ => Mirrors.breached _
      unary := fun _ => Mirrors.breached _ }
  | n + 1 =>
    have hg := mirrored_level source n
    { descend := rfl
      doubleQuoted := fun _ => hg.doubleQuotedRest
      parameter := fun _ => hg.parameterRest
      arithExpansion := fun _ => hg.arithExpansionRest
      nestedList := fun _ closer => inside (hg.list closer)
      arith := fun _ => hg.expression
      assignment := fun _ => hg.assignmentOperand
      ternary := fun _ => hg.ternaryOperand
      binary := fun _ => hg.binaryOperand
      power := fun _ => hg.powerOperand
      unary := fun _ => hg.unaryOperand }

end ShellGrammar
