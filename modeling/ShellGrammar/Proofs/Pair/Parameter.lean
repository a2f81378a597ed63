import ShellGrammar.Proofs.Pair.Word

/-! Parameter expansions side by side. -/
namespace ShellGrammar
open ParseM Grammar

variable {σ : Setting} {c : Context} {g g' : Grammar} {ref : Bool} {name : Text} {room : Nat}

/-! ### Heads -/

/-- The name behind the marks. -/
def headRest (length ref : Bool) : ParseM Head := do
  match ← next [.name] with
  | some t => return ⟨length, ref, t.body⟩
  | none =>
    if ref || length then
      if (← peek [.rbrace]).isSome then
        return if ref then ⟨length, false, ['!']⟩ else ⟨false, ref, ['#']⟩
    fail .parameterName

theorem Paces.headRest (length ref : Bool) :
    Paces σ c room (fun _ => 0) (ShellGrammar.headRest length ref)
      (ShellGrammar.headRest length ref) := by
  refine Paces.next_bind rfl ?_ fun t t' _ _ hbody => ?_
  · cases ref || length with
    | false => exact .fail
    | true => exact Paces.peek_bind rfl .fail fun _ _ _ _ => .pure rfl
  · simp only [hbody]
    exact .pure rfl

theorem Paces.head (hc : c.mode.rules ≠ .command) :
    Paces σ c room (fun _ => 0) Grammar.head Grammar.head := by
  have hmark : ∀ (length : Bool) {room : Nat}, Paces σ c room (fun _ => 0)
      (accept (.lit ['!']) .bang >>= fun o => ShellGrammar.headRest length o.isSome)
      (accept (.lit ['!']) .bang >>= fun o => ShellGrammar.headRest length o.isSome) :=
    fun length _ => .accept_bind hc rfl (.headRest _ _) fun _ _ _ => .headRest _ _
  exact .accept_bind hc rfl (hmark false) fun _ _ _ => hmark true

/-! ### Forms -/

namespace Agree

theorem arithOperand (hg : Agree σ g g') (hc : c.mode.rules ≠ .command) :
    Paces σ c g.steps (fun _ => 0) (Grammar.arithOperand g) (Grammar.arithOperand g') :=
  (Follows.withRules hg.expression).mono (fun _ _ h => ⟨hc, h.2⟩) (Nat.le_refl _)
    fun _ => Nat.le_refl _

theorem elementsForm :
    Paces σ c room (fun _ => 0) (Grammar.elementsForm ref name) (Grammar.elementsForm ref name) := by
  refine Paces.next_bind rfl (.pure rfl) fun t t' _ _ hbody => ?_
  simp only [hbody]
  exact .pure rfl

/-- An operator and a word: the shape of three of the forms. -/
theorem payloadForm (hg : Agree σ g g') (hc : c.mode.rules ≠ .command) {pattern : Pattern}
    (hp : pattern.isInline = true) {rules : Rules} (f : Text → Node → Form) :
    Paces σ c g.steps (fun _ => 0)
      (accept pattern .op >>= fun o =>
        match o with
        | none => pure none
        | some op => Grammar.payload g rules >>= fun a => pure (some (f op.body a)))
      (accept pattern .op >>= fun o =>
        match o with
        | none => pure none
        | some op => Grammar.payload g' rules >>= fun a => pure (some (f op.body a))) := by
  refine Paces.accept_bind hc hp (.pure rfl) fun t t' hbody => ?_
  simp only [hbody]
  exact .map ((hg.payload hc rules).less (Nat.sub_le _ _))

theorem defaultForm (hg : Agree σ g g') (hc : c.mode.rules ≠ .command) :
    Paces σ c g.steps (fun _ => 0) (Grammar.defaultForm g ref name)
      (Grammar.defaultForm g' ref name) :=
  hg.payloadForm hc rfl fun op value => ⟨.paramDefault ref name op value, false⟩

theorem substringForm (hg : Agree σ g g') (hc : c.mode.rules ≠ .command) :
    Paces σ c g.steps (fun _ => 0) (Grammar.substringForm g ref name)
      (Grammar.substringForm g' ref name) := by
  have hoperand := (hg.arithOperand hc).less (Nat.sub_le g.steps 1)
  refine Paces.accept_bind hc rfl (.pure rfl) fun _ _ _ => hoperand.bind fun offset => ?_
  refine Paces.acceptPastBlank_bind hc rfl (.pure rfl) fun _ _ _ => .map ?_
  exact hoperand.less (Nat.sub_le _ _)

theorem removalForm (hg : Agree σ g g') (hc : c.mode.rules ≠ .command) :
    Paces σ c g.steps (fun _ => 0) (Grammar.removalForm g ref name)
      (Grammar.removalForm g' ref name) :=
  hg.payloadForm hc rfl fun mode pattern => ⟨.patternRemoval ref name mode pattern, false⟩

theorem caseForm (hg : Agree σ g g') (hc : c.mode.rules ≠ .command) :
    Paces σ c g.steps (fun _ => 0) (Grammar.caseForm g ref name) (Grammar.caseForm g' ref name) :=
  hg.payloadForm hc rfl fun mode pattern => ⟨.caseChange ref name mode pattern, false⟩

theorem replacementForm (hg : Agree σ g g') (hc : c.mode.rules ≠ .command) :
    Paces σ c g.steps (fun _ => 0) (Grammar.replacementForm g ref name)
      (Grammar.replacementForm g' ref name) := by
  have hpayload : ∀ (rules : Rules) {room : Nat}, room ≤ g.steps →
      Paces σ c room (fun _ => 0) (Grammar.payload g rules) (Grammar.payload g' rules) :=
    fun rules _ => (hg.payload hc rules).less
  have hrest : ∀ (mode : Text) {room : Nat}, room ≤ g.steps →
      Paces σ c room (fun _ => 0)
        (Grammar.payload g .wordUntilSlash >>= fun pattern =>
          accept (.lit ['/']) .slash >>= fun o =>
            match o with
            | none => pure (some ⟨.patternReplacement ref name mode pattern none, false⟩)
            | some _ => Grammar.payload g .wordUntilBrace >>= fun replace =>
              pure (some (⟨.patternReplacement ref name mode pattern (some replace), false⟩ : Form)))
        (Grammar.payload g' .wordUntilSlash >>= fun pattern =>
          accept (.lit ['/']) .slash >>= fun o =>
            match o with
            | none => pure (some ⟨.patternReplacement ref name mode pattern none, false⟩)
            | some _ => Grammar.payload g' .wordUntilBrace >>= fun replace =>
              pure (some ⟨.patternReplacement ref name mode pattern (some replace), false⟩)) := by
    intro mode room hle
    refine (hpayload _ hle).bind fun pattern => ?_
    refine Paces.accept_bind hc rfl (.pure rfl) fun _ _ _ => .map (hpayload _ ?_)
    exact Nat.le_trans (Nat.sub_le _ _) hle
  refine Paces.accept_bind hc rfl (.pure rfl) fun t t' hbody => ?_
  simp only [hbody]
  refine Paces.accept_bind hc rfl (hrest _ (Nat.sub_le _ _)) fun u u' hbody' => ?_
  simp only [Option.map_some, hbody']
  exact hrest _ (Nat.le_trans (Nat.sub_le _ _) (Nat.sub_le _ _))

theorem matchingNames {mode : Text} :
    Paces σ c room (fun _ => 0) (Grammar.matchingNames ref name mode)
      (Grammar.matchingNames ref name mode) := by
  simp only [Grammar.matchingNames]
  cases ref with
  | false => exact .fail_bind
  | true =>
    cases Text.isVariableName name with
    | false => exact .fail_bind
    | true => exact .pure rfl

theorem atForm (hc : c.mode.rules ≠ .command) :
    Paces σ c room (fun _ => 0) (Grammar.atForm ref name) (Grammar.atForm ref name) := by
  refine Paces.accept_bind hc rfl (.pure rfl) fun _ _ _ => ?_
  refine Paces.accept_bind hc rfl (.map matchingNames) fun t t' hbody => ?_
  simp only [hbody]
  exact .pure rfl

theorem starForm (hc : c.mode.rules ≠ .command) :
    Paces σ c room (fun _ => 0) (Grammar.starForm ref name) (Grammar.starForm ref name) :=
  Paces.accept_bind hc rfl (.pure rfl) fun _ _ _ => .map matchingNames

theorem elementForm (hg : Agree σ g g') (hc : c.mode.rules ≠ .command) :
    Paces σ c g.steps (fun _ => 0) (Grammar.elementForm g ref name)
      (Grammar.elementForm g' ref name) := by
  refine Paces.next_bind rfl (.pure rfl) fun _ _ _ _ _ => ?_
  refine ((hg.arithOperand hc).less (Nat.sub_le _ _)).bind fun subscript => ?_
  exact Paces.acceptPastBlank_bind hc rfl .fail_bind fun _ _ _ => .pure rfl

theorem forms (hg : Agree σ g g') (hc : c.mode.rules ≠ .command) :
    Paces σ c g.steps (fun _ => 0) (firstOf (Grammar.forms g ref name))
      (firstOf (Grammar.forms g' ref name)) := by
  refine Paces.firstOf_cons elementsForm ?_
  refine Paces.firstOf_cons (hg.defaultForm hc) ?_
  refine Paces.firstOf_cons (hg.substringForm hc) ?_
  refine Paces.firstOf_cons (hg.removalForm hc) ?_
  refine Paces.firstOf_cons (hg.caseForm hc) ?_
  refine Paces.firstOf_cons (hg.replacementForm hc) ?_
  refine Paces.firstOf_cons (atForm hc) ?_
  refine Paces.firstOf_cons (starForm hc) ?_
  exact Paces.firstOf_cons (hg.elementForm hc) Paces.firstOf_nil

/-! ### The expansion -/

theorem parameterBody (hg : Agree σ g g') (hc : c.mode.rules ≠ .command) :
    Paces σ c g.steps (fun _ => 0) (Grammar.parameterBody g) (Grammar.parameterBody g') := by
  refine (Paces.head hc).bind fun h => ?_
  cases h.length with
  | true => exact .pure rfl
  | false => exact .map (hg.forms hc)

/-- The rest of an expansion is followed without exception. -/
theorem parameterRest (hg : Agree σ g g') :
    Follows σ c true (fun _ _ => False) g.steps (fun _ => 0) (Grammar.parameterRest g)
      (Grammar.parameterRest g') := by
  refine .withRules (Follows.bind (hg.parameterBody nofun) (fun form => ?_) fun form => ?_)
  · cases form.blankBeforeBrace with
    | true =>
      exact .acceptWith_bind rfl _ _ .fail_bind (fun _ _ _ => .pure rfl) dies_fail.bind
    | false => exact .next_bind rfl .fail_bind (fun _ _ _ _ _ => .pure rfl) dies_fail.bind
  · cases form.blankBeforeBrace with
    | true => exact dies_orFail (misses_acceptWith rfl _ _)
    | false => exact dies_orFail (misses_next rfl rfl)

end Agree

end ShellGrammar
