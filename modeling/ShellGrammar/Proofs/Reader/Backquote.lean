import ShellGrammar.Proofs.Reader.Single
import ShellGrammar.Proofs.Rules.Front

/-! Between backquotes.

Between backquotes a backquote starts no piece of a word, and that is the only thing that
is read in another way there. So what has no command between backquotes in it is read there
as it is elsewhere (`Parses.backquoted`). The proof has to know that a command between
backquotes, once it is read, stays in sight: it is in what the reader makes in the end
(`Reader.Shows`), so there was none if there is none in the end. -/
namespace ShellGrammar
open Grammar ParseM Rules

/-! ### Trees -/

mutual

/-- Whether a command between backquotes is in a tree. What is in the lists of other
substitutions does not count. -/
@[simp] def Node.backquotes : Node → Bool
  | .commandSubst style _ => style == ['`']
  | .processSubst .. => false
  | .list body | .doubleQuoted body | .concat body => Node.anyBackquotes body
  | .simpleCommand assigns body => Node.anyBackquotes assigns || Node.anyBackquotes body
  | .pipelines body _ | .pipeline _ body | .arithExpansion body | .parentheses body =>
    body.backquotes
  | .andOr _ left right | .pipe _ left right | .binOp _ left right =>
    left.backquotes || right.backquotes
  | .assign _ value => Node.optBackquotes value
  | .paramDefault _ _ _ value => value.backquotes
  | .substring _ _ offset length => offset.backquotes || length.backquotes
  | .patternRemoval _ _ _ pattern | .caseChange _ _ _ pattern => pattern.backquotes
  | .patternReplacement _ _ _ pattern replace =>
    pattern.backquotes || Node.optBackquotes replace
  | .arrayElement _ _ subscript => subscript.backquotes
  | .unOp _ operand | .postOp _ operand => operand.backquotes
  | .ternary cond yes no => cond.backquotes || (yes.backquotes || no.backquotes)
  | .str _ | .singleQuoted _ | .simpleParam _ | .param .. | .paramLength .. | .namesStarting ..
  | .paramTransform .. | .arrayElements .. | .arrayKeys .. | .number _ | .var .. | .empty => false

@[simp] def Node.anyBackquotes : List Node → Bool
  | [] => false
  | a :: as => a.backquotes || Node.anyBackquotes as

@[simp] def Node.optBackquotes : Option Node → Bool
  | none => false
  | some a => a.backquotes

end

/-! ### What shows in the end -/

/-- Questions whose answers are the same between backquotes. -/
def Query.IsPlain : (β : Type) → Query β → Prop
  | _, take _ want => ∀ b, want b = want false
  | _, bang => False
  | _, _ => True

/-- Productions that read one part of a command or word, or nothing. -/
def Production.IsPart : Production → Prop
  | assign | word | piece _ => True
  | _ => False

/-- A repetition is one of parts. -/
def Production.IsPlain : Production → Prop
  | many p => p.IsPart
  | _ => True

/-- What a production is given of what was read before. -/
@[simp] def Production.given : Production → Bool
  | chainRest _ left => left.backquotes
  | _ => false

/-- What is known of all that a production yields: newlines are no nodes, a part is one node,
and what was given is in it. -/
structure Production.Yields (p : Production) (ns : List Node) : Prop where
  newlines : p = .newlines → ns = []
  part : p.IsPart → ns.length ≤ 1
  given : p.given = true → Node.anyBackquotes ns = true

/-- Whether a call goes into a list of its own. -/
def Shift.IsInside : Shift → Bool
  | inside _ => true
  | here | under .. => false

namespace Reader
variable {α β : Type} {R : α → Prop} {S : β → Prop} {told : Prop}

/-- A reader that was told of backquotes, or calls something with backquotes in it, comes to
something in `R`. -/
def Shows (R : α → Prop) : Reader α → Prop → Prop
  | .done a, told => told → R a
  | .stop, _ => True
  | .ask q k, told => Query.IsPlain _ q ∧ ∀ b, (k b).Shows R told
  | .call shift p k, told => p.IsPlain ∧ ∀ ns, p.Yields ns →
      (k ns).Shows R (told ∨ (shift.IsInside = false ∧ Node.anyBackquotes ns = true))

theorem Shows.mono {m : Reader α} (h : m.Shows R told) {told' : Prop} (himp : told' → told) :
    m.Shows R told' := by
  induction m generalizing told told' with
  | done a => exact fun htold => h (himp htold)
  | stop => trivial
  | ask q k ih => exact ⟨h.1, fun b => ih b (h.2 b) himp⟩
  | call shift p k ih => exact ⟨h.1, fun ns hns => ih ns (h.2 ns hns) (Or.imp_left himp)⟩

theorem shows_pure {a : α} (h : told → R a) : (pure a : Reader α).Shows R told := h

theorem shows_bind {m : Reader β} {f : β → Reader α} (hm : m.Shows S told)
    (hf : ∀ b, (f b).Shows R (S b)) : (m >>= f).Shows R told := by
  show (m.bind f).Shows R told
  induction m generalizing told with
  | done b => exact (hf b).mono hm
  | stop => trivial
  | ask q k ih => exact ⟨hm.1, fun b => ih b (hm.2 b)⟩
  | call shift p k ih => exact ⟨hm.1, fun ns hns => ih ns (hm.2 ns hns)⟩

theorem shows_query {q : Query β} (hq : Query.IsPlain β q) :
    (Reader.ask q .done).Shows (fun _ => told) told :=
  ⟨hq, fun _ h => h⟩

theorem shows_next {kinds : List Kind} : (next kinds).Shows (fun _ => told) told :=
  shows_query fun _ => rfl

theorem shows_expect {kinds : List Kind} : (expect kinds).Shows (fun _ => told) told := by
  refine shows_bind shows_next fun o => ?_
  cases o with
  | none => trivial
  | some l => exact id

theorem shows_accept {shape : Shape} : (accept shape).Shows (fun _ => told) told :=
  shows_query trivial

theorem shows_all {shift : Shift} {p : Production} (hp : p.IsPlain) :
    (all shift p).Shows (fun ns => told ∨ Node.anyBackquotes ns = true) told :=
  ⟨hp, fun _ _ htold => htold.imp_right And.right⟩

theorem shows_last {shift : Shift} {p : Production} (hp : p.IsPlain)
    (hgiven : told → p.given = true) :
    (all shift p).Shows (fun ns => Node.anyBackquotes ns = true) told :=
  ⟨hp, fun _ hns h => h.elim (fun htold => hns.given (hgiven htold)) And.right⟩

theorem shows_newlines : (all .here .newlines).Shows (fun _ => told) told := by
  refine ⟨trivial, fun ns hns h => h.resolve_right ?_⟩
  rw [hns.newlines rfl]
  exact fun h => Bool.false_ne_true h.2

theorem shows_one {shift : Shift} {p : Production} (hp : p.IsPlain) :
    (one shift p).Shows (fun n => told ∨ n.backquotes = true) told := by
  refine ⟨hp, fun ns _ => ?_⟩
  dsimp only
  split
  · intro htold
    simpa using htold.imp_right And.right
  · trivial

/-- What is in a list of its own does not count. -/
theorem shows_inside {closer : Closer} {p : Production} (hp : p.IsPlain) :
    (one (.inside closer) p).Shows (fun _ => told) told := by
  refine ⟨hp, fun ns _ => ?_⟩
  dsimp only
  split
  · rintro (htold | ⟨hno, _⟩)
    · exact htold
    · cases hno
  · trivial

theorem shows_first? {shift : Shift} {p : Production} (hp : p.IsPart) :
    (first? shift p).Shows (fun o => told ∨ Node.optBackquotes o = true) told := by
  refine ⟨?_, fun ns hns htold => htold.imp_right fun ⟨_, hmem⟩ => ?_⟩
  · cases p <;> first | exact hp.elim | trivial
  · have hlength := hns.part hp
    match ns with
    | [] => cases hmem
    | [n] => simpa using hmem
    | _ :: _ :: _ => simp at hlength

theorem shows_payload {rules : Rules} :
    (payload rules).Shows (fun n => told ∨ n.backquotes = true) told := by
  refine shows_bind (shows_first? trivial) fun o => shows_pure ?_
  cases o <;> simp

theorem shows_arithOperand : arithOperand.Shows (fun n => told ∨ n.backquotes = true) told :=
  shows_one trivial

/-! The forms of parameters, one by one. -/

/-- A form with backquotes in it. -/
def InForm (o : Option Form) : Prop := ∃ form ∈ o, form.node.backquotes = true

section Forms
variable {ref : Bool} {name : Text}

theorem shows_payloadForm {shape : Shape} {rules : Rules} {f : Text → Node → Form}
    (hf : ∀ op n, n.backquotes = true → (f op n).node.backquotes = true) :
    (accept shape >>= fun o =>
      match o with
      | none => pure none
      | some op => payload rules >>= fun value => pure (some (f op value))).Shows InForm False := by
  refine shows_bind shows_accept fun o => ?_
  cases o with
  | none => exact False.elim
  | some op =>
    refine shows_bind shows_payload fun n => shows_pure fun h => ?_
    exact ⟨_, rfl, hf op n (h.resolve_left id)⟩

theorem shows_elementsForm : (elementsForm ref name).Shows InForm False := by
  refine shows_bind shows_next fun o => ?_
  cases o <;> exact False.elim

theorem shows_substringForm : (substringForm ref name).Shows InForm False := by
  refine shows_bind shows_accept fun o => ?_
  cases o with
  | none => exact False.elim
  | some _ =>
    refine shows_bind shows_arithOperand fun offset => ?_
    refine shows_bind (shows_query trivial) fun o => ?_
    cases o with
    | none => exact shows_pure fun h => ⟨_, rfl, by simpa using h⟩
    | some _ =>
      exact shows_bind shows_arithOperand fun n => shows_pure fun h => ⟨_, rfl, by simpa using h⟩

theorem shows_replacementForm : (replacementForm ref name).Shows InForm False := by
  refine shows_bind shows_accept fun o => ?_
  cases o with
  | none => exact False.elim
  | some _ =>
    refine shows_bind shows_accept fun anchor => shows_bind shows_payload fun pattern => ?_
    refine shows_bind shows_accept fun o => ?_
    cases o with
    | none => exact shows_pure fun h => ⟨_, rfl, by simpa using h⟩
    | some _ =>
      exact shows_bind shows_payload fun n => shows_pure fun h => ⟨_, rfl, by simpa using h⟩

theorem shows_matchingNames {mode : Text} :
    (matchingNames ref name mode).Shows (fun _ => False) False := by
  unfold matchingNames
  split
  · exact id
  · trivial

theorem shows_atForm : (atForm ref name).Shows InForm False := by
  refine shows_bind shows_accept fun o => ?_
  cases o with
  | none => exact False.elim
  | some _ =>
    refine shows_bind shows_accept fun o => ?_
    cases o with
    | none => exact shows_bind shows_matchingNames fun _ => False.elim
    | some op => exact False.elim

theorem shows_starForm : (starForm ref name).Shows InForm False := by
  refine shows_bind shows_accept fun o => ?_
  cases o with
  | none => exact False.elim
  | some _ => exact shows_bind shows_matchingNames fun _ => False.elim

theorem shows_elementForm : (elementForm ref name).Shows InForm False := by
  refine shows_bind shows_next fun o => ?_
  cases o with
  | none => exact False.elim
  | some _ =>
    refine shows_bind shows_arithOperand fun n => shows_bind (shows_query trivial) fun _ => ?_
    exact shows_pure fun h => ⟨_, rfl, by simpa using h⟩

theorem shows_firstOf {alternatives : List (Reader (Option Form))}
    (h : ∀ alternative ∈ alternatives, alternative.Shows InForm False) :
    (firstOf alternatives).Shows InForm False := by
  induction alternatives with
  | nil => exact False.elim
  | cons alternative rest ih =>
    refine shows_bind (h _ List.mem_cons_self) fun o => ?_
    cases o with
    | none =>
      refine (ih fun a ha => h a (List.mem_cons_of_mem _ ha)).mono ?_
      rintro ⟨_, hmem, _⟩
      cases hmem
    | some form => exact id

theorem shows_forms : (firstOf (forms ref name)).Shows InForm False := by
  refine shows_firstOf fun alternative hmem => ?_
  simp only [forms, List.mem_cons, List.not_mem_nil, or_false] at hmem
  rcases hmem with rfl | rfl | rfl | rfl | rfl | rfl | rfl | rfl | rfl
  · exact shows_elementsForm
  · exact shows_payloadForm fun _ _ h => h
  · exact shows_substringForm
  · exact shows_payloadForm fun _ _ h => h
  · exact shows_payloadForm fun _ _ h => h
  · exact shows_replacementForm
  · exact shows_atForm
  · exact shows_starForm
  · exact shows_elementForm

end Forms

theorem shows_head : head.Shows (fun _ => False) False := by
  refine shows_bind shows_accept fun _ => shows_bind shows_accept fun _ => ?_
  refine shows_bind shows_next fun o => ?_
  cases o with
  | some l => exact id
  | none =>
    dsimp only
    split
    · refine shows_bind (shows_query trivial) fun b => ?_
      cases b with
      | true => exact shows_pure id
      | false => trivial
    · trivial

theorem shows_parameterBody :
    parameterBody.Shows (fun form => form.node.backquotes = true) False := by
  refine shows_bind shows_head fun h => ?_
  split
  · exact shows_pure False.elim
  · refine shows_bind shows_forms fun o => shows_pure ?_
    rintro ⟨form, hmem, hform⟩
    rw [Option.mem_def.mp hmem]
    exact hform

/-! Words and arithmetic. -/

theorem shows_pieceRest {l : Lexeme} (hback : l.kind ≠ .backquote) :
    (pieceRest l).Shows (fun ns => Node.anyBackquotes ns = true) False := by
  have hnode : ∀ {shift p} {f : List Node → Node}, p.IsPlain →
      (∀ ns, Node.anyBackquotes ns = true → (f ns).backquotes = true) →
      (all shift p >>= fun ns => pure [f ns] : Reader (List Node)).Shows
        (fun ns => Node.anyBackquotes ns = true) False := by
    intro shift p f hp hf
    refine shows_bind (shows_all hp) fun ns => shows_pure fun h => ?_
    simpa using hf ns (h.resolve_left id)
  have hlist : ∀ {f : Node → Node},
      (one (.inside .paren) (.list .paren) >>= fun n => pure [f n] : Reader (List Node)).Shows
        (fun ns => Node.anyBackquotes ns = true) False :=
    shows_bind (shows_inside trivial) fun _ => False.elim
  unfold pieceRest
  split
  · exact False.elim
  · exact False.elim
  · exact False.elim
  · exact hnode trivial fun _ h => by simpa using h
  · exact shows_last trivial False.elim
  · exact shows_last trivial False.elim
  · exact hlist
  · exact absurd ‹_› hback
  · exact hlist
  · exact hlist
  · trivial

theorem shows_primaryRest {l : Lexeme} :
    (primaryRest l).Shows (fun ns => Node.anyBackquotes ns = true) False := by
  unfold primaryRest
  split
  · exact False.elim
  · exact False.elim
  · exact False.elim
  · refine shows_bind (shows_one trivial) fun n => shows_bind shows_expect fun _ => ?_
    exact shows_pure fun h => by simpa using h
  · exact shows_last trivial False.elim
  · exact shows_last trivial False.elim
  · exact shows_bind (shows_inside trivial) fun _ => False.elim
  · trivial

end Reader

open Reader in
/-- What a production is given or reads of backquotes is in what it yields. -/
theorem Production.shows {p : Production} (hp : p.IsPlain)
    (hpiece : ∀ adjacent, p ≠ .piece adjacent) (hpipeline : p ≠ .pipeline) :
    p.body.Shows (fun ns => Node.anyBackquotes ns = true) (p.given = true) := by
  have hnone : ∀ {m : Reader (List Node)}, m.Shows (fun ns => Node.anyBackquotes ns = true) False →
      m.Shows (fun ns => Node.anyBackquotes ns = true) (false = true) :=
    fun h => h.mono Bool.false_ne_true
  cases p with
  | piece adjacent => exact absurd rfl (hpiece adjacent)
  | pipeline => exact absurd rfl hpipeline
  | chainRest ch left =>
    have hoperator : ch.operator.Shows (fun _ => left.backquotes = true) (left.backquotes = true) := by
      refine shows_bind (shows_query fun _ => rfl) fun o => ?_
      cases o with
      | none => exact id
      | some op =>
        dsimp only
        split
        · exact shows_bind shows_newlines fun _ => shows_pure id
        · exact id
    refine shows_bind hoperator fun o => ?_
    cases o with
    | none => exact shows_pure fun h => by simpa using h
    | some op =>
      have hoperand : (ch.operand op.kind).IsPlain := by cases ch <;> trivial
      refine shows_bind (shows_one hoperand) fun right => shows_last trivial fun h => ?_
      cases ch <;> simpa [Chain.join] using h
  | many p =>
    refine hnone (shows_bind (shows_first? hp) fun o => ?_)
    cases o with
    | none => exact shows_pure fun h => by simp at h
    | some n => exact shows_bind (shows_all hp) fun ns => shows_pure fun h => by simpa using h
  | chain ch =>
    have hfirst : ch.first.IsPlain := by cases ch <;> trivial
    exact hnone (shows_bind (shows_one hfirst) fun left =>
      shows_last trivial fun h => by simpa using h)
  | newlines =>
    refine hnone (shows_bind shows_next fun o => ?_)
    cases o with
    | none => exact False.elim
    | some _ => exact shows_last trivial False.elim
  | list closer =>
    refine hnone (shows_bind (shows_all trivial) fun body => shows_bind shows_expect fun _ => ?_)
    exact shows_pure fun h => by simpa using h
  | entries closer =>
    refine hnone (shows_bind shows_newlines fun _ => shows_bind (shows_query trivial) fun b => ?_)
    cases b with
    | true => exact False.elim
    | false =>
      refine shows_bind (shows_one trivial) fun first => ?_
      split
      · exact shows_bind (shows_all trivial) fun ns => shows_pure fun h => by simpa using h
      · exact shows_pure fun h => by simpa using h
  | entry =>
    refine hnone (shows_bind (shows_one trivial) fun body => shows_bind shows_next fun _ => ?_)
    exact shows_pure fun h => by simpa using h
  | command =>
    refine hnone (shows_bind (shows_all trivial) fun assigns => ?_)
    refine shows_bind (shows_all trivial) fun body => ?_
    split
    · trivial
    · exact shows_pure fun h => by simpa using h
  | assign =>
    refine hnone (shows_bind shows_accept fun o => ?_)
    cases o with
    | none => exact False.elim
    | some t => exact shows_bind (shows_first? trivial) fun v => shows_pure fun h => by simpa using h
  | word =>
    refine hnone (shows_bind (shows_first? trivial) fun o => ?_)
    cases o with
    | none => exact shows_pure fun h => by simp at h
    | some first =>
      refine shows_bind (shows_all trivial) fun rest => shows_pure fun h => ?_
      cases rest <;> simpa using h
  | quoted =>
    refine hnone (shows_bind shows_next fun o => ?_)
    cases o with
    | some _ => exact False.elim
    | none =>
      refine shows_bind (shows_first? trivial) fun o => ?_
      cases o with
      | none => trivial
      | some n => exact shows_bind (shows_all trivial) fun ns => shows_pure fun h => by simpa using h
  | braced =>
    refine hnone (shows_bind shows_parameterBody fun form => ?_)
    split
    · exact shows_bind (shows_query trivial) fun _ => shows_pure fun h => by simpa using h
    · exact shows_bind shows_expect fun _ => shows_pure fun h => by simpa using h
  | arithClosed =>
    refine hnone (shows_bind (shows_one trivial) fun body => ?_)
    exact shows_bind (shows_query trivial) fun _ => shows_pure fun h => by simpa using h
  | assignment =>
    refine hnone (shows_bind (shows_query trivial) fun o => ?_)
    cases o with
    | none => exact shows_last trivial False.elim
    | some target =>
      exact shows_bind (shows_one trivial) fun n => shows_pure fun h => by simpa using h
  | ternary =>
    refine hnone (shows_bind (shows_one trivial) fun cond => shows_bind shows_next fun o => ?_)
    cases o with
    | none => exact shows_pure fun h => by simpa using h
    | some _ =>
      refine shows_bind (shows_one trivial) fun yes => shows_bind shows_expect fun _ => ?_
      exact shows_bind (shows_one trivial) fun no => shows_pure fun h => by
        simpa [or_assoc] using h
  | power =>
    refine hnone (shows_bind (shows_one trivial) fun base => shows_bind shows_next fun o => ?_)
    cases o with
    | none => exact shows_pure fun h => by simpa using h
    | some _ => exact shows_bind (shows_one trivial) fun n => shows_pure fun h => by simpa using h
  | unary =>
    refine hnone (shows_bind shows_next fun o => ?_)
    cases o with
    | none => exact shows_last trivial False.elim
    | some _ => exact shows_bind (shows_one trivial) fun n => shows_pure fun h => by simpa using h
  | post =>
    refine hnone (shows_bind (shows_one trivial) fun operand => shows_bind shows_next fun o => ?_)
    cases o <;> exact shows_pure fun h => by simpa using h
  | primary => exact hnone (shows_bind shows_expect fun _ => shows_primaryRest)

/-! ### What productions yield -/

section Yields
variable {c : Context} {p : Production} {a a₁ : Scan} {ns : List Node}

theorem Parses.newlines_nil (h : Parses c .newlines a ns a₁) : ns = [] := by
  refine @Parses.induct _ _ _ (fun _ p _ ns _ => p = .newlines → ns = []) ?_ _ _ h rfl
  rintro c p a ns a₁ hbody rfl
  obtain ⟨o, _, _, hrest⟩ := leads_bind.mp hbody
  cases o with
  | none => exact hrest.1
  | some _ => exact (leads_all.mp hrest).2 rfl

theorem Parses.part_length (h : Parses c p a ns a₁) (hp : p.IsPart) : ns.length ≤ 1 := by
  cases p with
  | assign =>
    obtain ⟨o, _, _, hrest⟩ := leads_bind.mp (parses_iff.mp h)
    cases o with
    | none => exact hrest.1 ▸ Nat.zero_le 1
    | some t =>
      obtain ⟨_, _, _, hlast⟩ := leads_bind.mp hrest
      exact hlast.1 ▸ Nat.le_refl 1
  | word =>
    obtain ⟨rfl, _⟩ | ⟨_, _, _, _, _, rfl⟩ := h.word_cases
    · exact Nat.zero_le 1
    · exact Nat.le_refl 1
  | piece adjacent =>
    obtain ⟨rfl, _⟩ | ⟨_, _, rfl, _⟩ := h.piece_cases
    · exact Nat.zero_le 1
    · exact Nat.le_refl 1
  | _ => exact hp.elim

/-- What is given to the rest of a chain is in the chain. -/
theorem Parses.given (h : Parses c p a ns a₁) (hgiven : p.given = true) :
    Node.anyBackquotes ns = true := by
  refine @Parses.induct _ _ _ (fun _ p _ ns _ => p.given = true → Node.anyBackquotes ns = true)
    ?_ _ _ h hgiven
  intro c p a ns a₁ hbody hgiven
  cases p with
  | chainRest ch left =>
    obtain ⟨o, _, _, hrest⟩ := leads_bind.mp hbody
    cases o with
    | none =>
      rw [hrest.1]
      simpa using hgiven
    | some op =>
      obtain ⟨right, _, _, hrest⟩ := leads_bind.mp hrest
      refine (leads_all.mp hrest).2 ?_
      rw [Production.given] at hgiven ⊢
      cases ch <;> simp [Chain.join, hgiven]
  | _ => cases hgiven

theorem Parses.yields (h : Parses c p a ns a₁) : p.Yields ns where
  newlines hp := (hp ▸ h).newlines_nil
  part := h.part_length
  given := h.given

end Yields

/-! ### Between backquotes -/

/-- The same context between backquotes. -/
def Context.backquoted (c : Context) : Context := { c with inBackquote := true }

/-- A production reads between backquotes what it reads elsewhere, if there is no command
between backquotes in it. -/
def Backquoted : Yielding := fun c p a ns a₁ =>
  p.IsPlain → c.inBackquote = false → Node.anyBackquotes ns = false →
    Parses c.backquoted p a ns a₁

section Backquoted
variable {c : Context} {a a₁ : Scan}

theorem Query.answer_backquoted {β : Type} {q : Query β} (hq : q.IsPlain) (c : Context) (a : Scan) :
    q.answer c.backquoted a = q.answer c a := by
  cases q with
  | take adjacent want =>
    have hsame : want c.backquoted.inBackquote = want c.inBackquote := (hq _).trans (hq _).symm
    simp only [answer_take, hsame]
    rfl
  | bang => exact hq.elim
  | _ => rfl

/-- What a reader comes to between backquotes, if no backquotes show in it. -/
theorem Reader.Shows.leads {α : Type} {R : α → Prop} {m : Reader α} {told : Prop} {r : α}
    (hm : m.Shows R told)
    (h : m.LeadsBy (fun c p a ns a₁ => Parses c p a ns a₁ ∧ Backquoted c p a ns a₁) c a r a₁)
    (hback : c.inBackquote = false) (hno : ¬ R r) : ¬ told ∧ Leads c.backquoted m a r a₁ := by
  induction m generalizing told a with
  | done b =>
    obtain ⟨rfl, rfl⟩ := h
    exact ⟨fun htold => hno (hm htold), rfl, rfl⟩
  | stop => exact h.elim
  | ask q k ih =>
    obtain ⟨b, a₂, hanswer, hrest⟩ := h
    obtain ⟨htold, hleads⟩ := ih b (hm.2 b) hrest
    exact ⟨htold, b, a₂, (Query.answer_backquoted hm.1 c a).trans hanswer, hleads⟩
  | call shift p k ih =>
    obtain ⟨ns, a₂, ⟨hparses, hcall⟩, hrest⟩ := h
    obtain ⟨htold, hleads⟩ := ih ns (hm.2 ns hparses.yields) hrest
    refine ⟨fun h => htold (.inl h), ns, a₂, ?_, hleads⟩
    have hclean : shift.IsInside = false → Node.anyBackquotes ns = false := fun hshift =>
      Bool.eq_false_iff.mpr fun hany => htold (.inr ⟨hshift, hany⟩)
    cases shift with
    | here => exact hcall hm.1 hback (hclean rfl)
    | under rules allowBlank => exact hcall hm.1 hback (hclean rfl)
    | inside closer => exact hparses

theorem among_backquoted {kind : Kind} (h : kind ≠ .backquote) :
    among (pieceStart true) kind = among (pieceStart false) kind := by
  cases kind <;> first | rfl | exact absurd rfl h

theorem Context.wants_backquoted {adjacent : Bool} {t : Token} (hback : c.inBackquote = false)
    (hkind : t.kind ≠ .backquote) :
    c.backquoted.wants adjacent (among (pieceStart c.backquoted.inBackquote)) t =
      c.wants adjacent (among (pieceStart c.inBackquote)) t := by
  simp only [wants, backquoted, hback, among_backquoted hkind]

/-- A piece that a backquote starts is a command between backquotes. -/
theorem leads_pieceRest_backquote {t : Token} {ns : List Node} {below : Yielding}
    (ht : c.token? a = some t) (hkind : t.kind = .backquote)
    (h : (Reader.pieceRest t.lexeme).LeadsBy below c t.after ns a₁) :
    Node.anyBackquotes ns = true := by
  have hbody : t.body = ['`'] :=
    body_of_spelling (Context.token?_eq_some.mp ht) (by rw [hkind]; rfl)
  simp only [Reader.pieceRest, Token.lexeme, hkind] at h
  obtain ⟨n, _, _, rfl, rfl⟩ := leads_bind.mp h
  simp [hbody]

theorem backquoted_piece {adjacent : Bool} {ns : List Node}
    (h : (Production.piece adjacent).body.LeadsBy
      (fun c p a ns a₁ => Parses c p a ns a₁ ∧ Backquoted c p a ns a₁) c a ns a₁)
    (hback : c.inBackquote = false) (hclean : Node.anyBackquotes ns = false) :
    Parses c.backquoted (.piece adjacent) a ns a₁ := by
  obtain ⟨o, a₂, htake, hrest⟩ := leads_bind.mp h
  cases o with
  | none =>
    obtain ⟨rfl, rfl⟩ := leads_pure.mp hrest
    obtain ⟨t, ht, hwants, rfl⟩ := Query.take_none.mp (leads_query.mp htake)
    refine Parses.piece_done ht ?_
    by_cases hkind : t.kind = .backquote
    · simp only [Context.wants, Context.backquoted, hkind]
      rfl
    · rw [Context.wants_backquoted hback hkind]
      exact hwants
  | some l =>
    obtain ⟨t, ht, hwants, rfl, rfl⟩ := Query.take_some.mp (leads_query.mp htake)
    have hkind : t.kind ≠ .backquote := fun hkind => by
      rw [leads_pieceRest_backquote ht hkind hrest] at hclean
      cases hclean
    obtain ⟨_, hthere⟩ := (Reader.shows_pieceRest hkind).leads hrest hback (by simp [hclean])
    exact Parses.piece_of_token ht ((Context.wants_backquoted hback hkind).trans hwants) hthere

/-- A repetition has backquotes in it if the first round cannot do without. -/
theorem Parses.backquotes_of_many {p : Production} {ns : List Node}
    (h : Parses c (.many p) a ns a₁) (hp : p.IsPart)
    (hfirst : ∀ {ns : List Node} {a₂ : Scan}, Parses c p a ns a₂ → Node.anyBackquotes ns = true) :
    Node.anyBackquotes ns = true := by
  cases ns with
  | nil => exact hfirst h.many_nil
  | cons n ns =>
    obtain ⟨ms, a₂, hround, _⟩ := h.many_cons
    obtain rfl : ms = [] := by simpa using hround.part_length hp
    have hn : n.backquotes = true := by simpa using hfirst hround
    simp [hn]

/-- Where backquotes touch a `!`, they are in the first command of a pipeline. -/
theorem Parses.backquotes_of_bang {n : Node} {t u : Token} (h : Parses c (.chain .pipe) a [n] a₁)
    (ht : c.token? a = some t) (hwants : c.wants false (among [.str]) t = true)
    (hbody : t.body = ['!']) (hu : c.token? t.after = some u) (hkind : u.kind = .backquote)
    (hwants' : c.wants true (among (pieceStart c.inBackquote)) u = true) :
    n.backquotes = true := by
  have hstr : t.kind = .str := by simpa [among] using (Context.wants_iff.mp hwants).1
  have hlexed := Context.token?_eq_some.mp ht
  obtain ⟨left, a₂, hfirst, hrest⟩ := leads_bind.mp (parses_iff.mp h)
  suffices left.backquotes = true by
    simpa using (leads_all.mp hrest).given this
  -- No assignment starts with the sign, so the command starts with a word.
  have hnone : c.mode.rules.takeAt assignHead .assignHead c.mode.allowBlank a = none := by
    obtain ⟨_, hdrop⟩ := tokenAt_blank hlexed (by rw [hstr]; decide) (by rw [hstr]; decide)
    have hreach : assignHead.reach? (t.body ++ t.after.rest) = none := by
      rw [hbody]
      exact Pattern.reach?_eq_none_of_mayStart rfl
    simp only [takeAt, hdrop, hreach, Option.map_none, ite_self]
  obtain ⟨assigns, a₃, hassigns, hrest⟩ := leads_bind.mp (parses_iff.mp (leads_one.mp hfirst))
  obtain ⟨rfl, rfl⟩ := (leads_all.mp hassigns).assigns_none hnone
  obtain ⟨words, a₄, hwords, hrest⟩ := leads_bind.mp hrest
  have hwords : Parses c (.many .word) a₃ words a₄ := leads_all.mp hwords
  -- The word is the sign and the backquotes.
  have hpiece : Parses c (.piece false) a₃ [.str t.body] t.after := by
    refine Parses.piece_of_token ht ?_ ?_
    · have hstart : among (pieceStart c.inBackquote) .str = true := by cases c.inBackquote <;> rfl
      rw [Context.wants_iff, hstr]
      exact ⟨hstart, (Context.wants_iff.mp hwants).2⟩
    · simp only [Reader.pieceRest, Token.lexeme, hstr]
      exact ⟨rfl, rfl⟩
  have hbackquotes : ∀ {ns : List Node} {a₅ : Scan}, Parses c (.piece true) t.after ns a₅ →
      Node.anyBackquotes ns = true := by
    intro ns a₅ h
    obtain ⟨o, a₆, htake, hrest⟩ := leads_bind.mp (parses_iff.mp h)
    cases o with
    | none =>
      obtain ⟨v, hv, hno, _⟩ := Query.take_none.mp (leads_query.mp htake)
      obtain rfl := Option.some.inj (hu.symm.trans hv)
      rw [hwants'] at hno
      cases hno
    | some l =>
      obtain ⟨v, hv, _, rfl, rfl⟩ := Query.take_some.mp (leads_query.mp htake)
      obtain rfl := Option.some.inj (hu.symm.trans hv)
      exact leads_pieceRest_backquote hv hkind hrest
  have hword : ∀ {ns : List Node} {a₅ : Scan}, Parses c .word a₃ ns a₅ →
      Node.anyBackquotes ns = true := by
    intro ns a₅ h
    obtain ⟨o, a₆, hfirst, hrest⟩ := leads_bind.mp (parses_iff.mp h)
    obtain ⟨ms, hms, rfl⟩ := leads_first?.mp hfirst
    obtain ⟨rfl, rfl⟩ := Parses.functional hpiece hms
    obtain ⟨rest, a₇, hall, rfl, rfl⟩ := leads_bind.mp hrest
    have hrest := (leads_all.mp hall).backquotes_of_many trivial hbackquotes
    cases rest with
    | nil => cases hrest
    | cons n rest => simpa using hrest
  have hshown := hwords.backquotes_of_many trivial hword
  split at hrest
  · exact hrest.elim
  · obtain ⟨heq, _⟩ := leads_pure.mp hrest
    cases heq
    simpa using hshown

theorem backquoted_pipeline {ns : List Node}
    (h : Production.pipeline.body.LeadsBy
      (fun c p a ns a₁ => Parses c p a ns a₁ ∧ Backquoted c p a ns a₁) c a ns a₁)
    (hback : c.inBackquote = false) (hclean : Node.anyBackquotes ns = false) :
    Parses c.backquoted .pipeline a ns a₁ := by
  obtain ⟨excl, a₂, hbang, hrest⟩ := leads_bind.mp h
  obtain ⟨body, a₃, hbody, hlast⟩ := leads_bind.mp hrest
  obtain ⟨rfl, rfl⟩ := leads_pure.mp hlast
  obtain ⟨hparses, hthere⟩ := leads_one.mp hbody
  have hbodyClean : body.backquotes = false := by simpa using hclean
  have hbang' : Query.bang.answer c.backquoted a = some (excl, a₂) := by
    obtain ⟨t, ht, ⟨hno, hr, hplace⟩ | ⟨hyes, u, hu, hcase⟩⟩ :=
      Query.bang_iff.mp (leads_query.mp hbang)
    · exact Query.bang_iff.mpr ⟨t, ht, .inl ⟨hno, hr, hplace⟩⟩
    · refine Query.bang_iff.mpr ⟨t, ht, .inr ⟨hyes, u, hu, ?_⟩⟩
      by_cases hkind : u.kind = .backquote
      · obtain ⟨hwants, rfl, rfl⟩ | ⟨hwants, rfl, rfl⟩ := hcase
        · rw [hparses.backquotes_of_bang ht hyes.1 hyes.2 hu hkind hwants] at hbodyClean
          cases hbodyClean
        · refine .inr ⟨?_, rfl, rfl⟩
          simp only [Context.wants, Context.backquoted, hkind]
          rfl
      · rwa [Context.wants_backquoted hback hkind]
  refine parses_iff.mpr (leads_bind.mpr ⟨excl, a₂, leads_query.mpr hbang', ?_⟩)
  refine leads_bind.mpr ⟨body, a₁, leads_one.mpr (hthere trivial hback ?_), rfl, rfl⟩
  simp [hbodyClean]

/-- What has no command between backquotes in it is read between backquotes as it is
elsewhere. -/
theorem Parses.backquoted {p : Production} {ns : List Node} (h : Parses c p a ns a₁)
    (hp : p.IsPlain) (hback : c.inBackquote = false) (hclean : Node.anyBackquotes ns = false) :
    Parses c.backquoted p a ns a₁ := by
  refine h.induct (P := Backquoted) (fun {c p a ns a₁} hbody => ?_) hp hback hclean
  intro hp hback hclean
  by_cases hpiece : ∃ adjacent, p = .piece adjacent
  · obtain ⟨adjacent, rfl⟩ := hpiece
    exact backquoted_piece hbody hback hclean
  by_cases hpipeline : p = .pipeline
  · subst hpipeline
    exact backquoted_pipeline hbody hback hclean
  have hshows := Production.shows hp (fun adjacent heq => hpiece ⟨adjacent, heq⟩) hpipeline
  exact parses_iff.mpr (hshows.leads hbody hback (by simp [hclean])).2

end Backquoted

end ShellGrammar
