import ShellGrammar.Proofs.Lexer.Lookahead

/-! Productions cannot see what was looked at before.

A lexer may hold tokens ahead that a production before has looked at and left, and whether it
does depends on what was tried. Two parsers are alike if they differ in nothing else. From such
a pair a production yields the same, or stops with the same fault, and the pair it leaves is alike
again (`Blind`). One move is so because a lexer answers it by the tokens it has consumed
(`Alike.answer`), and what is put together out of moves is so because its parts are. A step back
is the exception: it returns to what stands before the last token that was taken, so it needs to
be known that one was (`Blind.back`). -/
namespace ShellGrammar
open Grammar ParseM

variable {source : Text}

/-- Two parsers in the same setting that have consumed the same. What their lexers hold ahead may
differ. -/
structure ParseState.Alike (source : Text) (s s' : ParseState) : Prop where
  lexer : ShellGrammar.Alike source s.lexer s'.lexer
  inBackquote : s'.inBackquote = s.inBackquote
  depth : s'.depth = s.depth

/-- Two runs that yield the same or stop for the same reason, in states that are alike. -/
inductive SameEnd (source : Text) {α : Type} :
    EStateM.Result (Halt Fault) ParseState α → EStateM.Result (Halt Fault) ParseState α → Prop where
  | ok (a : α) {s s' : ParseState} (h : s.Alike source s') : SameEnd source (.ok a s) (.ok a s')
  | error (e : Halt Fault) {s s' : ParseState} (h : s.Alike source s') :
    SameEnd source (.error e s) (.error e s')

/-- From states that are alike and satisfy `P`, runs end alike. -/
def Blind (source : Text) {α : Type} (P : ParseState → Prop) (act : ParseM α) : Prop :=
  ∀ s s', s.Alike source s' → P s → P s' → SameEnd source (act s) (act s')

namespace ParseState.Alike
variable {s s' s'' : ParseState}

theorem refl (h : s.lexer.Current source) : s.Alike source s := ⟨.refl h, rfl, rfl⟩

theorem symm (h : s.Alike source s') : s'.Alike source s :=
  ⟨⟨h.lexer.right, h.lexer.left, h.lexer.consumed.symm, h.lexer.modes.symm⟩, h.inBackquote.symm,
    h.depth.symm⟩

theorem trans (h : s.Alike source s') (h' : s'.Alike source s'') : s.Alike source s'' :=
  ⟨⟨h.lexer.left, h'.lexer.right, h'.lexer.consumed.trans h.lexer.consumed,
    h'.lexer.modes.trans h.lexer.modes⟩, h'.inBackquote.trans h.inBackquote,
    h'.depth.trans h.depth⟩

/-- A parser that has only looked is as it was. -/
theorem of_reaches (hs : s.lexer.Current source) (h : Reaches source s [] s') :
    s.Alike source s' :=
  ⟨⟨hs, h.current, h.consumed.trans (List.append_nil _), h.keeps.modes⟩, h.keeps.inBackquote,
    h.keeps.depth⟩

theorem here (h : s.Alike source s') : s'.here = s.here := h.lexer.here

end ParseState.Alike

theorem SameEnd.symm {α : Type} {r r' : EStateM.Result (Halt Fault) ParseState α}
    (h : SameEnd source r r') : SameEnd source r' r := by
  cases h with
  | ok a h => exact .ok a h.symm
  | error e h => exact .error e h.symm

theorem SameEnd.trans {α : Type} {r r' r'' : EStateM.Result (Halt Fault) ParseState α}
    (h : SameEnd source r r') (h' : SameEnd source r' r'') : SameEnd source r r'' := by
  cases h with
  | ok a h =>
    cases h' with
    | ok _ h' => exact .ok a (h.trans h')
  | error e h =>
    cases h' with
    | error _ h' => exact .error e (h.trans h')

/-- After runs that end alike, runs that go on alike from states that are alike end alike. -/
theorem SameEnd.bind {α β : Type} {act act' : ParseM α} {k k' : α → ParseM β} {s s' : ParseState}
    (h : SameEnd source (act s) (act' s'))
    (hk : ∀ a s₁ s₁', act s = .ok a s₁ → act' s' = .ok a s₁' → s₁.Alike source s₁' →
      SameEnd source (k a s₁) (k' a s₁')) :
    SameEnd source ((act >>= k) s) ((act' >>= k') s') := by
  generalize hact : act s = r at h
  generalize hact' : act' s' = r' at h
  cases h with
  | ok a halike =>
    rw [bind_of_ok hact, bind_of_ok hact']
    exact hk a _ _ hact hact' halike
  | error e halike =>
    rw [bind_of_error hact, bind_of_error hact']
    exact .error e halike

namespace Blind
variable {α β : Type} {P : ParseState → Prop} {act : ParseM α}

/-! ### Moves -/

/-- What does as the lexer answers cannot tell lexers apart that answer alike. -/
theorem lexing {act : LexM α} (m : Move) (hm : m ≠ .back) (hafter : Lexer.after act = m.after)
    (hanswer : ∀ l l', m.answer l' = m.answer l → Lexer.answer act l' = Lexer.answer act l) :
    Blind source P (ParseM.lexing act) := by
  intro s s' h _ _
  have hlexer := h.lexer.after m hm
  have hsame := hanswer _ _ (h.lexer.answer m hm)
  rw [← hafter] at hlexer
  rw [lexing_eq, lexing_eq]
  simp only [Lexer.answer] at hsame
  simp only [Lexer.after] at hlexer
  cases hl : act s.lexer <;> cases hl' : act s'.lexer <;> rw [hl, hl'] at hsame hlexer <;>
    cases hsame
  · exact .ok _ ⟨hlexer, h.inBackquote, h.depth⟩
  · exact .error _ ⟨hlexer, h.inBackquote, h.depth⟩

/-- A computation that is a move, and tells what the move is answered. -/
theorem move (m : Move) (hm : m ≠ .back) : Blind source P (ParseM.lexing m.ask) :=
  .lexing m hm m.after_ask fun _ _ h => h

theorem peek (kinds : List Kind) : Blind source P (ParseM.peek kinds) :=
  move (.peek kinds) (by simp)

theorem next (kinds : List Kind) : Blind source P (ParseM.next kinds) :=
  move (.next kinds) (by simp)

theorem peekAdjacent (kinds : List Kind) : Blind source P (ParseM.peekAdjacent kinds) :=
  move (.peekAdjacent kinds) (by simp)

theorem accept (pattern : Pattern) (kind : Kind) : Blind source P (ParseM.accept pattern kind) :=
  move (.accept pattern kind) (by simp)

theorem acceptPastBlank (pattern : Pattern) (kind : Kind) :
    Blind source P (ParseM.acceptPastBlank pattern kind) :=
  move (.acceptWith pattern kind true) (by simp)

theorem look (adjacent : Bool) (kinds : List Kind) : Blind source P (ParseM.look adjacent kinds) :=
  match adjacent with
  | true => peekAdjacent kinds
  | false => peek kinds

theorem peekAny : Blind source P ParseM.peekAny := by
  refine .lexing .peekAny (by simp) rfl fun l l' h => ?_
  simp only [Move.answer, Move.ask, Lexer.answer, Functor.map, EStateM.map] at h ⊢
  cases hl : LexM.peekAny l <;> cases hl' : LexM.peekAny l' <;> rw [hl, hl'] at h <;> cases h <;>
    rfl

theorem enter (rules : Rules) (allowBlank : Bool) :
    Blind source P (ParseM.lexing (modify (Lexer.enter rules allowBlank))) :=
  .lexing (.enter rules allowBlank) (by simp) rfl fun _ _ _ => rfl

theorem leave : Blind source P (ParseM.lexing LexM.leave) := by
  refine .lexing .leave (by simp) rfl fun l l' h => ?_
  simp only [Move.answer, Move.ask, Lexer.answer, SeqRight.seqRight, EStateM.seqRight] at h ⊢
  cases hl : LexM.leave l <;> cases hl' : LexM.leave l' <;> rw [hl, hl'] at h <;> cases h
  rfl

/-- Where one token was taken, stepping back returns to what was consumed before it. -/
theorem back (h : ∀ s, P s → OneTaken source s) : Blind source P ParseM.back := by
  intro s s' halike hP hP'
  obtain ⟨s₀, t, ht, hreaches⟩ := h s hP
  obtain ⟨s₀', t', ht', hreaches'⟩ := h s' hP'
  obtain ⟨s₁, hback, hs₁⟩ := back_of_reaches ht hreaches
  obtain ⟨s₁', hback', hs₁'⟩ := back_of_reaches ht' hreaches'
  have hconsumed : s₀'.lexer.consumed ++ [t'] = s₀.lexer.consumed ++ [t] :=
    hreaches'.consumed.symm.trans (halike.lexer.consumed.trans hreaches.consumed)
  have hkeeps := hreaches.keeps
  have hkeeps' := hreaches'.keeps
  rw [hback, hback']
  refine .ok () ⟨⟨hs₁.current, hs₁'.current, ?_, ?_⟩, ?_, ?_⟩
  · rw [hs₁'.consumed, hs₁.consumed, (List.append_inj' hconsumed rfl).1]
  · rw [hs₁'.keeps.modes, hs₁.keeps.modes, ← hkeeps'.modes, ← hkeeps.modes, halike.lexer.modes]
  · rw [hs₁'.keeps.inBackquote, hs₁.keeps.inBackquote, ← hkeeps'.inBackquote,
      ← hkeeps.inBackquote, halike.inBackquote]
  · rw [hs₁'.keeps.depth, hs₁.keeps.depth, ← hkeeps'.depth, ← hkeeps.depth, halike.depth]

/-! ### Parts -/

theorem pure (a : α) : Blind source P (Pure.pure a) := fun _ _ h _ _ => .ok a h

theorem halt (e : Halt Fault) : Blind source P (throw e : ParseM α) := fun _ _ h _ _ => .error e h

theorem breached (b : Breach) : Blind source P (ShellGrammar.breached b : ParseM α) := halt _

/-- One thing after another, where `R` is what is known after the first. -/
theorem andThen {R : α → ParseState → Prop} {k : α → ParseM β} (first : Blind source P act)
    (h : ∀ s a s', P s → s.lexer.Current source → act s = .ok a s' → R a s')
    (rest : ∀ a, Blind source (R a) (k a)) : Blind source P (act >>= k) :=
  fun s s' halike hP hP' => (first s s' halike hP hP').bind fun a s₁ s₁' hok hok' halike₁ =>
    rest a s₁ s₁' halike₁ (h s a s₁ hP halike.lexer.left hok)
      (h s' a s₁' hP' halike.lexer.right hok')

/-- One thing after another, where nothing has to be known after the first. -/
theorem bind {k : α → ParseM β} (first : Blind source P act)
    (rest : ∀ a, Blind source (fun _ => True) (k a)) : Blind source P (act >>= k) :=
  .andThen first (fun _ _ _ _ _ _ => trivial) rest

/-- Settings that are alike are alike for what is done in their light. -/
theorem setting {k : ParseState → ParseM α} (hk : ∀ s s', s.Alike source s' → k s' = k s)
    (h : ∀ s, Blind source P (k s)) : Blind source P (get >>= k) := by
  intro s s' halike hP hP'
  show SameEnd source (k s s) (k s' s')
  rw [hk s s' halike]
  exact h s s s' halike hP hP'

/-- A change of the setting. -/
theorem change {f : ParseState → ParseState}
    (hf : ∀ s s', s.Alike source s' → (f s).Alike source (f s')) :
    Blind source P (modify f : ParseM Unit) :=
  fun s s' h _ _ => .ok () (hf s s' h)

/-- What is done on every way out is done after either outcome. -/
theorem ensuring_eq (act : ParseM α) (leave : ParseM Unit) (s : ParseState) :
    ShellGrammar.ensuring act leave s =
      match act s with
      | .ok a s' => (leave >>= fun _ => Pure.pure a) s'
      | .error e s' => (leave >>= fun _ => throw e) s' := by
  unfold ShellGrammar.ensuring
  cases act s with
  | ok a s' =>
    simp only [Bind.bind, EStateM.bind]
    cases leave s' <;> rfl
  | error e s' =>
    simp only [Bind.bind, EStateM.bind]
    cases leave s' <;> rfl

/-- What is done on every way out is done from states that are alike. -/
theorem ensuring {leave : ParseM Unit} (body : Blind source P act)
    (out : Blind source (fun _ => True) leave) :
    Blind source P (ShellGrammar.ensuring act leave) := by
  intro s s' h hP hP'
  have hbody := body s s' h hP hP'
  rw [ensuring_eq, ensuring_eq]
  generalize act s = r at hbody
  generalize act s' = r' at hbody
  cases hbody with
  | ok a halike => exact (out _ _ halike trivial trivial).bind fun _ _ _ _ _ h => .ok a h
  | error e halike => exact (out _ _ halike trivial trivial).bind fun _ _ _ _ _ h => .error e h

/-- Either way. -/
theorem branch {c : Prop} [Decidable c] {yes no : ParseM α} (first : Blind source P yes)
    (second : Blind source P no) : Blind source P (if c then yes else no) := by
  split
  · exact first
  · exact second

theorem fail (expected : Expected) : Blind source P (ParseM.fail expected : ParseM α) :=
  peekAny.bind fun _ => setting (fun _ _ h => by rw [h.lexer.mode]) fun _ => halt _

/-- A token that has to be there. -/
theorem orFail {expected : Expected} {c : Prop} [Decidable c] {act : ParseM β}
    (d : ∀ {P}, Blind source P act) :
    Blind source P (if c then ParseM.fail expected >>= fun _ : PUnit => act else act) :=
  branch ((fail expected).bind fun _ => d) d

theorem pieceStartHere : Blind source P Grammar.pieceStartHere :=
  setting (fun _ _ h => by rw [h.inBackquote]) fun _ => pure _

/-! ### Levels and contexts -/

theorem tooDeep (limit : Nat) : Blind source P (ParseM.tooDeep limit) :=
  peekAny.bind fun _ => halt _

theorem descend (limit : Nat) : Blind source P (ParseM.descend limit) :=
  setting (fun _ _ h => by rw [h.depth]) fun _ => branch (tooDeep limit)
    (change fun _ _ h => ⟨h.lexer, h.inBackquote, congrArg (· + 1) h.depth⟩)

theorem ascend : Blind source P ParseM.ascend := by
  intro s s' h _ _
  unfold ParseM.ascend
  rw [h.depth]
  cases s.depth with
  | zero => exact .error _ h
  | succ depth => exact .ok () ⟨h.lexer, h.inBackquote, rfl⟩

theorem nested {d : ParseM Unit} (opens : Blind source P d)
    (body : Blind source (fun _ => True) act) : Blind source P (ParseM.nested d act) :=
  opens.bind fun _ => .ensuring body ascend

theorem folding (body : Blind source P act) : Blind source P (ParseM.folding act) :=
  setting (fun _ _ h => by rw [h.depth]) fun _ => .ensuring body
    (change fun _ _ h => ⟨h.lexer, h.inBackquote, rfl⟩)

theorem withRules (rules : Rules) (allowBlank : Bool) (body : Blind source (fun _ => True) act) :
    Blind source P (ParseM.withRules rules allowBlank act) :=
  (enter rules allowBlank).bind fun _ => .ensuring body leave

theorem inList (closer : Closer) (body : Blind source (fun _ => True) act) :
    Blind source P (ParseM.inList closer act) := by
  refine setting (fun _ _ h => by rw [h.inBackquote]) fun s => ?_
  have enters : Blind source P (modify ({ · with inBackquote := closer == .backquote })) :=
    change fun _ _ h => ⟨h.lexer, rfl, h.depth⟩
  exact enters.bind fun _ => .ensuring body (change fun _ _ h => ⟨h.lexer, rfl, h.depth⟩)

/-! ### Loops, alternatives and chains -/

theorem skipNewlines : ∀ (bound : Nat) {P : ParseState → Prop},
    Blind source P (ParseM.skipNewlines bound)
  | 0, _ => breached .outOfSteps
  | bound + 1, _ => (next _).bind fun
    | none => pure ()
    | some _ => skipNewlines bound

theorem gather {step : ParseM (Option α)} (d : ∀ {P}, Blind source P step) :
    ∀ (bound : Nat) {P : ParseState → Prop}, Blind source P (ShellGrammar.gather step bound)
  | 0, _ => breached .outOfSteps
  | bound + 1, _ => d.bind fun
    | none => pure []
    | some _ => (gather d bound).bind fun _ => pure _

theorem firstOf : ∀ {alternatives : List (ParseM (Option α))} {P : ParseState → Prop},
    (∀ act ∈ alternatives, ∀ {P}, Blind source P act) → Blind source P (ParseM.firstOf alternatives)
  | [], _, _ => pure none
  | act :: _, _, h => (h act List.mem_cons_self).bind fun
    | none => firstOf fun act hact => h act (List.mem_cons_of_mem _ hact)
    | some _ => pure _

theorem chainRest {opens : ParseM Unit} {operator : ParseM (Option β)} {operand : β → ParseM Node}
    {join : β → Node → Node → Node} (dopens : ∀ {P}, Blind source P opens)
    (doperator : ∀ {P}, Blind source P operator)
    (doperand : ∀ op {P}, Blind source P (operand op)) :
    ∀ (bound : Nat) (left : Node) {P : ParseState → Prop},
      Blind source P (ParseM.chainRest opens operator operand join bound left)
  | 0, _, _ => breached .outOfSteps
  | bound + 1, _, _ => doperator.bind fun
    | none => pure _
    | some op => dopens.bind fun _ => (doperand op).bind fun _ =>
      chainRest dopens doperator doperand bound _

theorem chain {g : Grammar} {first : ParseM Node} {operator : ParseM (Option β)}
    {operand : β → ParseM Node} {join : β → Node → Node → Node}
    (dopens : ∀ {P}, Blind source P g.descend) (dfirst : ∀ {P}, Blind source P first)
    (doperator : ∀ {P}, Blind source P operator)
    (doperand : ∀ op {P}, Blind source P (operand op)) :
    Blind source P (ParseM.chain g first operator operand join) :=
  folding (dfirst.bind fun left => chainRest dopens doperator doperand g.steps left)

end Blind

/-! ### Productions -/

/-- The productions that a grammar gives to others cannot see what was looked at before. -/
structure Grammar.Blinkered (source : Text) (g : Grammar) : Prop where
  descend : ∀ {P}, Blind source P g.descend
  doubleQuoted : ∀ {P}, Blind source P g.doubleQuoted
  parameter : ∀ {P}, Blind source P g.parameter
  arithExpansion : ∀ {P}, Blind source P g.arithExpansion
  nestedList : ∀ closer {P}, Blind source P (g.nestedList closer)
  arith : ∀ {P}, Blind source P g.arith
  assignment : ∀ {P}, Blind source P g.assignment
  ternary : ∀ {P}, Blind source P g.ternary
  binary : ∀ min {P}, Blind source P (g.binary min)
  power : ∀ {P}, Blind source P g.power
  unary : ∀ {P}, Blind source P g.unary

namespace Grammar.Blinkered
variable {g : Grammar} {P : ParseState → Prop}

/-! Arithmetic. -/

theorem primary (d : g.Blinkered source) : Blind source P (Grammar.primary g) := by
  refine .andThen (R := fun o s => o.isSome → OneTaken source s) (.next primaryStart)
    (fun s o s' _ hs hok ho => ?_) fun o => ?_
  · obtain ⟨t, rfl⟩ := Option.isSome_iff_exists.mp ho
    exact oneTaken_of_next hs hok
  · cases o with
    | none => exact .fail _
    | some t =>
      dsimp only
      split
      · exact .pure _
      · exact .pure _
      · exact .pure _
      · exact .nested d.descend (d.arith.bind fun _ => (Blind.next _).bind fun _ =>
          .orFail (.pure _))
      · exact .nested d.descend d.parameter
      · exact .nested d.descend d.arithExpansion
      · exact (Blind.nested d.descend (d.nestedList _)).bind fun _ => .pure _
      · exact (Blind.back fun _ h => h rfl).bind fun _ => .fail _

theorem postOperand (d : g.Blinkered source) : Blind source P (Grammar.postOperand g) :=
  d.primary.bind fun _ => (Blind.next _).bind fun
    | none => .pure _
    | some _ => .pure _

theorem unaryOperand (d : g.Blinkered source) : Blind source P (Grammar.unaryOperand g) :=
  (Blind.next _).bind fun
    | none => d.postOperand
    | some _ => (Blind.nested d.descend d.unary).bind fun _ => .pure _

theorem powerOperand (d : g.Blinkered source) : Blind source P (Grammar.powerOperand g) :=
  d.unaryOperand.bind fun _ => (Blind.next _).bind fun
    | none => .pure _
    | some _ => (Blind.nested d.descend d.power).bind fun _ => .pure _

theorem binaryOperator (min : Nat) : Blind source P (Grammar.binaryOperator min) := by
  refine (Blind.peek _).bind fun o => ?_
  cases o with
  | none => exact .pure _
  | some t =>
    dsimp only
    split
    · exact .pure _
    · exact .branch (.pure _) ((Blind.next _).bind fun _ => .pure _)

theorem binaryOperand (d : g.Blinkered source) (min : Nat) :
    Blind source P (Grammar.binaryOperand g min) :=
  .chain d.descend d.powerOperand (binaryOperator min) fun _ => d.binary _

theorem ternaryOperand (d : g.Blinkered source) : Blind source P (Grammar.ternaryOperand g) :=
  (d.binaryOperand 0).bind fun _ => (Blind.next _).bind fun _ => .branch (.pure _) <|
    (Blind.nested d.descend d.arith).bind fun _ => (Blind.next _).bind fun _ =>
      .orFail ((Blind.nested d.descend d.ternary).bind fun _ => .pure _)

/-- With no operator behind it, the name is handed back to the ternary. -/
theorem assignmentOperand (d : g.Blinkered source) :
    Blind source P (Grammar.assignmentOperand g) := by
  refine .andThen (R := fun o s => o.isSome → OneTaken source s) (.next [.ident])
    (fun s o s' _ hs hok ho => ?_) fun o => ?_
  · obtain ⟨t, rfl⟩ := Option.isSome_iff_exists.mp ho
    exact oneTaken_of_next hs hok
  · cases o with
    | none => exact d.ternaryOperand
    | some name =>
      refine .andThen (R := fun o s => o = none → OneTaken source s) (.next assignmentOps)
        (fun s o s' htaken hs hok ho => ?_) fun o => ?_
      · subst ho
        exact (htaken rfl).next_none hs hok
      · cases o with
        | none => exact (Blind.back fun _ h => h rfl).bind fun _ => d.ternaryOperand
        | some op => exact (Blind.nested d.descend d.assignment).bind fun _ => .pure _

theorem expression (d : g.Blinkered source) : Blind source P (Grammar.expression g) :=
  .chain d.descend d.assignmentOperand ((Blind.next _).bind fun _ => .pure _)
    fun _ => d.assignmentOperand

/-! Words. -/

theorem piece (d : g.Blinkered source) (adjacent : Bool) :
    Blind source P (Grammar.piece g adjacent) := by
  refine Blind.pieceStartHere.bind fun kinds => ?_
  refine .andThen (R := fun o s => o.isSome → Visible source s) (.look adjacent kinds)
    (fun s o s' _ hs hok ho => ?_) fun o => ?_
  · obtain ⟨t, rfl⟩ := Option.isSome_iff_exists.mp ho
    exact visible_of_look hs hok
  · cases o with
    | none => exact .pure _
    | some t =>
      refine .andThen (R := fun _ s => OneTaken source s) (.next [])
        (fun s o s' hvisible _ hok => hvisible rfl o s' hok) fun _ => ?_
      split
      · exact .pure _
      · exact .pure _
      · exact .pure _
      · exact (Blind.nested d.descend d.doubleQuoted).bind fun _ => .pure _
      · exact (Blind.nested d.descend d.parameter).bind fun _ => .pure _
      · exact (Blind.nested d.descend d.arithExpansion).bind fun _ => .pure _
      · exact (Blind.nested d.descend (d.nestedList _)).bind fun _ => .pure _
      · exact (Blind.nested d.descend (d.nestedList _)).bind fun _ => .pure _
      · exact (Blind.nested d.descend (d.nestedList _)).bind fun _ => .pure _
      · exact (Blind.nested d.descend (d.nestedList _)).bind fun _ => .pure _
      · exact (Blind.back fun _ h => h).bind fun _ => .pure _

theorem word (d : g.Blinkered source) : Blind source P (Grammar.word g) :=
  (d.piece false).bind fun
    | none => .pure _
    | some _ => (Blind.gather (d.piece true) _).bind fun _ => .pure _

theorem payload (d : g.Blinkered source) (rules : Rules) :
    Blind source P (Grammar.payload g rules) :=
  (Blind.withRules rules true d.word).bind fun _ => .pure _

theorem quotedPiece (d : g.Blinkered source) : Blind source P (Grammar.quotedPiece g) :=
  (Blind.next _).bind fun _ => .branch (.pure _) <|
    (d.piece false).bind fun
      | none => .fail _
      | some _ => .pure _

theorem doubleQuotedRest (d : g.Blinkered source) : Blind source P (Grammar.doubleQuotedRest g) :=
  .withRules _ _ ((Blind.gather d.quotedPiece _).bind fun _ => .pure _)

theorem arithExpansionRest (d : g.Blinkered source) :
    Blind source P (Grammar.arithExpansionRest g) :=
  (Blind.withRules _ _ (d.expression.bind fun _ => (Blind.accept _ _).bind fun _ =>
    .orFail (.pure _))).bind fun _ => .pure _

/-! Parameters. -/

theorem arithOperand (d : g.Blinkered source) : Blind source P (Grammar.arithOperand g) :=
  .withRules _ _ d.expression

theorem matchingNames (ref : Bool) (name mode : Text) :
    Blind source P (Grammar.matchingNames ref name mode) :=
  .branch ((Blind.fail _).bind fun _ => .orFail (.pure _)) (.orFail (.pure _))

theorem head : Blind source P Grammar.head :=
  (Blind.accept _ _).bind fun _ => (Blind.accept _ _).bind fun _ => (Blind.next _).bind fun
    | some _ => .pure _
    | none => .branch ((Blind.peek _).bind fun _ => .branch (.pure _) (.fail _)) (.fail _)

/-- An operator and a payload. -/
theorem operated (d : g.Blinkered source) (pattern : Pattern) (rules : Rules)
    (form : Text → Node → Form) : Blind source P (do
      match ← ParseM.accept pattern .op with
      | none => return none
      | some op => return some (form op.body (← Grammar.payload g rules))) :=
  (Blind.accept _ _).bind fun
    | none => .pure _
    | some _ => (d.payload rules).bind fun _ => .pure _

section Forms
variable (ref : Bool) (name : Text)

theorem elementsForm : Blind source P (Grammar.elementsForm ref name) :=
  (Blind.next _).bind fun
    | none => .pure _
    | some _ => .pure _

theorem substringForm (d : g.Blinkered source) :
    Blind source P (Grammar.substringForm g ref name) :=
  (Blind.accept _ _).bind fun
    | none => .pure _
    | some _ => d.arithOperand.bind fun _ => (Blind.acceptPastBlank _ _).bind fun
      | none => .pure _
      | some _ => d.arithOperand.bind fun _ => .pure _

theorem replacementForm (d : g.Blinkered source) :
    Blind source P (Grammar.replacementForm g ref name) :=
  (Blind.accept _ _).bind fun
    | none => .pure _
    | some _ => (Blind.accept _ _).bind fun _ => (d.payload _).bind fun _ =>
      (Blind.accept _ _).bind fun
        | none => .pure _
        | some _ => (d.payload _).bind fun _ => .pure _

theorem atForm : Blind source P (Grammar.atForm ref name) :=
  (Blind.accept _ _).bind fun
    | none => .pure _
    | some _ => (Blind.accept _ _).bind fun
      | none => (matchingNames _ _ _).bind fun _ => .pure _
      | some _ => .pure _

theorem starForm : Blind source P (Grammar.starForm ref name) :=
  (Blind.accept _ _).bind fun
    | none => .pure _
    | some _ => (matchingNames _ _ _).bind fun _ => .pure _

theorem elementForm (d : g.Blinkered source) : Blind source P (Grammar.elementForm g ref name) :=
  (Blind.next _).bind fun
    | none => .pure _
    | some _ => d.arithOperand.bind fun _ => (Blind.acceptPastBlank _ _).bind fun _ =>
      .orFail (.pure _)

theorem forms (d : g.Blinkered source) :
    ∀ form ∈ Grammar.forms g ref name, ∀ {P}, Blind source P form := by
  intro form hform P
  simp only [Grammar.forms, List.mem_cons, List.not_mem_nil, or_false] at hform
  rcases hform with rfl | rfl | rfl | rfl | rfl | rfl | rfl | rfl | rfl
  · exact elementsForm ref name
  · exact d.operated _ _ fun op value => ⟨.paramDefault ref name op value, false⟩
  · exact d.substringForm ref name
  · exact d.operated _ _ fun mode pattern => ⟨.patternRemoval ref name mode pattern, false⟩
  · exact d.operated _ _ fun mode pattern => ⟨.caseChange ref name mode pattern, false⟩
  · exact d.replacementForm ref name
  · exact atForm ref name
  · exact starForm ref name
  · exact d.elementForm ref name

end Forms

theorem parameterBody (d : g.Blinkered source) : Blind source P (Grammar.parameterBody g) :=
  head.bind fun h =>
    .branch (.pure _) ((Blind.firstOf (d.forms h.ref h.name)).bind fun _ => .pure _)

theorem parameterRest (d : g.Blinkered source) : Blind source P (Grammar.parameterRest g) :=
  .withRules _ _ <| d.parameterBody.bind fun _ =>
    .branch ((Blind.acceptPastBlank _ _).bind fun _ => .orFail (.pure _))
      ((Blind.next _).bind fun _ => .orFail (.pure _))

/-! Commands. -/

theorem assignment? (d : g.Blinkered source) : Blind source P (Grammar.assignment? g) :=
  (Blind.accept _ _).bind fun
    | none => .pure _
    | some _ => (Blind.withRules _ _ d.word).bind fun _ => .pure _

theorem simpleCommand (d : g.Blinkered source) : Blind source P (Grammar.simpleCommand g) :=
  (Blind.gather d.assignment? _).bind fun _ => (Blind.gather d.word _).bind fun _ =>
    .orFail (.pure _)

theorem commandOperator (g : Grammar) (kinds : List Kind) :
    Blind source P (Grammar.commandOperator g kinds) :=
  (Blind.next _).bind fun
    | none => .pure _
    | some _ => (Blind.skipNewlines _).bind fun _ => .pure _

/-- A `!` that turns out to be text is handed back. -/
theorem acceptBang : Blind source P Grammar.acceptBang := by
  refine .andThen (R := fun o s => o.isSome → Visible source s) (.peek [.str])
    (fun s o s' _ hs hok ho => ?_) fun o => ?_
  · obtain ⟨t, rfl⟩ := Option.isSome_iff_exists.mp ho
    exact @visible_of_look _ _ _ false _ _ hs hok
  · cases o with
    | none => exact .pure _
    | some t =>
      refine .branch ?_ (.pure _)
      refine .andThen (R := fun _ s => OneTaken source s) (.next [])
        (fun s o s' hvisible _ hok => hvisible rfl o s' hok) fun _ => ?_
      refine .andThen (R := fun _ s => OneTaken source s) .pieceStartHere
        (fun s kinds s' htaken _ hok => ?_) fun kinds => ?_
      · cases hok
        exact htaken
      · refine .andThen (R := fun _ s => OneTaken source s) (.peekAdjacent kinds)
          (fun s o s' htaken hs hok => @OneTaken.look _ _ _ true _ _ htaken hs hok) fun _ => ?_
        exact .branch ((Blind.back fun _ h => h).bind fun _ => .pure _) (.pure _)

theorem pipeline (d : g.Blinkered source) : Blind source P (Grammar.pipeline g) :=
  acceptBang.bind fun _ => (Blind.chain d.descend d.simpleCommand (commandOperator g _) fun _ =>
    d.simpleCommand).bind fun _ => .pure _

theorem andOr (d : g.Blinkered source) : Blind source P (Grammar.andOr g) :=
  .chain d.descend d.pipeline (commandOperator g _) fun _ => d.pipeline

theorem entry (d : g.Blinkered source) : Blind source P (Grammar.entry g) :=
  d.andOr.bind fun _ => (Blind.next _).bind fun _ => .pure _

theorem entries (d : g.Blinkered source) (closer : Closer) : ∀ (bound : Nat)
    {P : ParseState → Prop}, Blind source P (Grammar.entries g closer bound)
  | 0, _ => .breached _
  | bound + 1, _ => (Blind.skipNewlines _).bind fun _ => (Blind.peek _).bind fun _ =>
    .branch (.pure _) <| d.entry.bind fun _ =>
      .branch ((d.entries closer bound).bind fun _ => .pure _) (.pure _)

theorem list (d : g.Blinkered source) (closer : Closer) : Blind source P (Grammar.list g closer) :=
  (d.entries closer _).bind fun _ => (Blind.next _).bind fun _ => .orFail (.pure _)

theorem nestedListRest (d : g.Blinkered source) (closer : Closer) :
    Blind source P (Grammar.nestedListRest g closer) :=
  .inList closer (.withRules _ _ (d.list closer))

end Grammar.Blinkered

/-- Nor can those of any level. -/
theorem Grammar.blinkered (source : Text) (limit : Nat) :
    ∀ levels, (Grammar.level (ParseM.descend limit) levels).Blinkered source
  | 0 =>
    { descend := .descend limit
      doubleQuoted := .breached _
      parameter := .breached _
      arithExpansion := .breached _
      nestedList := fun _ => .breached _
      arith := .breached _
      assignment := .breached _
      ternary := .breached _
      binary := fun _ => .breached _
      power := .breached _
      unary := .breached _ }
  | levels + 1 =>
    let d := blinkered source limit levels
    { descend := .descend limit
      doubleQuoted := d.doubleQuotedRest
      parameter := d.parameterRest
      arithExpansion := d.arithExpansionRest
      nestedList := fun closer => d.nestedListRest closer
      arith := d.expression
      assignment := d.assignmentOperand
      ternary := d.ternaryOperand
      binary := fun min => d.binaryOperand min
      power := d.powerOperand
      unary := d.unaryOperand }

end ShellGrammar
