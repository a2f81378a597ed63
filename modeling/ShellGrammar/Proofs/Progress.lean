import ShellGrammar.Proofs.Safety

/-! Every loop and every circle of productions goes forward.

The parser steps back, drops what it has read ahead and asks for tokens that it does not
take, and the end of the source can be read again and again; so the cursor is no measure of
how far it has come. The place where the consumed tokens end is one: a loop that goes round
once more has moved it on (`Grammar.GoesForward`), and so has a production that calls one further
in. The second is said by a grammar that calls no production unless the place has moved
(`Grammar.below`). It is defined by recursion on the characters left, with neither levels nor
a limit on them, and what it makes of a script is what any number of levels above the length
of the script makes of it (`parse_descends`). -/
namespace ShellGrammar
open Grammar ParseM

variable {source : Text} {α β : Type}

/-- What a run comes to, whatever state it ends in. -/
def answer {ε σ : Type} : EStateM.Result ε σ α → Except ε α
  | .ok a _ => .ok a
  | .error e _ => .error e

/-! ### Where the consumed tokens end -/

/-- How many bytes of the source the consumed tokens cover. -/
def ParseState.offset (s : ParseState) : Nat := s.here.pos.offset

/-- Places in a text, by the bytes before them and by the characters behind them. -/
theorem Scan.On.offset_lt_iff {a b : Scan} (ha : a.On source) (hb : b.On source) :
    a.pos.offset < b.pos.offset ↔ b.rest.length < a.rest.length := by
  have hoffset : ∀ {s : Scan}, s.On source → s.pos.offset = Text.bytes s.before.reverse := by
    intro s hs
    rw [hs.placed, Position.offset_advance]
    exact Nat.zero_add _
  have hlt : ∀ {s t : Scan}, s.On source → t.On source → t.rest.length < s.rest.length →
      s.pos.offset < t.pos.offset := by
    intro s t hs ht hlen
    have hsame : s.before.reverse ++ s.rest = t.before.reverse ++ t.rest :=
      hs.whole.trans ht.whole.symm
    obtain ⟨more, hmore⟩ : t.rest <:+ s.rest := by
      have ht' : t.rest <:+ source := ⟨_, ht.whole⟩
      have hs' : s.rest <:+ source := ⟨_, hs.whole⟩
      exact List.suffix_of_suffix_length_le ht' hs' (Nat.le_of_lt hlen)
    rw [← hmore, ← List.append_assoc] at hsame
    have hbefore : s.before.reverse ++ more = t.before.reverse := List.append_cancel_right hsame
    have hpos : 0 < Text.bytes more := by
      cases more with
      | nil =>
        rw [← hmore] at hlen
        exact absurd hlen (Nat.lt_irrefl _)
      | cons c more =>
        rw [Text.bytes_cons_eq_succ]
        exact Nat.succ_pos _
    rw [hoffset hs, hoffset ht, ← hbefore, Text.bytes_append]
    omega
  refine ⟨fun h => ?_, hlt ha hb⟩
  rcases Nat.lt_trichotomy b.rest.length a.rest.length with hless | hsame | hmore
  · exact hless
  · have hbytes : Text.bytes a.before.reverse = Text.bytes b.before.reverse := by
      have hcut : a.before.reverse ++ a.rest = b.before.reverse ++ b.rest :=
        ha.whole.trans hb.whole.symm
      rw [(List.append_inj' hcut hsame.symm).1]
    rw [hoffset ha, hoffset hb] at h
    omega
  · exact absurd h (Nat.lt_asymm (hlt hb ha hmore))

/-- The farther on the consumed tokens of a source end, the fewer characters are left. -/
theorem offset_lt_iff {s s' : ParseState} (hs : s.lexer.Current source)
    (hs' : s'.lexer.Current source) : s.offset < s'.offset ↔ s'.left < s.left :=
  hs.toTiled.here_on.offset_lt_iff hs'.toTiled.here_on

theorem Advances.offset_lt {closed : Bool} {n : Nat} {s s' : ParseState}
    (h : Advances source closed n s s') (hs : s.lexer.Current source) (hn : 0 < n) :
    s.offset < s'.offset := by
  have hle := h.ate_le
  exact (offset_lt_iff hs h.current).mpr (by omega)

/-! ### Loops -/

/-- Begun anywhere in a source under rules that `inForce` admits, a pass of a loop after which
the loop goes on leaves the consumed tokens ending farther on. -/
def Strides (inForce : Rules → Prop) (goesOn : α → Bool) (pass : ParseM α) : Prop :=
  ∀ source s, s.lexer.Current source → inForce s.rules → ∀ a s', pass s = .ok a s' →
    goesOn a = true → s.offset < s'.offset

/-- A pass of a chain: an operator, the level it opens and what stands behind it. -/
def chainPass (descend : ParseM Unit) (operator : ParseM (Option β)) (operand : β → ParseM Node) :
    ParseM (Option (β × Node)) := do
  match ← operator with
  | none => return none
  | some op =>
    descend
    return some (op, ← operand op)

theorem chainRest_eq_pass (descend : ParseM Unit) (operator : ParseM (Option β))
    (operand : β → ParseM Node) (join : β → Node → Node → Node) (bound : Nat) (left : Node) :
    chainRest descend operator operand join (bound + 1) left = (do
      match ← chainPass descend operator operand with
      | none => return left
      | some (op, right) => chainRest descend operator operand join bound (join op left right)) := by
  simp only [chainRest, chainPass, bind_assoc]
  congr 1
  funext o
  cases o with
  | none => rfl
  | some op => simp only [bind_assoc, pure_bind]

/-- A pass of a list: newlines, and an entry unless the list is closed there. -/
def entriesPass (g : Grammar) (closer : Closer) : ParseM (Option Node) := do
  skipNewlines g.steps
  if (← peek [closer.kind]).isSome then
    return none
  return some (← entry g)

theorem entries_eq_pass (g : Grammar) (closer : Closer) (bound : Nat) :
    entries g closer (bound + 1) = (do
      match ← entriesPass g closer with
      | none => return []
      | some first =>
        if isTerminated first then
          return first :: (← entries g closer bound)
        return [first]) := by
  simp only [entries, entriesPass, bind_assoc]
  congr 1
  funext _
  congr 1
  funext o
  cases o with
  | none => simp only [Option.isSome_none, Bool.false_eq_true, if_false, bind_assoc, pure_bind]
  | some t => simp only [Option.isSome_some, if_true, pure_bind]

/-- Every loop of a grammar goes forward: those of commands where commands are read, that of a
double-quoted string where one is, and the others under all rules. -/
structure Grammar.GoesForward (g : Grammar) : Prop where
  newlines : Strides (fun _ => True) Option.isSome (next [.newline])
  entries : ∀ closer, Strides (· = .command) (Option.any isTerminated) (entriesPass g closer)
  andOr : Strides (· = .command) Option.isSome
    (chainPass g.descend (commandOperator g [.andAnd, .orOr]) fun _ => pipeline g)
  pipe : Strides (· = .command) Option.isSome
    (chainPass g.descend (commandOperator g [.pipe, .pipeAmp]) fun _ => simpleCommand g)
  assignments : Strides (fun _ => True) Option.isSome (assignment? g)
  words : Strides (fun _ => True) Option.isSome (word g)
  pieces : ∀ adjacent, Strides (fun _ => True) Option.isSome (piece g adjacent)
  quoted : Strides (· = .doubleQuote) Option.isSome (quotedPiece g)
  comma : Strides (fun _ => True) Option.isSome
    (chainPass g.descend (operatorAmong [.comma]) fun _ => assignmentOperand g)
  binary : ∀ min, Strides (fun _ => True) Option.isSome
    (chainPass g.descend (binaryOperator min) fun op => g.binary (op.1 + 1))

/-- What reads something whenever a loop goes on after it. -/
theorem Follows.strides {limit : Nat} {inForce : Rules → Prop} {goesOn : α → Bool}
    {closed : Bool} {D : Context → α → Scan → Prop} {room : Nat} {ate : α → Nat}
    {pass pass' : ParseM α}
    (h : ∀ c : Context, inForce c.mode.rules →
      Follows ⟨true, limit⟩ c closed (D c) room ate pass pass')
    (hate : ∀ a, goesOn a = true → 0 < ate a) : Strides inForce goesOn pass := by
  intro source s hs hforce a s' hrun hgo
  have htracks := h s.context hforce (.same source) (fun _ => rfl) s s (Pair.inStep_same hs) rfl
  rw [hrun] at htracks
  exact htracks.1.offset_lt hs (hate a hgo)

theorem some1_pos {o : Option α} (h : o.isSome = true) : 0 < some1 o := by
  cases o with
  | none => cases h
  | some a => exact Nat.one_pos

/-- Nothing is asked of where a run ends. -/
theorem lapses_anywhere {c : Context} {X : Scan → Prop} {act : ParseM α} :
    Lapses c X (fun _ _ => True) act :=
  fun _ _ _ _ _ _ _ _ => trivial

theorem Follows.chainPass {limit : Nat} {c : Context} {room : Nat} {g g' : Grammar}
    {operator operator' : ParseM (Option β)} {operand operand' : β → ParseM Node}
    {D : Option β → Scan → Prop} {E : Node → Scan → Prop}
    (hg : g.descend = ParseM.descend limit) (hg' : g'.descend = ParseM.descend limit)
    (hoperator : Follows ⟨true, limit⟩ c true D room some1 operator operator')
    (hoperand : ∀ op, Follows ⟨true, limit⟩ c true E (room - 1) (fun _ => 0) (operand op)
      (operand' op)) :
    Follows ⟨true, limit⟩ c false (fun _ _ => True) room some1
      (ShellGrammar.chainPass g.descend operator operand)
      (ShellGrammar.chainPass g'.descend operator' operand') := by
  rw [hg, hg']
  refine hoperator.opened.bind (fun o => ?_) fun _ => lapses_anywhere
  cases o with
  | none => exact .pure rfl
  | some op =>
    have hopen : Follows ⟨true, limit⟩ c false (fun _ _ => False) (room - 1) (fun _ => 0)
      (ParseM.descend limit) (ParseM.descend limit) := Follows.descend rfl
    refine hopen.bind (fun _ => ?_) fun _ => lapses_anywhere
    exact (hoperand op).opened.bind (fun right => .pure rfl) fun _ => lapses_anywhere

/-- A token that is no end of the source has a character at least. -/
theorem strides_next {kinds : List Kind} (hkinds : among kinds .eos = false) :
    Strides (fun _ => True) Option.isSome (next kinds) := by
  intro source s hs _ o s' hrun ho
  rw [next_eq_take hs] at hrun
  obtain ⟨t, s₁, ht, hv, htake, hreaches⟩ | ⟨_, _, _, _, htake, _⟩ | ⟨_, _, htake⟩ :=
    take_cases hs false (among kinds)
  · rw [htake] at hrun
    cases hrun
    have hk : t.kind ≠ .eos := by
      intro hk
      rw [sought, hk, hkinds, Bool.false_and] at hv
      cases hv
    have hpast : Advances source true 1 s s' := .past ht hk hreaches
    exact hpast.offset_lt hs Nat.one_pos
  · rw [htake] at hrun
    cases hrun
    cases ho
  · cases htake.symm.trans hrun

theorem Agree.strides_entriesPass {limit : Nat} {g g' : Grammar} (hg : Agree ⟨true, limit⟩ g g')
    (closer : Closer) :
    Strides (· = .command) (Option.any isTerminated) (entriesPass g closer) := by
  intro source s hs hc o s' hrun ho
  obtain ⟨_, s₁, hskip, hrun⟩ := ok_of_bind hrun
  have hskipped := Follows.skipNewlines (σ := ⟨true, limit⟩) (c := s.context) hc g.steps g.steps
    (Nat.le_refl _) (.same source) (fun _ => rfl) s s (Pair.inStep_same hs) rfl
  rw [hskip] at hskipped
  have hadvances₁ : Advances source true 0 s s₁ := hskipped.1
  obtain ⟨closed, s₂, hpeek, hrun⟩ := ok_of_bind hrun
  obtain ⟨_, s₃, hlook, hreaches⟩ | ⟨_, herr⟩ :=
    look_cases hadvances₁.current false [closer.kind]
  · rw [show peek [closer.kind] s₁ = look false [closer.kind] s₁ from rfl, hlook] at hpeek
    cases hpeek
    have hadvances₂ : Advances source true 0 s₁ s₂ := .ofNil hadvances₁.current hreaches
    have hc₂ : s₂.context.mode.rules = .command := by
      rw [hadvances₂.holds.context, hadvances₁.holds.context]
      exact hc
    cases closed with
    | some t =>
      cases hrun
      cases ho
    | none =>
      obtain ⟨first, s₃, hentry, hrun⟩ := ok_of_bind hrun
      cases hrun
      have hread := hg.entry hc₂ (.same source) (fun _ => rfl) s₂ s₂
        (Pair.inStep_same hadvances₂.current) rfl
      rw [hentry] at hread
      have hadvances := (hadvances₁.trans hadvances₂).trans hread.1
      have hgo : isTerminated first = true := ho
      refine hadvances.offset_lt hs ?_
      rw [entryAte, if_pos hgo]
      exact Nat.succ_pos _
  · exact nomatch herr.symm.trans hpeek

/-- The loops of a grammar that another follows go forward. -/
theorem Agree.goesForward {limit : Nat} {g g' : Grammar} (hg : Agree ⟨true, limit⟩ g g') :
    g.GoesForward where
  newlines := strides_next rfl
  entries closer := hg.strides_entriesPass closer
  andOr := Follows.strides (fun c hc => .chainPass hg.descend hg.descend'
    (hg.commandOperator hc rfl) fun _ => (hg.pipeline hc).less (Nat.sub_le _ _)) fun _ => some1_pos
  pipe := Follows.strides (fun c hc => .chainPass hg.descend hg.descend'
    (hg.commandOperator hc rfl) fun _ => (hg.simpleCommand hc).less (Nat.sub_le _ _)) fun _ => some1_pos
  assignments := Follows.strides (fun c _ => hg.assignment?) fun _ => some1_pos
  words := Follows.strides (fun c _ => hg.word) fun _ => some1_pos
  pieces adjacent := Follows.strides (fun c _ => hg.piece adjacent) fun _ => some1_pos
  quoted := Follows.strides (fun c hc => hg.quotedPiece (by rw [hc]; decide)) fun _ => some1_pos
  comma := Follows.strides (fun c _ => .chainPass hg.descend hg.descend'
    (Paces.operatorAmong rfl g.steps) fun _ => hg.assignmentOperand.less (Nat.sub_le _ _))
      fun _ => some1_pos
  binary min := Follows.strides (fun c _ => .chainPass hg.descend hg.descend'
    (Paces.binaryOperator g.steps min) fun op => hg.binary c (op.1 + 1)) fun _ => some1_pos

/-! ### Circles of productions -/

/-- A production that runs only where fewer characters are left than `left`. It is told how
many there are. -/
def further (left : Nat) (production : (n : Nat) → n < left → ParseM Node) : ParseM Node :=
  fun s =>
    if h : s.left < left then production s.left h s
    else .error (.breach .outOfSteps) s

/-- The productions that may be called where `left` characters are left. Each runs only where
fewer are, and no loop goes round more often than there are. -/
def Grammar.below (descend : ParseM Unit) (left : Nat) : Grammar :=
  { descend
    steps := left + 1
    doubleQuoted := further left fun n _ => doubleQuotedRest (below descend n)
    parameter := further left fun n _ => parameterRest (below descend n)
    arithExpansion := further left fun n _ => arithExpansionRest (below descend n)
    nestedList := fun closer => further left fun n _ => nestedListRest (below descend n) closer
    arith := further left fun n _ => expression (below descend n)
    assignment := further left fun n _ => assignmentOperand (below descend n)
    ternary := further left fun n _ => ternaryOperand (below descend n)
    binary := fun min => further left fun n _ => binaryOperand (below descend n) min
    power := further left fun n _ => powerOperand (below descend n)
    unary := further left fun n _ => unaryOperand (below descend n) }
termination_by left

/-- Parses a script by recursion on the characters left. -/
def runDescending (options : Options) (source : Text) :
    EStateM.Result (Halt Fault) ParseState Node :=
  Grammar.list (Grammar.below (ParseM.descend options.maxDepth) source.length) .endOfSource
    (.ofText source)

theorem Follows.further {σ : Setting} {c : Context} {left : Nat}
    {production : (n : Nat) → n < left → ParseM Node} {act' : ParseM Node}
    (h : ∀ n hn, Paces σ c (n + 1) (fun _ => 0) (production n hn) act') :
    Paces σ c left (fun _ => 0) (ShellGrammar.further left production) act' := by
  intro P hP s s' hs hc
  by_cases hleft : s.left < left
  · have htracks := h s.left hleft P hP s s' hs hc
    rw [ShellGrammar.further, dif_pos hleft]
    cases hrun : production s.left hleft s with
    | ok a s₁ =>
      rw [hrun] at htracks
      exact htracks
    | error e s₁ =>
      rw [hrun] at htracks
      cases e with
      | fault f => exact htracks
      | breach b => exact absurd htracks.2 (Nat.not_succ_le_self _)
  · rw [ShellGrammar.further, dif_neg hleft]
    exact ⟨.refl s, Nat.le_of_not_lt hleft⟩

theorem steps_below (descend : ParseM Unit) (left : Nat) :
    (Grammar.below descend left).steps = left + 1 := by
  rw [Grammar.below]

/-- The productions below a place are followed by those of any level that is high enough. -/
theorem agree_below (σ : Setting) (left n : Nat) (hle : left < n) :
    Agree σ (Grammar.below (ParseM.descend σ.limit) left)
      (Grammar.level (ParseM.descend σ.limit) n) := by
  induction left using Nat.strongRecOn generalizing n with
  | _ left ih =>
    obtain ⟨n, rfl⟩ : ∃ m, n = m + 1 := ⟨n - 1, by omega⟩
    have hg : ∀ m, m < left → Agree σ (Grammar.below (ParseM.descend σ.limit) m)
        (Grammar.level (ParseM.descend σ.limit) n) := fun m hm => ih m hm n (by omega)
    have hroom : ∀ {c : Context} {m : Nat} {act act' : ParseM Node} {D : Node → Scan → Prop},
        Follows σ c true D (Grammar.below (ParseM.descend σ.limit) m).steps (fun _ => 0) act act' →
          (∀ a place, D a place → c.Spent place) → Paces σ c (m + 1) (fun _ => 0) act act' := by
      intro c m act act' D h hD
      rw [steps_below] at h
      exact h.mono hD (Nat.le_refl _) fun _ => Nat.le_refl _
    rw [Grammar.below]
    exact
      { descend := rfl
        descend' := rfl
        steps := hle
        doubleQuoted := fun _ => .further fun m hm => hroom (hg m hm).doubleQuotedRest nofun
        parameter := fun _ => .further fun m hm => hroom (hg m hm).parameterRest nofun
        arithExpansion := fun _ => .further fun m hm => hroom (hg m hm).arithExpansionRest nofun
        nestedList := fun _ _ hne => .further fun m hm => hroom ((hg m hm).nestedListRest hne) nofun
        arith := fun _ => .further fun m hm => hroom (hg m hm).expression fun _ _ => id
        assignment := fun _ => .further fun m hm => hroom (hg m hm).assignmentOperand fun _ _ => id
        ternary := fun _ => .further fun m hm => hroom (hg m hm).ternaryOperand fun _ _ => id
        binary := fun _ min => .further fun m hm => hroom ((hg m hm).binaryOperand min) fun _ _ => id
        power := fun _ => .further fun m hm => hroom (hg m hm).powerOperand fun _ _ => id
        unary := fun _ => .further fun m hm => hroom (hg m hm).unaryOperand fun _ _ => id }

/-! ### Parses -/

/-- With more room than characters left a run ends well or with a fault, and what it comes to
is what the run beside it comes to. -/
theorem Tracks.answer_eq {limit : Nat} {closed : Bool} {D : α → Scan → Prop} {room : Nat}
    {ate : α → Nat} {s s' : ParseState} {r r' : EStateM.Result (Halt Fault) ParseState α}
    (h : Tracks (.same source) limit closed D room ate s s' r r') (hroom : s.left < room) :
    answer r = answer r' ∧ ∀ b, answer r ≠ .error (.breach b) := by
  cases r with
  | ok a s₁ =>
    obtain ⟨_, ⟨s₁', rfl, _⟩ | ⟨htail, _⟩⟩ := h
    · exact ⟨rfl, nofun⟩
    · exact absurd rfl htail
  | error e s₁ =>
    cases e with
    | fault f =>
      obtain ⟨s₁', rfl, _⟩ := h.2 rfl
      exact ⟨rfl, nofun⟩
    | breach b => exact absurd h.2 (Nat.not_le_of_lt hroom)

/-- A list of a script with productions that another grammar's follow. -/
theorem Agree.answer_script {limit : Nat} {g g' : Grammar} (hg : Agree ⟨true, limit⟩ g g')
    (hsteps : source.length < g.steps) :
    answer (Grammar.list g .endOfSource (.ofText source)) =
        answer (Grammar.list g' .endOfSource (.ofText source)) ∧
      ∀ b, answer (Grammar.list g .endOfSource (.ofText source)) ≠ .error (.breach b) := by
  have hlist := hg.list (c := .script) .endOfSource rfl fun _ => rfl
  exact (hlist (.same source) (fun _ => rfl) _ _
    (Pair.inStep_same (Lexer.current_ofText source)) rfl).answer_eq hsteps

/-- **Every parse comes to an end by going forward.** Whatever the source and the limit, none
included:

- any number of levels, which bounds the loops as well, above the length of the source gives
  the same answer;
- so does recursion on the characters left, in which no production calls one further in from a
  place that is not farther on;
- the answer is a tree or a fault, and never that a bound was too low;
- at any number of levels, each pass of a loop after which the loop goes on leaves the consumed
  tokens ending at a greater byte offset, that is, with fewer characters left. -/
theorem parse_descends (options : Options) (source : Text) :
    (∀ levels, source.length < levels →
        answer (runLevels levels options source) = parse options source) ∧
      answer (runDescending options source) = parse options source ∧
      (∀ b, parse options source ≠ .error (.breach b)) ∧
      (∀ levels, (Grammar.level (ParseM.descend options.maxDepth) levels).GoesForward) ∧
      ∀ s s' : ParseState, s.lexer.Current source → s'.lexer.Current source →
        (s.offset < s'.offset ↔ s'.left < s.left) := by
  have hparse : parse options source = answer (run options source) := by
    unfold parse
    generalize run options source = outcome
    cases outcome <;> rfl
  have hroom : source.length <
      (Grammar.level (ParseM.descend options.maxDepth) (source.length + 1)).steps := by
    rw [steps_level]
    exact Nat.lt_succ_self _
  have hroom' : source.length <
      (Grammar.below (ParseM.descend options.maxDepth) source.length).steps := by
    rw [steps_below]
    exact Nat.lt_succ_self _
  have hlevel : ∀ levels, source.length < levels →
      Agree ⟨true, options.maxDepth⟩
        (Grammar.level (ParseM.descend options.maxDepth) (source.length + 1))
        (Grammar.level (ParseM.descend options.maxDepth) levels) :=
    fun levels hlevels => agree_level ⟨true, options.maxDepth⟩ _ levels hlevels
  have hbelow := agree_below ⟨true, options.maxDepth⟩ source.length (source.length + 1)
    (Nat.lt_succ_self _)
  rw [hparse]
  refine ⟨fun levels hlevels => ?_, ?_, ?_, fun levels => ?_, fun s s' => offset_lt_iff⟩
  · exact ((hlevel levels hlevels).answer_script hroom).1.symm
  · exact (hbelow.answer_script hroom').1
  · exact ((hlevel _ (Nat.lt_succ_self _)).answer_script hroom).2
  · exact (agree_level ⟨true, options.maxDepth⟩ levels levels (Nat.le_refl _)).goesForward

/-- In `a|b` the first word takes the parser one byte on, and four levels are enough. -/
theorem parse_descends_word :
    answer (runLevels 4 ⟨0⟩ "a|b".toList) = parse ⟨0⟩ "a|b".toList ∧
      ∃ s, word (Grammar.level (ParseM.descend 0) 4) (.ofText "a|b".toList) =
          .ok (some (.str ['a'])) s ∧
        (ParseState.ofText "a|b".toList).offset < s.offset ∧ s.left < 3 := by
  obtain ⟨hfuel, _, _, hloops, hiff⟩ := parse_descends ⟨0⟩ "a|b".toList
  obtain ⟨s, hword⟩ : ∃ s, word (Grammar.level (ParseM.descend 0) 4) (.ofText "a|b".toList) =
      .ok (some (.str ['a'])) s := ok_of_run (by decide +kernel)
  have hstart := Lexer.current_ofText "a|b".toList
  have hlt := (hloops 4).words "a|b".toList _ hstart trivial _ s hword rfl
  have htracks := (agree_level ⟨true, 0⟩ 4 4 (Nat.le_refl 4)).word (c := .script)
    (.same "a|b".toList) (fun _ => rfl) (.ofText "a|b".toList) (.ofText "a|b".toList)
    (Pair.inStep_same hstart) rfl
  rw [hword] at htracks
  exact ⟨hfuel 4 (by decide), s, hword, hlt, (hiff _ s hstart htracks.1.current).mp hlt⟩

end ShellGrammar
