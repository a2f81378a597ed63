import ShellGrammar.Parse
import ShellGrammar.Proofs.Grammar.Command
import ShellGrammar.Proofs.Pair.Parameter

/-! Commands and lists side by side.

Among commands the newline of the tail is a token of its own, so the left side does not
read too far; but where it has come to its end, the right side sees a newline. Readers of
newlines and of what ends an entry go apart there (`Context.Ended`). Operators are
followed by newlines and then by a command, which is missing on the left; so they fail
there, and commands, pipelines and chains of them are followed without exception. So are
lists inside a substitution, whose closer is missing. -/
namespace ShellGrammar
open ParseM Grammar

variable {σ : Setting} {c : Context} {g g' : Grammar} {α β γ : Type}

/-! ### The end of the left text -/

/-- The places in a context where the text has ended. -/
def Context.Ended (c : Context) (place : Scan) : Prop :=
  ∃ t, c.mode.rules.tokenAt place = .ok t ∧ t.kind = .eos

/-- A reader among commands and what comes after it. -/
theorem Follows.next_command_bind {D : β → Scan → Prop} {room : Nat} {ate : β → Nat}
    {k k' : Option Token → ParseM β} {kinds : List Kind} (hc : c.mode.rules = .command)
    (hkinds : among kinds .eos = false ∧ among kinds .glyph = false ∧ among kinds .str = false)
    (hstay : Follows σ c true D room ate (k none) (k' none))
    (hgo : ∀ t t', t'.kind = t.kind → t'.body = t.body →
      Follows σ c true D (room - 1) (fun b => ate b - 1) (k (some t)) (k' (some t')))
    (hended : Lapses c c.Ended D (k none)) :
    Follows σ c true D room ate (ParseM.next kinds >>= k) (ParseM.next kinds >>= k') := by
  refine .next_congr fun P hP s s' hs hcontext => ?_
  have hrules : s.rules = .command := by rw [← hc, ← hcontext]; rfl
  obtain ⟨t, t', s₁, s₁', hrun, hrun', hkind, hpass⟩ | ⟨s₁, s₁', hrun, hrun', hs₁, hs₁'⟩ |
    ⟨t, _, s₁, htail, hrun, hs₁, ht, hk, _⟩ | hfails := hs.take_cases_command hrules false hkinds
  · rw [bind_of_ok hrun, bind_of_ok hrun']
    refine .after (.past hpass.token ?_ hpass.reaches) hpass.reaches'.keeps.holds
      (hgo t t' hpass.twin.kind hpass.twin.body P hP s₁ s₁' (hpass.inStep hs)
        (hpass.reaches.keeps.context.trans hcontext))
    intro hk
    rw [hk, hkinds.1] at hkind
    cases hkind
  · rw [bind_of_ok hrun, bind_of_ok hrun']
    exact .after (.ofNil hs.left hs₁) hs₁'.keeps.holds
      (hstay P hP s₁ s₁' (hs.stay hs₁ hs₁') (hs₁.keeps.context.trans hcontext))
  · have hc₁ := hs₁.keeps.context.trans hcontext
    rw [bind_of_ok hrun]
    refine .afterLost (.ofNil hs.left hs₁) htail
      (hstay (.same P.left) (σ.admits_same _) s₁ s₁ (Pair.inStep_same hs₁.current) hc₁)
      (hended P.left s₁ hs₁.current hc₁ ⟨t, ?_, hk⟩)
    rw [hs₁.here_nil hs.left, ← hcontext]
    exact ht
  · exact hfails.bind.tracks

/-! ### Where the text has ended -/

theorem misses_take {adjacent : Bool} {want : Kind → Bool} (h : want .eos = false) :
    Misses c c.Ended (take adjacent want) := by
  intro source s hs hc hended o s₁ hrun
  subst hc
  obtain ⟨t, ht, hk⟩ := hended
  have hv : sought adjacent want s t = false := by rw [sought, hk, h, Bool.false_and]
  obtain ⟨s₂, hnone, hs₂⟩ := take_none hs ht hv
  rw [hnone] at hrun
  cases hrun
  exact ⟨rfl, hs₂⟩

theorem misses_next_ended {kinds : List Kind} (h : among kinds .eos = false) :
    Misses c c.Ended (ParseM.next kinds) := by
  intro source s hs hc hended o s₁ hrun
  rw [next_eq_take hs] at hrun
  exact misses_take h source s hs hc hended o s₁ hrun

theorem misses_look {adjacent : Bool} {kinds : List Kind} (h : among kinds .eos = false) :
    Misses c c.Ended (look adjacent kinds) := by
  intro source s hs hc hended o s₁ hrun
  subst hc
  obtain ⟨t, ht, hk⟩ := hended
  have hv : sought adjacent (among kinds) s t = false := by rw [sought, hk, h, Bool.false_and]
  obtain ⟨s₂, hnone, _⟩ := take_none hs ht hv
  obtain ⟨s₃, hlook, hs₃⟩ := look_of_take hs hnone
  rw [hlook] at hrun
  cases hrun
  exact ⟨rfl, hs₃⟩

/-- Where the text has ended there is nothing but blank and a comment. -/
theorem Rules.takeAt_ended {rules : Rules} {place : Scan} {t : Token}
    (ht : rules.tokenAt place = .ok t) (hk : t.kind = .eos) {pattern : Pattern}
    (hp : pattern.mayStart '#' = false) (kind : Kind) (allowBlank : Bool) :
    rules.takeAt pattern kind allowBlank place = none := by
  have hdrop : place.rest.drop (rules.skipLength place) = [] := by
    obtain ⟨hnil, _⟩ | ⟨kind, length, hfit, rfl⟩ := tokenAt_cases ht
    · exact hnil
    · cases hk
      have hbody := body_of_spelling ht rfl
      obtain ⟨r, _, _, hreach⟩ := firstFit_mem hfit
      have hpos := (Pattern.reach?_eq_some_iff.mp hreach).2
      rw [← (length_cut .eos hfit).2, hbody] at hpos
      cases hpos
  have hnone : pattern.reach? (place.rest.drop (rules.blankLength place.rest)) = none := by
    cases hrest : place.rest.drop (rules.blankLength place.rest) with
    | nil => exact Pattern.reach?_nil pattern
    | cons d r =>
      have hcomment : commentLength (d :: r) ≠ 0 := by
        intro hzero
        have hskip : rules.skipLength place = rules.blankLength place.rest := by
          simp only [skipLength, hrest, hzero, Nat.add_zero, ite_self]
        rw [hskip, hrest] at hdrop
        cases hdrop
      cases hreach : comment.reach (d :: r) with
      | none => exact absurd (by rw [commentLength, hreach]; rfl) hcomment
      | some n =>
        cases n with
        | zero => exact absurd (by rw [commentLength, hreach]; rfl) hcomment
        | succ n =>
          have hstart : comment.mayStart d = true := Pattern.mayStart_of_reach hreach
          simp only [comment, Pattern.mayStart, Pattern.nullable, List.head?_cons,
            List.isEmpty_cons, Bool.false_and, Bool.or_false, beq_iff_eq, Option.some.injEq]
            at hstart
          rw [← hstart]
          exact Pattern.reach?_eq_none_of_mayStart hp
  simp only [takeAt, hnone, Option.map_none, ite_self]

theorem misses_accept_ended {pattern : Pattern} (hp : pattern.mayStart '#' = false) (kind : Kind) :
    Misses c c.Ended (ParseM.accept pattern kind) := by
  intro source s hs hc hended o s₁ hrun
  rw [accept_eq_acceptWith hc] at hrun
  subst hc
  obtain ⟨t, ht, hk⟩ := hended
  obtain ⟨s₂, hok, hs₂⟩ := acceptWith_cases hs pattern kind s.context.mode.allowBlank
  have hnone : s.rules.takeAt pattern kind s.context.mode.allowBlank s.here = none :=
    Rules.takeAt_ended ht hk hp kind _
  rw [hnone] at hok hs₂
  rw [hok] at hrun
  cases hrun
  exact ⟨rfl, hs₂⟩

/-- A reader that yields nothing when its first step does. -/
theorem Misses.orNothing {X : Scan → Prop} {reader : ParseM (Option α)}
    {k : Option α → ParseM (Option β)} (h : Misses c X reader) (hk : k none = pure none) :
    Misses c X (reader >>= k) := by
  intro source s hs hc hx o s₂ hrun
  cases hread : reader s with
  | error e s₁ =>
    rw [bind_of_error hread] at hrun
    cases hrun
  | ok o s₁ =>
    obtain ⟨rfl, hs₁⟩ := h source s hs hc hx o s₁ hread
    rw [bind_of_ok hread, hk] at hrun
    cases hrun
    exact ⟨rfl, hs₁⟩

/-- A loop that ends in its first round. -/
theorem Misses.gather_bind {X : Scan → Prop} {step : ParseM (Option α)} {D : β → Scan → Prop}
    {k : List α → ParseM β} (h : Misses c X step) (hk : Lapses c X D (k [])) :
    ∀ bound, Lapses c X D (ShellGrammar.gather step bound >>= k)
  | 0 => fun _ _ _ _ _ _ _ hrun => nomatch hrun
  | bound + 1 => by
    rw [ShellGrammar.gather, bind_assoc]
    exact h.bind hk

theorem Dies.folding {X : Scan → Prop} {act : ParseM α} (h : Dies c X act) :
    Dies c X (ParseM.folding act) := by
  intro source s hs hc hx a s₁ hrun
  cases hact : act s with
  | ok b s₂ => exact h source s hs hc hx b s₂ hact
  | error e s₂ =>
    have hleave : (modify fun s₂ => { s₂ with depth := s.depth } : ParseM Unit) s₂ =
        .ok () { s₂ with depth := s.depth } := rfl
    have hfold : ParseM.folding act s = .error e { s₂ with depth := s.depth } :=
      ensuring_of_error hact hleave
    rw [hfold] at hrun
    cases hrun

/-- A chain dies where its first operand does. -/
theorem Dies.chain {X : Scan → Prop} {first : ParseM Node} {operator : ParseM (Option β)}
    {operand : β → ParseM Node} {join : β → Node → Node → Node} (h : Dies c X first) :
    Dies c X (ParseM.chain g first operator operand join) :=
  Dies.folding h.bind

/-! ### Simple commands -/

theorem misses_piece {adjacent : Bool} : Misses c c.Ended (Grammar.piece g adjacent) := by
  intro source s hs hc hended o s₁ hrun
  have hkinds : among (pieceStart s.inBackquote) .eos = false := by
    cases s.inBackquote <;> rfl
  exact (misses_look hkinds).orNothing (by rfl) source s hs hc hended o s₁ hrun

theorem misses_word : Misses c c.Ended (Grammar.word g) := misses_piece.orNothing rfl

theorem misses_assignment : Misses c c.Ended (Grammar.assignment? g) :=
  (misses_accept_ended (by decide) _).orNothing rfl

theorem dies_simpleCommand : Dies c c.Ended (Grammar.simpleCommand g) :=
  misses_assignment.gather_bind (misses_word.gather_bind dies_fail.bind _) _

/-- Where the left side may have come to after an assignment, or none. -/
def AssignLost (c : Context) : Option Node → Scan → Prop
  | none => c.Lost
  | some _ => fun _ => False

theorem Agree.assignment? (hg : Agree σ g g') :
    Follows σ c true (AssignLost c) g.steps some1 (Grammar.assignment? g)
      (Grammar.assignment? g') := by
  refine .accept_bind (by decide) (.pure rfl) (fun t t' hbody => ?_) (Lapses.pure fun _ => id)
  have hvalue : Follows σ c true (fun _ _ => False) (g.steps - 1) (fun _ => 0)
      (withRules .command false (Grammar.word g)) (withRules .command false (Grammar.word g')) :=
    (Follows.withRules hg.word).mono (fun _ _ h => absurd rfl h.1) (Nat.sub_le _ _)
      fun _ => Nat.zero_le _
  simp only [hbody]
  exact .map hvalue

theorem Agree.simpleCommand (hg : Agree σ g g') (hc : c.mode.rules = .command) :
    Paces σ c g.steps (fun _ => 0) (Grammar.simpleCommand g) (Grammar.simpleCommand g') := by
  have hassigns : Follows σ c true (fun _ => c.Lost) g.steps (fun _ => 0)
      (gather (Grammar.assignment? g) g.steps) (gather (Grammar.assignment? g') g'.steps) :=
    Follows.gather hg.assignment? (fun _ => id) (fun _ _ _ _ _ _ h => h.elim) g.steps g'.steps
      (Nat.le_refl _) hg.steps
  have hwords : Paces σ c g.steps (fun _ => 0) (gather (Grammar.word g) g.steps)
      (gather (Grammar.word g') g'.steps) := hg.word.gather (Nat.le_refl _) hg.steps
  refine hassigns.bind (fun assigns => ?_) fun assigns => ?_
  · refine hwords.bind fun body => ?_
    cases assigns.isEmpty && body.isEmpty with
    | true => exact .fail_bind
    | false => exact .pure rfl
  · refine Lapses.of_lost (fun _ _ _ _ h => absurd hc h.1) ?_
    exact (dies_piece.bind.gather _).bind

/-! ### Negation -/

section Bang
variable {source : Text} {s : ParseState} {t : Token}

theorem look_none (hs : s.lexer.Current source) (ht : s.tokenHere = .ok t) {adjacent : Bool}
    {kinds : List Kind} (hv : sought adjacent (among kinds) s t = false) :
    ∃ s₁, look adjacent kinds s = .ok none s₁ ∧ Reaches source s [] s₁ := by
  obtain ⟨s₁, hnone, _⟩ := take_none hs ht hv
  exact look_of_take hs hnone

theorem look_some (hs : s.lexer.Current source) (ht : s.tokenHere = .ok t) {adjacent : Bool}
    {kinds : List Kind} (hv : sought adjacent (among kinds) s t = true) :
    ∃ s₁, look adjacent kinds s = .ok (some t) s₁ ∧ Reaches source s [] s₁ := by
  obtain ⟨s₁, hsome, _⟩ := take_some hs ht hv
  exact look_of_take hs hsome

/-- What is no `!` is left. -/
theorem acceptBang_of_ne (hs : s.lexer.Current source) (ht : s.tokenHere = .ok t)
    (h : sought false (among [.str]) s t = true → t.body ≠ ['!']) :
    ∃ s₁, acceptBang s = .ok false s₁ ∧ Reaches source s [] s₁ := by
  cases hv : sought false (among [.str]) s t with
  | false =>
    obtain ⟨s₁, hlook, hs₁⟩ := look_none hs ht hv
    exact ⟨s₁, bind_of_ok hlook, hs₁⟩
  | true =>
    obtain ⟨s₁, hlook, hs₁⟩ := look_some hs ht hv
    refine ⟨s₁, (bind_of_ok hlook).trans ?_, hs₁⟩
    simp only [h hv, if_false]
    rfl

/-- A `!` is taken for as long as it takes to see whether it stands alone. -/
theorem acceptBang_of_eq (hs : s.lexer.Current source) (ht : s.tokenHere = .ok t)
    (hv : sought false (among [.str]) s t = true) (hbang : t.body = ['!']) :
    ∃ s₁, Reaches source s [t] s₁ ∧ acceptBang s =
      (look true (pieceStart s₁.inBackquote) >>= fun o =>
        if o.isSome = true then back >>= fun _ => pure false else pure true) s₁ := by
  obtain ⟨s₁, hlook, hs₁⟩ := look_some hs ht hv
  have ht₁ : s₁.tokenHere = .ok t := by
    rw [ParseState.tokenHere, ParseState.rules, Lexer.mode, hs₁.keeps.modes, hs₁.here_nil hs]
    exact ht
  have hv₁ : sought false (among []) s₁ t = true := by
    rw [sought, Lexer.mode, hs₁.keeps.modes]
    exact (Bool.and_eq_true_iff.mp hv).2
  obtain ⟨s₂, hnext, hs₂⟩ := take_some hs₁.current ht₁ hv₁
  rw [← next_eq_take hs₁.current] at hnext
  refine ⟨s₂, hs₁.trans hs₂, (bind_of_ok hlook).trans ?_⟩
  simp only [hbang, if_true]
  exact bind_of_ok hnext

end Bang

namespace Pair.InStep
variable {P : Pair} {limit : Nat} {s s' : ParseState} {t : Token}

/-- Among commands, readers that look for neither the end nor a newline see the same. -/
theorem sought_command (hs : P.InStep limit s s') (hr : s.rules = .command)
    (ht : s.tokenHere = .ok t) (adjacent : Bool) {want : Kind → Bool}
    (hwant : want .eos = false ∧ want .newline = false) :
    ∃ t', s'.tokenHere = .ok t' ∧ sought adjacent want s' t' = sought adjacent want s t := by
  obtain ⟨t', ht', htwin⟩ | ⟨_, hk, _, t', ht', hk', hblank, _⟩ |
    ⟨_, _, hk, t', ht', hk', hblank⟩ | ⟨_, _, hspent⟩ := hs.token_cases ht
  · exact ⟨t', ht', hs.sought_eq adjacent want (congrArg want htwin.kind) htwin.blank⟩
  · exact ⟨t', ht', hs.sought_eq adjacent want (by rw [hk, hk']) hblank⟩
  · refine ⟨t', ht', hs.sought_eq adjacent want ?_ hblank⟩
    rw [hk, hk', hwant.1, hwant.2]
  · exact absurd hr hspent.1

end Pair.InStep

section Bang
variable {P : Pair} {limit : Nat} {s s' s₁ s₁' : ParseState} {t t' : Token}

/-- Whether a `!` that both sides have taken stands alone. -/
theorem Pair.InStep.bang_rest (hs : P.InStep limit s s') (hr : s.rules = .command)
    (hpass : P.Passes s s' t t' s₁ s₁') (room : Nat) :
    Tracks P limit true (fun _ _ => False) room (fun _ => 0) s s'
      ((look true (pieceStart s₁.inBackquote) >>= fun o =>
        if o.isSome = true then back >>= fun _ => pure false else pure true) s₁)
      ((look true (pieceStart s₁'.inBackquote) >>= fun o =>
        if o.isSome = true then back >>= fun _ => pure false else pure true) s₁') := by
  have hstep := hpass.inStep hs
  have hr₁ : s₁.rules = .command := by
    rw [← hr]
    exact congrArg (·.mode.rules) hpass.reaches.keeps.context
  have hbackquote : s₁'.inBackquote = s₁.inBackquote :=
    congrArg Context.inBackquote hstep.context
  rw [hbackquote]
  cases hu : s₁.tokenHere with
  | error f =>
    refine Fails.tracks (.of_keeps hpass.reaches.keeps hpass.reaches'.keeps (Fails.bind ?_))
    exact hstep.fails_of_fault hu (look_of_fault hstep.left hu) fun _ => look_of_fault hstep.right
  | ok u =>
    have hkinds : among (pieceStart s₁.inBackquote) .eos = false ∧
        among (pieceStart s₁.inBackquote) .newline = false := by
      cases s₁.inBackquote <;> exact ⟨rfl, rfl⟩
    obtain ⟨u', hu', hv'⟩ := hstep.sought_command hr₁ hu true hkinds
    cases hv : sought true (among (pieceStart s₁.inBackquote)) s₁ u with
    | false =>
      obtain ⟨s₂, hlook, hs₂⟩ := look_none hstep.left hu hv
      obtain ⟨s₂', hlook', hs₂'⟩ := look_none hstep.right hu' (hv'.trans hv)
      rw [bind_of_ok hlook, bind_of_ok hlook']
      refine ⟨?_, .inl ⟨s₂', rfl, (hpass.reaches'.trans hs₂').keeps.holds, hstep.stay hs₂ hs₂'⟩⟩
      obtain ⟨ho, hf⟩ := Rules.tokenAt_fits hpass.token
      exact (Advances.ofOne ho hf (hpass.reaches.trans hs₂)).mono (Nat.zero_le _)
    | true =>
      obtain ⟨s₂, hlook, hs₂⟩ := look_some hstep.left hu hv
      obtain ⟨s₂', hlook', hs₂'⟩ := look_some hstep.right hu' (hv'.trans hv)
      obtain ⟨s₃, hback, hs₃⟩ := back_of_reaches hpass.token (hpass.reaches.trans hs₂)
      obtain ⟨s₃', hback', hs₃'⟩ := back_of_reaches hpass.token' (hpass.reaches'.trans hs₂')
      have hrun : (back >>= fun _ => pure false : ParseM Bool) s₂ = .ok false s₃ := bind_of_ok hback
      have hrun' : (back >>= fun _ => pure false : ParseM Bool) s₂' = .ok false s₃' :=
        bind_of_ok hback'
      rw [bind_of_ok hlook, bind_of_ok hlook']
      simp only [Option.isSome_some, if_true, hrun, hrun']
      exact ⟨.ofNil hs.left hs₃, .inl ⟨s₃', rfl, hs₃'.keeps.holds, hs.stay hs₃ hs₃'⟩⟩

/-- Where the left side does not take a `!`, neither does the right one. -/
theorem Pair.InStep.not_bang (hs : P.InStep limit s s') (hr : s.rules = .command)
    (ht : s.tokenHere = .ok t)
    (hbang : ¬ (sought false (among [.str]) s t = true ∧ t.body = ['!'])) :
    ∃ t', s'.tokenHere = .ok t' ∧
      (sought false (among [.str]) s' t' = true → t'.body ≠ ['!']) := by
  obtain ⟨t', ht', htwin⟩ | ⟨_, hk, _, t', ht', _, _, hlt⟩ |
    ⟨_, _, _, t', ht', hk', _⟩ | ⟨_, _, hspent⟩ := hs.token_cases ht
  · refine ⟨t', ht', fun hv hbody => hbang ⟨?_, htwin.body.symm.trans hbody⟩⟩
    rw [← hs.sought_eq false (among [.str]) (congrArg _ htwin.kind) htwin.blank]
    exact hv
  · refine ⟨t', ht', fun _ hbody => ?_⟩
    have hpos := Rules.body_pos ht (by rw [hk]; exact nofun)
    rw [hbody, List.length_singleton] at hlt
    omega
  · refine ⟨t', ht', fun hv => ?_⟩
    rw [sought, hk'] at hv
    cases hv
  · exact absurd hr hspent.1

end Bang

theorem Follows.acceptBang (hc : c.mode.rules = .command) (room : Nat) :
    Follows σ c true (fun _ _ => False) room (fun _ => 0) Grammar.acceptBang
      Grammar.acceptBang := by
  intro P hP s s' hs hcontext
  have hr : s.rules = .command := by rw [← hc, ← hcontext]; rfl
  cases ht : s.tokenHere with
  | error f =>
    have hfails : Fails P s s' (look false [.str] s) (look false [.str] s') :=
      hs.fails_of_fault ht (look_of_fault hs.left ht) fun _ => look_of_fault hs.right
    exact hfails.bind.tracks
  | ok t =>
    by_cases hbang : sought false (among [.str]) s t = true ∧ t.body = ['!']
    · obtain ⟨s₁, hs₁, hrun⟩ := acceptBang_of_eq hs.left ht hbang.1 hbang.2
      obtain ⟨t', ht', htwin⟩ | ⟨hne, _, hlost, _⟩ | ⟨_, _, hk, _⟩ | ⟨_, _, hspent⟩ :=
        hs.token_cases ht
      · have hv' := hs.sought_eq false (among [.str]) (congrArg _ htwin.kind) htwin.blank
        obtain ⟨s₁', hs₁', hrun'⟩ := acceptBang_of_eq hs.right ht' (hv'.trans hbang.1)
          (htwin.body.trans hbang.2)
        rw [hrun, hrun']
        exact hs.bang_rest hr ⟨ht, ht', htwin, hs₁, hs₁'⟩ room
      · -- Behind the `!` stands a backslash that ends the text, which cannot be read.
        obtain ⟨f, hf⟩ := (hlost.resolve_left fun h => h.1 hr).tokenAt
        have hf₁ : s₁.tokenHere = .error f := by
          rw [ParseState.tokenHere, hs₁.here_one]
          rw [show s₁.rules = s.rules from congrArg (·.mode.rules) hs₁.keeps.context]
          exact hf
        rw [hrun, bind_of_error (look_of_fault hs₁.current hf₁)]
        exact ⟨hs₁.keeps.holds, fun hnil => absurd hnil hne⟩
      · have hv := hbang.1
        rw [sought, hk] at hv
        cases hv
      · exact absurd hr hspent.1
    · obtain ⟨t', ht', hbang'⟩ := hs.not_bang hr ht hbang
      obtain ⟨s₁, hrun, hs₁⟩ := acceptBang_of_ne hs.left ht fun hv hbody => hbang ⟨hv, hbody⟩
      obtain ⟨s₁', hrun', hs₁'⟩ := acceptBang_of_ne hs.right ht' hbang'
      rw [hrun, hrun']
      exact ⟨.ofNil hs.left hs₁, .inl ⟨s₁', rfl, hs₁'.keeps.holds, hs.stay hs₁ hs₁'⟩⟩

/-! ### Pipelines -/

theorem Follows.skipNewlines (hc : c.mode.rules = .command) :
    ∀ bound bound', bound ≤ bound' →
      Follows σ c true (fun _ => c.Ended) bound (fun _ => 0) (ParseM.skipNewlines bound)
        (ParseM.skipNewlines bound')
  | 0, _, _ => .breached _ _
  | bound + 1, 0, hle => absurd hle (Nat.not_succ_le_zero _)
  | bound + 1, bound' + 1, hle => by
    refine .next_command_bind hc ⟨rfl, rfl, rfl⟩ (.pure rfl) (fun _ _ _ _ => ?_)
      (Lapses.pure fun _ => id)
    exact Follows.skipNewlines hc bound bound' (Nat.le_of_succ_le_succ hle)

/-- Where the left side may have come to after an operator. -/
def OperatorLost (c : Context) : Option Text → Scan → Prop
  | none => fun _ => False
  | some _ => c.Ended

theorem Agree.commandOperator (hg : Agree σ g g') (hc : c.mode.rules = .command)
    {kinds : List Kind} (hkinds : Definite kinds = true) :
    Follows σ c true (OperatorLost c) g.steps some1 (Grammar.commandOperator g kinds)
      (Grammar.commandOperator g' kinds) := by
  refine .next_bind hkinds (.pure rfl) (fun t t' _ _ hbody => ?_)
    fun _ _ _ _ h => absurd hc h.1
  simp only [hbody]
  refine .map ((Follows.skipNewlines hc g.steps g'.steps hg.steps).mono (fun _ _ => id)
    (Nat.sub_le _ _) fun _ => Nat.le_refl _)

theorem dies_pipeline : Dies c c.Ended (Grammar.pipeline g) := by
  have hbang : Misses c c.Ended (look false [.str]) := misses_look rfl
  rw [Grammar.pipeline, Grammar.acceptBang, bind_assoc]
  refine hbang.bind ?_
  rw [pure_bind]
  exact dies_simpleCommand.chain.bind

theorem Agree.pipeline (hg : Agree σ g g') (hc : c.mode.rules = .command) :
    Paces σ c g.steps (fun _ => 0) (Grammar.pipeline g) (Grammar.pipeline g') := by
  refine (Follows.acceptBang hc g.steps).bind (fun excl => .map ?_) fun _ _ _ _ _ h => h.elim
  refine Paces.chain hg.descend hg.descend' hg.steps (hg.simpleCommand hc)
    (hg.commandOperator hc rfl) (fun _ h => h.elim) (fun _ => ?_) fun _ => dies_simpleCommand.lapses
  exact (hg.simpleCommand hc).less (Nat.sub_le _ _)

theorem Agree.andOr (hg : Agree σ g g') (hc : c.mode.rules = .command) :
    Paces σ c g.steps (fun _ => 0) (Grammar.andOr g) (Grammar.andOr g') := by
  refine Paces.chain hg.descend hg.descend' hg.steps (hg.pipeline hc)
    (hg.commandOperator hc rfl) (fun _ h => h.elim) (fun _ => ?_) fun _ => dies_pipeline.lapses
  exact (hg.pipeline hc).less (Nat.sub_le _ _)

theorem dies_andOr : Dies c c.Ended (Grammar.andOr g) := dies_pipeline.chain

/-! ### Lists -/

/-- How much an entry has read at least. -/
def entryAte (a : Node) : Nat := if isTerminated a then 1 else 0

theorem Agree.entry (hg : Agree σ g g') (hc : c.mode.rules = .command) :
    Follows σ c true (fun _ => c.Ended) g.steps entryAte (Grammar.entry g) (Grammar.entry g') := by
  refine Follows.bind (hg.andOr hc) (fun body => ?_) fun _ _ _ _ _ h => absurd hc h.1
  refine .next_command_bind hc ⟨rfl, rfl, rfl⟩ (.pure rfl) (fun t t' _ hbody => ?_)
    (Lapses.pure fun _ => id)
  simp only [Option.map_some, hbody]
  exact .pure rfl

theorem dies_entry : Dies c c.Ended (Grammar.entry g) := dies_andOr.bind

/-- What readers do when nothing stands behind the left text. -/
theorem Pair.InStep.take_cases_exact {P : Pair} {limit : Nat} {s s' : ParseState}
    (hs : P.InStep limit s s') (htail : P.tail = []) (adjacent : Bool) (want : Kind → Bool) :
    (∃ t t' s₁ s₁', take adjacent want s = .ok (some t) s₁ ∧
      take adjacent want s' = .ok (some t') s₁' ∧ P.Passes s s' t t' s₁ s₁') ∨
    (∃ s₁ s₁', take adjacent want s = .ok none s₁ ∧ take adjacent want s' = .ok none s₁' ∧
      Reaches P.left s [] s₁ ∧ Reaches P.right s' [] s₁') ∨
    ∃ f, s.tokenHere = .error f := by
  cases ht : s.tokenHere with
  | error f => exact .inr (.inr ⟨f, rfl⟩)
  | ok t =>
    obtain ⟨t', ht', htwin⟩ | ⟨hne, _⟩ | ⟨hne, _⟩ | ⟨hne, _⟩ := hs.token_cases ht
    · have hv' := hs.sought_eq adjacent want (congrArg want htwin.kind) htwin.blank
      cases hv : sought adjacent want s t with
      | true =>
        obtain ⟨s₁, hrun, hs₁⟩ := take_some hs.left ht hv
        obtain ⟨s₁', hrun', hs₁'⟩ := take_some hs.right ht' (hv'.trans hv)
        exact .inl ⟨t, t', s₁, s₁', hrun, hrun', ht, ht', htwin, hs₁, hs₁'⟩
      | false =>
        obtain ⟨s₁, hrun, hs₁⟩ := take_none hs.left ht hv
        obtain ⟨s₁', hrun', hs₁'⟩ := take_none hs.right ht' (hv'.trans hv)
        exact .inr (.inl ⟨s₁, s₁', hrun, hrun', hs₁, hs₁'⟩)
    · exact absurd htail hne
    · exact absurd htail hne
    · exact absurd htail hne

namespace Follows
variable {D : β → Scan → Prop} {room : Nat} {k k' : Option Token → ParseM β} (closer : Closer)

/-- A look for the closer of a list. The end of the source is looked for only if nothing
stands behind the left text. -/
theorem peekCloser_bind (hc : c.mode.rules = .command)
    (hcloser : closer = .endOfSource → σ.exact = true)
    (hstay : Follows σ c true D room (fun _ => 0) (k none) (k' none))
    (hgo : ∀ t t', Follows σ c true D room (fun _ => 0) (k (some t)) (k' (some t'))) :
    Follows σ c true D room (fun _ => 0) (ParseM.peek [closer.kind] >>= k)
      (ParseM.peek [closer.kind] >>= k') := by
  cases closer with
  | paren => exact look_bind false rfl hstay (fun t t' _ _ => hgo t t') fun _ _ _ _ h => absurd hc h.1
  | backquote =>
    exact look_bind false rfl hstay (fun t t' _ _ => hgo t t') fun _ _ _ _ h => absurd hc h.1
  | endOfSource =>
    intro P hP s s' hs hcontext
    show Tracks P σ.limit true D room _ s s' ((look false [.eos] >>= k) s)
      ((look false [.eos] >>= k') s')
    obtain ⟨t, t', s₁, s₁', hrun, hrun', _⟩ | ⟨s₁, s₁', hrun, hrun', _⟩ | ⟨f, hf⟩ :=
      hs.take_cases_exact (hP (hcloser rfl)) false (among [.eos])
    · obtain ⟨s₂, hlook, hs₂⟩ := look_of_take hs.left hrun
      obtain ⟨s₂', hlook', hs₂'⟩ := look_of_take hs.right hrun'
      rw [bind_of_ok hlook, bind_of_ok hlook']
      exact .after (.ofNil hs.left hs₂) hs₂'.keeps.holds
        (hgo t t' P hP s₂ s₂' (hs.stay hs₂ hs₂') (hs₂.keeps.context.trans hcontext))
    · obtain ⟨s₂, hlook, hs₂⟩ := look_of_take hs.left hrun
      obtain ⟨s₂', hlook', hs₂'⟩ := look_of_take hs.right hrun'
      rw [bind_of_ok hlook, bind_of_ok hlook']
      exact .after (.ofNil hs.left hs₂) hs₂'.keeps.holds
        (hstay P hP s₂ s₂' (hs.stay hs₂ hs₂') (hs₂.keeps.context.trans hcontext))
    · exact (hs.fails_of_fault hf (look_of_fault hs.left hf)
        fun _ => look_of_fault hs.right).bind.tracks

theorem nextCloser_bind (hc : c.mode.rules = .command)
    (hcloser : closer = .endOfSource → σ.exact = true)
    (hstay : Follows σ c true D room (fun _ => 0) (k none) (k' none))
    (hgo : ∀ t t' room, Follows σ c true D room (fun _ => 0) (k (some t)) (k' (some t'))) :
    Follows σ c true D room (fun _ => 0) (ParseM.next [closer.kind] >>= k)
      (ParseM.next [closer.kind] >>= k') := by
  cases closer with
  | paren =>
    exact next_bind rfl hstay (fun t t' _ _ _ => hgo t t' _) fun _ _ _ _ h => absurd hc h.1
  | backquote =>
    exact next_bind rfl hstay (fun t t' _ _ _ => hgo t t' _) fun _ _ _ _ h => absurd hc h.1
  | endOfSource =>
    refine .next_congr fun P hP s s' hs hcontext => ?_
    obtain ⟨t, t', s₁, s₁', hrun, hrun', hpass⟩ | ⟨s₁, s₁', hrun, hrun', hs₁, hs₁'⟩ | ⟨f, hf⟩ :=
      hs.take_cases_exact (hP (hcloser rfl)) false (among [Closer.endOfSource.kind])
    · rw [bind_of_ok hrun, bind_of_ok hrun']
      obtain ⟨ho, hf⟩ := Rules.tokenAt_fits hpass.token
      exact .after ((Advances.ofOne ho hf hpass.reaches).mono (Nat.zero_le _))
        hpass.reaches'.keeps.holds (hgo t t' _ P hP s₁ s₁' (hpass.inStep hs)
          (hpass.reaches.keeps.context.trans hcontext))
    · rw [bind_of_ok hrun, bind_of_ok hrun']
      exact .after (.ofNil hs.left hs₁) hs₁'.keeps.holds
        (hstay P hP s₁ s₁' (hs.stay hs₁ hs₁') (hs₁.keeps.context.trans hcontext))
    · exact (hs.fails_of_fault hf (take_fault hs.left hf)
        fun _ => take_fault hs.right).bind.tracks

end Follows

/-- From where the text has ended, newlines are skipped without moving. -/
theorem lapses_skipNewlines : ∀ bound, Lapses c c.Ended (fun _ => c.Ended)
    (ParseM.skipNewlines bound)
  | 0 => fun _ _ _ _ _ _ _ hrun => nomatch hrun
  | _ + 1 => (misses_next_ended rfl).bind (Lapses.pure fun _ => id)

theorem lapses_look_bind {X : Scan → Prop} {D : β → Scan → Prop} (adjacent : Bool)
    {kinds : List Kind} {k : Option Token → ParseM β} (hk : ∀ o, Lapses c X D (k o)) :
    Lapses c X D (look adjacent kinds >>= k) := by
  intro source s hs hc hx b s₂ hrun
  obtain ⟨o, s₁, hlook, hs₁⟩ | ⟨f, herr⟩ := look_cases hs adjacent kinds
  · rw [bind_of_ok hlook] at hrun
    refine hk o source s₁ hs₁.current (hs₁.keeps.context.trans hc) ?_ b s₂ hrun
    rw [hs₁.here_nil hs]
    exact hx
  · rw [bind_of_error herr] at hrun
    cases hrun

/-- A round of a list, with a bound of its own for the newlines in front. -/
def entriesWith (g : Grammar) (closer : Closer) (steps bound : Nat) : ParseM (List Node) := do
  ParseM.skipNewlines steps
  if (← ParseM.peek [closer.kind]).isSome then
    return []
  let first ← Grammar.entry g
  if isTerminated first then
    return first :: (← Grammar.entries g closer bound)
  return [first]

theorem entries_succ (g : Grammar) (closer : Closer) (bound : Nat) :
    Grammar.entries g closer (bound + 1) = entriesWith g closer g.steps bound := rfl

/-- From where the text has ended, a list goes on to its end or not at all. -/
theorem lapses_round {closer : Closer} {k : Node → ParseM (List Node)} :
    Lapses c c.Ended (fun _ => c.Ended) (ParseM.peek [closer.kind] >>= fun o =>
      if o.isSome = true then pure [] else Grammar.entry g >>= k) := by
  refine lapses_look_bind false fun o => ?_
  cases o with
  | some t => exact Lapses.pure fun _ => id
  | none => exact dies_entry.bind.lapses

section Closed
variable (closer : Closer) (hc : c.mode.rules = .command)
include hc

theorem lapses_entries :
    ∀ bound, Lapses c c.Ended (fun _ => c.Ended) (Grammar.entries g closer bound)
  | 0 => fun _ _ _ _ _ _ _ hrun => nomatch hrun
  | _ + 1 => (Follows.skipNewlines (σ := ⟨true, 0⟩) hc g.steps g.steps (Nat.le_refl _)).lapses_bind
      (lapses_skipNewlines _) fun _ => lapses_round

variable (hg : Agree σ g g') (hcloser : closer = .endOfSource → σ.exact = true)
include hg hcloser

theorem Agree.entriesWith {steps bound bound' : Nat} (hsteps : g.steps ≤ steps)
    (hroom : bound + 1 ≤ g.steps)
    (hrest : Follows σ c true (fun _ => c.Ended) bound (fun _ => 0)
      (Grammar.entries g closer bound) (Grammar.entries g' closer bound')) :
    Follows σ c true (fun _ => c.Ended) (bound + 1) (fun _ => 0)
      (ShellGrammar.entriesWith g closer g.steps bound)
      (ShellGrammar.entriesWith g' closer steps bound') := by
  refine ((Follows.skipNewlines hc g.steps steps hsteps).mono (fun _ _ => id) hroom
    fun _ => Nat.le_refl _).bind (fun _ => ?_) fun _ => lapses_round
  refine .peekCloser_bind closer hc hcloser ?_ fun _ _ => .pure rfl
  refine ((hg.entry hc).mono (fun _ _ => id) hroom fun _ => Nat.le_refl _).bind
    (fun first => ?_) fun first => ?_
  · unfold entryAte
    cases isTerminated first with
    | true => exact .map hrest
    | false => exact .pure rfl
  · cases isTerminated first with
    | true => exact Lapses.map (lapses_entries closer hc bound)
    | false => exact Lapses.pure fun _ => id

theorem Agree.entries : ∀ bound bound', bound ≤ g.steps → bound ≤ bound' →
    Follows σ c true (fun _ => c.Ended) bound (fun _ => 0) (Grammar.entries g closer bound)
      (Grammar.entries g' closer bound')
  | 0, _, _, _ => .breached _ _
  | _ + 1, 0, _, hle => absurd hle (Nat.not_succ_le_zero _)
  | bound + 1, bound' + 1, hroom, hle =>
    hg.entriesWith closer hc hcloser hg.steps hroom
      (Agree.entries bound bound' (Nat.le_of_succ_le hroom) (Nat.le_of_succ_le_succ hle))

/-- The entries of a list and its closer, without exception if the closer is a token. -/
theorem Agree.list : Follows σ c true (fun _ _ => closer = .endOfSource) g.steps (fun _ => 0)
    (Grammar.list g closer) (Grammar.list g' closer) := by
  refine (hg.entries closer hc hcloser g.steps g'.steps (Nat.le_refl _) hg.steps).bind (fun body => ?_)
    fun body => ?_
  · exact .nextCloser_bind closer hc hcloser .fail_bind fun _ _ _ => .pure rfl
  · cases closer with
    | endOfSource => exact fun _ _ _ _ _ _ _ _ => rfl
    | paren => exact (dies_orFail (misses_next_ended rfl)).lapses
    | backquote => exact (dies_orFail (misses_next_ended rfl)).lapses

end Closed

theorem Agree.nestedListRest (hg : Agree σ g g') {closer : Closer} (hne : closer ≠ .endOfSource) :
    Follows σ c true (fun _ _ => False) g.steps (fun _ => 0) (Grammar.nestedListRest g closer)
      (Grammar.nestedListRest g' closer) := by
  refine .inList (.withRules ?_)
  exact (hg.list closer rfl fun h => absurd h hne).mono (fun _ _ h => hne h) (Nat.le_refl _)
    fun _ => Nat.le_refl _

/-! ### Levels -/

theorem steps_level (descend : ParseM Unit) (n : Nat) : (Grammar.level descend n).steps = n := by
  cases n <;> rfl

theorem descend_level (descend : ParseM Unit) (n : Nat) :
    (Grammar.level descend n).descend = descend := by
  cases n <;> rfl

/-- The productions of level zero are not run, so anything follows them. -/
theorem agree_zero (σ : Setting) {g' : Grammar} (hdescend : g'.descend = ParseM.descend σ.limit) :
    Agree σ (Grammar.level (ParseM.descend σ.limit) 0) g' := by
  have hnone : ∀ {c : Context} {act' : ParseM Node},
      Paces σ c 0 (fun _ => 0) (breached .outOfSteps) act' := .breached _ _
  exact
    { descend := rfl
      descend' := hdescend
      steps := Nat.zero_le _
      doubleQuoted := fun _ => hnone
      parameter := fun _ => hnone
      arithExpansion := fun _ => hnone
      nestedList := fun _ _ _ => hnone
      arith := fun _ => hnone
      assignment := fun _ => hnone
      ternary := fun _ => hnone
      binary := fun _ _ => hnone
      power := fun _ => hnone
      unary := fun _ => hnone }

/-- The productions of a level are followed by those of any higher one. -/
theorem agree_level (σ : Setting) : ∀ n n', n ≤ n' →
    Agree σ (Grammar.level (ParseM.descend σ.limit) n) (Grammar.level (ParseM.descend σ.limit) n')
  | 0, n', _ => agree_zero σ (descend_level _ n')
  | n + 1, 0, hle => absurd hle (Nat.not_succ_le_zero _)
  | n + 1, n' + 1, hle => by
    have hg := agree_level σ n n' (Nat.le_of_succ_le_succ hle)
    have hroom : (Grammar.level (ParseM.descend σ.limit) (n + 1)).steps - 1 ≤
        (Grammar.level (ParseM.descend σ.limit) n).steps := by
      rw [steps_level, steps_level]
      exact Nat.le_refl _
    have hstrict : ∀ {c : Context} {act act' : ParseM Node} {room : Nat},
        Follows σ c true (fun _ _ => False) room (fun _ => 0) act act' →
          Paces σ c room (fun _ => 0) act act' :=
      fun h => h.mono (fun _ _ h => h.elim) (Nat.le_refl _) fun _ => Nat.le_refl _
    exact
      { descend := rfl
        descend' := rfl
        steps := hle
        doubleQuoted := fun _ => (hstrict hg.doubleQuotedRest).less hroom
        parameter := fun _ => (hstrict hg.parameterRest).less hroom
        arithExpansion := fun _ => (hstrict hg.arithExpansionRest).less hroom
        nestedList := fun _ _ hne => (hstrict (hg.nestedListRest hne)).less hroom
        arith := fun _ => hg.expression.less hroom
        assignment := fun _ => hg.assignmentOperand.less hroom
        ternary := fun _ => hg.ternaryOperand.less hroom
        binary := fun _ min => (hg.binaryOperand min).less hroom
        power := fun _ => hg.powerOperand.less hroom
        unary := fun _ => hg.unaryOperand.less hroom }

end ShellGrammar
