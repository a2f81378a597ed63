import ShellGrammar.Proofs.Safety

/-! Scripts put one below the other.

A script that parses, a newline and another script are read as the entries of the first
and then those of the second; where the second is at fault, so is the whole, further down.
So reading a script does not depend on what stands before it or behind it.

Two parses are compared with that of the whole. Up to the end of the first script they
stand side by side with a tail behind it (`above`). There the parse of the whole finds a
newline, which ends the last entry or is one of those between entries, and stands at the
start of the second script (`crossed`). From there on it is compared with a parse of that
script alone, further down (`below`). -/
namespace ShellGrammar
open ParseM Grammar

variable {limit : Nat} {s₁ s₂ : Text} {s s' r q : ParseState} {t t' : Token}

/-! ### The two pairs -/

/-- The first script and the whole. -/
def above (s₁ s₂ : Text) : Pair :=
  ⟨s₁, s₁ ++ '\n' :: s₂, '\n' :: s₂, 0, 0, .inr ⟨s₂, rfl⟩⟩

/-- The second script and the whole. -/
def below (s₁ s₂ : Text) : Pair :=
  { Pair.same s₂ with
    right := s₁ ++ '\n' :: s₂
    bytes := Text.bytes s₁ + 1
    lines := s₁.count '\n' + 1 }

/-- The parse of the whole stands in the first script where the parse of that script alone
does, outside every construct. -/
structure Abreast (limit : Nat) (s₁ s₂ : Text) (s s' : ParseState) : Prop where
  inStep : (above s₁ s₂).InStep limit s s'
  context : s.context = .script
  depth : s.depth = 0

/-- The parse of the whole stands at the start of the second script. -/
abbrev Crossed (limit : Nat) (s₁ s₂ : Text) (s' : ParseState) : Prop :=
  (below s₁ s₂).InStep limit (.ofText s₂) s'

theorem abreast_ofText (limit : Nat) (s₁ s₂ : Text) :
    Abreast limit s₁ s₂ (.ofText s₁) (.ofText (s₁ ++ '\n' :: s₂)) :=
  ⟨⟨Lexer.current_ofText _, Lexer.current_ofText _, rfl, fun _ => rfl, ⟨rfl, rfl⟩, rfl⟩, rfl, rfl⟩

theorem Abreast.rules (h : Abreast limit s₁ s₂ s s') : s.rules = .command :=
  congrArg (·.mode.rules) h.context

theorem Abreast.move (h : Abreast limit s₁ s₂ s s') {r' : ParseState} (hholds : Holds true s r)
    (hstep : (above s₁ s₂).InStep limit r r') : Abreast limit s₁ s₂ r r' :=
  ⟨hstep, hholds.context.trans h.context, (hholds.depth rfl).trans h.depth⟩

/-- Past a text and a newline. -/
theorem advance_newline (s : Text) :
    Position.start.advance (s ++ ['\n']) =
      Position.start.shift (Text.bytes s + 1) (s.count '\n' + 1) := by
  have hoffset := Position.offset_advance .start s
  have hline := Position.line_advance .start s
  rw [Position.advance_append]
  simp only [Position.advance_cons, Position.advance_nil, Position.step, if_true, hoffset, hline,
    Position.shift]
  congr 1

theorem crossed (h : Abreast limit s₁ s₂ s s') (ht : s.tokenHere = .ok t) (hk : t.kind = .eos)
    (ht' : s'.tokenHere = .ok t') (hk' : t'.kind = .newline) (hblank : t'.blank = t.blank)
    (hq : Reaches (s₁ ++ '\n' :: s₂) s' [t'] q) : Crossed limit s₁ s₂ q := by
  obtain ⟨ho, hf⟩ := Rules.tokenAt_fits ht
  obtain ⟨ho', hf'⟩ := Rules.tokenAt_fits ht'
  have hrest : q.here.rest = s₂ := by
    have hleft := Token.rest_origin hf
    rw [ho, Token.text, Rules.body_of_spelling ht (by rw [hk]; rfl), List.append_nil,
      Rules.rest_after_eos ht hk, List.append_nil] at hleft
    have hright := Token.rest_origin hf'
    have hbeside : s'.here.rest = s.here.rest ++ '\n' :: s₂ := h.inStep.beside.rest
    rw [ho', Token.text, hblank, Rules.body_of_spelling ht' (by rw [hk']; rfl), hbeside, hleft,
      List.append_assoc, List.singleton_append] at hright
    rw [hq.here_one]
    exact (List.cons.inj (List.append_cancel_left hright)).2.symm
  have hon := hq.current.toTiled.here_on
  have hbefore : q.lexer.here.before = '\n' :: s₁.reverse := by
    have hwhole : q.lexer.here.before.reverse ++ q.here.rest = (s₁ ++ ['\n']) ++ s₂ := by
      rw [List.append_assoc]
      exact hon.whole
    rw [hrest] at hwhole
    have hreverse := congrArg List.reverse (List.append_cancel_right hwhole)
    rw [List.reverse_reverse, List.reverse_append] at hreverse
    exact hreverse
  refine ⟨Lexer.current_ofText s₂, hq.current, ?_, fun hl => ?_, ⟨?_, ?_⟩, ?_⟩
  · rw [hq.keeps.context, h.inStep.context, h.context]
    rfl
  · rw [hq.keeps.depth, h.inStep.depth hl, h.depth]
    rfl
  · rw [hrest]
    exact (List.append_nil s₂).symm
  · simp only [Rules.commentMayStart, ParseState.here, hbefore]
    rfl
  · have hplaced := hon.placed
    rw [hbefore, List.reverse_cons, List.reverse_reverse, advance_newline] at hplaced
    exact hplaced

/-- Where the first script has ended, the parse of the whole finds a newline. -/
theorem Abreast.newline (h : Abreast limit s₁ s₂ s s') (hended : Context.script.Ended s.here) :
    ∃ t t', s.tokenHere = .ok t ∧ t.kind = .eos ∧ s'.tokenHere = .ok t' ∧ t'.kind = .newline ∧
      t'.blank = t.blank := by
  obtain ⟨t, ht, hk⟩ := hended
  have ht : s.tokenHere = .ok t := by rw [ParseState.tokenHere, h.rules]; exact ht
  obtain ⟨t', ht', htwin⟩ | ⟨_, hstr, _⟩ | ⟨_, _, _, t', ht', hk', hblank⟩ | ⟨_, _, hspent⟩ :=
    h.inStep.token_cases ht
  · -- The end of the whole is not where the end of the first script is.
    have hrest := (htwin.after (Rules.tokenAt_fits ht).2).rest
    rw [Rules.rest_after_eos ht hk, Rules.rest_after_eos ht' (htwin.kind.trans hk)] at hrest
    cases hrest
  · rw [hk] at hstr
    cases hstr
  · exact ⟨t, t', ht, hk, ht', hk', hblank⟩
  · exact absurd h.rules hspent.1

/-- A reader of newlines takes the one behind the first script. -/
theorem Abreast.next_crossed (h : Abreast limit s₁ s₂ s s')
    (hended : Context.script.Ended s.here) (kinds : List Kind)
    (hkinds : among kinds .newline = true) :
    ∃ t q, ParseM.next kinds s' = .ok (some t) q ∧ t.body = ['\n'] ∧ Crossed limit s₁ s₂ q := by
  obtain ⟨t, t', ht, hk, ht', hk', hblank⟩ := h.newline hended
  have hcontext : s'.context = .script := h.inStep.context.trans h.context
  have hallow : s'.lexer.mode.allowBlank = true := congrArg (·.mode.allowBlank) hcontext
  have hv : sought false (among kinds) s' t' = true := by
    rw [sought, hk', hkinds, hallow]
    rfl
  obtain ⟨q, hrun, hq⟩ := take_some h.inStep.right ht' hv
  rw [← next_eq_take h.inStep.right] at hrun
  exact ⟨t', q, hrun, Rules.body_of_spelling ht' (by rw [hk']; rfl),
    crossed h ht hk ht' hk' hblank hq⟩

/-- A reader before the end of the first script. -/
theorem Abreast.next_cases (h : Abreast limit s₁ s₂ s s')
    (hended : ¬ Context.script.Ended s.here) (kinds : List Kind) {o : Option Token}
    (hkinds : among kinds .eos = false ∧ among kinds .glyph = false ∧ among kinds .str = false)
    (hrun : ParseM.next kinds s = .ok o r) :
    ∃ o' r', ParseM.next kinds s' = .ok o' r' ∧ o'.map (·.body) = o.map (·.body) ∧
      Abreast limit s₁ s₂ r r' ∧ Advances s₁ true (some1 o) s r ∧
      (o = none → ¬ Context.script.Ended r.here) := by
  rw [next_eq_take h.inStep.left] at hrun
  obtain ⟨t, t', r₁, r₁', htake, htake', hkind, hpass⟩ | ⟨r₁, r₁', htake, htake', hr, hr'⟩ |
    ⟨t, _, _, _, _, _, ht, hk, _⟩ | ⟨f, _, herr, _⟩ :=
      h.inStep.take_cases_command h.rules false hkinds
  · rw [htake] at hrun
    cases hrun
    refine ⟨some t', r₁', by rw [next_eq_take h.inStep.right, htake'], ?_,
      h.move hpass.reaches.keeps.holds (hpass.inStep h.inStep), ?_, nofun⟩
    · rw [Option.map_some, Option.map_some, hpass.twin.body]
    · refine .past hpass.token (fun hk => ?_) hpass.reaches
      rw [hk, hkinds.1] at hkind
      cases hkind
  · rw [htake] at hrun
    cases hrun
    refine ⟨none, r₁', by rw [next_eq_take h.inStep.right, htake'], rfl,
      h.move hr.keeps.holds (h.inStep.stay hr hr'), .ofNil h.inStep.left hr, fun _ => ?_⟩
    rw [hr.here_nil h.inStep.left]
    exact hended
  · refine absurd ⟨t, ?_, hk⟩ hended
    rw [ParseState.tokenHere, h.rules] at ht
    exact ht
  · rw [herr] at hrun
    cases hrun

/-! ### Newlines between entries -/

/-- Skipping newlines leads to places side by side, or over to the second script, where
the parse of the whole goes on skipping newlines. -/
theorem Abreast.skipNewlines {bound bound' : Nat} (h : Abreast limit s₁ s₂ s s')
    (hsteps : s.left + s₂.length + 2 ≤ bound') (hrun : ParseM.skipNewlines bound s = .ok () r) :
    (∃ r', ParseM.skipNewlines bound' s' = .ok () r' ∧ Abreast limit s₁ s₂ r r' ∧
      r.left ≤ s.left ∧ ¬ Context.script.Ended r.here) ∨
    (Context.script.Ended r.here ∧ ∃ steps q, s₂.length + 1 ≤ steps ∧ Crossed limit s₁ s₂ q ∧
      ParseM.skipNewlines bound' s' = ParseM.skipNewlines steps q) := by
  induction bound generalizing bound' s s' with
  | zero => cases hrun
  | succ bound ih =>
    obtain ⟨steps, rfl⟩ : ∃ steps, bound' = steps + 1 := ⟨bound' - 1, by omega⟩
    by_cases hended : Context.script.Ended s.here
    · obtain ⟨t, q, hnext, _, hq⟩ := h.next_crossed hended [.newline] rfl
      refine .inr ⟨?_, steps, q, by omega, hq, bind_of_ok hnext⟩
      exact lapses_skipNewlines (bound + 1) s₁ s h.inStep.left h.context hended () r hrun
    · cases hnext : ParseM.next [.newline] s with
      | error e r₁ =>
        rw [ParseM.skipNewlines, bind_of_error hnext] at hrun
        cases hrun
      | ok o r₁ =>
        obtain ⟨o', r₁', hnext', hbody, hr, hadvances, hstop⟩ :=
          h.next_cases hended [.newline] ⟨rfl, rfl, rfl⟩ hnext
        rw [ParseM.skipNewlines, bind_of_ok hnext] at hrun
        rw [ParseM.skipNewlines, bind_of_ok hnext']
        have hle := hadvances.ate_le
        cases o with
        | none =>
          cases o' with
          | some _ => cases hbody
          | none =>
            cases hrun
            exact .inl ⟨r₁', rfl, hr, hle, hstop rfl⟩
        | some t =>
          cases o' with
          | none => cases hbody
          | some t' =>
            have hsome : some1 (some t) = 1 := rfl
            rw [hsome] at hle
            have hroom : r₁.left + s₂.length + 2 ≤ steps := by omega
            obtain ⟨r', hright, hr', hleft, hnot⟩ | hcrossed := ih hr hroom hrun
            · exact .inl ⟨r', hright, hr', by omega, hnot⟩
            · exact .inr hcrossed

/-! ### Entries -/

/-- An entry with a newline that ends it, if nothing did. -/
def withNewline : Node → Node
  | .pipelines body none => .pipelines body (some ['\n'])
  | a => a

/-- The entries of a list that a newline follows. -/
def endLine : List Node → List Node
  | [] => []
  | [a] => [withNewline a]
  | a :: b :: rest => a :: endLine (b :: rest)

variable {g g' : Grammar} {a : Node}

/-- An entry is the same on both sides, unless the newline behind the first script ends it. -/
theorem Abreast.entry (hg : Agree ⟨false, limit⟩ g g') (h : Abreast limit s₁ s₂ s s')
    (hrun : Grammar.entry g s = .ok a r) :
    r.left + entryAte a ≤ s.left ∧
    ((∃ r', Grammar.entry g' s' = .ok a r' ∧ Abreast limit s₁ s₂ r r' ∧
      (isTerminated a = false → ¬ Context.script.Ended r.here)) ∨
    (Context.script.Ended r.here ∧ isTerminated a = false ∧ isTerminated (withNewline a) = true ∧
      ∃ q, Crossed limit s₁ s₂ q ∧ Grammar.entry g' s' = .ok (withNewline a) q)) := by
  have hbody := hg.andOr (c := .script) rfl (above s₁ s₂) nofun s s' h.inStep h.context
  cases hand : Grammar.andOr g s with
  | error e r₁ =>
    rw [Grammar.entry, bind_of_error hand] at hrun
    cases hrun
  | ok body r₁ =>
    rw [hand] at hbody
    obtain ⟨hadvances, ⟨r₁', hand', hholds', hstep⟩ | ⟨_, hspent⟩⟩ := hbody
    · have hr₁ := h.move hadvances.holds hstep
      have hle := hadvances.ate_le
      rw [Grammar.entry, bind_of_ok hand] at hrun
      rw [Grammar.entry, bind_of_ok hand']
      by_cases hended : Context.script.Ended r₁.here
      · obtain ⟨t, q, hnext', hnewline, hq⟩ := hr₁.next_crossed hended terminals rfl
        rw [bind_of_ok hnext']
        cases hnext : ParseM.next terminals r₁ with
        | error e r₂ =>
          rw [bind_of_error hnext] at hrun
          cases hrun
        | ok o r₂ =>
          obtain ⟨rfl, hr₂⟩ :=
            misses_next_ended rfl s₁ r₁ hr₁.inStep.left hr₁.context hended o r₂ hnext
          rw [bind_of_ok hnext] at hrun
          cases hrun
          have hhere := hr₂.here_nil hr₁.inStep.left
          refine ⟨?_, .inr ⟨?_, rfl, rfl, q, hq, ?_⟩⟩
          · rw [ParseState.left, hhere]
            exact hle
          · rw [hhere]
            exact hended
          · simp only [Option.map_some, hnewline]
            rfl
      · cases hnext : ParseM.next terminals r₁ with
        | error e r₂ =>
          rw [bind_of_error hnext] at hrun
          cases hrun
        | ok o r₂ =>
          obtain ⟨o', r₂', hnext', hsame, hr₂, hadvances₂, hstop⟩ :=
            hr₁.next_cases hended terminals ⟨rfl, rfl, rfl⟩ hnext
          have hle₂ := hadvances₂.ate_le
          rw [bind_of_ok hnext] at hrun
          rw [bind_of_ok hnext', hsame]
          cases hrun
          refine ⟨?_, .inl ⟨r₂', rfl, hr₂, fun hterminated => hstop ?_⟩⟩
          · have hate : entryAte (.pipelines body (o.map (·.body))) = some1 o := by
              cases o <;> rfl
            rw [hate]
            omega
          · cases o with
            | none => rfl
            | some t => cases hterminated
    · exact absurd rfl hspent.1

/-- Before the end of the first script neither side is at the end. -/
theorem Abreast.peek_eos (h : Abreast limit s₁ s₂ s s') (hended : ¬ Context.script.Ended s.here)
    {o : Option Token} (hrun : ParseM.peek [.eos] s = .ok o r) :
    o = none ∧ r.here = s.here ∧ ∃ r', ParseM.peek [.eos] s' = .ok none r' ∧
      Abreast limit s₁ s₂ r r' := by
  cases ht : s.tokenHere with
  | error f =>
    have hlook : look false [.eos] s = .ok o r := hrun
    rw [look_of_fault h.inStep.left ht] at hlook
    cases hlook
  | ok t =>
    have hk : t.kind ≠ .eos := by
      rw [ParseState.tokenHere, h.rules] at ht
      exact fun hk => hended ⟨t, ht, hk⟩
    have hnot : ∀ {u : Token} {w : ParseState}, u.kind ≠ .eos →
        sought false (among [.eos]) w u = false := by
      intro u w hu
      have hamong : among [.eos] u.kind = false := by simpa [among] using hu
      rw [sought, hamong, Bool.false_and]
    obtain ⟨t', ht', hk'⟩ : ∃ t', s'.tokenHere = .ok t' ∧ t'.kind ≠ .eos := by
      obtain ⟨t', ht', htwin⟩ | ⟨_, _, _, t', ht', hk', _⟩ | ⟨_, _, hend, _⟩ | ⟨_, _, hspent⟩ :=
        h.inStep.token_cases ht
      · exact ⟨t', ht', fun hk' => hk (htwin.kind.symm.trans hk')⟩
      · exact ⟨t', ht', by rw [hk']; decide⟩
      · exact absurd hend hk
      · exact absurd h.rules hspent.1
    obtain ⟨r₁, hlook, hr⟩ := look_none h.inStep.left ht (hnot hk)
    obtain ⟨r', hlook', hr'⟩ := look_none h.inStep.right ht' (hnot hk')
    have hsame : (.ok o r : EStateM.Result (Halt Fault) ParseState (Option Token)) = .ok none r₁ :=
      hrun.symm.trans hlook
    cases hsame
    exact ⟨rfl, hr.here_nil h.inStep.left, r', hlook',
      h.move hr.keeps.holds (h.inStep.stay hr hr')⟩

theorem endLine_cons (ha : isTerminated a = true) (es : List Node) :
    endLine (a :: es) = a :: endLine es := by
  cases es with
  | cons b es => rfl
  | nil =>
    have hsame : withNewline a = a := by
      unfold withNewline
      split
      · cases ha
      · rfl
    show [withNewline a] = [a]
    rw [hsame]

/-- A round that finds an entry and what ends it. -/
theorem entriesWith_of_entry {steps bound : Nat} {u₁ u₂ u₃ : ParseState}
    (hskip : ParseM.skipNewlines steps s = .ok () u₁)
    (hpeek : ParseM.peek [.eos] u₁ = .ok none u₂) (hentry : Grammar.entry g u₂ = .ok a u₃)
    (ha : isTerminated a = true) :
    entriesWith g .endOfSource steps bound s =
      (Grammar.entries g .endOfSource bound >>= fun rest => pure (a :: rest)) u₃ := by
  refine (bind_of_ok hskip).trans ((bind_of_ok hpeek).trans ((bind_of_ok hentry).trans ?_))
  simp only [ha, if_true]

/-- A round where the text has ended finds nothing. -/
theorem eq_nil_of_ended (hs : s.lexer.Current s₁) (hc : s.context = .script)
    (hended : Context.script.Ended s.here) {k : ParseM (List Node)} {es : List Node}
    (hrun : (ParseM.peek [.eos] >>= fun o => if o.isSome = true then pure [] else k) s = .ok es r) :
    es = [] := by
  obtain ⟨t, ht, hk⟩ := hended
  have ht : s.tokenHere = .ok t := by
    rw [ParseState.tokenHere, show s.rules = .command from congrArg (·.mode.rules) hc]
    exact ht
  have hv : sought false (among [.eos]) s t = true := by
    rw [sought, hk, show s.lexer.mode.allowBlank = true from congrArg (·.mode.allowBlank) hc]
    rfl
  obtain ⟨r₁, hlook, _⟩ := look_some hs ht hv
  have hpeek : ParseM.peek [.eos] s = .ok (some t) r₁ := hlook
  rw [bind_of_ok hpeek] at hrun
  cases hrun
  rfl

/-- The entries of the first script, with a newline behind the last, and then whatever the
parse of the whole makes of the second script. -/
theorem Abreast.entries (hg : Agree ⟨false, limit⟩ g g') {bound bound' : Nat} {es : List Node}
    (h : Abreast limit s₁ s₂ s s') (hroom : s.left + s₂.length + 2 ≤ bound')
    (hsteps : s.left + s₂.length + 2 ≤ g'.steps)
    (hrun : Grammar.entries g .endOfSource bound s = .ok es r)
    (hended : Context.script.Ended r.here) :
    ∃ steps b q, s₂.length + 1 ≤ steps ∧ s₂.length ≤ b ∧ Crossed limit s₁ s₂ q ∧
      Grammar.entries g' .endOfSource bound' s' =
        (entriesWith g' .endOfSource steps b >>= fun rest => pure (endLine es ++ rest)) q := by
  induction bound generalizing bound' s s' es with
  | zero => cases hrun
  | succ bound ih =>
    obtain ⟨k, rfl⟩ : ∃ k, bound' = k + 1 := ⟨bound' - 1, by omega⟩
    rw [entries_succ] at hrun ⊢
    obtain ⟨_, r₁, hskip, hrun⟩ := ok_of_bind hrun
    obtain ⟨r₁', hskip', hr₁, hle₁, hnot⟩ | ⟨hend, steps, q, hle, hq, hskip'⟩ :=
      h.skipNewlines hsteps hskip
    · obtain ⟨o, r₂, hpeek, hrun⟩ := ok_of_bind hrun
      obtain ⟨rfl, hhere, r₂', hpeek', hr₂⟩ := hr₁.peek_eos hnot hpeek
      have hle₂ : r₂.left ≤ s.left := by
        rw [ParseState.left, hhere]
        exact hle₁
      obtain ⟨a, r₃, hentry, hrun⟩ := ok_of_bind hrun
      obtain ⟨hle₃, ⟨r₃', hentry', hr₃, hlast⟩ | ⟨hend, hopen, hclosed, q, hq, hentry'⟩⟩ :=
        hr₂.entry hg hentry
      · cases hterminated : isTerminated a with
        | false =>
          rw [hterminated] at hrun
          cases hrun
          exact absurd hended (hlast hterminated)
        | true =>
          rw [hterminated] at hrun
          obtain ⟨rest, r₄, hrest, hrun⟩ := ok_of_bind hrun
          cases hrun
          rw [entryAte, hterminated, if_pos rfl] at hle₃
          have hroom₃ : r₃.left + s₂.length + 2 ≤ k := by omega
          obtain ⟨steps, b, q, hle, hleb, hq, hright⟩ := ih hr₃ hroom₃ (by omega) hrest
          refine ⟨steps, b, q, hle, hleb, hq, ?_⟩
          rw [entriesWith_of_entry hskip' hpeek' hentry' hterminated, bind_of_eq hright, bind_assoc,
            endLine_cons hterminated]
          simp only [pure_bind, List.cons_append]
      · rw [hopen] at hrun
        cases hrun
        obtain ⟨b, rfl⟩ : ∃ b, k = b + 1 := ⟨k - 1, by omega⟩
        refine ⟨g'.steps, b, q, by omega, by omega, hq, ?_⟩
        rw [entriesWith_of_entry hskip' hpeek' hentry' hclosed]
        rfl
    · -- The first script has ended, so its entries have; the newline was skipped.
      have htracks := Follows.skipNewlines (σ := ⟨true, limit⟩) (c := .script) rfl g.steps g.steps
        (Nat.le_refl _) (.same s₁) (fun _ => rfl) s s (Pair.inStep_same h.inStep.left) h.context
      rw [hskip] at htracks
      obtain rfl := eq_nil_of_ended htracks.1.current (htracks.1.holds.context.trans h.context)
        hend hrun
      refine ⟨steps, k, q, hle, by omega, hq, (bind_of_eq hskip').trans ?_⟩
      simp only [endLine, List.nil_append, bind_pure]
      rfl

/-! ### The end of a script -/

/-- The end of the source behind the entries of a script. -/
def closed (body : List Node) : ParseM (List Node) := do
  if (← next [.eos]).isNone then
    fail .endOfInput
  return body

theorem map_closed {α : Type} (f : List Node → α) (body : List Node) :
    (closed body >>= fun es => pure (f es)) = next [.eos] >>= fun o =>
      if o.isNone = true then fail .endOfInput >>= fun _ : PUnit => pure (f body)
      else pure (f body) := by
  rw [closed, bind_assoc]
  congr 1
  funext o
  cases o with
  | none => simp only [Option.isNone_none, if_true, bind_assoc, pure_bind]
  | some t => simp only [Option.isNone_some, Bool.false_eq_true, if_false, pure_bind]

theorem list_eq (g : Grammar) :
    Grammar.list g .endOfSource =
      (Grammar.entries g .endOfSource g.steps >>= closed) >>= fun es => pure (.list es) := by
  rw [bind_assoc]
  simp only [map_closed]
  rfl

theorem closed_append (front body : List Node) :
    closed (front ++ body) = closed body >>= fun es => pure (front ++ es) := by
  rw [map_closed]
  rfl

/-- A script that parses has ended behind its entries. -/
theorem closed_of_ok {es es' : List Node} (hs : s.lexer.Current s₁) (hc : s.context = .script)
    (hrun : closed es s = .ok es' r) : es' = es ∧ Context.script.Ended s.here := by
  obtain ⟨o, r₁, hnext, hrun⟩ := ok_of_bind hrun
  cases o with
  | none =>
    obtain ⟨_, _, hfail, _⟩ := ok_of_bind hrun
    exact absurd hfail (ParseM.fail_ne_ok _ _ _ _)
  | some t =>
    cases hrun
    rw [next_eq_take hs] at hnext
    obtain ⟨u, _, hu, hv, hsome, _⟩ | ⟨_, _, _, _, hnone, _⟩ | ⟨_, _, herr⟩ :=
      ParseM.take_cases hs false (among [.eos])
    · refine ⟨rfl, u, ?_, ?_⟩
      · rw [ParseState.tokenHere, show s.rules = .command from congrArg (·.mode.rules) hc] at hu
        exact hu
      · simpa [among] using (Bool.and_eq_true_iff.mp hv).1
    · rw [hnone] at hnext
      cases hnext
    · rw [herr] at hnext
      cases hnext

/-! ### Two scripts -/

/-- The productions with which a script is parsed. -/
def Grammar.ofScript (options : Options) (source : Text) : Grammar :=
  Grammar.level (ParseM.descend options.maxDepth) (source.length + 1)

theorem steps_ofScript (options : Options) (source : Text) :
    (Grammar.ofScript options source).steps = source.length + 1 := rfl

theorem run_eq_list (options : Options) (source : Text) :
    run options source = Grammar.list (.ofScript options source) .endOfSource (.ofText source) := rfl

theorem length_whole (s₁ s₂ : Text) :
    (s₁ ++ '\n' :: s₂).length = s₁.length + s₂.length + 1 := by
  rw [List.length_append, List.length_cons, Nat.add_assoc]

/-- After a script that parses, the parse of the whole goes on at the start of the second
script, with the entries of the first in hand. -/
theorem run_above {options : Options} (h : run options s₁ = .ok a r) (s₂ : Text) :
    ∃ es steps b q, a = .list es ∧ s₂.length + 1 ≤ steps ∧ s₂.length ≤ b ∧
      Crossed options.maxDepth s₁ s₂ q ∧
      run options (s₁ ++ '\n' :: s₂) =
        ((entriesWith (.ofScript options (s₁ ++ '\n' :: s₂)) .endOfSource steps b >>= closed) >>=
          fun rest => pure (.list (endLine es ++ rest))) q := by
  rw [run_eq_list, list_eq] at h
  obtain ⟨es, u, h, hlist⟩ := ok_of_bind h
  cases hlist
  obtain ⟨es, u, hentries, hclosed⟩ := ok_of_bind h
  have hself : Agree ⟨true, options.maxDepth⟩ (.ofScript options s₁) (.ofScript options s₁) :=
    agree_level _ _ _ (Nat.le_refl _)
  have htracks := hself.entries (c := .script) .endOfSource rfl (fun _ => rfl) _ _ (Nat.le_refl _)
    (Nat.le_refl _) (.same s₁) (fun _ => rfl) (.ofText s₁) (.ofText s₁)
    (Pair.inStep_same (Lexer.current_ofText s₁)) rfl
  rw [hentries] at htracks
  obtain ⟨rfl, hended⟩ := closed_of_ok htracks.1.current htracks.1.holds.context hclosed
  have hwhole := length_whole s₁ s₂
  have hagree : Agree ⟨false, options.maxDepth⟩ (.ofScript options s₁)
      (.ofScript options (s₁ ++ '\n' :: s₂)) := agree_level _ _ _ (by omega)
  have hroom : (ParseState.ofText s₁).left + s₂.length + 2 ≤
      (Grammar.ofScript options (s₁ ++ '\n' :: s₂)).steps := by
    rw [steps_ofScript, hwhole]
    show s₁.length + s₂.length + 2 ≤ _
    omega
  obtain ⟨steps, b, q, hsteps, hb, hq, hright⟩ :=
    (abreast_ofText options.maxDepth s₁ s₂).entries hagree hroom hroom hentries hended
  refine ⟨es, steps, b, q, rfl, hsteps, hb, hq, ?_⟩
  rw [run_eq_list, list_eq]
  have hbody := bind_of_eq (f := closed) hright
  rw [bind_of_eq hbody]
  simp only [bind_assoc, pure_bind, closed_append]

/-- From the start of the second script the parse of the whole does what a parse of that
script does, further down. -/
theorem tracks_below (options : Options) {steps b : Nat} (hsteps : s₂.length + 1 ≤ steps)
    (hb : s₂.length ≤ b) (hq : Crossed options.maxDepth s₁ s₂ q) :
    Tracks (below s₁ s₂) options.maxDepth true (fun _ _ => True) (s₂.length + 1) (fun _ => 0)
      (.ofText s₂) q
      ((Grammar.entries (.ofScript options s₂) .endOfSource (s₂.length + 1) >>= closed) (.ofText s₂))
      ((entriesWith (.ofScript options (s₁ ++ '\n' :: s₂)) .endOfSource steps b >>= closed) q) := by
  have hwhole := length_whole s₁ s₂
  have hagree : Agree ⟨true, options.maxDepth⟩ (.ofScript options s₂)
      (.ofScript options (s₁ ++ '\n' :: s₂)) := agree_level _ _ _ (by omega)
  have hrest := hagree.entries (c := .script) .endOfSource rfl (fun _ => rfl) s₂.length b
    (Nat.le_succ _) hb
  have hall : Follows ⟨true, options.maxDepth⟩ .script true (fun _ _ => True) (s₂.length + 1)
      (fun _ => 0)
      (Grammar.entries (.ofScript options s₂) .endOfSource (s₂.length + 1) >>= closed)
      (entriesWith (.ofScript options (s₁ ++ '\n' :: s₂)) .endOfSource steps b >>= closed) := by
    refine (hagree.entriesWith .endOfSource rfl (fun _ => rfl) hsteps (Nat.le_refl _) hrest).bind
      (fun body => ?_) fun _ _ _ _ _ _ _ _ _ => trivial
    exact .nextCloser_bind .endOfSource rfl (fun _ => rfl) .fail_bind fun _ _ _ => .pure rfl
  exact hall (below s₁ s₂) (fun _ => rfl) _ q hq rfl

/-- Two scripts that parse, one below the other, are their entries one after the other,
with a newline behind those of the first. Where the second is at fault, the whole has that
fault, as many bytes and lines further down as the first script and the newline take, and
in the same column. -/
theorem parse_lines (options : Options) (s₁ s₂ : Text) :
    (∀ e₁ e₂, parse options s₁ = .ok (.list e₁) → parse options s₂ = .ok (.list e₂) →
      parse options (s₁ ++ '\n' :: s₂) = .ok (.list (endLine e₁ ++ e₂))) ∧
    ∀ t f, parse options s₁ = .ok t → parse options s₂ = .error (.fault f) →
      parse options (s₁ ++ '\n' :: s₂) =
        .error (.fault (f.shift (Text.bytes s₁ + 1) (s₁.count '\n' + 1))) := by
  constructor
  · intro e₁ e₂ h₁ h₂
    obtain ⟨r₁, h₁⟩ := parse_eq_ok_iff.mp h₁
    obtain ⟨r₂, h₂⟩ := parse_eq_ok_iff.mp h₂
    obtain ⟨es, steps, b, q, hes, hsteps, hb, hq, hwhole⟩ := run_above h₁ s₂
    cases hes
    rw [run_eq_list, list_eq] at h₂
    obtain ⟨es, u, hclosed, hlist⟩ := ok_of_bind h₂
    cases hlist
    have htracks := tracks_below options hsteps hb hq
    rw [← steps_ofScript options s₂, hclosed] at htracks
    obtain ⟨_, ⟨q₁, hright, _⟩ | ⟨htail, _⟩⟩ := htracks
    · rw [bind_of_ok hright] at hwhole
      exact parse_eq_ok_iff.mpr ⟨q₁, hwhole⟩
    · exact absurd rfl htail
  · intro t f h₁ h₂
    obtain ⟨r₁, h₁⟩ := parse_eq_ok_iff.mp h₁
    obtain ⟨r₂, h₂⟩ := parse_eq_error_iff.mp h₂
    obtain ⟨es, steps, b, q, hes, hsteps, hb, hq, hwhole⟩ := run_above h₁ s₂
    rw [run_eq_list, list_eq] at h₂
    have hclosed := error_of_map h₂
    have htracks := tracks_below options hsteps hb hq
    rw [← steps_ofScript options s₂, hclosed] at htracks
    obtain ⟨q₁, hright, _⟩ := htracks.2 rfl
    rw [bind_of_error hright] at hwhole
    exact parse_eq_error_iff.mpr ⟨q₁, hwhole⟩

/-- A command above another, and above a parenthesis that closes nothing. -/
theorem parse_lines_commands :
    parse ⟨1⟩ ['a', '\n', 'b'] =
      .ok (.list [.pipelines (.pipeline false (.simpleCommand [] [.str ['a']])) (some ['\n']),
        .pipelines (.pipeline false (.simpleCommand [] [.str ['b']])) none]) ∧
    parse ⟨1⟩ ['a', '\n', ')'] =
      .error (.fault ⟨.syntactic .command "`)`".toList, ⟨2, 2, 1⟩, ⟨3, 2, 2⟩⟩) := by
  have habove : parse ⟨1⟩ ['a'] =
      .ok (.list [.pipelines (.pipeline false (.simpleCommand [] [.str ['a']])) none]) :=
    parse_of_toOption (by decide +kernel)
  have hbelow : parse ⟨1⟩ ['b'] =
      .ok (.list [.pipelines (.pipeline false (.simpleCommand [] [.str ['b']])) none]) :=
    parse_of_toOption (by decide +kernel)
  have hfault : parse ⟨1⟩ [')'] =
      .error (.fault ⟨.syntactic .command "`)`".toList, ⟨0, 1, 1⟩, ⟨1, 1, 2⟩⟩) :=
    parse_of_stop (by decide +kernel)
  exact ⟨(parse_lines ⟨1⟩ ['a'] ['b']).1 _ _ habove hbelow,
    (parse_lines ⟨1⟩ ['a'] [')']).2 _ _ habove hfault⟩

end ShellGrammar
