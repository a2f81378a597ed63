import ShellGrammar.Proofs.Grammar.Levels
import ShellGrammar.Proofs.Lexer.Reading

/-! Runs of productions.

What a production reads depends on its `Context`: the rules in force, whether blank is
allowed, and whether a backquote closes the list under way. `Runs source c act Q` says
of a production `act`, run in the context `c` over the text `source`:

- it puts back what it changes of the context and the levels, on every way out;
- if it yields `a`, the tokens it consumed are some `ts`, and `Q a ts levels` holds,
  where `levels` is how many levels it opened at most;
- that number is exact: a limit that leaves room for so many changes nothing, and any
  other refuses one of them.

The rules below follow the ways in which productions are put together, so that a proof
about a production goes through its text from top to bottom. -/
namespace ShellGrammar
open ParseM

structure Context where
  mode : Mode
  inBackquote : Bool

namespace Context

/-- In the context `c`, a reader that wants the token to touch what stands before it, or
leaves that to the mode, sees `t`. -/
structure Sees (c : Context) (adjacent : Bool) (t : Token) : Prop where
  lexed : c.mode.rules.tokenAt t.origin = .ok t
  visible : (!adjacent && c.mode.allowBlank || t.isAdjacent) = true

/-- A token that can be read in a context. -/
abbrev Reads (c : Context) (t : Token) : Prop := c.Sees false t

/-- A token that can be read in a context and is one of the kinds asked for, where asking
for none is asking for any. -/
structure Finds (c : Context) (kinds : List Kind) (t : Token) : Prop where
  reads : c.Reads t
  asked : kinds = [] ∨ t.kind ∈ kinds

theorem Finds.mem {c : Context} {kind : Kind} {kinds : List Kind} {t : Token}
    (h : c.Finds (kind :: kinds) t) : t.kind ∈ kind :: kinds :=
  h.asked.resolve_left (List.cons_ne_nil kind kinds)

theorem Finds.kind_eq {c : Context} {kind : Kind} {t : Token} (h : c.Finds [kind] t) :
    t.kind = kind :=
  List.mem_singleton.mp h.mem

/-- A token of a given shape that can be taken in a context. -/
def Takes (c : Context) (pattern : Pattern) (kind : Kind) (allowBlank : Bool) (t : Token) : Prop :=
  c.mode.rules.takeAt pattern kind allowBlank t.origin = some t

/-- A token of a given shape that can be taken in a context, with blank as it allows. -/
abbrev Accepts (c : Context) (pattern : Pattern) (kind : Kind) (t : Token) : Prop :=
  c.Takes pattern kind c.mode.allowBlank t

/-- The context under a rule set. -/
def under (c : Context) (rules : Rules) (allowBlank : Bool) : Context :=
  { c with mode := ⟨rules, allowBlank⟩ }

/-- The context inside a list with the given closer. -/
def inside (c : Context) (closer : Closer) : Context :=
  { c with inBackquote := closer == .backquote }

end Context

namespace ParseState

def context (s : ParseState) : Context := ⟨s.lexer.mode, s.inBackquote⟩

end ParseState

theorem Keeps.context {s s' : ParseState} (h : Keeps s s') : s'.context = s.context := by
  simp only [ParseState.context, Lexer.mode, h.modes, h.inBackquote]

/-! ### Outcomes -/

variable {source : Text} {α β : Type}

/-- What an outcome of a run from `s` has to satisfy. -/
def Ends (source : Text) (s : ParseState) (Q : α → List Token → Prop) :
    EStateM.Result (Halt Fault) ParseState α → Prop
  | .ok a s' => s'.lexer.Current source ∧ Keeps s s' ∧
      ∃ ts, s'.lexer.consumed = s.lexer.consumed ++ ts ∧ Q a ts
  | .error _ s' => Keeps s s'

/-- One computation after another, of which the first was begun at `s₁`. -/
theorem Ends.bind {s s₁ : ParseState} {m : ParseM α} {k : α → ParseM β}
    {P : α → List Token → Prop} {Q : β → List Token → Prop} (hkeeps : Keeps s s₁)
    (h : Ends source s₁ P (m s₁))
    (hk : ∀ a s₂ ts, s₂.lexer.Current source → Keeps s s₂ →
      s₂.lexer.consumed = s₁.lexer.consumed ++ ts → P a ts → Ends source s Q (k a s₂)) :
    Ends source s Q ((m >>= k) s₁) := by
  cases hrun : m s₁ with
  | error e s₂ =>
    rw [hrun] at h
    rw [bind_of_error hrun]
    exact hkeeps.trans h
  | ok a s₂ =>
    rw [hrun] at h
    obtain ⟨hcurrent, hkeeps₂, ts, hts, hP⟩ := h
    rw [bind_of_ok hrun]
    exact hk a s₂ ts hcurrent (hkeeps.trans hkeeps₂) hts hP

/-- A state whose lexer reads `source` under the rules in force. -/
def ParseState.Reading (source : Text) (s : ParseState) : Prop := s.lexer.Current source

/-- A run from one state. -/
def Goes (source : Text) (s : ParseState) (act : ParseM Unit → ParseM α)
    (Q : α → List Token → Nat → Prop) : Prop :=
  ∃ levels, Peaks act s (s.depth + levels) (·.Reading source) (Keeps s) ∧
    Ends source s (fun a ts => Q a ts levels) (act unlimited s)

/-- Every run in a context. -/
def Runs (source : Text) (c : Context) (act : ParseM Unit → ParseM α)
    (Q : α → List Token → Nat → Prop) : Prop :=
  ∀ s : ParseState, s.lexer.Current source → s.context = c → Goes source s act Q

/-- What a run that yields something has to satisfy, where one that yields nothing reads
nothing. -/
def OrNothing (P : α → List Token → Nat → Prop) : Option α → List Token → Nat → Prop
  | none, ts, n => ts = [] ∧ n = 0
  | some a, ts, n => P a ts n

/-- Every run in a context with a token at the cursor. -/
def RunsAt (source : Text) (c : Context) (t : Token) (act : ParseM Unit → ParseM α)
    (Q : α → List Token → Nat → Prop) : Prop :=
  ∀ s : ParseState, s.lexer.Current source → s.context = c → (∃ rest, s.lexer.ahead = t :: rest) →
    Goes source s act Q

theorem Goes.bind {s : ParseState} {act : ParseM Unit → ParseM α} {k : α → ParseM Unit → ParseM β}
    {P : α → List Token → Nat → Prop} {Q : β → List Token → Nat → Prop} (h : Goes source s act P)
    (hk : ∀ a ts n s', act unlimited s = .ok a s' → s'.lexer.Current source → Keeps s s' → P a ts n →
      Goes source s' (k a) fun b us m => Q b (ts ++ us) (max n m)) :
    Goes source s (fun d => act d >>= fun a => k a d) Q := by
  obtain ⟨n, hpeak, hends⟩ := h
  cases hrun : act unlimited s with
  | error e s' =>
    rw [hrun] at hends
    refine ⟨n, hpeak.bind_error hrun, ?_⟩
    show Ends source s _ ((act unlimited >>= fun a => k a unlimited) s)
    rw [bind_of_error hrun]
    exact hends
  | ok a s' =>
    rw [hrun] at hends
    obtain ⟨hcurrent, hkeeps, ts, hts, hP⟩ := hends
    obtain ⟨m, hpeak', hends'⟩ := hk a ts n s' hrun hcurrent hkeeps hP
    have hdepth := hkeeps.depth
    refine ⟨max n m, ?_, ?_⟩
    · have hle : s'.depth ≤ s.depth + n := by omega
      have hboth := hpeak.bind hrun hle (hpeak'.mono fun _ h => hkeeps.trans h)
      have hmax : max (s.depth + n) (s'.depth + m) = s.depth + max n m := by omega
      rwa [hmax] at hboth
    · show Ends source s _ ((act unlimited >>= fun a => k a unlimited) s)
      rw [bind_of_ok hrun]
      cases hrun' : k a unlimited s' with
      | error e s'' =>
        rw [hrun'] at hends'
        exact hkeeps.trans hends'
      | ok b s'' =>
        rw [hrun'] at hends'
        obtain ⟨hcurrent', hkeeps', us, hus, hQ⟩ := hends'
        refine ⟨hcurrent', hkeeps.trans hkeeps', ts ++ us, ?_, hQ⟩
        rw [hus, hts, List.append_assoc]

/-- Only what a computation does from `s` matters. -/
theorem Goes.congr {s : ParseState} {act act' : ParseM Unit → ParseM α}
    {Q : α → List Token → Nat → Prop} (h : Goes source s act Q)
    (heq : ∀ d, act' d s = act d s) : Goes source s act' Q := by
  obtain ⟨n, hpeak, hends⟩ := h
  exact ⟨n, hpeak.congr heq, by rwa [heq]⟩

/-- A computation that opens no level. -/
theorem Goes.const {s : ParseState} {m : ParseM α} {Q : α → List Token → Nat → Prop}
    (h : Ends source s (fun a ts => Q a ts 0) (m s)) : Goes source s (fun _ => m) Q :=
  ⟨0, Peaks.const m s _ _, h⟩

/-! ### Sequences -/

namespace Runs
variable {c : Context} {act : ParseM Unit → ParseM α} {k : α → ParseM Unit → ParseM β}
  {P Q : α → List Token → Nat → Prop} {R : β → List Token → Nat → Prop}

theorem pure {a : α} (h : Q a [] 0) : Runs source c (fun _ => Pure.pure a) Q := by
  intro s hs _
  exact Goes.const ⟨hs, .refl s, [], (List.append_nil _).symm, h⟩

theorem bind (h : Runs source c act P)
    (hk : ∀ a ts n, P a ts n → Runs source c (k a) fun b us m => R b (ts ++ us) (max n m)) :
    Runs source c (fun d => act d >>= fun a => k a d) R := by
  intro s hs hc
  refine (h s hs hc).bind fun a ts n s' _ hs' hkeeps hP => ?_
  exact hk a ts n hP s' hs' (hkeeps.context.trans hc)

/-- A last step that only names the result. -/
theorem map {f : α → β} (h : Runs source c act fun a ts n => R (f a) ts n) :
    Runs source c (fun d => act d >>= fun a => Pure.pure (f a)) R := by
  refine h.bind fun a ts n ha => pure ?_
  rw [List.append_nil, Nat.max_zero]
  exact ha

theorem mono (h : Runs source c act P) (hPQ : ∀ a ts n, P a ts n → Q a ts n) :
    Runs source c act Q := by
  intro s hs hc
  obtain ⟨n, hpeak, hends⟩ := h s hs hc
  refine ⟨n, hpeak, ?_⟩
  cases hrun : act unlimited s with
  | error e s' =>
    rw [hrun] at hends
    exact hends
  | ok a s' =>
    rw [hrun] at hends
    obtain ⟨hcurrent, hkeeps, ts, hts, hP⟩ := hends
    exact ⟨hcurrent, hkeeps, ts, hts, hPQ a ts n hP⟩

theorem breached (b : Breach) : Runs source c (fun _ => ShellGrammar.breached b) Q := by
  intro s _ _
  exact Goes.const (.refl s)

end Runs

/-! ### Reading -/

/-- A run of the lexer, by its outcome. -/
theorem lexing_eq (act : LexM α) (s : ParseState) :
    lexing act s =
      match act s.lexer with
      | .ok a l => .ok a { s with lexer := l }
      | .error e l => .error (e.map .ofLexFault) { s with lexer := l } := by
  cases h : act s.lexer <;> simp only [lexing, h]

/-- Blank is allowed as the context has it. -/
theorem accept_eq_acceptWith {s : ParseState} {c : Context} (hc : s.context = c)
    {pattern : Pattern} {kind : Kind} :
    ParseM.accept pattern kind s =
      lexing (LexM.acceptWith pattern kind c.mode.allowBlank) s := by
  subst hc
  rw [ParseM.accept, lexing_eq, LexM.accept_eq, ← lexing_eq]
  rfl

/-- After a look at the token at the cursor. -/
theorem Looked.keeps {s : ParseState} {t : Token} {l : Lexer}
    (h : LexM.Looked source s.lexer t l) : Keeps s { s with lexer := l } :=
  ⟨h.modes, rfl, rfl⟩

/-- A token that is visible at the cursor can be read. -/
theorem Looked.sees {s : ParseState} {t : Token} {l : Lexer}
    (h : LexM.Looked source s.lexer t l) (hs : s.lexer.Current source) {kinds : List Kind}
    (adjacent : Bool)
    (hv : t.isVisible kinds (!adjacent && s.lexer.mode.allowBlank) = true) :
    s.context.Sees adjacent t ∧ (kinds = [] ∨ t.kind ∈ kinds) := by
  obtain ⟨rest, ha⟩ := h.ahead
  have hfresh := (h.fresh hs).fresh t (by rw [ha]; exact List.mem_cons_self)
  rw [h.mode] at hfresh
  rw [Token.isVisible, Bool.and_eq_true, Bool.or_eq_true, List.isEmpty_iff,
    List.contains_iff_mem] at hv
  exact ⟨⟨hfresh, hv.2⟩, hv.1⟩

/-- A reader takes one token of those it looks for, or none and leaves the rest to others. -/
def TakesOne (source : Text) (c : Context) (act : ParseM (Option Token))
    (Found : Token → Prop) : Prop :=
  ∀ s : ParseState, s.lexer.Current source → s.context = c →
    Ends source s (fun o ts => ts = o.toList ∧ ∀ t, o = some t → Found t) (act s)

namespace TakesOne
variable {c : Context} {act : ParseM (Option Token)} {Found : Token → Prop}
  {k : Option Token → ParseM Unit → ParseM β} {R : β → List Token → Nat → Prop}

theorem next (kinds : List Kind) : TakesOne source c (ParseM.next kinds) (c.Finds kinds) := by
  intro s hs hc
  rw [ParseM.next, lexing_eq, LexM.next_eq]
  obtain ⟨t, l, hok, hl⟩ | ⟨f, herr, _⟩ := LexM.peekAny_cases hs.toTiled
  · rw [hok]
    obtain ⟨rest, ha⟩ := hl.ahead
    have hcurrent := hl.fresh hs
    by_cases hv : t.isVisible kinds l.mode.allowBlank = true
    · simp only [hv, if_true]
      rw [hl.mode] at hv
      obtain ⟨hreads, hkind⟩ := Looked.sees hl hs false hv
      rw [hc] at hreads
      refine ⟨hcurrent.consume ha, ⟨hl.modes, rfl, rfl⟩, [t], ?_, rfl, ?_⟩
      · show l.consume.consumed = s.lexer.consumed ++ [t]
        rw [Lexer.consumed_consume ha, hl.consumed]
      · intro u hu
        cases hu
        exact ⟨hreads, hkind⟩
    · simp only [hv]
      refine ⟨hcurrent, Looked.keeps hl, [], ?_, rfl, fun _ h => nomatch h⟩
      rw [List.append_nil]
      exact hl.consumed
  · rw [herr]
    exact .refl s

theorem acceptWith (pattern : Pattern) (kind : Kind) (allowBlank : Bool) :
    TakesOne source c (lexing (LexM.acceptWith pattern kind allowBlank))
      (c.Takes pattern kind allowBlank) := by
  intro s hs hc
  subst hc
  rw [lexing_eq]
  obtain ⟨hno, _⟩ | ⟨t, l, hyes, htakes, htiled, hconsumed, hmodes, ha⟩ :=
    LexM.acceptWith_cases hs.toTiled pattern kind allowBlank
  · rw [hno]
    refine ⟨hs.toTiled.discard.current (Lexer.ahead_discard _), ⟨Lexer.modes_discard _, rfl, rfl⟩,
      [], ?_, rfl, fun _ h => nomatch h⟩
    rw [List.append_nil]
    exact Lexer.consumed_discard _
  · rw [hyes]
    refine ⟨htiled.current ha, ⟨hmodes, rfl, rfl⟩, [t], hconsumed, rfl, ?_⟩
    intro u hu
    cases hu
    show s.lexer.mode.rules.takeAt pattern kind allowBlank t.origin = some t
    rw [(Rules.takeAt_fits htakes).1]
    exact htakes

theorem accept (pattern : Pattern) (kind : Kind) :
    TakesOne source c (ParseM.accept pattern kind) (c.Accepts pattern kind) := by
  intro s hs hc
  rw [accept_eq_acceptWith hc]
  exact acceptWith pattern kind _ s hs hc

theorem bind (h : TakesOne source c act Found)
    (hk : ∀ o, (∀ t, o = some t → Found t) →
      Runs source c (k o) fun b us m => R b (o.toList ++ us) m) :
    Runs source c (fun d => act >>= fun o => k o d) R := by
  have hruns : Runs source c (fun _ => act) fun o ts n =>
      n = 0 ∧ ts = o.toList ∧ ∀ t, o = some t → Found t := by
    intro s hs hc
    apply Goes.const
    simpa only [true_and] using h s hs hc
  refine hruns.bind fun o ts n ho => ?_
  obtain ⟨rfl, rfl, hfound⟩ := ho
  simpa only [Nat.zero_max] using hk o hfound

/-- A reader, after which a run goes on with a token or without one. -/
theorem cases (h : TakesOne source c act Found) (hnone : Runs source c (k none) R)
    (hsome : ∀ t, Found t → Runs source c (k (some t)) fun b us m => R b (t :: us) m) :
    Runs source c (fun d => act >>= fun o => k o d) R := by
  refine h.bind fun o ho => ?_
  cases o with
  | none => exact hnone
  | some t => exact hsome t (ho t rfl)

end TakesOne

/-- Failing yields nothing. -/
theorem Runs.fail {c : Context} {expected : Expected} {Q : α → List Token → Nat → Prop} :
    Runs source c (fun _ => ParseM.fail expected) Q := by
  intro s hs hc
  apply Goes.const
  obtain ⟨t, l, hok, hl⟩ | ⟨f, herr, _⟩ := LexM.peekAny_cases hs.toTiled
  · have hpeek : ParseM.peekAny s = .ok t { s with lexer := l } := by
      rw [ParseM.peekAny, lexing_eq, hok]
    rw [ParseM.fail, bind_of_ok hpeek]
    exact Looked.keeps hl
  · have hpeek : ParseM.peekAny s = .error (.fault (.ofLexFault f)) s := by
      rw [ParseM.peekAny, lexing_eq, herr]
      rfl
    rw [ParseM.fail, bind_of_error hpeek]
    exact .refl s

theorem Runs.fail_bind {c : Context} {expected : Expected} {k : α → ParseM Unit → ParseM β}
    {R : β → List Token → Nat → Prop} :
    Runs source c (fun d => ParseM.fail expected >>= fun a => k a d) R :=
  Runs.bind (Runs.fail (Q := fun _ _ _ => False)) fun _ _ _ h => h.elim

/-- A reader that has to take a token. -/
theorem TakesOne.orFail {c : Context} {act : ParseM (Option Token)} {Found : Token → Prop}
    {expected : Expected} {k : ParseM Unit → ParseM β} {R : β → List Token → Nat → Prop}
    (h : TakesOne source c act Found)
    (hk : ∀ t, Found t → Runs source c k fun b us m => R b (t :: us) m) :
    Runs source c
      (fun d => act >>= fun o =>
        if o.isNone = true then ParseM.fail expected >>= fun _ : PUnit => k d else k d) R := by
  exact h.cases Runs.fail_bind hk

/-! ### A token that was looked at -/

theorem Runs.at {c : Context} {t : Token} {act : ParseM Unit → ParseM α}
    {Q : α → List Token → Nat → Prop} (h : Runs source c act Q) : RunsAt source c t act Q :=
  fun s hs hc _ => h s hs hc

theorem look_eq {s : ParseState} (hs : s.lexer.Tiled source) (adjacent : Bool)
    (kinds : List Kind) :
    look adjacent kinds s =
      match LexM.peekAny s.lexer with
      | .ok t l => .ok
          (if t.isVisible kinds (!adjacent && s.lexer.mode.allowBlank) then some t else none)
          { s with lexer := l }
      | .error e l => .error (e.map .ofLexFault) { s with lexer := l } := by
  obtain ⟨t, l, hok, hl⟩ | ⟨f, herr, _⟩ := LexM.peekAny_cases hs
  · cases adjacent
    · show lexing (LexM.peek kinds) s = _
      simp only [lexing_eq, LexM.peek_eq, hok, hl.mode, Bool.not_false, Bool.true_and]
    · show lexing (LexM.peekAdjacent kinds) s = _
      simp only [lexing_eq, LexM.peekAdjacent_eq, hok, Bool.not_true, Bool.false_and]
  · cases adjacent
    · show lexing (LexM.peek kinds) s = _
      simp only [lexing_eq, LexM.peek_eq, herr]
    · show lexing (LexM.peekAdjacent kinds) s = _
      simp only [lexing_eq, LexM.peekAdjacent_eq, herr]

/-- Looking reads nothing. -/
theorem ends_look {s : ParseState} (hs : s.lexer.Current source) (adjacent : Bool)
    (kinds : List Kind) : Ends source s (fun _ ts => ts = []) (look adjacent kinds s) := by
  rw [look_eq hs.toTiled]
  obtain ⟨t, l, hok, hl⟩ | ⟨f, herr, _⟩ := LexM.peekAny_cases hs.toTiled
  · rw [hok]
    exact ⟨hl.fresh hs, Looked.keeps hl, [], by rw [List.append_nil]; exact hl.consumed, rfl⟩
  · rw [herr]
    exact .refl s

/-- Taking the token at the cursor, whatever its kind. -/
theorem next_of_sees {s : ParseState} {adjacent : Bool} {t : Token}
    (ht : s.context.Sees adjacent t) (ha : ∃ rest, s.lexer.ahead = t :: rest) :
    ParseM.next [] s = .ok (some t) { s with lexer := s.lexer.consume } := by
  obtain ⟨rest, ha⟩ := ha
  have hv : t.isVisible [] s.lexer.mode.allowBlank = true := by
    have hvisible : (!adjacent && s.lexer.mode.allowBlank || t.isAdjacent) = true := ht.visible
    rw [Token.isVisible, List.isEmpty_nil, Bool.true_or, Bool.true_and]
    rw [Bool.or_eq_true, Bool.and_eq_true] at hvisible
    rcases hvisible with ⟨_, h⟩ | h
    · rw [h, Bool.true_or]
    · rw [h, Bool.or_true]
  simp only [ParseM.next, lexing_eq, LexM.next_eq, LexM.peekAny_of_ahead ha, hv, if_true]

/-- Stepping back over the one token that was consumed since `s`. -/
theorem ends_back {s s' : ParseState} {adjacent : Bool} {t : Token} {a : α}
    {Q : α → List Token → Prop} (hs' : s'.lexer.Current source) (hkeeps : Keeps s s')
    (hconsumed : s'.lexer.consumed = s.lexer.consumed ++ [t]) (ht : s.context.Sees adjacent t)
    (h : Q a []) : Ends source s Q ((ParseM.back >>= fun _ => Pure.pure a) s') := by
  have hlexed : s'.lexer.mode.rules.tokenAt t.origin = .ok t := by
    rw [Lexer.mode, hkeeps.modes]
    exact ht.lexed
  obtain ⟨l, hback, hl, hfront, hmodes⟩ := LexM.back_of_consumed hs' hconsumed hlexed
  have hrun : ParseM.back s' = .ok () { s' with lexer := l } := by
    rw [ParseM.back, lexing_eq, hback]
  rw [bind_of_ok hrun]
  exact ⟨hl, hkeeps.trans ⟨hmodes, rfl, rfl⟩, [], hfront.trans (List.append_nil _).symm, h⟩

namespace Runs
variable {c : Context} {k : Option Token → ParseM Unit → ParseM β} {Q : β → List Token → Nat → Prop}

/-- A look at the next token, after which a run goes on with the token at the cursor, or
without one. -/
theorem look_bind (adjacent : Bool) {kinds : List Kind} (hnone : Runs source c (k none) Q)
    (hsome : ∀ t, c.Sees adjacent t → (kinds = [] ∨ t.kind ∈ kinds) →
      RunsAt source c t (k (some t)) Q) :
    Runs source c (fun d => look adjacent kinds >>= fun o => k o d) Q := by
  intro s hs hc
  have hlook : Goes source s (fun _ => look adjacent kinds) fun _ ts n => ts = [] ∧ n = 0 := by
    apply Goes.const
    simpa only [and_true] using ends_look hs adjacent kinds
  refine hlook.bind fun o ts n s' hrun hs' hkeeps hn => ?_
  obtain ⟨rfl, rfl⟩ := hn
  simp only [List.nil_append, Nat.zero_max]
  have hc' := hkeeps.context.trans hc
  obtain ⟨t, l, hok, hl⟩ | ⟨f, herr, _⟩ := LexM.peekAny_cases hs.toTiled
  · simp only [look_eq hs.toTiled, hok] at hrun
    by_cases hv : t.isVisible kinds (!adjacent && s.lexer.mode.allowBlank) = true
    · simp only [hv, if_true, EStateM.Result.ok.injEq] at hrun
      obtain ⟨rfl, rfl⟩ := hrun
      obtain ⟨hsees, hkind⟩ := Looked.sees hl hs adjacent hv
      rw [hc] at hsees
      exact hsome t hsees hkind _ hs' hc' hl.ahead
    · simp only [hv, EStateM.Result.ok.injEq] at hrun
      obtain ⟨rfl, rfl⟩ := hrun
      exact hnone _ hs' hc'
  · simp only [look_eq hs.toTiled, herr] at hrun
    cases hrun

/-- Taking the token at the cursor, whatever its kind. -/
theorem next_bind_at {adjacent : Bool} {t : Token} (ht : c.Sees adjacent t)
    (h : Runs source c (k (some t)) fun b us m => Q b (t :: us) m) :
    RunsAt source c t (fun d => ParseM.next [] >>= fun o => k o d) Q := by
  intro s hs hc ha
  subst hc
  have hgoes : Goes source s (fun _ => ParseM.next []) fun o ts n => o = some t ∧ ts = [t] ∧ n = 0 := by
    apply Goes.const
    rw [next_of_sees ht ha]
    obtain ⟨rest, ha⟩ := ha
    exact ⟨hs.consume ha, ⟨rfl, rfl, rfl⟩, [t], Lexer.consumed_consume ha, rfl, rfl, rfl⟩
  refine hgoes.bind fun o ts n s' _ hs' hkeeps hn => ?_
  obtain ⟨rfl, rfl, rfl⟩ := hn
  simp only [List.singleton_append, Nat.zero_max]
  exact h s' hs' hkeeps.context

end Runs

end ShellGrammar
