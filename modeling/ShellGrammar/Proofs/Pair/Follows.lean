import ShellGrammar.Proofs.Grammar.Cursor
import ShellGrammar.Proofs.Grammar.Nesting
import ShellGrammar.Proofs.Pair.Scan

/-! Two computations side by side.

`Follows σ c closed D room ate act act'` compares runs of `act` on the left of a pair with
runs of `act'` on its right, begun in the context `c` at places that stand side by side:

- the left run puts back what it changes of the context, and of the levels if `closed`,
  and goes forward only, by at least `ate a` characters if it yields `a`;
- if it yields `a`, so does the right run, and they end side by side; unless the pair has
  a tail and the left run ended in a place that `D a` calls hopeless;
- if it ends with a fault and the pair has no tail, the right run ends with the same
  fault, further on;
- it ends with a breach only if there were `room` characters left or more.

The right run may be given more steps and more levels than the left one. So one lemma for
each way of putting computations together, and one for each production, says at once that
productions break no promise, that they do not depend on how many steps they are given,
and that they do not depend on where in a text they run. -/
namespace ShellGrammar
open ParseM

/-- What is fixed about the pairs that are compared. -/
structure Setting where
  /-- Whether only pairs without a tail are compared. -/
  exact : Bool
  /-- How many levels both sides may open; zero is any number. -/
  limit : Nat

/-- A pair that is among those compared. -/
def Setting.Admits (σ : Setting) (P : Pair) : Prop := σ.exact = true → P.tail = []

/-! ### States -/

/-- The setting is as it was; the levels are too, if `closed`. -/
structure Holds (closed : Bool) (s s' : ParseState) : Prop where
  modes : s'.lexer.modes = s.lexer.modes
  inBackquote : s'.inBackquote = s.inBackquote
  depth : closed = true → s'.depth = s.depth

namespace Holds
variable {closed : Bool} {s s' s'' : ParseState}

theorem refl (s : ParseState) : Holds closed s s := ⟨rfl, rfl, fun _ => rfl⟩

theorem trans (h : Holds closed s s') (h' : Holds closed s' s'') : Holds closed s s'' :=
  ⟨h'.modes.trans h.modes, h'.inBackquote.trans h.inBackquote,
    fun hc => (h'.depth hc).trans (h.depth hc)⟩

theorem context (h : Holds closed s s') : s'.context = s.context := by
  simp only [ParseState.context, Lexer.mode, h.modes, h.inBackquote]

end Holds

theorem Keeps.holds {closed : Bool} {s s' : ParseState} (h : Keeps s s') : Holds closed s s' :=
  ⟨h.modes, h.inBackquote, fun _ => h.depth⟩

theorem Holds.opened {closed : Bool} {s s' : ParseState} (h : Holds closed s s') :
    Holds false s s' :=
  ⟨h.modes, h.inBackquote, nofun⟩

/-- From `s` the parser has gone forward by at least `ate` characters. -/
structure Advances (source : Text) (closed : Bool) (ate : Nat) (s s' : ParseState) : Prop where
  current : s'.lexer.Current source
  holds : Holds closed s s'
  suffix : s'.here.rest <:+ s.here.rest
  ate_le : s'.left + ate ≤ s.left

namespace Advances
variable {source : Text} {closed : Bool} {m n : Nat} {s s' s'' : ParseState} {t : Token}

theorem mono (h : Advances source closed n s s') (hm : m ≤ n) : Advances source closed m s s' :=
  ⟨h.current, h.holds, h.suffix, by have := h.ate_le; omega⟩

theorem trans (h : Advances source closed m s s') (h' : Advances source closed n s' s'') :
    Advances source closed (m + n) s s'' := by
  refine ⟨h'.current, h.holds.trans h'.holds, h'.suffix.trans h.suffix, ?_⟩
  have := h.ate_le
  have := h'.ate_le
  omega

theorem ofNil (hs : s.lexer.Current source) (h : Reaches source s [] s') :
    Advances source closed 0 s s' := by
  have hhere := h.here_nil hs
  refine ⟨h.current, h.keeps.holds, ?_, ?_⟩
  · exact hhere ▸ List.suffix_refl _
  · rw [ParseState.left, hhere]
    exact Nat.le_refl _

/-- Past a token. -/
theorem ofOne (ho : t.origin = s.here) (hf : t.Fits) (h : Reaches source s [t] s') :
    Advances source closed t.body.length s s' := by
  have hhere := h.here_one
  have hrest := Token.rest_origin hf
  rw [ho, Token.text, List.append_assoc] at hrest
  refine ⟨h.current, h.keeps.holds, ?_, ?_⟩
  · rw [hhere, hrest, ← List.append_assoc]
    exact List.suffix_append _ _
  · rw [ParseState.left, ParseState.left, hhere, hrest, List.length_append, List.length_append]
    omega

end Advances

namespace Pair
variable {P : Pair} {limit : Nat} {s s' s₁ s₁' : ParseState} {t t' : Token}

/-- Two states that stand side by side in the same context. -/
structure InStep (P : Pair) (limit : Nat) (s s' : ParseState) : Prop where
  left : s.lexer.Current P.left
  right : s'.lexer.Current P.right
  context : s'.context = s.context
  depth : limit ≠ 0 → s'.depth = s.depth
  beside : P.Beside s.here s'.here

theorem inStep_same {source : Text} (hs : s.lexer.Current source) : (same source).InStep limit s s :=
  ⟨hs, hs, rfl, fun _ => rfl, beside_same source _⟩

theorem InStep.rules (h : P.InStep limit s s') : s'.rules = s.rules :=
  congrArg (fun c : Context => c.mode.rules) h.context

theorem InStep.allowBlank (h : P.InStep limit s s') :
    s'.lexer.mode.allowBlank = s.lexer.mode.allowBlank :=
  congrArg (fun c : Context => c.mode.allowBlank) h.context

/-- Both sides have moved within their contexts to places side by side. -/
theorem InStep.move (h : P.InStep limit s s') (hs : s₁.lexer.Current P.left)
    (hs' : s₁'.lexer.Current P.right) (hkeeps : Keeps s s₁) (hkeeps' : Keeps s' s₁')
    (hbeside : P.Beside s₁.here s₁'.here) : P.InStep limit s₁ s₁' := by
  refine ⟨hs, hs', ?_, fun hl => ?_, hbeside⟩
  · rw [hkeeps'.context, hkeeps.context, h.context]
  · rw [hkeeps'.depth, hkeeps.depth, h.depth hl]

theorem InStep.stay (h : P.InStep limit s s') (hs : Reaches P.left s [] s₁)
    (hs' : Reaches P.right s' [] s₁') : P.InStep limit s₁ s₁' := by
  refine h.move hs.current hs'.current hs.keeps hs'.keeps ?_
  rw [hs.here_nil h.left, hs'.here_nil h.right]
  exact h.beside

theorem InStep.pass (h : P.InStep limit s s') (ht : P.Twin t t') (hf : t.Fits)
    (hs : Reaches P.left s [t] s₁) (hs' : Reaches P.right s' [t'] s₁') : P.InStep limit s₁ s₁' := by
  refine h.move hs.current hs'.current hs.keeps hs'.keeps ?_
  rw [hs.here_one, hs'.here_one]
  exact ht.after hf

end Pair

/-! ### Outcomes -/

variable {σ : Setting} {c : Context} {closed : Bool} {α β : Type}

/-- The outcome of the left run from `s`, compared with that of the right run from `s'`. -/
def Tracks (P : Pair) (limit : Nat) (closed : Bool) (D : α → Scan → Prop) (room : Nat)
    (ate : α → Nat) (s s' : ParseState) :
    EStateM.Result (Halt Fault) ParseState α → EStateM.Result (Halt Fault) ParseState α → Prop
  | .ok a s₁, outcome => Advances P.left closed (ate a) s s₁ ∧
      ((∃ s₁', outcome = .ok a s₁' ∧ Holds closed s' s₁' ∧ P.InStep limit s₁ s₁') ∨
        (P.tail ≠ [] ∧ D a s₁.here))
  | .error (.fault f) s₁, outcome => Holds closed s s₁ ∧
      (P.tail = [] → ∃ s₁',
        outcome = .error (.fault (f.shift P.bytes P.lines)) s₁' ∧ Holds closed s' s₁')
  | .error (.breach _) s₁, _ => Holds closed s s₁ ∧ room ≤ s.left

/-- The left computation is followed by the right one. -/
def Follows (σ : Setting) (c : Context) (closed : Bool) (D : α → Scan → Prop) (room : Nat)
    (ate : α → Nat) (act act' : ParseM α) : Prop :=
  ∀ P : Pair, σ.Admits P → ∀ s s', P.InStep σ.limit s s' → s.context = c →
    Tracks P σ.limit closed D room ate s s' (act s) (act' s')

/-- The places in a context from which nothing can be closed. -/
def Context.Spent (c : Context) : Scan → Prop := c.mode.rules.Spent

/-- The places in a context from which no run ends well. -/
def Context.Lost (c : Context) : Scan → Prop := c.mode.rules.Lost

theorem Context.Lost.spent {c : Context} (hc : c.mode.rules ≠ .command) {place : Scan}
    (h : c.Lost place) : c.Spent place :=
  h.resolve_right fun hstuck => hc hstuck.1

/-- The left computation is followed by the right one, unless it has read too far. -/
abbrev Paces (σ : Setting) (c : Context) (room : Nat) (ate : α → Nat) (act act' : ParseM α) : Prop :=
  Follows σ c true (fun _ => c.Spent) room ate act act'

/-- What a run begun in a hopeless place comes to, if it ends well at all. -/
def Lapses (c : Context) (X : Scan → Prop) (D : α → Scan → Prop) (act : ParseM α) : Prop :=
  ∀ source s, s.lexer.Current source → s.context = c → X s.here →
    ∀ a s₁, act s = .ok a s₁ → D a s₁.here

/-! ### Sequences -/

namespace Tracks
variable {P : Pair} {limit : Nat} {D : α → Scan → Prop} {D' : β → Scan → Prop} {room : Nat}
  {ate : α → Nat} {ate' : β → Nat} {s s' s₁ s₁' : ParseState}

/-- A run after both sides have gone forward. -/
theorem after {r r' : EStateM.Result (Halt Fault) ParseState β} {n : Nat}
    (hs : Advances P.left closed n s s₁) (hs' : Holds closed s' s₁')
    (h : Tracks P limit closed D' (room - n) (fun b => ate' b - n) s₁ s₁' r r') :
    Tracks P limit closed D' room ate' s s' r r' := by
  cases r with
  | ok b s₂ =>
    obtain ⟨hadvances, hright⟩ := h
    have hate : ate' b ≤ n + (ate' b - n) := by omega
    refine ⟨(hs.trans hadvances).mono hate, ?_⟩
    obtain ⟨s₂', hok, hholds, hstep⟩ | hlost := hright
    · exact .inl ⟨s₂', hok, hs'.trans hholds, hstep⟩
    · exact .inr hlost
  | error e s₂ =>
    cases e with
    | fault f =>
      refine ⟨hs.holds.trans h.1, fun htail => ?_⟩
      obtain ⟨s₂', herr, hholds⟩ := h.2 htail
      exact ⟨s₂', herr, hs'.trans hholds⟩
    | breach b =>
      have hroom : room - n ≤ s₁.left := h.2
      have := hs.ate_le
      refine ⟨hs.holds.trans h.1, ?_⟩
      omega

/-- A run after the left side has come to a hopeless place: of the run of the left side
beside itself only what it says about that side is used. -/
theorem afterLost {D₁ : β → Scan → Prop} {m : ParseM β}
    {r r' : EStateM.Result (Halt Fault) ParseState β} {n : Nat}
    (hs : Advances P.left closed n s s₁) (htail : P.tail ≠ [])
    (h : Tracks (.same P.left) limit closed D₁ (room - n) (fun b => ate' b - n) s₁ s₁ (m s₁) r')
    (hlost : ∀ b s₂, m s₁ = .ok b s₂ → D' b s₂.here) :
    Tracks P limit closed D' room ate' s s' (m s₁) r := by
  cases hrun : m s₁ with
  | ok b s₂ =>
    rw [hrun] at h
    have hate : ate' b ≤ n + (ate' b - n) := by omega
    exact ⟨(hs.trans h.1).mono hate, .inr ⟨htail, hlost b s₂ hrun⟩⟩
  | error e s₂ =>
    rw [hrun] at h
    cases e with
    | fault f => exact ⟨hs.holds.trans h.1, fun hnil => absurd hnil htail⟩
    | breach b =>
      have hroom : room - n ≤ s₁.left := h.2
      have := hs.ate_le
      refine ⟨hs.holds.trans h.1, ?_⟩
      omega

end Tracks

theorem Setting.admits_same (σ : Setting) (source : Text) : σ.Admits (.same source) := fun _ => rfl

namespace Follows
variable {D : α → Scan → Prop} {D' : β → Scan → Prop} {room : Nat} {ate : α → Nat}
  {ate' : β → Nat} {act act' : ParseM α} {k k' : α → ParseM β}

theorem pure {a : α} (h : ate a = 0) :
    Follows σ c closed D room ate (Pure.pure a) (Pure.pure a) := by
  intro P _ s s' hs _
  refine ⟨⟨hs.left, .refl s, List.suffix_refl _, ?_⟩, .inl ⟨s', rfl, .refl s', hs⟩⟩
  rw [h]
  exact Nat.le_refl _

/-- One computation after another. What the second makes of a hopeless place that the
first has come to is asked for apart. -/
theorem bind (h : Follows σ c closed D room ate act act')
    (hk : ∀ a, Follows σ c closed D' (room - ate a) (fun b => ate' b - ate a) (k a) (k' a))
    (hlost : ∀ a, Lapses c (D a) D' (k a)) :
    Follows σ c closed D' room ate' (act >>= k) (act' >>= k') := by
  intro P hP s s' hs hc
  have hfirst := h P hP s s' hs hc
  cases hrun : act s with
  | error e s₁ =>
    rw [hrun] at hfirst
    rw [bind_of_error hrun]
    cases e with
    | breach b => exact hfirst
    | fault f =>
      refine ⟨hfirst.1, fun htail => ?_⟩
      obtain ⟨s₁', herr, hholds⟩ := hfirst.2 htail
      exact ⟨s₁', bind_of_error herr, hholds⟩
  | ok a s₁ =>
    rw [hrun] at hfirst
    rw [bind_of_ok hrun]
    obtain ⟨hadvances, ⟨s₁', hok, hholds, hstep⟩ | ⟨htail, hd⟩⟩ := hfirst
    · rw [bind_of_ok hok]
      exact .after hadvances hholds
        (hk a P hP s₁ s₁' hstep (hadvances.holds.context.trans hc))
    · have hc₁ := hadvances.holds.context.trans hc
      exact .afterLost hadvances htail
        (hk a (.same P.left) (σ.admits_same _) s₁ s₁ (Pair.inStep_same hadvances.current) hc₁)
        (hlost a P.left s₁ hadvances.current hc₁ hd)

theorem mono {D₁ : α → Scan → Prop} {room₁ : Nat} {ate₁ : α → Nat}
    (h : Follows σ c closed D room ate act act') (hD : ∀ a place, D a place → D₁ a place)
    (hroom : room₁ ≤ room) (hate : ∀ a, ate₁ a ≤ ate a) :
    Follows σ c closed D₁ room₁ ate₁ act act' := by
  intro P hP s s' hs hc
  have hrun := h P hP s s' hs hc
  cases hact : act s with
  | ok a s₁ =>
    rw [hact] at hrun
    refine ⟨hrun.1.mono (hate a), ?_⟩
    exact hrun.2.imp id fun ⟨htail, hd⟩ => ⟨htail, hD a _ hd⟩
  | error e s₁ =>
    rw [hact] at hrun
    cases e with
    | fault f => exact hrun
    | breach b => exact ⟨hrun.1, Nat.le_trans hroom hrun.2⟩

/-- Only what the computations do in the context matters. -/
theorem congr {act₁ act₁' : ParseM α} (h : Follows σ c closed D room ate act act')
    (heq : ∀ source s, s.lexer.Current source → s.context = c → act₁ s = act s)
    (heq' : ∀ source s, s.lexer.Current source → s.context = c → act₁' s = act' s) :
    Follows σ c closed D room ate act₁ act₁' := by
  intro P hP s s' hs hc
  rw [heq _ s hs.left hc, heq' _ s' hs.right (hs.context.trans hc)]
  exact h P hP s s' hs hc

/-- A run begun where too little is left ends there. -/
theorem lapses {D₁ : α → Scan → Prop} (h : Follows σ c closed D room ate act act')
    (hD₁ : ∀ a place, c.Spent place → D₁ a place) : Lapses c c.Spent D₁ act := by
  intro source s hs hc hspent a s₁ hrun
  have htracks := h (.same source) (σ.admits_same source) s s (Pair.inStep_same hs) hc
  rw [hrun] at htracks
  exact hD₁ a _ (hspent.of_suffix htracks.1.suffix)

end Follows

namespace Paces
variable {room : Nat} {ate : α → Nat} {ate' : β → Nat} {act act' : ParseM α} {k k' : α → ParseM β}

theorem bind (h : Paces σ c room ate act act')
    (hk : ∀ a, Paces σ c (room - ate a) (fun b => ate' b - ate a) (k a) (k' a)) :
    Paces σ c room ate' (act >>= k) (act' >>= k') :=
  Follows.bind h hk fun a => (hk a).lapses fun _ _ => id

end Paces

/-! ### Faults -/

/-- Both runs fail, the right one further on, and the setting is as it was. -/
def Fails (P : Pair) (s s' : ParseState)
    (r r' : EStateM.Result (Halt Fault) ParseState α) : Prop :=
  ∃ f s₁, r = .error (.fault f) s₁ ∧ Keeps s s₁ ∧
    (P.tail = [] → ∃ s₁', r' = .error (.fault (f.shift P.bytes P.lines)) s₁' ∧ Keeps s' s₁')

theorem Fails.tracks {P : Pair} {limit : Nat} {D : α → Scan → Prop} {room : Nat} {ate : α → Nat}
    {s s' : ParseState} {r r' : EStateM.Result (Halt Fault) ParseState α}
    (h : Fails P s s' r r') : Tracks P limit closed D room ate s s' r r' := by
  obtain ⟨f, s₁, rfl, hkeeps, hright⟩ := h
  refine ⟨hkeeps.holds, fun htail => ?_⟩
  obtain ⟨s₁', hr', hkeeps'⟩ := hright htail
  exact ⟨s₁', hr', hkeeps'.holds⟩

/-- A computation that fails is not gone on from. -/
theorem Fails.bind {P : Pair} {s s' : ParseState} {act act' : ParseM α} {k k' : α → ParseM β}
    (h : Fails P s s' (act s) (act' s')) : Fails P s s' ((act >>= k) s) ((act' >>= k') s') := by
  obtain ⟨f, s₁, hr, hkeeps, hright⟩ := h
  refine ⟨f, s₁, bind_of_error hr, hkeeps, fun htail => ?_⟩
  obtain ⟨s₁', hr', hkeeps'⟩ := hright htail
  exact ⟨s₁', bind_of_error hr', hkeeps'⟩

/-- Text that is at fault on the left is at fault on the right. -/
theorem Pair.InStep.fails_of_fault {P : Pair} {limit : Nat} {s s' : ParseState}
    (hs : P.InStep limit s s') {f : LexFault} (hf : s.tokenHere = .error f)
    {act act' : ParseM α} (hact : act s = .error (.fault (.ofLexFault f)) s)
    (hact' : ∀ f', s'.tokenHere = .error f' → act' s' = .error (.fault (.ofLexFault f')) s') :
    Fails P s s' (act s) (act' s') := by
  refine ⟨_, s, hact, .refl s, fun htail => ?_⟩
  obtain ⟨t, _, ht, _⟩ | ⟨g, hg, hg'⟩ := hs.beside.tokenAt_nil htail s.rules
  · rw [ParseState.tokenHere, ht] at hf
    cases hf
  · obtain rfl : f = g := Except.error.inj (hf.symm.trans hg)
    refine ⟨s', ?_, .refl s'⟩
    rw [Fault.shift_ofLexFault]
    apply hact'
    rw [ParseState.tokenHere, hs.rules]
    exact hg'

/-- A computation that fails at the token at the cursor, for a cause that depends on it. -/
def FailsHere (cause : Token → Bool → Cause) (act : ParseM α) : Prop :=
  ∀ s, act s =
    match ParseM.peekAny s with
    | .ok t s' => .error (.fault (.atToken (cause t s'.lexer.mode.allowBlank) t)) s'
    | .error e s' => .error e s'

theorem failsHere_fail (expected : Expected) :
    FailsHere (fun t allowBlank => .syntactic expected (refused t allowBlank))
      (ParseM.fail expected : ParseM α) := by
  intro s
  rw [ParseM.fail]
  cases hpeek : ParseM.peekAny s with
  | ok t s' =>
    rw [bind_of_ok hpeek]
    rfl
  | error e s' => rw [bind_of_error hpeek]

theorem failsHere_tooDeep (limit : Nat) : FailsHere (fun _ _ => .tooDeep limit) (tooDeep limit) := by
  intro s
  rw [tooDeep]
  cases hpeek : ParseM.peekAny s with
  | ok t s' =>
    rw [bind_of_ok hpeek]
    rfl
  | error e s' => rw [bind_of_error hpeek]

theorem Pair.Twin.refused {P : Pair} {t t' : Token} (h : P.Twin t t') (allowBlank : Bool) :
    ParseM.refused t' allowBlank = ParseM.refused t allowBlank := by
  simp only [ParseM.refused, h.kind, h.isAdjacent, h.describe]

/-- Both sides fail at twin tokens. -/
theorem FailsHere.fails {cause : Token → Bool → Cause} {act : ParseM α}
    (hact : FailsHere cause act)
    (hcause : ∀ (P : Pair) (t t' : Token) (b : Bool), P.Twin t t' → cause t' b = cause t b)
    {P : Pair} {limit : Nat} {s s' : ParseState} (hs : P.InStep limit s s') :
    Fails P s s' (act s) (act s') := by
  obtain ⟨t, s₁, hok, ht, hs₁⟩ | ⟨f, herr, hf⟩ := ParseM.peekAny_cases hs.left
  · refine ⟨_, s₁, by rw [hact s, hok], hs₁.keeps, fun htail => ?_⟩
    obtain ⟨u, t', hu, ht', htwin⟩ | ⟨f, hf, _⟩ := hs.beside.tokenAt_nil htail s.rules
    · obtain rfl : t = u := Except.ok.inj (ht.symm.trans hu)
      obtain ⟨u', s₁', hok', hu', hs₁'⟩ | ⟨f, _, hf⟩ := ParseM.peekAny_cases hs.right
      · rw [ParseState.tokenHere, hs.rules] at hu'
        obtain rfl : t' = u' := Except.ok.inj (ht'.symm.trans hu')
        have hblank : s₁'.lexer.mode.allowBlank = s₁.lexer.mode.allowBlank :=
          (hs.stay hs₁ hs₁').allowBlank
        refine ⟨s₁', ?_, hs₁'.keeps⟩
        simp only [hact s', hok', hblank, hcause P t t' _ htwin, htwin.atToken]
      · rw [ParseState.tokenHere, hs.rules, ht'] at hf
        cases hf
    · rw [ParseState.tokenHere, hf] at ht
      cases ht
  · refine hs.fails_of_fault hf (by rw [hact s, herr]) fun f' hf' => ?_
    obtain ⟨_, _, _, ht', _⟩ | ⟨g, herr', hg⟩ := ParseM.peekAny_cases hs.right
    · rw [hf'] at ht'
      cases ht'
    · rw [hf'] at hg
      cases hg
      rw [hact s', herr']

theorem Follows.fail {expected : Expected} {D : α → Scan → Prop} {room : Nat} {ate : α → Nat} :
    Follows σ c closed D room ate (ParseM.fail expected) (ParseM.fail expected) := by
  intro P _ s s' hs _
  refine ((failsHere_fail expected).fails (fun P t t' b h => ?_) hs).tracks
  rw [h.refused]

theorem Follows.fail_bind {expected : Expected} {D : β → Scan → Prop} {room : Nat} {ate : β → Nat}
    {k k' : α → ParseM β} :
    Follows σ c closed D room ate (ParseM.fail expected >>= k) (ParseM.fail expected >>= k') := by
  intro P _ s s' hs _
  have hfails : Fails P s s' ((ParseM.fail expected : ParseM α) s) (ParseM.fail expected s') := by
    refine (failsHere_fail expected).fails (fun P t t' b h => ?_) hs
    rw [h.refused]
  exact hfails.bind.tracks

/-- Failing never ends well. -/
theorem ParseM.fail_ne_ok (expected : Expected) (s : ParseState) (a : α) (s' : ParseState) :
    (ParseM.fail expected : ParseM α) s ≠ .ok a s' := by
  rw [failsHere_fail expected s]
  cases ParseM.peekAny s <;> exact nofun

/-! ### Levels -/

/-- Opening a level succeeds on both sides or fails on both. -/
theorem Pair.InStep.descend {P : Pair} {limit : Nat} {s s' : ParseState}
    (hs : P.InStep limit s s') :
    (ParseM.descend limit s = .ok () s.deeper ∧ ParseM.descend limit s' = .ok () s'.deeper ∧
      P.InStep limit s.deeper s'.deeper) ∨
    Fails P s s' (ParseM.descend limit s) (ParseM.descend limit s') := by
  have hopen : P.InStep limit s.deeper s'.deeper :=
    ⟨hs.left, hs.right, hs.context, fun hl => congrArg (· + 1) (hs.depth hl), hs.beside⟩
  rcases Nat.eq_zero_or_pos limit with rfl | hpos
  · rw [descend_zero]
    exact .inl ⟨rfl, rfl, hopen⟩
  · have hdepth := hs.depth (by omega)
    rcases Nat.lt_or_ge s.depth limit with hlt | hge
    · exact .inl ⟨descendOr_of_lt hlt, descendOr_of_lt (by omega), hopen⟩
    · right
      rw [ParseM.descend, descendOr_of_le hpos hge, descendOr_of_le hpos (by omega)]
      exact (failsHere_tooDeep limit).fails (fun _ _ _ _ _ => rfl) hs

/-! ### Changed settings -/

/-- Leaving what was entered at `s₁` from `s` succeeds and moves nothing. -/
def Leaves (source : Text) (closed : Bool) (s s₁ : ParseState) (leave : ParseM Unit) : Prop :=
  ∀ s₂, Holds closed s₁ s₂ → ∃ s₃, leave s₂ = .ok () s₃ ∧ Holds true s s₃ ∧
    (s₂.lexer.Current source → s₃.lexer.Current source ∧ s₃.here = s₂.here)

theorem Tracks.ensuring {P : Pair} {limit : Nat} {D : α → Scan → Prop} {room : Nat} {ate : α → Nat}
    {s s' s₁ s₁' : ParseState} {act act' : ParseM α} {leave leave' : ParseM Unit}
    (hs : P.InStep limit s s')
    (h : Tracks P limit closed D room ate s₁ s₁' (act s₁) (act' s₁')) (hhere : s₁.here = s.here)
    (hleave : Leaves P.left closed s s₁ leave) (hleave' : Leaves P.right closed s' s₁' leave') :
    Tracks P limit true D room ate s s' (ShellGrammar.ensuring act leave s₁)
      (ShellGrammar.ensuring act' leave' s₁') := by
  have hleft : s₁.left = s.left := by rw [ParseState.left, hhere]; rfl
  cases hrun : act s₁ with
  | ok a s₂ =>
    rw [hrun] at h
    obtain ⟨hadvances, hright⟩ := h
    obtain ⟨s₃, hout, hholds, hcurrent⟩ := hleave s₂ hadvances.holds
    obtain ⟨hcurrent₃, hhere₃⟩ := hcurrent hadvances.current
    rw [ensuring_of_ok hrun hout]
    refine ⟨⟨hcurrent₃, hholds, ?_, ?_⟩, ?_⟩
    · rw [hhere₃, ← hhere]
      exact hadvances.suffix
    · have := hadvances.ate_le
      rw [ParseState.left, hhere₃, ← hleft]
      exact this
    · obtain ⟨s₂', hok, hholds', hstep⟩ | ⟨htail, hd⟩ := hright
      · obtain ⟨s₃', hout', hholds₃', hcurrent'⟩ := hleave' s₂' hholds'
        obtain ⟨hcurrent₃', hhere₃'⟩ := hcurrent' hstep.right
        refine .inl ⟨s₃', ensuring_of_ok hok hout', hholds₃', hcurrent₃, hcurrent₃', ?_, ?_, ?_⟩
        · rw [hholds₃'.context, hholds.context, hs.context]
        · intro hl
          rw [hholds₃'.depth rfl, hholds.depth rfl, hs.depth hl]
        · rw [hhere₃, hhere₃']
          exact hstep.beside
      · refine .inr ⟨htail, ?_⟩
        rw [hhere₃]
        exact hd
  | error e s₂ =>
    rw [hrun] at h
    cases e with
    | fault f =>
      obtain ⟨hholds, hright⟩ := h
      obtain ⟨s₃, hout, hholds₃, _⟩ := hleave s₂ hholds
      rw [ensuring_of_error hrun hout]
      refine ⟨hholds₃, fun htail => ?_⟩
      obtain ⟨s₂', herr, hholds'⟩ := hright htail
      obtain ⟨s₃', hout', hholds₃', _⟩ := hleave' s₂' hholds'
      exact ⟨s₃', ensuring_of_error herr hout', hholds₃'⟩
    | breach b =>
      obtain ⟨s₃, hout, hholds₃, _⟩ := hleave s₂ h.1
      rw [ensuring_of_error hrun hout]
      refine ⟨hholds₃, ?_⟩
      rw [← hleft]
      exact h.2

namespace Follows
variable {D : α → Scan → Prop} {room : Nat} {ate : α → Nat} {act act' : ParseM α}

/-- One level further in. -/
theorem nested (h : Follows σ c true D room ate act act') :
    Follows σ c true D room ate (ParseM.nested (ParseM.descend σ.limit) act)
      (ParseM.nested (ParseM.descend σ.limit) act') := by
  have hclose : ∀ (source : Text) (s : ParseState), Leaves source true s s.deeper ascend := by
    intro source s s₂ hs₂
    refine ⟨{ s₂ with depth := s.depth }, ascend_of_depth (hs₂.depth rfl), ?_, fun hc => ⟨hc, rfl⟩⟩
    exact ⟨hs₂.modes, hs₂.inBackquote, fun _ => rfl⟩
  intro P hP s s' hs hc
  obtain ⟨hopen, hopen', hstep⟩ | hfails := hs.descend
  · rw [ParseM.nested, bind_of_ok hopen, ParseM.nested, bind_of_ok hopen']
    exact .ensuring hs (h P hP s.deeper s'.deeper hstep hc) rfl (hclose _ s) (hclose _ s')
  · exact hfails.bind.tracks

/-- Under another rule set. -/
theorem withRules {rules : Rules} {allowBlank : Bool}
    (h : Follows σ (c.under rules allowBlank) true D room ate act act') :
    Follows σ c true D room ate (ParseM.withRules rules allowBlank act)
      (ParseM.withRules rules allowBlank act') := by
  have hleave : ∀ (source : Text) (s : ParseState), Leaves source true s
      { s with lexer := s.lexer.enter rules allowBlank } (lexing LexM.leave) := by
    intro source s s₂ hs₂
    have hmodes := hs₂.modes.trans (Lexer.modes_enter s.lexer rules allowBlank)
    obtain ⟨l, hleave, hl, hconsumed, ha, htiled⟩ := Lexer.leave?_of_modes hmodes
    refine ⟨{ s₂ with lexer := l }, ?_, ⟨hl, hs₂.inBackquote, hs₂.depth⟩, fun hcurrent => ?_⟩
    · simp only [lexing_eq, LexM.leave, hleave]
    · have htiled' := htiled source hcurrent.toTiled
      exact ⟨htiled'.current ha, hcurrent.toTiled.here_eq htiled' hconsumed⟩
  intro P hP s s' hs hc
  subst hc
  have hhere : ∀ {source : Text} {s : ParseState}, s.lexer.Current source →
      ParseState.here { s with lexer := s.lexer.enter rules allowBlank } = s.here := by
    intro source s hcurrent
    exact hcurrent.toTiled.here_eq (hcurrent.enter rules allowBlank).toTiled
      (Lexer.consumed_enter _ _ _)
  have hcontext : ∀ s : ParseState,
      ParseState.context { s with lexer := s.lexer.enter rules allowBlank } =
        s.context.under rules allowBlank := by
    intro s
    simp only [ParseState.context, Lexer.mode, Lexer.modes_enter]
    rfl
  refine .ensuring hs (h P hP _ _ ⟨?_, ?_, ?_, hs.depth, ?_⟩ (hcontext s)) (hhere hs.left)
    (hleave _ s) (hleave _ s')
  · exact hs.left.enter rules allowBlank
  · exact hs.right.enter rules allowBlank
  · rw [hcontext, hcontext, hs.context]
  · rw [hhere hs.left, hhere hs.right]
    exact hs.beside

/-- Inside a list with another closer. -/
theorem inList {closer : Closer} (h : Follows σ (c.inside closer) true D room ate act act') :
    Follows σ c true D room ate (ParseM.inList closer act) (ParseM.inList closer act') := by
  have hleave : ∀ (source : Text) (s : ParseState), Leaves source true s
      { s with inBackquote := closer == .backquote }
      (modify fun s₂ => { s₂ with inBackquote := s.inBackquote }) := by
    intro source s s₂ hs₂
    exact ⟨{ s₂ with inBackquote := s.inBackquote }, rfl, ⟨hs₂.modes, rfl, hs₂.depth⟩,
      fun hcurrent => ⟨hcurrent, rfl⟩⟩
  intro P hP s s' hs hc
  subst hc
  have hmode : s'.lexer.mode = s.lexer.mode := congrArg Context.mode hs.context
  have hinside : P.InStep σ.limit { s with inBackquote := closer == .backquote }
      { s' with inBackquote := closer == .backquote } := by
    refine ⟨hs.left, hs.right, ?_, hs.depth, hs.beside⟩
    simp only [ParseState.context, hmode]
  exact .ensuring hs (h P hP _ _ hinside rfl) rfl (hleave _ s) (hleave _ s')

/-- Closing the levels that were left open. -/
theorem folding (h : Follows σ c false D room ate act act') :
    Follows σ c true D room ate (ParseM.folding act) (ParseM.folding act') := by
  have hleave : ∀ (source : Text) (s : ParseState), Leaves source false s s
      (modify fun s₂ => { s₂ with depth := s.depth }) := by
    intro source s s₂ hs₂
    exact ⟨{ s₂ with depth := s.depth }, rfl, ⟨hs₂.modes, hs₂.inBackquote, fun _ => rfl⟩,
      fun hcurrent => ⟨hcurrent, rfl⟩⟩
  intro P hP s s' hs hc
  exact .ensuring hs (h P hP s s' hs hc) rfl (hleave _ s) (hleave _ s')

/-- Closed computations may stand among those that leave levels open. -/
theorem opened (h : Follows σ c true D room ate act act') :
    Follows σ c false D room ate act act' := by
  intro P hP s s' hs hc
  have htracks := h P hP s s' hs hc
  cases hrun : act s with
  | ok a s₁ =>
    rw [hrun] at htracks
    obtain ⟨hadvances, hright⟩ := htracks
    refine ⟨⟨hadvances.current, hadvances.holds.opened, hadvances.suffix, hadvances.ate_le⟩, ?_⟩
    obtain ⟨s₁', hok, hholds, hstep⟩ | hlost := hright
    · exact .inl ⟨s₁', hok, hholds.opened, hstep⟩
    · exact .inr hlost
  | error e s₁ =>
    rw [hrun] at htracks
    cases e with
    | breach b => exact ⟨htracks.1.opened, htracks.2⟩
    | fault f =>
      refine ⟨htracks.1.opened, fun htail => ?_⟩
      obtain ⟨s₁', herr, hholds⟩ := htracks.2 htail
      exact ⟨s₁', herr, hholds.opened⟩

/-- Opening a level that stays open. -/
theorem descend {D : Unit → Scan → Prop} {ate : Unit → Nat} (hate : ate () = 0) :
    Follows σ c false D room ate (ParseM.descend σ.limit) (ParseM.descend σ.limit) := by
  intro P _ s s' hs _
  obtain ⟨hopen, hopen', hstep⟩ | hfails := hs.descend
  · rw [hopen, hopen']
    refine ⟨⟨hs.left, ⟨rfl, rfl, nofun⟩, List.suffix_refl _, ?_⟩,
      .inl ⟨s'.deeper, rfl, ⟨rfl, rfl, nofun⟩, hstep⟩⟩
    rw [hate]
    exact Nat.le_refl _
  · exact hfails.tracks

/-- What a piece can start with is known from the context. -/
theorem pieceStartHere_bind {k k' : List Kind → ParseM α}
    (h : Follows σ c closed D room ate (k (Grammar.pieceStart c.inBackquote))
      (k' (Grammar.pieceStart c.inBackquote))) :
    Follows σ c closed D room ate (Grammar.pieceStartHere >>= k)
      (Grammar.pieceStartHere >>= k') := by
  intro P hP s s' hs hc
  have hbackquote : s'.inBackquote = s.inBackquote := congrArg Context.inBackquote hs.context
  have htracks := h P hP s s' hs hc
  subst hc
  show Tracks P σ.limit closed D room ate s s' (k (Grammar.pieceStart s.inBackquote) s)
    (k' (Grammar.pieceStart s'.inBackquote) s')
  rw [hbackquote]
  exact htracks

end Follows

end ShellGrammar
