import ShellGrammar.Grammar.Word
import ShellGrammar.Proofs.Grammar.Runs

/-! Runs in a changed setting, loops and chains.

Whatever changes the setting of a computation puts it back on every way out, so each
of `nested`, `withRules` and `inList` is a step in, the computation, and a step out
that undoes the first (`Goes.around`). Loops are gone through by induction on their
bound. A chain holds on to a level for every operator until it ends, so its
invariant counts the operators taken so far. -/
namespace ShellGrammar
open ParseM

variable {source : Text} {c : Context} {α β : Type}

/-! ### Changed settings -/

/-- A computation run from `s₁`, one step in from `s`, with a step out after it. -/
theorem Goes.around {s₁ : ParseState} {act : ParseM Unit → ParseM α}
    {Q : α → List Token → Nat → Prop} (h : Goes source s₁ act Q) (s : ParseState)
    (leave : ParseM Unit) (hconsumed : s₁.lexer.consumed = s.lexer.consumed)
    (hleave : ∀ s', Keeps s₁ s' → ∃ s'', leave s' = .ok () s'' ∧ Keeps s s'' ∧
      s''.lexer.consumed = s'.lexer.consumed ∧
      (s'.lexer.Current source → s''.lexer.Current source)) :
    ∃ n, Peaks (fun d => ensuring (act d) leave) s₁ (s₁.depth + n) (·.Reading source) (Keeps s) ∧
      Ends source s (fun a ts => Q a ts n) (ensuring (act unlimited) leave s₁) := by
  obtain ⟨n, hpeak, hends⟩ := h
  refine ⟨n, hpeak.ensuring fun s' hs' => ?_, ?_⟩
  · obtain ⟨s'', hout, hkeeps, _⟩ := hleave s' hs'
    exact ⟨s'', hout, hkeeps⟩
  · cases hrun : act unlimited s₁ with
    | error e s' =>
      rw [hrun] at hends
      obtain ⟨s'', hout, hkeeps, _⟩ := hleave s' hends
      rw [ensuring_of_error hrun hout]
      exact hkeeps
    | ok a s' =>
      rw [hrun] at hends
      obtain ⟨hcurrent, hkeeps', ts, hts, hQ⟩ := hends
      obtain ⟨s'', hout, hkeeps, hsame, hcurrent'⟩ := hleave s' hkeeps'
      rw [ensuring_of_ok hrun hout]
      exact ⟨hcurrent' hcurrent, hkeeps, ts, by rw [hsame, hts, hconsumed], hQ⟩

/-- The step in, which opens `opened` levels, before a computation that is run there. -/
theorem Goes.entering {s s₁ : ParseState} {act : ParseM Unit → ParseM α}
    {Q : α → List Token → Nat → Prop} {n : Nat} (enter : ParseM Unit → ParseM Unit) (opened : Nat)
    (henter : enter unlimited s = .ok () s₁)
    (hpeak : Peaks enter s (s.depth + opened) (·.Reading source) (Keeps s))
    (hdepth : s₁.depth = s.depth + opened)
    (hact : Peaks act s₁ (s₁.depth + n) (·.Reading source) (Keeps s))
    (hends : Ends source s (fun a ts => Q a ts (opened + n)) (act unlimited s₁)) :
    Goes source s (fun d => enter d >>= fun _ => act d) Q := by
  refine ⟨opened + n, ?_, ?_⟩
  · have hboth := hpeak.bind (k := fun _ d => act d) henter (Nat.le_of_eq hdepth) hact
    have hmax : max (s.depth + opened) (s₁.depth + n) = s.depth + (opened + n) := by omega
    rwa [hmax] at hboth
  · show Ends source s _ ((enter unlimited >>= fun _ => act unlimited) s)
    rw [bind_of_ok henter]
    exact hends

theorem ascend_of_depth {s : ParseState} {n : Nat} (h : s.depth = n + 1) :
    ascend s = .ok () { s with depth := n } := by
  simp only [ascend, h]

namespace Runs
variable {act : ParseM Unit → ParseM α} {Q : α → List Token → Nat → Prop}

/-- One level further in. -/
theorem nested (h : Runs source c act fun a ts n => Q a ts (1 + n)) :
    Runs source c (fun d => ParseM.nested d (act d)) Q := by
  intro s hs hc
  obtain ⟨n, hpeak, hends⟩ := (h s.deeper hs hc).around s ascend rfl
    fun s' hs' => ⟨{ s' with depth := s.depth }, ascend_of_depth hs'.depth,
      ⟨hs'.modes, hs'.inBackquote, rfl⟩, rfl, id⟩
  exact Goes.entering (fun d => d) 1 (unlimited_eq s) (Peaks.descend hs) rfl hpeak hends

/-- Under another rule set. -/
theorem withRules {rules : Rules} {allowBlank : Bool}
    (h : Runs source (c.under rules allowBlank) act Q) :
    Runs source c (fun d => ParseM.withRules rules allowBlank (act d)) Q := by
  intro s hs hc
  subst hc
  have hmodes := Lexer.modes_enter s.lexer rules allowBlank
  obtain ⟨n, hpeak, hends⟩ :=
    (h { s with lexer := s.lexer.enter rules allowBlank } (hs.enter rules allowBlank) (by
      simp only [ParseState.context, Lexer.mode, hmodes]
      rfl)).around s (lexing LexM.leave)
      (Lexer.consumed_enter s.lexer rules allowBlank) fun s' hs' => by
        obtain ⟨l, hleave, hl, hconsumed, ha, htiled⟩ := Lexer.leave?_of_modes (hs'.modes.trans hmodes)
        refine ⟨{ s' with lexer := l }, ?_, ⟨hl, hs'.inBackquote, hs'.depth⟩, hconsumed,
          fun hcurrent => (htiled source hcurrent.toTiled).current ha⟩
        simp only [lexing_eq, LexM.leave, hleave]
  refine Goes.entering (fun _ => lexing (modify (Lexer.enter rules allowBlank))) 0 rfl
    (Peaks.const _ s _ _) rfl hpeak ?_
  rwa [Nat.zero_add]

/-- Inside a list with another closer. -/
theorem inList {closer : Closer} (h : Runs source (c.inside closer) act Q) :
    Runs source c (fun d => ParseM.inList closer (act d)) Q := by
  intro s hs hc
  subst hc
  obtain ⟨n, hpeak, hends⟩ := (h { s with inBackquote := closer == .backquote } hs rfl).around
    s (modify fun s' => { s' with inBackquote := s.inBackquote }) rfl
    fun s' hs' => ⟨{ s' with inBackquote := s.inBackquote }, rfl,
      ⟨hs'.modes, rfl, hs'.depth⟩, rfl, id⟩
  have hgoes := Goes.entering (Q := Q)
    (fun _ => modify fun s => { s with inBackquote := closer == .backquote }) 0
    rfl (Peaks.const _ s _ _) rfl hpeak (by rwa [Nat.zero_add])
  exact hgoes.congr fun _ => rfl

/-- What a piece can start with is known from the context. -/
theorem pieceStartHere {Q : List Kind → List Token → Nat → Prop}
    (h : Q (Grammar.pieceStart c.inBackquote) [] 0) :
    Runs source c (fun _ => Grammar.pieceStartHere) Q := by
  intro s hs hc
  subst hc
  exact Goes.const ⟨hs, .refl s, [], (List.append_nil _).symm, h⟩

end Runs

/-! ### Loops and alternatives -/

namespace Runs

/-- A loop, by what its last round does and what a round does before the others. -/
theorem gather {step : ParseM Unit → ParseM (Option α)} {P : Option α → List Token → Nat → Prop}
    {Q : List α → List Token → Nat → Prop} (hstep : Runs source c step P)
    (hnil : ∀ ts n, P none ts n → Q [] ts n)
    (hcons : ∀ a ts n as us m, P (some a) ts n → Q as us m → Q (a :: as) (ts ++ us) (max n m))
    (bound : Nat) : Runs source c (fun d => ShellGrammar.gather (step d) bound) Q := by
  induction bound with
  | zero => exact breached .outOfSteps
  | succ bound ih =>
    refine hstep.bind fun o ts n hround => ?_
    cases o with
    | none =>
      refine pure ?_
      rw [List.append_nil, Nat.max_zero]
      exact hnil ts n hround
    | some a =>
      refine ih.bind fun as us m hrest => pure ?_
      rw [List.append_nil, Nat.max_zero]
      exact hcons a ts n as us m hround hrest

theorem firstOf_nil {P : α → List Token → Nat → Prop} :
    Runs source c (fun _ => firstOf []) (OrNothing P) :=
  pure ⟨rfl, rfl⟩

/-- The first of some alternatives: it yields something, or reads nothing and leaves the
rest to the others. -/
theorem firstOf_cons {alternative : ParseM Unit → ParseM (Option α)}
    {rest : ParseM Unit → List (ParseM (Option α))} {P : α → List Token → Nat → Prop}
    (h : Runs source c alternative (OrNothing P))
    (hrest : Runs source c (fun d => firstOf (rest d)) (OrNothing P)) :
    Runs source c (fun d => firstOf (alternative d :: rest d)) (OrNothing P) := by
  refine h.bind fun o ts n ho => ?_
  cases o with
  | none =>
    obtain ⟨rfl, rfl⟩ := ho
    simp only [List.nil_append, Nat.zero_max]
    exact hrest
  | some a =>
    refine pure ?_
    rw [List.append_nil, Nat.max_zero]
    exact ho

end Runs

/-! ### Chains -/

/-- The modes and the closing backquote are as they were; the levels of a chain may still
be open. -/
structure KeepsContext (s s' : ParseState) : Prop where
  modes : s'.lexer.modes = s.lexer.modes
  inBackquote : s'.inBackquote = s.inBackquote

theorem Keeps.keepsContext {s s' : ParseState} (h : Keeps s s') : KeepsContext s s' :=
  ⟨h.modes, h.inBackquote⟩

theorem KeepsContext.trans {s s' s'' : ParseState} (h : KeepsContext s s')
    (h' : KeepsContext s' s'') : KeepsContext s s'' :=
  ⟨h'.modes.trans h.modes, h'.inBackquote.trans h.inBackquote⟩

theorem KeepsContext.context {s s' : ParseState} (h : KeepsContext s s') :
    s'.context = s.context := by
  simp only [ParseState.context, Lexer.mode, h.modes, h.inBackquote]

/-- A run that may leave levels open. Of its outcome are known the tokens consumed, the
peak and the levels left open, the last two counted from the outside. -/
def Climbs (source : Text) (s : ParseState) (act : ParseM Unit → ParseM α)
    (Q : α → List Token → Nat → Nat → Prop) : Prop :=
  ∃ peak, Peaks act s peak (·.Reading source) (KeepsContext s) ∧
    match act unlimited s with
    | .ok a s' => s'.lexer.Current source ∧ KeepsContext s s' ∧
        ∃ ts, s'.lexer.consumed = s.lexer.consumed ++ ts ∧ Q a ts peak s'.depth
    | .error _ s' => KeepsContext s s'

namespace Climbs
variable {s : ParseState} {act : ParseM Unit → ParseM α} {k : α → ParseM Unit → ParseM β}
  {P : α → List Token → Nat → Nat → Prop} {R : β → List Token → Nat → Nat → Prop}

theorem ofGoes {Q : α → List Token → Nat → Prop} (h : Goes source s act Q)
    (hQ : ∀ a ts n, Q a ts n → P a ts (s.depth + n) s.depth) : Climbs source s act P := by
  obtain ⟨n, hpeak, hends⟩ := h
  refine ⟨s.depth + n, hpeak.mono fun _ => Keeps.keepsContext, ?_⟩
  cases hrun : act unlimited s with
  | error e s' =>
    rw [hrun] at hends
    exact Keeps.keepsContext hends
  | ok a s' =>
    rw [hrun] at hends
    obtain ⟨hcurrent, hkeeps, ts, hts, hq⟩ := hends
    refine ⟨hcurrent, hkeeps.keepsContext, ts, hts, ?_⟩
    rw [hkeeps.depth]
    exact hQ a ts n hq

/-- Opening a level that stays open. -/
theorem descend {P : Unit → List Token → Nat → Nat → Prop} (hs : s.lexer.Current source)
    (h : P () [] (s.depth + 1) (s.depth + 1)) : Climbs source s (fun d => d) P := by
  refine ⟨s.depth + 1, (Peaks.descend hs).mono fun _ => Keeps.keepsContext, ?_⟩
  exact ⟨hs, ⟨rfl, rfl⟩, [], (List.append_nil _).symm, h⟩

theorem bind (h : Climbs source s act P)
    (hk : ∀ a ts peak s', s'.lexer.Current source → KeepsContext s s' → P a ts peak s'.depth →
      s'.depth ≤ peak ∧
        Climbs source s' (k a) fun b us peak' depth => R b (ts ++ us) (max peak peak') depth) :
    Climbs source s (fun d => act d >>= fun a => k a d) R := by
  obtain ⟨peak, hpeak, hends⟩ := h
  cases hrun : act unlimited s with
  | error e s' =>
    rw [hrun] at hends
    refine ⟨peak, hpeak.bind_error hrun, ?_⟩
    simp only [bind_of_error hrun]
    exact hends
  | ok a s' =>
    rw [hrun] at hends
    obtain ⟨hcurrent, hkeeps, ts, hts, hP⟩ := hends
    obtain ⟨hdepth, peak', hpeak', hends'⟩ := hk a ts peak s' hcurrent hkeeps hP
    refine ⟨max peak peak', hpeak.bind hrun hdepth (hpeak'.mono fun _ h => hkeeps.trans h), ?_⟩
    simp only [bind_of_ok hrun]
    cases hrun' : k a unlimited s' with
    | error e s'' =>
      rw [hrun'] at hends'
      exact hkeeps.trans hends'
    | ok b s'' =>
      rw [hrun'] at hends'
      obtain ⟨hcurrent', hkeeps', us, hus, hR⟩ := hends'
      refine ⟨hcurrent', hkeeps.trans hkeeps', ts ++ us, ?_, hR⟩
      rw [hus, hts, List.append_assoc]

theorem mono {P' : α → List Token → Nat → Nat → Prop} (h : Climbs source s act P)
    (hP : ∀ a ts peak depth, P a ts peak depth → P' a ts peak depth) : Climbs source s act P' := by
  obtain ⟨peak, hpeak, hends⟩ := h
  refine ⟨peak, hpeak, ?_⟩
  cases hrun : act unlimited s with
  | error e s' =>
    rw [hrun] at hends
    exact hends
  | ok a s' =>
    rw [hrun] at hends
    obtain ⟨hcurrent, hkeeps, ts, hts, hp⟩ := hends
    exact ⟨hcurrent, hkeeps, ts, hts, hP a ts peak _ hp⟩

/-- Closing all the levels that a run left open. -/
theorem folding {Q : α → List Token → Nat → Prop}
    (h : Climbs source s act fun a ts peak _ => ∀ n, max s.depth peak = s.depth + n → Q a ts n) :
    Goes source s (fun d => ParseM.folding (act d)) Q := by
  obtain ⟨peak, hpeak, hends⟩ := h
  have hmax : max s.depth peak = s.depth + (max s.depth peak - s.depth) := by omega
  have hleave : ∀ s', KeepsContext s s' → Keeps s { s' with depth := s.depth } :=
    fun s' h => ⟨h.modes, h.inBackquote, rfl⟩
  have hreset : ∀ s', (modify fun s' => { s' with depth := s.depth } : ParseM Unit) s' =
    .ok () { s' with depth := s.depth } := fun _ => rfl
  have hgoes : Goes source s
      (fun d => ensuring (act d) (modify fun s' => { s' with depth := s.depth })) Q := by
    refine ⟨max s.depth peak - s.depth, ?_, ?_⟩
    · rw [← hmax]
      exact hpeak.above.ensuring fun s' h => ⟨_, hreset s', hleave s' h⟩
    · show Ends source s _ (ensuring (act unlimited) _ s)
      cases hrun : act unlimited s with
      | error e s' =>
        rw [hrun] at hends
        rw [ensuring_of_error hrun (hreset s')]
        exact hleave s' hends
      | ok a s' =>
        rw [hrun] at hends
        obtain ⟨hcurrent, hkeeps, ts, hts, hq⟩ := hends
        rw [ensuring_of_ok hrun (hreset s')]
        exact ⟨hcurrent, hleave s' hkeeps, ts, hts, hq _ hmax⟩
  exact hgoes.congr fun _ => rfl

end Climbs

section Chains
variable {operator : ParseM Unit → ParseM (Option β)} {operand : β → ParseM Unit → ParseM Node}
  {join : β → Node → Node → Node} {Operator : β → List Token → Prop}
  {Operand : β → Node → List Token → Nat → Prop} (Chain : Nat → Node → List Token → Nat → Prop)

/-- The rest of a chain that was begun at depth `base` and has taken `folds` operators.
What was read of it so far is `ts`, and it has opened `n` levels at most. -/
theorem chainRest_climbs
    (hoperator : Runs source c operator (OrNothing fun op us m => Operator op us ∧ m = 0))
    (hoperand : ∀ op, Runs source c (operand op) (Operand op))
    (hfold : ∀ folds left ts n op us right vs m, Chain folds left ts n → Operator op us →
      Operand op right vs m →
      Chain (folds + 1) (join op left right) (ts ++ (us ++ vs)) (max n (folds + 1 + m)))
    (base bound : Nat) :
    ∀ (folds : Nat) (left : Node) (ts : List Token) (n : Nat) (s : ParseState),
      s.lexer.Current source → s.context = c → s.depth = base + folds → folds ≤ n →
      Chain folds left ts n →
      Climbs source s
        (fun d => chainRest d (operator d) (fun op => operand op d) join bound left)
        fun a us peak _ => ∃ folds' n', max (base + n) peak = base + n' ∧
          Chain folds' a (ts ++ us) n' := by
  induction bound with
  | zero =>
    intro folds left ts n s _ _ _ _ _
    exact ⟨s.depth, Peaks.const _ s _ _, ⟨rfl, rfl⟩⟩
  | succ bound ih =>
    intro folds left ts n s hs hc hdepth hle hchain
    refine (Climbs.ofGoes (P := fun o us peak depth => peak = s.depth ∧ depth = s.depth ∧
      OrNothing (fun op us _ => Operator op us) o us 0) (hoperator s hs hc) ?_).bind ?_
    · intro o us m ho
      cases o with
      | none => exact ⟨by rw [ho.2]; rfl, rfl, ho.1, rfl⟩
      | some op => exact ⟨by rw [ho.2]; rfl, rfl, ho.1⟩
    · intro o us peak₁ s₁ hs₁ hk₁ hstep
      obtain ⟨rfl, hd₁, ho⟩ := hstep
      refine ⟨Nat.le_of_eq hd₁, ?_⟩
      cases o with
      | none =>
        obtain ⟨rfl, _⟩ := ho
        refine Climbs.ofGoes (Runs.pure (Q := fun a vs m => a = left ∧ vs = [] ∧ m = 0)
          ⟨rfl, rfl, rfl⟩ s₁ hs₁ rfl) ?_
        intro a vs m hlast
        obtain ⟨rfl, rfl, rfl⟩ := hlast
        refine ⟨folds, n, by omega, ?_⟩
        rwa [List.append_nil, List.append_nil]
      | some op =>
        refine (Climbs.descend (P := fun _ vs peak depth => vs = [] ∧ peak = s.depth + 1 ∧
          depth = s.depth + 1) hs₁ ⟨rfl, by omega, by omega⟩).bind ?_
        intro _ vs peak₂ s₂ hs₂ hk₂ hopened
        obtain ⟨rfl, rfl, hd₂⟩ := hopened
        refine ⟨Nat.le_of_eq hd₂, ?_⟩
        have hc₂ : s₂.context = c := (hk₁.trans hk₂).context.trans hc
        refine (Climbs.ofGoes (P := fun right vs peak depth => depth = s.depth + 1 ∧
          ∃ m, peak = s.depth + 1 + m ∧ Operand op right vs m) (hoperand op s₂ hs₂ hc₂) ?_).bind ?_
        · intro right vs m hright
          exact ⟨hd₂, m, by rw [hd₂], hright⟩
        · intro right vs peak₃ s₃ hs₃ hk₃ hread
          obtain ⟨hd₃, m, rfl, hright⟩ := hread
          refine ⟨by omega, ?_⟩
          have hc₃ : s₃.context = c := hk₃.context.trans hc₂
          refine (ih (folds + 1) (join op left right) (ts ++ (us ++ vs)) (max n (folds + 1 + m)) s₃
            hs₃ hc₃ (by omega) (by omega)
            (hfold folds left ts n op us right vs m hchain ho hright)).mono ?_
          intro a ws peak depth hrest
          obtain ⟨folds', n', hn', hall⟩ := hrest
          refine ⟨folds', n', by omega, ?_⟩
          simpa only [List.append_assoc, List.nil_append] using hall

/-- Operands joined to the left by operators: what holds of the first operand, and is
kept as one operator and operand after another is joined to it, holds of the whole. -/
theorem Runs.chain {G : ParseM Unit → Grammar} {first : ParseM Unit → ParseM Node} {steps : Nat}
    (hdescend : ∀ d, (G d).descend = d) (hsteps : ∀ d, (G d).steps = steps)
    (hfirst : Runs source c first (Chain 0))
    (hoperator : Runs source c operator (OrNothing fun op us m => Operator op us ∧ m = 0))
    (hoperand : ∀ op, Runs source c (operand op) (Operand op))
    (hfold : ∀ folds left ts n op us right vs m, Chain folds left ts n → Operator op us →
      Operand op right vs m →
      Chain (folds + 1) (join op left right) (ts ++ (us ++ vs)) (max n (folds + 1 + m))) :
    Runs source c
      (fun d => ParseM.chain (G d) (first d) (operator d) (fun op => operand op d) join)
      fun a ts n => ∃ folds, Chain folds a ts n := by
  intro s hs hc
  simp only [ParseM.chain, hdescend, hsteps]
  refine Climbs.folding ((Climbs.ofGoes (P := fun a ts peak depth => depth = s.depth ∧
    ∃ n, peak = s.depth + n ∧ Chain 0 a ts n) (hfirst s hs hc) ?_).bind ?_)
  · intro left ts n hleft
    exact ⟨rfl, n, rfl, hleft⟩
  · intro left ts peak s' hs' hkeeps hread
    obtain ⟨hdepth, n, rfl, hleft⟩ := hread
    refine ⟨by omega, ?_⟩
    refine (chainRest_climbs Chain hoperator hoperand hfold s.depth steps 0 left ts n s' hs'
      (hkeeps.context.trans hc) hdepth (Nat.zero_le n) hleft).mono ?_
    intro a us peak depth hrest m hm
    obtain ⟨folds, n', hn', hall⟩ := hrest
    have hsame : m = n' := by omega
    subst hsame
    exact ⟨folds, hall⟩

end Chains

end ShellGrammar
