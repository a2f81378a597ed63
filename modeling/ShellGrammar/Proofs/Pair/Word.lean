import ShellGrammar.Proofs.Grammar.Word
import ShellGrammar.Proofs.Pair.Arithmetic

/-! Words side by side.

Bare text that ends at the end of the left text may go on in the tail. The piece made of
it then leaves the left side lost, and a word, which looks for one more piece, either
fails there or is known to have read too far. A string or an arithmetic expansion does
not end before its closing token, which is not there any more for a side that has read
too far; so those are followed without exception. -/
namespace ShellGrammar
open ParseM Grammar

variable {σ : Setting} {c : Context} {g g' : Grammar} {α β : Type}

/-! ### Hopeless places -/

/-- No run begun in such a place ends well. -/
abbrev Dies (c : Context) (X : Scan → Prop) (act : ParseM α) : Prop :=
  Lapses c X (fun _ _ => False) act

theorem Dies.lapses {X : Scan → Prop} {D : α → Scan → Prop} {act : ParseM α} (h : Dies c X act) :
    Lapses c X D act :=
  fun source s hs hc hx a s₁ hrun => (h source s hs hc hx a s₁ hrun).elim

theorem Dies.bind {X : Scan → Prop} {act : ParseM α} {k : α → ParseM β} (h : Dies c X act) :
    Dies c X (act >>= k) := by
  intro source s hs hc hx b s₂ hrun
  cases hact : act s with
  | error e s₁ =>
    rw [bind_of_error hact] at hrun
    cases hrun
  | ok a s₁ => exact h source s hs hc hx a s₁ hact

theorem dies_fail {X : Scan → Prop} {expected : Expected} :
    Dies c X (ParseM.fail expected : ParseM α) :=
  fun _ s _ _ _ a s₁ hrun => ParseM.fail_ne_ok expected s a s₁ hrun

/-- Where too little is left, a run ends there; where no token can be read, not at all. -/
theorem Lapses.of_lost {D : α → Scan → Prop} {act : ParseM α} (hspent : Lapses c c.Spent D act)
    (hstuck : Dies c c.mode.rules.Stuck act) : Lapses c c.Lost D act := by
  intro source s hs hc hlost
  rcases hlost with h | h
  · exact hspent source s hs hc h
  · exact hstuck.lapses source s hs hc h

theorem dies_look {adjacent : Bool} {kinds : List Kind} :
    Dies c c.mode.rules.Stuck (look adjacent kinds) := by
  intro source s hs hc hstuck o s₁ hrun
  subst hc
  obtain ⟨f, hf⟩ := hstuck.tokenAt
  rw [look_of_fault hs hf] at hrun
  cases hrun

/-! ### Closing tokens -/

/-- A reader that finds nothing in such a place. -/
def Misses (c : Context) (X : Scan → Prop) (reader : ParseM (Option α)) : Prop :=
  ∀ source s, s.lexer.Current source → s.context = c → X s.here →
    ∀ o s₁, reader s = .ok o s₁ → o = none ∧ Reaches source s [] s₁

theorem Misses.bind {X : Scan → Prop} {reader : ParseM (Option α)} {k : Option α → ParseM β}
    {D : β → Scan → Prop} (h : Misses c X reader) (hk : Lapses c X D (k none)) :
    Lapses c X D (reader >>= k) := by
  intro source s hs hc hx b s₂ hrun
  cases hread : reader s with
  | error e s₁ =>
    rw [bind_of_error hread] at hrun
    cases hrun
  | ok o s₁ =>
    obtain ⟨rfl, hs₁⟩ := h source s hs hc hx o s₁ hread
    rw [bind_of_ok hread] at hrun
    refine hk source s₁ hs₁.current (hs₁.keeps.context.trans hc) ?_ b s₂ hrun
    rw [hs₁.here_nil hs]
    exact hx

theorem Rules.Spent.closesNothing {rules : Rules} {place : Scan} {t : Token}
    (h : rules.Spent place) (ho : t.origin = place) (hf : t.Fits) :
    Text.closesNothing t.body = true := by
  have hrest := Token.rest_origin hf
  have hspent := h.2
  rw [← ho, hrest, Text.closesNothing_append, Token.text, Text.closesNothing_append,
    Bool.and_eq_true, Bool.and_eq_true] at hspent
  exact hspent.1.2

theorem misses_next {kind : Kind} {text : Text} (hk : kind.spelling? = some text)
    (hcloses : Text.closesNothing text = false) : Misses c c.Spent (ParseM.next [kind]) := by
  intro source s hs hc hspent o s₁ hrun
  subst hc
  rw [next_eq_take hs] at hrun
  obtain ⟨t, s₂, ht, hv, hsome, _⟩ | ⟨_, s₂, _, _, hnone, hs₂⟩ | ⟨f, _, herr⟩ :=
    take_cases hs false (among [kind])
  · obtain ⟨ho, hf⟩ := Rules.tokenAt_fits ht
    have hkind : t.kind = kind := by
      simpa [among] using (Bool.and_eq_true_iff.mp hv).1
    have hbody := hspent.closesNothing ho hf
    rw [Rules.body_of_spelling ht (hkind ▸ hk), hcloses] at hbody
    cases hbody
  · rw [hnone] at hrun
    cases hrun
    exact ⟨rfl, hs₂⟩
  · rw [herr] at hrun
    cases hrun

theorem misses_acceptWith {text : Text} (hcloses : Text.closesNothing text = false) (kind : Kind)
    (allowBlank : Bool) :
    Misses c c.Spent (lexing (LexM.acceptWith (.lit text) kind allowBlank)) := by
  intro source s hs hc hspent o s₁ hrun
  subst hc
  obtain ⟨s₂, hok, hs₂⟩ := acceptWith_cases hs (.lit text) kind allowBlank
  rw [hok] at hrun
  cases htake : s.rules.takeAt (.lit text) kind allowBlank s.here with
  | none =>
    rw [htake] at hrun hs₂
    cases hrun
    exact ⟨rfl, hs₂⟩
  | some t =>
    obtain ⟨ho, hf⟩ := Rules.takeAt_fits htake
    have hbody := hspent.closesNothing ho hf
    rw [(Rules.takeAt_matches htake).2.of_lit, hcloses] at hbody
    cases hbody

theorem misses_accept {text : Text} (hcloses : Text.closesNothing text = false) (kind : Kind) :
    Misses c c.Spent (ParseM.accept (.lit text) kind) := by
  intro source s hs hc hspent o s₁ hrun
  refine misses_acceptWith hcloses kind c.mode.allowBlank source s hs hc hspent o s₁ ?_
  rw [← hrun]
  exact (accept_eq_acceptWith hc).symm

/-! ### Pieces -/

/-- Where the left side may have come to after a piece. -/
def PieceLost (c : Context) : Option Node → Scan → Prop
  | none => c.Spent
  | some _ => c.Lost

/-- Looking for something, and then taking it. -/
theorem Follows.look_next_bind {D : β → Scan → Prop} {room : Nat} {ate : β → Nat} {adjacent : Bool}
    {kinds : List Kind} {k k' : Option Token → ParseM β}
    {f f' : Token → Option Token → ParseM β} (hk : ∀ t, k (some t) = ParseM.next [] >>= f t)
    (hk' : ∀ t, k' (some t) = ParseM.next [] >>= f' t)
    (hkinds : among kinds .eos = false ∧ among kinds .newline = false ∧ among kinds .glyph = false)
    (hstay : Follows σ c true D room ate (k none) (k' none))
    (hgo : ∀ t t', t.kind ∈ kinds → t'.kind = t.kind → t'.body = t.body →
      Follows σ c true D (room - 1) (fun b => ate b - 1) (f t (some t)) (f' t' (some t')))
    (hspent : Lapses c c.Spent D (k none))
    (hlost : ∀ t, t.kind = .str → Lapses c c.Lost D (f t (some t))) :
    Follows σ c true D room ate (look adjacent kinds >>= k) (look adjacent kinds >>= k') := by
  have hwant : ∀ kind, (among kinds kind && true) = among kinds kind := fun _ => Bool.and_true _
  have htake : Follows σ c true D room ate
      (take adjacent (fun kind => among kinds kind && true) >>= fun o =>
        o.elim (k none) fun t => f t (some t))
      (take adjacent (fun kind => among kinds kind && true) >>= fun o =>
        o.elim (k' none) fun t => f' t (some t)) := by
    refine .take_bind _ ?_ hstay (fun t t' hkind => hgo t t' ?_) hspent fun t hstr _ => hlost t hstr
    · simpa only [hwant] using hkinds
    · rw [hwant, among, Bool.or_eq_true, List.isEmpty_iff, List.contains_iff_mem] at hkind
      refine hkind.resolve_left ?_
      rintro rfl
      cases hkinds.1
  exact htake.congr (fun _ s hs _ => look_eq_take hs adjacent kinds (fun _ => true) hk)
    fun _ s hs _ => look_eq_take hs adjacent kinds (fun _ => true) hk'

theorem Agree.piece (hg : Agree σ g g') (adjacent : Bool) :
    Follows σ c true (PieceLost c) g.steps some1 (Grammar.piece g adjacent)
      (Grammar.piece g' adjacent) := by
  have hnested : ∀ {f : Node → Node} {act act' : ParseM Node},
      Paces σ c (g.steps - 1) (fun _ => 0) act act' →
      Follows σ c true (PieceLost c) (g.steps - 1) (fun b => some1 b - 1)
        (nested (ParseM.descend σ.limit) act >>= fun a => pure (some (f a)))
        (nested (ParseM.descend σ.limit) act' >>= fun a => pure (some (f a))) := by
    intro f act act' h
    exact .map ((Follows.nested h).mono (fun _ _ => .inl) (Nat.le_refl _) fun _ => Nat.le_refl _)
  simp only [Grammar.piece, hg.descend, hg.descend']
  refine .pieceStartHere_bind (Follows.look_next_bind (fun _ => rfl) (fun _ => rfl) ?_ (.pure rfl) ?_
    (Lapses.pure fun _ => id) ?_)
  · cases c.inBackquote <;> decide
  · intro t t' hmem hkind hbody
    simp only [hkind, hbody]
    rcases mem_pieceStart hmem with
      hk | hk | hk | hk | hk | hk | hk | ⟨hk, _⟩ | hk | hk <;> simp only [hk]
    · exact .pure rfl
    · exact .pure rfl
    · exact hnested (hg.doubleQuoted c)
    · exact .pure rfl
    · exact hnested (hg.parameter c)
    · exact hnested (hg.nestedList c .paren (by decide))
    · exact hnested (hg.arithExpansion c)
    · exact hnested (hg.nestedList c .backquote (by decide))
    · exact hnested (hg.nestedList c .paren (by decide))
    · exact hnested (hg.nestedList c .paren (by decide))
  · intro t hstr
    simp only [hstr]
    exact Lapses.pure fun _ => id

theorem dies_piece {adjacent : Bool} : Dies c c.mode.rules.Stuck (Grammar.piece g adjacent) :=
  fun source s hs hc hstuck o s₁ hrun => dies_look.bind source s hs hc hstuck o s₁ hrun

/-- A loop dies where its first round does. -/
theorem Dies.gather {X : Scan → Prop} {step : ParseM (Option α)} (h : Dies c X step) :
    ∀ bound, Dies c X (ShellGrammar.gather step bound)
  | 0 => fun _ _ _ _ _ _ _ hrun => nomatch hrun
  | _ + 1 => h.bind

/-! ### Words -/

theorem Agree.word (hg : Agree σ g g') :
    Paces σ c g.steps some1 (Grammar.word g) (Grammar.word g') := by
  have hspent : ∀ bound, Lapses c c.Spent (fun _ => c.Spent)
      (ShellGrammar.gather (Grammar.piece g true) bound) :=
    Follows.lapses_gather (Y := fun _ => c.Spent) (hg.piece true)
      ((hg.piece true).lapses fun _ _ => id) fun _ _ => id
  have hlost : ∀ bound, Lapses c c.Lost (fun _ => c.Spent)
      (ShellGrammar.gather (Grammar.piece g true) bound) :=
    fun bound => (hspent bound).of_lost (dies_piece.gather bound)
  have hrest : Paces σ c g.steps (fun _ => 0)
      (ShellGrammar.gather (Grammar.piece g true) g.steps)
      (ShellGrammar.gather (Grammar.piece g' true) g'.steps) :=
    Follows.gather (hg.piece true) (fun _ => id) (fun _ => hlost) g.steps g'.steps
      (Nat.le_refl _) hg.steps
  refine (hg.piece false).bind (fun o => ?_) fun o => ?_
  · cases o with
    | none => exact .pure rfl
    | some first =>
      exact .map (hrest.mono (fun _ _ => id) (Nat.sub_le _ _) fun _ => Nat.le_refl _)
  · cases o with
    | none => exact Lapses.pure fun _ => id
    | some first => exact Lapses.map (hlost g.steps)

theorem Agree.payload (hg : Agree σ g g') (hc : c.mode.rules ≠ .command) (rules : Rules) :
    Paces σ c g.steps (fun _ => 0) (Grammar.payload g rules) (Grammar.payload g' rules) := by
  have hword : Paces σ c g.steps (fun _ => 0) (withRules rules true (Grammar.word g))
      (withRules rules true (Grammar.word g')) :=
    (Follows.withRules hg.word).mono (fun _ _ h => ⟨hc, h.2⟩) (Nat.le_refl _) fun _ => Nat.zero_le _
  exact .map hword

/-! ### Strings and arithmetic expansions -/

/-- Where the left side may have come to inside double quotes. -/
def QuotedLost (c : Context) : Option Node → Scan → Prop
  | none => fun _ => False
  | some _ => c.Spent

theorem Agree.lapses_quotedPiece (hg : Agree σ g g') :
    Lapses c c.Spent (QuotedLost c) (Grammar.quotedPiece g) := by
  refine (misses_next rfl rfl).bind ?_
  refine (hg.piece false).lapses_bind (Y := fun _ => c.Spent)
    ((hg.piece false).lapses fun _ _ => id) fun o => ?_
  cases o with
  | none => exact dies_fail.lapses
  | some p => exact Lapses.pure fun _ => id

theorem Agree.quotedPiece (hg : Agree σ g g') (hc : c.mode.rules ≠ .command) :
    Follows σ c true (QuotedLost c) g.steps some1 (Grammar.quotedPiece g)
      (Grammar.quotedPiece g') := by
  refine .next_bind rfl ((hg.piece false).bind (fun o => ?_) fun o => ?_)
    (fun _ _ _ _ _ => .pure rfl) ?_
  · cases o with
    | none => exact .fail
    | some p => exact .pure rfl
  · cases o with
    | none => exact dies_fail.lapses
    | some p => exact Lapses.pure fun _ h => h.spent hc
  · refine (hg.piece false).lapses_bind (Y := fun _ => c.Spent)
      ((hg.piece false).lapses fun _ _ => id) fun o => ?_
    cases o with
    | none => exact dies_fail.lapses
    | some p => exact Lapses.pure fun _ => id

/-- The rest of a string is followed without exception. -/
theorem Agree.doubleQuotedRest (hg : Agree σ g g') :
    Follows σ c true (fun _ _ => False) g.steps (fun _ => 0) (Grammar.doubleQuotedRest g)
      (Grammar.doubleQuotedRest g') := by
  have hpiece := hg.quotedPiece (c := c.under .doubleQuote true) nofun
  have hlost : ∀ bound, Dies (c.under .doubleQuote true) (c.under .doubleQuote true).Spent
      (ShellGrammar.gather (Grammar.quotedPiece g) bound) :=
    hpiece.lapses_gather hg.lapses_quotedPiece fun _ _ => id
  exact .withRules (.map (Follows.gather hpiece (fun _ => id) (fun _ => hlost) g.steps g'.steps
    (Nat.le_refl _) hg.steps))

/-- A closing token that has to be there, and the end. -/
theorem dies_orFail {reader : ParseM (Option Token)} {expected : Expected} {a : α}
    {X : Scan → Prop} (h : Misses c X reader) :
    Dies c X (reader >>= fun o =>
      if o.isNone = true then ParseM.fail expected >>= fun _ : PUnit => pure a else pure a) :=
  h.bind dies_fail.bind

theorem Agree.arithExpansionRest (hg : Agree σ g g') :
    Follows σ c true (fun _ _ => False) g.steps (fun _ => 0) (Grammar.arithExpansionRest g)
      (Grammar.arithExpansionRest g') := by
  refine Follows.map (.withRules (Follows.bind hg.expression (fun body => ?_)
    fun body => dies_orFail (misses_accept rfl _)))
  exact .accept_bind rfl .fail_bind (fun _ _ _ => .pure rfl) dies_fail.bind

end ShellGrammar
