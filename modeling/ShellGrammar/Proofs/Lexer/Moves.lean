import ShellGrammar.Proofs.Lexer.Reading

/-! Whatever is asked of a lexer, it loses no text.

A `Move` is one thing that can be asked of a lexer, and `Lexer.run` is the lexer
after a list of them, whether each succeeded, found nothing or stopped at a fault.
Entering and leaving a rule set are moves of their own, so the lists include every
nesting of blocks under a rule set, blocks cut short by a fault, and the lexers in
the middle of a block. A move keeps a lexer tiled (`Move.tiled_after`), and only
stepping back takes a consumed token away (`Move.consumed_after`); so after any list
of moves the buffer is an exact account of the text before the scan
(`run_accounts`). -/
namespace ShellGrammar

/-- What can be asked of a lexer. A block under a rule set is `enter`, the moves of the
block, and `leave` on every way out. -/
inductive Move where
  | peek (kinds : List Kind)
  | next (kinds : List Kind)
  | peekAny
  | peekAdjacent (kinds : List Kind)
  | back
  | accept (pattern : Pattern) (kind : Kind)
  | acceptWith (pattern : Pattern) (kind : Kind) (allowBlank : Bool)
  | enter (rules : Rules) (allowBlank : Bool)
  | leave

namespace Lexer

/-- The lexer that a computation leaves behind, whichever way it ended. -/
def after {α : Type} (act : LexM α) (l : Lexer) : Lexer :=
  match act l with
  | .ok _ l' => l'
  | .error _ l' => l'

end Lexer

/-- The lexer after a move. -/
def Move.after : Move → Lexer → Lexer
  | peek kinds => Lexer.after (LexM.peek kinds)
  | next kinds => Lexer.after (LexM.next kinds)
  | peekAny => Lexer.after LexM.peekAny
  | peekAdjacent kinds => Lexer.after (LexM.peekAdjacent kinds)
  | back => Lexer.after LexM.back
  | accept pattern kind => Lexer.after (LexM.accept pattern kind)
  | acceptWith pattern kind allowBlank => Lexer.after (LexM.acceptWith pattern kind allowBlank)
  | enter rules allowBlank => Lexer.enter rules allowBlank
  | leave => Lexer.after LexM.leave

/-- The lexer after a list of moves. -/
def Lexer.run (l : Lexer) : List Move → Lexer
  | [] => l
  | m :: rest => run (m.after l) rest

/-! ### One move -/

section OneMove
variable {source : Text} {l : Lexer}

theorem after_peekAny (h : l.Tiled source) :
    (Lexer.after LexM.peekAny l).Tiled source ∧
      (Lexer.after LexM.peekAny l).consumed = l.consumed := by
  unfold Lexer.after
  obtain ⟨t, l', hok, hl'⟩ | ⟨f, herr, _⟩ := LexM.peekAny_cases h
  · rw [hok]
    exact ⟨hl'.tiled, hl'.consumed⟩
  · rw [herr]
    exact ⟨h, rfl⟩

/-- Looking at a token changes a lexer as reading it does. -/
theorem after_peek (kinds : List Kind) :
    Lexer.after (LexM.peek kinds) l = Lexer.after LexM.peekAny l := by
  simp only [Lexer.after, LexM.peek_eq]
  cases LexM.peekAny l <;> rfl

theorem after_peekAdjacent (kinds : List Kind) :
    Lexer.after (LexM.peekAdjacent kinds) l = Lexer.after LexM.peekAny l := by
  simp only [Lexer.after, LexM.peekAdjacent_eq]
  cases LexM.peekAny l <;> rfl

theorem after_next (h : l.Tiled source) (kinds : List Kind) :
    (Lexer.after (LexM.next kinds) l).Tiled source ∧
      l.consumed <+: (Lexer.after (LexM.next kinds) l).consumed := by
  simp only [Lexer.after, LexM.next_eq]
  obtain ⟨t, l', hok, hl'⟩ | ⟨f, herr, _⟩ := LexM.peekAny_cases h
  · obtain ⟨rest, ha⟩ := hl'.ahead
    rw [hok, ← hl'.consumed]
    by_cases hv : t.isVisible kinds l'.mode.allowBlank = true
    · simp only [hv, if_true]
      exact ⟨hl'.tiled.consume ha, by rw [Lexer.consumed_consume ha]; exact List.prefix_append _ _⟩
    · simp only [hv]
      exact ⟨hl'.tiled, List.prefix_refl _⟩
  · rw [herr]
    exact ⟨h, List.prefix_refl _⟩

theorem after_back (h : l.Tiled source) : (Lexer.after LexM.back l).Tiled source := by
  unfold Lexer.after LexM.back
  cases hn : l.next with
  | zero => exact h
  | succ n =>
    have := h.cursor_le
    exact ⟨by show n ≤ l.tokens.size; omega, h.tiles⟩

theorem after_acceptWith (h : l.Tiled source) (pattern : Pattern) (kind : Kind)
    (allowBlank : Bool) :
    (Lexer.after (LexM.acceptWith pattern kind allowBlank) l).Tiled source ∧
      l.consumed <+: (Lexer.after (LexM.acceptWith pattern kind allowBlank) l).consumed := by
  unfold Lexer.after
  obtain ⟨hnone, _⟩ | ⟨t, l', hsome, _, htiled, hconsumed, _⟩ :=
    LexM.acceptWith_cases h pattern kind allowBlank
  · rw [hnone]
    exact ⟨h.discard, by simpa only [Lexer.consumed_discard] using List.prefix_refl l.consumed⟩
  · rw [hsome]
    exact ⟨htiled, by rw [hconsumed]; exact List.prefix_append _ _⟩

theorem after_leave (h : l.Tiled source) :
    (Lexer.after LexM.leave l).Tiled source ∧
      (Lexer.after LexM.leave l).consumed = l.consumed := by
  unfold Lexer.after LexM.leave
  cases hl : l.leave? with
  | none => exact ⟨h, rfl⟩
  | some l' =>
    obtain ⟨m, modes, log, _, rfl⟩ := Lexer.leave?_cases hl
    exact ⟨h.discard.withModes _ _, Lexer.consumed_discard l⟩

/-- A move keeps a lexer tiled. -/
theorem Move.tiled_after (m : Move) (h : l.Tiled source) : (m.after l).Tiled source := by
  cases m with
  | peek kinds =>
    rw [Move.after, after_peek]
    exact (after_peekAny h).1
  | next kinds => exact (after_next h kinds).1
  | peekAny => exact (after_peekAny h).1
  | peekAdjacent kinds =>
    rw [Move.after, after_peekAdjacent]
    exact (after_peekAny h).1
  | back => exact after_back h
  | accept pattern kind => exact (after_acceptWith h pattern kind l.mode.allowBlank).1
  | acceptWith pattern kind allowBlank => exact (after_acceptWith h pattern kind allowBlank).1
  | enter rules allowBlank => exact h.enter rules allowBlank
  | leave => exact (after_leave h).1

/-- Every move but a step back leaves the consumed tokens in front of those consumed
afterwards. -/
theorem Move.consumed_after (m : Move) (h : l.Tiled source) (hm : m ≠ .back) :
    l.consumed <+: (m.after l).consumed := by
  cases m with
  | peek kinds =>
    simpa only [Move.after, after_peek, (after_peekAny h).2] using List.prefix_refl l.consumed
  | next kinds => exact (after_next h kinds).2
  | peekAny =>
    simpa only [Move.after, (after_peekAny h).2] using List.prefix_refl l.consumed
  | peekAdjacent kinds =>
    simpa only [Move.after, after_peekAdjacent, (after_peekAny h).2] using List.prefix_refl l.consumed
  | back => exact absurd rfl hm
  | accept pattern kind => exact (after_acceptWith h pattern kind l.mode.allowBlank).2
  | acceptWith pattern kind allowBlank => exact (after_acceptWith h pattern kind allowBlank).2
  | enter rules allowBlank =>
    simpa only [Move.after, Lexer.consumed_enter] using List.prefix_refl l.consumed
  | leave =>
    simpa only [Move.after, (after_leave h).2] using List.prefix_refl l.consumed

end OneMove

/-! ### Any number of moves -/

theorem Lexer.tiled_run {source : Text} (moves : List Move) (l : Lexer) (h : l.Tiled source) :
    (l.run moves).Tiled source := by
  induction moves generalizing l with
  | nil => exact h
  | cons m rest ih => exact ih (m.after l) (m.tiled_after h)

/-- The buffer is an exact account of the source before the scan: tokens without a gap
or an overlap, each with the text its span has, and every place where the source has
it. -/
structure Lexer.Accounts (source : Text) (l : Lexer) : Prop where
  cursor_le : l.next ≤ l.tokens.size
  first_origin : ∀ t, l.tokens[0]? = some t → t.origin.pos = .start
  next_origin : ∀ i t u, l.tokens[i]? = some t → l.tokens[i + 1]? = some u →
    u.origin.pos = t.stop
  scan_pos : l.scan.pos = (l.tokens.back?.map Token.stop).getD .start
  /-- The blanks and bodies of all tokens are the source up to the scan. -/
  text : Text.takeBytes? l.scan.pos.offset source =
    some (l.tokens.toList.flatMap fun t => t.blank ++ t.body)
  slice : ∀ t ∈ l.tokens, t.span.slice source = t.body
  locates_start : ∀ t ∈ l.tokens, t.start.Locates source
  locates_scan : l.scan.pos.Locates source

theorem Lexer.Tiled.accounts {source : Text} {l : Lexer} (h : l.Tiled source) :
    l.Accounts source := by
  have hstart := Scan.on_ofText source
  have htoken : ∀ t ∈ l.tokens, t.origin.On source ∧ t.Fits := fun t ht =>
    h.tiles.token hstart (Array.mem_toList_iff.mpr ht)
  obtain ⟨hscan, hbefore⟩ := h.tiles.on hstart
  refine ⟨h.cursor_le, ?_, ?_, ?_, ?_, ?_, ?_, hscan.locates⟩
  · intro t ht
    rw [← Array.getElem?_toList] at ht
    rw [h.tiles.origin_head ht]
    rfl
  · intro i t u ht hu
    have hfits := (htoken t (Array.mem_of_getElem? ht)).2
    rw [← Array.getElem?_toList] at ht hu
    rw [h.tiles.origin_succ ht hu, Token.pos_after hfits]
  · rw [h.tiles.end_eq, ← Array.getLast?_toList]
    cases hlast : l.tokens.toList.getLast? with
    | none => rfl
    | some t =>
      have ht := List.mem_of_getLast? hlast
      exact Token.pos_after (htoken t (Array.mem_toList_iff.mp ht)).2
  · have hoffset : l.scan.pos.offset = Text.bytes l.scan.before.reverse := by
      rw [hscan.placed, Position.offset_advance]
      exact Nat.zero_add _
    have hsource : l.scan.before.reverse ++ l.scan.rest = source := hscan.whole
    have htake := Text.takeBytes?_append l.scan.before.reverse l.scan.rest
    rw [← hoffset, hsource] at htake
    rw [htake, hbefore]
    rfl
  · intro t ht
    exact Token.slice_span (htoken t ht).1 (htoken t ht).2
  · intro t ht
    exact Token.locates_start (htoken t ht).1 (htoken t ht).2

/-- **No text is lost.** After any moves the buffer is an exact account of the source
before the scan, and no further move but a step back changes what was consumed. -/
theorem run_accounts (source : Text) (moves : List Move) :
    ((Lexer.ofText source).run moves).Accounts source ∧
      ∀ m : Move, m ≠ .back →
        ((Lexer.ofText source).run moves).consumed <+:
          (m.after ((Lexer.ofText source).run moves)).consumed := by
  have h := Lexer.tiled_run moves (.ofText source) (Lexer.tiled_ofText source)
  exact ⟨h.accounts, fun m hm => m.consumed_after h hm⟩

/-- A fault in the middle of a block: the token read ahead under the outer rules is
dropped, `@` starts no token of arithmetic, and the next move is made all the same. -/
theorem run_accounts_fault :
    ((Lexer.ofText "a\n@".toList).run [.next [], .peek [], .enter .arith true, .next []]).Accounts
        "a\n@".toList ∧
      ((Lexer.ofText "a\n@".toList).run
          [.next [], .peek [], .enter .arith true, .next []]).consumed <+:
        (Move.leave.after ((Lexer.ofText "a\n@".toList).run
          [.next [], .peek [], .enter .arith true, .next []])).consumed := by
  have h := run_accounts "a\n@".toList [.next [], .peek [], .enter .arith true, .next []]
  exact ⟨h.1, h.2 .leave (fun he => nomatch he)⟩

end ShellGrammar
