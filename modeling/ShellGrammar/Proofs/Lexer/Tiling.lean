import ShellGrammar.Lexer.Basic
import ShellGrammar.Proofs.Text.Place

/-! The tokens of a lexer tile the text it reads.

`Tiles s ts e` says that the tokens `ts` are laid end to end from the scan `s` to
the scan `e`: each begins where the one before it stops, and its blank and body are
the text found there. A lexer whose buffered tokens tile the text from its start to
the scan, and whose cursor is inside the buffer, is `Tiled`; what moves tokens and
cursor about keeps it so, and the lemmas beside it say what each of these does to
the tokens before the cursor (`consumed`) and after it (`ahead`). -/
namespace ShellGrammar

/-! ### Scans -/

namespace Scan

/-- A scan that stands somewhere in a text, at the position its place has there. -/
structure On (source : Text) (s : Scan) : Prop where
  whole : s.source = source
  placed : s.pos = Position.start.advance s.before.reverse

theorem on_ofText (source : Text) : On source (.ofText source) := ⟨rfl, rfl⟩

theorem before_forward (n : Nat) (s : Scan) :
    (forward n s).before = (s.rest.take n).reverse ++ s.before := by
  induction n generalizing s with
  | zero => rfl
  | succ n ih =>
    obtain ⟨p, before, rest⟩ := s
    cases rest with
    | nil => rfl
    | cons c t => simp [forward, ih]

theorem On.forward {source : Text} {s : Scan} (h : On source s) (n : Nat) :
    On source (s.forward n) := by
  refine ⟨by rw [source_forward, h.whole], ?_⟩
  rw [pos_forward, before_forward, List.reverse_append, List.reverse_reverse,
    Position.advance_append, h.placed]

theorem bytesRead_eq (s : Scan) : s.bytesRead = Text.bytes s.before := by
  have hfold : ∀ (t : Text) (n : Nat),
      t.foldl (fun n c => n + c.utf8Size) n = n + Text.bytes t := by
    intro t
    induction t with
    | nil => exact fun n => rfl
    | cons c t ih =>
      intro n
      rw [List.foldl_cons, ih, Text.bytes_cons, Nat.add_assoc]
  rw [bytesRead, hfold, Nat.zero_add]

/-- Where a scan passes for a cut, its source is cut into what was read and what is
left. -/
theorem cut_of_isCut {s : Scan} (h : s.isCut = true) :
    Text.takeBytes? s.pos.offset s.source = some s.before.reverse ∧
      Text.dropBytes? s.pos.offset s.source = some s.rest := by
  have hoffset : s.pos.offset = Text.bytes s.before.reverse := by
    rw [Text.bytes_reverse, ← bytesRead_eq]
    exact (beq_iff_eq.mp h).symm
  rw [hoffset]
  exact ⟨Text.takeBytes?_append _ _, Text.dropBytes?_append _ _⟩

/-- A text can be cut where a scan on it stands. -/
theorem On.isCut {source : Text} {s : Scan} (h : On source s) : s.isCut = true := by
  have hoffset : s.pos.offset = Text.bytes s.before := by
    rw [h.placed, Position.offset_advance, Text.bytes_reverse]
    exact Nat.zero_add _
  rw [Scan.isCut, bytesRead_eq, hoffset, BEq.rfl]

theorem has_iff {s : Scan} {n : Nat} : s.has n = true ↔ n ≤ s.rest.length := by
  rw [has, beq_iff_eq, List.length_take]
  omega

/-- The position of a scan on a text locates itself there. -/
theorem On.locates {source : Text} {s : Scan} (h : On source s) : s.pos.Locates source := by
  rw [← h.whole, h.placed]
  exact Position.locates_advance _ _

end Scan

/-! ### Tokens end to end -/

namespace Token

/-- What a token covers: the blank in front of it and its body. -/
def text (t : Token) : Text := t.blank ++ t.body

/-- What a token covers is what stands at its origin. -/
def Fits (t : Token) : Prop := t.text <+: t.origin.rest

theorem take_of_fits {t : Token} (h : t.Fits) :
    t.origin.rest.take (t.blank.length + t.body.length) = t.text := by
  rw [← List.length_append]
  exact (List.prefix_iff_eq_take.mp h).symm

theorem before_after {t : Token} (h : t.Fits) :
    t.after.before.reverse = t.origin.before.reverse ++ t.text := by
  rw [after, Scan.before_forward, take_of_fits h, List.reverse_append, List.reverse_reverse]

/-- A token stops where the scan past it stands. -/
theorem pos_after {t : Token} (h : t.Fits) : t.after.pos = t.stop := by
  rw [after, Scan.pos_forward, take_of_fits h, text, Position.advance_append]
  rfl

theorem rest_origin {t : Token} (h : t.Fits) : t.origin.rest = t.text ++ t.after.rest := by
  rw [after, Scan.rest_forward, ← take_of_fits h, List.take_append_drop]

theorem locates_start {source : Text} {t : Token} (ho : t.origin.On source) (h : t.Fits) :
    t.start.Locates source := by
  have hsource : source = (t.origin.before.reverse ++ t.blank) ++ (t.body ++ t.after.rest) := by
    rw [← ho.whole, Scan.source, rest_origin h, text]
    simp only [List.append_assoc]
  rw [start, ho.placed, ← Position.advance_append, hsource]
  exact Position.locates_advance _ _

/-- The span of a token has its body. -/
theorem slice_span {source : Text} {t : Token} (ho : t.origin.On source) (h : t.Fits) :
    t.span.slice source = t.body := by
  have hsource : source = (t.origin.before.reverse ++ t.blank) ++ (t.body ++ t.after.rest) := by
    rw [← ho.whole, Scan.source, rest_origin h, text]
    simp only [List.append_assoc]
  have hstart : t.start.offset = Text.bytes (t.origin.before.reverse ++ t.blank) := by
    rw [start, ho.placed, ← Position.advance_append, Position.offset_advance]
    exact Nat.zero_add _
  have hspan : t.span = ⟨Text.bytes (t.origin.before.reverse ++ t.blank),
      Text.bytes (t.origin.before.reverse ++ t.blank) + Text.bytes t.body⟩ := by
    rw [span, stop, Position.offset_advance, hstart]
  rw [hspan, hsource]
  exact Span.slice_append _ _ _

end Token

/-- Tokens laid end to end from one scan to another. -/
def Tiles : Scan → List Token → Scan → Prop
  | s, [], e => s = e
  | s, t :: ts, e => t.origin = s ∧ t.Fits ∧ Tiles t.after ts e

theorem tiles_append {s e : Scan} {ts us : List Token} :
    Tiles s (ts ++ us) e ↔ ∃ m, Tiles s ts m ∧ Tiles m us e := by
  induction ts generalizing s with
  | nil => simp [Tiles]
  | cons t ts ih => simp [Tiles, ih, and_assoc]

/-- A tiling that starts on a text covers it without a gap up to its end. -/
theorem Tiles.on {source : Text} {s e : Scan} {ts : List Token} (h : Tiles s ts e)
    (hs : s.On source) :
    e.On source ∧ e.before.reverse = s.before.reverse ++ ts.flatMap Token.text := by
  induction ts generalizing s with
  | nil =>
    subst h
    exact ⟨hs, by simp⟩
  | cons t ts ih =>
    obtain ⟨rfl, hfits, h⟩ := h
    obtain ⟨he, hbefore⟩ := ih h (hs.forward _)
    refine ⟨he, ?_⟩
    rw [hbefore, Token.before_after hfits, List.flatMap_cons, List.append_assoc]

theorem Tiles.token {source : Text} {s e : Scan} {ts : List Token} (h : Tiles s ts e)
    (hs : s.On source) {t : Token} (ht : t ∈ ts) : t.origin.On source ∧ t.Fits := by
  induction ts generalizing s with
  | nil => cases ht
  | cons u ts ih =>
    obtain ⟨rfl, hfits, h⟩ := h
    rcases List.mem_cons.mp ht with rfl | ht
    · exact ⟨hs, hfits⟩
    · exact ih h (hs.forward _) ht

theorem Tiles.origin_head {s e : Scan} {ts : List Token} (h : Tiles s ts e) {t : Token}
    (ht : ts[0]? = some t) : t.origin = s := by
  cases ts with
  | nil => cases ht
  | cons u ts =>
    cases ht
    exact h.1

theorem Tiles.origin_succ {s e : Scan} {ts : List Token} (h : Tiles s ts e) {i : Nat} {t u : Token}
    (ht : ts[i]? = some t) (hu : ts[i + 1]? = some u) : u.origin = t.after := by
  induction ts generalizing s i with
  | nil => cases ht
  | cons w ts ih =>
    cases i with
    | zero =>
      cases ht
      exact h.2.2.origin_head hu
    | succ i => exact ih h.2.2 ht hu

theorem Tiles.end_eq {s e : Scan} {ts : List Token} (h : Tiles s ts e) :
    e = (ts.getLast?.map Token.after).getD s := by
  induction ts generalizing s with
  | nil => exact h.symm
  | cons t ts ih =>
    have := ih h.2.2
    cases ts with
    | nil => simpa using this
    | cons u ts => simpa [List.getLast?_cons] using this

/-! ### What cutting a token yields -/

namespace Rules

theorem blankLength_le (rules : Rules) (t : Text) : rules.blankLength t ≤ t.length := by
  rw [blankLength]
  cases h : rules.set.blank.bind (·.reach t) with
  | none => exact Nat.zero_le _
  | some n =>
    obtain ⟨p, _, hp⟩ := Option.bind_eq_some_iff.mp h
    exact Pattern.reach_le hp

theorem commentLength_le (t : Text) : commentLength t ≤ t.length := by
  rw [commentLength]
  cases h : comment.reach t with
  | none => exact Nat.zero_le _
  | some n => exact Pattern.reach_le h

theorem skipLength_le (rules : Rules) (scan : Scan) :
    rules.skipLength scan ≤ scan.rest.length := by
  have hblank := blankLength_le rules scan.rest
  simp only [skipLength]
  split
  · have hcomment := commentLength_le (scan.rest.drop (rules.blankLength scan.rest))
    rw [List.length_drop] at hcomment
    omega
  · exact hblank

theorem fits_cut (kind : Kind) (skip length : Nat) (scan : Scan) :
    (cut kind skip length scan).Fits := by
  show scan.rest.take skip ++ (scan.rest.drop skip).take length <+: scan.rest
  rw [← List.take_add]
  exact List.take_prefix _ _

/-- A token is the end of the source behind the blank, or what the first fitting rule
takes there. -/
theorem tokenAt_cases {rules : Rules} {scan : Scan} {t : Token}
    (h : rules.tokenAt scan = .ok t) :
    (scan.rest.drop (rules.skipLength scan) = [] ∧
      t = cut .eos (rules.skipLength scan) 0 scan) ∨
    ∃ kind length, firstFit rules.set.rules (scan.rest.drop (rules.skipLength scan)) =
        some (kind, length) ∧
      t = cut kind (rules.skipLength scan) length scan := by
  simp only [tokenAt] at h
  split at h
  · rename_i hrest
    cases h
    exact .inl ⟨hrest, rfl⟩
  · rename_i c r hrest
    split at h
    · rename_i kind length hfit
      cases h
      exact .inr ⟨kind, length, by rw [hrest]; exact hfit, rfl⟩
    · cases h

/-- The blank of a token is what was skipped. -/
theorem blank_of_tokenAt {rules : Rules} {scan : Scan} {t : Token} (h : rules.tokenAt scan = .ok t) :
    t.blank = scan.rest.take (rules.skipLength scan) := by
  obtain ⟨_, rfl⟩ | ⟨_, _, _, rfl⟩ := tokenAt_cases h <;> rfl

/-- The token at a scan begins there and is what stands there. -/
theorem tokenAt_fits {rules : Rules} {scan : Scan} {t : Token}
    (h : rules.tokenAt scan = .ok t) : t.origin = scan ∧ t.Fits := by
  obtain ⟨_, rfl⟩ | ⟨kind, length, _, rfl⟩ := tokenAt_cases h
  · exact ⟨rfl, fits_cut ..⟩
  · exact ⟨rfl, fits_cut ..⟩

theorem takeAt_cases {rules : Rules} {pattern : Pattern} {kind : Kind} {allowBlank : Bool}
    {scan : Scan} {t : Token} (h : rules.takeAt pattern kind allowBlank scan = some t) :
    ∃ length, pattern.reach? (scan.rest.drop (rules.blankLength scan.rest)) = some length ∧
      t = cut kind (rules.blankLength scan.rest) length scan := by
  simp only [takeAt] at h
  split at h
  · cases h
  · obtain ⟨length, hreach, rfl⟩ := Option.map_eq_some_iff.mp h
    exact ⟨length, hreach, rfl⟩

theorem takeAt_fits {rules : Rules} {pattern : Pattern} {kind : Kind} {allowBlank : Bool}
    {scan : Scan} {t : Token} (h : rules.takeAt pattern kind allowBlank scan = some t) :
    t.origin = scan ∧ t.Fits := by
  obtain ⟨length, _, rfl⟩ := takeAt_cases h
  exact ⟨rfl, fits_cut ..⟩

end Rules

/-! ### Lexers -/

namespace Lexer

/-- The buffered tokens tile the source up to the scan, and the cursor is among them. -/
structure Tiled (source : Text) (l : Lexer) : Prop where
  cursor_le : l.next ≤ l.tokens.size
  tiles : Tiles (.ofText source) l.tokens.toList l.scan

/-- The tokens that were read and not consumed. -/
def ahead (l : Lexer) : List Token := l.tokens.toList.drop l.next

theorem consumed_append_ahead (l : Lexer) : l.consumed ++ l.ahead = l.tokens.toList :=
  List.take_append_drop _ _

theorem getElem?_next (l : Lexer) : l.tokens[l.next]? = l.ahead.head? := by
  rw [ahead, List.head?_drop, Array.getElem?_toList]

theorem tiled_ofText (source : Text) : Tiled source (.ofText source) := ⟨Nat.le_refl 0, rfl⟩

theorem Tiled.on {source : Text} {l : Lexer} (h : l.Tiled source) : l.scan.On source :=
  (h.tiles.on (Scan.on_ofText source)).1

theorem length_consumed {source : Text} {l : Lexer} (h : l.Tiled source) :
    l.consumed.length = l.next := by
  rw [consumed, List.length_take, Array.length_toList]
  exact Nat.min_eq_left h.cursor_le

/-- A lexer with nothing read ahead stands at the end of its buffer. -/
theorem next_eq_size {source : Text} {l : Lexer} (h : l.Tiled source) (ha : l.ahead = []) :
    l.next = l.tokens.size := by
  have hle := h.cursor_le
  have hge : l.tokens.size ≤ l.next := by
    rw [← Array.length_toList]
    exact List.drop_eq_nil_iff.mp ha
  omega

theorem Tiled.buffer {source : Text} {l : Lexer} (h : l.Tiled source) {t : Token}
    (ho : t.origin = l.scan) (hf : t.Fits) : (l.buffer t).Tiled source := by
  refine ⟨?_, ?_⟩
  · show l.next ≤ (l.tokens.push t).size
    rw [Array.size_push]
    exact Nat.le_succ_of_le h.cursor_le
  · show Tiles _ (l.tokens.push t).toList t.after
    rw [Array.toList_push, tiles_append]
    exact ⟨l.scan, h.tiles, ho, hf, rfl⟩

theorem consumed_buffer {source : Text} {l : Lexer} (h : l.Tiled source) (t : Token) :
    (l.buffer t).consumed = l.consumed := by
  show (l.tokens.push t).toList.take l.next = l.tokens.toList.take l.next
  rw [Array.toList_push, List.take_append_of_le_length]
  exact h.cursor_le

theorem ahead_buffer {source : Text} {l : Lexer} (h : l.Tiled source) (t : Token) :
    (l.buffer t).ahead = l.ahead ++ [t] := by
  show (l.tokens.push t).toList.drop l.next = l.tokens.toList.drop l.next ++ [t]
  rw [Array.toList_push, List.drop_append_of_le_length]
  exact h.cursor_le

theorem Tiled.consume {source : Text} {l : Lexer} (h : l.Tiled source) {t : Token}
    {rest : List Token} (ha : l.ahead = t :: rest) : l.consume.Tiled source := by
  refine ⟨?_, h.tiles⟩
  apply Nat.lt_of_not_le
  intro hle
  have hnil : l.ahead = [] := List.drop_eq_nil_of_le hle
  rw [ha] at hnil
  cases hnil

theorem consumed_consume {l : Lexer} {t : Token} {rest : List Token} (ha : l.ahead = t :: rest) :
    l.consume.consumed = l.consumed ++ [t] := by
  show l.tokens.toList.take (l.next + 1) = l.tokens.toList.take l.next ++ [t]
  have hget : l.tokens.toList[l.next]? = some t := by
    rw [Array.getElem?_toList, getElem?_next, ha]
    rfl
  rw [List.take_add_one, hget]
  rfl

theorem ahead_consume {l : Lexer} {t : Token} {rest : List Token} (ha : l.ahead = t :: rest) :
    l.consume.ahead = rest := by
  show l.tokens.toList.drop (l.next + 1) = rest
  rw [← List.drop_drop]
  show l.ahead.drop 1 = rest
  rw [ha]
  rfl

theorem Tiled.discard {source : Text} {l : Lexer} (h : l.Tiled source) :
    l.discard.Tiled source := by
  unfold Lexer.discard
  split
  · exact h
  · rename_i first hfirst
    have hsplit := h.tiles
    rw [← consumed_append_ahead, tiles_append] at hsplit
    obtain ⟨m, hconsumed, hahead⟩ := hsplit
    rw [getElem?_next] at hfirst
    have hm : first.origin = m := by
      apply hahead.origin_head
      rwa [← List.head?_eq_getElem?]
    refine ⟨?_, ?_⟩
    · show l.next ≤ (l.tokens.shrink l.next).size
      rw [Array.size_shrink]
      exact Nat.le_min.mpr ⟨Nat.le_refl _, h.cursor_le⟩
    · show Tiles _ (l.tokens.shrink l.next).toList first.origin
      rw [Array.toList_shrink, hm]
      exact hconsumed

theorem consumed_discard (l : Lexer) : l.discard.consumed = l.consumed := by
  unfold Lexer.discard
  split
  · rfl
  · show (l.tokens.shrink l.next).toList.take l.next = l.tokens.toList.take l.next
    rw [Array.toList_shrink, List.take_take, Nat.min_self]

theorem ahead_discard (l : Lexer) : l.discard.ahead = [] := by
  unfold Lexer.discard
  split
  · rename_i hnone
    rwa [getElem?_next, List.head?_eq_none_iff] at hnone
  · show (l.tokens.shrink l.next).toList.drop l.next = []
    rw [Array.toList_shrink, List.drop_eq_nil_iff, List.length_take]
    exact Nat.min_le_left _ _

theorem modes_discard (l : Lexer) : l.discard.modes = l.modes := by
  unfold Lexer.discard
  split <;> rfl

theorem mode_discard (l : Lexer) : l.discard.mode = l.mode := by
  rw [mode, modes_discard]
  rfl

/-- The modes and the log have no part in the tiling. -/
theorem Tiled.withModes {source : Text} {l : Lexer} (h : l.Tiled source) (modes : List Mode)
    (log : List Event) : Tiled source { l with modes, log } := ⟨h.cursor_le, h.tiles⟩

theorem Tiled.enter {source : Text} {l : Lexer} (h : l.Tiled source) (rules : Rules)
    (allowBlank : Bool) : (l.enter rules allowBlank).Tiled source :=
  h.discard.withModes _ _

theorem consumed_enter (l : Lexer) (rules : Rules) (allowBlank : Bool) :
    (l.enter rules allowBlank).consumed = l.consumed := consumed_discard l

/-- Leaving a rule set drops what was read ahead and changes the modes and the log. -/
theorem leave?_cases {l l' : Lexer} (h : l.leave? = some l') :
    ∃ m modes log, l.modes = m :: modes ∧ l' = { l.discard with modes, log } := by
  unfold leave? at h
  split at h
  · cases h
  · rename_i m modes hm
    refine ⟨m, modes, l'.log, hm, ?_⟩
    cases h
    unfold Lexer.discard
    cases l.tokens[l.next]? <;> rfl

end Lexer

end ShellGrammar
