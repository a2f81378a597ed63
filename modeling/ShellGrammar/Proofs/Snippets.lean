import ShellGrammar.Proofs.Faults

/-! What a snippet marks.

Under its message a snippet quotes a line of the source, and under the line stand carets. For a
fault of a parse this is the line around the place where the offending text starts, in front of
which as many characters are passed over as stand there on the line (`parse_marked`). The carets
are one for each byte of the offending text, but at least one and none past the end of the line.
So they are as many as its characters on that line unless it holds a character of several bytes,
ends on the line and has something behind it there; and they stand right under it unless the line
number takes more than the three places that are left for it. -/
namespace ShellGrammar

/-! ### The line around a place -/

namespace Text

/-- The front of a text up to its first newline. -/
def firstLine (t : Text) : Text := t.takeWhile (· != '\n')

/-- The end of a text behind its last newline. -/
def lastLine (t : Text) : Text := (t.reverse.takeWhile (· != '\n')).reverse

theorem firstLine_append {a : Text} (h : '\n' ∉ a) (b : Text) :
    firstLine (a ++ b) = a ++ firstLine b :=
  List.takeWhile_append_of_pos fun _ hc => bne_iff_ne.mpr fun heq => h (heq ▸ hc)

theorem firstLine_eq_self {t : Text} (h : '\n' ∉ t) : firstLine t = t := by
  have happend := firstLine_append h []
  rwa [List.append_nil, show firstLine [] = [] from rfl, List.append_nil] at happend

theorem firstLine_append_of_mem {a : Text} (h : '\n' ∈ a) (b : Text) :
    firstLine (a ++ b) = firstLine a := by
  induction a with
  | nil => cases h
  | cons c a ih =>
    by_cases hc : c = '\n'
    · simp [firstLine, hc]
    · have hmem : '\n' ∈ a := (List.mem_cons.mp h).resolve_left (Ne.symm hc)
      have htail := ih hmem
      simp only [firstLine] at htail
      simp [firstLine, hc, htail]

theorem lastLine_eq_self {t : Text} (h : '\n' ∉ t) : lastLine t = t := by
  have hself := firstLine_eq_self (mt List.mem_reverse.mp h)
  rw [firstLine] at hself
  rw [lastLine, hself, List.reverse_reverse]

/-- What stands in front of a newline is on no line behind it. -/
theorem lastLine_cons {c : Char} {t : Text} (h : c = '\n' ∨ '\n' ∈ t) :
    lastLine (c :: t) = lastLine t := by
  suffices hline : firstLine (t.reverse ++ [c]) = firstLine t.reverse by
    rw [lastLine, List.reverse_cons]
    exact congrArg List.reverse hline
  by_cases hmem : '\n' ∈ t
  · exact firstLine_append_of_mem (List.mem_reverse.mpr hmem) [c]
  · have hnone : '\n' ∉ t.reverse := mt List.mem_reverse.mp hmem
    rw [firstLine_append hnone, firstLine_eq_self hnone, h.resolve_right hmem]
    exact List.append_nil _

theorem lineBelow_cons {c : Char} (hc : c ≠ '\n') (n : Nat) (t : Text) :
    lineBelow (n + 1) (c :: t) = lineBelow (n + 1) t := by
  simp [lineBelow, hc]

/-- As many lines below the start as newlines are passed stands the line around the place where
one text ends and another goes on. -/
theorem lineBelow_append (before rest : Text) :
    lineBelow (before.count '\n') (before ++ rest) = lastLine before ++ firstLine rest := by
  induction before with
  | nil => rfl
  | cons c before ih =>
    by_cases hc : c = '\n'
    · rw [lastLine_cons (.inl hc), ← ih, hc, List.count_cons_self]
      rfl
    · rw [List.count_cons_of_ne hc]
      by_cases hmem : '\n' ∈ before
      · obtain ⟨n, hn⟩ := Nat.exists_eq_add_of_lt (List.count_pos_iff.mpr hmem)
        rw [Nat.zero_add] at hn
        rw [hn] at ih ⊢
        rw [lastLine_cons (.inr hmem), List.cons_append, lineBelow_cons hc, ih]
      · have hnone : '\n' ∉ c :: before := by simp [Ne.symm hc, hmem]
        rw [lastLine_eq_self hnone, List.count_eq_zero.mpr hmem]
        exact firstLine_append hnone rest

theorem length_le_bytes (t : Text) : t.length ≤ bytes t := by
  induction t with
  | nil => exact Nat.le_refl _
  | cons c t ih =>
    have hc := Char.utf8Size_pos c
    rw [List.length_cons, bytes_cons]
    omega

/-- A text has as many bytes as characters if each of them has one. -/
theorem bytes_eq_length_iff (t : Text) : bytes t = t.length ↔ ∀ c ∈ t, c.utf8Size = 1 := by
  induction t with
  | nil => simp
  | cons c t ih =>
    have hc := Char.utf8Size_pos c
    have hle := length_le_bytes t
    rw [List.forall_mem_cons, ← ih, bytes_cons, List.length_cons]
    omega

end Text

/-- A position that is located in a text has passed what stands in front of it. -/
theorem Position.Locates.passed {p : Position} {before rest : Text} (h : p.Locates (before ++ rest))
    (hoffset : p.offset = Text.bytes before) :
    p.line = 1 + before.count '\n' ∧ p.col = 1 + (Text.lastLine before).length := by
  obtain ⟨passed, htake, hline, hcol⟩ := h
  rw [hoffset, Text.takeBytes?_append] at htake
  obtain rfl := Option.some.inj htake
  rw [Text.lastLine, List.length_reverse]
  exact ⟨hline, hcol⟩

/-! ### What a snippet looks like -/

namespace Snippet
open Text

/-- The message and the place, above the lines that are shown. -/
def heading (s : Snippet) : Text :=
  "error: ".toList ++ s.message ++ "\n  --> line ".toList ++ Text.ofNat s.line ++
    ", column ".toList ++ Text.ofNat s.col ++ "\n    |".toList

/-- What stands in front of the line. -/
def gutter (s : Snippet) : Text := padLeft 3 (Text.ofNat s.line) ++ " | ".toList

/-- What stands in front of the carets. -/
def margin (s : Snippet) : Text := "    | ".toList ++ List.replicate (s.col - 1) ' '

theorem render_eq (s : Snippet) :
    s.render = s.heading ++ '\n' :: (s.gutter ++ s.content) ++
      '\n' :: (s.margin ++ List.replicate s.carets '^') := by
  have hhead : "\n    |\n".toList = "\n    |".toList ++ ['\n'] := by simp
  have hmargin : "\n    | ".toList = '\n' :: "    | ".toList := by simp
  unfold render heading gutter margin
  rw [hhead, hmargin]
  simp only [List.append_assoc, List.cons_append, List.nil_append]

/-- Behind the margin stands what is as far behind the gutter, as long as the line number has no
more than three digits. -/
theorem length_margin_iff (s : Snippet) :
    s.margin.length = s.gutter.length + (s.col - 1) ↔ s.line < 1000 := by
  have hdigits : (Text.ofNat s.line).length ≤ 3 ↔ s.line < 10 ^ 3 :=
    Nat.length_toDigits_le_iff (by decide) (by decide)
  have hmargin : s.margin.length = 6 + (s.col - 1) := by
    rw [margin, List.length_append, List.length_replicate]
    rfl
  have hgutter : s.gutter.length = 3 - (Text.ofNat s.line).length + (Text.ofNat s.line).length + 3 := by
    rw [gutter, padLeft, List.length_append, List.length_append, List.length_replicate]
    rfl
  omega

/-- A snippet is about a text between two others: it shows the line around the place where this
starts, and its carets start there. -/
structure Marks (s : Snippet) (before body after : Text) : Prop where
  /-- The last two lines are the line around the place and the carets. -/
  render : s.render = s.heading ++ '\n' :: (s.gutter ++ (lastLine before ++ firstLine (body ++ after))) ++
    '\n' :: (s.margin ++ List.replicate s.carets '^')
  /-- The first caret stands where the text starts, or one column in front of it or more. -/
  under_iff : s.margin.length = (s.gutter ++ lastLine before).length ↔ before.count '\n' < 999
  /-- There is a caret for each byte, up to the end of the line. -/
  carets : s.carets = max 1 (min (bytes body) (firstLine (body ++ after)).length)
  /-- There are as many carets as characters of the text on the line. -/
  covers_iff : s.carets = max 1 (firstLine body).length ↔
    (∀ c ∈ body, c.utf8Size = 1) ∨ '\n' ∈ body ∨ firstLine after = []

/-- Carets for bytes are as many as characters on the line if there is a byte for each of them, or
if nothing else stands behind them. -/
theorem carets_eq_iff (body after : Text) :
    max 1 (min (bytes body) (firstLine (body ++ after)).length) = max 1 (firstLine body).length ↔
      (∀ c ∈ body, c.utf8Size = 1) ∨ '\n' ∈ body ∨ firstLine after = [] := by
  have hle := length_le_bytes body
  have hnil : body.length = 0 → bytes body = 0 := fun h => by rw [List.eq_nil_of_length_eq_zero h, bytes_nil]
  rw [← bytes_eq_length_iff, ← List.length_eq_zero_iff]
  by_cases hmem : '\n' ∈ body
  · have hline : (firstLine body).length ≤ body.length := (List.takeWhile_prefix _).length_le
    rw [firstLine_append_of_mem hmem, Nat.min_eq_right (by omega)]
    simp only [hmem, true_or, or_true]
  · rw [firstLine_append hmem, firstLine_eq_self hmem, List.length_append]
    simp only [hmem, false_or]
    omega

/-- A snippet at the line and column of a place marks what stands there. -/
theorem marks_ofSource {before body after message : Text} {p : Position} {span : Span}
    (hplace : p.Locates (before ++ (body ++ after))) (hoffset : p.offset = bytes before)
    (hspan : span = ⟨bytes before, bytes before + bytes body⟩) :
    (ofSource (before ++ (body ++ after)) span p.line p.col message).Marks before body after := by
  obtain ⟨hline, hcol⟩ := hplace.passed hoffset
  let s := ofSource (before ++ (body ++ after)) span p.line p.col message
  have hcontent : s.content = lastLine before ++ firstLine (body ++ after) := by
    show Text.line _ p.line = _
    rw [Text.line, hline, Nat.add_sub_cancel_left, lineBelow_append]
  have hbytes : span.bytes = bytes body := by
    rw [hspan, Span.bytes, Nat.add_sub_cancel_left]
  have hcarets : s.carets = max 1 (min (bytes body) (firstLine (body ++ after)).length) := by
    show max (min span.bytes (s.content.length - (p.col - 1))) 1 = _
    rw [hcontent, hbytes, hcol, Nat.add_sub_cancel_left, List.length_append, Nat.add_sub_cancel_left,
      Nat.max_comm]
  refine ⟨hcontent ▸ s.render_eq, ?_, hcarets, hcarets ▸ carets_eq_iff body after⟩
  have hmargin : s.margin.length = s.gutter.length + (p.col - 1) ↔ p.line < 1000 := s.length_margin_iff
  rw [hline, hcol, Nat.add_sub_cancel_left] at hmargin
  rw [List.length_append]
  exact hmargin.trans (by omega)

end Snippet

/-! ### Faults of a parse -/

/-- A fault points at what the last look of the parse came upon. -/
theorem parse_points {options : Options} {source : Text} {f : Fault}
    (h : parse options source = .error (.fault f)) : ∃ mode, f.Points source options.maxDepth mode := by
  obtain ⟨front, m, leaves, hmoves, -, htells⟩ := parse_blames h
  have hafter : lexerAfter options source front.length = (Lexer.ofText source).run front := by
    rw [lexerAfter, hmoves, List.take_left]
  exact ⟨_, htells.points (hafter ▸ current_lexerAfter options source front.length)⟩

/-- **The carets mark the text at fault.** The snippet of a fault that a parse stops at marks the
text that the fault points at. -/
theorem parse_marked {options : Options} {source : Text} {f : Fault} (label : String)
    (h : parse options source = .error (.fault f)) :
    ∃ before body after, source = before ++ (body ++ after) ∧
      f.span = ⟨Text.bytes before, Text.bytes before + Text.bytes body⟩ ∧
      (f.snippet label source).Marks before body after := by
  obtain ⟨mode, hplace, before, body, after, rfl, hspan, -⟩ := parse_points h
  have hoffset : f.start.offset = Text.bytes before := congrArg Span.start hspan
  exact ⟨before, body, after, rfl, hspan, Snippet.marks_ofSource hplace hoffset hspan⟩

/-- Under a letter of two bytes, with a brace behind it, stand two carets. -/
theorem parse_marked_letter :
    ∃ f, parse ⟨0⟩ "$\x7bé\x7d".toList = .error (.fault f) ∧ (f.snippet "a" "$\x7bé\x7d".toList).carets = 2 ∧
      ∃ before body after, "$\x7bé\x7d".toList = before ++ (body ++ after) ∧
        f.span = ⟨Text.bytes before, Text.bytes before + Text.bytes body⟩ ∧
        (f.snippet "a" "$\x7bé\x7d".toList).Marks before body after := by
  have hstop : parse ⟨0⟩ "$\x7bé\x7d".toList =
      .error (.fault ⟨.syntactic .parameterName "`é`".toList, ⟨2, 1, 3⟩, ⟨4, 1, 4⟩⟩) :=
    parse_of_stop (by decide +kernel)
  exact ⟨_, hstop, by decide +kernel, parse_marked "a" hstop⟩

end ShellGrammar
