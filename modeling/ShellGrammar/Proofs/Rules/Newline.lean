import ShellGrammar.Proofs.Rules.Behind

/-! What is read before a newline.

A newline behind a text is blank in some rule sets and text in others, and a backslash in
front of it makes it blank everywhere. Blank takes the same from a text with a newline
behind it, or stops where only spaces, tabs, newlines and backslashes are left
(`blankLength_newline`); bare text takes the same unless it reaches the edge
(`firstFit_newline`). -/
namespace ShellGrammar

namespace Pattern

theorem steady_blankPiece (cs : Text) :
    Steady '\n' (Edge (cs.contains '\n')) (.alt (.oneOf cs) (.lit ['\\', '\n'])) := by
  intro t more hE
  cases t with
  | nil =>
    have hnl : cs.contains '\n' = false := Bool.eq_false_iff.mpr fun h => hE (.inr ⟨rfl, h⟩)
    rw [List.nil_append]
    simp only [reach, oneOf, hnl]
    rfl
  | cons c t =>
    have hlit : List.isPrefixOf ['\\', '\n'] (c :: (t ++ '\n' :: more)) =
        List.isPrefixOf ['\\', '\n'] (c :: t) := by
      by_cases hc : c = '\\'
      · cases t with
        | nil => exact absurd rfl (not_edge_cons hE hc)
        | cons d t => simp [List.isPrefixOf]
      · have hfront : ('\\' == c) = false := beq_eq_false_iff_ne.mpr (Ne.symm hc)
        simp [List.isPrefixOf, hfront]
    rw [List.cons_append]
    simp only [reach, hlit, oneOf]

theorem blankPiece_edge {cs : Text} (hcs : '\\' ∉ cs) (t : Text) (h : Edge (cs.contains '\n') t) :
    reach (.alt (.oneOf cs) (.lit ['\\', '\n'])) t = none := by
  obtain rfl | ⟨rfl, _⟩ := h
  · simp [reach, oneOf, hcs, List.isPrefixOf]
  · rfl

end Pattern

/-! ### Blank -/

namespace Text

/-- Whether a text holds nothing but spaces, tabs, newlines and backslashes. -/
def isBarren (t : Text) : Bool := t.all [' ', '\t', '\n', '\\'].contains

/-- Whether a text holds no character that closes a string, an expansion or an arithmetic
expression. -/
def closesNothing (t : Text) : Bool := t.all fun c => !(['"', '}', ')'].contains c)

theorem closesNothing_of_suffix {t u : Text} (h : u <:+ t) (ht : t.closesNothing = true) :
    u.closesNothing = true := by
  rw [closesNothing, List.all_eq_true] at ht ⊢
  exact fun c hc => ht c (h.subset hc)

theorem closesNothing_append (t u : Text) :
    closesNothing (t ++ u) = (t.closesNothing && u.closesNothing) := List.all_append

theorem closesNothing_of_barren {t : Text} (h : t.isBarren = true) : t.closesNothing = true := by
  rw [isBarren, List.all_eq_true] at h
  rw [closesNothing, List.all_eq_true]
  intro c hc
  have hmem := h c hc
  simp only [List.contains_iff_mem, List.mem_cons, List.not_mem_nil, or_false] at hmem
  rcases hmem with rfl | rfl | rfl | rfl <;> rfl

theorem isNameRest_of_start {c : Char} (h : isNameStart c = true) : isNameRest c = true := by
  rw [isNameStart, Bool.or_eq_true] at h
  rw [isNameRest, Bool.or_eq_true]
  refine h.imp (fun halpha => ?_) id
  rw [Char.isAlphanum, halpha, Bool.true_or]

/-- A name is more than nothing, and its first character may start one. -/
theorem exists_cons_of_name {t : Text} (h : t.isVariableName = true) :
    ∃ c more, t = c :: more ∧ isNameStart c = true := by
  cases t with
  | nil => cases h
  | cons c more => exact ⟨c, more, rfl, (Bool.and_eq_true_iff.mp h).1⟩

/-- All of a name is what names go on in. -/
theorem isNameRest_of_mem {t : Text} {c : Char} (h : t.isVariableName = true) (hc : c ∈ t) :
    isNameRest c = true := by
  cases t with
  | nil => cases h
  | cons d t =>
    obtain ⟨hd, ht⟩ := Bool.and_eq_true_iff.mp h
    rcases List.mem_cons.mp hc with rfl | hc
    · exact isNameRest_of_start hd
    · exact List.all_eq_true.mp ht c hc

/-- A name closes nothing. -/
theorem closesNothing_of_name {t : Text} (h : t.isVariableName = true) :
    t.closesNothing = true := by
  have hrest : ∀ c, isNameRest c = true → (!(['"', '}', ')'].contains c)) = true := by
    intro c hc
    rw [Bool.not_eq_true', ← Bool.not_eq_true, List.contains_iff_mem]
    intro hmem
    simp only [List.mem_cons, List.not_mem_nil, or_false] at hmem
    rcases hmem with rfl | rfl | rfl <;> cases hc
  exact List.all_eq_true.mpr fun c hc => hrest c (isNameRest_of_mem h hc)

end Text

namespace Rules
open Pattern

/-- Whether blank can hold a newline that is not escaped. -/
def blankTakesNewline : Rules → Bool
  | arith => true
  | _ => false

/-- The characters that are blank, where there is any. -/
theorem blank_eq (rules : Rules) :
    rules.set.blank = none ∨ ∃ cs : Text, rules.set.blank = some (blankOf cs) ∧ '\\' ∉ cs ∧
      cs.isBarren = true ∧ cs.contains '\n' = rules.blankTakesNewline := by
  cases rules with
  | command => exact .inr ⟨[' ', '\t'], rfl, by decide, rfl, rfl⟩
  | param => exact .inr ⟨[' ', '\t'], rfl, by decide, rfl, rfl⟩
  | arith => exact .inr ⟨[' ', '\t', '\n'], rfl, by decide, rfl, rfl⟩
  | doubleQuote => exact .inl rfl
  | wordUntilBrace => exact .inl rfl
  | wordUntilSlash => exact .inl rfl

/-- Blank takes the same, or stops at an edge. -/
theorem blankLength_newline (rules : Rules) (t more : Text) :
    rules.blankLength (t ++ '\n' :: more) = rules.blankLength t ∨
      Edge rules.blankTakesNewline (t.drop (rules.blankLength t)) := by
  obtain hnone | ⟨cs, hsome, hcs, _, hnl⟩ := blank_eq rules
  · simp only [blankLength, hnone]
    exact .inl rfl
  · rw [← hnl]
    simp only [blankLength, hsome, Option.bind_some, blankOf]
    obtain ⟨hreach, hE⟩ | ⟨n, _, hreach, _, _, hE⟩ | hsame :=
      some1_behind (steady_blankPiece cs) (blankPiece_edge hcs) t more
    · rw [hreach]
      exact .inr hE
    · rw [hreach]
      exact .inr hE
    · rw [hsame]
      exact .inl rfl

theorem isBarren_blank (rules : Rules) (t : Text) :
    Text.isBarren (t.take (rules.blankLength t)) = true := by
  obtain hnone | ⟨cs, hsome, _, hbarren, _⟩ := blank_eq rules
  · simp only [blankLength, hnone]
    exact rfl
  · have hpiece : ∀ t n, reach (.alt (.oneOf cs) (.lit ['\\', '\n'])) t = some n →
        Text.isBarren (t.take n) = true := by
      intro t n hn
      cases t with
      | nil => rw [List.take_nil]; rfl
      | cons c t =>
        simp only [reach, oneOf] at hn
        by_cases hc : cs.contains c = true
        · simp only [hc, if_true, Option.some.injEq] at hn
          rw [← hn, List.take_succ_cons, List.take_zero, Text.isBarren, List.all_cons, List.all_nil,
            Bool.and_true]
          exact List.all_eq_true.mp hbarren c (List.contains_iff_mem.mp hc)
        · simp only [hc, Bool.false_eq_true, if_false, Option.ite_none_right_eq_some,
            Option.some.injEq] at hn
          obtain ⟨hfront, rfl⟩ := hn
          rw [← List.prefix_iff_eq_take.mp (List.isPrefixOf_iff_prefix.mp hfront)]
          rfl
    simp only [blankLength, hsome, Option.bind_some, blankOf]
    cases hreach : (some1 (.alt (.oneOf cs) (.lit ['\\', '\n']))).reach t with
    | none => rfl
    | some n =>
      simp only [some1, reach, Option.bind_eq_bind, Option.bind_eq_some_iff, Option.pure_def,
        Option.some.injEq] at hreach
      obtain ⟨a, ha, _, rfl, rfl⟩ := hreach
      rw [Option.getD_some, List.take_add, Text.isBarren, List.all_append, Bool.and_eq_true]
      exact ⟨hpiece t a ha, all_covered hpiece 0 (t.drop a) rfl⟩

/-- A text whose blank stops at an edge holds nothing else. -/
theorem isBarren_of_edge {rules : Rules} {t : Text} {newline : Bool}
    (h : Edge newline (t.drop (rules.blankLength t))) : t.isBarren = true := by
  rw [← List.take_append_drop (rules.blankLength t) t, Text.isBarren, List.all_append,
    Bool.and_eq_true]
  refine ⟨isBarren_blank rules t, ?_⟩
  obtain h | ⟨h, _⟩ := h
  · rw [h]
    rfl
  · rw [h]
    rfl

theorem commentLength_newline (t more : Text) :
    commentLength (t ++ '\n' :: more) = commentLength t := by
  have hcomment : comment.avoids '\n' = true := by decide
  rw [commentLength, commentLength, steady_of_avoids hcomment t more id]

/-! ### Tables -/

/-- Whether bare text can hold a newline that is not escaped. -/
def textTakesNewline : Rules → Bool
  | doubleQuote | wordUntilBrace | wordUntilSlash => true
  | _ => false

theorem text_newline (rules : Rules) : rules.text '\n' = rules.textTakesNewline := by
  cases rules <;> rfl

/-- A table cuts the same off a text with a newline behind it, or bare text that reaches an
edge and goes on behind it. -/
theorem firstFit_newline {rules : Rules} {t : Text} (ht : t ≠ []) {kind : Kind} {n : Nat}
    (h : firstFit rules.set.rules t = some (kind, n)) (more : Text) :
    firstFit rules.set.rules (t ++ '\n' :: more) = some (kind, n) ∨
      (kind = .str ∧ Edge rules.textTakesNewline (t.drop n) ∧
        ∃ n', n < n' ∧ firstFit rules.set.rules (t ++ '\n' :: more) = some (.str, n')) := by
  rw [← text_newline]
  exact firstFit_behind (by decide) ht h more

end Rules

end ShellGrammar
