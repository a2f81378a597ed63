import ShellGrammar.Proofs.Script

/-! What a limit on nesting can do to the outcome of a parse.

A limit should keep an outcome or turn it into the fault of too deep a nesting. That
fault is placed at the token at the cursor, which is looked at under the rules in force
there; these are the rules around the construct that could not be entered, not its own.
So there is a third outcome: the text there may start no token of the rules around it.
`keptOrTooDeep_iff` says that this is the only way in which a limit does anything else. -/
namespace ShellGrammar

/-- A limit keeps the outcome of a script or turns it into the fault of too deep a
nesting. -/
def KeptOrTooDeep (limit : Nat) (source : Text) : Prop :=
  parse ⟨limit⟩ source = parse ⟨0⟩ source ∨
    ∃ start stop, parse ⟨limit⟩ source = .error (.fault ⟨.tooDeep limit, start, stop⟩)

/-- A limit refuses a level where the text behind the consumed tokens starts no token of
the rules in force, which is the fault `f`. -/
def RefusedBefore (limit : Nat) (source : Text) (f : LexFault) : Prop :=
  ∃ place : ParseState, place.Reading source ∧ RefusedAt limit source place ∧
    place.lexer.ahead = [] ∧ place.lexer.mode.rules.tokenAt place.lexer.scan = .error f

theorem RefusedAt.parse_eq {limit : Nat} {source : Text} {place : ParseState}
    (h : RefusedAt limit source place) :
    parse ⟨limit⟩ source = .error ((tooDeepRefusal limit).halt place) := by
  obtain ⟨s, hs⟩ := h.run_eq
  exact parse_eq_error_iff.mpr ⟨s, hs⟩

/-- The outcome is then that lexical fault. -/
theorem RefusedBefore.parse_eq {limit : Nat} {source : Text} {f : LexFault}
    (h : RefusedBefore limit source f) :
    parse ⟨limit⟩ source = .error (.fault (.ofLexFault f)) := by
  obtain ⟨place, hreading, hrefused, hahead, hfault⟩ := h
  have hpeek : LexM.peekAny place.lexer = .error (.fault f) place.lexer := by
    rw [LexM.peekAny_of_nil hreading.toTiled hahead, hfault]
  rw [hrefused.parse_eq]
  simp only [tooDeepRefusal, hpeek]
  rfl

/-- Where a level is refused, the outcome is the fault of too deep a nesting, unless the
token there cannot be read. -/
theorem RefusedAt.cases {limit : Nat} {source : Text} {place : ParseState}
    (hreading : place.Reading source) (h : RefusedAt limit source place) :
    (∃ start stop, parse ⟨limit⟩ source = .error (.fault ⟨.tooDeep limit, start, stop⟩)) ∨
      ∃ f, RefusedBefore limit source f := by
  cases hahead : place.lexer.ahead with
  | cons t rest =>
    refine .inl ⟨t.start, t.stop, ?_⟩
    rw [h.parse_eq]
    simp only [tooDeepRefusal, LexM.peekAny_of_ahead hahead]
    rfl
  | nil =>
    have hpeek := LexM.peekAny_of_nil hreading.toTiled hahead
    cases htoken : place.lexer.mode.rules.tokenAt place.lexer.scan with
    | ok t =>
      rw [htoken] at hpeek
      refine .inl ⟨t.start, t.stop, ?_⟩
      rw [h.parse_eq]
      simp only [tooDeepRefusal, hpeek]
      rfl
    | error f => exact .inr ⟨f, place, hreading, h, hahead, htoken⟩

/-- A limit keeps the outcome of a script or turns it into the fault of too deep a nesting,
exactly unless the level it refuses stands before text that cannot be read there; the
outcome is then the lexical fault of that text. -/
theorem keptOrTooDeep_iff {limit : Nat} (hpos : 1 ≤ limit) (source : Text) :
    (KeptOrTooDeep limit source ↔
      ∀ f, RefusedBefore limit source f → parse ⟨0⟩ source = .error (.fault (.ofLexFault f))) ∧
    ∀ f, RefusedBefore limit source f → parse ⟨limit⟩ source = .error (.fault (.ofLexFault f)) := by
  refine ⟨⟨?_, ?_⟩, fun f h => h.parse_eq⟩
  · intro h f hf
    rcases h with hkept | ⟨start, stop, hdeep⟩
    · rw [← hkept]
      exact hf.parse_eq
    · rw [hf.parse_eq] at hdeep
      cases hdeep
  · intro hsame
    obtain ⟨peak, hpeak⟩ := exists_scriptPeaks source
    rcases Nat.lt_or_ge limit peak with hlt | hle
    · obtain ⟨place, hreading, hplace⟩ := hpeak.beyond limit hpos hlt
      obtain hdeep | ⟨f, hf⟩ := hplace.cases hreading
      · exact .inr hdeep
      · left
        rw [hf.parse_eq, hsame f hf]
    · exact .inl (parse_congr (hpeak.run_of_le hpos hle))

/-- Is the outcome a fault of the text that no token starts with? -/
def endsLexical : Except (Halt Fault) Node → Bool
  | .error (.fault f) => f.isLexical
  | _ => false

/-- `$("<")` parses, but under a limit of one level the string cannot be entered, and `<`
starts no token of a command. -/
theorem not_keptOrTooDeep_quoted : ¬ KeptOrTooDeep 1 ['$', '(', '"', '<', '"', ')'] := by
  have hparses : (parse ⟨0⟩ ['$', '(', '"', '<', '"', ')']).toOption.isSome = true := by
    decide +kernel
  have hlexical : endsLexical (parse ⟨1⟩ ['$', '(', '"', '<', '"', ')']) = true := by
    decide +kernel
  intro h
  rcases h with hkept | ⟨start, stop, hdeep⟩
  · rw [← hkept] at hparses
    generalize parse ⟨1⟩ ['$', '(', '"', '<', '"', ')'] = outcome at hparses hlexical
    cases outcome with
    | ok t => cases hlexical
    | error e => cases hparses
  · rw [hdeep] at hlexical
    cases hlexical

/-- So the level is refused before the `<`, and the outcome is the lexical fault there. -/
theorem keptOrTooDeep_iff_quoted :
    ¬ KeptOrTooDeep 1 ['$', '(', '"', '<', '"', ')'] ∧
    ∃ f, RefusedBefore 1 ['$', '(', '"', '<', '"', ')'] f ∧
      parse ⟨1⟩ ['$', '(', '"', '<', '"', ')'] = .error (.fault (.ofLexFault f)) ∧
      parse ⟨0⟩ ['$', '(', '"', '<', '"', ')'] ≠ .error (.fault (.ofLexFault f)) := by
  obtain ⟨hiff, hfault⟩ := keptOrTooDeep_iff (Nat.le_refl 1) ['$', '(', '"', '<', '"', ')']
  obtain ⟨f, hf⟩ := Classical.not_forall.mp fun h => not_keptOrTooDeep_quoted (hiff.mpr h)
  obtain ⟨hrefused, hother⟩ := Classical.not_imp.mp hf
  exact ⟨not_keptOrTooDeep_quoted, f, hrefused, hfault f hrefused, hother⟩

end ShellGrammar
