import ShellGrammar.Proofs.Reader.Productions
import ShellGrammar.Proofs.Safety

/-! Scripts, as the table reads them.

A script parses without a limit exactly if the table leads from its start to a place where
it ends: runs that end well do what the table says (`Script.of_run`), and what the table
says some run does, since no run breaks a promise (`Script.run_eq`). -/
namespace ShellGrammar
open ParseM Grammar

variable {source : Text} {es : List Node} {last : Token}

/-- The table makes the entries `es` of a text, and behind them stands the token `last`,
which is the end of the source. -/
structure Script (source : Text) (es : List Node) (last : Token) : Prop where
  entries : Parses .script (.entries .endOfSource) (.ofText source) es last.origin
  lexed : Rules.command.tokenAt last.origin = .ok last
  ends : last.kind = .eos

/-- The end of the source is wanted where a script ends. -/
theorem Script.wants (h : Script source es last) :
    Context.script.wants false (among [Closer.endOfSource.kind]) last = true := by
  rw [Context.wants, h.ends]
  rfl

theorem Script.list (h : Script source es last) :
    Parses .script (.list .endOfSource) (.ofText source) [.list es] last.after := by
  refine parses_iff.mpr (leads_bind.mpr ⟨es, last.origin, leads_all.mpr h.entries, ?_⟩)
  refine leads_bind.mpr ⟨last.lexeme, last.after, leads_expect.mpr (leads_query.mpr ?_), rfl, rfl⟩
  have htoken : Context.script.token? last.origin = some last := by
    show (Rules.command.tokenAt last.origin).toOption = _
    rw [h.lexed]
    rfl
  simp only [Query.answer_take, htoken, Option.map_some, h.wants, if_true]

/-- What the table makes of a whole source is a script. -/
theorem Script.of_list {n : Node} {place : Scan}
    (h : Parses .script (.list .endOfSource) (.ofText source) [n] place) :
    ∃ es last, n = .list es ∧ Script source es last := by
  obtain ⟨es, place₁, hentries, hrest⟩ := leads_bind.mp (parses_iff.mp h)
  obtain ⟨l, place₂, hexpect, hdone⟩ := leads_bind.mp hrest
  obtain ⟨t, ht, hwants, -, -⟩ := leads_next_some.mp (leads_expect.mp hexpect)
  have ht : Rules.command.tokenAt place₁ = .ok t := Context.token?_eq_some.mp ht
  obtain ⟨rfl, -⟩ := Rules.tokenAt_fits ht
  cases hdone.1
  exact ⟨es, t, rfl, leads_all.mp hentries, ht, kind_of_wants hwants⟩

/-- What a run makes of a script, the table makes of it. The last token taken is the end of
the source. -/
theorem Script.of_run {n : Node} {s : ParseState} (h : run ⟨0⟩ source = .ok n s) :
    ∃ es last front, n = .list es ∧ Script source es last ∧ s.lexer.consumed = front ++ [last] := by
  rw [run_zero, runWith, Grammar.list] at h
  obtain ⟨es, s₁, hentries, hrest⟩ := ok_of_bind h
  have hmirrors := (mirrored_level source (source.length + 1)).entries (c := .script) .endOfSource
    (Grammar.level unlimited (source.length + 1)).steps (.ofText source)
    (Lexer.current_ofText source) rfl
  rw [hentries] at hmirrors
  obtain ⟨hcurrent, hholds, es', _, rfl, htook, _⟩ := hmirrors
  have hcontext : s₁.context = .script := hholds.context
  rw [bind_of_eq (next_eq_take hcurrent _)] at hrest
  obtain ⟨t, s₂, ht, hv, htake, hs₂⟩ | ⟨t, s₂, ht, hv, htake, hs₂⟩ | ⟨f, hf, htake⟩ :=
    take_cases hcurrent false (among [Closer.endOfSource.kind])
  · rw [bind_of_ok htake] at hrest
    cases hrest
    have horigin : t.origin = s₁.here := (Rules.tokenAt_fits ht).1
    have hrules : s₁.rules = .command := congrArg (·.mode.rules) hcontext
    refine ⟨es, t, s₁.lexer.consumed, rfl, ⟨?_, ?_, ?_⟩, hs₂.consumed⟩
    · rw [horigin]
      exact (records_all.mp htook).parses
    · rw [horigin, ← hrules]
      exact ht
    · exact eq_of_beq (by simpa [among, Closer.kind] using (Bool.and_eq_true_iff.mp hv).1)
  · rw [bind_of_ok htake] at hrest
    obtain ⟨_, s₃, hfail, _⟩ := ok_of_bind hrest
    exact absurd hfail (fail_ne_ok _ _ _ _)
  · rw [bind_of_error htake] at hrest
    cases hrest

/-- What a run consumes is on record. -/
theorem run_records {n : Node} {s : ParseState} (h : run ⟨0⟩ source = .ok n s) :
    ∃ xs, Records .script (.list .endOfSource) (.ofText source) [n] xs s.here ∧
      s.lexer.consumed = xs.map Taken.token := by
  have hmirrors := (mirrored_level source (source.length + 1)).list (c := .script) .endOfSource
    (.ofText source) (Lexer.current_ofText source) rfl
  have hrun : run ⟨0⟩ source = Grammar.list (Grammar.level unlimited (source.length + 1))
    .endOfSource (.ofText source) := run_zero source
  rw [← hrun, h] at hmirrors
  obtain ⟨_, _, _, xs, rfl, htook, hconsumed⟩ := hmirrors
  exact ⟨xs, records_all.mp htook, hconsumed⟩

/-- What the table makes of a script, a run does. -/
theorem Script.run_eq (h : Script source es last) :
    ∃ s front, run ⟨0⟩ source = .ok (.list es) s ∧ s.lexer.consumed = front ++ [last] := by
  have hmirrors := (mirrored_level source (source.length + 1)).list (c := .script) .endOfSource
    (.ofText source) (Lexer.current_ofText source) rfl
  have hrun : run ⟨0⟩ source = Grammar.list (Grammar.level unlimited (source.length + 1))
    .endOfSource (.ofText source) := run_zero source
  rw [← hrun] at hmirrors
  cases hresult : run ⟨0⟩ source with
  | ok n s =>
    obtain ⟨es', last', front, rfl, hscript, hconsumed⟩ := Script.of_run hresult
    obtain ⟨rfl, horigin⟩ := h.entries.functional hscript.entries
    obtain rfl : last' = last := by
      have hsame := hscript.lexed
      rw [horigin, h.lexed] at hsame
      exact (Except.ok.inj hsame).symm
    exact ⟨s, front, rfl, hconsumed⟩
  | error e s =>
    rw [hresult] at hmirrors
    cases e with
    | fault f =>
      obtain ⟨xs, hrecords⟩ := h.list.records
      exact absurd (records_all.mpr hrecords) (hmirrors _ _ _)
    | breach b =>
      have htracks := list_tracks ⟨0⟩ source
      rw [hresult] at htracks
      have hleft : (ParseState.ofText source).left = source.length := rfl
      have hroom : source.length + 1 ≤ (ParseState.ofText source).left := htracks.2
      omega

/-- What the table makes of a script is its tree. -/
theorem Script.parse_eq (h : Script source es last) : parse ⟨0⟩ source = .ok (.list es) := by
  obtain ⟨s, _, hrun, _⟩ := h.run_eq
  exact parse_eq_ok_iff.mpr ⟨s, hrun⟩

/-! ### The end of a script -/

/-- The tree of a script that parses, and the blank in front of its end. -/
def parseEnd (options : Options) (source : Text) : Option (Node × Text) :=
  match run options source with
  | .ok tree s => s.lexer.consumed.getLast?.map fun last => (tree, last.blank)
  | .error _ _ => none

theorem run_of_parseEnd {options : Options} {tree : Node} {blank : Text}
    (h : parseEnd options source = some (tree, blank)) :
    ∃ s, run options source = .ok tree s ∧
      ∀ last ∈ s.lexer.consumed.getLast?, last.blank = blank := by
  unfold parseEnd at h
  split at h
  · rename_i n s hrun
    obtain ⟨last, hlast, heq⟩ := Option.map_eq_some_iff.mp h
    cases heq
    refine ⟨s, hrun, fun last' hlast' => ?_⟩
    rw [hlast] at hlast'
    cases hlast'
    rfl
  · cases h

/-- The tree of a script that parses, and of each of its tokens the kind, the blank and the text. -/
def parsePieces (options : Options) (source : Text) : Option (Node × List (Kind × Text × Text)) :=
  match run options source with
  | .ok tree s => some (tree, s.lexer.consumed.map fun t => (t.kind, t.blank, t.body))
  | .error _ _ => none

theorem run_of_parsePieces {options : Options} {tree : Node} {pieces : List (Kind × Text × Text)}
    (h : parsePieces options source = some (tree, pieces)) :
    ∃ s, run options source = .ok tree s ∧
      s.lexer.consumed.map (fun t => (t.kind, t.blank, t.body)) = pieces := by
  unfold parsePieces at h
  split at h
  · rename_i n s hrun
    cases h
    exact ⟨s, hrun, rfl⟩
  · cases h

/-- The end of a script that parses without a limit is the token behind its entries. -/
theorem Script.of_parseEnd {tree : Node} {blank : Text}
    (h : parseEnd ⟨0⟩ source = some (tree, blank)) :
    ∃ es last, tree = .list es ∧ Script source es last ∧ last.blank = blank := by
  obtain ⟨s, hrun, hend⟩ := run_of_parseEnd h
  obtain ⟨es, last, front, rfl, hscript, hconsumed⟩ := Script.of_run hrun
  exact ⟨es, last, rfl, hscript, hend last (by rw [hconsumed, List.getLast?_concat]; rfl)⟩

end ShellGrammar
