import ShellGrammar.Proofs.Grammar.Parameter

/-! Derivations of commands and lists. -/
namespace ShellGrammar
open ParseM Grammar

variable {source : Text} {c : Context} {G : ParseM Unit → Grammar}

/-! ### Readers of the command grammar -/

theorem skipNewlines_runs (bound : Nat) :
    Runs source c (fun _ => skipNewlines bound) fun _ ts n => c.Newlines ts ∧ n = 0 := by
  induction bound with
  | zero => exact Runs.breached .outOfSteps
  | succ bound ih =>
    refine (TakesOne.next [.newline]).cases (Runs.pure ?_) fun t ht => ih.mono fun _ ts n hts => ?_
    · exact ⟨fun _ h => (List.not_mem_nil h).elim, rfl⟩
    · refine ⟨fun u hu => ?_, hts.2⟩
      rcases List.mem_cons.mp hu with rfl | hu
      · exact ht
      · exact hts.1 u hu

theorem commandOperator_runs {steps : Nat} (hsteps : ∀ d, (G d).steps = steps) (kinds : List Kind) :
    Runs source c (fun d => commandOperator (G d) kinds) (OrNothing fun op us n =>
      (∃ t vs, us = t :: vs ∧ c.Finds kinds t ∧ c.Newlines vs ∧ op = t.body) ∧ n = 0) := by
  simp only [commandOperator, hsteps]
  refine (TakesOne.next kinds).cases (Runs.pure ⟨rfl, rfl⟩) fun t ht => Runs.map ?_
  refine (skipNewlines_runs steps).mono fun _ vs n hvs => ?_
  exact ⟨⟨t, vs, rfl, ht, hvs.1, rfl⟩, hvs.2⟩

/-- A `!` is taken if it stands alone; otherwise the step over it is undone. -/
theorem acceptBang_runs :
    Runs source c (fun _ => acceptBang) fun excl ts n => n = 0 ∧
      (excl = false ∧ ts = [] ∨
        excl = true ∧ ∃ t, ts = [t] ∧ c.Finds [.str] t ∧ t.body = ['!']) := by
  simp only [acceptBang]
  refine Runs.look_bind false (Runs.pure ⟨rfl, .inl ⟨rfl, rfl⟩⟩) fun t ht hkind => ?_
  by_cases hbang : t.body = ['!']
  · simp only [hbang, if_true]
    intro s hs hc ha
    subst hc
    apply Goes.const
    rw [bind_of_ok (next_of_sees ht ha)]
    obtain ⟨rest, ha⟩ := ha
    have hkinds : pieceStartHere { s with lexer := s.lexer.consume } =
      .ok (pieceStart s.inBackquote) { s with lexer := s.lexer.consume } := rfl
    rw [bind_of_ok hkinds]
    refine Ends.bind (P := fun _ ts => ts = []) ⟨rfl, rfl, rfl⟩
      (ends_look (hs.consume ha) true _) ?_
    intro o s₁ ts hs₁ hkeeps₁ hconsumed₁ hts
    rw [hts, List.append_nil] at hconsumed₁
    have hone := hconsumed₁.trans (Lexer.consumed_consume ha)
    cases o with
    | none => exact ⟨hs₁, hkeeps₁, [t], hone, rfl, .inr ⟨rfl, t, rfl, ⟨ht, hkind⟩, hbang⟩⟩
    | some u => exact ends_back hs₁ hkeeps₁ hone ht ⟨rfl, .inl ⟨rfl, rfl⟩⟩
  · simp only [hbang, if_false]
    exact (Runs.pure ⟨rfl, .inl ⟨rfl, rfl⟩⟩).at

/-! ### Productions -/

namespace Sound

theorem assignment? (hG : Sound source G) :
    MayYield source c (fun d => Grammar.assignment? (G d)) .assign := by
  simp only [MayYield, Grammar.assignment?]
  refine (TakesOne.accept _ _).cases (Runs.pure ⟨rfl, rfl⟩) fun t ht => Runs.map ?_
  refine Runs.withRules (hG.word.mono fun o ts n ho => ?_)
  cases o with
  | none =>
    obtain ⟨rfl, rfl⟩ := ho
    exact .assignBare ht
  | some a => exact .assign ht ho

theorem simpleCommand (hG : Sound source G) :
    Yields source c (fun d => Grammar.simpleCommand (G d)) .command := by
  obtain ⟨steps, hsteps⟩ := hG.steps
  simp only [Yields, Grammar.simpleCommand, hsteps]
  refine (hG.assignment?.gather rfl steps).bind fun as ts n has => ?_
  refine (hG.word.gather rfl steps).bind fun bs us m hbs => ?_
  cases hempty : as.isEmpty && bs.isEmpty with
  | true => exact Runs.fail_bind
  | false =>
    refine Runs.pure ((Derives.command has hbs hempty).cast ?_ ?_)
    · rw [List.append_nil]
    · rw [Nat.max_zero]

theorem pipeline (hG : Sound source G) :
    Yields source c (fun d => Grammar.pipeline (G d)) .pipeline := by
  obtain ⟨steps, hsteps⟩ := hG.steps
  have hbody : Runs source c (fun d => chain (G d) (Grammar.simpleCommand (G d))
      (commandOperator (G d) [.pipe, .pipeAmp]) (fun _ => Grammar.simpleCommand (G d)) .pipe)
      fun a ts n => ∃ folds, Derives c (.pipe folds) [a] ts n := by
    refine Runs.chain (fun folds a ts n => Derives c (.pipe folds) [a] ts n) hG.descend hsteps
      ?_ (commandOperator_runs hsteps _) (fun _ => hG.simpleCommand) ?_
    · exact hG.simpleCommand.mono fun a ts n ha => .pipeFirst ha
    · intro folds a ts n op us b vs m ha hop hb
      obtain ⟨t, ws, rfl, ht, hws, rfl⟩ := hop
      exact .pipeFold ha ht hws hb
  simp only [Yields, Grammar.pipeline]
  refine acceptBang_runs.bind fun excl ts n hexcl => Runs.map (hbody.mono fun a us m ha => ?_)
  obtain ⟨folds, ha⟩ := ha
  obtain ⟨rfl, ⟨rfl, rfl⟩ | ⟨rfl, t, rfl, ht, hbang⟩⟩ := hexcl
  · exact (Derives.pipeline ha).cast rfl (Nat.zero_max m)
  · exact (Derives.pipelineNegated ht hbang ha).cast rfl (Nat.zero_max m)

theorem andOr (hG : Sound source G) :
    Runs source c (fun d => Grammar.andOr (G d)) fun a ts n =>
      ∃ folds, Derives c (.andOr folds) [a] ts n := by
  obtain ⟨steps, hsteps⟩ := hG.steps
  refine Runs.chain (fun folds a ts n => Derives c (.andOr folds) [a] ts n) hG.descend hsteps
    ?_ (commandOperator_runs hsteps _) (fun _ => hG.pipeline) ?_
  · exact hG.pipeline.mono fun a ts n ha => .andOrFirst ha
  · intro folds a ts n op us b vs m ha hop hb
    obtain ⟨t, ws, rfl, ht, hws, rfl⟩ := hop
    exact .andOrFold ha ht hws hb

theorem entry (hG : Sound source G) :
    Yields source c (fun d => Grammar.entry (G d)) .entry := by
  simp only [Yields, Grammar.entry]
  refine hG.andOr.bind fun a ts n ha => ?_
  obtain ⟨folds, ha⟩ := ha
  refine (TakesOne.next terminals).cases (Runs.pure ?_) fun t ht => Runs.pure ?_
  · exact (Derives.entry ha).cast (List.append_nil ts) (Nat.max_zero n)
  · exact (Derives.entryTerminated ha ht).cast rfl (Nat.max_zero n)

theorem entries (hG : Sound source G) (closer : Closer) (bound : Nat) :
    Runs source c (fun d => Grammar.entries (G d) closer bound) fun as ts n =>
      Derives c .entries as ts n := by
  obtain ⟨steps, hsteps⟩ := hG.steps
  induction bound with
  | zero => exact Runs.breached .outOfSteps
  | succ bound ih =>
    simp only [Grammar.entries, hsteps]
    refine (skipNewlines_runs steps).bind fun _ us n hus => ?_
    obtain ⟨hus, rfl⟩ := hus
    refine Runs.look_bind false ?_ fun t _ _ => (Runs.pure ?_).at
    · refine hG.entry.bind fun a ts n ha => ?_
      cases hterminated : isTerminated a with
      | true =>
        refine Runs.map (ih.mono fun as vs m has => ?_)
        exact (Derives.entriesCons hus ha hterminated has).cast rfl (by omega)
      | false =>
        refine Runs.pure ((Derives.entriesLast hus ha hterminated).cast ?_ (by omega))
        rw [List.append_nil]
    · exact (Derives.entriesNil hus).cast (List.append_nil us) rfl

theorem list (hG : Sound source G) (closer : Closer) :
    Yields source c (fun d => Grammar.list (G d) closer) (.list closer) := by
  obtain ⟨steps, hsteps⟩ := hG.steps
  simp only [Yields, Grammar.list, hsteps]
  refine (hG.entries closer steps).bind fun as ts n has => ?_
  refine (TakesOne.next _).orFail fun t ht => Runs.pure ?_
  exact (Derives.list has ht).cast rfl (Nat.max_zero n)

theorem nestedListRest (hG : Sound source G) (closer : Closer) :
    Yields source c (fun d => Grammar.nestedListRest (G d) closer) (.nestedList closer) := by
  refine Runs.inList (Runs.withRules ((hG.list closer).mono fun a ts n ha => ?_))
  exact .nestedList ha

end Sound

end ShellGrammar
