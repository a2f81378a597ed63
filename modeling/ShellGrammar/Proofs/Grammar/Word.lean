import ShellGrammar.Proofs.Grammar.Arithmetic

/-! Derivations of words, their pieces and what opens with a quote or `$((`. -/
namespace ShellGrammar
open ParseM Grammar

variable {source : Text} {c : Context} {G : ParseM Unit → Grammar}

/-- A loop over productions of one phrase. -/
theorem MayYield.gather {step : ParseM Unit → ParseM (Option Node)} {p : Phrase}
    (h : MayYield source c step p) (hp : p.isPart = true) (bound : Nat) :
    Runs source c (fun d => ShellGrammar.gather (step d) bound) fun as ts n =>
      Derives c (.many p) as ts n := by
  refine Runs.gather h ?_ ?_ bound
  · intro ts n hend
    obtain ⟨rfl, rfl⟩ := hend
    exact .manyNil
  · intro a ts n as us m ha has
    exact .manyCons hp ha has

/-- What a piece can start with. -/
theorem mem_pieceStart {inBackquote : Bool} {kind : Kind} (h : kind ∈ pieceStart inBackquote) :
    kind = .str ∨ kind = .singleQuote ∨ kind = .doubleQuote ∨ kind = .dollarName ∨
      kind = .dollarBrace ∨ kind = .dollarParen ∨ kind = .dollarParen2 ∨
      (kind = .backquote ∧ inBackquote = false) ∨ kind = .inParen ∨ kind = .outParen := by
  cases inBackquote <;> simpa [pieceStart] using h

/-- What a round inside double quotes can come to. -/
def QuotedPiece (c : Context) : Option Node → List Token → Nat → Prop
  | none, ts, n => n = 0 ∧ ∃ t, ts = [t] ∧ c.Finds [.doubleQuote] t
  | some a, ts, n => Derives c (.piece false) [a] ts n

namespace Sound

theorem piece (hG : Sound source G) (adjacent : Bool) :
    MayYield source c (fun d => Grammar.piece (G d) adjacent) (.piece adjacent) := by
  simp only [MayYield, Grammar.piece, hG.descend]
  refine Runs.bind (Runs.pieceStartHere (Q := fun kinds ts n =>
    kinds = pieceStart c.inBackquote ∧ ts = [] ∧ n = 0) ⟨rfl, rfl, rfl⟩) ?_
  intro kinds ts n hkinds
  obtain ⟨rfl, rfl, rfl⟩ := hkinds
  simp only [List.nil_append, Nat.zero_max]
  refine Runs.look_bind adjacent (Runs.pure ⟨rfl, rfl⟩) fun t ht hkind => ?_
  refine Runs.next_bind_at ht ?_
  have hne : pieceStart c.inBackquote ≠ [] := List.cons_ne_nil _ _
  rcases mem_pieceStart (hkind.resolve_left hne) with
    hk | hk | hk | hk | hk | hk | hk | ⟨hk, hb⟩ | hk | hk <;> simp only [hk]
  · exact Runs.pure (.str ht hk)
  · exact Runs.pure (.singleQuoted ht hk)
  · exact Runs.map (Runs.nested ((hG.doubleQuoted c).mono fun a ts n ha => .pieceQuoted ht hk ha))
  · exact Runs.pure (.simpleParam ht hk)
  · exact Runs.map (Runs.nested ((hG.parameter c).mono fun a ts n ha => .pieceParameter ht hk ha))
  · refine Runs.map (Runs.nested ((hG.nestedList c .paren).mono fun a ts n ha => ?_))
    exact .pieceCommand ht hk ha
  · exact Runs.map (Runs.nested ((hG.arithExpansion c).mono fun a ts n ha => .pieceArith ht hk ha))
  · refine Runs.map (Runs.nested ((hG.nestedList c .backquote).mono fun a ts n ha => ?_))
    exact .pieceBackquoted ht hk hb ha
  · refine Runs.map (Runs.nested ((hG.nestedList c .paren).mono fun a ts n ha => ?_))
    exact .pieceProcess ht (by simp [hk]) ha
  · refine Runs.map (Runs.nested ((hG.nestedList c .paren).mono fun a ts n ha => ?_))
    exact .pieceProcess ht (by simp [hk]) ha

theorem word (hG : Sound source G) : MayYield source c (fun d => Grammar.word (G d)) .word := by
  obtain ⟨steps, hsteps⟩ := hG.steps
  simp only [MayYield, Grammar.word, hsteps]
  refine (hG.piece false).bind fun o ts n ho => ?_
  cases o with
  | none =>
    obtain ⟨rfl, rfl⟩ := ho
    exact Runs.pure ⟨rfl, rfl⟩
  | some a =>
    refine Runs.map (((hG.piece true).gather rfl steps).mono fun as us m has => ?_)
    cases as with
    | nil =>
      cases has
      exact (Derives.word ho).cast (List.append_nil ts) (Nat.max_zero n)
    | cons b as => exact .wordConcat ho has

theorem payload (hG : Sound source G) (rules : Rules) :
    Yields source c (fun d => Grammar.payload (G d) rules) (.payload rules) := by
  simp only [Yields, Grammar.payload]
  refine Runs.map (Runs.withRules (hG.word.mono fun o ts n ho => ?_))
  cases o with
  | none =>
    obtain ⟨rfl, rfl⟩ := ho
    exact .payloadEmpty
  | some a => exact .payload ho

/-- A round inside double quotes: the one that finds the closing quote takes it and yields
nothing. -/
theorem quotedPiece (hG : Sound source G) :
    Runs source c (fun d => Grammar.quotedPiece (G d)) (QuotedPiece c) := by
  simp only [Grammar.quotedPiece]
  refine (TakesOne.next [.doubleQuote]).cases ?_ fun t ht => Runs.pure ⟨rfl, t, rfl, ht⟩
  refine (hG.piece false).bind fun o ts n ho => ?_
  cases o with
  | none => exact Runs.fail
  | some a => exact Runs.pure (Derives.cast ho (List.append_nil ts) (Nat.max_zero n))

theorem doubleQuotedRest (hG : Sound source G) :
    Yields source c (fun d => Grammar.doubleQuotedRest (G d)) .doubleQuoted := by
  obtain ⟨steps, hsteps⟩ := hG.steps
  simp only [Yields, Grammar.doubleQuotedRest, hsteps]
  refine Runs.withRules (Runs.map ?_)
  refine (Runs.gather (Q := fun as ts n => ∃ us t, ts = us ++ [t] ∧
    (c.under .doubleQuote true).Finds [.doubleQuote] t ∧
      Derives (c.under .doubleQuote true) (.many (.piece false)) as us n)
    hG.quotedPiece ?_ ?_ steps).mono ?_
  · intro ts n hend
    obtain ⟨rfl, t, rfl, ht⟩ := hend
    exact ⟨[], t, rfl, ht, .manyNil⟩
  · intro a ts n as vs m ha hrest
    obtain ⟨us, t, rfl, ht, has⟩ := hrest
    exact ⟨ts ++ us, t, (List.append_assoc ..).symm, ht, .manyCons rfl ha has⟩
  · intro as vs n hall
    obtain ⟨us, t, rfl, ht, has⟩ := hall
    exact .doubleQuoted has ht

theorem arithExpansionRest (hG : Sound source G) :
    Yields source c (fun d => Grammar.arithExpansionRest (G d)) .arithExpansion := by
  simp only [Yields, Grammar.arithExpansionRest]
  refine Runs.map (Runs.withRules (hG.expression.bind fun a ts n ha => ?_))
  obtain ⟨folds, ha⟩ := ha
  refine (TakesOne.accept _ _).orFail fun t ht => Runs.pure ?_
  exact (Derives.arithExpansion ha ht).cast rfl (Nat.max_zero n)

end Sound

end ShellGrammar
