import ShellGrammar.Proofs.Grammar.Word

/-! Derivations of parameter expansions. -/
namespace ShellGrammar
open ParseM Grammar

variable {source : Text} {c : Context} {G : ParseM Unit → Grammar} {ref : Bool} {name : Text}

/-! ### Heads -/

/-- The marks and the name of a parameter. -/
theorem head_runs : Runs source c (fun _ => head) fun h ts n => Heading c h ts ∧ n = 0 := by
  simp only [head]
  refine (TakesOne.accept _ _).bind fun length hlength => ?_
  refine (TakesOne.accept _ _).bind fun mark hmark => ?_
  refine (TakesOne.next [.name]).cases ?_ fun t ht => Runs.pure ?_
  · cases mark with
    | some t =>
      refine Runs.look_bind false Runs.fail fun _ _ _ => (Runs.pure ⟨?_, rfl⟩).at
      exact .bang hlength (hmark t rfl)
    | none =>
      cases length with
      | some t =>
        refine Runs.look_bind false Runs.fail fun _ _ _ => (Runs.pure ⟨?_, rfl⟩).at
        exact .sharp (hlength t rfl)
      | none => exact Runs.fail
  · rw [← List.append_assoc]
    exact ⟨.named hlength hmark ht, rfl⟩

/-! ### Forms -/

/-- Every run of an alternative yields a form that follows the name, or reads nothing. -/
def MayForm (source : Text) (c : Context) (ref : Bool) (name : Text)
    (act : ParseM Unit → ParseM (Option Form)) : Prop :=
  Runs source c act (OrNothing fun f ts n =>
    Derives c (.form ref name f.blankBeforeBrace) [f.node] ts n)

namespace Sound

theorem arithOperand (hG : Sound source G) :
    Yields source c (fun d => Grammar.arithOperand (G d)) .operand := by
  refine Runs.withRules (hG.expression.mono fun a ts n ha => ?_)
  obtain ⟨folds, ha⟩ := ha
  exact .operand ha

theorem elementsForm : MayForm source c ref name fun _ => Grammar.elementsForm ref name := by
  simp only [MayForm, Grammar.elementsForm]
  refine (TakesOne.next _).cases (Runs.pure ⟨rfl, rfl⟩) fun t ht => Runs.pure ?_
  cases ref with
  | true => exact .arrayKeys ht
  | false => exact .arrayElements ht

theorem defaultForm (hG : Sound source G) :
    MayForm source c ref name fun d => Grammar.defaultForm (G d) ref name := by
  simp only [MayForm, Grammar.defaultForm]
  refine (TakesOne.accept _ _).cases (Runs.pure ⟨rfl, rfl⟩) fun t ht => Runs.map ?_
  exact (hG.payload _).mono fun a ts n ha => .paramDefault ht ha

theorem substringForm (hG : Sound source G) :
    MayForm source c ref name fun d => Grammar.substringForm (G d) ref name := by
  simp only [MayForm, Grammar.substringForm]
  refine (TakesOne.accept _ _).cases (Runs.pure ⟨rfl, rfl⟩) fun t ht => ?_
  refine hG.arithOperand.bind fun a ts n ha => ?_
  refine (TakesOne.acceptWith _ _ _).cases (Runs.pure ?_) fun u hu => Runs.map ?_
  · exact (Derives.substring ht ha).cast (by simp) (Nat.max_zero n)
  · exact hG.arithOperand.mono fun b us m hb => .substringLength ht ha hu hb

theorem removalForm (hG : Sound source G) :
    MayForm source c ref name fun d => Grammar.removalForm (G d) ref name := by
  simp only [MayForm, Grammar.removalForm]
  refine (TakesOne.accept _ _).cases (Runs.pure ⟨rfl, rfl⟩) fun t ht => Runs.map ?_
  exact (hG.payload _).mono fun a ts n ha => .patternRemoval ht ha

theorem caseForm (hG : Sound source G) :
    MayForm source c ref name fun d => Grammar.caseForm (G d) ref name := by
  simp only [MayForm, Grammar.caseForm]
  refine (TakesOne.accept _ _).cases (Runs.pure ⟨rfl, rfl⟩) fun t ht => Runs.map ?_
  exact (hG.payload _).mono fun a ts n ha => .caseChange ht ha

theorem replacementForm (hG : Sound source G) :
    MayForm source c ref name fun d => Grammar.replacementForm (G d) ref name := by
  simp only [MayForm, Grammar.replacementForm]
  refine (TakesOne.accept _ _).cases (Runs.pure ⟨rfl, rfl⟩) fun t ht => ?_
  refine (TakesOne.accept _ _).bind fun anchor hanchor => ?_
  refine (hG.payload _).bind fun a ts n ha => ?_
  refine (TakesOne.accept _ _).cases (Runs.pure ?_) fun u hu => Runs.map ?_
  · exact (Derives.patternReplacement ht hanchor ha).cast (by simp) (Nat.max_zero n)
  · refine (hG.payload _).mono fun b us m hb => ?_
    exact .patternReplaced ht hanchor ha hu hb

/-- The names matched, behind the mark that asks for them. -/
theorem matchingNames {mark : Char} {t : Token} (hmark : mark = '@' ∨ mark = '*')
    (ht : c.Accepts (.lit [mark]) .glyph t) :
    Runs source c (fun _ => Grammar.matchingNames ref name [mark]) fun f ts n =>
      Derives c (.form ref name f.blankBeforeBrace) [f.node] (t :: ts) n := by
  simp only [Grammar.matchingNames]
  cases ref with
  | false => exact Runs.fail_bind
  | true =>
    cases hname : Text.isVariableName name with
    | false => exact Runs.fail_bind
    | true => exact Runs.pure (.namesStarting hmark ht hname)

theorem atForm : MayForm source c ref name fun _ => Grammar.atForm ref name := by
  simp only [MayForm, Grammar.atForm]
  refine (TakesOne.accept _ _).cases (Runs.pure ⟨rfl, rfl⟩) fun t ht => ?_
  refine (TakesOne.accept _ _).cases ?_ fun u hu => Runs.pure (.paramTransform ht hu)
  exact Runs.map (matchingNames (.inl rfl) ht)

theorem starForm : MayForm source c ref name fun _ => Grammar.starForm ref name := by
  simp only [MayForm, Grammar.starForm]
  refine (TakesOne.accept _ _).cases (Runs.pure ⟨rfl, rfl⟩) fun t ht => ?_
  exact Runs.map (matchingNames (.inr rfl) ht)

theorem elementForm (hG : Sound source G) :
    MayForm source c ref name fun d => Grammar.elementForm (G d) ref name := by
  simp only [MayForm, Grammar.elementForm]
  refine (TakesOne.next _).cases (Runs.pure ⟨rfl, rfl⟩) fun t ht => ?_
  refine hG.arithOperand.bind fun a ts n ha => ?_
  refine (TakesOne.acceptWith _ _ _).orFail fun u hu => Runs.pure ?_
  exact (Derives.arrayElement ht ha hu).cast rfl (Nat.max_zero n)

theorem forms (hG : Sound source G) :
    MayForm source c ref name fun d => firstOf (Grammar.forms (G d) ref name) := by
  simp only [MayForm, Grammar.forms]
  refine Runs.firstOf_cons elementsForm ?_
  refine Runs.firstOf_cons hG.defaultForm ?_
  refine Runs.firstOf_cons hG.substringForm ?_
  refine Runs.firstOf_cons hG.removalForm ?_
  refine Runs.firstOf_cons hG.caseForm ?_
  refine Runs.firstOf_cons hG.replacementForm ?_
  refine Runs.firstOf_cons atForm ?_
  refine Runs.firstOf_cons starForm ?_
  exact Runs.firstOf_cons hG.elementForm Runs.firstOf_nil

/-! ### The expansion -/

/-- What stands between `${` and its brace. -/
theorem parameterBody (hG : Sound source G) :
    Runs source c (fun d => Grammar.parameterBody (G d)) fun f ts n =>
      ∃ h hs us, ts = hs ++ us ∧ Heading c h hs ∧
        ((h.length = true ∧ f = ⟨.paramLength h.ref h.name, false⟩ ∧ us = [] ∧ n = 0) ∨
          (h.length = false ∧ Derives c (.form h.ref h.name f.blankBeforeBrace) [f.node] us n)) := by
  simp only [Grammar.parameterBody]
  refine head_runs.bind fun h hs n hh => ?_
  obtain ⟨hh, rfl⟩ := hh
  simp only [Nat.zero_max]
  cases hlength : h.length with
  | true => exact Runs.pure ⟨h, hs, [], rfl, hh, .inl ⟨hlength, rfl, rfl, rfl⟩⟩
  | false =>
    refine Runs.map (hG.forms.mono fun o us n ho => ⟨h, hs, us, rfl, hh, .inr ⟨hlength, ?_⟩⟩)
    cases o with
    | none =>
      obtain ⟨rfl, rfl⟩ := ho
      exact .param
    | some f => exact ho

theorem parameterRest (hG : Sound source G) :
    Yields source c (fun d => Grammar.parameterRest (G d)) .parameter := by
  simp only [Yields, Grammar.parameterRest]
  refine Runs.withRules (hG.parameterBody.bind fun f ts n hf => ?_)
  obtain ⟨h, hs, us, rfl, hh, hbody⟩ := hf
  obtain ⟨a, blank⟩ := f
  have hall : ∀ t, (c.under .param false).Closes blank t →
      Derives c .parameter [a] (hs ++ us ++ [t]) (max n 0) := by
    intro t ht
    rcases hbody with ⟨hlength, hf, rfl, rfl⟩ | ⟨hlength, ha⟩
    · cases hf
      rw [List.append_nil]
      exact .parameterLength hh hlength ht
    · exact (Derives.parameter hh hlength ha ht).cast (List.append_assoc ..) (Nat.max_zero n)
  cases blank with
  | true => exact (TakesOne.acceptWith _ _ _).orFail fun t ht => Runs.pure (hall t ht)
  | false => exact (TakesOne.next _).orFail fun t ht => Runs.pure (hall t ht)

end Sound

end ShellGrammar
