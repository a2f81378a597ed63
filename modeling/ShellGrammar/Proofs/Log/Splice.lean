import ShellGrammar.Proofs.Log.Order

/-! More newlines in a log.

Only one production asks for a newline that can be skipped, and it asks again behind each one that
it takes. So in front of such a question there is room for any number of newlines more: the log with
these is a log of the same nodes (`Logs.spliced`). -/
namespace ShellGrammar
open Grammar ParseM Reader

/-- A newline is asked for, and there is one. -/
def Asked.skipped (c : Context) : Asked :=
  ⟨c, .take false fun _ => among [.newline], some ⟨.newline, ['\n']⟩, []⟩

/-- No other production asks for a newline and nothing else. -/
theorem Production.Asks.not_isSkip {p : Production} {c : Context} {β : Type} {q : Query β} {b : β}
    {ts : List Token} (h : p.Asks β q) (hp : p ≠ .newlines) : ¬ (⟨c, q, b, ts⟩ : Asked).IsSkip := by
  suffices hq : q.wanted false .newline = false ∨ q.wanted false .semi = true by
    rcases hq with hq | hq
    · refine ShellGrammar.not_isSkip .newline ?_
      rw [hq]
      decide
    · refine ShellGrammar.not_isSkip .semi ?_
      rw [hq]
      decide
  have hsought : ∀ kinds ∈ p.sought, among kinds .newline = false ∨ among kinds .semi = true := by
    cases p with
    | newlines => exact absurd rfl hp
    | list closer =>
      rw [sought, List.forall_mem_singleton]
      cases closer <;> decide
    | many | chain | chainRest | entries | pipeline | command | assign | word | piece | arithClosed
    | assignment => exact List.forall_mem_nil _
    | _ => decide
  cases h with
  | next hmem => exact hsought _ hmem
  | operator ch =>
    left
    cases ch with
    | binary => rfl
    | _ => decide
  | ending closer =>
    left
    cases closer <;> rfl
  | brace | start => exact .inl rfl
  | _ => exact .inl rfl

/-- Of two parts put together, an element stands in the second or in the first. -/
theorem cut_append {α : Type _} {us vs xs ys : List α} {a : α} (h : us ++ a :: vs = xs ++ ys) :
    (∃ us', us = xs ++ us' ∧ ys = us' ++ a :: vs) ∨ ∃ vs', xs = us ++ a :: vs' ∧ vs = vs' ++ ys := by
  obtain ⟨xs', rfl, hvs⟩ | ⟨us', rfl, hys⟩ := List.append_eq_append_iff.mp h
  · cases xs' with
    | nil => exact .inl ⟨[], by simp, hvs.symm⟩
    | cons b xs' =>
      obtain ⟨rfl, rfl⟩ := List.cons.inj hvs
      exact .inr ⟨xs', rfl, rfl⟩
  · exact .inl ⟨us', rfl, hys⟩

section Splice
variable {below : Admitting} {c : Context} {α : Type} {m : Reader α} {b : α} {n : Nat}
  {us vs : List Asked} {a : Asked}

/-- There is room for more newlines in a log. -/
def Roomy (n : Nat) : Admitting := fun c p ns as => ∀ us a vs, as = us ++ a :: vs → a.IsSkip →
  Logs c p ns (us ++ (List.replicate n (.skipped a.context) ++ a :: vs))

/-- If a reader asks for no newlines itself, a production asks for them that it calls. -/
theorem Reader.Admits.spliced (h : m.Admits (fun c p ns as => Logs c p ns as ∧ Roomy n c p ns as) c b (us ++ a :: vs))
    (hm : m.Within (fun _ q => ∀ b ts, ¬ (⟨c, q, b, ts⟩ : Asked).IsSkip) fun _ _ => True)
    (ha : a.IsSkip) :
    m.Admits Logs c b (us ++ (List.replicate n (.skipped a.context) ++ a :: vs)) := by
  induction m generalizing us with
  | done b =>
    obtain ⟨-, hnil⟩ := h
    exact absurd hnil (List.append_ne_nil_of_right_ne_nil _ (List.cons_ne_nil _ _))
  | stop => exact h.elim
  | ask q k ih =>
    obtain ⟨b, ts, bs, hrest, heq⟩ := h
    cases us with
    | nil =>
      obtain ⟨rfl, rfl⟩ := List.cons.inj heq
      exact absurd ha (hm.1 b ts)
    | cons u us =>
      obtain ⟨rfl, rfl⟩ := List.cons.inj heq
      exact ⟨b, ts, _, ih b hrest (hm.2 b), rfl⟩
  | call shift p k ih =>
    obtain ⟨ns, xs, ys, hcall, hrest, heq⟩ := h
    obtain ⟨us, rfl, rfl⟩ | ⟨vs, rfl, rfl⟩ := cut_append heq
    · rw [List.append_assoc]
      exact ⟨ns, xs, _, hcall.1, ih ns hrest (hm.2 ns), rfl⟩
    · refine ⟨ns, _, ys, hcall.2 us a vs rfl ha, hrest.mono fun _ _ _ _ h => h.1, ?_⟩
      simp

/-- In front of newlines that can be skipped there can be more. -/
theorem logs_skipped {ns : List Node} {as : List Asked} (h : Logs c .newlines ns as) (n : Nat) :
    Logs c .newlines ns (List.replicate n (.skipped c) ++ as) := by
  induction n with
  | zero => exact h
  | succ n ih => exact logs_iff.mpr ⟨some ⟨.newline, ['\n']⟩, [], _, admits_all.mpr ih, rfl⟩

/-- In front of a question for a newline that can be skipped there is room for more newlines. -/
theorem Logs.spliced {p : Production} {ns : List Node} (h : Logs c p ns (us ++ a :: vs)) (ha : a.IsSkip)
    (n : Nat) : Logs c p ns (us ++ (List.replicate n (.skipped a.context) ++ a :: vs)) := by
  refine h.induct (P := Roomy n) (fun {c p ns as} hbody us a vs heq ha => ?_) us a vs rfl ha
  subst heq
  by_cases hp : p = .newlines
  · subst hp
    obtain ⟨o, ts, bs, hrest, heq⟩ := hbody
    cases us with
    | nil =>
      obtain ⟨rfl, rfl⟩ := List.cons.inj heq
      exact logs_skipped (logs_iff.mpr ⟨o, ts, vs, hrest.mono fun _ _ _ _ h => h.1, rfl⟩) n
    | cons u us =>
      obtain ⟨rfl, rfl⟩ := List.cons.inj heq
      refine logs_iff.mpr ⟨o, ts, _, ?_, rfl⟩
      cases o with
      | none => exact absurd hrest.2 (List.append_ne_nil_of_right_ne_nil _ (List.cons_ne_nil _ _))
      | some l => exact admits_all.mpr ((admits_all.mp hrest).2 us a vs rfl ha)
  · refine logs_iff.mpr (hbody.spliced ?_ ha)
    exact (covers_body p).mono (fun _ _ h _ _ => h.not_isSkip hp) fun _ _ _ => trivial

end Splice

end ShellGrammar
