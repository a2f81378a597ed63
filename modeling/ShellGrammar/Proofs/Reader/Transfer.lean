import ShellGrammar.Proofs.Reader.Answers
import ShellGrammar.Proofs.Rules.Front

/-! From one place to another.

A reader that leads from one place to another leads the same way elsewhere, if all it asks
is answered there as it is here and all it calls yields there what it yields here.
`Carries` has the conditions, one for questions and one for calls. They may need to know
where things end: `Final` is what is known of the end, and goes backward through a
reader. -/
namespace ShellGrammar

/-! ### Going forward -/

theorem Rules.suffix_of_tokenAt {rules : Rules} {place : Scan} {t : Token}
    (h : rules.tokenAt place = .ok t) : t.after.rest <:+ place.rest := by
  rw [Rules.tokenAt_front h, ← List.append_assoc]
  exact List.suffix_append _ _

theorem Rules.suffix_of_takeAt {rules : Rules} {pattern : Pattern} {kind : Kind}
    {allowBlank : Bool} {place : Scan} {t : Token}
    (h : rules.takeAt pattern kind allowBlank place = some t) : t.after.rest <:+ place.rest := by
  obtain ⟨rfl, hfits⟩ := Rules.takeAt_fits h
  rw [Token.rest_origin hfits]
  exact List.suffix_append _ _

/-- An answer leads forward. -/
theorem Query.suffix_of_answer {β : Type} {q : Query β} {c : Context} {place place' : Scan} {b : β}
    (h : q.answer c place = some (b, place')) : place'.rest <:+ place.rest := by
  have htoken : ∀ {place : Scan} {t : Token}, c.token? place = some t →
      t.after.rest <:+ place.rest :=
    fun ht => Rules.suffix_of_tokenAt (Context.token?_eq_some.mp ht)
  cases q with
  | take adjacent want =>
    cases b with
    | none =>
      obtain ⟨_, _, _, rfl⟩ := take_none.mp h
      exact List.suffix_rfl
    | some l =>
      obtain ⟨t, ht, _, _, rfl⟩ := take_some.mp h
      exact htoken ht
  | peek want =>
    obtain ⟨_, _, _, rfl⟩ := peek_iff.mp h
    exact List.suffix_rfl
  | mark shape pastBlank =>
    cases b with
    | none =>
      obtain ⟨_, rfl⟩ := mark_none.mp h
      exact List.suffix_rfl
    | some body =>
      obtain ⟨t, ht, _, rfl⟩ := mark_some.mp h
      exact Rules.suffix_of_takeAt ht
  | close closing pastBlank =>
    obtain ⟨t, ht, rfl⟩ := close_iff.mp h
    exact Rules.suffix_of_takeAt ht
  | bang =>
    obtain ⟨t, ht, ⟨_, _, rfl⟩ | ⟨_, u, _, ⟨_, _, rfl⟩ | ⟨_, _, rfl⟩⟩⟩ := bang_iff.mp h
    · exact List.suffix_rfl
    · exact List.suffix_rfl
    · exact htoken ht
  | target =>
    obtain ⟨t, ht, ⟨_, _, rfl⟩ | ⟨_, u, hu, ⟨_, _, rfl⟩ | ⟨_, _, rfl⟩⟩⟩ := target_iff.mp h
    · exact List.suffix_rfl
    · exact List.suffix_rfl
    · exact (htoken hu).trans (htoken ht)

/-- A reader leads forward if the productions it calls do. -/
theorem Reader.LeadsBy.suffix {below : Yielding} {c : Context} {α : Type} {m : Reader α}
    {place place' : Scan} {a : α}
    (hbelow : ∀ c p place ns place', below c p place ns place' → place'.rest <:+ place.rest)
    (h : m.LeadsBy below c place a place') : place'.rest <:+ place.rest := by
  induction m generalizing place with
  | done b => exact h.2 ▸ List.suffix_rfl
  | stop => exact h.elim
  | ask q k ih =>
    obtain ⟨b, place₁, hanswer, hrest⟩ := h
    exact (ih b hrest).trans (Query.suffix_of_answer hanswer)
  | call shift p k ih =>
    obtain ⟨ns, place₁, hcall, hrest⟩ := h
    exact (ih ns hrest).trans (hbelow _ _ _ _ _ hcall)

theorem Parses.suffix {c : Context} {p : Production} {place place' : Scan} {ns : List Node}
    (h : Parses c p place ns place') : place'.rest <:+ place.rest :=
  h.induct fun hbody => hbody.suffix fun _ _ _ _ _ hcall => hcall.2

/-! ### The same elsewhere -/

namespace Reader

/-- All that a reader asks and calls is of some kinds. -/
def Within (Q : (β : Type) → Query β → Prop) (C : Shift → Production → Prop) {α : Type} :
    Reader α → Prop
  | .done _ => True
  | .stop => True
  | .ask q k => Q _ q ∧ ∀ b, (k b).Within Q C
  | .call shift p k => C shift p ∧ ∀ ns, (k ns).Within Q C

section Within
variable {Q : (β : Type) → Query β → Prop} {C : Shift → Production → Prop} {α β : Type}

theorem within_pure {a : α} : (pure a : Reader α).Within Q C := trivial

theorem within_bind {m : Reader α} {f : α → Reader β} (hm : m.Within Q C)
    (hf : ∀ a, (f a).Within Q C) : (m >>= f).Within Q C := by
  show (m.bind f).Within Q C
  induction m with
  | done a => exact hf a
  | stop => trivial
  | ask q k ih => exact ⟨hm.1, fun b => ih b (hm.2 b)⟩
  | call shift p k ih => exact ⟨hm.1, fun ns => ih ns (hm.2 ns)⟩

theorem within_query {q : Query α} (hq : Q α q) : (Reader.ask q .done).Within Q C :=
  ⟨hq, fun _ => trivial⟩

theorem within_all {shift : Shift} {p : Production} (h : C shift p) :
    (all shift p).Within Q C := ⟨h, fun _ => trivial⟩

theorem within_first? {shift : Shift} {p : Production} (h : C shift p) :
    (first? shift p).Within Q C := ⟨h, fun _ => trivial⟩

theorem within_one {shift : Shift} {p : Production} (h : C shift p) :
    (one shift p).Within Q C := by
  refine ⟨h, fun ns => ?_⟩
  dsimp only
  split <;> trivial

theorem within_expect {kinds : List Kind} (h : (next kinds).Within Q C) :
    (expect kinds).Within Q C := by
  refine within_bind h fun o => ?_
  cases o <;> trivial

/-- All readers ask and call something. -/
theorem within_true (m : Reader α) : m.Within (fun _ _ => True) (fun _ _ => True) := by
  induction m with
  | done a => trivial
  | stop => trivial
  | ask q k ih => exact ⟨trivial, ih⟩
  | call shift p k ih => exact ⟨trivial, ih⟩

end Within

end Reader

/-- Questions and calls of some kinds have the same answers and results in the context `c`
at one place as in `c'` at another, where the two places are related and something is known
of where they lead. -/
structure Carries (Q : (β : Type) → Query β → Prop) (C : Shift → Production → Prop)
    (below below' : Yielding) (c c' : Context) (Rel : Scan → Scan → Prop)
    (Final : Scan → Prop) : Prop where
  ask : ∀ {β : Type} {q : Query β} {place place₁ other : Scan} {b : β}, Q β q →
    q.answer c place = some (b, place₁) → Final place₁ → Rel place other →
      ∃ other₁, q.answer c' other = some (b, other₁) ∧ Rel place₁ other₁
  call : ∀ {shift : Shift} {p : Production} {place place₁ other : Scan} {ns : List Node},
    C shift p → below (c.shift shift) p place ns place₁ → Final place₁ → Rel place other →
      ∃ other₁, below' (c'.shift shift) p other ns other₁ ∧ Rel place₁ other₁
  asked : ∀ {β : Type} {q : Query β} {place place₁ : Scan} {b : β}, Q β q →
    q.answer c place = some (b, place₁) → Final place₁ → Final place
  called : ∀ {shift : Shift} {p : Production} {place place₁ : Scan} {ns : List Node},
    C shift p → below (c.shift shift) p place ns place₁ → Final place₁ → Final place

/-- A reader leads the same way from a related place. -/
theorem Carries.leads {Q : (β : Type) → Query β → Prop} {C : Shift → Production → Prop}
    {below below' : Yielding} {c c' : Context} {Rel : Scan → Scan → Prop} {Final : Scan → Prop}
    (h : Carries Q C below below' c c' Rel Final) {α : Type} {m : Reader α} (hm : m.Within Q C)
    {place place' : Scan} {a : α} (hleads : m.LeadsBy below c place a place')
    (hfinal : Final place') :
    Final place ∧ ∀ other, Rel place other →
      ∃ other', m.LeadsBy below' c' other a other' ∧ Rel place' other' := by
  induction m generalizing place with
  | done b =>
    obtain ⟨rfl, rfl⟩ := hleads
    exact ⟨hfinal, fun other hrel => ⟨other, ⟨rfl, rfl⟩, hrel⟩⟩
  | stop => exact hleads.elim
  | ask q k ih =>
    obtain ⟨b, place₁, hanswer, hrest⟩ := hleads
    obtain ⟨hfinal₁, hgo⟩ := ih b (hm.2 b) hrest
    refine ⟨h.asked hm.1 hanswer hfinal₁, fun other hrel => ?_⟩
    obtain ⟨other₁, hanswer', hrel₁⟩ := h.ask hm.1 hanswer hfinal₁ hrel
    obtain ⟨other', hrest', hrel'⟩ := hgo other₁ hrel₁
    exact ⟨other', ⟨b, other₁, hanswer', hrest'⟩, hrel'⟩
  | call shift p k ih =>
    obtain ⟨ns, place₁, hcall, hrest⟩ := hleads
    obtain ⟨hfinal₁, hgo⟩ := ih ns (hm.2 ns) hrest
    refine ⟨h.called hm.1 hcall hfinal₁, fun other hrel => ?_⟩
    obtain ⟨other₁, hcall', hrel₁⟩ := h.call hm.1 hcall hfinal₁ hrel
    obtain ⟨other', hrest', hrel'⟩ := hgo other₁ hrel₁
    exact ⟨other', ⟨ns, other₁, hcall', hrest'⟩, hrel'⟩

end ShellGrammar
