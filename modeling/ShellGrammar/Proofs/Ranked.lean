import ShellGrammar.Proofs.Reader.Ranked

/-! Arithmetic is read in the one way its tokens allow.

The arithmetic expressions of a tree stand in its `$((…))`, its offsets, lengths and
subscripts. Each of them is well-ranked, its symbols stand for tokens that were taken one
after another, and no other well-ranked tree has the same symbols. -/
namespace ShellGrammar
open Grammar ParseM Node

/-! ### The expressions of a tree -/

namespace Node

/-- The arithmetic expressions right below a node that is none itself. -/
def expressions : Node → List Node
  | arithExpansion body => [body]
  | substring _ _ offset length => offset :: if length = empty then [] else [length]
  | arrayElement _ _ subscript => [subscript]
  | _ => []

/-- The arithmetic expressions of a tree, at every depth. -/
def allExpressions (n : Node) : List Node := n.preorder.flatMap expressions

theorem mem_allExpressions {n e : Node} :
    e ∈ n.allExpressions ↔ e ∈ n.expressions ∨ ∃ m ∈ n.children, e ∈ m.allExpressions := by
  simp only [allExpressions, preorder_eq n, List.flatMap_cons, List.mem_append, List.mem_flatMap]
  refine or_congr Iff.rfl ?_
  constructor
  · rintro ⟨k, ⟨m, hm, hk⟩, he⟩
    exact ⟨m, hm, k, hk, he⟩
  · rintro ⟨m, hm, k, hk, he⟩
    exact ⟨k, ⟨m, hm, hk⟩, he⟩

/-- An expression is well-ranked, and its symbols stand for tokens that are among some
others, one after another. -/
def RankedIn (T : List Token) (e : Node) : Prop :=
  e.WellRanked ∧ ∃ ts, ts <:+: T ∧ Spells e.symbols ts

/-- All expressions of a tree are well-ranked and stand for some of the tokens. -/
def AllRanked (T : List Token) (n : Node) : Prop := ∀ e ∈ n.allExpressions, e.RankedIn T

theorem allRanked_iff {T : List Token} {n : Node} :
    n.AllRanked T ↔ (∀ e ∈ n.expressions, e.RankedIn T) ∧ ∀ m ∈ n.children, m.AllRanked T := by
  simp only [AllRanked, mem_allExpressions (n := n)]
  constructor
  · intro h
    exact ⟨fun e he => h e (.inl he), fun m hm e he => h e (.inr ⟨m, hm, he⟩)⟩
  · rintro ⟨hown, hbelow⟩ e (he | ⟨m, hm, he⟩)
    · exact hown e he
    · exact hbelow m hm e he

/-- A node without expressions of its own. -/
theorem AllRanked.of {T : List Token} {n : Node} (hown : n.expressions = [])
    (h : ∀ m ∈ n.children, m.AllRanked T) : n.AllRanked T :=
  allRanked_iff.mpr ⟨by rw [hown]; nofun, h⟩

theorem AllRanked.leaf {T : List Token} {n : Node} (hown : n.expressions = [])
    (h : n.children = []) : n.AllRanked T :=
  .of hown (by rw [h]; nofun)

theorem AllRanked.over {T : List Token} {n m : Node} (hown : n.expressions = [])
    (hchildren : n.children = [m]) (h : m.AllRanked T) : n.AllRanked T :=
  .of hown (hchildren ▸ List.forall_mem_singleton.mpr h)

theorem AllRanked.overTwo {T : List Token} {n m k : Node} (hown : n.expressions = [])
    (hchildren : n.children = [m, k]) (hm : m.AllRanked T) (hk : k.AllRanked T) :
    n.AllRanked T :=
  .of hown (hchildren ▸ List.forall_mem_cons.mpr ⟨hm, List.forall_mem_singleton.mpr hk⟩)

end Node

/-! ### What is taken on the way -/

/-- What is taken is part of all that is. -/
def Within (T : List Token) (xs : List Taken) : Prop := xs.map Taken.token <:+: T

namespace Within
variable {T : List Token} {x : Taken} {xs ys : List Taken}

theorem left (h : Within T (xs ++ ys)) : Within T xs :=
  List.IsInfix.trans ⟨[], ys.map Taken.token, by simp⟩ h

theorem right (h : Within T (xs ++ ys)) : Within T ys :=
  List.IsInfix.trans ⟨xs.map Taken.token, [], by simp⟩ h

end Within

/-! ### All productions -/

/-- What is made already when a production is called. -/
def Production.lefts : Production → List Node
  | many p => p.lefts
  | chainRest _ left => [left]
  | _ => []

/-- All expressions in what a production yields are ranked, if what it takes is among some
tokens. -/
def Production.RanksAll (T : List Token) (p : Production) (ns : List Node) (xs : List Taken) :
    Prop :=
  Within T xs → (∀ n ∈ p.lefts, n.AllRanked T) → ∀ n ∈ ns, n.AllRanked T

namespace RanksAll
variable {T : List Token} {c : Context} {place : Scan}

/-- What the productions that are called yield. -/
def Known (T : List Token) : Recording := fun c p place ns xs place' =>
  Records c p place ns xs place' ∧ p.RanksAll T ns xs

variable {p : Production} {n : Node} {ns : List Node} {xs : List Taken} {place' : Scan}

theorem Known.all (h : Known T c p place ns xs place') (hin : Within T xs) (hp : p.lefts = []) :
    ∀ n ∈ ns, n.AllRanked T :=
  h.2 hin (by rw [hp]; nofun)

theorem Known.one (h : Known T c p place [n] xs place') (hin : Within T xs) (hp : p.lefts = []) :
    n.AllRanked T :=
  h.all hin hp n List.mem_cons_self

/-- A whole expression is ranked. -/
theorem Known.expression (h : Known T c (.chain .comma) place [n] xs place') (hin : Within T xs) :
    n.RankedIn T := by
  have hn := h.1.ranks n List.mem_cons_self
  exact ⟨hn.wellRanked, _, hin, hn.spells⟩

theorem single (h : n.AllRanked T) : ∀ m ∈ [n], m.AllRanked T :=
  List.forall_mem_singleton.mpr h

variable (T c place) in
/-- All expressions in what a reader yields are ranked. -/
abbrev Ensured (m : Reader (List Node)) : Prop :=
  m.Ensures (Known T) c place fun ns xs _ => Within T xs → ∀ n ∈ ns, n.AllRanked T

/-! Arithmetic. -/

theorem post : Ensured T c place Production.post.body := by
  simp only [Ensured, Production.body, ensures_bind, ensures_one, ensures_next, ensures_pure]
  intro n xs place' hn t ht
  refine ⟨fun _ hin => ?_, fun _ hin => ?_⟩
  · exact single (hn.one hin.left rfl)
  · exact single (.over rfl rfl (hn.one hin.left rfl))

theorem unary : Ensured T c place Production.unary.body := by
  simp only [Ensured, Production.body, ensures_bind, ensures_one, ensures_all, ensures_next,
    ensures_pure]
  intro t ht
  refine ⟨fun _ ns xs place' hns hin => ?_, fun _ n xs place' hn hin => ?_⟩
  · exact hns.all hin.right rfl
  · exact single (.over rfl rfl (hn.one hin.right.left rfl))

theorem power : Ensured T c place Production.power.body := by
  simp only [Ensured, Production.body, ensures_bind, ensures_one, ensures_next, ensures_pure]
  intro n xs place' hn t ht
  refine ⟨fun _ hin => ?_, fun _ m ys place'' hm hin => ?_⟩
  · exact single (hn.one hin.left rfl)
  · exact single (.overTwo rfl rfl (hn.one hin.left rfl) (hm.one hin.right.right.left rfl))

theorem ternary : Ensured T c place Production.ternary.body := by
  simp only [Ensured, Production.body, ensures_bind, ensures_one, ensures_next, ensures_expect,
    ensures_pure]
  intro n xs place' hn t ht
  refine ⟨fun _ hin => ?_, fun _ yes ys place₂ hyes u hu _ no zs place₃ hno hin => ?_⟩
  · exact single (hn.one hin.left rfl)
  · have hbelow : ∀ m ∈ [n, yes, no], m.AllRanked T := by
      simp only [List.forall_mem_cons]
      exact ⟨hn.one hin.left rfl, hyes.one hin.right.right.left rfl,
        hno.one hin.right.right.right.right.left rfl, List.forall_mem_nil _⟩
    exact single (.of rfl hbelow)

theorem assignment : Ensured T c place Production.assignment.body := by
  simp only [Ensured, Production.body, ensures_bind, ensures_query]
  rintro (_ | ⟨name, op⟩) ts place₁ -
  · rw [ensures_all]
    exact fun ns xs place' hns hin => hns.all hin.right rfl
  · simp only [ensures_bind, ensures_one, ensures_pure]
    intro n xs place' hn hin
    exact single (.overTwo rfl rfl (.leaf rfl rfl) (hn.one hin.right.left rfl))

theorem primary : Ensured T c place Production.primary.body := by
  simp only [Ensured, Production.body, ensures_bind, ensures_expect]
  intro t ht _
  unfold Reader.primaryRest
  split
  · exact ensures_pure.mpr fun _ => single (.leaf rfl rfl)
  · exact ensures_pure.mpr fun _ => single (.leaf rfl rfl)
  · exact ensures_pure.mpr fun _ => single (.leaf rfl rfl)
  · simp only [ensures_bind, ensures_one, ensures_expect, ensures_pure]
    intro n xs place' hn u hu _ hin
    exact single (.over rfl rfl (hn.one hin.right.left rfl))
  · exact ensures_all.mpr fun ns xs place' hns hin => hns.all hin.right rfl
  · exact ensures_all.mpr fun ns xs place' hns hin => hns.all hin.right rfl
  · simp only [ensures_bind, ensures_one, ensures_pure]
    intro n xs place' hn hin
    exact single (.over rfl rfl (hn.one hin.right.left rfl))
  · exact ensures_stop.mpr trivial

theorem arithClosed : Ensured T c place Production.arithClosed.body := by
  simp only [Ensured, Production.body, ensures_bind, ensures_one, ensures_close, ensures_pure]
  intro n xs place' hn t ht hin
  refine single (allRanked_iff.mpr ⟨?_, ?_⟩)
  · exact List.forall_mem_singleton.mpr (Known.expression hn hin.left)
  · exact List.forall_mem_singleton.mpr (hn.one hin.left rfl)

/-! Chains. -/

theorem operator {ch : Chain} :
    ch.operator.Ensures (Known T) c place fun _ _ _ => True := fun _ _ _ _ => trivial

theorem chain {ch : Chain} : Ensured T c place (Production.chain ch).body := by
  simp only [Ensured, Production.body, ensures_bind, ensures_one, ensures_all]
  intro n xs place' hn ns ys place'' hns hin
  refine hns.2 hin.right (single (hn.one hin.left ?_))
  cases ch <;> rfl

theorem chainRest {ch : Chain} {left : Node} (hleft : left.AllRanked T) :
    Ensured T c place (Production.chainRest ch left).body := by
  simp only [Ensured, Production.body, ensures_bind]
  rintro (_ | op) xs place' -
  · exact ensures_pure.mpr fun _ => single hleft
  · simp only [ensures_bind, ensures_one, ensures_all]
    intro n ys place₁ hn ns zs place₂ hns hin
    refine hns.2 hin.right.right (single ?_)
    have hright : n.AllRanked T := hn.one hin.right.left (by cases ch <;> rfl)
    cases ch <;> exact .overTwo rfl rfl hleft hright

/-! Commands. -/

theorem many (hlefts : ∀ n ∈ p.lefts, n.AllRanked T) :
    Ensured T c place (Production.many p).body := by
  simp only [Ensured, Production.body, ensures_bind, ensures_first?, Context.shift]
  rintro (_ | ⟨n, ns⟩) xs place' hns
  · exact ensures_pure.mpr fun _ => List.forall_mem_nil _
  · simp only [List.head?_cons, ensures_bind, ensures_all, ensures_pure]
    intro ms ys place'' hms hin
    exact List.forall_mem_cons.mpr ⟨hns.2 hin.left hlefts n List.mem_cons_self,
      hms.2 hin.right.left hlefts⟩

theorem newlines : Ensured T c place Production.newlines.body := by
  simp only [Ensured, Production.body, ensures_bind, ensures_next, ensures_all, ensures_pure]
  intro t ht
  refine ⟨fun _ _ => List.forall_mem_nil _, fun _ ns xs place' hns hin => hns.all hin.right rfl⟩

theorem list {closer : Closer} : Ensured T c place (Production.list closer).body := by
  simp only [Ensured, Production.body, ensures_bind, ensures_all, ensures_expect, ensures_pure]
  intro ns xs place' hns t ht _ hin
  exact single (.of rfl (hns.all hin.left rfl))

theorem entries {closer : Closer} : Ensured T c place (Production.entries closer).body := by
  simp only [Ensured, Production.body, ensures_bind, ensures_all, ensures_peek]
  intro _ xs place' _ t ht
  split
  · exact ensures_pure.mpr fun _ => List.forall_mem_nil _
  · simp only [ensures_bind, ensures_one]
    intro first ys place₁ hfirst
    split
    · simp only [ensures_bind, ensures_all, ensures_pure]
      intro rest zs place₂ hrest hin
      exact List.forall_mem_cons.mpr ⟨hfirst.one hin.right.right.left rfl,
        hrest.all hin.right.right.right.left rfl⟩
    · exact ensures_pure.mpr fun hin => single (hfirst.one hin.right.right.left rfl)

theorem entry : Ensured T c place Production.entry.body := by
  simp only [Ensured, Production.body, ensures_bind, ensures_one, ensures_next, ensures_pure]
  intro n xs place' hn t ht
  exact ⟨fun _ hin => single (.over rfl rfl (hn.one hin.left rfl)),
    fun _ hin => single (.over rfl rfl (hn.one hin.left rfl))⟩

theorem pipeline : Ensured T c place Production.pipeline.body := by
  simp only [Ensured, Production.body, ensures_bind, ensures_query, ensures_one, ensures_pure]
  intro excl ts place' _ n xs place'' hn hin
  exact single (.over rfl rfl (hn.one hin.right.left rfl))

theorem command : Ensured T c place Production.command.body := by
  simp only [Ensured, Production.body, ensures_bind, ensures_all]
  intro assigns xs place' hassigns body ys place'' hbody
  split
  · exact ensures_stop.mpr trivial
  · refine ensures_pure.mpr fun hin => single (.of rfl ?_)
    exact List.forall_mem_append.mpr ⟨hassigns.all hin.left rfl, hbody.all hin.right.left rfl⟩

theorem assign : Ensured T c place Production.assign.body := by
  simp only [Ensured, Production.body, Reader.accept, ensures_bind, ensures_mark]
  refine ⟨fun _ => ensures_pure.mpr fun _ => List.forall_mem_nil _, fun t ht => ?_⟩
  simp only [ensures_first?, ensures_pure]
  intro ns xs place' hns hin
  refine single (.of rfl fun m hm => ?_)
  exact hns.all hin.right.left rfl m (List.mem_of_mem_head? (Option.mem_toList.mp hm))

/-! Words. -/

theorem word : Ensured T c place Production.word.body := by
  simp only [Ensured, Production.body, ensures_bind, ensures_first?]
  rintro (_ | ⟨n, ns⟩) xs place' hns
  · exact ensures_pure.mpr fun _ => List.forall_mem_nil _
  · simp only [List.head?_cons, ensures_bind, ensures_all, ensures_pure]
    intro rest ys place'' hrest hin
    have hn := hns.all hin.left rfl n List.mem_cons_self
    split
    · exact single hn
    · exact single (.of rfl (List.forall_mem_cons.mpr ⟨hn, hrest.all hin.right.left rfl⟩))

theorem piece {adjacent : Bool} : Ensured T c place (Production.piece adjacent).body := by
  simp only [Ensured, Production.body, ensures_bind, ensures_take]
  intro t ht
  refine ⟨fun _ => ensures_pure.mpr fun _ => List.forall_mem_nil _, fun _ => ?_⟩
  unfold Reader.pieceRest
  split
  · exact ensures_pure.mpr fun _ => single (.leaf rfl rfl)
  · exact ensures_pure.mpr fun _ => single (.leaf rfl rfl)
  · exact ensures_pure.mpr fun _ => single (.leaf rfl rfl)
  · simp only [ensures_bind, ensures_all, ensures_pure]
    intro ns xs place' hns hin
    exact single (.of rfl (hns.all hin.right.left rfl))
  · exact ensures_all.mpr fun ns xs place' hns hin => hns.all hin.right rfl
  · exact ensures_all.mpr fun ns xs place' hns hin => hns.all hin.right rfl
  iterate 4
    · simp only [ensures_bind, ensures_one, ensures_pure]
      intro n xs place' hn hin
      exact single (.over rfl rfl (hn.one hin.right.left rfl))
  · exact ensures_stop.mpr trivial

theorem quoted : Ensured T c place Production.quoted.body := by
  simp only [Ensured, Production.body, ensures_bind, ensures_next, ensures_pure]
  intro t ht
  refine ⟨fun _ => ensures_first?.mpr ?_, fun _ _ => List.forall_mem_nil _⟩
  rintro (_ | ⟨n, ns⟩) xs place' hns
  · exact ensures_stop.mpr trivial
  · simp only [List.head?_cons, ensures_bind, ensures_all, ensures_pure]
    intro rest ys place'' hrest hin
    exact List.forall_mem_cons.mpr ⟨hns.all hin.right.left rfl n List.mem_cons_self,
      hrest.all hin.right.right.left rfl⟩

/-! Parameters. -/

theorem payload {rules : Rules} :
    (Reader.payload rules).Ensures (Known T) c place fun w xs _ => Within T xs → w.AllRanked T := by
  simp only [Reader.payload, ensures_bind, ensures_first?, ensures_pure]
  rintro (_ | ⟨n, ns⟩) xs place' hns hin
  · exact .leaf rfl rfl
  · exact hns.all hin.left rfl n List.mem_cons_self

theorem arithOperand :
    Reader.arithOperand.Ensures (Known T) c place fun e xs _ =>
      Within T xs → e.RankedIn T ∧ e.AllRanked T :=
  ensures_one.mpr fun _ _ _ hn hin => ⟨Known.expression hn hin, hn.one hin rfl⟩

variable (T c place) in
/-- All expressions in the form that a reader finds are ranked. -/
abbrev EnsuredForm (m : Reader (Option Form)) : Prop :=
  m.Ensures (Known T) c place fun form xs _ => Within T xs → ∀ f ∈ form, f.node.AllRanked T

variable {ref : Bool} {name : Text}

theorem elementsForm : EnsuredForm T c place (Reader.elementsForm ref name) := by
  simp only [EnsuredForm, Reader.elementsForm, ensures_bind, ensures_next, ensures_pure]
  intro t ht
  refine ⟨fun _ _ => nofun, fun _ _ => ?_⟩
  rintro _ ⟨⟩
  cases ref <;> exact .leaf rfl rfl

/-- A form with a word behind what introduces it. -/
theorem payloadForm {shape : Shape} {rules : Rules} {f : Text → Node → Form}
    (hf : ∀ mode w, (f mode w).node.expressions = [] ∧ (f mode w).node.children = [w]) :
    EnsuredForm T c place (do
      match ← Reader.accept shape with
      | none => pure none
      | some mode => pure (some (f mode (← Reader.payload rules)))) := by
  simp only [EnsuredForm, Reader.accept, ensures_bind, ensures_mark, ensures_pure]
  refine ⟨fun _ _ => nofun, fun t ht => payload.mono ?_⟩
  rintro w xs place' hw hin _ ⟨⟩
  exact .over (hf _ w).1 (hf _ w).2 (hw hin.right.left)

theorem substringForm : EnsuredForm T c place (Reader.substringForm ref name) := by
  simp only [EnsuredForm, Reader.substringForm, Reader.accept, Reader.acceptPastBlank,
    ensures_bind, ensures_mark, ensures_pure]
  refine ⟨fun _ _ => nofun, fun t ht => arithOperand.mono ?_⟩
  intro offset xs place' hoffset
  refine ⟨?_, fun u hu => arithOperand.mono ?_⟩
  · rintro - hin _ ⟨⟩
    obtain ⟨hown, hbelow⟩ := hoffset hin.right.left
    refine allRanked_iff.mpr ⟨List.forall_mem_singleton.mpr hown, ?_⟩
    exact List.forall_mem_cons.mpr ⟨hbelow, List.forall_mem_singleton.mpr (.leaf rfl rfl)⟩
  · rintro length ys place'' hlength hin _ ⟨⟩
    obtain ⟨hown, hbelow⟩ := hoffset hin.right.left
    obtain ⟨hown', hbelow'⟩ := hlength hin.right.right.right.left
    refine allRanked_iff.mpr ⟨List.forall_mem_cons.mpr ⟨hown, ?_⟩, ?_⟩
    · split
      · nofun
      · exact List.forall_mem_singleton.mpr hown'
    · exact List.forall_mem_cons.mpr ⟨hbelow, List.forall_mem_singleton.mpr hbelow'⟩

theorem replacementForm : EnsuredForm T c place (Reader.replacementForm ref name) := by
  simp only [EnsuredForm, Reader.replacementForm, Reader.accept, ensures_bind]
  rintro (_ | slash) ts place₁ -
  · exact ensures_pure.mpr fun _ => nofun
  · simp only [ensures_bind]
    intro anchor us place₂ _
    refine payload.mono fun pattern xs place₃ hpattern => ?_
    rintro (_ | slash') vs place₄ -
    · rw [ensures_pure]
      rintro hin _ ⟨⟩
      exact .over rfl rfl (hpattern hin.right.right.left)
    · simp only [ensures_bind, ensures_pure]
      refine payload.mono ?_
      rintro replace ys place₅ hreplace hin _ ⟨⟩
      exact .overTwo rfl rfl (hpattern hin.right.right.left)
        (hreplace hin.right.right.right.right.left)

theorem matchingNames {mode : Text} :
    (Reader.matchingNames ref name mode).Ensures (Known T) c place fun form _ _ =>
      form.node.AllRanked T := by
  rw [Reader.matchingNames]
  split
  · exact ensures_pure.mpr (.leaf rfl rfl)
  · exact ensures_stop.mpr trivial

theorem atForm : EnsuredForm T c place (Reader.atForm ref name) := by
  simp only [EnsuredForm, Reader.atForm, Reader.accept, ensures_bind]
  rintro (_ | mark) ts place₁ -
  · exact ensures_pure.mpr fun _ => nofun
  · simp only [ensures_bind]
    rintro (_ | op) us place₂ -
    · simp only [ensures_bind, ensures_pure]
      refine matchingNames.mono ?_
      rintro form xs place₃ hform - _ ⟨⟩
      exact hform
    · rw [ensures_pure]
      rintro - _ ⟨⟩
      exact .leaf rfl rfl

theorem starForm : EnsuredForm T c place (Reader.starForm ref name) := by
  simp only [EnsuredForm, Reader.starForm, Reader.accept, ensures_bind]
  rintro (_ | mark) ts place₁ -
  · exact ensures_pure.mpr fun _ => nofun
  · simp only [ensures_bind, ensures_pure]
    refine matchingNames.mono ?_
    rintro form xs place₂ hform - _ ⟨⟩
    exact hform

theorem elementForm : EnsuredForm T c place (Reader.elementForm ref name) := by
  simp only [EnsuredForm, Reader.elementForm, ensures_bind, ensures_next, ensures_close,
    ensures_pure]
  intro t ht
  refine ⟨fun _ _ => nofun, fun _ => arithOperand.mono ?_⟩
  rintro e xs place' he u hu hin _ ⟨⟩
  obtain ⟨hown, hbelow⟩ := he hin.right.left
  exact allRanked_iff.mpr ⟨List.forall_mem_singleton.mpr hown, List.forall_mem_singleton.mpr hbelow⟩

theorem firstOf {alternatives : List (Reader (Option Form))}
    (h : ∀ m ∈ alternatives, ∀ place, EnsuredForm T c place m) :
    EnsuredForm T c place (Reader.firstOf alternatives) := by
  induction alternatives generalizing place with
  | nil => exact ensures_pure.mpr fun _ => nofun
  | cons m rest ih =>
    rw [Reader.firstOf, EnsuredForm, ensures_bind]
    refine (h m List.mem_cons_self place).mono fun form xs place' hform => ?_
    cases form with
    | none =>
      refine (ih fun m hm => h m (List.mem_cons_of_mem _ hm)).mono ?_
      exact fun form ys place'' hrest hin => hrest hin.right
    | some f => exact ensures_pure.mpr fun hin => hform hin.left

theorem forms : EnsuredForm T c place (Reader.firstOf (Reader.forms ref name)) := by
  refine firstOf ?_
  simp only [Reader.forms, List.forall_mem_cons]
  exact ⟨fun _ => elementsForm, fun _ => payloadForm fun _ _ => ⟨rfl, rfl⟩,
    fun _ => substringForm, fun _ => payloadForm fun _ _ => ⟨rfl, rfl⟩,
    fun _ => payloadForm fun _ _ => ⟨rfl, rfl⟩, fun _ => replacementForm, fun _ => atForm,
    fun _ => starForm, fun _ => elementForm, List.forall_mem_nil _⟩

theorem parameterBody :
    Reader.parameterBody.Ensures (Known T) c place fun form xs _ =>
      Within T xs → form.node.AllRanked T := by
  rw [Reader.parameterBody, ensures_bind]
  intro h xs place' _
  split
  · exact ensures_pure.mpr fun _ => .leaf rfl rfl
  · simp only [ensures_bind, ensures_pure]
    refine forms.mono ?_
    rintro (_ | form) ys place'' hform hin
    · exact .leaf rfl rfl
    · exact hform hin.right.left form rfl

theorem braced : Ensured T c place Production.braced.body := by
  rw [Ensured, Production.body, ensures_bind]
  refine parameterBody.mono fun form xs place' hform => ?_
  split
  · simp only [ensures_bind, ensures_close, ensures_pure]
    exact fun t ht hin => single (hform hin.left)
  · simp only [ensures_bind, ensures_expect, ensures_pure]
    exact fun t ht _ hin => single (hform hin.left)

end RanksAll

/-- All expressions in what a production yields are ranked, if all in what it is given are. -/
theorem Records.ranksAll (T : List Token) {c : Context} {p : Production} {place place' : Scan}
    {ns : List Node} {xs : List Taken} (h : Records c p place ns xs place') :
    p.RanksAll T ns xs := by
  refine h.ensured (P := fun _ p _ ns xs _ => p.RanksAll T ns xs) fun c p place => ?_
  have hensured : (∀ n ∈ p.lefts, n.AllRanked T) → RanksAll.Ensured T c place p.body := by
    intro hlefts
    cases p with
    | many p => exact RanksAll.many hlefts
    | chain ch => exact RanksAll.chain
    | chainRest ch left => exact RanksAll.chainRest (hlefts left List.mem_cons_self)
    | newlines => exact RanksAll.newlines
    | list closer => exact RanksAll.list
    | entries closer => exact RanksAll.entries
    | entry => exact RanksAll.entry
    | pipeline => exact RanksAll.pipeline
    | command => exact RanksAll.command
    | assign => exact RanksAll.assign
    | word => exact RanksAll.word
    | piece adjacent => exact RanksAll.piece
    | quoted => exact RanksAll.quoted
    | braced => exact RanksAll.braced
    | arithClosed => exact RanksAll.arithClosed
    | assignment => exact RanksAll.assignment
    | ternary => exact RanksAll.ternary
    | power => exact RanksAll.power
    | unary => exact RanksAll.unary
    | post => exact RanksAll.post
    | primary => exact RanksAll.primary
  exact fun ns xs place' hns hin hlefts => hensured hlefts ns xs place' hns hin

/-- Every arithmetic expression in a tree is well-ranked, and its symbols stand for tokens that
were taken one after another, whatever the limit. Well-ranked trees with the same symbols are
equal. -/
theorem arithmetic_unambiguous :
    (∀ (options : Options) (source : Text) (t : Node) (s : ParseState),
      run options source = .ok t s → ∀ e ∈ t.allExpressions,
        e.WellRanked ∧ ∃ ts, ts <:+: s.lexer.consumed ∧ Spells e.symbols ts) ∧
    ∀ a b : Node, a.WellRanked → b.WellRanked → a.symbols = b.symbols → a = b := by
  refine ⟨fun options source t s h => ?_, fun a b ha hb => wellRanked_unique ha hb⟩
  obtain ⟨xs, hrecords, hconsumed⟩ := run_records (run_unlimited h)
  rw [hconsumed]
  exact hrecords.ranksAll _ (List.infix_refl _) (List.forall_mem_nil _) t List.mem_cons_self

/-- `$((a-b-2**-c?d=1:e++,f))`: a comma of a ternary, which has differences of powers in its
condition, and a variable. No other well-ranked tree has the symbols of this one. -/
theorem arithmetic_unambiguous_levels :
    ∃ t s e, run ⟨9⟩ ['$', '(', '(', 'a', '-', 'b', '-', '2', '*', '*', '-', 'c', '?', 'd', '=',
        '1', ':', 'e', '+', '+', ',', 'f', ')', ')'] = .ok t s ∧ t.allExpressions = [e] ∧
      e = .binOp [','] (.ternary
        (.binOp ['-'] (.binOp ['-'] (.var ['a'] false) (.var ['b'] false))
          (.binOp ['*', '*'] (.number ['2']) (.unOp ['-'] (.var ['c'] false))))
        (.binOp ['='] (.var ['d'] false) (.number ['1']))
        (.postOp ['+', '+'] (.var ['e'] false))) (.var ['f'] false) ∧
      e.WellRanked ∧ (∃ ts, ts <:+: s.lexer.consumed ∧ Spells e.symbols ts) ∧
      ∀ b : Node, b.WellRanked → b.symbols = e.symbols → b = e := by
  have hparse : (parse ⟨9⟩ ['$', '(', '(', 'a', '-', 'b', '-', '2', '*', '*', '-', 'c', '?', 'd',
      '=', '1', ':', 'e', '+', '+', ',', 'f', ')', ')']).toOption = some (.list [.pipelines
      (.pipeline false (.simpleCommand [] [.arithExpansion (.binOp [','] (.ternary
        (.binOp ['-'] (.binOp ['-'] (.var ['a'] false) (.var ['b'] false))
          (.binOp ['*', '*'] (.number ['2']) (.unOp ['-'] (.var ['c'] false))))
        (.binOp ['='] (.var ['d'] false) (.number ['1']))
        (.postOp ['+', '+'] (.var ['e'] false))) (.var ['f'] false))])) none]) := by
    decide +kernel
  obtain ⟨s, hs⟩ := parse_eq_ok_iff.mp (parse_of_toOption hparse)
  obtain ⟨hranked, hspells⟩ := arithmetic_unambiguous.1 _ _ _ s hs _ List.mem_cons_self
  exact ⟨_, s, _, hs, rfl, rfl, hranked, hspells,
    fun b hb => arithmetic_unambiguous.2 b _ hb hranked⟩

end ShellGrammar
