import ShellGrammar.Proofs.Blind
import ShellGrammar.Proofs.Rules.Refused

/-! The forms of an expansion exclude each other.

What follows the name of a parameter is told by its introducer: each form takes its own, or
reads nothing (`Variant.form_of_absent`), and once it has taken it no other form is tried
(`Variant.commits`). Introducers start with different characters, but for two pairs. An
operator such as `:-` starts with the colon of a substring, and for that reason has to be tried
first. All elements of an array and one of them both start with a bracket, which is a different
token in each, so these two need no order. Hence in whatever order the forms are tried, at most
one of them is found (`Variant.find?_eq`); those that are tried before have only looked, and
what they have looked at cannot be seen (`Blind`). -/
namespace ShellGrammar
open Grammar ParseM

variable {source : Text}

/-- What tells that a form is there: a token of some kinds, or a shape. -/
inductive Introducer where
  | token (kinds : List Kind)
  | shape (pattern : Pattern) (kind : Kind)

namespace Introducer

/-- Takes the introducer if it is there. -/
def read : Introducer → ParseM (Option Token)
  | token kinds => next kinds
  | shape pattern kind => accept pattern kind

/-- What is taken at a place in an expansion. -/
def found (place : Scan) : Introducer → Option Token
  | token kinds => (Rules.param.tokenAt place).toOption.filter (·.isVisible kinds false)
  | shape pattern kind => Rules.param.takeAt pattern kind false place

/-- In an expansion no text is at fault, so that an introducer is taken or not. -/
theorem read_eq (i : Introducer) {s : ParseState} (hs : s.lexer.Current source)
    (hmode : s.lexer.mode = ⟨.param, false⟩) :
    ∃ s', i.read s = .ok (i.found s.here) s' ∧ Reaches source s (i.found s.here).toList s' := by
  cases i with
  | token kinds =>
    have hrules : s.tokenHere = Rules.param.tokenAt s.here := by
      rw [ParseState.tokenHere, ParseState.rules, hmode]
    have hsought : ∀ t, sought false (among kinds) s t = t.isVisible kinds false := fun t => by
      rw [sought, hmode]
      rfl
    rw [read, next_eq_take hs, found, ← hrules]
    obtain ⟨t, s', ht, hv, htake, hreaches⟩ | ⟨t, s', ht, hv, htake, hreaches⟩ | ⟨f, hf, _⟩ :=
      take_cases hs false (among kinds)
    · rw [hsought] at hv
      simp only [ht, Except.toOption, Option.filter_some, hv, if_true]
      exact ⟨s', htake, hreaches⟩
    · rw [hsought] at hv
      simp only [ht, Except.toOption, Option.filter_some, hv, Bool.false_eq_true, if_false]
      exact ⟨s', htake, hreaches⟩
    · rw [hrules] at hf
      obtain ⟨_, hok⟩ | ⟨_, _, _, hrefuses, _⟩ | ⟨_, _, _, _, _, _, hok⟩ :=
        Rules.tokenAt_outcomes .param s.here
      · cases hok.symm.trans hf
      · exact hrefuses.elim
      · cases hok.symm.trans hf
  | shape pattern kind =>
    have hblank : s.context.mode.allowBlank = false := congrArg Mode.allowBlank hmode
    obtain ⟨s', hrun, hreaches⟩ := acceptWith_cases hs pattern kind false
    rw [ParseState.rules, hmode] at hrun hreaches
    refine ⟨s', ?_, hreaches⟩
    rw [read, accept_eq_acceptWith rfl, hblank]
    exact hrun

end Introducer

/-- The forms that can follow the name of a parameter. -/
inductive Variant where
  | elements
  | default
  | substring
  | removal
  | caseChange
  | replacement
  | atSign
  | star
  | element
deriving DecidableEq

namespace Variant

/-- The forms in the order in which the grammar tries them. -/
def all : List Variant := [
  elements, default, substring, removal, caseChange, replacement, atSign, star, element]

def introducer : Variant → Introducer
  | elements => .token [.bracketAt, .bracketStar]
  | default => .shape defaultOp .op
  | substring => .shape (.lit [':']) .colon
  | removal => .shape removalOp .op
  | caseChange => .shape caseOp .op
  | replacement => .shape (.lit ['/']) .slash
  | atSign => .shape (.lit ['@']) .glyph
  | star => .shape (.lit ['*']) .glyph
  | element => .token [.lbracket]

variable (g : Grammar) (ref : Bool) (name : Text)

def form : Variant → ParseM (Option Form)
  | elements => elementsForm ref name
  | default => defaultForm g ref name
  | substring => substringForm g ref name
  | removal => removalForm g ref name
  | caseChange => caseForm g ref name
  | replacement => replacementForm g ref name
  | atSign => atForm ref name
  | star => starForm ref name
  | element => elementForm g ref name

theorem forms_eq : forms g ref name = all.map (form g ref name) := rfl

end Variant

/-- What stands between `${` and its brace, where the forms are tried in some order. -/
def Grammar.parameterBodyBy (g : Grammar) (order : List Variant) : ParseM Form := do
  let h ← head
  if h.length then
    return ⟨.paramLength h.ref h.name, false⟩
  return (← firstOf (order.map (Variant.form g h.ref h.name))).getD ⟨.param h.ref h.name, false⟩

theorem Grammar.parameterBodyBy_all (g : Grammar) :
    parameterBodyBy g Variant.all = parameterBody g := rfl

/-! ### Forms and their introducers -/

/-- What does not come back with nothing. -/
def Commits {α : Type} (act : ParseM (Option α)) : Prop := ∀ s s', act s ≠ .ok none s'

section Commits
variable {α β : Type}

theorem commits_pure (a : α) : Commits (pure (some a)) := by
  intro s s' h
  cases h

theorem Commits.bind {act : ParseM β} {k : β → ParseM (Option α)} (h : ∀ b, Commits (k b)) :
    Commits (act >>= k) := by
  intro s s' hrun
  obtain ⟨b, s₁, _, hk⟩ := ok_of_bind hrun
  exact h b s₁ s' hk

end Commits

namespace Variant
variable {g : Grammar} {ref : Bool} {name : Text} {a b : Variant} {s : ParseState}

/-- A form takes its introducer or has nothing to say; once it has taken it, it goes on to
the end. -/
theorem form_eq (g : Grammar) (ref : Bool) (name : Text) (a : Variant) :
    ∃ k, a.form g ref name = a.introducer.read >>= k ∧ k none = pure none ∧
      ∀ t, Commits (k (some t)) := by
  cases a with
  | elements => exact ⟨_, rfl, rfl, fun t => commits_pure _⟩
  | default => exact ⟨_, rfl, rfl, fun t => .bind fun _ => commits_pure _⟩
  | substring =>
    refine ⟨_, rfl, rfl, fun t => .bind fun offset => .bind fun o => ?_⟩
    cases o with
    | none => exact commits_pure _
    | some colon => exact .bind fun _ => commits_pure _
  | removal => exact ⟨_, rfl, rfl, fun t => .bind fun _ => commits_pure _⟩
  | caseChange => exact ⟨_, rfl, rfl, fun t => .bind fun _ => commits_pure _⟩
  | replacement =>
    refine ⟨_, rfl, rfl, fun t => .bind fun anchor => .bind fun pattern => .bind fun o => ?_⟩
    cases o with
    | none => exact commits_pure _
    | some slash => exact .bind fun _ => commits_pure _
  | atSign =>
    refine ⟨_, rfl, rfl, fun t => .bind fun o => ?_⟩
    cases o with
    | none => exact .bind fun _ => commits_pure _
    | some op => exact commits_pure _
  | star => exact ⟨_, rfl, rfl, fun t => .bind fun _ => commits_pure _⟩
  | element =>
    refine ⟨_, rfl, rfl, fun t => .bind fun subscript => .bind fun o => ?_⟩
    dsimp only
    split
    · exact .bind fun _ => commits_pure _
    · exact commits_pure _

section Run
variable (hs : s.lexer.Current source) (hmode : s.lexer.mode = ⟨.param, false⟩)
include hs hmode

/-- A form whose introducer is not there only looks. -/
theorem form_of_absent (habsent : a.introducer.found s.here = none) :
    ∃ s', a.form g ref name s = .ok none s' ∧ s.Alike source s' := by
  obtain ⟨k, hform, hnone, _⟩ := form_eq g ref name a
  obtain ⟨s', hread, hreaches⟩ := a.introducer.read_eq hs hmode
  rw [habsent] at hread hreaches
  refine ⟨s', ?_, .of_reaches hs hreaches⟩
  rw [hform, bind_of_ok hread, hnone]
  rfl

/-- A form whose introducer is there is the one to be read, or there is a fault. -/
theorem commits (hthere : (a.introducer.found s.here).isSome) {s' : ParseState} :
    a.form g ref name s ≠ .ok none s' := by
  obtain ⟨k, hform, _, hcommits⟩ := form_eq g ref name a
  obtain ⟨s₁, hread, _⟩ := a.introducer.read_eq hs hmode
  obtain ⟨t, ht⟩ := Option.isSome_iff_exists.mp hthere
  rw [ht] at hread
  rw [hform, bind_of_ok hread]
  exact hcommits t s₁ s'

end Run

/-! ### Which form is there -/

/-- The characters that an introducer can start with. -/
def marks : Variant → Text
  | elements | element => ['[']
  | default => [':', '-', '=', '?', '+']
  | substring => [':']
  | removal => ['#', '%']
  | caseChange => ['^', ',']
  | replacement => ['/']
  | atSign => ['@']
  | star => ['*']

/-- The introducers that start with the same character. -/
def Overlap (a b : Variant) : Prop :=
  (a, b) ∈ [(default, substring), (substring, default), (elements, element), (element, elements)]

instance (a b : Variant) : Decidable (Overlap a b) :=
  inferInstanceAs (Decidable (_ ∈ _))

theorem marks_apart :
    ∀ a ∈ all, ∀ b ∈ all, a ≠ b → ¬ Overlap a b → ∀ c ∈ a.marks, c ∉ b.marks := by
  have hmarks : ∀ a ∈ all, ∀ b ∈ all, a ≠ b → ¬ Overlap a b →
      a.marks.all (!b.marks.contains ·) = true := by decide
  intro a ha b hb hne hno c hc
  simpa using List.all_eq_true.mp (hmarks a ha b hb hne hno) c hc

theorem mem_all (a : Variant) : a ∈ all := by
  cases a <;> decide

end Variant

variable {place : Scan} {t u : Token}

/-- A shape that is taken without blank stands there. -/
theorem start_of_shape {pattern : Pattern} {kind : Kind}
    (h : (Introducer.shape pattern kind).found place = some t) :
    ∃ c more, place.rest = c :: more ∧ pattern.mayStart c = true := by
  simp only [Introducer.found, Rules.takeAt] at h
  split at h
  · cases h
  · rename_i hblank
    have hzero : Rules.param.blankLength place.rest = 0 := by simpa using hblank
    obtain ⟨n, hreach, _⟩ := Option.map_eq_some_iff.mp h
    rw [hzero, List.drop_zero] at hreach
    cases hrest : place.rest with
    | nil =>
      rw [hrest, Pattern.reach?_nil] at hreach
      cases hreach
    | cons c more =>
      refine ⟨c, more, rfl, ?_⟩
      cases hmay : pattern.mayStart c with
      | true => rfl
      | false =>
        rw [hrest, Pattern.reach?_eq_none_of_mayStart hmay] at hreach
        cases hreach

/-- A token that is taken without blank stands there, and has a kind that was asked for. -/
theorem token_of_found {kinds : List Kind} (hne : kinds ≠ [])
    (h : (Introducer.token kinds).found place = some t) :
    Rules.param.tokenAt place = .ok t ∧ t.kind ∈ kinds ∧ place.rest = t.body ++ t.after.rest := by
  simp only [Introducer.found, Option.filter_eq_some_iff] at h
  obtain ⟨htoken, hvisible⟩ := h
  have ht : Rules.param.tokenAt place = .ok t := by
    cases htokenAt : Rules.param.tokenAt place with
    | ok u =>
      rw [htokenAt] at htoken
      rw [Option.some.inj htoken]
    | error f =>
      rw [htokenAt] at htoken
      cases htoken
  simp only [Token.isVisible, Bool.false_or, Bool.and_eq_true, Bool.or_eq_true,
    List.isEmpty_iff, hne, false_or, List.contains_iff_mem, Token.isAdjacent] at hvisible
  obtain ⟨horigin, hfits⟩ := Rules.tokenAt_fits ht
  refine ⟨ht, hvisible.1, ?_⟩
  rw [← horigin, Token.rest_origin hfits, Token.text, hvisible.2, List.nil_append]

namespace Variant
variable {a b : Variant}

theorem mem_marks {c : Char} {pattern : Pattern} {kind : Kind}
    (ha : a.introducer = .shape pattern kind) (h : pattern.mayStart c = true) : c ∈ a.marks := by
  cases a <;> cases ha <;>
    simp only [defaultOp, removalOp, caseOp, Pattern.oneOf, Pattern.mayStart, Pattern.nullable,
      List.head?_cons, List.isEmpty_cons, Bool.false_and, Bool.or_false, Bool.or_eq_true,
      Bool.true_and, Option.some_beq_some, beq_iff_eq, List.contains_iff_mem] at h
  all_goals simpa [marks, eq_comm] using h

/-- An introducer starts with one of its marks. -/
theorem start_of_found (h : a.introducer.found place = some t) :
    ∃ c more, place.rest = c :: more ∧ c ∈ a.marks := by
  cases ha : a.introducer with
  | shape pattern kind =>
    rw [ha] at h
    obtain ⟨c, more, hrest, hstart⟩ := start_of_shape h
    exact ⟨c, more, hrest, mem_marks ha hstart⟩
  | token kinds =>
    rw [ha] at h
    have hbracket : kinds ≠ [] ∧ a.marks = ['['] ∧
        ∀ kind ∈ kinds, (kind.spelling?.bind List.head?) = some '[' := by
      cases a <;> cases ha <;> decide
    obtain ⟨hne, hmarks, hspelling⟩ := hbracket
    obtain ⟨ht, hkind, hrest⟩ := token_of_found hne h
    obtain ⟨spelling, hspelled, hhead⟩ := Option.bind_eq_some_iff.mp (hspelling _ hkind)
    rw [Rules.body_of_spelling ht hspelled] at hrest
    cases spelling with
    | nil => cases hhead
    | cons c more =>
      cases hhead
      exact ⟨'[', _, hrest, by rw [hmarks]; exact List.mem_cons_self⟩

/-- Of the two forms that start with a bracket, the token that stands there is of one. -/
theorem not_both_brackets (ht : elements.introducer.found place = some t)
    (hu : element.introducer.found place = some u) : False := by
  obtain ⟨ht, hkind, _⟩ := token_of_found (by decide) ht
  obtain ⟨hu, hkind', _⟩ := token_of_found (by decide) hu
  cases ht.symm.trans hu
  rw [List.mem_singleton.mp hkind'] at hkind
  exact absurd hkind (by decide)

/-- At most one form is there, or else an operator behind a colon is. -/
theorem eq_or_colon (ht : a.introducer.found place = some t)
    (hu : b.introducer.found place = some u) :
    a = b ∨ (a = default ∧ b = substring) ∨ (a = substring ∧ b = default) := by
  by_cases hab : a = b
  · exact .inl hab
  by_cases hoverlap : Overlap a b
  · simp only [Overlap, List.mem_cons, List.not_mem_nil, or_false, Prod.mk.injEq] at hoverlap
    rcases hoverlap with h | h | ⟨rfl, rfl⟩ | ⟨rfl, rfl⟩
    · exact .inr (.inl h)
    · exact .inr (.inr h)
    · exact (not_both_brackets ht hu).elim
    · exact (not_both_brackets hu ht).elim
  · obtain ⟨c, more, hrest, hc⟩ := start_of_found ht
    obtain ⟨d, more', hrest', hd⟩ := start_of_found hu
    cases hrest.symm.trans hrest'
    exact absurd hd (marks_apart a (mem_all a) b (mem_all b) hab hoverlap c hc)

/-! ### Orders -/

/-- Whether a form is there. -/
def isThere (place : Scan) (a : Variant) : Bool := (a.introducer.found place).isSome

/-- An order in which every form is tried, operators before the colon of a substring. -/
structure Fair (order : List Variant) : Prop where
  perm : order.Perm all
  operatorFirst : order.idxOf default < order.idxOf substring

theorem fair_all : Fair all := ⟨.refl _, by decide⟩

/-- Where the colon of a substring is found first, no operator is there. -/
theorem Fair.no_operator {order : List Variant} (h : Fair order)
    (hfound : order.find? (isThere place) = some substring) : isThere place default = false := by
  obtain ⟨-, front, rest, rfl, hfront⟩ := List.find?_eq_some_iff_append.mp hfound
  have hlt := h.operatorFirst
  have hmem : default ∈ front := by
    rw [List.idxOf_append, List.idxOf_append, List.idxOf_cons_self] at hlt
    split at hlt
    · assumption
    · split at hlt
      · have := List.idxOf_lt_length_of_mem ‹substring ∈ front›
        omega
      · omega
  simpa using hfront default hmem

/-- Whatever the order, the same form is found first. -/
theorem Fair.find?_eq {order order' : List Variant} (h : Fair order) (h' : Fair order')
    (place : Scan) : order.find? (isThere place) = order'.find? (isThere place) := by
  have hmem : ∀ a, a ∈ order ↔ a ∈ order' := fun a =>
    h.perm.mem_iff.trans h'.perm.mem_iff.symm
  cases ha : order.find? (isThere place) with
  | none =>
    rw [List.find?_eq_none] at ha
    exact (List.find?_eq_none.mpr fun a hmem' => ha a ((hmem a).mpr hmem')).symm
  | some a =>
    cases hb : order'.find? (isThere place) with
    | none =>
      rw [List.find?_eq_none] at hb
      exact absurd (List.find?_some ha) (hb a ((hmem a).mp (List.mem_of_find?_eq_some ha)))
    | some b =>
      have htherea := List.find?_some ha
      have hthereb := List.find?_some hb
      obtain ⟨t, ht⟩ := Option.isSome_iff_exists.mp htherea
      obtain ⟨u, hu⟩ := Option.isSome_iff_exists.mp hthereb
      rcases eq_or_colon ht hu with rfl | ⟨rfl, rfl⟩ | ⟨rfl, rfl⟩
      · rfl
      · exact nomatch htherea.symm.trans (h'.no_operator hb)
      · exact nomatch hthereb.symm.trans (h.no_operator ha)

end Variant

open Variant

/-! ### The expansion -/

section Orders
variable {g : Grammar} {ref : Bool} {name : Text} {s : ParseState}

theorem Grammar.Blinkered.form (d : g.Blinkered source) (ref : Bool) (name : Text)
    (a : Variant) {P : ParseState → Prop} : Blind source P (a.form g ref name) :=
  d.forms ref name _ (by rw [forms_eq]; exact List.mem_map_of_mem (mem_all a))

/-- Trying forms one after another comes to what the first that is there comes to. -/
theorem firstOf_forms (d : g.Blinkered source) (order : List Variant)
    (hs : s.lexer.Current source) (hmode : s.lexer.mode = ⟨.param, false⟩) :
    SameEnd source (firstOf (order.map (form g ref name)) s)
      (match order.find? (isThere s.here) with
        | some a => a.form g ref name s
        | none => .ok none s) := by
  induction order generalizing s with
  | nil => exact .ok none (.refl hs)
  | cons a order ih =>
    rw [List.map_cons, List.find?_cons]
    cases hthere : isThere s.here a with
    | true =>
      have hsame : SameEnd source (a.form g ref name s) (a.form g ref name s) :=
        d.form ref name a (P := fun _ => True) s s (.refl hs) trivial trivial
      show SameEnd source ((a.form g ref name >>= _) s) (a.form g ref name s)
      cases hform : a.form g ref name s with
      | ok o s' =>
        rw [hform] at hsame
        cases o with
        | none => exact absurd hform (commits hs hmode hthere)
        | some f =>
          rw [bind_of_ok hform]
          exact hsame
      | error e s' =>
        rw [hform] at hsame
        rw [bind_of_error hform]
        exact hsame
    | false =>
      have habsent : a.introducer.found s.here = none := by simpa [isThere] using hthere
      obtain ⟨s', hform, halike⟩ :
          ∃ s', a.form g ref name s = .ok none s' ∧ s.Alike source s' :=
        form_of_absent hs hmode habsent
      have hrest := ih halike.lexer.right (halike.lexer.mode.trans hmode)
      show SameEnd source ((a.form g ref name >>= _) s) _
      rw [bind_of_ok hform]
      rw [halike.here] at hrest
      refine hrest.trans ?_
      cases order.find? (isThere s.here) with
      | none => exact .ok none halike.symm
      | some b =>
        exact d.form ref name b (P := fun _ => True) s' s halike.symm trivial trivial

/-- In every order the forms come to the same. -/
theorem firstOf_order (d : g.Blinkered source) {order order' : List Variant} (h : Fair order)
    (h' : Fair order') (hs : s.lexer.Current source) (hmode : s.lexer.mode = ⟨.param, false⟩) :
    SameEnd source (firstOf (order.map (form g ref name)) s)
      (firstOf (order'.map (form g ref name)) s) := by
  refine .trans (firstOf_forms d order hs hmode) ?_
  rw [h.find?_eq h']
  exact (firstOf_forms d order' hs hmode).symm

/-- Reading a name leaves the setting as it was. -/
theorem keeps_head {h : Head} {s' : ParseState} (hs : s.lexer.Current source)
    (hok : head s = .ok h s') : Keeps s s' := by
  have hruns : Runs source s.context (fun _ => head) fun h ts n =>
    Heading s.context h ts ∧ n = 0 := head_runs
  obtain ⟨_, _, hends⟩ := hruns s hs rfl
  replace hends : Ends source s _ (head s) := hends
  rw [hok] at hends
  exact hends.2.1

end Orders

/-- **The forms of an expansion exclude each other.** Whatever the limit on nesting, wherever a
parser stands between `${` and its brace, and in whatever order the forms that may follow the name
are tried: as long as the operators that may start with a colon are tried before the colon of a
substring, the same form is read, with the same closing rule, or the same fault is found, and the
same is consumed. For the two forms that start with a bracket no order is needed. -/
theorem parameterBody_order {order : List Variant} (hperm : order.Perm Variant.all)
    (hcolon : order.idxOf .default < order.idxOf .substring) {s : ParseState}
    (hs : s.lexer.Current source) (hmode : s.lexer.mode = ⟨.param, false⟩) (limit levels : Nat) :
    SameEnd source (parameterBodyBy (Grammar.level (descend limit) levels) order s)
      (parameterBody (Grammar.level (descend limit) levels) s) := by
  have d := Grammar.blinkered source limit levels
  have hhead : SameEnd source (head s) (head s) :=
    Grammar.Blinkered.head (P := fun _ => True) s s (.refl hs) trivial trivial
  rw [← parameterBodyBy_all]
  refine hhead.bind fun h s₁ s₁' hok hok' halike => ?_
  cases hok.symm.trans hok'
  have hmode₁ : s₁.lexer.mode = ⟨.param, false⟩ :=
    (congrArg Context.mode (keeps_head hs hok).context).trans hmode
  split
  · exact .ok _ halike
  · exact (firstOf_order d ⟨hperm, hcolon⟩ fair_all halike.lexer.left hmode₁).bind
      fun _ _ _ _ _ h => .ok _ h

/-- In `${a:-b}` the operator is found, though other forms are tried before. -/
theorem parameterBody_order_reordered :
    let order : List Variant :=
      [.star, .atSign, .replacement, .caseChange, .removal, .elements, .element, .default,
        .substring]
    let source : Text := ['a', ':', '-', 'b', '}']
    let s : ParseState := ⟨(Lexer.ofText source).enter .param false, false, 0⟩
    order.Perm Variant.all ∧ order.idxOf .default < order.idxOf .substring ∧
      s.lexer.Current source ∧ s.lexer.mode = ⟨.param, false⟩ ∧
      SameEnd source (parameterBodyBy (Grammar.level (descend 64) 5) order s)
        (parameterBody (Grammar.level (descend 64) 5) s) := by
  intro order source s
  have hcurrent : s.lexer.Current source := (Lexer.current_ofText source).enter .param false
  exact ⟨by decide, by decide, hcurrent, rfl,
    parameterBody_order (by decide) (by decide) hcurrent rfl 64 5⟩

end ShellGrammar
