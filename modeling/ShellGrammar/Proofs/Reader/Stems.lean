import Mathlib.Data.List.Flatten
import ShellGrammar.Proofs.Ranked
import ShellGrammar.Proofs.Reader.Calls

/-! Where the simple commands of a tree come from.

A production puts the nodes that it is given and the nodes of its calls together to larger ones,
in the order in which it came by them. Only `command` makes a simple command of them. So the simple
commands in what a production yields, in pre-order, are among those of its calls, one after another
(`Stems.body`). -/
namespace ShellGrammar
open Grammar ParseM Reader

namespace Node

/-- The simple commands of a tree in pre-order. -/
def commands (n : Node) : List Node := n.preorder.filter isSimpleCommand

theorem commands_eq (n : Node) :
    n.commands = (if n.isSimpleCommand then [n] else []) ++ n.children.flatMap commands := by
  have hbelow : (n.children.flatMap preorder).filter isSimpleCommand =
      n.children.flatMap commands := List.filter_flatMap
  rw [commands, preorder_eq, List.filter_cons, hbelow]
  split <;> rfl

/-- A node that is no simple command has those of its children. -/
theorem commands_of {n : Node} (h : n.isSimpleCommand = false) :
    n.commands = n.children.flatMap commands := by
  rw [commands_eq, h]
  rfl

end Node

/-- The simple commands of some trees stem from others: they are there in the same order. -/
def Stem (given ns : List Node) : Prop :=
  (ns.flatMap Node.commands).Sublist (given.flatMap Node.commands)

namespace Stem
variable {given ns ms : List Node} {n : Node}

theorem refl : Stem given given := List.Sublist.refl _

theorem trans {ks : List Node} (h : Stem given ns) (h' : Stem ns ks) : Stem given ks :=
  List.Sublist.trans h' h

theorem nil : Stem given [] := List.nil_sublist _

theorem of_sublist (h : ns.Sublist given) : Stem given ns := h.flatMap _

theorem append {others : List Node} (h : Stem given ns) (h' : Stem others ms) :
    Stem (given ++ others) (ns ++ ms) := by
  simp only [Stem, List.flatMap_append]
  exact List.Sublist.append h h'

/-- What was come by last. -/
theorem last : Stem (given ++ ns) ns := of_sublist (List.sublist_append_right _ _)

/-- Nothing stems from nothing: what is given stays. -/
theorem keep : Stem given (given ++ []) := (List.append_nil given).symm ▸ refl

/-- A node that is no simple command stems from what its children do. -/
theorem above (hown : n.isSimpleCommand = false) (h : Stem given n.children) : Stem given [n] := by
  rwa [Stem, List.flatMap_singleton, Node.commands_of hown]

theorem leaf (hown : n.isSimpleCommand = false) (h : n.children = []) : Stem given [n] :=
  above hown (h ▸ nil)

end Stem

/-! ### What readers put together -/

/-- Whatever is asked and answered and whatever the calls yield, a result holds together with the
nodes that were come by on the way. What a call is given is taken from the last of them. -/
def Reader.Builds {α : Type} : Reader α → List Node → (List Node → α → Prop) → Prop
  | .done a, given, post => post given a
  | .stop, _, _ => True
  | .ask _ k, given, post => ∀ b, (k b).Builds given post
  | .call _ p k, given, post =>
    ∃ front, Stem given (front ++ p.lefts) ∧ ∀ ns, (k ns).Builds (front ++ ns) post

section Builds
variable {α β : Type} {given : List Node} {m : Reader α} {post post' : List Node → α → Prop}

theorem Reader.Builds.mono (h : m.Builds given post)
    (hpost : ∀ given a, post given a → post' given a) : m.Builds given post' := by
  induction m generalizing given with
  | done a => exact hpost _ _ h
  | stop => trivial
  | ask q k ih => exact fun b => ih b (h b)
  | call shift p k ih =>
    obtain ⟨front, hfront, h⟩ := h
    exact ⟨front, hfront, fun ns => ih ns (h ns)⟩

theorem builds_bind {f : α → Reader β} {post : List Node → β → Prop} :
    (m >>= f).Builds given post ↔ m.Builds given fun given a => (f a).Builds given post := by
  show (m.bind f).Builds given post ↔ _
  induction m generalizing given with
  | done a => exact Iff.rfl
  | stop => exact Iff.rfl
  | ask q k ih => exact forall_congr' fun b => ih b
  | call shift p k ih =>
    exact exists_congr fun front => and_congr Iff.rfl (forall_congr' fun ns => ih ns)

theorem builds_ask {q : Query α} :
    (Reader.ask q .done).Builds given post ↔ ∀ b, post given b := Iff.rfl

theorem builds_all {shift : Shift} {p : Production} {post : List Node → List Node → Prop} :
    (all shift p).Builds given post ↔
      ∃ front, Stem given (front ++ p.lefts) ∧ ∀ ns, post (front ++ ns) ns := Iff.rfl

theorem builds_one {shift : Shift} {p : Production} {post : List Node → Node → Prop} :
    (one shift p).Builds given post ↔
      ∃ front, Stem given (front ++ p.lefts) ∧ ∀ n, post (front ++ [n]) n := by
  refine exists_congr fun front => and_congr Iff.rfl ⟨fun h n => h [n], fun h ns => ?_⟩
  dsimp only
  split
  · exact h _
  · trivial

theorem builds_first? {shift : Shift} {p : Production} {post : List Node → Option Node → Prop} :
    (first? shift p).Builds given post ↔
      ∃ front, Stem given (front ++ p.lefts) ∧ ∀ ns, post (front ++ ns) ns.head? := Iff.rfl

theorem builds_expect {kinds : List Kind} {post : List Node → Lexeme → Prop} :
    (expect kinds).Builds given post ↔ ∀ l, post given l := by
  rw [expect, builds_bind]
  constructor
  · exact fun h l => h (some l)
  · rintro h (_ | l)
    · trivial
    · exact h l

end Builds

/-! ### The table -/

namespace Stems
variable {given : List Node}

/-! Arithmetic. -/

/-- One operand or the next level, behind a token or without one. -/
theorem post : Production.post.body.Builds [] Stem := by
  simp only [Production.body, builds_bind, builds_one, Reader.next, builds_ask]
  refine ⟨_, .keep, ?_⟩
  rintro n (_ | op)
  · exact .refl
  · exact .above rfl .refl

theorem unary : Production.unary.body.Builds [] Stem := by
  simp only [Production.body, builds_bind, Reader.next, builds_ask]
  rintro (_ | op)
  · exact ⟨_, .keep, fun _ => .last⟩
  · simp only [builds_bind, builds_one]
    exact ⟨_, .keep, fun _ => .above rfl .last⟩

theorem power : Production.power.body.Builds [] Stem := by
  simp only [Production.body, builds_bind, builds_one, Reader.next, builds_ask]
  refine ⟨_, .keep, ?_⟩
  rintro n (_ | op)
  · exact .last
  · simp only [builds_bind, builds_one]
    exact ⟨_, .keep, fun _ => .above rfl .refl⟩

theorem ternary : Production.ternary.body.Builds [] Stem := by
  simp only [Production.body, builds_bind, builds_one, Reader.next, builds_ask]
  refine ⟨_, .keep, ?_⟩
  rintro n (_ | op)
  · exact .last
  · simp only [builds_bind, builds_one, builds_expect]
    exact ⟨_, .keep, fun _ _ => ⟨_, .keep, fun _ => .above rfl .refl⟩⟩

theorem assignment : Production.assignment.body.Builds [] Stem := by
  simp only [Production.body, builds_bind, builds_ask]
  rintro (_ | ⟨name, op⟩)
  · exact ⟨_, .keep, fun _ => .last⟩
  · simp only [builds_bind, builds_one]
    -- The target is a node without any below it, and was not come by in a call.
    have htarget : Stem [] [.var name false] := .leaf rfl rfl
    exact ⟨_, .keep, fun _ => .above rfl (htarget.append .refl)⟩

theorem primary : Production.primary.body.Builds [] Stem := by
  simp only [Production.body, builds_bind, builds_expect]
  intro l
  unfold Reader.primaryRest
  split
  iterate 3 exact .leaf rfl rfl
  · simp only [builds_bind, builds_one, builds_expect]
    exact ⟨_, .keep, fun _ _ => .above rfl .last⟩
  iterate 2 exact ⟨_, .keep, fun _ => .last⟩
  · simp only [builds_bind, builds_one]
    exact ⟨_, .keep, fun _ => .above rfl .last⟩
  · trivial

theorem arithClosed : Production.arithClosed.body.Builds [] Stem := by
  simp only [Production.body, builds_bind, builds_one, Reader.close, builds_ask]
  exact ⟨_, .keep, fun _ _ => .above rfl .last⟩

/-! Chains. -/

theorem lefts_first (ch : Chain) : ch.first.lefts = [] := by cases ch <;> rfl

theorem lefts_operand (ch : Chain) (kind : Kind) : (ch.operand kind).lefts = [] := by
  cases ch <;> rfl

theorem chain (ch : Chain) : (Production.chain ch).body.Builds [] Stem := by
  simp only [Production.body, builds_bind, builds_one, builds_all, lefts_first]
  exact ⟨_, .keep, fun _ => ⟨[], .refl, fun _ => .refl⟩⟩

theorem operator (ch : Chain) {post : List Node → Option Lexeme → Prop}
    (h : ∀ ns o, post (given ++ ns) o) : ch.operator.Builds given post := by
  simp only [Chain.operator, builds_bind, builds_ask]
  rintro (_ | op)
  · exact List.append_nil given ▸ h [] none
  · dsimp only
    split
    · exact ⟨_, .keep, fun ns => h ns (some op)⟩
    · exact List.append_nil given ▸ h [] (some op)

theorem chainRest (ch : Chain) (left : Node) :
    (Production.chainRest ch left).body.Builds [left] Stem := by
  rw [Production.body, builds_bind]
  refine operator ch ?_
  rintro ns (_ | op)
  · exact .of_sublist (List.sublist_append_left _ _)
  · simp only [builds_bind, builds_one, builds_all, lefts_operand]
    refine ⟨_, .keep, fun right => ⟨[], ?_, fun _ => .refl⟩⟩
    -- What is called goes on with the two operands as one node.
    have hjoined : Stem [left, right] [ch.join op.body left right] := by
      cases ch <;> exact .above rfl .refl
    exact .trans (.append (.of_sublist (List.sublist_append_left _ _)) .refl) hjoined

/-! Commands. -/

theorem lefts_of_isPart {p : Production} (hp : p.isPart = true) : p.lefts = [] := by
  cases p <;> first | rfl | cases hp

theorem many {p : Production} (hp : p.isPart = true) :
    (Production.many p).body.Builds [] Stem := by
  have hlefts := lefts_of_isPart hp
  simp only [Production.body, builds_bind, builds_first?, hlefts]
  refine ⟨_, .keep, ?_⟩
  rintro (_ | ⟨n, ns⟩)
  · exact .nil
  · simp only [List.head?_cons, builds_bind, builds_all, Production.lefts, hlefts]
    exact ⟨_, .keep, fun ms => .of_sublist ((List.sublist_append_right ns ms).cons_cons n)⟩

theorem newlines : Production.newlines.body.Builds [] Stem := by
  simp only [Production.body, builds_bind, Reader.next, builds_ask]
  rintro (_ | l)
  · exact .nil
  · exact ⟨_, .keep, fun _ => .last⟩

theorem list (closer : Closer) : (Production.list closer).body.Builds [] Stem := by
  simp only [Production.body, builds_bind, builds_all, builds_expect]
  exact ⟨_, .keep, fun _ _ => .above rfl .last⟩

theorem entries (closer : Closer) : (Production.entries closer).body.Builds [] Stem := by
  simp only [Production.body, builds_bind, builds_all, Reader.peek, builds_ask]
  refine ⟨_, .keep, ?_⟩
  rintro ns (_ | _)
  · simp only [Bool.false_eq_true, if_false, builds_bind, builds_one]
    refine ⟨_, .keep, fun first => ?_⟩
    split
    · exact ⟨_, .keep, fun _ => Stem.last.append .refl⟩
    · exact .last
  · exact .nil

theorem entry : Production.entry.body.Builds [] Stem := by
  simp only [Production.body, builds_bind, builds_one, Reader.next, builds_ask]
  exact ⟨_, .keep, fun _ _ => .above rfl .last⟩

theorem pipeline : Production.pipeline.body.Builds [] Stem := by
  simp only [Production.body, builds_bind, builds_one, builds_ask]
  exact fun _ => ⟨_, .keep, fun _ => .above rfl .last⟩

theorem assign : Production.assign.body.Builds [] Stem := by
  simp only [Production.body, builds_bind, Reader.accept, builds_ask]
  rintro (_ | t)
  · exact .nil
  · simp only [builds_bind, builds_first?]
    refine ⟨_, .keep, ?_⟩
    rintro (_ | ⟨w, ns⟩)
    · exact .leaf rfl rfl
    · exact .above rfl (.of_sublist (List.sublist_append_left [w] ns))

/-! Words. -/

theorem word : Production.word.body.Builds [] Stem := by
  simp only [Production.body, builds_bind, builds_first?]
  refine ⟨_, .keep, ?_⟩
  rintro (_ | ⟨n, ns⟩)
  · exact .nil
  · simp only [List.head?_cons, builds_bind, builds_all]
    refine ⟨_, .keep, fun rest => ?_⟩
    have hfirst : (n :: rest).Sublist (n :: ns ++ rest) :=
      (List.sublist_append_right ns rest).cons_cons n
    split
    · exact .of_sublist ((List.sublist_append_left [n] rest).trans hfirst)
    · exact .above rfl (.of_sublist hfirst)

theorem pieceRest (l : Lexeme) : (Reader.pieceRest l).Builds [] Stem := by
  unfold Reader.pieceRest
  split
  iterate 3 exact .leaf rfl rfl
  · exact ⟨_, .keep, fun _ => .above rfl .last⟩
  iterate 2 exact ⟨_, .keep, fun _ => .last⟩
  iterate 4
    simp only [builds_bind, builds_one]
    exact ⟨_, .keep, fun _ => .above rfl .last⟩
  · trivial

theorem piece (adjacent : Bool) : (Production.piece adjacent).body.Builds [] Stem := by
  simp only [Production.body, builds_bind, builds_ask]
  rintro (_ | l)
  · exact .nil
  · exact pieceRest l

theorem quoted : Production.quoted.body.Builds [] Stem := by
  simp only [Production.body, builds_bind, Reader.next, builds_ask]
  rintro (_ | l)
  · simp only [builds_bind, builds_first?]
    refine ⟨_, .keep, ?_⟩
    rintro (_ | ⟨n, ns⟩)
    · trivial
    · exact ⟨_, .keep, fun rest => .of_sublist ((List.sublist_append_right ns rest).cons_cons n)⟩
  · exact .nil

/-! Parameters. -/

/-- A payload was come by last, if one is written. -/
theorem payload (rules : Rules) {post : List Node → Node → Prop}
    (h : ∀ ns w, Stem ns [w] → post (given ++ ns) w) :
    (Reader.payload rules).Builds given post := by
  simp only [Reader.payload, builds_bind, builds_first?]
  refine ⟨_, .keep, ?_⟩
  rintro (_ | ⟨n, ns⟩)
  · exact h [] _ (.leaf rfl rfl)
  · exact h _ _ (.of_sublist (List.sublist_append_left [n] ns))

theorem arithOperand {post : List Node → Node → Prop}
    (h : ∀ ns e, Stem ns [e] → post (given ++ ns) e) :
    Reader.arithOperand.Builds given post :=
  builds_one.mpr ⟨_, .keep, fun n => h [n] n .refl⟩

/-- The form that a reader finds stems from what is given and called. -/
abbrev Forms (m : Reader (Option Form)) : Prop :=
  ∀ given, m.Builds given fun given o => ∀ f ∈ o, Stem given [f.node]

section Forms
variable {ref : Bool} {name : Text}

theorem elementsForm : Forms (Reader.elementsForm ref name) := by
  intro given
  simp only [Reader.elementsForm, builds_bind, Reader.next, builds_ask]
  rintro (_ | l)
  · rintro _ ⟨⟩
  · rintro _ ⟨⟩
    cases ref <;> exact .leaf rfl rfl

/-- A form with a word behind what introduces it. -/
theorem payloadForm {shape : Shape} {rules : Rules} {f : Text → Node → Form}
    (hown : ∀ op w, (f op w).node.isSimpleCommand = false)
    (hchildren : ∀ op w, (f op w).node.children = [w]) :
    Forms (do
      match ← Reader.accept shape with
      | none => pure none
      | some op => pure (some (f op (← Reader.payload rules)))) := by
  intro given
  simp only [Reader.accept, builds_bind, builds_ask]
  rintro (_ | op)
  · rintro _ ⟨⟩
  · simp only [builds_bind]
    refine payload rules fun ns w hw => ?_
    rintro _ ⟨⟩
    exact .above (hown op w) (hchildren op w ▸ Stem.last.trans hw)

theorem substringForm : Forms (Reader.substringForm ref name) := by
  intro given
  simp only [Reader.substringForm, Reader.accept, Reader.acceptPastBlank, builds_bind, builds_ask]
  rintro (_ | _)
  · rintro _ ⟨⟩
  · simp only [builds_bind]
    refine arithOperand fun ns offset hoffset => ?_
    rintro (_ | _)
    · rintro _ ⟨⟩
      have hlength : Stem [] [.empty] := .leaf rfl rfl
      exact .above rfl (Stem.keep.trans ((Stem.last.trans hoffset).append hlength))
    · refine builds_bind.mpr ?_
      refine arithOperand fun ms length hlength => ?_
      rintro _ ⟨⟩
      exact .above rfl ((Stem.last.trans hoffset).append hlength)

theorem replacementForm : Forms (Reader.replacementForm ref name) := by
  intro given
  simp only [Reader.replacementForm, Reader.accept, builds_bind, builds_ask]
  rintro (_ | slash)
  · rintro _ ⟨⟩
  · simp only [builds_bind]
    intro anchor
    refine payload .wordUntilSlash fun ns pattern hpattern => ?_
    rintro (_ | slash')
    · rintro _ ⟨⟩
      exact .above rfl (Stem.last.trans hpattern)
    · refine builds_bind.mpr ?_
      refine payload .wordUntilBrace fun ms replace hreplace => ?_
      rintro _ ⟨⟩
      exact .above rfl ((Stem.last.trans hpattern).append hreplace)

theorem matchingNames {mode : Text} {post : List Node → Form → Prop}
    (h : ∀ form, Stem given [form.node] → post given form) :
    (Reader.matchingNames ref name mode).Builds given post := by
  unfold Reader.matchingNames
  split
  · exact h _ (.leaf rfl rfl)
  · trivial

theorem atForm : Forms (Reader.atForm ref name) := by
  intro given
  simp only [Reader.atForm, Reader.accept, builds_bind, builds_ask]
  rintro (_ | _)
  · rintro _ ⟨⟩
  · simp only [builds_bind, builds_ask]
    rintro (_ | op)
    · simp only [builds_bind]
      refine matchingNames fun form hform => ?_
      rintro _ ⟨⟩
      exact hform
    · rintro _ ⟨⟩
      exact .leaf rfl rfl

theorem starForm : Forms (Reader.starForm ref name) := by
  intro given
  simp only [Reader.starForm, Reader.accept, builds_bind, builds_ask]
  rintro (_ | _)
  · rintro _ ⟨⟩
  · simp only [builds_bind]
    refine matchingNames fun form hform => ?_
    rintro _ ⟨⟩
    exact hform

theorem elementForm : Forms (Reader.elementForm ref name) := by
  intro given
  simp only [Reader.elementForm, Reader.next, builds_bind, builds_ask]
  rintro (_ | _)
  · rintro _ ⟨⟩
  · simp only [builds_bind, Reader.close, builds_ask]
    refine arithOperand fun ns e he => fun _ => ?_
    rintro _ ⟨⟩
    exact .above rfl (Stem.last.trans he)

theorem firstOf {readers : List (Reader (Option Form))} (h : ∀ m ∈ readers, Forms m) :
    Forms (Reader.firstOf readers) := by
  induction readers with
  | nil =>
    intro given
    rintro _ ⟨⟩
  | cons m rest ih =>
    intro given
    rw [Reader.firstOf, builds_bind]
    refine (h m List.mem_cons_self given).mono ?_
    rintro given (_ | f) hf
    · exact ih (fun m hm => h m (List.mem_cons_of_mem _ hm)) given
    · exact hf

theorem forms : Forms (Reader.firstOf (Reader.forms ref name)) := by
  refine firstOf ?_
  simp only [Reader.forms, List.forall_mem_cons]
  exact ⟨elementsForm, payloadForm (fun _ _ => rfl) fun _ _ => rfl, substringForm,
    payloadForm (fun _ _ => rfl) fun _ _ => rfl, payloadForm (fun _ _ => rfl) fun _ _ => rfl,
    replacementForm, atForm, starForm, elementForm, List.forall_mem_nil _⟩

end Forms

theorem head {post : List Node → Head → Prop} (h : ∀ head, post given head) :
    Reader.head.Builds given post := by
  simp only [Reader.head, Reader.accept, Reader.next, builds_bind, builds_ask]
  rintro length ref (_ | l)
  · dsimp only
    split
    · simp only [builds_bind, Reader.peek, builds_ask]
      rintro (_ | _)
      · trivial
      · exact h _
    · trivial
  · exact h _

theorem parameterBody :
    Reader.parameterBody.Builds given fun given form => Stem given [form.node] := by
  simp only [Reader.parameterBody, builds_bind]
  refine head fun h => ?_
  split
  · exact .leaf rfl rfl
  · simp only [builds_bind]
    refine (forms given).mono ?_
    rintro given (_ | f) hf
    · exact .leaf rfl rfl
    · exact hf f rfl

theorem braced : Production.braced.body.Builds [] Stem := by
  simp only [Production.body, builds_bind]
  refine parameterBody.mono fun given form hform => ?_
  split
  · exact fun _ => hform
  · simp only [builds_bind, builds_expect]
    exact fun _ => hform

/-- What a production yields stems from what it is given and what its calls yield. -/
theorem body {p : Production} (hp : p ≠ .command) (hsane : p.Sane) :
    p.body.Builds p.lefts Stem := by
  cases p with
  | many p => exact (lefts_of_isPart hsane : p.lefts = []) ▸ many hsane
  | chain ch => exact chain ch
  | chainRest ch left => exact chainRest ch left
  | newlines => exact newlines
  | list closer => exact list closer
  | entries closer => exact entries closer
  | entry => exact entry
  | pipeline => exact pipeline
  | command => exact absurd rfl hp
  | assign => exact assign
  | word => exact word
  | piece adjacent => exact piece adjacent
  | quoted => exact quoted
  | braced => exact braced
  | arithClosed => exact arithClosed
  | assignment => exact assignment
  | ternary => exact ternary
  | power => exact power
  | unary => exact unary
  | post => exact post
  | primary => exact primary

end Stems

end ShellGrammar
