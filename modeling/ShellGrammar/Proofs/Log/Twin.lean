import Mathlib.Data.List.Forall2
import ShellGrammar.Proofs.Log.Order
import ShellGrammar.Proofs.Ranked
import ShellGrammar.Proofs.Tree.Terminals

/-! Logs with other terminals.

A production puts the terminal of an entry into the tree and makes nothing else of it but whether
there is one. So where the answers of two logs differ in terminals alone, two trees come of them
that have the same frame, and the terminals of each stand in it as in its log (`Logs.twin`). -/
namespace ShellGrammar
open Grammar ParseM Reader Node

/-! ### Answers -/

namespace Query
variable {β : Type}

/-- Two answers that are the same, or two terminals, or no terminal both. -/
def Agrees : Query β → β → β → Prop
  | take _ want, o, o' => if want false .semi then o'.isSome = o.isSome else o' = o
  | _, b, b' => b' = b

/-- The terminal that an answer takes. -/
def terminators : Query β → β → List Text
  | take _ want, o => if want false .semi then (o.map Lexeme.body).toList else []
  | _, _ => []

variable {q : Query β} {b b' : β}

theorem Agrees.refl (q : Query β) (b : β) : q.Agrees b b := by
  cases q with
  | take => simp [Agrees]
  | _ => rfl

theorem Agrees.eq (h : q.Agrees b b') (hq : q.wanted false .semi = false) : b' = b := by
  cases q with
  | take adjacent want =>
    have hq : want false .semi = false := hq
    simpa [Agrees, hq] using h
  | _ => exact h

theorem terminators_eq_nil (hq : q.wanted false .semi = false) (b : β) : q.terminators b = [] := by
  cases q with
  | take adjacent want =>
    have hq : want false .semi = false := hq
    simp [terminators, hq]
  | _ => rfl

end Query

/-- Two questions that are the same, asked in the same context, with answers that agree. -/
inductive Asked.Agrees : Asked → Asked → Prop
  | mk {c : Context} {β : Type} {q : Query β} {b b' : β} {ts ts' : List Token} (h : q.Agrees b b') :
    Agrees ⟨c, q, b, ts⟩ ⟨c, q, b', ts'⟩

theorem Asked.Agrees.refl (a : Asked) : a.Agrees a := .mk (.refl _ _)

/-- The terminals that the answers of a log take. -/
def terminatorsIn (as : List Asked) : List Text := as.flatMap fun a => a.query.terminators a.answer

/-! ### Readers -/

/-- The same production, perhaps with other terminals in what it goes on with. -/
inductive Production.Twin : Production → Production → Prop
  | refl {p : Production} (h : p.lefts = []) : Twin p p
  | rest (ch : Chain) {left left' : Node} (h : left'.frame = left.frame) :
    Twin (.chainRest ch left) (.chainRest ch left')

/-- How many nodes a production yields at most, where that is the same always. -/
def Production.most : Production → Option Nat
  | newlines => some 0
  | assign | word | piece _ | braced | arithClosed => some 1
  | _ => none

/-- Two readers that ask and call the same as long as the answers agree. A result of the first holds
together with the terminals that it was given and has met. -/
inductive Reader.Twin {α : Type} (post : List Text → α → α → Prop) :
    List Text → Reader α → Reader α → Prop
  | done {ws : List Text} {a a' : α} (h : post ws a a') : Twin post ws (.done a) (.done a')
  | stop {ws : List Text} {m : Reader α} : Twin post ws .stop m
  | ask {ws : List Text} {β : Type} {q : Query β} {k k' : β → Reader α}
    (h : ∀ b b', q.Agrees b b' → Twin post (ws ++ q.terminators b) (k b) (k' b')) :
    Twin post ws (.ask q k) (.ask q k')
  | call {ws front : List Text} {shift : Shift} {p p' : Production} {k k' : List Node → Reader α}
    (hp : p.Twin p') (hsane : p.Sane) (hws : ws = front ++ terminatorsAll p.lefts)
    (h : ∀ ns ns', frameAll ns' = frameAll ns → (∀ n ∈ p.most, ns.length ≤ n) →
      Twin post (front ++ terminatorsAll ns) (k ns) (k' ns')) :
    Twin post ws (.call shift p k) (.call shift p' k')

section Twin
variable {α β : Type} {post : List Text → α → α → Prop} {ws : List Text} {m m' : Reader α}

theorem twin_bind {post : List Text → β → β → Prop} {f f' : α → Reader β}
    (h : Reader.Twin (fun ws a a' => Reader.Twin post ws (f a) (f' a')) ws m m') :
    Reader.Twin post ws (m >>= f) (m' >>= f') := by
  show Reader.Twin post ws (m.bind f) (m'.bind f')
  induction h with
  | done h => exact h
  | stop => exact .stop
  | ask _ ih => exact .ask ih
  | call hp hsane hws _ ih => exact .call hp hsane hws ih

theorem Reader.Twin.mono {post' : List Text → α → α → Prop} (h : Reader.Twin post ws m m')
    (hpost : ∀ ws a a', post ws a a' → post' ws a a') : Reader.Twin post' ws m m' := by
  induction h with
  | done h => exact .done (hpost _ _ _ h)
  | stop => exact .stop
  | ask _ ih => exact .ask ih
  | call hp hsane hws _ ih => exact .call hp hsane hws ih

/-- A question that asks for no terminal has the same answer. -/
theorem twin_ask {q : Query α} (hq : q.wanted false .semi = false) (h : ∀ b, post ws b b) :
    Reader.Twin post ws (.ask q .done) (.ask q .done) := by
  refine .ask fun b b' hagrees => .done ?_
  rw [hagrees.eq hq, Query.terminators_eq_nil hq, List.append_nil]
  exact h b

theorem twin_next {kinds : List Kind} {post : List Text → Option Lexeme → Option Lexeme → Prop}
    (hkinds : among kinds .semi = false) (h : ∀ o, post ws o o) :
    Reader.Twin post ws (Reader.next kinds) (Reader.next kinds) := twin_ask hkinds h

theorem twin_expect {kinds : List Kind} {post : List Text → Lexeme → Lexeme → Prop}
    (hkinds : among kinds .semi = false) (h : ∀ l, post ws l l) :
    Reader.Twin post ws (Reader.expect kinds) (Reader.expect kinds) := by
  refine twin_bind (twin_next hkinds fun o => ?_)
  cases o with
  | none => exact .stop
  | some l => exact .done (h l)

/-- A production that goes on with nothing. -/
def Production.Plain (p : Production) : Prop := p.lefts = [] ∧ p.Sane

theorem twin_call {shift : Shift} {p : Production} {k k' : List Node → Reader α} (hp : p.Plain)
    (h : ∀ ns ns', frameAll ns' = frameAll ns → (∀ n ∈ p.most, ns.length ≤ n) →
      Reader.Twin post (ws ++ terminatorsAll ns) (k ns) (k' ns')) :
    Reader.Twin post ws (.call shift p k) (.call shift p k') :=
  .call (.refl hp.1) hp.2 (by rw [hp.1, terminatorsAll, List.append_nil]) h

theorem twin_all {shift : Shift} {p : Production} {post : List Text → List Node → List Node → Prop}
    (hp : p.Plain) (h : ∀ ns ns', frameAll ns' = frameAll ns → post (ws ++ terminatorsAll ns) ns ns') :
    Reader.Twin post ws (Reader.all shift p) (Reader.all shift p) :=
  twin_call hp fun ns ns' hns _ => .done (h ns ns' hns)

theorem twin_one {shift : Shift} {p : Production} {post : List Text → Node → Node → Prop}
    (hp : p.Plain) (h : ∀ n n', n'.frame = n.frame → post (ws ++ n.terminators) n n') :
    Reader.Twin post ws (Reader.one shift p) (Reader.one shift p) := by
  refine twin_call hp fun ns ns' hns _ => ?_
  match ns, ns' with
  | [n], [n'] =>
    rw [terminatorsAll, terminatorsAll, List.append_nil]
    exact .done (h n n' (List.cons.inj hns).1)
  | [_], [] | [_], _ :: _ :: _ => simp at hns
  | [], _ | _ :: _ :: _, _ => exact .stop

/-- The first node is the only one, if there is one. -/
theorem twin_first? {shift : Shift} {p : Production} {post : List Text → Option Node → Option Node → Prop}
    (hp : p.Plain) (hmost : p.most = some 1) (hnone : post ws none none)
    (hsome : ∀ n n', n'.frame = n.frame → post (ws ++ n.terminators) (some n) (some n')) :
    Reader.Twin post ws (Reader.first? shift p) (Reader.first? shift p) := by
  refine twin_call hp fun ns ns' hns hlength => .done ?_
  match ns, ns', hlength 1 hmost with
  | [], [], _ =>
    rw [terminatorsAll, List.append_nil]
    exact hnone
  | [n], [n'], _ =>
    rw [terminatorsAll, terminatorsAll, List.append_nil]
    exact hsome n n' (List.cons.inj hns).1
  | [], _ :: _, _ | [_], [], _ | [_], _ :: _ :: _, _ => simp at hns

end Twin

/-! ### The table -/

/-- What a production yields has the frame of what the other yields, and the terminals that were
given and met. -/
def Production.Frames (p : Production) (ws : List Text) (ns ns' : List Node) : Prop :=
  frameAll ns' = frameAll ns ∧ terminatorsAll ns = ws ∧ (∀ n ∈ p.most, ns.length ≤ n)

namespace Twin
variable {ws : List Text}

/-- A production that may yield any number of nodes. -/
theorem frames {p : Production} {ns ns' : List Node} (hp : p.most = none)
    (hframe : frameAll ns' = frameAll ns) (hws : terminatorsAll ns = ws) : p.Frames ws ns ns' :=
  ⟨hframe, hws, fun n hn => by rw [hp] at hn; cases hn⟩

theorem frames_one {p : Production} {n n' : Node} (hframe : n'.frame = n.frame)
    (hws : n.terminators = ws) (hp : p.most = none ∨ p.most = some 1) : p.Frames ws [n] [n'] := by
  refine ⟨by simp [hframe], by simp [hws], fun k hk => ?_⟩
  rcases hp with hp | hp <;> rw [hp] at hk <;> cases hk
  exact Nat.le_refl 1

theorem frames_none (p : Production) : p.Frames [] [] [] := ⟨rfl, rfl, fun _ _ => Nat.zero_le _⟩

/-! Arithmetic. -/

theorem post : Reader.Twin Production.post.Frames [] Production.post.body Production.post.body := by
  refine twin_bind (twin_one ⟨rfl, trivial⟩ fun n n' hn => twin_bind (twin_next rfl fun o => ?_))
  cases o <;> exact .done (frames_one (by simp [hn]) rfl (.inl rfl))

theorem unary : Reader.Twin Production.unary.Frames [] Production.unary.body Production.unary.body := by
  refine twin_bind (twin_next rfl fun o => ?_)
  cases o with
  | none => exact twin_all ⟨rfl, trivial⟩ fun ns ns' hns => frames rfl hns rfl
  | some op =>
    refine twin_bind (twin_one ⟨rfl, trivial⟩ fun n n' hn => ?_)
    exact .done (frames_one (by simp [hn]) rfl (.inl rfl))

theorem power : Reader.Twin Production.power.Frames [] Production.power.body Production.power.body := by
  refine twin_bind (twin_one ⟨rfl, trivial⟩ fun n n' hn => twin_bind (twin_next rfl fun o => ?_))
  cases o with
  | none => exact .done (frames_one hn rfl (.inl rfl))
  | some op =>
    refine twin_bind (twin_one ⟨rfl, trivial⟩ fun m m' hm => ?_)
    exact .done (frames_one (by simp [hn, hm]) rfl (.inl rfl))

theorem ternary :
    Reader.Twin Production.ternary.Frames [] Production.ternary.body Production.ternary.body := by
  refine twin_bind (twin_one ⟨rfl, trivial⟩ fun n n' hn => twin_bind (twin_next rfl fun o => ?_))
  cases o with
  | none => exact .done (frames_one hn rfl (.inl rfl))
  | some op =>
    refine twin_bind (twin_one ⟨rfl, trivial⟩ fun m m' hm => twin_bind (twin_expect rfl fun _ => ?_))
    refine twin_bind (twin_one ⟨rfl, trivial⟩ fun k k' hk => ?_)
    exact .done (frames_one (by simp [hn, hm, hk]) (by simp) (.inl rfl))

theorem assignment :
    Reader.Twin Production.assignment.Frames [] Production.assignment.body Production.assignment.body := by
  refine twin_bind (twin_ask rfl fun o => ?_)
  match o with
  | none => exact twin_all ⟨rfl, trivial⟩ fun ns ns' hns => frames rfl hns rfl
  | some (name, op) =>
    refine twin_bind (twin_one ⟨rfl, trivial⟩ fun n n' hn => ?_)
    exact .done (frames_one (by simp [hn]) rfl (.inl rfl))

theorem primary :
    Reader.Twin Production.primary.Frames [] Production.primary.body Production.primary.body := by
  refine twin_bind (twin_expect rfl fun l => ?_)
  unfold Reader.primaryRest
  split
  iterate 3 exact .done (frames_one rfl rfl (.inl rfl))
  · refine twin_bind (twin_one ⟨rfl, trivial⟩ fun n n' hn => twin_bind (twin_expect rfl fun _ => ?_))
    exact .done (frames_one (by simp [hn]) rfl (.inl rfl))
  iterate 2 exact twin_all ⟨rfl, trivial⟩ fun ns ns' hns => frames rfl hns rfl
  · refine twin_bind (twin_one ⟨rfl, trivial⟩ fun n n' hn => ?_)
    exact .done (frames_one (by simp [hn]) rfl (.inl rfl))
  · exact .stop

theorem arithClosed :
    Reader.Twin Production.arithClosed.Frames [] Production.arithClosed.body Production.arithClosed.body := by
  refine twin_bind (twin_one ⟨rfl, trivial⟩ fun n n' hn => twin_bind (twin_ask rfl fun _ => ?_))
  exact .done (frames_one (by simp [hn]) rfl (.inr rfl))

/-! Chains. -/

theorem plain_first (ch : Chain) : ch.first.Plain := by cases ch <;> exact ⟨rfl, trivial⟩

theorem plain_operand (ch : Chain) (kind : Kind) : (ch.operand kind).Plain := by
  cases ch <;> exact ⟨rfl, trivial⟩

/-- The rest of a chain goes on with what was read of it. -/
theorem further {ch : Chain} {left left' : Node} {p : Production} (hp : p.most = none)
    (h : left'.frame = left.frame) :
    Reader.Twin p.Frames left.terminators (Reader.all .here (.chainRest ch left))
      (Reader.all .here (.chainRest ch left')) := by
  have hgiven : left.terminators = [] ++ terminatorsAll (Production.chainRest ch left).lefts := by
    simp [Production.lefts]
  exact .call (.rest ch h) trivial hgiven fun ns ns' hns _ => .done (frames hp hns rfl)

theorem chain (ch : Chain) :
    Reader.Twin (Production.chain ch).Frames [] (Production.chain ch).body (Production.chain ch).body :=
  twin_bind (twin_one (plain_first ch) fun _ _ hn => further rfl hn)

theorem newlines :
    Reader.Twin Production.newlines.Frames [] Production.newlines.body Production.newlines.body := by
  refine twin_bind (twin_next rfl fun o => ?_)
  cases o with
  | none => exact .done (frames_none _)
  | some l => exact twin_call ⟨rfl, trivial⟩ fun ns ns' hns hmost => .done ⟨hns, rfl, hmost⟩

/-- Behind newlines nothing more is given. -/
theorem twin_newlines {α : Type} {post : List Text → α → α → Prop} {k k' : List Node → Reader α}
    (h : Reader.Twin post ws (k []) (k' [])) :
    Reader.Twin post ws (.call .here .newlines k) (.call .here .newlines k') := by
  refine twin_call ⟨rfl, trivial⟩ fun ns ns' hns hmost => ?_
  obtain rfl := List.eq_nil_of_length_eq_zero (Nat.le_zero.mp (hmost 0 rfl))
  cases ns' with
  | nil => rwa [terminatorsAll, List.append_nil]
  | cons n' ns' => simp at hns

theorem operator (ch : Chain) {post : List Text → Option Lexeme → Option Lexeme → Prop}
    (h : ∀ o, post ws o o) : Reader.Twin post ws ch.operator ch.operator := by
  have hwants : ch.wants .semi = false := by cases ch <;> rfl
  refine twin_bind (twin_ask hwants fun o => ?_)
  cases o with
  | none => exact .done (h none)
  | some op =>
    dsimp only
    split
    · exact twin_newlines (.done (h (some op)))
    · exact .done (h (some op))

theorem chainRest (ch : Chain) {left left' : Node} (hleft : left'.frame = left.frame) :
    Reader.Twin (Production.chainRest ch left).Frames left.terminators
      (Production.chainRest ch left).body (Production.chainRest ch left').body := by
  refine twin_bind (operator ch fun o => ?_)
  cases o with
  | none => exact .done (frames_one hleft rfl (.inl rfl))
  | some op =>
    refine twin_bind (twin_one (plain_operand ch _) fun n n' hn => ?_)
    have hjoined : left.terminators ++ n.terminators = (ch.join op.body left n).terminators := by
      cases ch <;> simp [Chain.join]
    rw [hjoined]
    refine further rfl ?_
    cases ch <;> simp [Chain.join, hleft, hn]

/-! Commands. -/

theorem list (closer : Closer) :
    Reader.Twin (Production.list closer).Frames [] (Production.list closer).body
      (Production.list closer).body := by
  have hcloser : among [closer.kind] .semi = false := by cases closer <;> rfl
  refine twin_bind (twin_all ⟨rfl, trivial⟩ fun ns ns' hns => twin_bind (twin_expect hcloser fun _ => ?_))
  exact .done (frames_one (by simp [hns]) rfl (.inl rfl))

theorem entry : Reader.Twin Production.entry.Frames [] Production.entry.body Production.entry.body := by
  refine twin_bind (twin_one ⟨rfl, trivial⟩ fun n n' hn => twin_bind (.ask fun o o' ho => .done ?_))
  have ho : o'.isSome = o.isSome := ho
  refine .done (frames_one ?_ rfl (.inl rfl))
  cases o <;> cases o' <;> simp_all

theorem entries (closer : Closer) :
    Reader.Twin (Production.entries closer).Frames [] (Production.entries closer).body
      (Production.entries closer).body := by
  have hcloser : among [closer.kind] .semi = false := by cases closer <;> rfl
  refine twin_bind (twin_newlines (.done (twin_bind (twin_ask hcloser fun b => ?_))))
  cases b with
  | true => exact .done (frames_none _)
  | false =>
    refine twin_bind (twin_one ⟨rfl, trivial⟩ fun n n' hn => ?_)
    have hterminated : isTerminated n' = isTerminated n := by
      rw [← isTerminated_frame n', hn, isTerminated_frame]
    rw [hterminated]
    split
    · refine twin_bind (twin_all ⟨rfl, trivial⟩ fun ns ns' hns => ?_)
      exact .done (frames rfl (by simp [hn, hns]) (by simp))
    · exact .done (frames_one hn rfl (.inl rfl))

theorem pipeline :
    Reader.Twin Production.pipeline.Frames [] Production.pipeline.body Production.pipeline.body := by
  refine twin_bind (twin_ask rfl fun excl => twin_bind (twin_one ⟨rfl, trivial⟩ fun n n' hn => ?_))
  exact .done (frames_one (by simp [hn]) rfl (.inl rfl))

theorem many {p : Production} (hp : p.isPart = true) :
    Reader.Twin (Production.many p).Frames [] (Production.many p).body (Production.many p).body := by
  have hplain : p.Plain ∧ (Production.many p).Plain ∧ p.most = some 1 := by
    cases p <;> first | exact ⟨⟨rfl, trivial⟩, ⟨rfl, rfl⟩, rfl⟩ | cases hp
  refine twin_bind (twin_first? hplain.1 hplain.2.2 (.done (frames_none _)) fun n n' hn => ?_)
  refine twin_bind (twin_all hplain.2.1 fun ns ns' hns => ?_)
  exact .done (frames rfl (by simp [hn, hns]) (by simp))

theorem isEmpty_of_frame {ns ns' : List Node} (h : frameAll ns' = frameAll ns) :
    ns'.isEmpty = ns.isEmpty := by
  cases ns <;> cases ns' <;> simp_all

theorem command :
    Reader.Twin Production.command.Frames [] Production.command.body Production.command.body := by
  refine twin_bind (twin_all ⟨rfl, rfl⟩ fun as as' has => twin_bind (twin_all ⟨rfl, rfl⟩ fun ns ns' hns => ?_))
  rw [isEmpty_of_frame has, isEmpty_of_frame hns]
  split
  · exact .stop
  · exact .done (frames_one (by simp [has, hns]) (by simp) (.inl rfl))

theorem assign :
    Reader.Twin Production.assign.Frames [] Production.assign.body Production.assign.body := by
  refine twin_bind (twin_ask rfl fun o => ?_)
  cases o with
  | none => exact .done (frames_none _)
  | some t =>
    refine twin_bind (twin_first? ⟨rfl, trivial⟩ rfl ?_ fun n n' hn => ?_)
    · exact .done (frames_one rfl rfl (.inr rfl))
    · exact .done (frames_one (by simp [hn]) rfl (.inr rfl))

/-! Words. -/

theorem word : Reader.Twin Production.word.Frames [] Production.word.body Production.word.body := by
  refine twin_bind (twin_first? ⟨rfl, trivial⟩ rfl (.done (frames_none _)) fun n n' hn => ?_)
  refine twin_bind (twin_all ⟨rfl, rfl⟩ fun ns ns' hns => ?_)
  rw [isEmpty_of_frame hns]
  refine .done (frames_one ?_ ?_ (.inr rfl))
  · split <;> simp [hn, hns]
  · split
    · rename_i hempty
      simp [List.isEmpty_iff.mp hempty]
    · simp

theorem pieceRest (l : Lexeme) (adjacent : Bool) :
    Reader.Twin (Production.piece adjacent).Frames [] (Reader.pieceRest l) (Reader.pieceRest l) := by
  unfold Reader.pieceRest
  split
  iterate 3 exact .done (frames_one rfl rfl (.inr rfl))
  · refine twin_bind (twin_all ⟨rfl, trivial⟩ fun ns ns' hns => ?_)
    exact .done (frames_one (by simp [hns]) rfl (.inr rfl))
  iterate 2 exact twin_call ⟨rfl, trivial⟩ fun ns ns' hns hmost => .done ⟨hns, rfl, hmost⟩
  iterate 4
    refine twin_bind (twin_one ⟨rfl, trivial⟩ fun n n' hn => ?_)
    exact .done (frames_one (by simp [hn]) rfl (.inr rfl))
  · exact .stop

theorem piece (adjacent : Bool) :
    Reader.Twin (Production.piece adjacent).Frames [] (Production.piece adjacent).body
      (Production.piece adjacent).body := by
  refine twin_bind (twin_ask rfl fun o => ?_)
  cases o with
  | none => exact .done (frames_none _)
  | some l => exact pieceRest l adjacent

theorem quoted :
    Reader.Twin Production.quoted.Frames [] Production.quoted.body Production.quoted.body := by
  refine twin_bind (twin_next rfl fun o => ?_)
  cases o with
  | some l => exact .done (frames_none _)
  | none =>
    refine twin_bind (twin_first? ⟨rfl, trivial⟩ rfl .stop fun n n' hn => ?_)
    refine twin_bind (twin_all ⟨rfl, trivial⟩ fun ns ns' hns => ?_)
    exact .done (frames rfl (by simp [hn, hns]) (by simp))

/-! Parameters. -/

theorem payload {rules : Rules} {post : List Text → Node → Node → Prop}
    (h : ∀ n n', n'.frame = n.frame → post (ws ++ n.terminators) n n') :
    Reader.Twin post ws (Reader.payload rules) (Reader.payload rules) := by
  refine twin_bind (twin_first? ⟨rfl, trivial⟩ rfl (.done ?_) fun n n' hn => .done (h n n' hn))
  have hempty := h .empty .empty rfl
  rwa [Node.terminators, List.append_nil] at hempty

theorem arithOperand {post : List Text → Node → Node → Prop}
    (h : ∀ n n', n'.frame = n.frame → post (ws ++ n.terminators) n n') :
    Reader.Twin post ws Reader.arithOperand Reader.arithOperand :=
  twin_one ⟨rfl, trivial⟩ h

/-- Two forms that were found or not. -/
inductive Found : List Text → Option Form → Option Form → Prop
  | none : Found [] none none
  | some {us : List Text} {n n' : Node} (blankBeforeBrace : Bool) (h : n'.frame = n.frame)
    (hus : n.terminators = us) : Found us (some ⟨n, blankBeforeBrace⟩) (some ⟨n', blankBeforeBrace⟩)

/-- A reader that finds a form or reads nothing. -/
abbrev Forms (m : Reader (Option Form)) : Prop := Reader.Twin Found [] m m

section Forms
variable {ref : Bool} {name : Text}

theorem elementsForm : Forms (Reader.elementsForm ref name) := by
  refine twin_bind (twin_next rfl fun o => ?_)
  cases o with
  | none => exact .done .none
  | some l => cases ref <;> exact .done (.some false rfl rfl)

/-- A form with a word behind what introduces it. -/
theorem payloadForm {shape : Shape} {rules : Rules} {f : Text → Node → Node}
    (hframe : ∀ op w w', w'.frame = w.frame → (f op w').frame = (f op w).frame)
    (hterminals : ∀ op w, (f op w).terminators = w.terminators) :
    Forms (do
      match ← Reader.accept shape with
      | none => pure none
      | some op => pure (some ⟨f op (← Reader.payload rules), false⟩)) := by
  refine twin_bind (twin_ask rfl fun o => ?_)
  cases o with
  | none => exact .done .none
  | some op =>
    exact twin_bind (payload fun n n' hn => .done (.some false (hframe op n n' hn) (hterminals op n)))

theorem substringForm : Forms (Reader.substringForm ref name) := by
  refine twin_bind (twin_ask rfl fun o => ?_)
  cases o with
  | none => exact .done .none
  | some _ =>
    refine twin_bind (arithOperand fun n n' hn => twin_bind (twin_ask rfl fun o => ?_))
    cases o with
    | none => exact .done (.some true (by simp [hn]) (by simp))
    | some _ =>
      exact twin_bind (arithOperand fun m m' hm => .done (.some true (by simp [hn, hm]) (by simp)))

theorem replacementForm : Forms (Reader.replacementForm ref name) := by
  refine twin_bind (twin_ask rfl fun o => ?_)
  cases o with
  | none => exact .done .none
  | some slash =>
    refine twin_bind (twin_ask rfl fun anchor => twin_bind (payload fun n n' hn => ?_))
    refine twin_bind (twin_ask rfl fun o => ?_)
    cases o with
    | none => exact .done (.some false (by simp [hn]) (by simp))
    | some _ =>
      exact twin_bind (payload fun m m' hm => .done (.some false (by simp [hn, hm]) (by simp)))

theorem matchingNames {mode : Text} {post : List Text → Form → Form → Prop}
    (h : ∀ stem, post ws ⟨.namesStarting stem mode, false⟩ ⟨.namesStarting stem mode, false⟩) :
    Reader.Twin post ws (Reader.matchingNames ref name mode) (Reader.matchingNames ref name mode) := by
  unfold Reader.matchingNames
  split
  · exact .done (h name)
  · exact .stop

theorem atForm : Forms (Reader.atForm ref name) := by
  refine twin_bind (twin_ask rfl fun o => ?_)
  cases o with
  | none => exact .done .none
  | some _ =>
    refine twin_bind (twin_ask rfl fun o => ?_)
    cases o with
    | none => exact twin_bind (matchingNames fun stem => .done (.some false rfl rfl))
    | some op => exact .done (.some false rfl rfl)

theorem starForm : Forms (Reader.starForm ref name) := by
  refine twin_bind (twin_ask rfl fun o => ?_)
  cases o with
  | none => exact .done .none
  | some _ => exact twin_bind (matchingNames fun stem => .done (.some false rfl rfl))

theorem elementForm : Forms (Reader.elementForm ref name) := by
  refine twin_bind (twin_next rfl fun o => ?_)
  cases o with
  | none => exact .done .none
  | some _ =>
    refine twin_bind (arithOperand fun n n' hn => twin_bind (twin_ask rfl fun _ => ?_))
    exact .done (.some false (by simp [hn]) (by simp))

theorem firstOf {readers : List (Reader (Option Form))} (h : ∀ m ∈ readers, Forms m) :
    Forms (Reader.firstOf readers) := by
  induction readers with
  | nil => exact .done .none
  | cons m rest ih =>
    refine twin_bind ((h m List.mem_cons_self).mono fun ws o o' ho => ?_)
    cases ho with
    | none => exact ih fun m hm => h m (List.mem_cons_of_mem _ hm)
    | some blank hframe hws => exact .done (.some blank hframe hws)

theorem forms : Forms (Reader.firstOf (Reader.forms ref name)) := by
  refine firstOf ?_
  simp only [Reader.forms, List.forall_mem_cons]
  exact ⟨elementsForm, payloadForm (fun _ _ _ h => by simp [h]) fun _ _ => rfl, substringForm,
    payloadForm (fun _ _ _ h => by simp [h]) fun _ _ => rfl,
    payloadForm (fun _ _ _ h => by simp [h]) fun _ _ => rfl, replacementForm, atForm, starForm,
    elementForm, List.forall_mem_nil _⟩

end Forms

theorem head {post : List Text → Head → Head → Prop} (h : ∀ head, post ws head head) :
    Reader.Twin post ws Reader.head Reader.head := by
  refine twin_bind (twin_ask rfl fun length => twin_bind (twin_ask rfl fun ref => ?_))
  refine twin_bind (twin_next rfl fun o => ?_)
  cases o with
  | some l => exact .done (h _)
  | none =>
    dsimp only
    split
    · refine twin_bind (twin_ask rfl fun b => ?_)
      cases b with
      | true => exact .done (h _)
      | false => exact .stop
    · exact .stop

theorem parameterBody :
    Reader.Twin (fun ws f f' => f'.blankBeforeBrace = f.blankBeforeBrace ∧
      f'.node.frame = f.node.frame ∧ f.node.terminators = ws) [] Reader.parameterBody Reader.parameterBody := by
  refine twin_bind (head fun h => ?_)
  split
  · exact .done ⟨rfl, rfl, rfl⟩
  · refine twin_bind (forms.mono fun ws o o' ho => .done ?_)
    cases ho with
    | none => exact ⟨rfl, rfl, rfl⟩
    | some blank hframe hws => exact ⟨rfl, hframe, hws⟩

theorem braced :
    Reader.Twin Production.braced.Frames [] Production.braced.body Production.braced.body := by
  refine twin_bind (parameterBody.mono fun ws f f' ⟨hblank, hframe, hws⟩ => ?_)
  rw [hblank]
  split
  · exact twin_bind (twin_ask rfl fun _ => .done (frames_one hframe hws (.inr rfl)))
  · exact twin_bind (twin_expect rfl fun _ => .done (frames_one hframe hws (.inr rfl)))

/-- Of two productions that ask and call the same, one yields what the other does, but for terminals. -/
theorem body {p p' : Production} (h : p.Twin p') (hsane : p.Sane) :
    Reader.Twin p.Frames (terminatorsAll p.lefts) p.body p'.body := by
  cases h with
  | rest ch h =>
    rw [show terminatorsAll (Production.chainRest ch _).lefts = _ from List.append_nil _]
    exact chainRest ch h
  | refl hp =>
    rw [hp]
    cases p with
    | chainRest => cases hp
    | many p => exact many hsane
    | chain ch => exact chain ch
    | newlines => exact newlines
    | list closer => exact list closer
    | entries closer => exact entries closer
    | entry => exact entry
    | pipeline => exact pipeline
    | command => exact command
    | assign => exact assign
    | word => exact word
    | piece adjacent => exact piece adjacent
    | quoted => exact quoted
    | braced => exact braced
    | arithClosed => exact arithClosed
    | assignment => exact assignment
    | ternary => exact ternary
    | power => exact power
    | unary => exact unary
    | post => exact post
    | primary => exact primary

end Twin

/-! ### Logs -/

/-- What comes with a log comes with each log whose answers agree, but for terminals, and they are the
terminals of the log. -/
def Production.Twins (c : Context) (p : Production) (ns : List Node) (as : List Asked) : Prop :=
  ∀ p' as', p.Twin p' → p.Sane → List.Forall₂ Asked.Agrees as as' →
    ∃ ns', Logs c p' ns' as' ∧ p.Frames (terminatorsAll p.lefts ++ terminatorsIn as) ns ns'

theorem terminatorsIn_append (as bs : List Asked) :
    terminatorsIn (as ++ bs) = terminatorsIn as ++ terminatorsIn bs := List.flatMap_append

theorem forall₂_append_left {α β : Type _} {R : α → β → Prop} {xs ys : List α} {zs : List β}
    (h : List.Forall₂ R (xs ++ ys) zs) :
    ∃ us vs, List.Forall₂ R xs us ∧ List.Forall₂ R ys vs ∧ zs = us ++ vs := by
  induction xs generalizing zs with
  | nil => exact ⟨[], zs, .nil, h, rfl⟩
  | cons x xs ih =>
    obtain ⟨z, zs, hhead, htail, rfl⟩ := List.forall₂_cons_left_iff.mp h
    obtain ⟨us, vs, hus, hvs, rfl⟩ := ih htail
    exact ⟨z :: us, vs, .cons hhead hus, hvs, rfl⟩

/-- Where the answers agree, the second of two such readers goes where the first does. -/
theorem Reader.Twin.admits {α : Type} {post : List Text → α → α → Prop} {ws : List Text} {m m' : Reader α}
    (h : Reader.Twin post ws m m') {c : Context} {a : α} {as as' : List Asked}
    (hadmits : m.Admits (fun c p ns as => Logs c p ns as ∧ p.Twins c ns as) c a as)
    (hagrees : List.Forall₂ Asked.Agrees as as') :
    ∃ a', m'.Admits Logs c a' as' ∧ post (ws ++ terminatorsIn as) a a' := by
  induction h generalizing as as' with
  | @done ws b b' h =>
    obtain ⟨rfl, rfl⟩ := hadmits
    obtain rfl := List.forall₂_nil_left_iff.mp hagrees
    exact ⟨b', ⟨rfl, rfl⟩, by simpa [terminatorsIn] using h⟩
  | stop => exact hadmits.elim
  | @ask ws β q k k' h ih =>
    obtain ⟨b, ts, bs, hrest, rfl⟩ := hadmits
    obtain ⟨a', bs', hhead, htail, rfl⟩ := List.forall₂_cons_left_iff.mp hagrees
    cases hhead with
    | @mk _ _ _ _ b' _ ts' hb =>
      obtain ⟨o, hadmits, hpost⟩ := ih b b' hb hrest htail
      refine ⟨o, ⟨b', ts', bs', hadmits, rfl⟩, ?_⟩
      rwa [terminatorsIn, List.flatMap_cons, ← List.append_assoc]
  | @call ws front shift p p' k k' hp hsane hws h ih =>
    obtain ⟨ns, xs, ys, hcall, hrest, rfl⟩ := hadmits
    obtain ⟨xs', ys', hxs, hys, rfl⟩ := forall₂_append_left hagrees
    obtain ⟨ns', hlogs, hframe, hterminals, hmost⟩ := hcall.2 p' xs' hp hsane hxs
    obtain ⟨o, hadmits, hpost⟩ := ih ns ns' hframe hmost hrest hys
    refine ⟨o, ⟨ns', xs', ys', hlogs, hadmits, rfl⟩, ?_⟩
    rwa [hws, terminatorsIn_append, List.append_assoc, ← List.append_assoc (terminatorsAll _), ← hterminals,
      ← List.append_assoc]

/-- Logs whose answers agree are logs of trees with the same frame. -/
theorem Logs.twin {c : Context} {p : Production} {ns : List Node} {as as' : List Asked}
    (h : Logs c p ns as) (hp : p.Plain) (hagrees : List.Forall₂ Asked.Agrees as as') :
    ∃ ns', Logs c p ns' as' ∧ p.Frames (terminatorsIn as) ns ns' := by
  have htwins : p.Twins c ns as := h.induct (P := fun c p ns as => p.Twins c ns as)
    fun hbody p' as' htwin hsane hagrees => by
      obtain ⟨ns', hadmits, hframes⟩ := (Twin.body htwin hsane).admits hbody hagrees
      exact ⟨ns', logs_iff.mpr hadmits, hframes⟩
  have hboth := htwins p as' (.refl hp.1) hp.2 hagrees
  rwa [hp.1] at hboth

/-- The terminals in what a production yields are those that its log takes. -/
theorem Logs.terminators {c : Context} {p : Production} {ns : List Node} {as : List Asked}
    (h : Logs c p ns as) (hp : p.Plain) : terminatorsAll ns = terminatorsIn as := by
  obtain ⟨ns', -, -, hterminals, -⟩ := h.twin hp (List.forall₂_same.mpr fun a _ => .refl a)
  exact hterminals

end ShellGrammar
