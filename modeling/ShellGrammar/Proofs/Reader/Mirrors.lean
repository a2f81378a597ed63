import ShellGrammar.Proofs.Pair.Command
import ShellGrammar.Proofs.Reader.Record

/-! Productions against readers.

`Mirrors source c R act m` says that the runs of `act` over the text `source`, begun in the
context `c`, do exactly what the reader `m` says. A run that ends well puts the setting
back, and the reader leads to the same place with a result that `R` relates to its own. A
run that ends with a fault means that the reader reads nothing, however deep its calls may
go. Runs that break a promise are not spoken of.

There is a rule for each way in which productions are put together, so that each production
is compared with its reader from top to bottom. -/
namespace ShellGrammar
open ParseM Grammar

variable {source : Text} {c : Context} {α β γ δ : Type}

/-- What an outcome of a run from `s` has to do with where a reader leads. -/
def Agrees (source : Text) (s : ParseState) (R : α → β → Prop)
    (takes : β → List Taken → Scan → Prop) : EStateM.Result (Halt Fault) ParseState α → Prop
  | .ok a s' => s'.lexer.Current source ∧ Holds false s s' ∧ ∃ b xs, R a b ∧
      takes b xs s'.here ∧ s'.lexer.consumed = s.lexer.consumed ++ xs.map Taken.token
  | .error (.fault _) _ => ∀ b xs place, ¬ takes b xs place
  | .error (.breach _) _ => True

/-- The runs of a computation do what a reader says. -/
def Mirrors (source : Text) (c : Context) (R : α → β → Prop) (act : ParseM α) (m : Reader β) :
    Prop :=
  ∀ s : ParseState, s.lexer.Current source → s.context = c →
    Agrees source s R (Takes c m s.here) (act s)

namespace Agrees
variable {s s₁ : ParseState} {R : α → β → Prop} {takes : β → List Taken → Scan → Prop}
  {r : EStateM.Result (Halt Fault) ParseState α}

/-- A run that was begun with the setting as it was, behind some tokens. -/
theorem after (xs : List Taken) {takes' : β → List Taken → Scan → Prop}
    (h : Agrees source s₁ R takes r) (hholds : Holds false s s₁)
    (hconsumed : s₁.lexer.consumed = s.lexer.consumed ++ xs.map Taken.token)
    (htakes : ∀ b ys place, takes b ys place → takes' b (xs ++ ys) place)
    (hstop : ∀ b ys place, takes' b ys place → ∃ b' zs place', takes b' zs place') :
    Agrees source s R takes' r := by
  cases r with
  | ok a s₂ =>
    obtain ⟨hcurrent, hholds', b, ys, hR, htook, hys⟩ := h
    refine ⟨hcurrent, hholds.trans hholds', b, xs ++ ys, hR, htakes b ys _ htook, ?_⟩
    rw [hys, hconsumed, List.map_append, List.append_assoc]
  | error e s₂ =>
    cases e with
    | fault f =>
      intro b ys place htook
      obtain ⟨b', zs, place', hbefore⟩ := hstop b ys place htook
      exact h b' zs place' hbefore
    | breach b => exact trivial

/-- A run that was begun with the setting as it was. -/
theorem begun (h : Agrees source s₁ R takes r) (hholds : Holds false s s₁)
    (hconsumed : s₁.lexer.consumed = s.lexer.consumed) : Agrees source s R takes r :=
  h.after [] hholds (by rw [hconsumed, List.map_nil, List.append_nil])
    (fun _ _ _ htook => htook) fun b ys place htook => ⟨b, ys, place, htook⟩

theorem mono {R' : α → γ → Prop} {takes' : γ → List Taken → Scan → Prop}
    (h : Agrees source s R takes r)
    (hok : ∀ a b xs place, R a b → takes b xs place → ∃ b', R' a b' ∧ takes' b' xs place)
    (hstop : ∀ b' xs place, takes' b' xs place → ∃ b, takes b xs place) :
    Agrees source s R' takes' r := by
  cases r with
  | ok a s₂ =>
    obtain ⟨hcurrent, hholds, b, xs, hR, htook, hconsumed⟩ := h
    obtain ⟨b', hR', htook'⟩ := hok a b xs _ hR htook
    exact ⟨hcurrent, hholds, b', xs, hR', htook', hconsumed⟩
  | error e s₂ =>
    cases e with
    | fault f =>
      intro b' xs place htook
      obtain ⟨b, hb⟩ := hstop b' xs place htook
      exact h b xs place hb
    | breach b => exact trivial

/-- What a run of a wrapped computation comes to. -/
theorem ensuring {act : ParseM α} {leave : ParseM Unit}
    (h : Agrees source s₁ R takes (act s₁)) (hbefore : s₁.lexer.consumed = s.lexer.consumed)
    (hleave : ∀ s₂, s₂.lexer.Current source → Holds false s₁ s₂ → ∀ s₃, leave s₂ = .ok () s₃ →
      s₃.lexer.Current source ∧ Holds false s s₃ ∧ s₃.here = s₂.here ∧
        s₃.lexer.consumed = s₂.lexer.consumed)
    (hstop : ∀ s₂ e s₃, leave s₂ = .error e s₃ → ∃ b, e = .breach b) :
    Agrees source s R takes (ShellGrammar.ensuring act leave s₁) := by
  unfold ShellGrammar.ensuring
  cases hact : act s₁ with
  | ok a s₂ =>
    rw [hact] at h
    obtain ⟨hcurrent, hholds, b, xs, hR, htook, hconsumed⟩ := h
    cases hout : leave s₂ with
    | ok _ s₃ =>
      obtain ⟨hcurrent₃, hholds₃, hhere, hconsumed₃⟩ := hleave s₂ hcurrent hholds s₃ hout
      simp only [hout]
      exact ⟨hcurrent₃, hholds₃, b, xs, hR, by rw [hhere]; exact htook,
        by rw [hconsumed₃, hconsumed, hbefore]⟩
    | error e s₃ =>
      obtain ⟨b, rfl⟩ := hstop s₂ e s₃ hout
      simp only [hout]
      exact trivial
  | error e s₂ =>
    rw [hact] at h
    cases hout : leave s₂ with
    | ok _ s₃ =>
      simp only [hout]
      cases e with
      | fault f => exact h
      | breach b => exact trivial
    | error e s₃ =>
      obtain ⟨b, rfl⟩ := hstop s₂ e s₃ hout
      simp only [hout]
      exact trivial

end Agrees

namespace Mirrors
variable {R : α → β → Prop} {S : γ → δ → Prop} {act : ParseM α} {m : Reader β}

/-! ### Sequences -/

theorem pure {a : α} {b : β} (h : R a b) : Mirrors source c R (Pure.pure a) (Pure.pure b) :=
  fun s hs _ => ⟨hs, .refl s, b, [], h, records_pure.mpr ⟨rfl, rfl, rfl⟩,
    (List.append_nil _).symm⟩

theorem bind {k : α → ParseM γ} {q : β → Reader δ} (h : Mirrors source c R act m)
    (hk : ∀ a b, R a b → Mirrors source c S (k a) (q b)) :
    Mirrors source c S (act >>= k) (m >>= q) := by
  intro s hs hc
  have hfirst := h s hs hc
  cases hact : act s with
  | error e s₁ =>
    rw [hact] at hfirst
    rw [bind_of_error hact]
    cases e with
    | breach b => exact trivial
    | fault f =>
      intro y xs place htook
      obtain ⟨b, ys, place', zs, hm, _⟩ := records_bind.mp htook
      exact hfirst b ys place' hm
  | ok a s₁ =>
    rw [hact] at hfirst
    obtain ⟨hcurrent, hholds, b, xs, hR, htook, hconsumed⟩ := hfirst
    rw [bind_of_ok hact]
    refine (hk a b hR s₁ hcurrent (hholds.context.trans hc)).after _ hholds hconsumed
      (fun y ys place hrest => records_bind.mpr ⟨b, xs, s₁.here, ys, htook, hrest, rfl⟩)
      fun y ys place hboth => ?_
    obtain ⟨b', ys', place', zs, hm, hrest, rfl⟩ := records_bind.mp hboth
    obtain ⟨rfl, rfl, rfl⟩ := Takes.unique htook hm
    exact ⟨y, zs, place, hrest⟩

/-- A last step that only names the result. -/
theorem map {f : α → γ} {S : γ → β → Prop} (h : Mirrors source c (fun a b => S (f a) b) act m) :
    Mirrors source c S (act >>= fun a => Pure.pure (f a)) m := by
  intro s hs hc
  have hact := h s hs hc
  cases hrun : act s with
  | ok a s₁ =>
    rw [hrun] at hact
    rw [bind_of_ok hrun]
    exact hact
  | error e s₁ =>
    rw [hrun] at hact
    rw [bind_of_error hrun]
    cases e <;> exact hact

theorem mono {R' : α → β → Prop} (h : Mirrors source c R act m) (hR : ∀ a b, R a b → R' a b) :
    Mirrors source c R' act m :=
  fun s hs hc => (h s hs hc).mono (fun a b _ _ hab hm => ⟨b, hR a b hab, hm⟩)
    fun b _ _ hm => ⟨b, hm⟩

/-- Only what is done in the context matters. -/
theorem congr {act' : ParseM α} (h : Mirrors source c R act m)
    (hact : ∀ s : ParseState, s.lexer.Current source → s.context = c → act' s = act s) :
    Mirrors source c R act' m := by
  intro s hs hc
  rw [hact s hs hc]
  exact h s hs hc

theorem breached (b : Breach) : Mirrors source c R (ShellGrammar.breached b) m :=
  fun _ _ _ => trivial

theorem fail {expected : Expected} : Mirrors source c R (ParseM.fail expected) .stop := by
  intro s hs hc
  cases hrun : (ParseM.fail expected : ParseM α) s with
  | ok a s₁ => exact absurd hrun (fail_ne_ok expected s a s₁)
  | error e s₁ =>
    cases e with
    | fault f => exact fun _ _ _ => not_records_stop
    | breach b => exact trivial

theorem fail_bind {expected : Expected} {k : γ → ParseM α} :
    Mirrors source c R (ParseM.fail expected >>= k) .stop := by
  have hfail : Mirrors source c (fun _ _ => False) (ParseM.fail expected : ParseM γ)
      (.stop : Reader β) := fail
  exact hfail.bind (q := fun b => .done b) fun _ _ h => h.elim

/-! ### Readers -/

/-- A question that is answered by what a computation does. -/
theorem query {q : Query β}
    (h : ∀ s : ParseState, s.lexer.Current source → s.context = c →
      Agrees source s R (fun b xs place => ∃ ts, q.Gives c s.here b ts place ∧
        xs = ts.map (⟨c, ·⟩)) (act s)) :
    Mirrors source c R act (.ask q .done) := by
  intro s hs hc
  exact (h s hs hc).mono (fun a b _ place hR hgives => ⟨b, hR, records_query.mpr hgives⟩)
    fun b _ place htook => ⟨b, records_query.mp htook⟩

/-- Readers that lead to the same places are as good as one another. -/
theorem congrReader {m' : Reader β} (h : Mirrors source c R act m)
    (hm : ∀ place b xs place', Takes c m' place b xs place' ↔ Takes c m place b xs place') :
    Mirrors source c R act m' :=
  fun s hs hc => (h s hs hc).mono (fun _ b _ _ hab hb => ⟨b, hab, (hm _ _ _ _).mpr hb⟩)
    fun b _ _ hb => ⟨b, (hm _ _ _ _).mp hb⟩

/-- What the token where the parser stands says of the answer to a question. -/
theorem answers {s s' : ParseState} {a : α} {b : β} {ts : List Token} {q : Query β}
    (hrun : act s = .ok a s') (hs' : Reaches source s ts s') (hR : R a b)
    (hgives : q.Gives c s.here b ts s'.here) :
    Agrees source s R (fun b xs place => ∃ ts, q.Gives c s.here b ts place ∧
      xs = ts.map (⟨c, ·⟩)) (act s) := by
  rw [hrun]
  refine ⟨hs'.current, hs'.keeps.holds, b, _, hR, ⟨ts, hgives, rfl⟩, ?_⟩
  rw [List.map_map, show Taken.token ∘ (fun t => ⟨c, t⟩) = id from rfl, List.map_id]
  exact hs'.consumed

theorem unanswered {s : ParseState} {f : Fault} {s' : ParseState} {q : Query β}
    (hrun : act s = .error (.fault f) s') (hanswer : q.answer c s.here = none) :
    Agrees source s R (fun b xs place => ∃ ts, q.Gives c s.here b ts place ∧
      xs = ts.map (⟨c, ·⟩)) (act s) := by
  rw [hrun]
  rintro b xs place ⟨ts, hgives, _⟩
  rw [hgives.answer] at hanswer
  cases hanswer

theorem token?_of_ok {s : ParseState} {t : Token} (h : s.tokenHere = .ok t) :
    s.context.token? s.here = some t := by
  show s.tokenHere.toOption = some t
  rw [h]
  rfl

theorem token?_of_error {s : ParseState} {f : LexFault} (h : s.tokenHere = .error f) :
    s.context.token? s.here = none := by
  show s.tokenHere.toOption = none
  rw [h]
  rfl

/-- Taking a token. -/
theorem take {adjacent : Bool} {want : Bool → Kind → Bool} :
    Mirrors source c
      (fun o l => l = o.map Token.lexeme ∧ ∀ t, o = some t → want c.inBackquote t.kind = true)
      (ParseM.take adjacent (want c.inBackquote)) (.ask (.take adjacent want) .done) := by
  refine query fun s hs hc => ?_
  subst hc
  have hsought : ∀ t, sought adjacent (want s.context.inBackquote) s t =
      s.context.wants adjacent (want s.context.inBackquote) t := fun _ => rfl
  obtain ⟨t, s₁, ht, hv, hrun, hs₁⟩ | ⟨t, s₁, ht, hv, hrun, hs₁⟩ | ⟨f, hf, hrun⟩ :=
    take_cases hs adjacent (want s.context.inBackquote)
  · refine answers hrun hs₁ (b := some t.lexeme) ⟨rfl, fun u hu => ?_⟩ ?_
    · cases hu
      exact (Bool.and_eq_true_iff.mp hv).1
    · rw [hsought] at hv
      exact ⟨t, token?_of_ok ht, .inl ⟨hv, rfl, rfl, hs₁.here_one⟩⟩
  · refine answers hrun hs₁ (b := none) ⟨rfl, nofun⟩ ?_
    rw [hsought] at hv
    exact ⟨t, token?_of_ok ht, .inr ⟨hv, rfl, rfl, hs₁.here_nil hs⟩⟩
  · refine unanswered hrun ?_
    simp only [Query.answer_take, token?_of_error hf, Option.map_none]

theorem next {kinds : List Kind} :
    Mirrors source c
      (fun o l => l = o.map Token.lexeme ∧ ∀ t, o = some t → among kinds t.kind = true)
      (ParseM.next kinds) (Reader.next kinds) := by
  have htake := @take source c false fun _ => among kinds
  exact htake.congr fun _ hs _ => next_eq_take hs kinds

/-- Going on with the next token if it is one of some kinds, and without it. -/
theorem next_bind {kinds : List Kind} {k : Option Token → ParseM γ}
    {q : Option Lexeme → Reader δ} (hnone : Mirrors source c S (k none) (q none))
    (hsome : ∀ t : Token, among kinds t.kind = true →
      Mirrors source c S (k (some t)) (q (some t.lexeme))) :
    Mirrors source c S (ParseM.next kinds >>= k) (Reader.next kinds >>= q) := by
  refine next.bind fun o l hl => ?_
  obtain ⟨rfl, hkind⟩ := hl
  cases o with
  | none => exact hnone
  | some t => exact hsome t (hkind t rfl)

/-- Going on with a token that has to be there. -/
theorem expect_bind {kinds : List Kind} {k : Option Token → ParseM γ} {q : Lexeme → Reader δ}
    (hnone : Mirrors source c S (k none) .stop)
    (hsome : ∀ t : Token, among kinds t.kind = true →
      Mirrors source c S (k (some t)) (q t.lexeme)) :
    Mirrors source c S (ParseM.next kinds >>= k) (Reader.expect kinds >>= q) := by
  have hnext : Mirrors source c S (ParseM.next kinds >>= k) (Reader.next kinds >>= fun o =>
      o.elim .stop q) := next_bind hnone hsome
  refine hnext.congrReader fun place d xs place' => ?_
  simp only [records_bind, records_expect]
  constructor
  · rintro ⟨l, ys, place'', zs, h, hrest, rfl⟩
    exact ⟨some l, ys, place'', zs, h, hrest, rfl⟩
  · rintro ⟨o, ys, place'', zs, h, hrest, rfl⟩
    cases o with
    | none => exact absurd hrest not_records_stop
    | some l => exact ⟨l, ys, place'', zs, h, hrest, rfl⟩

/-- Asking for the next token without taking it. -/
theorem peek {kinds : List Kind} :
    Mirrors source c (fun o b => b = o.isSome) (ParseM.peek kinds) (Reader.peek kinds) := by
  refine query fun s hs hc => ?_
  subst hc
  obtain ⟨t, s₁, ht, hv, hrun, hs₁⟩ | ⟨t, s₁, ht, hv, hrun, hs₁⟩ | ⟨f, hf, hrun⟩ :=
    take_cases hs false (among kinds)
  · obtain ⟨s₂, hlook, hs₂⟩ := look_of_take hs hrun
    exact answers hlook hs₂ (b := true) rfl ⟨t, token?_of_ok ht, hv.symm, rfl, hs₂.here_nil hs⟩
  · obtain ⟨s₂, hlook, hs₂⟩ := look_of_take hs hrun
    exact answers hlook hs₂ (b := false) rfl ⟨t, token?_of_ok ht, hv.symm, rfl, hs₂.here_nil hs⟩
  · have hpeek : ParseM.peek kinds s = .error (.fault (.ofLexFault f)) s :=
      (look_of_fault hs hf : look false kinds s = _)
    refine unanswered hpeek ?_
    simp only [Query.answer_peek, token?_of_error hf, Option.map_none]

/-- Asking for a shape. -/
theorem mark {shape : Shape} {pastBlank : Bool} :
    Mirrors source c (fun o t => t = o.map (·.body))
      (lexing (LexM.acceptWith shape.pattern shape.kind (pastBlank || c.mode.allowBlank)))
      (.ask (.mark shape pastBlank) .done) := by
  refine query fun s hs hc => ?_
  subst hc
  obtain ⟨s₁, hrun, hs₁⟩ :=
    acceptWith_cases hs shape.pattern shape.kind (pastBlank || s.context.mode.allowBlank)
  have hrules : s.rules.takeAt = s.context.mode.rules.takeAt := rfl
  rw [hrules] at hrun hs₁
  cases htake : s.context.mode.rules.takeAt shape.pattern shape.kind
      (pastBlank || s.context.mode.allowBlank) s.here with
  | none =>
    rw [htake] at hrun hs₁
    exact answers hrun hs₁ (b := none) rfl (.inr ⟨htake, rfl, rfl, hs₁.here_nil hs⟩)
  | some t =>
    rw [htake] at hrun hs₁
    exact answers hrun hs₁ (b := some t.body) rfl (.inl ⟨t, htake, rfl, rfl, hs₁.here_one⟩)

theorem accept (shape : Shape) :
    Mirrors source c (fun o t => t = o.map (·.body))
      (ParseM.accept shape.pattern shape.kind) (Reader.accept shape) :=
  mark.congr fun _ _ hc => accept_eq_acceptWith hc

theorem acceptPastBlank (shape : Shape) :
    Mirrors source c (fun o t => t = o.map (·.body))
      (ParseM.acceptPastBlank shape.pattern shape.kind) (Reader.acceptPastBlank shape) :=
  mark.congr fun _ _ _ => rfl

/-- Going on with a shape if it is there, and without it. -/
theorem accept_bind (shape : Shape) {k : Option Token → ParseM γ} {q : Option Text → Reader δ}
    (hnone : Mirrors source c S (k none) (q none))
    (hsome : ∀ t : Token, Mirrors source c S (k (some t)) (q (some t.body))) :
    Mirrors source c S (ParseM.accept shape.pattern shape.kind >>= k)
      (Reader.accept shape >>= q) := by
  refine (accept shape).bind fun o t ht => ?_
  subst ht
  cases o with
  | none => exact hnone
  | some t => exact hsome t

/-- Going on with a shape that has to be there. -/
theorem close_bind (closing : Closing) (pastBlank : Bool) {k : Option Token → ParseM γ}
    {q : Unit → Reader δ} (hnone : Mirrors source c S (k none) .stop)
    (hsome : ∀ t : Token, Mirrors source c S (k (some t)) (q ())) :
    Mirrors source c S
      (lexing (LexM.acceptWith (.lit closing.text) closing.kind
        (pastBlank || c.mode.allowBlank)) >>= k)
      (Reader.close closing pastBlank >>= q) := by
  intro s hs hc
  subst hc
  obtain ⟨s₁, hrun, hs₁⟩ :=
    acceptWith_cases hs (.lit closing.text) closing.kind (pastBlank || s.context.mode.allowBlank)
  have hrules : s.rules.takeAt = s.context.mode.rules.takeAt := rfl
  rw [hrules] at hrun hs₁
  rw [bind_of_ok hrun]
  cases htake : s.context.mode.rules.takeAt (.lit closing.text) closing.kind
      (pastBlank || s.context.mode.allowBlank) s.here with
  | none =>
    rw [htake] at hs₁
    refine ((hnone s₁ hs₁.current hs₁.keeps.context).begun hs₁.keeps.holds
      (hs₁.consumed.trans (List.append_nil _))).mono
      (fun _ d _ _ _ htook => absurd htook not_records_stop) fun d _ place htook => ?_
    obtain ⟨_, _, _, _, hclose, _⟩ := records_bind.mp htook
    obtain ⟨_, ⟨t, ht, _⟩, _⟩ := records_query.mp hclose
    rw [htake] at ht
    cases ht
  | some t =>
    rw [htake] at hs₁
    refine (hsome t s₁ hs₁.current hs₁.keeps.context).after [⟨s.context, t⟩]
      hs₁.keeps.holds hs₁.consumed (fun d ys place hrest => ?_) fun d ys place htook => ?_
    · refine records_bind.mpr ⟨(), [⟨s.context, t⟩], s₁.here, ys, ?_, hrest, rfl⟩
      exact records_query.mpr ⟨[t], ⟨t, htake, rfl, hs₁.here_one⟩, rfl⟩
    · obtain ⟨_, _, place', zs, hclose, hrest, _⟩ := records_bind.mp htook
      obtain ⟨_, ⟨u, hu, _, rfl⟩, _⟩ := records_query.mp hclose
      rw [htake] at hu
      cases hu
      rw [hs₁.here_one]
      exact ⟨d, zs, place, hrest⟩

/-- Going on with a shape that has to be there, past blank where the mode has it. -/
theorem accept_close_bind (closing : Closing) {k : Option Token → ParseM γ}
    {q : Unit → Reader δ} (hnone : Mirrors source c S (k none) .stop)
    (hsome : ∀ t : Token, Mirrors source c S (k (some t)) (q ())) :
    Mirrors source c S (ParseM.accept (.lit closing.text) closing.kind >>= k)
      (Reader.close closing false >>= q) := by
  refine (close_bind closing false hnone hsome).congr fun s _ hc => ?_
  exact bind_of_eq (accept_eq_acceptWith hc)

/-- Looking for a token and then taking it. -/
theorem look_next_bind {adjacent : Bool} {kinds : List Kind} {want : Bool → Kind → Bool}
    {k : Option Token → ParseM γ} {f : Token → Option Token → ParseM γ}
    {q : Option Lexeme → Reader δ} (hwant : want c.inBackquote = among kinds)
    (hk : ∀ t, k (some t) = ParseM.next [] >>= f t)
    (hnone : Mirrors source c S (k none) (q none))
    (hsome : ∀ t : Token, among kinds t.kind = true →
      Mirrors source c S (f t (some t)) (q (some t.lexeme))) :
    Mirrors source c S (look adjacent kinds >>= k)
      (.ask (.take adjacent want) .done >>= q) := by
  have htake : Mirrors source c S (ParseM.take adjacent (want c.inBackquote) >>= fun o =>
      o.elim (k none) fun t => f t (some t)) (.ask (.take adjacent want) .done >>= q) := by
    refine take.bind fun o l hl => ?_
    obtain ⟨rfl, hkind⟩ := hl
    cases o with
    | none => exact hnone
    | some t => exact hsome t (hwant ▸ hkind t rfl)
  refine htake.congr fun s hs _ => ?_
  rw [hwant]
  have heq := look_eq_take (f := f) hs adjacent kinds (fun _ => true) hk
  simpa only [Bool.and_true] using heq

/-! ### Taking two tokens or none -/

/-- A `!` that stands alone. -/
theorem bang : Mirrors source c Eq acceptBang (.ask .bang .done) := by
  refine query fun s hs hc => ?_
  subst hc
  cases ht : s.tokenHere with
  | error f =>
    have hlook : look false [.str] s = .error (.fault (.ofLexFault f)) s := look_of_fault hs ht
    refine unanswered (bind_of_error hlook) ?_
    simp only [Query.answer_bang, token?_of_error ht, Option.bind_none]
  | ok t =>
    by_cases hbang : sought false (among [.str]) s t = true ∧ t.body = ['!']
    · obtain ⟨s₁, hs₁, hrun⟩ := acceptBang_of_eq hs ht hbang.1 hbang.2
      have hcontext := hs₁.keeps.context
      have hbackquote : s₁.inBackquote = s.context.inBackquote := hs₁.keeps.inBackquote
      have hwants : s.context.wants false (among [.str]) t = true ∧ t.body = ['!'] := hbang
      have hthere : s.context.token? t.after = s₁.context.token? s₁.here := by
        rw [hcontext, hs₁.here_one]
      cases hu : s₁.tokenHere with
      | error f =>
        refine unanswered (hrun.trans (bind_of_error (look_of_fault hs₁.current hu))) ?_
        rw [token?_of_error hu] at hthere
        simp only [Query.answer_bang, token?_of_ok ht, hwants.1, hwants.2, hthere,
          beq_self_eq_true, Bool.and_self, if_true, Option.bind_some, Option.bind_none]
      | ok u =>
        rw [token?_of_ok hu] at hthere
        cases hv : sought true (among (pieceStart s₁.inBackquote)) s₁ u with
        | false =>
          obtain ⟨s₂, hlook, hs₂⟩ := look_none hs₁.current hu hv
          have hno : s.context.wants true (among (pieceStart s.context.inBackquote)) u = false := by
            rw [← hbackquote, ← hcontext]
            exact hv
          refine answers (hrun.trans (bind_of_ok hlook)) (hs₁.trans hs₂) rfl ?_
          exact ⟨t, token?_of_ok ht, .inr ⟨hwants, u, hthere, .inr ⟨hno, rfl, rfl,
            (hs₂.here_nil hs₁.current).trans hs₁.here_one⟩⟩⟩
        | true =>
          obtain ⟨s₂, hlook, hs₂⟩ := look_some hs₁.current hu hv
          obtain ⟨s₃, hback, hs₃⟩ := back_of_reaches ht (hs₁.trans hs₂)
          have hyes : s.context.wants true (among (pieceStart s.context.inBackquote)) u = true := by
            rw [← hbackquote, ← hcontext]
            exact hv
          refine answers (hrun.trans ((bind_of_ok hlook).trans (bind_of_ok hback))) hs₃ rfl ?_
          exact ⟨t, token?_of_ok ht, .inr ⟨hwants, u, hthere, .inl ⟨hyes, rfl, rfl,
            hs₃.here_nil hs⟩⟩⟩
    · obtain ⟨s₁, hrun, hs₁⟩ := acceptBang_of_ne hs ht fun hv hbody => hbang ⟨hv, hbody⟩
      exact answers hrun hs₁ rfl ⟨t, token?_of_ok ht, .inl ⟨hbang, rfl, rfl, hs₁.here_nil hs⟩⟩

/-- A name and an assignment. -/
theorem target :
    Mirrors source c (fun o l => l = o.map fun tu => (tu.1.body, tu.2.body))
      (takeBoth [.ident] assignmentOps) (.ask .target .done) := by
  refine query fun s hs hc => ?_
  subst hc
  obtain ⟨t, s₁, ht, hv, hrun, hs₁⟩ | ⟨t, s₁, ht, hv, hrun, hs₁⟩ | ⟨f, hf, hrun⟩ :=
    take_cases hs false (among [.ident])
  · have hcontext := hs₁.keeps.context
    have hwants : s.context.wants false (among [.ident]) t = true := hv
    have hthere : s.context.token? t.after = s₁.context.token? s₁.here := by
      rw [hcontext, hs₁.here_one]
    obtain ⟨u, s₂, hu, hv', hrun', hs₂⟩ | ⟨u, s₂, hu, hv', hrun', hs₂⟩ | ⟨f, hf, hrun'⟩ :=
      take_cases hs₁.current false (among assignmentOps)
    · have hop : s.context.wants false (among assignmentOps) u = true := by
        rw [← hcontext]
        exact hv'
      refine answers (takeBoth_some hrun hs hs₁.current hrun') (hs₁.trans hs₂) rfl ?_
      exact ⟨t, token?_of_ok ht, .inr ⟨hwants, u, hthere.trans (token?_of_ok hu),
        .inr ⟨hop, rfl, rfl, hs₂.here_one⟩⟩⟩
    · have hno : s.context.wants false (among assignmentOps) u = false := by
        rw [← hcontext]
        exact hv'
      obtain ⟨s₃, hback, hs₃⟩ := takeBoth_back hs ht hrun hs₁ hrun' hs₂
      refine answers hback hs₃ rfl ?_
      exact ⟨t, token?_of_ok ht, .inr ⟨hwants, u, hthere.trans (token?_of_ok hu),
        .inl ⟨hno, rfl, rfl, hs₃.here_nil hs⟩⟩⟩
    · have hboth : takeBoth [.ident] assignmentOps s =
          .error (.fault (.ofLexFault f)) s₁ := by
        rw [← next_eq_take hs] at hrun
        rw [← next_eq_take hs₁.current] at hrun'
        rw [takeBoth, bind_of_ok hrun]
        exact bind_of_error hrun'
      refine unanswered hboth ?_
      rw [token?_of_error hf] at hthere
      simp only [Query.answer_target, token?_of_ok ht, hwants, hthere, if_true, Option.bind_some,
        Option.bind_none]
  · exact answers (takeBoth_none hs hrun) hs₁ rfl
      ⟨t, token?_of_ok ht, .inl ⟨hv, rfl, rfl, hs₁.here_nil hs⟩⟩
  · have hboth : takeBoth [.ident] assignmentOps s = .error (.fault (.ofLexFault f)) s := by
      rw [← next_eq_take hs] at hrun
      exact bind_of_error hrun
    refine unanswered hboth ?_
    simp only [Query.answer_target, token?_of_error hf, Option.bind_none]

/-! ### Levels and contexts -/

/-- Levels are not limited, and where they are not counted they make no difference. -/
theorem descend_bind {k : ParseM γ} {q : Reader δ} (h : Mirrors source c S k q) :
    Mirrors source c S (unlimited >>= fun _ => k) q := by
  intro s hs hc
  exact (h s.deeper hs hc).begun ⟨rfl, rfl, nofun⟩ rfl

theorem nested (h : Mirrors source c R act m) :
    Mirrors source c R (ParseM.nested unlimited act) m := by
  refine descend_bind fun s hs hc => ?_
  refine (h s hs hc).ensuring rfl (fun s₂ hs₂ hholds s₃ hout => ?_) fun s₂ e s₃ hout => ?_
  · unfold ascend at hout
    split at hout
    · cases hout
    · cases hout
      exact ⟨hs₂, ⟨hholds.modes, hholds.inBackquote, nofun⟩, rfl, rfl⟩
  · unfold ascend at hout
    split at hout
    · cases hout
      exact ⟨_, rfl⟩
    · cases hout

theorem folding (h : Mirrors source c R act m) :
    Mirrors source c R (ParseM.folding act) m := by
  intro s hs hc
  show Agrees source s R _
    (ShellGrammar.ensuring act (modify fun s₂ => { s₂ with depth := s.depth }) s)
  refine (h s hs hc).ensuring rfl (fun s₂ hs₂ hholds s₃ hout => ?_) fun s₂ e s₃ hout => ?_
  · cases hout
    exact ⟨hs₂, ⟨hholds.modes, hholds.inBackquote, nofun⟩, rfl, rfl⟩
  · cases hout

/-- What is done under a rule set is called under it. -/
theorem withRules {rules : Rules} {allowBlank : Bool} {p : Production} {R : α → List Node → Prop}
    (h : Mirrors source (c.under rules allowBlank) R act (Reader.all .here p)) :
    Mirrors source c R (ParseM.withRules rules allowBlank act)
      (Reader.all (.under rules allowBlank) p) := by
  intro s hs hc
  have hentered := hs.enter rules allowBlank
  have hhere : ParseState.here { s with lexer := s.lexer.enter rules allowBlank } = s.here :=
    hs.toTiled.here_eq hentered.toTiled (Lexer.consumed_enter _ _ _)
  have hcontext : ParseState.context { s with lexer := s.lexer.enter rules allowBlank } =
      c.under rules allowBlank := by
    subst hc
    simp only [ParseState.context, Lexer.mode, Lexer.modes_enter]
    rfl
  have hact := h _ hentered hcontext
  rw [hhere] at hact
  refine (hact.ensuring (s := s) (Lexer.consumed_enter s.lexer rules allowBlank)
    (fun s₂ hs₂ hholds s₃ hout => ?_) fun s₂ e s₃ hout => ?_).mono
    (fun _ ns _ _ hR htook => ⟨ns, hR, records_all.mpr (records_all.mp htook)⟩)
    fun ns _ _ htook => ⟨ns, records_all.mpr (records_all.mp htook)⟩
  · obtain ⟨l, hleave, hl, hconsumed, ha, htiled⟩ :=
      Lexer.leave?_of_modes (hholds.modes.trans (Lexer.modes_enter s.lexer rules allowBlank))
    simp only [lexing_eq, LexM.leave, hleave] at hout
    cases hout
    have htiled' := htiled source hs₂.toTiled
    exact ⟨htiled'.current ha, ⟨hl, hholds.inBackquote, fun hno => by cases hno⟩,
      hs₂.toTiled.here_eq htiled' hconsumed, hconsumed⟩
  · simp only [lexing_eq, LexM.leave] at hout
    cases hleave : s₂.lexer.leave? with
    | none =>
      rw [hleave] at hout
      cases hout
      exact ⟨_, rfl⟩
    | some l =>
      rw [hleave] at hout
      cases hout

/-- What is done inside a list is called inside it. -/
theorem inside {closer : Closer} {p : Production} {R : α → List Node → Prop}
    (h : Mirrors source (c.shift (.inside closer)) R act (Reader.all .here p)) :
    Mirrors source c R (ParseM.inList closer (ParseM.withRules .command true act))
      (Reader.all (.inside closer) p) := by
  have hinner : Mirrors source (c.inside closer) R (ParseM.withRules .command true act)
      (Reader.all (.under .command true) p) := withRules h
  intro s hs hc
  subst hc
  show Agrees source s R _ (ShellGrammar.ensuring (ParseM.withRules .command true act)
    (modify fun s₂ => { s₂ with inBackquote := s.inBackquote })
    { s with inBackquote := closer == .backquote })
  refine ((hinner { s with inBackquote := closer == .backquote } hs rfl).ensuring (s := s) rfl
    (fun s₂ hs₂ hholds s₃ hout => ?_) fun s₂ e s₃ hout => ?_).mono
    (fun _ ns _ _ hR htook => ⟨ns, hR, records_all.mpr (records_all.mp htook)⟩)
    fun ns _ _ htook => ⟨ns, records_all.mpr (records_all.mp htook)⟩
  · cases hout
    exact ⟨hs₂, ⟨hholds.modes, rfl, nofun⟩, rfl, rfl⟩
  · cases hout

/-- What a piece can start with is known from the context. -/
theorem pieceStartHere_bind {k : List Kind → ParseM γ} {q : Reader δ}
    (h : Mirrors source c S (k (pieceStart c.inBackquote)) q) :
    Mirrors source c S (pieceStartHere >>= k) q := by
  intro s hs hc
  subst hc
  exact h s hs rfl

/-! ### Calls -/

/-- A production is called for what its reader reads. -/
theorem ofBody {p : Production} {R : α → List Node → Prop} (h : Mirrors source c R act p.body) :
    Mirrors source c R act (Reader.all .here p) :=
  h.congrReader fun _ _ _ _ => records_all.trans records_iff

theorem one {shift : Shift} {p : Production} {act : ParseM Node}
    (h : Mirrors source c (fun n ns => ns = [n]) act (Reader.all shift p)) :
    Mirrors source c Eq act (Reader.one shift p) := by
  intro s hs hc
  refine (h s hs hc).mono (fun n ns _ place hns htook => ⟨n, rfl, ?_⟩) fun n _ place htook =>
    ⟨[n], records_all.mpr (records_one.mp htook)⟩
  subst hns
  exact records_one.mpr (records_all.mp htook)

theorem first? {shift : Shift} {p : Production} {act : ParseM (Option Node)}
    (h : Mirrors source c (fun o ns => ns = o.toList) act (Reader.all shift p)) :
    Mirrors source c Eq act (Reader.first? shift p) := by
  intro s hs hc
  refine (h s hs hc).mono (fun o ns _ place hns htook => ⟨o, rfl, ?_⟩) fun o _ place htook => ?_
  · subst hns
    exact records_first?.mpr ⟨_, records_all.mp htook, (Option.head?_toList).symm⟩
  · obtain ⟨ns, hrecords, _⟩ := records_first?.mp htook
    exact ⟨ns, records_all.mpr hrecords⟩

/-- Going on with a result that the reader shares. -/
theorem eq_bind {act : ParseM α} {m : Reader α} {k : α → ParseM γ} {q : α → Reader δ}
    (h : Mirrors source c Eq act m) (hk : ∀ a, Mirrors source c S (k a) (q a)) :
    Mirrors source c S (act >>= k) (m >>= q) := by
  refine h.bind fun a b hab => ?_
  subst hab
  exact hk a

/-! ### Loops, alternatives and chains -/

/-- A production for as long as it yields something. -/
theorem many {p : Production} {step : ParseM (Option Node)}
    (h : Mirrors source c (fun o ns => ns = o.toList) step (Reader.all .here p)) :
    ∀ bound, Mirrors source c Eq (gather step bound) (Reader.all .here (.many p))
  | 0 => breached _
  | bound + 1 => by
    refine ofBody (h.first?.eq_bind fun o => ?_)
    cases o with
    | none => exact pure rfl
    | some n => exact (many h bound).eq_bind fun ns => pure rfl

theorem firstOf_nil :
    Mirrors source c Eq (ParseM.firstOf ([] : List (ParseM (Option α)))) (Reader.firstOf []) :=
  pure rfl

/-- The first of some alternatives that yields something. -/
theorem firstOf_cons {alternative : ParseM (Option α)} {alternatives : List (ParseM (Option α))}
    {reader : Reader (Option α)} {readers : List (Reader (Option α))}
    (h : Mirrors source c Eq alternative reader)
    (hrest : Mirrors source c Eq (ParseM.firstOf alternatives) (Reader.firstOf readers)) :
    Mirrors source c Eq (ParseM.firstOf (alternative :: alternatives))
      (Reader.firstOf (reader :: readers)) := by
  refine h.eq_bind fun o => ?_
  cases o with
  | none => exact hrest
  | some a => exact pure rfl

/-- An operator of a chain and what was kept of it. -/
structure JoinsAs (source : Text) (c : Context) (ch : Chain) (operand : γ → ParseM Node)
    (join : γ → Node → Node → Node) (op : γ) (l : Lexeme) : Prop where
  operand : Mirrors source c (fun n ns => ns = [n]) (operand op)
    (Reader.all .here (ch.operand l.kind))
  join : join op = ch.join l.body

section Chains
variable {ch : Chain} {operator : ParseM (Option γ)} {operand : γ → ParseM Node}
  {join : γ → Node → Node → Node}

theorem chainRest
    (hop : Mirrors source c (Option.Rel (JoinsAs source c ch operand join)) operator ch.operator) :
    ∀ bound left, Mirrors source c (fun n ns => ns = [n])
      (ParseM.chainRest unlimited operator operand join bound left)
      (Reader.all .here (.chainRest ch left))
  | 0, _ => breached _
  | bound + 1, left => by
    refine ofBody (hop.bind fun o l hjoins => ?_)
    cases hjoins with
    | none => exact pure rfl
    | some hjoins =>
      refine descend_bind (hjoins.operand.one.eq_bind fun right => ?_)
      rw [hjoins.join]
      exact chainRest hop bound _

theorem chain {g : Grammar} (hdescend : g.descend = unlimited) {first : ParseM Node}
    (hfirst : Mirrors source c (fun n ns => ns = [n]) first (Reader.all .here ch.first))
    (hop : Mirrors source c (Option.Rel (JoinsAs source c ch operand join)) operator
      ch.operator) :
    Mirrors source c (fun n ns => ns = [n]) (ParseM.chain g first operator operand join)
      (Reader.all .here (.chain ch)) := by
  refine ofBody ?_
  rw [ParseM.chain, hdescend]
  exact folding (hfirst.one.eq_bind (chainRest hop g.steps))

end Chains

/-- Newlines. -/
theorem skipNewlines : ∀ bound,
    Mirrors source c (fun _ _ => True) (ParseM.skipNewlines bound) (Reader.all .here .newlines)
  | 0 => breached _
  | bound + 1 => ofBody (next_bind (pure trivial) fun _ _ => skipNewlines bound)

end Mirrors

end ShellGrammar
