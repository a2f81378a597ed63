import ShellGrammar.Proofs.Reader.Table

/-! What the answers to questions are.

Each question is about the token at a place, or about a shape there. These are the answers
one by one, as equivalences: which answer there is, and what it says of the text. -/
namespace ShellGrammar
open Grammar ParseM

variable {c : Context} {place place' : Scan} {t : Token}

theorem Context.token?_eq_some : c.token? place = some t ↔ c.mode.rules.tokenAt place = .ok t := by
  rw [token?]
  cases c.mode.rules.tokenAt place with
  | ok u => simp [Except.toOption]
  | error f => simp [Except.toOption]

/-- A token that is wanted can be seen, and is of the wanted kind. -/
theorem Context.wants_iff {adjacent : Bool} {want : Kind → Bool} :
    c.wants adjacent want t = true ↔
      want t.kind = true ∧ ((adjacent = false ∧ c.mode.allowBlank = true) ∨ t.blank = []) := by
  simp [wants, Token.isAdjacent]

theorem mem_of_wants {kinds : List Kind} (hne : kinds ≠ []) {adjacent : Bool}
    (h : c.wants adjacent (among kinds) t = true) : t.kind ∈ kinds := by
  have hwant := (Context.wants_iff.mp h).1
  rw [among, Bool.or_eq_true] at hwant
  rcases hwant with hnil | hmem
  · exact absurd (List.isEmpty_iff.mp hnil) hne
  · exact List.contains_iff_mem.mp hmem

theorem kind_of_wants {kind : Kind} {adjacent : Bool}
    (h : c.wants adjacent (among [kind]) t = true) : t.kind = kind :=
  List.mem_singleton.mp (mem_of_wants nofun h)

namespace Query

theorem take_some {adjacent : Bool} {want : Bool → Kind → Bool} {l : Lexeme} :
    (take adjacent want).answer c place = some (some l, place') ↔
      ∃ t, c.token? place = some t ∧ c.wants adjacent (want c.inBackquote) t = true ∧
        l = t.lexeme ∧ place' = t.after := by
  rw [answer_take]
  cases c.token? place with
  | none => simp
  | some u =>
    cases hw : c.wants adjacent (want c.inBackquote) u with
    | true =>
      simp only [Option.map_some, hw, if_true, Option.some.injEq, Prod.mk.injEq, exists_eq_left',
        true_and]
      exact and_congr eq_comm eq_comm
    | false => simp [hw]

theorem take_none {adjacent : Bool} {want : Bool → Kind → Bool} :
    (take adjacent want).answer c place = some (none, place') ↔
      ∃ t, c.token? place = some t ∧ c.wants adjacent (want c.inBackquote) t = false ∧
        place' = place := by
  rw [answer_take]
  cases c.token? place with
  | none => simp
  | some u =>
    cases hw : c.wants adjacent (want c.inBackquote) u with
    | true => simp [hw]
    | false =>
      simp only [Option.map_some, hw, Bool.false_eq_true, if_false, Option.some.injEq,
        Prod.mk.injEq, exists_eq_left', true_and]
      exact eq_comm

theorem peek_iff {want : Kind → Bool} {b : Bool} :
    (peek want).answer c place = some (b, place') ↔
      ∃ t, c.token? place = some t ∧ c.wants false want t = b ∧ place' = place := by
  rw [answer_peek]
  cases c.token? place with
  | none => simp
  | some u => simp [eq_comm]

theorem mark_some {shape : Shape} {pastBlank : Bool} {body : Text} :
    (mark shape pastBlank).answer c place = some (some body, place') ↔
      ∃ t, c.mode.rules.takeAt shape.pattern shape.kind (pastBlank || c.mode.allowBlank) place =
        some t ∧ body = t.body ∧ place' = t.after := by
  rw [answer_mark]
  cases c.mode.rules.takeAt shape.pattern shape.kind (pastBlank || c.mode.allowBlank) place with
  | none => simp
  | some u => simp [eq_comm]

theorem mark_none {shape : Shape} {pastBlank : Bool} :
    (mark shape pastBlank).answer c place = some (none, place') ↔
      c.mode.rules.takeAt shape.pattern shape.kind (pastBlank || c.mode.allowBlank) place =
        none ∧ place' = place := by
  rw [answer_mark]
  cases c.mode.rules.takeAt shape.pattern shape.kind (pastBlank || c.mode.allowBlank) place with
  | none => simp [eq_comm]
  | some u => simp

theorem close_iff {closing : Closing} {pastBlank : Bool} :
    (close closing pastBlank).answer c place = some ((), place') ↔
      ∃ t, c.mode.rules.takeAt (.lit closing.text) closing.kind (pastBlank || c.mode.allowBlank)
        place = some t ∧ place' = t.after := by
  rw [answer_close]
  cases c.mode.rules.takeAt (.lit closing.text) closing.kind (pastBlank || c.mode.allowBlank)
    place with
  | none => simp
  | some u => simp [eq_comm]

theorem answered {β : Type} {b b' : β} :
    some (b', place) = some (b, place') ↔ b = b' ∧ place' = place := by
  constructor
  · rintro ⟨⟩
    exact ⟨rfl, rfl⟩
  · rintro ⟨rfl, rfl⟩
    rfl

/-- A `!` is taken if it is all of the next token and nothing that starts a piece touches
it. -/
theorem bang_iff {b : Bool} :
    bang.answer c place = some (b, place') ↔
      ∃ t, c.token? place = some t ∧
        ((¬ (c.wants false (among [.str]) t = true ∧ t.body = ['!']) ∧ b = false ∧
            place' = place) ∨
          ((c.wants false (among [.str]) t = true ∧ t.body = ['!']) ∧ ∃ u,
            c.token? t.after = some u ∧
            ((c.wants true (among (pieceStart c.inBackquote)) u = true ∧ b = false ∧
                place' = place) ∨
              (c.wants true (among (pieceStart c.inBackquote)) u = false ∧ b = true ∧
                place' = t.after)))) := by
  rw [answer_bang]
  cases c.token? place with
  | none => simp
  | some t =>
    have hcond : (c.wants false (among [.str]) t && t.body == ['!']) = true ↔
        c.wants false (among [.str]) t = true ∧ t.body = ['!'] := by
      simp [Bool.and_eq_true]
    simp only [Option.bind_some, Option.some.injEq, exists_eq_left', ← hcond]
    cases (c.wants false (among [.str]) t && t.body == ['!']) with
    | false => simp [answered, -Option.some.injEq]
    | true =>
      cases c.token? t.after with
      | none => simp
      | some u =>
        simp only [Option.some.injEq u, exists_eq_left', Option.bind_some]
        cases c.wants true (among (pieceStart c.inBackquote)) u with
        | false => simp [answered, -Option.some.injEq]
        | true => simp [answered, -Option.some.injEq]

/-- A name is taken with an assignment behind it, or neither is. -/
theorem target_iff {o : Option (Text × Text)} :
    target.answer c place = some (o, place') ↔
      ∃ t, c.token? place = some t ∧
        ((c.wants false (among [.ident]) t = false ∧ o = none ∧ place' = place) ∨
          (c.wants false (among [.ident]) t = true ∧ ∃ u, c.token? t.after = some u ∧
            ((c.wants false (among assignmentOps) u = false ∧ o = none ∧ place' = place) ∨
              (c.wants false (among assignmentOps) u = true ∧ o = some (t.body, u.body) ∧
                place' = u.after)))) := by
  rw [answer_target]
  cases c.token? place with
  | none => simp
  | some t =>
    simp only [Option.bind_some, Option.some.injEq, exists_eq_left']
    cases c.wants false (among [.ident]) t with
    | false => simp [answered, -Option.some.injEq]
    | true =>
      cases c.token? t.after with
      | none => simp
      | some u =>
        simp only [Option.some.injEq u, exists_eq_left', Option.bind_some]
        cases c.wants false (among assignmentOps) u with
        | false => simp [answered, -Option.some.injEq]
        | true => simp [answered, -Option.some.injEq]

end Query

section Leads
variable {below : Yielding}

theorem leads_next_some {kinds : List Kind} {l : Lexeme} :
    (Reader.next kinds).LeadsBy below c place (some l) place' ↔
      ∃ t, c.token? place = some t ∧ c.wants false (among kinds) t = true ∧ l = t.lexeme ∧
        place' = t.after :=
  leads_query.trans Query.take_some

theorem leads_next_none {kinds : List Kind} :
    (Reader.next kinds).LeadsBy below c place none place' ↔
      ∃ t, c.token? place = some t ∧ c.wants false (among kinds) t = false ∧ place' = place :=
  leads_query.trans Query.take_none

theorem leads_accept_some {shape : Shape} {body : Text} :
    (Reader.accept shape).LeadsBy below c place (some body) place' ↔
      ∃ t, c.mode.rules.takeAt shape.pattern shape.kind c.mode.allowBlank place = some t ∧
        body = t.body ∧ place' = t.after :=
  leads_query.trans Query.mark_some

theorem leads_accept_none {shape : Shape} :
    (Reader.accept shape).LeadsBy below c place none place' ↔
      c.mode.rules.takeAt shape.pattern shape.kind c.mode.allowBlank place = none ∧
        place' = place :=
  leads_query.trans Query.mark_none

/-- No operator is read where none stands. -/
theorem leads_operator_none {ch : Chain} :
    ch.operator.LeadsBy below c place none place' ↔
      ∃ t, c.token? place = some t ∧ c.wants false ch.wants t = false ∧ place' = place := by
  rw [Chain.operator, leads_bind]
  constructor
  · rintro ⟨o, place₁, htake, hrest⟩
    cases o with
    | none =>
      obtain ⟨t, ht, hwants, rfl⟩ := Query.take_none.mp (leads_query.mp htake)
      exact ⟨t, ht, hwants, hrest.2⟩
    | some op =>
      cases hcommand : ch.isCommand with
      | true =>
        simp only [hcommand, if_true] at hrest
        obtain ⟨_, _, _, hlast⟩ := leads_bind.mp hrest
        cases hlast.1
      | false =>
        simp only [hcommand, Bool.false_eq_true, if_false] at hrest
        cases hrest.1
  · rintro ⟨t, ht, hwants, rfl⟩
    exact ⟨none, _, leads_query.mpr (Query.take_none.mpr ⟨t, ht, hwants, rfl⟩), rfl, rfl⟩

/-- The entries of a list end at the closer, or where an entry is not terminated. -/
theorem leads_entries {closer : Closer} {es : List Node} :
    (Production.entries closer).body.LeadsBy below c place es place' ↔
      ∃ ns place₁ t, below c .newlines place ns place₁ ∧ c.token? place₁ = some t ∧
        ((c.wants false (among [closer.kind]) t = true ∧ es = [] ∧ place' = place₁) ∨
          (c.wants false (among [closer.kind]) t = false ∧ ∃ first place₂,
            below c .entry place₁ [first] place₂ ∧
            ((isTerminated first = true ∧ ∃ rest, below c (.entries closer) place₂ rest place' ∧
                es = first :: rest) ∨
              (isTerminated first = false ∧ es = [first] ∧ place' = place₂)))) := by
  rw [Production.body, leads_bind]
  constructor
  · rintro ⟨ns, place₁, hnewlines, h⟩
    obtain ⟨ended, place₂, hpeek, h⟩ := leads_bind.mp h
    obtain ⟨t, ht, hwants, rfl⟩ := Query.peek_iff.mp (leads_query.mp hpeek)
    refine ⟨ns, place₂, t, leads_all.mp hnewlines, ht, ?_⟩
    cases ended with
    | true => exact .inl ⟨hwants, h⟩
    | false =>
      rw [if_neg Bool.false_ne_true] at h
      obtain ⟨first, place₃, hentry, h⟩ := leads_bind.mp h
      refine .inr ⟨hwants, first, place₃, leads_one.mp hentry, ?_⟩
      cases hterminated : isTerminated first with
      | true =>
        rw [hterminated, if_pos rfl] at h
        obtain ⟨rest, place₄, hrest, rfl, rfl⟩ := leads_bind.mp h
        exact .inl ⟨rfl, rest, leads_all.mp hrest, rfl⟩
      | false =>
        rw [hterminated, if_neg Bool.false_ne_true] at h
        exact .inr ⟨rfl, h⟩
  · rintro ⟨ns, place₁, t, hnewlines, ht, h⟩
    refine ⟨ns, place₁, leads_all.mpr hnewlines, leads_bind.mpr ?_⟩
    obtain ⟨hwants, rfl, rfl⟩ | ⟨hwants, first, place₂, hentry, h⟩ := h
    · exact ⟨true, _, leads_query.mpr (Query.peek_iff.mpr ⟨t, ht, hwants, rfl⟩), rfl, rfl⟩
    · refine ⟨false, place₁, leads_query.mpr (Query.peek_iff.mpr ⟨t, ht, hwants, rfl⟩), ?_⟩
      rw [if_neg Bool.false_ne_true]
      refine leads_bind.mpr ⟨first, place₂, leads_one.mpr hentry, ?_⟩
      obtain ⟨hterminated, rest, hrest, rfl⟩ | ⟨hterminated, rfl, rfl⟩ := h
      · rw [hterminated, if_pos rfl]
        exact leads_bind.mpr ⟨rest, place', leads_all.mpr hrest, rfl, rfl⟩
      · rw [hterminated, if_neg Bool.false_ne_true]
        exact ⟨rfl, rfl⟩

end Leads

end ShellGrammar
