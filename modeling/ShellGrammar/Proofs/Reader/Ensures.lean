import ShellGrammar.Proofs.Reader.Record

/-! What readers ensure.

A reader ensures what holds of every way in which it can lead somewhere. The laws take this
apart along the reader, so that what one production ensures is what they make of its row of
the table, and what all productions ensure follows by one induction (`Records.ensured`). -/
namespace ShellGrammar
open Grammar ParseM

/-- Whatever a reader leads to from a place, with what it puts on record, holds. -/
def Reader.Ensures {ι : Type u} [Log ι] (below : Logging ι) (c : Context) {α : Type} (m : Reader α)
    (place : Scan) (post : α → List ι → Scan → Prop) : Prop :=
  ∀ a xs place', m.RecordsBy below c place a xs place' → post a xs place'

section Laws
variable {ι : Type u} [Log ι] {below : Logging ι} {c : Context} {α β : Type} {m : Reader α}
  {place : Scan} {post : α → List ι → Scan → Prop}

theorem Reader.Ensures.mono {post' : α → List ι → Scan → Prop}
    (h : m.Ensures below c place post)
    (hpost : ∀ a xs place', post a xs place' → post' a xs place') :
    m.Ensures below c place post' :=
  fun a xs place' hm => hpost a xs place' (h a xs place' hm)

theorem ensures_done {a : α} : (.done a : Reader α).Ensures below c place post ↔ post a [] place := by
  constructor
  · intro h
    exact h a [] place ⟨rfl, rfl, rfl⟩
  · rintro h _ _ _ ⟨rfl, rfl, rfl⟩
    exact h

theorem ensures_pure {a : α} : (pure a : Reader α).Ensures below c place post ↔ post a [] place :=
  ensures_done

theorem ensures_stop : (.stop : Reader α).Ensures below c place post ↔ True :=
  ⟨fun _ => trivial, fun _ _ _ _ h => h.elim⟩

theorem ensures_bind {f : α → Reader β} {post : β → List ι → Scan → Prop} :
    (m >>= f).Ensures below c place post ↔
      m.Ensures below c place fun a xs place' => (f a).Ensures below c place' fun b ys place'' =>
        post b (xs ++ ys) place'' := by
  constructor
  · intro h a xs place' hm b ys place'' hf
    exact h b _ place'' (records_bind.mpr ⟨a, xs, place', ys, hm, hf, rfl⟩)
  · intro h b zs place'' hb
    obtain ⟨a, xs, place', ys, hm, hf, rfl⟩ := records_bind.mp hb
    exact h a xs place' hm b ys place'' hf

theorem ensures_ask {q : Query α} :
    (Reader.ask q .done).Ensures below c place post ↔
      ∀ b ts place', q.Gives c place b ts place' → post b (Log.note c q b ts) place' := by
  constructor
  · intro h b ts place' hgives
    exact h b _ place' (records_ask.mpr ⟨ts, hgives, rfl⟩)
  · intro h b xs place' hask
    obtain ⟨ts, hgives, rfl⟩ := records_ask.mp hask
    exact h b ts place' hgives

theorem ensures_all {shift : Shift} {p : Production} {post : List Node → List ι → Scan → Prop} :
    (Reader.all shift p).Ensures below c place post ↔
      ∀ ns xs place', below (c.shift shift) p place ns xs place' → post ns xs place' :=
  forall_congr' fun _ => forall_congr' fun _ => forall_congr' fun _ => by rw [records_all]

theorem ensures_one {shift : Shift} {p : Production} {post : Node → List ι → Scan → Prop} :
    (Reader.one shift p).Ensures below c place post ↔
      ∀ n xs place', below (c.shift shift) p place [n] xs place' → post n xs place' :=
  forall_congr' fun _ => forall_congr' fun _ => forall_congr' fun _ => by rw [records_one]

theorem ensures_first? {shift : Shift} {p : Production}
    {post : Option Node → List ι → Scan → Prop} :
    (Reader.first? shift p).Ensures below c place post ↔
      ∀ ns xs place', below (c.shift shift) p place ns xs place' → post ns.head? xs place' := by
  constructor
  · intro h ns xs place' hcall
    exact h _ xs place' (records_first?.mpr ⟨ns, hcall, rfl⟩)
  · intro h o xs place' hfirst
    obtain ⟨ns, hcall, rfl⟩ := records_first?.mp hfirst
    exact h ns xs place' hcall

end Laws

/-! ### Answers -/

section Ensures
variable {below : Recording} {c : Context} {α : Type} {place : Scan}
  {post : α → List Taken → Scan → Prop}

theorem ensures_query {q : Query α} :
    (Reader.ask q .done).Ensures below c place post ↔
      ∀ b ts place', q.Gives c place b ts place' → post b (ts.map (⟨c, ·⟩)) place' :=
  ensures_ask

theorem ensures_take {adjacent : Bool} {want : Bool → Kind → Bool}
    {post : Option Lexeme → List Taken → Scan → Prop} :
    (Reader.ask (.take adjacent want) .done).Ensures below c place post ↔
      ∀ t, c.token? place = some t →
        (c.wants adjacent (want c.inBackquote) t = false → post none [] place) ∧
        (c.wants adjacent (want c.inBackquote) t = true → post (some t.lexeme) [⟨c, t⟩] t.after) := by
  rw [ensures_query]
  constructor
  · intro h t ht
    exact ⟨fun hw => h none [] place ⟨t, ht, .inr ⟨hw, rfl, rfl, rfl⟩⟩,
      fun hw => h (some t.lexeme) [t] t.after ⟨t, ht, .inl ⟨hw, rfl, rfl, rfl⟩⟩⟩
  · rintro h b ts place' ⟨t, ht, ⟨hw, rfl, rfl, rfl⟩ | ⟨hw, rfl, rfl, rfl⟩⟩
    · exact (h t ht).2 hw
    · exact (h t ht).1 hw

theorem ensures_next {kinds : List Kind} {post : Option Lexeme → List Taken → Scan → Prop} :
    (Reader.next kinds).Ensures below c place post ↔
      ∀ t, c.token? place = some t →
        (c.wants false (among kinds) t = false → post none [] place) ∧
        (c.wants false (among kinds) t = true → post (some t.lexeme) [⟨c, t⟩] t.after) :=
  ensures_take

theorem ensures_expect {kinds : List Kind} {post : Lexeme → List Taken → Scan → Prop} :
    (Reader.expect kinds).Ensures below c place post ↔
      ∀ t, c.token? place = some t → c.wants false (among kinds) t = true →
        post t.lexeme [⟨c, t⟩] t.after := by
  constructor
  · intro h t ht hw
    exact h _ _ _ (records_expect.mpr (records_query.mpr ⟨[t], ⟨t, ht, .inl ⟨hw, rfl, rfl, rfl⟩⟩,
      rfl⟩))
  · intro h l xs place' hl
    obtain ⟨ts, ⟨t, ht, ⟨hw, hsome, rfl, rfl⟩ | ⟨-, hnone, -⟩⟩, rfl⟩ :=
      records_query.mp (records_expect.mp hl)
    · cases hsome
      exact h t ht hw
    · cases hnone

theorem ensures_peek {kinds : List Kind} {post : Bool → List Taken → Scan → Prop} :
    (Reader.peek kinds).Ensures below c place post ↔
      ∀ t, c.token? place = some t → post (c.wants false (among kinds) t) [] place := by
  rw [Reader.peek, ensures_query]
  constructor
  · intro h t ht
    exact h _ [] place ⟨t, ht, rfl, rfl, rfl⟩
  · rintro h b ts place' ⟨t, ht, rfl, rfl, rfl⟩
    exact h t ht

theorem ensures_mark {shape : Shape} {pastBlank : Bool}
    {post : Option Text → List Taken → Scan → Prop} :
    (Reader.ask (.mark shape pastBlank) .done).Ensures below c place post ↔
      (c.mode.rules.takeAt shape.pattern shape.kind (pastBlank || c.mode.allowBlank) place = none →
        post none [] place) ∧
      ∀ t, c.mode.rules.takeAt shape.pattern shape.kind (pastBlank || c.mode.allowBlank) place =
        some t → post (some t.body) [⟨c, t⟩] t.after := by
  rw [ensures_query]
  constructor
  · intro h
    exact ⟨fun ht => h none [] place (.inr ⟨ht, rfl, rfl, rfl⟩),
      fun t ht => h (some t.body) [t] t.after (.inl ⟨t, ht, rfl, rfl, rfl⟩)⟩
  · rintro ⟨hnone, hsome⟩ b ts place' (⟨t, ht, rfl, rfl, rfl⟩ | ⟨ht, rfl, rfl, rfl⟩)
    · exact hsome t ht
    · exact hnone ht

theorem ensures_close {closing : Closing} {pastBlank : Bool}
    {post : Unit → List Taken → Scan → Prop} :
    (Reader.close closing pastBlank).Ensures below c place post ↔
      ∀ t, c.mode.rules.takeAt (.lit closing.text) closing.kind (pastBlank || c.mode.allowBlank)
        place = some t → post () [⟨c, t⟩] t.after := by
  rw [Reader.close, ensures_query]
  constructor
  · intro h t ht
    exact h () [t] t.after ⟨t, ht, rfl, rfl⟩
  · rintro h _ ts place' ⟨t, ht, rfl, rfl⟩
    exact h t ht

end Ensures

/-! ### All productions -/

/-- What every production ensures if those that it calls do, all of them ensure. -/
theorem Records.ensured {P : Recording}
    (step : ∀ (c : Context) (p : Production) (place : Scan),
      p.body.Ensures (fun c p place ns xs place' => Records c p place ns xs place' ∧
        P c p place ns xs place') c place (P c p place))
    {c : Context} {p : Production} {place place' : Scan} {ns : List Node} {xs : List Taken}
    (h : Records c p place ns xs place') : P c p place ns xs place' :=
  h.induct fun hbody => step _ _ _ _ _ _ hbody

end ShellGrammar
