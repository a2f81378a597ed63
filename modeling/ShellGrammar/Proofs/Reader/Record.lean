import ShellGrammar.Proofs.Reader.Answers

/-! What productions take.

`Records` is `Parses` with a record: it says which tokens a production takes on its way from
one place to another, and in which context each of them is taken. There is one record for
whatever parses (`Parses.records`, `Records.functional`), and its tokens are laid end to end
(`Records.tiles`). -/
namespace ShellGrammar
open Grammar ParseM

/-- A token that was taken, and the context in which it was. -/
structure Taken where
  context : Context
  token : Token

namespace Taken

abbrev kind (x : Taken) : Kind := x.token.kind

abbrev rules (x : Taken) : Rules := x.context.mode.rules

end Taken

/-! ### What an answer takes -/

namespace Query
variable {c : Context} {β : Type} {q : Query β} {b b' : β} {place place' place'' : Scan}
  {ts ts' : List Token}

/-- In the context `c` a question is answered with `b` at a place. The answer takes the tokens
`ts` and leads to `place'`. -/
def Gives (c : Context) {β : Type} : Query β → Scan → β → List Token → Scan → Prop
  | take adjacent want, place, o, ts, place' => ∃ t, c.token? place = some t ∧
      ((c.wants adjacent (want c.inBackquote) t = true ∧ o = some t.lexeme ∧ ts = [t] ∧
          place' = t.after) ∨
        (c.wants adjacent (want c.inBackquote) t = false ∧ o = none ∧ ts = [] ∧ place' = place))
  | peek want, place, b, ts, place' => ∃ t, c.token? place = some t ∧
      b = c.wants false want t ∧ ts = [] ∧ place' = place
  | mark shape pastBlank, place, o, ts, place' =>
      (∃ t, c.mode.rules.takeAt shape.pattern shape.kind (pastBlank || c.mode.allowBlank) place =
          some t ∧ o = some t.body ∧ ts = [t] ∧ place' = t.after) ∨
        (c.mode.rules.takeAt shape.pattern shape.kind (pastBlank || c.mode.allowBlank) place =
          none ∧ o = none ∧ ts = [] ∧ place' = place)
  | close closing pastBlank, place, _, ts, place' => ∃ t,
      c.mode.rules.takeAt (.lit closing.text) closing.kind (pastBlank || c.mode.allowBlank) place =
        some t ∧ ts = [t] ∧ place' = t.after
  | bang, place, b, ts, place' => ∃ t, c.token? place = some t ∧
      ((¬ (c.wants false (among [.str]) t = true ∧ t.body = ['!']) ∧ b = false ∧ ts = [] ∧
          place' = place) ∨
        ((c.wants false (among [.str]) t = true ∧ t.body = ['!']) ∧ ∃ u,
          c.token? t.after = some u ∧
          ((c.wants true (among (pieceStart c.inBackquote)) u = true ∧ b = false ∧ ts = [] ∧
              place' = place) ∨
            (c.wants true (among (pieceStart c.inBackquote)) u = false ∧ b = true ∧ ts = [t] ∧
              place' = t.after))))
  | target, place, o, ts, place' => ∃ t, c.token? place = some t ∧
      ((c.wants false (among [.ident]) t = false ∧ o = none ∧ ts = [] ∧ place' = place) ∨
        (c.wants false (among [.ident]) t = true ∧ ∃ u, c.token? t.after = some u ∧
          ((c.wants false (among assignmentOps) u = false ∧ o = none ∧ ts = [] ∧
              place' = place) ∨
            (c.wants false (among assignmentOps) u = true ∧ o = some (t.body, u.body) ∧
              ts = [t, u] ∧ place' = u.after))))

theorem Gives.answer (h : q.Gives c place b ts place') : q.answer c place = some (b, place') := by
  cases q with
  | take adjacent want =>
    obtain ⟨t, ht, ⟨hwants, rfl, -, rfl⟩ | ⟨hwants, rfl, -, rfl⟩⟩ := h
    · exact take_some.mpr ⟨t, ht, hwants, rfl, rfl⟩
    · exact take_none.mpr ⟨t, ht, hwants, rfl⟩
  | peek want =>
    obtain ⟨t, ht, rfl, -, rfl⟩ := h
    exact peek_iff.mpr ⟨t, ht, rfl, rfl⟩
  | mark shape pastBlank =>
    obtain ⟨t, ht, rfl, -, rfl⟩ | ⟨ht, rfl, -, rfl⟩ := h
    · exact mark_some.mpr ⟨t, ht, rfl, rfl⟩
    · exact mark_none.mpr ⟨ht, rfl⟩
  | close closing pastBlank =>
    obtain ⟨t, ht, -, rfl⟩ := h
    exact close_iff.mpr ⟨t, ht, rfl⟩
  | bang =>
    obtain ⟨t, ht, ⟨hno, hb, -, hplace⟩ | ⟨hyes, u, hu, ⟨htouch, hb, -, hplace⟩ |
      ⟨htouch, hb, -, hplace⟩⟩⟩ := h
    · exact bang_iff.mpr ⟨t, ht, .inl ⟨hno, hb, hplace⟩⟩
    · exact bang_iff.mpr ⟨t, ht, .inr ⟨hyes, u, hu, .inl ⟨htouch, hb, hplace⟩⟩⟩
    · exact bang_iff.mpr ⟨t, ht, .inr ⟨hyes, u, hu, .inr ⟨htouch, hb, hplace⟩⟩⟩
  | target =>
    obtain ⟨t, ht, ⟨hno, ho, -, hplace⟩ | ⟨hyes, u, hu, ⟨hno, ho, -, hplace⟩ |
      ⟨hop, ho, -, hplace⟩⟩⟩ := h
    · exact target_iff.mpr ⟨t, ht, .inl ⟨hno, ho, hplace⟩⟩
    · exact target_iff.mpr ⟨t, ht, .inr ⟨hyes, u, hu, .inl ⟨hno, ho, hplace⟩⟩⟩
    · exact target_iff.mpr ⟨t, ht, .inr ⟨hyes, u, hu, .inr ⟨hop, ho, hplace⟩⟩⟩

/-- Every answer takes some tokens, or none. -/
theorem exists_gives (h : q.answer c place = some (b, place')) :
    ∃ ts, q.Gives c place b ts place' := by
  cases q with
  | take adjacent want =>
    cases b with
    | none =>
      obtain ⟨t, ht, hwants, hplace⟩ := take_none.mp h
      exact ⟨[], t, ht, .inr ⟨hwants, rfl, rfl, hplace⟩⟩
    | some l =>
      obtain ⟨t, ht, hwants, rfl, hplace⟩ := take_some.mp h
      exact ⟨[t], t, ht, .inl ⟨hwants, rfl, rfl, hplace⟩⟩
  | peek want =>
    obtain ⟨t, ht, hb, hplace⟩ := peek_iff.mp h
    exact ⟨[], t, ht, hb.symm, rfl, hplace⟩
  | mark shape pastBlank =>
    cases b with
    | none =>
      obtain ⟨ht, hplace⟩ := mark_none.mp h
      exact ⟨[], .inr ⟨ht, rfl, rfl, hplace⟩⟩
    | some body =>
      obtain ⟨t, ht, rfl, hplace⟩ := mark_some.mp h
      exact ⟨[t], .inl ⟨t, ht, rfl, rfl, hplace⟩⟩
  | close closing pastBlank =>
    obtain ⟨t, ht, hplace⟩ := close_iff.mp h
    exact ⟨[t], t, ht, rfl, hplace⟩
  | bang =>
    obtain ⟨t, ht, ⟨hno, hb, hplace⟩ | ⟨hyes, u, hu, ⟨htouch, hb, hplace⟩ |
      ⟨htouch, hb, hplace⟩⟩⟩ := bang_iff.mp h
    · exact ⟨[], t, ht, .inl ⟨hno, hb, rfl, hplace⟩⟩
    · exact ⟨[], t, ht, .inr ⟨hyes, u, hu, .inl ⟨htouch, hb, rfl, hplace⟩⟩⟩
    · exact ⟨[t], t, ht, .inr ⟨hyes, u, hu, .inr ⟨htouch, hb, rfl, hplace⟩⟩⟩
  | target =>
    obtain ⟨t, ht, ⟨hno, ho, hplace⟩ | ⟨hyes, u, hu, ⟨hno, ho, hplace⟩ |
      ⟨hop, ho, hplace⟩⟩⟩ := target_iff.mp h
    · exact ⟨[], t, ht, .inl ⟨hno, ho, rfl, hplace⟩⟩
    · exact ⟨[], t, ht, .inr ⟨hyes, u, hu, .inl ⟨hno, ho, rfl, hplace⟩⟩⟩
    · exact ⟨[t, u], t, ht, .inr ⟨hyes, u, hu, .inr ⟨hop, ho, rfl, hplace⟩⟩⟩

/-- What an answer takes is laid end to end. -/
theorem Gives.tiles (h : q.Gives c place b ts place') : Tiles place ts place' := by
  have htoken : ∀ {place : Scan} {t : Token}, c.token? place = some t →
      t.origin = place ∧ t.Fits :=
    fun ht => Rules.tokenAt_fits (Context.token?_eq_some.mp ht)
  cases q with
  | take adjacent want =>
    obtain ⟨t, ht, ⟨-, -, rfl, rfl⟩ | ⟨-, -, rfl, rfl⟩⟩ := h
    · exact ⟨(htoken ht).1, (htoken ht).2, rfl⟩
    · rfl
  | peek want =>
    obtain ⟨_, -, -, rfl, rfl⟩ := h
    rfl
  | mark shape pastBlank =>
    obtain ⟨t, ht, -, rfl, rfl⟩ | ⟨-, -, rfl, rfl⟩ := h
    · exact ⟨(Rules.takeAt_fits ht).1, (Rules.takeAt_fits ht).2, rfl⟩
    · rfl
  | close closing pastBlank =>
    obtain ⟨t, ht, rfl, rfl⟩ := h
    exact ⟨(Rules.takeAt_fits ht).1, (Rules.takeAt_fits ht).2, rfl⟩
  | bang =>
    obtain ⟨t, ht, ⟨-, -, rfl, rfl⟩ | ⟨-, u, -, ⟨-, -, rfl, rfl⟩ | ⟨-, -, rfl, rfl⟩⟩⟩ := h
    · rfl
    · rfl
    · exact ⟨(htoken ht).1, (htoken ht).2, rfl⟩
  | target =>
    obtain ⟨t, ht, ⟨-, -, rfl, rfl⟩ | ⟨-, u, hu, ⟨-, -, rfl, rfl⟩ | ⟨-, -, rfl, rfl⟩⟩⟩ := h
    · rfl
    · rfl
    · exact ⟨(htoken ht).1, (htoken ht).2, (htoken hu).1, (htoken hu).2, rfl⟩

/-- The answer and what it takes are determined by the place. -/
theorem Gives.unique (h : q.Gives c place b ts place') (h' : q.Gives c place b' ts' place'') :
    b' = b ∧ ts' = ts ∧ place'' = place' := by
  cases h.answer.symm.trans h'.answer
  refine ⟨rfl, ?_, rfl⟩
  cases q with
  | take adjacent want =>
    obtain ⟨t, ht, h⟩ := h
    obtain ⟨u, hu, h'⟩ := h'
    cases ht.symm.trans hu
    obtain ⟨-, rfl, rfl, -⟩ | ⟨-, rfl, rfl, -⟩ := h <;>
      obtain ⟨-, ho, rfl, -⟩ | ⟨-, ho, rfl, -⟩ := h' <;> first | rfl | cases ho
  | peek want =>
    obtain ⟨_, -, -, rfl, -⟩ := h
    obtain ⟨_, -, -, rfl, -⟩ := h'
    rfl
  | mark shape pastBlank =>
    obtain ⟨t, ht, -, rfl, -⟩ | ⟨ht, -, rfl, -⟩ := h <;>
      obtain ⟨u, hu, -, rfl, -⟩ | ⟨hu, -, rfl, -⟩ := h' <;> cases ht.symm.trans hu <;> rfl
  | close closing pastBlank =>
    obtain ⟨t, ht, rfl, -⟩ := h
    obtain ⟨u, hu, rfl, -⟩ := h'
    cases ht.symm.trans hu
    rfl
  | bang =>
    obtain ⟨t, ht, h⟩ := h
    obtain ⟨u, hu, h'⟩ := h'
    cases ht.symm.trans hu
    obtain ⟨-, rfl, rfl, -⟩ | ⟨-, _, -, ⟨-, rfl, rfl, -⟩ | ⟨-, rfl, rfl, -⟩⟩ := h <;>
      obtain ⟨-, hb, rfl, -⟩ | ⟨-, _, -, ⟨-, hb, rfl, -⟩ | ⟨-, hb, rfl, -⟩⟩ := h' <;>
      first | rfl | cases hb
  | target =>
    obtain ⟨t, ht, h⟩ := h
    obtain ⟨u, hu, h'⟩ := h'
    cases ht.symm.trans hu
    obtain ⟨-, rfl, rfl, -⟩ | ⟨-, v, hv, ⟨-, rfl, rfl, -⟩ | ⟨-, rfl, rfl, -⟩⟩ := h <;>
      obtain ⟨-, ho, rfl, -⟩ | ⟨-, w, hw, ⟨-, ho, rfl, -⟩ | ⟨-, ho, rfl, -⟩⟩ := h' <;>
      first | rfl | cases ho | (cases hv.symm.trans hw; rfl)

end Query

/-! ### Where readers lead -/

/-- What is put on record of a question and its answer. -/
class Log (ι : Type u) where
  note : {β : Type} → Context → Query β → β → List Token → List ι

/-- The tokens that are taken. -/
instance : Log Taken := ⟨fun c _ _ ts => ts.map (⟨c, ·⟩)⟩

/-- What productions yield from one place to another, and what they put on record. -/
abbrev Logging (ι : Type u) := Context → Production → Scan → List Node → List ι → Scan → Prop

/-- What productions yield and take from one place to another in a context. -/
abbrev Recording := Logging Taken

/-- In the context `c` a reader leads from a place to another with a result and a record,
where `below` says what the productions it calls yield and put on record. -/
def Reader.RecordsBy {ι : Type u} [Log ι] (below : Logging ι) (c : Context) {α : Type} :
    Reader α → Scan → α → List ι → Scan → Prop
  | .done a, place, a', xs, place' => a' = a ∧ xs = [] ∧ place' = place
  | .stop, _, _, _, _ => False
  | .ask q k, place, a, xs, place'' => ∃ b ts place' ys, q.Gives c place b ts place' ∧
      (k b).RecordsBy below c place' a ys place'' ∧ xs = Log.note c q b ts ++ ys
  | .call shift p k, place, a, xs, place'' => ∃ ns ws place' ys,
      below (c.shift shift) p place ns ws place' ∧
      (k ns).RecordsBy below c place' a ys place'' ∧ xs = ws ++ ys

section Laws
variable {ι : Type u} [Log ι] {below below' : Logging ι} {c : Context} {α β : Type} {m : Reader α}
  {place place' place'' : Scan} {a : α} {xs : List ι}

theorem Reader.RecordsBy.mono (h : m.RecordsBy below c place a xs place')
    (hbelow : ∀ c p place ns xs place', below c p place ns xs place' →
      below' c p place ns xs place') :
    m.RecordsBy below' c place a xs place' := by
  induction m generalizing place xs with
  | done b => exact h
  | stop => exact h
  | ask q k ih =>
    obtain ⟨b, ts, place₁, ys, hgives, hrest, rfl⟩ := h
    exact ⟨b, ts, place₁, ys, hgives, ih b hrest, rfl⟩
  | call shift p k ih =>
    obtain ⟨ns, ws, place₁, ys, hcall, hrest, rfl⟩ := h
    exact ⟨ns, ws, place₁, ys, hbelow _ _ _ _ _ _ hcall, ih ns hrest, rfl⟩

theorem records_bind {f : α → Reader β} {b : β} :
    (m >>= f).RecordsBy below c place b xs place'' ↔
      ∃ a ys place' zs, m.RecordsBy below c place a ys place' ∧
        (f a).RecordsBy below c place' b zs place'' ∧ xs = ys ++ zs := by
  show (m.bind f).RecordsBy below c place b xs place'' ↔ _
  induction m generalizing place xs with
  | done a =>
    constructor
    · intro h
      exact ⟨a, [], place, xs, ⟨rfl, rfl, rfl⟩, h, rfl⟩
    · rintro ⟨_, _, _, zs, ⟨rfl, rfl, rfl⟩, h, rfl⟩
      exact h
  | stop =>
    constructor
    · intro h
      exact h.elim
    · rintro ⟨_, _, _, _, h, _⟩
      exact h
  | ask q k ih =>
    constructor
    · rintro ⟨r, ts, place₁, ws, hgives, hrest, rfl⟩
      obtain ⟨a, ys, place', zs, hm, hf, rfl⟩ := (ih r).mp hrest
      exact ⟨a, _, place', zs, ⟨r, ts, place₁, ys, hgives, hm, rfl⟩, hf,
        (List.append_assoc ..).symm⟩
    · rintro ⟨a, _, place', zs, ⟨r, ts, place₁, ys, hgives, hm, rfl⟩, hf, rfl⟩
      exact ⟨r, ts, place₁, _, hgives, (ih r).mpr ⟨a, ys, place', zs, hm, hf, rfl⟩,
        List.append_assoc ..⟩
  | call shift p k ih =>
    constructor
    · rintro ⟨ns, us, place₁, ws, hcall, hrest, rfl⟩
      obtain ⟨a, ys, place', zs, hm, hf, rfl⟩ := (ih ns).mp hrest
      exact ⟨a, _, place', zs, ⟨ns, us, place₁, ys, hcall, hm, rfl⟩, hf,
        (List.append_assoc ..).symm⟩
    · rintro ⟨a, _, place', zs, ⟨ns, us, place₁, ys, hcall, hm, rfl⟩, hf, rfl⟩
      exact ⟨ns, us, place₁, _, hcall, (ih ns).mpr ⟨a, ys, place', zs, hm, hf, rfl⟩,
        List.append_assoc ..⟩

theorem records_pure {b : α} :
    (pure b : Reader α).RecordsBy below c place a xs place' ↔ a = b ∧ xs = [] ∧ place' = place :=
  Iff.rfl

theorem not_records_stop : ¬ (.stop : Reader α).RecordsBy below c place a xs place' := id

/-- A question and its answer. -/
theorem records_ask {q : Query α} :
    (Reader.ask q .done).RecordsBy below c place a xs place' ↔
      ∃ ts, q.Gives c place a ts place' ∧ xs = Log.note c q a ts := by
  constructor
  · rintro ⟨b, ts, place₁, ys, hgives, ⟨rfl, rfl, rfl⟩, rfl⟩
    exact ⟨ts, hgives, List.append_nil _⟩
  · rintro ⟨ts, hgives, rfl⟩
    exact ⟨a, ts, place', [], hgives, ⟨rfl, rfl, rfl⟩, (List.append_nil _).symm⟩

theorem records_all {shift : Shift} {p : Production} {ns : List Node} :
    (Reader.all shift p).RecordsBy below c place ns xs place' ↔
      below (c.shift shift) p place ns xs place' := by
  constructor
  · rintro ⟨ms, ws, place₁, ys, h, ⟨rfl, rfl, rfl⟩, rfl⟩
    rwa [List.append_nil]
  · intro h
    exact ⟨ns, xs, place', [], h, ⟨rfl, rfl, rfl⟩, (List.append_nil _).symm⟩

theorem records_one {shift : Shift} {p : Production} {n : Node} :
    (Reader.one shift p).RecordsBy below c place n xs place' ↔
      below (c.shift shift) p place [n] xs place' := by
  constructor
  · rintro ⟨ms, ws, place₁, ys, h, hrest, rfl⟩
    dsimp only at hrest
    split at hrest
    · obtain ⟨rfl, rfl, rfl⟩ := hrest
      rwa [List.append_nil]
    · exact hrest.elim
  · intro h
    exact ⟨[n], xs, place', [], h, ⟨rfl, rfl, rfl⟩, (List.append_nil _).symm⟩

theorem records_first? {shift : Shift} {p : Production} {o : Option Node} :
    (Reader.first? shift p).RecordsBy below c place o xs place' ↔
      ∃ ns, below (c.shift shift) p place ns xs place' ∧ o = ns.head? := by
  constructor
  · rintro ⟨ms, ws, place₁, ys, h, ⟨rfl, rfl, rfl⟩, rfl⟩
    exact ⟨ms, by rwa [List.append_nil], rfl⟩
  · rintro ⟨ms, h, rfl⟩
    exact ⟨ms, xs, place', [], h, ⟨rfl, rfl, rfl⟩, (List.append_nil _).symm⟩

theorem records_expect {kinds : List Kind} {l : Lexeme} :
    (Reader.expect kinds).RecordsBy below c place l xs place' ↔
      (Reader.next kinds).RecordsBy below c place (some l) xs place' := by
  rw [Reader.expect, records_bind]
  constructor
  · rintro ⟨o, ys, place₁, zs, h, hrest, rfl⟩
    cases o with
    | none => exact hrest.elim
    | some l =>
      obtain ⟨rfl, rfl, rfl⟩ := hrest
      rwa [List.append_nil]
  · intro h
    exact ⟨some l, xs, place', [], h, ⟨rfl, rfl, rfl⟩, (List.append_nil _).symm⟩

end Laws

/-! ### What productions take -/

/-- What productions yield and take when calls go at most so deep. -/
def records : Nat → Recording
  | 0 => fun _ _ _ _ _ _ => False
  | n + 1 => fun c p place ns xs place' => p.body.RecordsBy (records n) c place ns xs place'

/-- At some depth, a production yields some nodes and takes some tokens from one place to
another. -/
def Records (c : Context) (p : Production) (place : Scan) (ns : List Node) (xs : List Taken)
    (place' : Scan) : Prop :=
  ∃ n, records n c p place ns xs place'

/-- A reader leads from one place to another and takes some tokens. -/
abbrev Takes (c : Context) {α : Type} (m : Reader α) (place : Scan) (a : α) (xs : List Taken)
    (place' : Scan) : Prop :=
  m.RecordsBy Records c place a xs place'

section RecordsBy
variable {below below' : Recording} {c : Context} {α β : Type} {m : Reader α}
  {place place' place'' : Scan} {a a' : α} {xs ys : List Taken}

theorem records_step : ∀ {n : Nat} {c : Context} {p : Production} {place : Scan} {ns : List Node}
    {xs : List Taken} {place' : Scan}, records n c p place ns xs place' →
      records (n + 1) c p place ns xs place'
  | 0, _, _, _, _, _, _, h => h.elim
  | _ + 1, _, _, _, _, _, _, h => Reader.RecordsBy.mono h fun _ _ _ _ _ _ => records_step

theorem records_mono {n m : Nat} (hle : n ≤ m) {p : Production} {ns : List Node}
    (h : records n c p place ns xs place') : records m c p place ns xs place' := by
  induction hle with
  | refl => exact h
  | step _ ih => exact records_step ih

/-- A question and the tokens that its answer takes. -/
theorem records_query {q : Query α} :
    (Reader.ask q .done).RecordsBy below c place a xs place' ↔
      ∃ ts, q.Gives c place a ts place' ∧ xs = ts.map (⟨c, ·⟩) :=
  records_ask

/-- What a reader takes takes finitely many calls. -/
theorem Reader.RecordsBy.exists_depth (h : m.RecordsBy Records c place a xs place') :
    ∃ n, m.RecordsBy (records n) c place a xs place' := by
  induction m generalizing place xs with
  | done b => exact ⟨0, h⟩
  | stop => exact h.elim
  | ask q k ih =>
    obtain ⟨b, ts, place₁, ys, hgives, hrest, rfl⟩ := h
    obtain ⟨n, hn⟩ := ih b hrest
    exact ⟨n, b, ts, place₁, ys, hgives, hn, rfl⟩
  | call shift p k ih =>
    obtain ⟨ns, ws, place₁, ys, ⟨n, hcall⟩, hrest, rfl⟩ := h
    obtain ⟨n', hn'⟩ := ih ns hrest
    refine ⟨max n n', ns, ws, place₁, ys, records_mono (Nat.le_max_left n n') hcall, ?_, rfl⟩
    exact hn'.mono fun _ _ _ _ _ _ => records_mono (Nat.le_max_right n n')

/-- A production takes what its reader takes. -/
theorem records_iff {p : Production} {ns : List Node} :
    Records c p place ns xs place' ↔ p.body.RecordsBy Records c place ns xs place' := by
  constructor
  · rintro ⟨n, h⟩
    cases n with
    | zero => exact h.elim
    | succ n => exact h.mono fun _ _ _ _ _ _ h => ⟨n, h⟩
  · intro h
    obtain ⟨n, hn⟩ := h.exists_depth
    exact ⟨n + 1, hn⟩

/-- What holds of a production if it holds of the productions that it calls, holds of all. -/
theorem Records.induct {P : Recording}
    (step : ∀ {c : Context} {p : Production} {place : Scan} {ns : List Node} {xs : List Taken}
      {place' : Scan},
      p.body.RecordsBy (fun c p place ns xs place' => Records c p place ns xs place' ∧
        P c p place ns xs place') c place ns xs place' → P c p place ns xs place')
    {p : Production} {ns : List Node} (h : Records c p place ns xs place') :
    P c p place ns xs place' := by
  obtain ⟨n, h⟩ := h
  induction n generalizing c p place ns xs place' with
  | zero => exact h.elim
  | succ n ih => exact step (h.mono fun _ _ _ _ _ _ h => ⟨⟨n, h⟩, ih h⟩)

/-! ### One record for whatever parses -/

/-- A reader that takes something leads somewhere. -/
theorem Reader.RecordsBy.leads {yields : Yielding} (h : m.RecordsBy below c place a xs place')
    (hbelow : ∀ c p place ns xs place', below c p place ns xs place' →
      yields c p place ns place') :
    m.LeadsBy yields c place a place' := by
  induction m generalizing place xs with
  | done b => exact ⟨h.1, h.2.2⟩
  | stop => exact h.elim
  | ask q k ih =>
    obtain ⟨b, ts, place₁, ys, hgives, hrest, rfl⟩ := h
    exact ⟨b, place₁, hgives.answer, ih b hrest⟩
  | call shift p k ih =>
    obtain ⟨ns, ws, place₁, ys, hcall, hrest, rfl⟩ := h
    exact ⟨ns, place₁, hbelow _ _ _ _ _ _ hcall, ih ns hrest⟩

/-- A reader that leads somewhere takes something on the way. -/
theorem Reader.LeadsBy.records {yields : Yielding} (h : m.LeadsBy yields c place a place')
    (hyields : ∀ c p place ns place', yields c p place ns place' →
      ∃ xs, below c p place ns xs place') :
    ∃ xs, m.RecordsBy below c place a xs place' := by
  induction m generalizing place with
  | done b => exact ⟨[], h.1, rfl, h.2⟩
  | stop => exact h.elim
  | ask q k ih =>
    obtain ⟨b, place₁, hanswer, hrest⟩ := h
    obtain ⟨ts, hgives⟩ := Query.exists_gives hanswer
    obtain ⟨ys, hys⟩ := ih b hrest
    exact ⟨_, b, ts, place₁, ys, hgives, hys, rfl⟩
  | call shift p k ih =>
    obtain ⟨ns, place₁, hcall, hrest⟩ := h
    obtain ⟨ws, hws⟩ := hyields _ _ _ _ _ hcall
    obtain ⟨ys, hys⟩ := ih ns hrest
    exact ⟨_, ns, ws, place₁, ys, hws, hys, rfl⟩

theorem Records.parses {p : Production} {ns : List Node} (h : Records c p place ns xs place') :
    Parses c p place ns place' :=
  h.induct fun hbody => parses_iff.mpr (hbody.leads fun _ _ _ _ _ _ hcall => hcall.2)

theorem Parses.records {p : Production} {ns : List Node} (h : Parses c p place ns place') :
    ∃ xs, Records c p place ns xs place' := by
  refine h.induct (P := fun c p place ns place' => ∃ xs, Records c p place ns xs place')
    fun hbody => ?_
  obtain ⟨xs, hxs⟩ := hbody.records fun _ _ _ _ _ hcall => hcall.2
  exact ⟨xs, records_iff.mpr hxs⟩

/-- Productions yield one thing at a place, take the same tokens, and lead to one other. -/
def Recording.Functional (below : Recording) : Prop :=
  ∀ {c p place ns ns' xs xs' place' place''}, below c p place ns xs place' →
    below c p place ns' xs' place'' → ns' = ns ∧ xs' = xs ∧ place'' = place'

theorem Recording.Functional.reader (hbelow : below.Functional)
    (h : m.RecordsBy below c place a xs place') (h' : m.RecordsBy below c place a' ys place'') :
    a' = a ∧ ys = xs ∧ place'' = place' := by
  induction m generalizing place xs ys with
  | done b =>
    obtain ⟨rfl, rfl, rfl⟩ := h
    exact h'
  | stop => exact h.elim
  | ask q k ih =>
    obtain ⟨b, ts, place₁, us, hgives, hrest, rfl⟩ := h
    obtain ⟨b', ts', place₁', us', hgives', hrest', rfl⟩ := h'
    obtain ⟨rfl, rfl, rfl⟩ := hgives.unique hgives'
    obtain ⟨rfl, rfl, rfl⟩ := ih _ hrest hrest'
    exact ⟨rfl, rfl, rfl⟩
  | call shift p k ih =>
    obtain ⟨ns, ws, place₁, us, hcall, hrest, rfl⟩ := h
    obtain ⟨ns', ws', place₁', us', hcall', hrest', rfl⟩ := h'
    obtain ⟨rfl, rfl, rfl⟩ := hbelow hcall hcall'
    obtain ⟨rfl, rfl, rfl⟩ := ih _ hrest hrest'
    exact ⟨rfl, rfl, rfl⟩

theorem functional_records (n : Nat) : (ShellGrammar.records n).Functional := by
  induction n with
  | zero => exact fun h => h.elim
  | succ n ih => exact ih.reader

/-- Whatever is read, one record says what is taken. -/
theorem Records.functional : Recording.Functional Records := by
  rintro c p place ns ns' xs xs' place' place'' ⟨n, h⟩ ⟨n', h'⟩
  exact functional_records (max n n') (records_mono (Nat.le_max_left n n') h)
    (records_mono (Nat.le_max_right n n') h')

theorem Takes.unique (h : Takes c m place a xs place') (h' : Takes c m place a' ys place'') :
    a' = a ∧ ys = xs ∧ place'' = place' :=
  Records.functional.reader h h'

/-- The tokens that a reader takes are laid end to end, if those of its calls are. -/
theorem Reader.RecordsBy.tiles (h : m.RecordsBy below c place a xs place')
    (hbelow : ∀ c p place ns xs place', below c p place ns xs place' →
      Tiles place (xs.map Taken.token) place') :
    Tiles place (xs.map Taken.token) place' := by
  induction m generalizing place xs with
  | done b =>
    obtain ⟨-, rfl, rfl⟩ := h
    rfl
  | stop => exact h.elim
  | ask q k ih =>
    obtain ⟨b, ts, place₁, ys, hgives, hrest, rfl⟩ := h
    rw [List.map_append, tiles_append]
    refine ⟨place₁, ?_, ih b hrest⟩
    have htokens : (Log.note c q b ts : List Taken).map Taken.token = ts :=
      (List.map_map ..).trans (List.map_id ts)
    rw [htokens]
    exact hgives.tiles
  | call shift p k ih =>
    obtain ⟨ns, ws, place₁, ys, hcall, hrest, rfl⟩ := h
    rw [List.map_append, tiles_append]
    exact ⟨place₁, hbelow _ _ _ _ _ _ hcall, ih ns hrest⟩

theorem Records.tiles {p : Production} {ns : List Node} (h : Records c p place ns xs place') :
    Tiles place (xs.map Taken.token) place' :=
  h.induct (P := fun _ _ place _ xs place' => Tiles place (xs.map Taken.token) place')
    fun hbody => hbody.tiles fun _ _ _ _ _ _ hcall => hcall.2

end RecordsBy

end ShellGrammar
