import ShellGrammar.Proofs.Reader.Record

/-! Logs: what is asked of a text, and what the text answers.

`Records` keeps the tokens that a production takes on its way. A log keeps every question with
its answer, and with a log at hand the text can be left out of account: `Logs` says which nodes
come with a log, whatever the text. A text has these nodes if the answers of the log are those
given along it (`Guides`), so whether another text has the same tree is a matter of going
through the questions of a log one by one, and no production is looked at.

What one question needs to be answered alike elsewhere may depend on what is asked and taken
later. `Reader.Meets` goes through a reader backward: in front of a rest of a log that satisfies
one condition, whatever the reader asks makes a log that satisfies another. What all productions
meet follows by one induction (`Logs.met`). -/
namespace ShellGrammar
open Grammar ParseM

/-- A question, the context in which it is asked, its answer, and the tokens that the answer
takes. -/
structure Asked where
  context : Context
  {β : Type}
  query : Query β
  answer : β
  tokens : List Token

namespace Asked

/-- The tokens that the answer takes, with the context. -/
def taken (a : Asked) : List Taken := a.tokens.map (⟨a.context, ·⟩)

end Asked

/-- The tokens that the answers of a log take. -/
def takenIn (as : List Asked) : List Taken := as.flatMap Asked.taken

@[simp] theorem takenIn_nil : takenIn [] = [] := rfl

@[simp] theorem takenIn_cons (a : Asked) (as : List Asked) :
    takenIn (a :: as) = a.taken ++ takenIn as := List.flatMap_cons

@[simp] theorem takenIn_append (as bs : List Asked) : takenIn (as ++ bs) = takenIn as ++ takenIn bs :=
  List.flatMap_append

/-! ### The answers of a text -/

/-- Along a text, these questions have these answers, which lead from one place to another. -/
def Guides : List Asked → Scan → Scan → Prop
  | [], place, place' => place' = place
  | a :: as, place, place' =>
    ∃ place₁, a.query.answer a.context place = some (a.answer, place₁) ∧ Guides as place₁ place'

theorem guides_append {as bs : List Asked} {place place' : Scan} :
    Guides (as ++ bs) place place' ↔ ∃ place₁, Guides as place place₁ ∧ Guides bs place₁ place' := by
  induction as generalizing place with
  | nil =>
    constructor
    · intro h
      exact ⟨place, rfl, h⟩
    · rintro ⟨_, rfl, h⟩
      exact h
  | cons a as ih =>
    constructor
    · rintro ⟨place₁, hanswer, hrest⟩
      obtain ⟨place₂, hfirst, hsecond⟩ := ih.mp hrest
      exact ⟨place₂, ⟨place₁, hanswer, hfirst⟩, hsecond⟩
    · rintro ⟨place₂, ⟨place₁, hanswer, hfirst⟩, hsecond⟩
      exact ⟨place₁, hanswer, ih.mpr ⟨place₂, hfirst, hsecond⟩⟩

/-- As `Guides`, and the answers take the tokens of the log. -/
def Answered : List Asked → Scan → Scan → Prop
  | [], place, place' => place' = place
  | a :: as, place, place' =>
    ∃ place₁, a.query.Gives a.context place a.answer a.tokens place₁ ∧ Answered as place₁ place'

theorem answered_append {as bs : List Asked} {place place' : Scan} :
    Answered (as ++ bs) place place' ↔
      ∃ place₁, Answered as place place₁ ∧ Answered bs place₁ place' := by
  induction as generalizing place with
  | nil =>
    constructor
    · intro h
      exact ⟨place, rfl, h⟩
    · rintro ⟨_, rfl, h⟩
      exact h
  | cons a as ih =>
    constructor
    · rintro ⟨place₁, hgives, hrest⟩
      obtain ⟨place₂, hfirst, hsecond⟩ := ih.mp hrest
      exact ⟨place₂, ⟨place₁, hgives, hfirst⟩, hsecond⟩
    · rintro ⟨place₂, ⟨place₁, hgives, hfirst⟩, hsecond⟩
      exact ⟨place₁, hgives, ih.mpr ⟨place₂, hfirst, hsecond⟩⟩

/-- What the answers take is laid end to end. -/
theorem Answered.tiles {as : List Asked} {place place' : Scan} (h : Answered as place place') :
    Tiles place ((takenIn as).map Taken.token) place' := by
  induction as generalizing place with
  | nil => exact Eq.symm h
  | cons a as ih =>
    obtain ⟨place₁, hgives, hrest⟩ := h
    have htokens : a.taken.map Taken.token = a.tokens := (List.map_map ..).trans (List.map_id _)
    rw [takenIn_cons, List.map_append, tiles_append, htokens]
    exact ⟨place₁, hgives.tiles, ih hrest⟩

/-! ### The questions of readers -/

/-- What productions yield, with what is asked and answered. -/
abbrev Admitting := Context → Production → List Node → List Asked → Prop

/-- With these questions and answers a reader ends with a result, where `below` says the same of
the productions that it calls. -/
def Reader.Admits (below : Admitting) (c : Context) {α : Type} : Reader α → α → List Asked → Prop
  | .done a, a', as => a' = a ∧ as = []
  | .stop, _, _ => False
  | .ask q k, a, as => ∃ b ts bs, (k b).Admits below c a bs ∧ as = ⟨c, q, b, ts⟩ :: bs
  | .call shift p k, a, as => ∃ ns xs ys, below (c.shift shift) p ns xs ∧
      (k ns).Admits below c a ys ∧ as = xs ++ ys

section Admits
variable {below below' : Admitting} {c : Context} {α β : Type} {m : Reader α} {a : α}
  {as : List Asked} {place place' : Scan}

theorem Reader.Admits.mono (h : m.Admits below c a as)
    (hbelow : ∀ c p ns as, below c p ns as → below' c p ns as) : m.Admits below' c a as := by
  induction m generalizing as with
  | done b => exact h
  | stop => exact h
  | ask q k ih =>
    obtain ⟨b, ts, bs, hrest, rfl⟩ := h
    exact ⟨b, ts, bs, ih b hrest, rfl⟩
  | call shift p k ih =>
    obtain ⟨ns, xs, ys, hcall, hrest, rfl⟩ := h
    exact ⟨ns, xs, ys, hbelow _ _ _ _ hcall, ih ns hrest, rfl⟩

theorem admits_bind {f : α → Reader β} {b : β} :
    (m >>= f).Admits below c b as ↔
      ∃ a xs ys, m.Admits below c a xs ∧ (f a).Admits below c b ys ∧ as = xs ++ ys := by
  show (m.bind f).Admits below c b as ↔ _
  induction m generalizing as with
  | done a =>
    constructor
    · intro h
      exact ⟨a, [], as, ⟨rfl, rfl⟩, h, rfl⟩
    · rintro ⟨_, _, ys, ⟨rfl, rfl⟩, h, rfl⟩
      exact h
  | stop =>
    constructor
    · intro h
      exact h.elim
    · rintro ⟨_, _, _, h, _⟩
      exact h
  | ask q k ih =>
    constructor
    · rintro ⟨r, ts, bs, hrest, rfl⟩
      obtain ⟨a, xs, ys, hm, hf, rfl⟩ := (ih r).mp hrest
      exact ⟨a, _, ys, ⟨r, ts, xs, hm, rfl⟩, hf, rfl⟩
    · rintro ⟨a, _, ys, ⟨r, ts, xs, hm, rfl⟩, hf, rfl⟩
      exact ⟨r, ts, _, (ih r).mpr ⟨a, xs, ys, hm, hf, rfl⟩, rfl⟩
  | call shift p k ih =>
    constructor
    · rintro ⟨ns, us, ws, hcall, hrest, rfl⟩
      obtain ⟨a, xs, ys, hm, hf, rfl⟩ := (ih ns).mp hrest
      exact ⟨a, _, ys, ⟨ns, us, xs, hcall, hm, rfl⟩, hf, (List.append_assoc ..).symm⟩
    · rintro ⟨a, _, ys, ⟨ns, us, xs, hcall, hm, rfl⟩, hf, rfl⟩
      exact ⟨ns, us, _, hcall, (ih ns).mpr ⟨a, xs, ys, hm, hf, rfl⟩, List.append_assoc ..⟩

/-- A reader that leads somewhere asks something on the way. -/
theorem Reader.LeadsBy.admits {yields : Yielding} (h : m.LeadsBy yields c place a place')
    (hyields : ∀ c p place ns place', yields c p place ns place' →
      ∃ as, below c p ns as ∧ Answered as place place') :
    ∃ as, m.Admits below c a as ∧ Answered as place place' := by
  induction m generalizing place with
  | done b => exact ⟨[], ⟨h.1, rfl⟩, h.2⟩
  | stop => exact h.elim
  | ask q k ih =>
    obtain ⟨b, place₁, hanswer, hrest⟩ := h
    obtain ⟨ts, hgives⟩ := Query.exists_gives hanswer
    obtain ⟨bs, hadmits, hanswered⟩ := ih b hrest
    exact ⟨_, ⟨b, ts, bs, hadmits, rfl⟩, place₁, hgives, hanswered⟩
  | call shift p k ih =>
    obtain ⟨ns, place₁, hcall, hrest⟩ := h
    obtain ⟨xs, hxs, hfirst⟩ := hyields _ _ _ _ _ hcall
    obtain ⟨ys, hadmits, hanswered⟩ := ih ns hrest
    exact ⟨_, ⟨ns, xs, ys, hxs, hadmits, rfl⟩, answered_append.mpr ⟨place₁, hfirst, hanswered⟩⟩

/-- Along a text that answers so, a reader takes what the answers take. -/
theorem Reader.Admits.records {recording : Recording} (h : m.Admits below c a as)
    (hanswered : Answered as place place')
    (hbelow : ∀ c p place ns as place', below c p ns as → Answered as place place' →
      recording c p place ns (takenIn as) place') :
    m.RecordsBy recording c place a (takenIn as) place' := by
  induction m generalizing place as with
  | done b =>
    obtain ⟨rfl, rfl⟩ := h
    exact ⟨rfl, rfl, hanswered⟩
  | stop => exact h.elim
  | ask q k ih =>
    obtain ⟨b, ts, bs, hrest, rfl⟩ := h
    obtain ⟨place₁, hgives, hanswered⟩ := hanswered
    exact ⟨b, ts, place₁, _, hgives, ih b hrest hanswered, takenIn_cons ..⟩
  | call shift p k ih =>
    obtain ⟨ns, xs, ys, hcall, hrest, rfl⟩ := h
    obtain ⟨place₁, hfirst, hsecond⟩ := answered_append.mp hanswered
    exact ⟨ns, _, place₁, _, hbelow _ _ _ _ _ _ hcall hfirst, ih ns hrest hsecond, takenIn_append ..⟩

/-- Along a text with these answers, a reader leads where they lead. -/
theorem Reader.Admits.leads {yields : Yielding} (h : m.Admits below c a as)
    (hguides : Guides as place place')
    (hbelow : ∀ c p place ns as place', below c p ns as → Guides as place place' →
      yields c p place ns place') :
    m.LeadsBy yields c place a place' := by
  induction m generalizing place as with
  | done b =>
    obtain ⟨rfl, rfl⟩ := h
    exact ⟨rfl, hguides⟩
  | stop => exact h.elim
  | ask q k ih =>
    obtain ⟨b, ts, bs, hrest, rfl⟩ := h
    obtain ⟨place₁, hanswer, hguides⟩ := hguides
    exact ⟨b, place₁, hanswer, ih b hrest hguides⟩
  | call shift p k ih =>
    obtain ⟨ns, xs, ys, hcall, hrest, rfl⟩ := h
    obtain ⟨place₁, hfirst, hsecond⟩ := guides_append.mp hguides
    exact ⟨ns, place₁, hbelow _ _ _ _ _ _ hcall hfirst, ih ns hrest hsecond⟩

/-! Small readers. -/

theorem admits_query {q : Query α} :
    (Reader.ask q .done).Admits below c a as ↔ ∃ ts, as = [⟨c, q, a, ts⟩] := by
  constructor
  · rintro ⟨b, ts, bs, ⟨rfl, rfl⟩, rfl⟩
    exact ⟨ts, rfl⟩
  · rintro ⟨ts, rfl⟩
    exact ⟨a, ts, [], ⟨rfl, rfl⟩, rfl⟩

theorem admits_all {shift : Shift} {p : Production} {ns : List Node} :
    (Reader.all shift p).Admits below c ns as ↔ below (c.shift shift) p ns as := by
  constructor
  · rintro ⟨ms, xs, ys, h, ⟨rfl, rfl⟩, rfl⟩
    rwa [List.append_nil]
  · intro h
    exact ⟨ns, as, [], h, ⟨rfl, rfl⟩, (List.append_nil _).symm⟩

end Admits

/-! ### The logs of productions -/

/-- What productions yield with a log when calls go at most so deep. -/
def logs : Nat → Admitting
  | 0 => fun _ _ _ _ => False
  | n + 1 => fun c p ns as => p.body.Admits (logs n) c ns as

/-- At some depth, a production yields some nodes with a log. -/
def Logs (c : Context) (p : Production) (ns : List Node) (as : List Asked) : Prop :=
  ∃ n, logs n c p ns as

section Logs
variable {c : Context} {p : Production} {ns : List Node} {as : List Asked} {place place' : Scan}

theorem logs_step : ∀ {n : Nat} {c : Context} {p : Production} {ns : List Node} {as : List Asked},
    logs n c p ns as → logs (n + 1) c p ns as
  | 0, _, _, _, _, h => h.elim
  | _ + 1, _, _, _, _, h => Reader.Admits.mono h fun _ _ _ _ => logs_step

theorem logs_mono {n m : Nat} (hle : n ≤ m) (h : logs n c p ns as) : logs m c p ns as := by
  induction hle with
  | refl => exact h
  | step _ ih => exact logs_step ih

theorem Reader.Admits.exists_depth {α : Type} {m : Reader α} {a : α} (h : m.Admits Logs c a as) :
    ∃ n, m.Admits (logs n) c a as := by
  induction m generalizing as with
  | done b => exact ⟨0, h⟩
  | stop => exact h.elim
  | ask q k ih =>
    obtain ⟨b, ts, bs, hrest, rfl⟩ := h
    obtain ⟨n, hn⟩ := ih b hrest
    exact ⟨n, b, ts, bs, hn, rfl⟩
  | call shift p k ih =>
    obtain ⟨ns, xs, ys, ⟨n, hcall⟩, hrest, rfl⟩ := h
    obtain ⟨n', hn'⟩ := ih ns hrest
    refine ⟨max n n', ns, xs, ys, logs_mono (Nat.le_max_left n n') hcall, ?_, rfl⟩
    exact hn'.mono fun _ _ _ _ => logs_mono (Nat.le_max_right n n')

/-- The log of a production is that of its reader. -/
theorem logs_iff : Logs c p ns as ↔ p.body.Admits Logs c ns as := by
  constructor
  · rintro ⟨n, h⟩
    cases n with
    | zero => exact h.elim
    | succ n => exact h.mono fun _ _ _ _ h => ⟨n, h⟩
  · intro h
    obtain ⟨n, hn⟩ := h.exists_depth
    exact ⟨n + 1, hn⟩

/-- What holds of a production if it holds of the productions that it calls, holds of all. -/
theorem Logs.induct {P : Admitting}
    (step : ∀ {c : Context} {p : Production} {ns : List Node} {as : List Asked},
      p.body.Admits (fun c p ns as => Logs c p ns as ∧ P c p ns as) c ns as → P c p ns as)
    (h : Logs c p ns as) : P c p ns as := by
  obtain ⟨n, h⟩ := h
  induction n generalizing c p ns as with
  | zero => exact h.elim
  | succ n ih => exact step (h.mono fun _ _ _ _ h => ⟨⟨n, h⟩, ih h⟩)

/-- Along a text that answers so, a production takes what the answers take. -/
theorem Logs.records (h : Logs c p ns as) (hanswered : Answered as place place') :
    Records c p place ns (takenIn as) place' := by
  revert place place' hanswered
  refine h.induct (P := fun c p ns as => ∀ {place place' : Scan}, Answered as place place' →
    Records c p place ns (takenIn as) place') fun hbody _ _ hanswered => ?_
  exact records_iff.mpr (hbody.records hanswered fun _ _ _ _ _ _ hcall hfirst => hcall.2 hfirst)

/-- Along a text with these answers, a production yields what comes with them. -/
theorem Logs.parses (h : Logs c p ns as) (hguides : Guides as place place') :
    Parses c p place ns place' := by
  revert place place' hguides
  refine h.induct (P := fun c p ns as => ∀ {place place' : Scan}, Guides as place place' →
    Parses c p place ns place') fun hbody _ _ hguides => ?_
  exact parses_iff.mpr (hbody.leads hguides fun _ _ _ _ _ _ hcall hfirst => hcall.2 hfirst)

/-- What a production yields comes with a log of the answers along the text. -/
theorem Parses.logs (h : Parses c p place ns place') :
    ∃ as, Logs c p ns as ∧ Answered as place place' := by
  refine h.induct (P := fun c p place ns place' => ∃ as, Logs c p ns as ∧ Answered as place place')
    fun hbody => ?_
  obtain ⟨as, hadmits, hanswered⟩ := hbody.admits fun _ _ _ _ _ hcall => hcall.2
  exact ⟨as, logs_iff.mpr hadmits, hanswered⟩

/-- What is taken along the text is what the answers of some log take. -/
theorem Records.logs {xs : List Taken} (h : Records c p place ns xs place') :
    ∃ as, Logs c p ns as ∧ Answered as place place' ∧ takenIn as = xs := by
  obtain ⟨as, hlogs, hanswered⟩ := h.parses.logs
  obtain ⟨-, hsame, -⟩ := h.functional (hlogs.records hanswered)
  exact ⟨as, hlogs, hanswered, hsame⟩

end Logs

/-! ### What is ahead in a log -/

/-- What can be said of the rest of a log. -/
abbrev Outlook := List Asked → Prop

/-- In front of a rest that satisfies `post`, whatever a reader asks along a text makes a log
that satisfies `pre`. -/
def Reader.Meets (below : Admitting) (c : Context) {α : Type} (m : Reader α) (post : α → Outlook)
    (pre : Outlook) : Prop :=
  ∀ a as place place', m.Admits below c a as → Answered as place place' →
    ∀ rest, post a rest → pre (as ++ rest)

/-- What productions make of the rest of a log: where one of them `suits` a context, it turns what
satisfies `post` into what satisfies `pre`. -/
structure Contract where
  suits : Context → Production → Prop
  post : Context → Production → List Node → Outlook
  pre : Context → Production → Outlook

/-- What the productions of a log make of its rest. -/
def Contract.Kept (C : Contract) : Admitting := fun c p ns as => Logs c p ns as ∧
  ∀ place place', Answered as place place' → C.suits c p → ∀ rest, C.post c p ns rest →
    C.pre c p (as ++ rest)

section Meets
variable {below : Admitting} {c : Context} {α β : Type} {m : Reader α} {post post' : α → Outlook}
  {pre pre' : Outlook}

theorem Reader.Meets.mono (h : m.Meets below c post pre) (hpost : ∀ a rest, post' a rest → post a rest)
    (hpre : ∀ rest, pre rest → pre' rest) : m.Meets below c post' pre' :=
  fun a as place place' hm hanswered rest hrest =>
    hpre _ (h a as place place' hm hanswered rest (hpost a rest hrest))

theorem meets_pure {a : α} (h : ∀ rest, post a rest → pre rest) :
    (pure a : Reader α).Meets below c post pre := by
  rintro _ _ place place' ⟨rfl, rfl⟩ - rest hrest
  exact h rest hrest

theorem meets_stop : (.stop : Reader α).Meets below c post pre :=
  fun _ _ _ _ h => h.elim

/-- What stands between two readers is what the second meets. -/
theorem meets_bind {f : α → Reader β} {post : β → Outlook} (mid : α → Outlook)
    (hm : m.Meets below c mid pre) (hf : ∀ a, (f a).Meets below c post (mid a)) :
    (m >>= f).Meets below c post pre := by
  intro b as place place' hb hanswered rest hrest
  obtain ⟨a, xs, ys, hadmits, hsecond, rfl⟩ := admits_bind.mp hb
  obtain ⟨place₁, hfirst, hlast⟩ := answered_append.mp hanswered
  rw [List.append_assoc]
  exact hm a xs place place₁ hadmits hfirst _ (hf a b ys place₁ place' hsecond hlast rest hrest)

theorem meets_query {q : Query α} (h : ∀ b ts place place', q.Gives c place b ts place' →
    ∀ rest, post b rest → pre (⟨c, q, b, ts⟩ :: rest)) :
    (Reader.ask q .done).Meets below c post pre := by
  intro b as place place' hask hanswered rest hrest
  obtain ⟨ts, rfl⟩ := admits_query.mp hask
  obtain ⟨place₁, hgives, -⟩ := hanswered
  exact h b ts place place₁ hgives rest hrest

theorem meets_all {shift : Shift} {p : Production} {post : List Node → Outlook} {C : Contract}
    (hsuits : C.suits (c.shift shift) p)
    (hpost : ∀ ns rest, post ns rest → C.post (c.shift shift) p ns rest)
    (hpre : ∀ rest, C.pre (c.shift shift) p rest → pre rest) :
    (Reader.all shift p).Meets C.Kept c post pre := by
  intro ns as place place' hcall hanswered rest hrest
  exact hpre _ ((admits_all.mp hcall).2 place place' hanswered hsuits rest (hpost ns rest hrest))

theorem meets_first? {shift : Shift} {p : Production} {post : Option Node → Outlook} {C : Contract}
    (hsuits : C.suits (c.shift shift) p)
    (hpost : ∀ ns rest, post ns.head? rest → C.post (c.shift shift) p ns rest)
    (hpre : ∀ rest, C.pre (c.shift shift) p rest → pre rest) :
    (Reader.first? shift p).Meets C.Kept c post pre :=
  meets_bind (fun ns => C.post (c.shift shift) p ns)
    (meets_all hsuits (fun _ _ h => h) hpre) fun ns => meets_pure fun rest => hpost ns rest

theorem meets_one {shift : Shift} {p : Production} {post : Node → Outlook} {C : Contract}
    (hsuits : C.suits (c.shift shift) p)
    (hpost : ∀ n rest, post n rest → C.post (c.shift shift) p [n] rest)
    (hpre : ∀ rest, C.pre (c.shift shift) p rest → pre rest) :
    (Reader.one shift p).Meets C.Kept c post pre := by
  refine meets_bind (m := Reader.all shift p) (fun ns => C.post (c.shift shift) p ns)
    (meets_all hsuits (fun _ _ h => h) hpre) fun ns => ?_
  match ns with
  | [n] => exact meets_pure fun rest => hpost n rest
  | [] | _ :: _ :: _ => exact meets_stop

end Meets

/-- What the bodies of all productions meet, all productions make of the rest of a log. -/
theorem Logs.met {C : Contract}
    (step : ∀ c p, C.suits c p → p.body.Meets C.Kept c (C.post c p) (C.pre c p))
    {c : Context} {p : Production} {ns : List Node} {as : List Asked} {place place' : Scan}
    (h : Logs c p ns as) (hanswered : Answered as place place') (hsuits : C.suits c p)
    {rest : List Asked} (hrest : C.post c p ns rest) : C.pre c p (as ++ rest) := by
  refine h.induct (P := fun c p ns as => ∀ place place', Answered as place place' → C.suits c p →
    ∀ rest, C.post c p ns rest → C.pre c p (as ++ rest)) ?_ place place' hanswered hsuits rest hrest
  intro c p ns as hbody place place' hanswered hsuits rest hrest
  exact step c p hsuits ns as place place' hbody hanswered rest hrest

end ShellGrammar
