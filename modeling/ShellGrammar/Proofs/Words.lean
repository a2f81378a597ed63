import ShellGrammar.Proofs.Contract
import ShellGrammar.Proofs.Reader.Script
import ShellGrammar.Proofs.Reader.Single
import ShellGrammar.Proofs.Reader.Spots
import ShellGrammar.Proofs.Rules.Reblank

/-! Blank alone says where words end.

A word is read up to a place where no piece touches what was read (`Stops`). Whatever is read from
there on has blank in front of it, whether it is a word or the head of an assignment: that text
would have been one more piece. An assignment ends at such a place too, as its value is a word that
has to touch the `=`, or is missing because none does. So the assignments and words of a simple
command are told apart by blank, and within each of them there is none (`IsCommand`). -/
namespace ShellGrammar
open Grammar ParseM Reader

/-! ### Readings -/

namespace Reading

/-- There is blank in front of the first token. -/
def Spaced (r : Reading) : Prop := ∃ t ∈ r.tokens.head?, t.blank ≠ []

/-- There is no blank in front of the first token. -/
def Touching (r : Reading) : Prop := ∃ t ∈ r.tokens.head?, t.blank = []

/-- The first token can start a piece of a word. -/
def StartsPiece (inBackquote : Bool) (r : Reading) : Prop :=
  ∃ t ∈ r.tokens.head?, t.kind ∈ pieceStart inBackquote

/-- The token behind the last one has blank in front of it, or cannot start a piece. -/
def EndsWord (inBackquote : Bool) (r : Reading) : Prop :=
  ∃ t ∈ r.tokens.getLast?, ∃ u, Rules.command.tokenAt t.after = .ok u ∧
    (u.blank = [] → u.kind ∉ pieceStart inBackquote)

/-- From the first token on, the text starts with the name of a variable and `=`. -/
def StartsAssignment (r : Reading) : Prop :=
  ∃ t ∈ r.tokens.head?, ∃ name, Text.isVariableName name = true ∧
    name ++ ['='] <+: t.body ++ t.after.rest

end Reading

/-- A word is made of as many pieces as touch one another. -/
structure IsWordOf (c : Context) (first : Reading) (rest : List Reading) (w : Reading) :
    Prop where
  node : w.node = if rest.isEmpty then first.node else .concat ((first :: rest).map Reading.node)
  tokens : w.tokens = (first :: rest).flatMap Reading.tokens
  reads : first.Of c (.piece false) ∧ ∀ r ∈ rest, r.Of c (.piece true)
  starts : ∀ r ∈ first :: rest, r.StartsPiece c.inBackquote
  touching : ∀ r ∈ rest, r.Touching
  ends : w.EndsWord c.inBackquote

def IsWord (c : Context) (w : Reading) : Prop := ∃ first rest, IsWordOf c first rest w

/-- An assignment is a name and `=` in one token, and a word that touches it or none. -/
structure IsAssignOf (c : Context) (head : Token) (value : Option Reading) (a : Reading) :
    Prop where
  name : head.kind = .assignHead ∧
    ∃ name, Text.isVariableName name = true ∧ head.body = name ++ ['=']
  node : a.node = .assign head.body.dropLast (value.map Reading.node)
  tokens : a.tokens = head :: value.elim [] Reading.tokens
  touching : ∀ w ∈ value, w.Touching ∧ IsWord (c.under .command false) w
  ends : a.EndsWord c.inBackquote

def IsAssign (c : Context) (a : Reading) : Prop := ∃ head value, IsAssignOf c head value a

/-- Assignments and words with blank between them, as many assignments as there are in front. -/
structure IsCommandOf (c : Context) (assigns words : List Reading) (r : Reading) : Prop where
  node : r.node = .simpleCommand (assigns.map Reading.node) (words.map Reading.node)
  tokens : r.tokens = (assigns ++ words).flatMap Reading.tokens
  isAssign : ∀ a ∈ assigns, IsAssign c a
  isWord : ∀ w ∈ words, IsWord c w
  spaced : ∀ r ∈ (assigns ++ words).tail, r.Spaced
  maximal : ∀ w ∈ words.head?, ¬ w.StartsAssignment

def IsCommand (c : Context) (r : Reading) : Prop := ∃ assigns words, IsCommandOf c assigns words r

/-! ### Rows -/

/-- What is read one after another, from one place to another. -/
def Row (step : Scan → Reading → Scan → Prop) : Scan → List Reading → Scan → Prop
  | place, [], place' => place = place'
  | place, r :: rs, place'' => ∃ place', step place r place' ∧ Row step place' rs place''

section Row
variable {step step' : Scan → Reading → Scan → Prop} {place place' : Scan} {rs : List Reading}

theorem Row.forall (h : Row step place rs place') {P : Reading → Prop}
    (hstep : ∀ a r b, step a r b → P r) : ∀ r ∈ rs, P r := by
  induction rs generalizing place with
  | nil => exact List.forall_mem_nil _
  | cons r rs ih =>
    obtain ⟨place₁, hr, hrs⟩ := h
    exact List.forall_mem_cons.mpr ⟨hstep _ _ _ hr, ih hrs⟩

/-- What holds of places where something was read holds of the last of them. -/
theorem Row.last (h : Row step place rs place') {S : Scan → Prop}
    (hstep : ∀ a r b, step a r b → S b) (hstart : rs = [] → S place) : S place' := by
  induction rs generalizing place with
  | nil => exact h ▸ hstart rfl
  | cons r rs ih =>
    obtain ⟨place₁, hr, hrs⟩ := h
    exact ih hrs fun _ => hstep _ _ _ hr

/-- What is read from places where something was read. -/
theorem Row.tail (h : Row step place rs place') {S : Scan → Prop} {P : Reading → Prop}
    (hstep : ∀ a r b, step a r b → S b) (hP : ∀ a r b, S a → step a r b → P r) :
    (∀ r ∈ rs.tail, P r) ∧ (S place → ∀ r ∈ rs, P r) := by
  induction rs generalizing place with
  | nil => exact ⟨List.forall_mem_nil _, fun _ => List.forall_mem_nil _⟩
  | cons r rs ih =>
    obtain ⟨place₁, hr, hrs⟩ := h
    have hrest := (ih hrs).2 (hstep _ _ _ hr)
    exact ⟨hrest, fun hplace => List.forall_mem_cons.mpr ⟨hP _ _ _ hplace hr, hrest⟩⟩

end Row

section Readings
variable {c : Context} {p : Production} {place place' : Scan} {n : Node} {ns : List Node}
  {xs : List Taken}

/-- Any number of times, a production reads what it reads once, up to where it reads nothing. -/
theorem Records.row (h : Records c (.many p) place ns xs place')
    (step : Scan → Reading → Scan → Prop)
    (hone : ∀ {place n ns xs place'}, Records c p place (n :: ns) xs place' →
      step place ⟨n, xs.map Taken.token⟩ place') :
    ∃ rs place₁ ys, Row step place rs place₁ ∧ Records c p place₁ [] ys place' ∧
      rs.map Reading.node = ns ∧ rs.flatMap Reading.tokens ++ ys.map Taken.token =
        xs.map Taken.token := by
  induction ns generalizing place xs with
  | nil =>
    obtain ⟨o, ys, place₁, zs, hfirst, hrest, rfl⟩ := records_bind.mp (records_iff.mp h)
    obtain ⟨ms, hms, rfl⟩ := records_first?.mp hfirst
    cases ms with
    | nil =>
      obtain ⟨-, rfl, rfl⟩ := records_pure.mp hrest
      exact ⟨[], place, ys, rfl, hms, rfl, by simp⟩
    | cons m ms =>
      obtain ⟨_, _, _, _, -, ⟨heq, -, -⟩, -⟩ := records_bind.mp hrest
      cases heq
  | cons n ns ih =>
    obtain ⟨o, ys, place₁, zs, hfirst, hrest, rfl⟩ := records_bind.mp (records_iff.mp h)
    obtain ⟨ms, hms, rfl⟩ := records_first?.mp hfirst
    cases ms with
    | nil => cases (records_pure.mp hrest).1
    | cons m ms =>
      obtain ⟨rest, us, place₂, vs, hall, hdone, rfl⟩ := records_bind.mp hrest
      obtain ⟨heq, rfl, rfl⟩ := records_pure.mp hdone
      cases heq
      obtain ⟨rs, place₃, ws, hrow, hend, hnodes, htokens⟩ := ih (records_all.mp hall)
      refine ⟨_ :: rs, place₃, ws, ⟨place₁, hone hms, hrow⟩, hend, congrArg (n :: ·) hnodes, ?_⟩
      rw [List.flatMap_cons, List.append_assoc, htokens, List.append_nil, List.map_append]

/-! ### Pieces and words -/

/-- Behind a place no piece of a word touches it. -/
def Stops (c : Context) (place : Scan) : Prop :=
  ∃ u, c.token? place = some u ∧ (u.blank = [] → u.kind ∉ pieceStart c.inBackquote)

theorem among_pieceStart {inBackquote : Bool} {kind : Kind} :
    among (pieceStart inBackquote) kind = true ↔ kind ∈ pieceStart inBackquote := by
  cases inBackquote <;> simp [among, pieceStart]

/-- Where no piece is read, the text stops or what comes has blank in front of it. -/
theorem Records.piece_nil {adjacent : Bool} (h : Records c (.piece adjacent) place [] xs place') :
    xs = [] ∧ place' = place ∧ Stops c place := by
  obtain ⟨o, ys, place₁, zs, htake, hrest, rfl⟩ := records_bind.mp (records_iff.mp h)
  obtain ⟨ts, ⟨t, ht, ⟨-, rfl, rfl, rfl⟩ | ⟨hwants, rfl, rfl, rfl⟩⟩, rfl⟩ :=
    records_query.mp htake
  · obtain ⟨n, hn⟩ := Parses.pieceRest_one (hrest.leads fun _ _ _ _ _ _ hcall => hcall.parses)
    cases hn
  · obtain ⟨-, rfl, rfl⟩ := records_pure.mp hrest
    refine ⟨rfl, rfl, t, ht, fun hblank hkind => ?_⟩
    have hwanted : c.wants adjacent (among (pieceStart c.inBackquote)) t = true :=
      Context.wants_iff.mpr ⟨among_pieceStart.mpr hkind, .inr hblank⟩
    rw [hwanted] at hwants
    cases hwants

/-- What is known of the first token of a piece, and of a word. -/
structure Leading (c : Context) (place : Scan) (xs : List Taken) (t : Token) : Prop where
  token : c.token? place = some t
  head : t ∈ (xs.map Taken.token).head?
  kind : t.kind ∈ pieceStart c.inBackquote

/-- A piece is one node, and starts with a token that can start pieces. -/
theorem Records.piece_cons {adjacent : Bool}
    (h : Records c (.piece adjacent) place (n :: ns) xs place') :
    ns = [] ∧ ∃ t, Leading c place xs t ∧
      (adjacent = true ∨ c.mode.allowBlank = false → t.blank = []) := by
  obtain ⟨o, ys, place₁, zs, htake, hrest, rfl⟩ := records_bind.mp (records_iff.mp h)
  obtain ⟨ts, ⟨t, ht, ⟨hwants, rfl, rfl, rfl⟩ | ⟨-, rfl, rfl, rfl⟩⟩, rfl⟩ :=
    records_query.mp htake
  · obtain ⟨m, hm⟩ := Parses.pieceRest_one (hrest.leads fun _ _ _ _ _ _ hcall => hcall.parses)
    obtain ⟨hkind, hblank⟩ := Context.wants_iff.mp hwants
    refine ⟨(List.cons.inj hm).2, t, ⟨ht, rfl, among_pieceStart.mp hkind⟩, fun hno => ?_⟩
    refine hblank.resolve_left fun hyes => ?_
    rcases hno with hno | hno
    · cases hno.symm.trans hyes.1
    · cases hno.symm.trans hyes.2
  · cases (records_pure.mp hrest).1

theorem Leading.append {t : Token} (h : Leading c place xs t) (ys : List Taken) :
    Leading c place (xs ++ ys) t := by
  refine ⟨h.token, ?_, h.kind⟩
  rw [List.map_append, List.head?_append, Option.mem_def.mp h.head]
  rfl

/-- What leads to a place where no piece touches it ends there. -/
theorem Stops.endsWord (h : Stops c place') (hrules : c.mode.rules = .command)
    (htiles : Tiles place (xs.map Taken.token) place') {t : Token}
    (ht : t ∈ (xs.map Taken.token).head?) :
    Reading.EndsWord c.inBackquote ⟨n, xs.map Taken.token⟩ := by
  obtain ⟨u, hu, hstops⟩ := h
  obtain ⟨ts, hts⟩ := List.head?_eq_some_iff.mp ht
  have hlast := List.getLast?_eq_some_getLast (hts ▸ List.cons_ne_nil t ts)
  refine ⟨_, hlast, u, ?_, hstops⟩
  have hafter := htiles.end_eq
  rw [hlast, Option.map_some, Option.getD_some] at hafter
  rw [← hrules, ← hafter]
  exact Context.token?_eq_some.mp hu

/-- Where no word is read, the text stops or what comes has blank in front of it. -/
theorem Records.word_nil (h : Records c .word place [] xs place') :
    xs = [] ∧ place' = place ∧ Stops c place := by
  obtain ⟨o, ys, place₁, zs, hfirst, hrest, rfl⟩ := records_bind.mp (records_iff.mp h)
  obtain ⟨ms, hms, rfl⟩ := records_first?.mp hfirst
  cases ms with
  | nil =>
    obtain ⟨-, rfl, rfl⟩ := records_pure.mp hrest
    obtain ⟨rfl, rfl, hstops⟩ := hms.piece_nil
    exact ⟨rfl, rfl, hstops⟩
  | cons m ms =>
    obtain ⟨_, _, _, _, -, ⟨heq, -, -⟩, -⟩ := records_bind.mp hrest
    cases heq

/-- A word is one node, and goes on to a place where no piece touches it. -/
theorem Records.word_cons (h : Records c .word place (n :: ns) xs place')
    (hrules : c.mode.rules = .command) :
    ns = [] ∧ Stops c place' ∧ IsWord c ⟨n, xs.map Taken.token⟩ ∧ ∃ t, Leading c place xs t ∧
      (c.mode.allowBlank = false → t.blank = []) := by
  have htiles := h.tiles
  obtain ⟨o, ys, place₁, zs, hfirst, hrest, rfl⟩ := records_bind.mp (records_iff.mp h)
  obtain ⟨ms, hms, rfl⟩ := records_first?.mp hfirst
  cases ms with
  | nil => cases (records_pure.mp hrest).1
  | cons m ms =>
    obtain ⟨nodes, us, place₂, vs, hall, hdone, rfl⟩ := records_bind.mp hrest
    obtain ⟨heq, rfl, rfl⟩ := records_pure.mp hdone
    obtain ⟨rfl, rfl⟩ := List.cons.inj heq
    obtain ⟨rfl, t, hleading, hblank⟩ := hms.piece_cons
    -- The pieces behind the first one.
    obtain ⟨rest, place₃, ws, hrow, hend, rfl, htokens⟩ := (records_all.mp hall).row
      (fun _ r _ => r.Of c (.piece true) ∧ r.StartsPiece c.inBackquote ∧ r.Touching)
      fun {start n ns ys stop} hpiece => by
        obtain ⟨rfl, u, hu, hublank⟩ := hpiece.piece_cons
        exact ⟨⟨start, ys, stop, hpiece, rfl⟩, ⟨u, hu.head, hu.kind⟩, u, hu.head,
          hublank (.inl rfl)⟩
    obtain ⟨rfl, rfl, hstops⟩ := hend.piece_nil
    rw [List.map_nil, List.append_nil] at htokens
    have hhead := hleading.append (us ++ [])
    refine ⟨rfl, hstops, ⟨⟨m, ys.map Taken.token⟩, rest, ?_⟩, t, hhead,
      fun hno => hblank (.inr hno)⟩
    exact {
      node := by rw [List.isEmpty_map]; rfl
      tokens := by simp only [List.flatMap_cons, List.map_append, List.append_nil, htokens]
      reads := ⟨⟨place, ys, place₁, hms, rfl⟩, hrow.forall fun _ _ _ hr => hr.1⟩
      starts := List.forall_mem_cons.mpr
        ⟨⟨t, hleading.head, hleading.kind⟩, hrow.forall fun _ _ _ hr => hr.2.1⟩
      touching := hrow.forall fun _ _ _ hr => hr.2.2
      ends := hstops.endsWord hrules htiles hhead.head }

/-! ### Blank -/

/-- A word that starts where no piece touches has blank in front of it. -/
theorem Leading.spaced {t : Token} (h : Leading c place xs t) (hstops : Stops c place) :
    Reading.Spaced ⟨n, xs.map Taken.token⟩ := by
  obtain ⟨u, hu, hblank⟩ := hstops
  obtain rfl := Option.some.inj (hu.symm.trans h.token)
  exact ⟨u, h.head, fun hnone => hblank hnone h.kind⟩

/-- So does the head of an assignment: the text that it starts with could be a piece, too. -/
theorem Stops.blank_ne_nil {allowBlank : Bool} {t : Token} (hstops : Stops c place)
    (hrules : c.mode.rules = .command)
    (ht : c.mode.rules.takeAt assignHead .assignHead allowBlank place = some t) :
    t.blank ≠ [] := by
  rw [hrules] at ht
  obtain ⟨x, _, hbody, hname, -⟩ := (Rules.takeAt_matches ht).2.of_seq
  obtain ⟨length, -, rfl⟩ := Rules.takeAt_cases ht
  obtain ⟨ch, more, hx, hch⟩ := Text.exists_cons_of_name hname.of_variableName
  have hfront : (place.rest.drop (Rules.command.blankLength place.rest)).head? = some ch := by
    have hcut : (place.rest.drop (Rules.command.blankLength place.rest)).take length =
        x ++ _ := hbody
    rw [← List.take_append_drop length (place.rest.drop _), hcut, hx]
    rfl
  obtain ⟨v, hv, hkind, hblank, -⟩ := Rules.tokenAt_name hch hfront
  obtain ⟨u, hu, hno⟩ := hstops
  rw [Context.token?_eq_some, hrules, hv] at hu
  cases hu
  intro hnone
  refine hno (hblank.trans hnone) ?_
  rw [hkind]
  cases c.inBackquote <;> decide

/-! ### Assignments -/

/-- Where no assignment is read, none starts. -/
theorem Records.assign_nil (h : Records c .assign place [] xs place') :
    xs = [] ∧ place' = place ∧ NoAssignment c place := by
  obtain ⟨o, ys, place₁, zs, haccept, hrest, rfl⟩ := records_bind.mp (records_iff.mp h)
  obtain ⟨ts, ⟨t, ht, rfl, rfl, rfl⟩ | ⟨ht, rfl, rfl, rfl⟩, rfl⟩ := records_query.mp haccept
  · obtain ⟨_, _, _, _, -, ⟨heq, -, -⟩, -⟩ := records_bind.mp hrest
    cases heq
  · obtain ⟨-, rfl, rfl⟩ := records_pure.mp hrest
    exact ⟨rfl, rfl, ht⟩

theorem Stops.of_under {allowBlank : Bool} (h : Stops (c.under .command allowBlank) place)
    (hrules : c.mode.rules = .command) : Stops c place := by
  obtain ⟨u, hu, hblank⟩ := h
  refine ⟨u, ?_, hblank⟩
  rw [Context.token?_eq_some, hrules]
  exact Context.token?_eq_some.mp hu

/-- An assignment is one node, and goes on to a place where no piece touches it. -/
theorem Records.assign_cons (h : Records c .assign place (n :: ns) xs place')
    (hrules : c.mode.rules = .command) :
    ns = [] ∧ Stops c place' ∧ IsAssign c ⟨n, xs.map Taken.token⟩ ∧
      (Stops c place → Reading.Spaced ⟨n, xs.map Taken.token⟩) := by
  have htiles := h.tiles
  obtain ⟨o, ys, place₁, zs, haccept, hrest, rfl⟩ := records_bind.mp (records_iff.mp h)
  obtain ⟨ts, ⟨t, ht, rfl, rfl, rfl⟩ | ⟨-, rfl, rfl, rfl⟩, rfl⟩ := records_query.mp haccept
  · obtain ⟨value, us, place₂, vs, hvalue, hdone, rfl⟩ := records_bind.mp hrest
    obtain ⟨heq, rfl, rfl⟩ := records_pure.mp hdone
    obtain ⟨rfl, rfl⟩ := List.cons.inj heq
    obtain ⟨ms, hms, rfl⟩ := records_first?.mp hvalue
    rw [List.append_nil] at htiles ⊢
    refine ⟨rfl, ?_⟩
    have hspaced : Stops c place → Reading.Spaced ⟨.assign t.body.dropLast ms.head?,
        t :: us.map Taken.token⟩ := fun hstops => ⟨t, rfl, hstops.blank_ne_nil hrules ht⟩
    have hname : t.kind = .assignHead ∧ ∃ name, Text.isVariableName name = true ∧
        t.body = name ++ ['='] := by
      obtain ⟨hkind, hmatches⟩ := Rules.takeAt_matches ht
      obtain ⟨name, _, hbody, hname, heq⟩ := hmatches.of_seq
      exact ⟨hkind, name, hname.of_variableName, hbody.trans (heq.of_lit ▸ rfl)⟩
    cases ms with
    | nil =>
      obtain ⟨rfl, rfl, hstops⟩ := hms.word_nil
      have hstops := hstops.of_under hrules
      exact ⟨hstops, ⟨t, none, hname, rfl, rfl, by rintro _ ⟨⟩,
        hstops.endsWord hrules htiles rfl⟩, hspaced⟩
    | cons w ms =>
      obtain ⟨rfl, hstops, hword, u, hleading, hblank⟩ := hms.word_cons rfl
      have hstops := hstops.of_under hrules
      refine ⟨hstops, ⟨t, some ⟨w, us.map Taken.token⟩, hname, rfl, rfl, ?_,
        hstops.endsWord hrules htiles rfl⟩, hspaced⟩
      rintro _ ⟨⟩
      exact ⟨⟨u, hleading.head, hblank rfl⟩, hword⟩
  · cases (records_pure.mp hrest).1

/-! ### Commands -/

/-- In a list of commands, blank alone tells assignments and words apart. -/
theorem Records.isCommand (h : Records c .command place [n] xs place') (hmode : c.mode = .base) :
    IsCommand c ⟨n, xs.map Taken.token⟩ := by
  have hrules : c.mode.rules = .command := congrArg Mode.rules hmode
  obtain ⟨as, bs, ys, zs, place₁, hassigns, hwords, rfl, hnode, -⟩ := h.command_cases
  obtain ⟨assigns, place₂, us, hrow, hend, rfl, hytokens⟩ := hassigns.row
    (fun start r stop => Stops c stop ∧ IsAssign c r ∧ (Stops c start → r.Spaced))
    fun hassign => (hassign.assign_cons hrules).2
  obtain ⟨rfl, rfl, hno⟩ := hend.assign_nil
  obtain ⟨words, place₃, vs, hrow', hend', rfl, hztokens⟩ := hwords.row
    (fun start r stop => Stops c stop ∧ IsWord c r ∧ (Stops c start → r.Spaced) ∧
      (NoAssignment c start → ¬ r.StartsAssignment))
    fun hword => by
      obtain ⟨-, hstops, hisWord, t, hleading, -⟩ := hword.word_cons hrules
      refine ⟨hstops, hisWord, hleading.spaced, ?_⟩
      rintro hno ⟨u, hu, name, hname, hstarts⟩
      obtain rfl := Option.mem_unique hleading.head hu
      have hallow : c.mode.allowBlank = true := congrArg Mode.allowBlank hmode
      have hwants : c.wants false (among (pieceStart c.inBackquote)) t = true :=
        Context.wants_iff.mpr ⟨among_pieceStart.mpr hleading.kind, .inl ⟨rfl, hallow⟩⟩
      exact Contracted.not_head_of_noAssignment hno hleading.token hwants hname hstarts
  obtain ⟨rfl, rfl, -⟩ := hend'.word_nil
  simp only [List.map_nil, List.append_nil] at hytokens hztokens
  have hbehind := hrow.tail (fun _ _ _ hr => hr.1) fun _ _ _ hstart hr => hr.2.2 hstart
  have hbehind' := hrow'.tail (fun _ _ _ hr => hr.1) fun _ _ _ hstart hr => hr.2.2.1 hstart
  exact ⟨assigns, words, {
    node := List.singleton_inj.mp hnode
    tokens := by rw [List.flatMap_append, hytokens, hztokens, List.map_append]
    isAssign := hrow.forall fun _ _ _ hr => hr.2.1
    isWord := hrow'.forall fun _ _ _ hr => hr.2.1
    spaced := by
      cases assigns with
      | nil => exact hbehind'.1
      | cons a assigns =>
        have hstops : Stops c place₁ := hrow.last (fun _ _ _ hr => hr.1) fun hnil =>
          absurd hnil (List.cons_ne_nil a assigns)
        exact List.forall_mem_append.mpr ⟨hbehind.1, hbehind'.2 hstops⟩
    maximal := by
      cases words with
      | nil => simp
      | cons w words =>
        obtain ⟨_, hr, -⟩ := hrow'
        rintro _ ⟨⟩
        exact hr.2.2.2 hno }⟩

end Readings

/-! ### Runs -/

/-- The simple commands of a tree in pre-order are read from tokens one behind the other, each from
further on than the one before it, and in each of them blank alone tells assignments and words
apart. -/
theorem run_words {options : Options} {source : Text} {tree : Node} {s : ParseState}
    (h : run options source = .ok tree s) :
    ∃ commands : List (Nat × Reading),
      commands.map (fun x => x.2.node) = tree.preorder.filter Node.isSimpleCommand ∧
      commands.Pairwise (fun x y => x.1 < y.1) ∧
      ∀ x ∈ commands, x.2.tokens <+: s.lexer.consumed.drop x.1 ∧
        ∃ c, c.mode = .base ∧ x.2.Of c .command ∧ IsCommand c x.2 := by
  obtain ⟨xs, hrecords, hconsumed⟩ := run_records (run_unlimited h)
  obtain ⟨spots, hspots, hsub⟩ := hrecords.spotted trivial fun _ => rfl
  rw [List.flatMap_singleton] at hsub
  obtain ⟨commands, hcommands, hnodes⟩ := List.sublist_map_iff.mp hsub
  refine ⟨commands, hnodes.symm, hspots.ordered.sublist hcommands, fun x hx => ?_⟩
  obtain ⟨hfront, c, hmode, hof⟩ := hspots.spot x (hcommands.subset hx)
  refine ⟨hconsumed ▸ hfront, c, hmode, hof, ?_⟩
  obtain ⟨place, ys, place', hcall, htokens⟩ := hof
  have hcommand := hcall.isCommand hmode
  rwa [htokens] at hcommand

/-- The two simple commands of `a=b c= "d"$(f g)`, where the space takes the value from `c`. -/
theorem run_words_nested :
    let inner := Node.simpleCommand [] [.str ['f'], .str ['g']]
    let list := Node.list [.pipelines (.pipeline false inner) none]
    let outer := Node.simpleCommand [.assign ['a'] (some (.str ['b'])), .assign ['c'] none]
      [.concat [.doubleQuoted [.str ['d']], .commandSubst ['$', '('] list]]
    ∃ s, run ⟨0⟩ ['a', '=', 'b', ' ', 'c', '=', ' ', '"', 'd', '"', '$', '(', 'f', ' ', 'g', ')'] =
        .ok (.list [.pipelines (.pipeline false outer) none]) s ∧
      ∃ commands : List (Nat × Reading), commands.map (fun x => x.2.node) = [outer, inner] ∧
        commands.Pairwise (fun x y => x.1 < y.1) ∧
        ∀ x ∈ commands, x.2.tokens <+: s.lexer.consumed.drop x.1 ∧
          ∃ c, c.mode = .base ∧ x.2.Of c .command ∧ IsCommand c x.2 := by
  intro inner list outer
  have hparse : (parse ⟨0⟩ ['a', '=', 'b', ' ', 'c', '=', ' ', '"', 'd', '"', '$', '(', 'f', ' ',
      'g', ')']).toOption = some (.list [.pipelines (.pipeline false outer) none]) := by
    decide +kernel
  obtain ⟨s, hs⟩ := parse_eq_ok_iff.mp (parse_of_toOption hparse)
  have hfilter : (Node.list [.pipelines (.pipeline false outer) none]).preorder.filter
      Node.isSimpleCommand = [outer, inner] := by decide +kernel
  exact ⟨s, hs, hfilter ▸ run_words hs⟩

end ShellGrammar
