import ShellGrammar.Proofs.Log.Heeded
import ShellGrammar.Proofs.Reader.Single
import ShellGrammar.Proofs.Reader.Spots

/-! What is asked, and taken, behind what separates commands.

Behind what opens a list, behind an operator between commands and behind a terminal, the question
that is asked next is for a newline that can be skipped. Where there is none, what is taken next
separates nothing. Both are about the log of a whole script, since what follows a terminal is not
asked by the production that takes it (`Logs.orderly`). -/
namespace ShellGrammar
open Grammar ParseM Reader

/-! ### Separators -/

/-- What stands between commands: operators and terminals. -/
def separators : List Kind := [.semi, .newline, .amp, .pipe, .pipeAmp, .andAnd, .orOr]

/-- What opens a list of commands, whatever is open. -/
def listOpeners : List Kind := [.dollarParen, .inParen, .outParen]

/-- Behind these tokens newlines mean nothing: what opens a list of commands, and what separates
commands. A backquote opens a list unless it closes one. -/
def Taken.Divides (x : Taken) : Prop :=
  x.kind ∈ listOpeners ∨ (x.kind = .backquote ∧ x.context.inBackquote = false) ∨
    (x.rules = .command ∧ x.kind ∈ separators)

/-- Of these kinds are all tokens that divide. -/
def dividers : List Kind := listOpeners ++ .backquote :: separators

theorem Taken.Divides.mem {x : Taken} (h : x.Divides) : x.kind ∈ dividers := by
  rw [dividers, List.mem_append, List.mem_cons]
  exact h.imp id (Or.imp And.left And.right)

/-! ### What is taken first -/

/-- The first of these tokens is taken under some rules, and among commands it separates nothing. -/
def Begins (rules : Rules) (xs : List Taken) : Prop :=
  ∃ y ys, xs = y :: ys ∧ y.rules = rules ∧ (rules = .command → y.kind ∉ separators)

theorem Begins.append {rules : Rules} {xs : List Taken} (h : Begins rules xs) (ys : List Taken) :
    Begins rules (xs ++ ys) := by
  obtain ⟨y, ys, rfl, h⟩ := h
  exact ⟨y, _, rfl, h⟩

theorem begins_token {c : Context} {t : Token} (h : t.kind ∉ separators) (ys : List Taken) :
    Begins c.mode.rules (⟨c, t⟩ :: ys) := ⟨⟨c, t⟩, ys, rfl, rfl, fun _ => h⟩

/-- Productions that take something, and first of all no separator. -/
def Production.begins : Production → Bool
  | chain _ | entry | pipeline | command | assignment | ternary | power | unary | post
  | primary => true
  | _ => false

theorem pieceStart_inert : ∀ inBackquote, ∀ kind ∈ pieceStart inBackquote, kind ∉ separators := by
  decide

/-- What can stand any number of times takes nothing, or what it takes begins so. -/
theorem Records.part_begins {c : Context} {p : Production} {place place' : Scan} {ns : List Node}
    {xs : List Taken} (h : Records c p place ns xs place') (hp : 1 ≤ p.ahead) :
    if ns = [] then xs = [] else Begins c.mode.rules xs := by
  suffices hall : 1 ≤ p.ahead → if ns = [] then xs = [] else Begins c.mode.rules xs from hall hp
  refine h.induct (P := fun c p _ ns xs _ => 1 ≤ p.ahead →
    if ns = [] then xs = [] else Begins c.mode.rules xs) fun {c p place ns xs place'} hbody hp => ?_
  cases p with
  | many p =>
    obtain ⟨o, ys, place₁, zs, hfirst, hrest, rfl⟩ := records_bind.mp hbody
    obtain ⟨ms, hms, rfl⟩ := records_first?.mp hfirst
    have hpart := hms.2 hp
    cases ms with
    | nil =>
      obtain ⟨rfl, rfl, -⟩ := hrest
      rw [if_pos rfl] at hpart ⊢
      rw [hpart, List.append_nil]
    | cons n ms =>
      obtain ⟨ks, us, place₂, vs, -, ⟨rfl, -⟩, rfl⟩ := records_bind.mp hrest
      rw [if_neg (List.cons_ne_nil _ _)] at hpart ⊢
      exact hpart.append _
  | word =>
    obtain ⟨o, ys, place₁, zs, hfirst, hrest, rfl⟩ := records_bind.mp hbody
    obtain ⟨ms, hms, rfl⟩ := records_first?.mp hfirst
    have hpart := hms.2 (Nat.le_refl 1)
    cases ms with
    | nil =>
      obtain ⟨rfl, rfl, -⟩ := hrest
      rw [if_pos rfl] at hpart ⊢
      rw [hpart, List.append_nil]
    | cons n ms =>
      obtain ⟨ks, us, place₂, vs, -, ⟨rfl, -⟩, rfl⟩ := records_bind.mp hrest
      rw [if_neg (List.cons_ne_nil _ _)] at hpart ⊢
      exact hpart.append _
  | assign =>
    obtain ⟨o, ys, place₁, zs, haccept, hrest, rfl⟩ := records_bind.mp hbody
    obtain ⟨ts, ⟨t, ht, rfl, rfl, -⟩ | ⟨-, rfl, rfl, -⟩, rfl⟩ := records_query.mp haccept
    · obtain ⟨value, us, place₂, vs, -, ⟨rfl, -⟩, rfl⟩ := records_bind.mp hrest
      rw [if_neg (List.cons_ne_nil _ _)]
      have hkind : t.kind = .assignHead := (Rules.takeAt_matches ht).1
      exact begins_token (by rw [hkind]; decide) _
    · obtain ⟨rfl, rfl, -⟩ := hrest
      rw [if_pos rfl]
      rfl
  | piece adjacent =>
    obtain ⟨o, ys, place₁, zs, htake, hrest, rfl⟩ := records_bind.mp hbody
    obtain ⟨ts, ⟨t, ht, ⟨hwants, rfl, rfl, -⟩ | ⟨-, rfl, rfl, -⟩⟩, rfl⟩ := records_query.mp htake
    · have hleads := hrest.leads fun _ _ _ _ _ _ hcall => hcall.1.parses
      obtain ⟨n, rfl⟩ := Parses.pieceRest_one hleads
      rw [if_neg (List.cons_ne_nil _ _)]
      exact begins_token (pieceStart_inert _ t.kind (mem_of_wants (List.cons_ne_nil _ _) hwants)) _
    · obtain ⟨rfl, rfl, -⟩ := hrest
      rw [if_pos rfl]
      rfl
  | _ => cases hp

theorem Records.command_begins {c : Context} {place place' : Scan} {ns : List Node} {xs : List Taken}
    (h : Records c .command place ns xs place') : Begins c.mode.rules xs := by
  obtain ⟨as, bs, ys, zs, place₁, hassigns, hwords, rfl, -, hsome⟩ := h.command_cases
  have hassigns := hassigns.part_begins (Nat.le_refl 1)
  split at hassigns
  · rename_i has
    have hwords := hwords.part_begins (Nat.le_refl 1)
    rw [if_neg (hsome.resolve_left (absurd has))] at hwords
    rwa [hassigns, List.nil_append]
  · exact hassigns.append _

/-- Under the rules of arithmetic there are no separators between commands. -/
theorem begins_arith {c : Context} (hrules : c.mode.rules = .arith) (t : Token) (ys : List Taken) :
    Begins c.mode.rules (⟨c, t⟩ :: ys) :=
  ⟨⟨c, t⟩, ys, rfl, rfl, fun h => by rw [hrules] at h; cases h⟩

/-- What a production takes that has to take something begins so. -/
theorem Records.begins {c : Context} {p : Production} {place place' : Scan} {ns : List Node}
    {xs : List Taken} (h : Records c p place ns xs place') (hsuits : p.Suits c)
    (hp : p.begins = true) : Begins c.mode.rules xs := by
  suffices hall : p.Suits c → p.begins = true → Begins c.mode.rules xs from hall hsuits hp
  refine h.induct (P := fun c p _ _ xs _ => p.Suits c → p.begins = true → Begins c.mode.rules xs)
    fun {c p place ns xs place'} hbody hsuits hp => ?_
  cases p with
  | chain ch =>
    obtain ⟨left, ys, place₁, zs, hfirst, -, rfl⟩ := records_bind.mp hbody
    refine Begins.append ((records_one.mp hfirst).2 (Heeding.suits_first hsuits) ?_) _
    cases ch <;> rfl
  | entry =>
    obtain ⟨body, ys, place₁, zs, hfirst, -, rfl⟩ := records_bind.mp hbody
    exact Begins.append ((records_one.mp hfirst).2 hsuits rfl) _
  | pipeline =>
    obtain ⟨excl, ys, place₁, zs, hbang, hrest, rfl⟩ := records_bind.mp hbody
    obtain ⟨ts, hgives, rfl⟩ := records_query.mp hbang
    obtain ⟨body, us, place₂, vs, hpipe, -, rfl⟩ := records_bind.mp hrest
    have hpipe := (records_one.mp hpipe).2 hsuits rfl
    obtain ⟨t, ht, ⟨-, -, rfl, -⟩ | ⟨hstr, u, -, ⟨-, -, rfl, -⟩ | ⟨-, -, rfl, -⟩⟩⟩ := hgives
    · exact hpipe.append _
    · exact hpipe.append _
    · have hkind : t.kind = .str := kind_of_wants hstr.1
      exact begins_token (by rw [hkind]; decide) _
  | command => exact (records_iff.mpr (hbody.mono fun _ _ _ _ _ _ hcall => hcall.1)).command_begins
  | assignment =>
    obtain ⟨o, ys, place₁, zs, htarget, hrest, rfl⟩ := records_bind.mp hbody
    obtain ⟨ts, hgives, rfl⟩ := records_query.mp htarget
    obtain ⟨t, ht, ⟨-, rfl, rfl, -⟩ | ⟨-, u, -, ⟨-, rfl, rfl, -⟩ | ⟨-, rfl, rfl, -⟩⟩⟩ := hgives
    · exact (records_all.mp hrest).2 hsuits rfl
    · exact (records_all.mp hrest).2 hsuits rfl
    · exact begins_arith hsuits _ _
  | ternary =>
    obtain ⟨cond, ys, place₁, zs, hfirst, -, rfl⟩ := records_bind.mp hbody
    exact Begins.append ((records_one.mp hfirst).2 hsuits rfl) _
  | power =>
    obtain ⟨base, ys, place₁, zs, hfirst, -, rfl⟩ := records_bind.mp hbody
    exact Begins.append ((records_one.mp hfirst).2 hsuits rfl) _
  | unary =>
    obtain ⟨o, ys, place₁, zs, hnext, hrest, rfl⟩ := records_bind.mp hbody
    obtain ⟨ts, ⟨t, ht, ⟨-, rfl, rfl, -⟩ | ⟨-, rfl, rfl, -⟩⟩, rfl⟩ := records_query.mp hnext
    · exact begins_arith hsuits _ _
    · exact (records_all.mp hrest).2 hsuits rfl
  | post =>
    obtain ⟨operand, ys, place₁, zs, hfirst, -, rfl⟩ := records_bind.mp hbody
    exact Begins.append ((records_one.mp hfirst).2 hsuits rfl) _
  | primary =>
    obtain ⟨l, ys, place₁, zs, hexpect, -, rfl⟩ := records_bind.mp hbody
    obtain ⟨ts, ⟨t, -, ⟨-, -, rfl, -⟩ | ⟨-, hnone, -, -⟩⟩, rfl⟩ :=
      records_query.mp (records_expect.mp hexpect)
    · exact begins_arith hsuits _ _
    · cases hnone
  | _ => cases hp

/-! ### What is asked behind -/

/-- The kinds that a question looks for. -/
def Query.wanted {β : Type} : Query β → Bool → Kind → Bool
  | .take _ want, inBackquote, kind => want inBackquote kind
  | .peek want, _, kind => want kind
  | _, _, _ => false

/-- The question for a newline that can be skipped. -/
inductive Asked.IsSkip : Asked → Prop
  | mk {c : Context} (hc : c.mode.rules = .command) (o : Option Lexeme) (ts : List Token) :
    IsSkip ⟨c, .take false fun _ => among [.newline], o, ts⟩

theorem Asked.IsSkip.wanted {a : Asked} (h : a.IsSkip) (kind : Kind) :
    a.query.wanted false kind = among [.newline] kind := by
  cases h
  rfl

/-- The next question is for a newline that can be skipped. -/
def Skipping : Outlook := fun rest => ∃ a more, rest = a :: more ∧ a.IsSkip

/-- What has to be asked, or taken, behind the answer to a question. -/
structure Asked.Orders (a : Asked) (rest : List Asked) : Prop where
  /-- Behind what divides, a newline is asked for. -/
  divided : (∃ x ∈ a.taken, x.Divides) → Skipping rest
  /-- Where no newline is left, what is taken next is no separator. -/
  skipped : a.IsSkip → a.tokens = [] → Begins .command (takenIn rest)
  /-- Behind the operators of arithmetic that look like those of commands stands an operand. -/
  operand : (∃ x ∈ a.taken, x.rules = .arith ∧ (x.kind = .amp ∨ x.kind = .pipe)) →
    Begins .arith (takenIn rest)

/-- All of a log is in this order. -/
def Orderly : Outlook
  | [] => True
  | a :: rest => a.Orders rest ∧ Orderly rest

/-- A question that takes one token. -/
theorem orders_taken {c : Context} {β : Type} {q : Query β} {b : β} {t : Token} {rest : List Asked}
    (hdivided : (⟨c, t⟩ : Taken).Divides → Skipping rest)
    (hoperand : c.mode.rules = .arith → t.kind = .amp ∨ t.kind = .pipe →
      Begins .arith (takenIn rest)) : (⟨c, q, b, [t]⟩ : Asked).Orders rest where
  divided := fun ⟨x, hx, hdivides⟩ => by
    obtain rfl := List.mem_singleton.mp hx
    exact hdivided hdivides
  skipped := fun _ hnil => absurd hnil (List.cons_ne_nil _ _)
  operand := fun ⟨x, hx, hrules, hkind⟩ => by
    obtain rfl := List.mem_singleton.mp hx
    exact hoperand hrules hkind

/-- A question that takes nothing. -/
theorem orders_missed {c : Context} {β : Type} {q : Query β} {b : β} {rest : List Asked}
    (hskipped : (⟨c, q, b, []⟩ : Asked).IsSkip → Begins .command (takenIn rest)) :
    (⟨c, q, b, []⟩ : Asked).Orders rest where
  divided := fun ⟨_, hx, _⟩ => absurd hx List.not_mem_nil
  skipped := fun h _ => hskipped h
  operand := fun ⟨_, hx, _⟩ => absurd hx List.not_mem_nil

/-- A question that wants no newline, or something else too. -/
theorem not_isSkip (kind : Kind) {c : Context} {β : Type} {q : Query β} {b : β} {ts : List Token}
    (h : q.wanted false kind ≠ among [.newline] kind) : ¬ (⟨c, q, b, ts⟩ : Asked).IsSkip :=
  fun hskip => h (hskip.wanted kind)

/-- A question that takes nothing that divides. -/
theorem orders_quiet {a : Asked} {rest : List Asked} (htaken : ∀ x ∈ a.taken, x.kind ∉ dividers)
    (hskip : ¬ a.IsSkip) : a.Orders rest where
  divided := fun ⟨x, hx, hdivides⟩ => absurd hdivides.mem (htaken x hx)
  skipped := fun h => absurd h hskip
  operand := fun ⟨x, hx, _, hkind⟩ => by
    refine absurd ?_ (htaken x hx)
    rcases hkind with hkind | hkind <;> rw [hkind] <;> decide

/-- A question that wants nothing that divides takes nothing of the kind. -/
theorem Query.Gives.not_divider {c : Context} {β : Type} {q : Query β} {b : β} {ts : List Token}
    {place place' : Scan} (h : q.Gives c place b ts place')
    (hq : ∀ kind ∈ dividers, q.wanted c.inBackquote kind = false) : ∀ t ∈ ts, t.kind ∉ dividers := by
  cases q with
  | take adjacent want =>
    obtain ⟨t, -, ⟨hwants, -, rfl, -⟩ | ⟨-, -, rfl, -⟩⟩ := h
    · intro u hu hmem
      obtain rfl := List.mem_singleton.mp hu
      have hno := hq _ hmem
      have hyes := (Context.wants_iff.mp hwants).1
      exact Bool.noConfusion (hno.symm.trans hyes)
    · exact List.forall_mem_nil _
  | peek want =>
    obtain ⟨_, -, -, rfl, -⟩ := h
    exact List.forall_mem_nil _
  | mark shape pastBlank =>
    obtain ⟨t, ht, -, rfl, -⟩ | ⟨-, -, rfl, -⟩ := h
    · rw [List.forall_mem_singleton, (Rules.takeAt_matches ht).1]
      cases shape <;> decide
    · exact List.forall_mem_nil _
  | close closing pastBlank =>
    obtain ⟨t, ht, rfl, -⟩ := h
    rw [List.forall_mem_singleton, (Rules.takeAt_matches ht).1]
    cases closing <;> decide
  | bang =>
    obtain ⟨t, -, ⟨-, -, rfl, -⟩ | ⟨hstr, u, -, ⟨-, -, rfl, -⟩ | ⟨-, -, rfl, -⟩⟩⟩ := h
    · exact List.forall_mem_nil _
    · exact List.forall_mem_nil _
    · rw [List.forall_mem_singleton, kind_of_wants hstr.1]
      decide
  | target =>
    obtain ⟨t, -, ⟨-, -, rfl, -⟩ | ⟨hident, u, -, ⟨-, -, rfl, -⟩ | ⟨hop, -, rfl, -⟩⟩⟩ := h
    · exact List.forall_mem_nil _
    · exact List.forall_mem_nil _
    · rw [List.forall_mem_cons, List.forall_mem_singleton, kind_of_wants hident]
      refine ⟨by decide, ?_⟩
      have hops : ∀ kind ∈ assignmentOps, kind ∉ dividers := by decide
      exact hops _ (mem_of_wants (List.cons_ne_nil _ _) hop)

/-! ### What productions demand -/

namespace Production

/-- The lists that a backquote closes are open in a context where one does. -/
def Closes (c : Context) : Production → Prop
  | list closer | entries closer => c.inBackquote = (closer == .backquote)
  | _ => True

/-- What has to follow a production: something else than a separator behind newlines and entries,
and the question for a newline behind an entry with a terminal. -/
def Demands (ns : List Node) : Production → Outlook
  | newlines | entries _ => fun rest => Begins .command (takenIn rest)
  | entry => fun rest => (∃ n ∈ ns, isTerminated n = true) → Skipping rest
  | _ => fun _ => True

/-- Whether a production asks for a newline first of all. -/
def skips : Production → Bool
  | newlines | list _ | entries _ => true
  | _ => false

/-- Whether a production takes nothing that divides, and calls nothing that demands something. -/
def isQuiet : Production → Bool
  | chainRest .. | newlines | list _ | entries _ | entry | piece _ | primary => false
  | _ => true

theorem Asks.quiet {p : Production} {β : Type} {q : Query β} (h : p.Asks β q) (hp : p.isQuiet = true)
    (inBackquote : Bool) : ∀ kind ∈ dividers, q.wanted inBackquote kind = false := by
  have hsought : ∀ kinds ∈ p.sought, ∀ kind ∈ dividers, among kinds kind = false := by
    cases p with
    | chainRest | newlines | list | entries | entry | piece | primary => cases hp
    | many | chain => exact List.forall_mem_nil _
    | _ => decide
  cases h with
  | next hmem => exact hsought _ hmem
  | operator | start | ending => cases hp
  | brace =>
    show ∀ kind ∈ dividers, among [.rbrace] kind = false
    decide
  | _ => exact fun _ _ => rfl

/-- A call suits what is called. -/
theorem Calls.suits {p p' : Production} {shift : Shift} {c : Context} (h : p.Calls shift p')
    (hp : p.Suits c) : p'.Suits (c.shift shift) := by
  cases h with
  | one => exact hp.2
  | more | rest | further | newlines | entries | newlinesBefore | entry | moreEntries | andOr | pipe
  | assignment | ternary | condition | yes | no | base | power | unary | post | primary
  | parenthesized | expression => exact hp
  | first => exact Heeding.suits_first hp
  | operand => exact Heeding.suits_operand hp _
  | newlinesBehind hcommand =>
    have hrules : c.mode.rules = if _ then .command else .arith := hp
    rwa [if_pos hcommand] at hrules
  | assigns => exact ⟨rfl, hp⟩
  | words | pieces => exact ⟨rfl, trivial⟩
  | value | piece | quoted | piecesQuoted | moreQuoted | payload => trivial
  | list | listInArith | braced | arithClosed | arithOperand => rfl

/-- Only what opens a list, and a list, calls what a backquote may close. -/
theorem Calls.closes {p p' : Production} {shift : Shift} {c : Context} (h : p.Calls shift p')
    (hp : p.Closes c) (hsane : p.Sane) : p'.Closes (c.shift shift) := by
  cases h with
  | one =>
    cases p' with
    | list | entries => cases hsane
    | _ => trivial
  | first ch | operand ch => cases ch <;> trivial
  | entries | moreEntries => exact hp
  | list | listInArith => rfl
  | _ => trivial

/-- A quiet production calls nothing that demands something. -/
theorem Calls.demands {p p' : Production} {shift : Shift} (h : p.Calls shift p')
    (hp : p.isQuiet = true) (hsane : p.Sane) (ns : List Node) (rest : List Asked) :
    p'.Demands ns rest := by
  cases h with
  | one =>
    cases p' with
    | newlines | entries | entry => cases hsane
    | _ => trivial
  | first ch => cases ch <;> trivial
  | operand | further | newlinesBehind | newlines | entries | newlinesBefore | entry
  | moreEntries => cases hp
  | _ => trivial

end Production

/-- What is behind productions is in order, and so is what they ask with it. -/
def ordering : Contract where
  suits c p := p.Suits c ∧ p.Closes c ∧ p.Sane
  post _ p ns rest := Orderly rest ∧ p.Demands ns rest
  pre _ p rest := Orderly rest ∧ (p.skips = true → Skipping rest)

theorem ordering.calls {c : Context} {p p' : Production} {shift : Shift} (hp : ordering.suits c p)
    (h : p.Calls shift p') : ordering.suits (c.shift shift) p' :=
  ⟨h.suits hp.1, h.closes hp.2.1 hp.2.2, h.sane hp.2.2⟩

/-- A reader that asks and calls nothing else asks and calls nothing more general. -/
theorem Reader.Within.mono {Q Q' : (β : Type) → Query β → Prop} {C C' : Shift → Production → Prop}
    {α : Type} {m : Reader α} (h : m.Within Q C) (hq : ∀ β (q : Query β), Q β q → Q' β q)
    (hc : ∀ shift p, C shift p → C' shift p) : m.Within Q' C' := by
  induction m with
  | done a => trivial
  | stop => trivial
  | ask q k ih => exact ⟨hq _ q h.1, fun b => ih b (h.2 b)⟩
  | call shift p k ih => exact ⟨hc _ _ h.1, fun ns => ih ns (h.2 ns)⟩

namespace Ordering
variable {c : Context} {α : Type}

/-- A question that takes nothing that divides, in front of what is in order. -/
theorem meets_ask {q : Query α} {below : Admitting}
    (hq : ∀ inBackquote, ∀ kind ∈ dividers, q.wanted inBackquote kind = false) :
    (Reader.ask q .done).Meets below c (fun _ => Orderly) Orderly := by
  refine meets_query fun b ts place place' hgives rest hrest => ⟨orders_quiet ?_ ?_, hrest⟩
  · rintro x hx
    obtain ⟨t, ht, rfl⟩ := List.mem_map.mp hx
    exact hgives.not_divider (hq _) t ht
  · refine not_isSkip .newline ?_
    rw [hq false .newline (by decide)]
    decide

/-- A reader that takes nothing that divides, and calls nothing that demands something. -/
theorem meets_within {m : Reader α}
    (h : m.Within (fun _ q => ∀ inBackquote, ∀ kind ∈ dividers, q.wanted inBackquote kind = false)
      fun shift p => ordering.suits (c.shift shift) p ∧ ∀ ns rest, p.Demands ns rest) :
    m.Meets ordering.Kept c (fun _ => Orderly) Orderly := by
  induction m with
  | done a => exact meets_pure fun _ => id
  | stop => exact meets_stop
  | ask q k ih =>
    exact meets_bind (m := .ask q .done) (fun _ => Orderly) (meets_ask h.1) fun b => ih b (h.2 b)
  | call shift p k ih =>
    obtain ⟨⟨hsuits, hdemands⟩, hrest⟩ := h
    refine meets_bind (m := .all shift p) (fun _ => Orderly)
      (meets_all hsuits (fun ns rest h => ⟨h, hdemands ns rest⟩) fun _ h => h.1) fun ns => ih ns (hrest ns)

theorem within_quiet {p : Production} (hsuits : ordering.suits c p) (hp : p.isQuiet = true) :
    p.body.Within (fun _ q => ∀ inBackquote, ∀ kind ∈ dividers, q.wanted inBackquote kind = false)
      fun shift p => ordering.suits (c.shift shift) p ∧ ∀ ns rest, p.Demands ns rest :=
  (covers_body p).mono (fun _ _ h => h.quiet hp)
    fun _ _ h => ⟨ordering.calls hsuits h, h.demands hp hsuits.2.2⟩

/-- A call that begins with something that separates nothing. -/
theorem meets_begins {p : Production} {post : Node → Outlook} (hsuits : ordering.suits c p)
    (hp : p.begins = true) (hpost : ∀ n rest, post n rest → Orderly rest ∧ p.Demands [n] rest) :
    (Reader.one .here p).Meets ordering.Kept c post
      (fun rest => Orderly rest ∧ Begins c.mode.rules (takenIn rest)) := by
  have hone : (Reader.one .here p).Meets ordering.Kept c post Orderly :=
    meets_one hsuits hpost fun _ h => h.1
  intro n as place place' hadmits hanswered rest hrest
  refine ⟨hone n as place place' hadmits hanswered rest hrest, ?_⟩
  obtain ⟨ns, xs, ys, hcall, hyield, rfl⟩ := hadmits
  obtain ⟨place₁, hfirst, -⟩ := answered_append.mp hanswered
  rw [takenIn_append, takenIn_append, List.append_assoc]
  exact ((hcall.1.records hfirst).begins hsuits.1 hp).append _

/-- A token that is looked for among others. -/
theorem meets_take {want : Bool → Kind → Bool} {adjacent : Bool} {below : Admitting}
    {post : Option Lexeme → Outlook} {pre : Outlook}
    (hsome : ∀ t rest, c.wants adjacent (want c.inBackquote) t = true → post (some t.lexeme) rest →
      pre (⟨c, .take adjacent want, some t.lexeme, [t]⟩ :: rest))
    (hnone : ∀ rest, post none rest → pre (⟨c, .take adjacent want, none, []⟩ :: rest)) :
    (Reader.ask (.take adjacent want) .done).Meets below c post pre := by
  refine meets_query ?_
  rintro o ts place place' ⟨t, ht, ⟨hwants, rfl, rfl, -⟩ | ⟨-, rfl, rfl, -⟩⟩ rest hrest
  · exact hsome t rest hwants hrest
  · exact hnone rest hrest

theorem meets_newlines (hsuits : ordering.suits c .newlines) :
    Production.newlines.body.Meets ordering.Kept c
      (fun _ rest => Orderly rest ∧ Begins .command (takenIn rest))
      (fun rest => Orderly rest ∧ Skipping rest) := by
  have hrules : c.mode.rules = .command := hsuits.1
  refine meets_bind (fun o rest => Orderly rest ∧
    o.elim (Begins .command (takenIn rest)) fun _ => Skipping rest) (meets_take ?_ ?_) fun o => ?_
  · rintro t rest - ⟨hrest, hskipping⟩
    refine ⟨⟨orders_taken (fun _ => hskipping) fun harith => ?_, hrest⟩, _, _, rfl, .mk hrules _ _⟩
    cases hrules.symm.trans harith
  · rintro rest ⟨hrest, hbegins⟩
    exact ⟨⟨orders_missed fun _ => hbegins, hrest⟩, _, _, rfl, .mk hrules _ _⟩
  · cases o with
    | none => exact meets_pure fun _ => id
    | some l => exact meets_all hsuits (fun _ _ => id) fun _ h => ⟨h.1, h.2 rfl⟩

/-- What closes a list does not divide. -/
theorem closer_not_divides {closer : Closer} {t : Token} (hcloses : c.inBackquote = (closer == .backquote))
    (hkind : t.kind = closer.kind) : ¬ (⟨c, t⟩ : Taken).Divides := by
  rintro (hopener | ⟨hback, hopen⟩ | ⟨-, hseparator⟩)
  · have hno : ∀ closer : Closer, closer.kind ∉ listOpeners := by
      rintro ⟨⟩ <;> decide
    exact hno closer (hkind ▸ hopener)
  · have hopen : c.inBackquote = false := hopen
    rw [hcloses] at hopen
    cases closer with
    | endOfSource | paren => cases hkind.symm.trans hback
    | backquote => cases hopen
  · have hno : ∀ closer : Closer, closer.kind ∉ separators := by
      rintro ⟨⟩ <;> decide
    exact hno closer (hkind ▸ hseparator)

theorem meets_list {closer : Closer} (hsuits : ordering.suits c (.list closer)) :
    (Production.list closer).body.Meets ordering.Kept c (fun _ => Orderly)
      (fun rest => Orderly rest ∧ Skipping rest) := by
  have hrules : c.mode.rules = .command := hsuits.1
  refine meets_bind (fun _ rest => Orderly rest ∧ Begins .command (takenIn rest))
    (meets_all (ordering.calls hsuits (.entries closer)) (fun _ _ => id) fun _ h => ⟨h.1, h.2 rfl⟩)
    fun _ => ?_
  refine meets_bind (fun _ => Orderly) ?_ fun _ => meets_pure fun _ => id
  refine meets_bind (m := .next [closer.kind])
    (fun o rest => o.elim False fun _ => Orderly rest) (meets_take ?_ ?_) fun o => ?_
  · intro t rest hwants hrest
    have hkind : t.kind = closer.kind := kind_of_wants hwants
    refine ⟨⟨orders_taken (fun h => ?_) fun harith => ?_, hrest⟩, hrules ▸ begins_token ?_ _⟩
    · exact absurd h (closer_not_divides hsuits.2.1 hkind)
    · cases hrules.symm.trans harith
    · rw [hkind]
      cases closer <;> decide
  · intro rest h
    exact h.elim
  · cases o with
    | none => exact meets_stop
    | some l => exact meets_pure fun _ => id

theorem meets_entries {closer : Closer} (hsuits : ordering.suits c (.entries closer)) :
    (Production.entries closer).body.Meets ordering.Kept c
      (fun _ rest => Orderly rest ∧ Begins .command (takenIn rest))
      (fun rest => Orderly rest ∧ Skipping rest) := by
  have hrules : c.mode.rules = .command := hsuits.1
  refine meets_bind (fun _ rest => Orderly rest ∧ Begins .command (takenIn rest))
    (meets_all (ordering.calls hsuits (.newlinesBefore closer)) (fun _ _ => id)
      fun _ h => ⟨h.1, h.2 rfl⟩) fun _ => ?_
  refine meets_bind (m := .peek [closer.kind])
    (fun _ rest => Orderly rest ∧ Begins .command (takenIn rest)) (meets_query ?_) fun b => ?_
  · rintro b ts place place' ⟨t, -, -, rfl, -⟩ rest ⟨hrest, hbegins⟩
    refine ⟨⟨orders_missed fun h => absurd h (not_isSkip .newline ?_), hrest⟩, hbegins⟩
    cases closer <;> exact Bool.false_ne_true
  · cases b with
    | true => exact meets_pure fun _ => id
    | false =>
      rw [← hrules]
      refine meets_bind (fun first rest => Orderly rest ∧ (isTerminated first = true → Skipping rest))
        (meets_begins (ordering.calls hsuits (.entry closer)) rfl ?_) fun first => ?_
      · rintro n rest ⟨hrest, hskipping⟩
        refine ⟨hrest, fun ⟨m, hm, hterminated⟩ => hskipping ?_⟩
        rwa [← List.mem_singleton.mp hm]
      · split
        · refine meets_bind (fun _ rest => Orderly rest ∧ Begins .command (takenIn rest))
            (meets_all hsuits (fun _ _ => id) fun _ h => ⟨h.1, fun _ => h.2 rfl⟩)
            fun _ => meets_pure fun _ h => hrules ▸ h
        · rename_i hterminated
          exact meets_pure fun _ h => ⟨h.1, fun h => absurd h hterminated⟩

theorem meets_entry (hsuits : ordering.suits c .entry) :
    Production.entry.body.Meets ordering.Kept c
      (fun ns rest => Orderly rest ∧ ((∃ n ∈ ns, isTerminated n = true) → Skipping rest)) Orderly := by
  have hrules : c.mode.rules = .command := hsuits.1
  refine meets_bind (fun _ => Orderly)
    (meets_one (ordering.calls hsuits .andOr) (fun _ _ h => ⟨h, trivial⟩) fun _ h => h.1) fun body => ?_
  refine meets_bind (m := .next terminals)
    (fun o rest => Orderly rest ∧ (o.isSome = true → Skipping rest)) (meets_take ?_ ?_) fun o => ?_
  · rintro t rest - ⟨hrest, hskipping⟩
    refine ⟨orders_taken (fun _ => hskipping rfl) fun harith => ?_, hrest⟩
    cases hrules.symm.trans harith
  · rintro rest ⟨hrest, -⟩
    exact ⟨orders_missed fun h => absurd h (not_isSkip .semi Bool.false_ne_true.symm), hrest⟩
  · refine meets_pure fun rest ⟨hrest, hskipping⟩ => ⟨hrest, fun hsome => hskipping ⟨_, List.mem_singleton_self _, ?_⟩⟩
    cases o with
    | none => cases hsome
    | some l => rfl

/-- The operators of arithmetic divide nothing. -/
theorem operator_not_divides {ch : Chain} {t : Token} (hrules : c.mode.rules = .arith)
    (hcommand : ch.isCommand = false) (h : c.wants false ch.wants t = true) :
    ¬ (⟨c, t⟩ : Taken).Divides := by
  have hopeners : ∀ kind ∈ .backquote :: listOpeners, ch.wants kind = false := by
    cases ch with
    | andOr | pipe => cases hcommand
    | comma => decide
    | binary min =>
      intro kind hkind
      have hrow : rowOf? kind = none := by
        revert kind
        decide
      show (rowOf? kind).any _ = false
      rw [hrow]
      rfl
  have hwants : ch.wants t.kind = true := (Context.wants_iff.mp h).1
  rintro (hopener | ⟨hback, -⟩ | ⟨hrules', -⟩)
  · rw [hopeners _ (List.mem_cons_of_mem _ hopener)] at hwants
    cases hwants
  · rw [hopeners _ (List.mem_cons.mpr (.inl hback))] at hwants
    cases hwants
  · cases hrules.symm.trans hrules'

theorem meets_operator {ch : Chain} {left : Node} (hsuits : ordering.suits c (.chainRest ch left)) :
    ch.operator.Meets ordering.Kept c
      (fun | none => Orderly | some _ => fun rest => Orderly rest ∧ Begins c.mode.rules (takenIn rest))
      Orderly := by
  have hrules : c.mode.rules = if ch.isCommand then .command else .arith := hsuits.1
  refine meets_bind (fun o rest => Orderly rest ∧ match o with
    | none => True
    | some _ => if ch.isCommand then Skipping rest else Begins .arith (takenIn rest))
    (meets_take ?_ ?_) fun o => ?_
  · rintro t rest hwants ⟨hrest, hbehind⟩
    refine ⟨orders_taken (fun hdivides => ?_) fun harith _ => ?_, hrest⟩
    · cases ch with
      | andOr | pipe => exact hbehind
      | comma | binary => exact absurd hdivides (operator_not_divides hrules rfl hwants)
    · cases ch with
      | andOr | pipe => cases hrules.symm.trans harith
      | comma | binary => exact hbehind
  · rintro rest ⟨hrest, -⟩
    refine ⟨orders_missed fun h => absurd h (not_isSkip .newline ?_), hrest⟩
    cases ch with
    | binary min => exact Bool.false_ne_true
    | _ => decide
  · cases o with
    | none => exact meets_pure fun _ h => ⟨h, trivial⟩
    | some op =>
      dsimp only
      split
      case isTrue hcommand =>
        rw [if_pos hcommand] at hrules
        refine meets_bind (fun _ rest => Orderly rest ∧ Begins .command (takenIn rest))
          (meets_all (ordering.calls hsuits (.newlinesBehind hcommand left)) (fun _ _ => id)
            fun _ h => ⟨h.1, h.2 rfl⟩) fun _ => meets_pure fun _ h => hrules ▸ h
      case isFalse hcommand =>
        rw [if_neg hcommand] at hrules
        exact meets_pure fun _ h => hrules ▸ h

theorem meets_chainRest {ch : Chain} {left : Node} (hsuits : ordering.suits c (.chainRest ch left)) :
    (Production.chainRest ch left).body.Meets ordering.Kept c (fun _ => Orderly) Orderly := by
  refine meets_bind _ (meets_operator hsuits) fun o => ?_
  cases o with
  | none => exact meets_pure fun _ => id
  | some op =>
    refine meets_bind (fun _ => Orderly) (meets_begins (ordering.calls hsuits (.operand ch left _)) ?_ ?_)
      fun right => ?_
    · cases ch <;> rfl
    · intro n rest hrest
      refine ⟨hrest, ?_⟩
      cases ch <;> trivial
    · exact meets_all (ordering.calls hsuits (.further ch left _)) (fun _ _ h => ⟨h, trivial⟩)
        fun _ h => h.1

/-- Behind the token that something starts with: a list asks for a newline first of all. -/
abbrev Opened (l : Lexeme) : Outlook := fun rest =>
  Orderly rest ∧ (l.kind ∈ .backquote :: listOpeners → Skipping rest)

theorem meets_opened {l : Lexeme} {closer : Closer} {f : Node → List Node} :
    (Reader.one (.inside closer) (.list closer) >>= fun body => pure (f body)).Meets ordering.Kept c
      (fun _ => Orderly) (Opened l) :=
  meets_bind (fun _ => Orderly) (meets_one ⟨rfl, rfl, trivial⟩ (fun _ _ h => ⟨h, trivial⟩)
    fun _ h => ⟨h.1, fun _ => h.2 rfl⟩) fun _ => meets_pure fun _ => id

/-- A reader that is not called behind what opens a list. -/
theorem meets_unopened {l : Lexeme} {m : Reader (List Node)} (hkind : l.kind ∉ .backquote :: listOpeners)
    (h : m.Meets ordering.Kept c (fun _ => Orderly) Orderly) :
    m.Meets ordering.Kept c (fun _ => Orderly) (Opened l) :=
  h.mono (fun _ _ => id) fun _ h => ⟨h, fun hmem => absurd hmem hkind⟩

theorem meets_call {shift : Shift} {p : Production} (hsuits : ordering.suits (c.shift shift) p)
    (hdemands : ∀ ns rest, p.Demands ns rest) :
    (Reader.all shift p).Meets ordering.Kept c (fun _ => Orderly) Orderly :=
  meets_all hsuits (fun ns rest h => ⟨h, hdemands ns rest⟩) fun _ h => h.1

theorem meets_pieceRest (l : Lexeme) :
    (Reader.pieceRest l).Meets ordering.Kept c (fun _ => Orderly) (Opened l) := by
  unfold Reader.pieceRest
  split
  case h_1 hk | h_2 hk | h_3 hk =>
    exact meets_unopened (by rw [hk]; decide) (meets_pure fun _ => id)
  case h_4 hk =>
    refine meets_unopened (by rw [hk]; decide) ?_
    exact meets_bind (fun _ => Orderly) (meets_call ⟨trivial, trivial, trivial⟩ fun _ _ => trivial)
      fun _ => meets_pure fun _ => id
  case h_5 hk | h_6 hk =>
    exact meets_unopened (by rw [hk]; decide) (meets_call ⟨rfl, trivial, trivial⟩ fun _ _ => trivial)
  case h_7 | h_8 | h_9 | h_10 => exact meets_opened
  case h_11 => exact meets_stop

theorem meets_piece {adjacent : Bool} :
    (Production.piece adjacent).body.Meets ordering.Kept c (fun _ => Orderly) Orderly := by
  refine meets_bind (fun | none => Orderly | some l => Opened l) (meets_take ?_ ?_) fun o => ?_
  · rintro t rest hwants ⟨hrest, hopened⟩
    have hmem := mem_of_wants (List.cons_ne_nil _ _) hwants
    refine ⟨orders_taken (fun hdivides => hopened ?_) fun _ hkind => ?_, hrest⟩
    · obtain hopener | ⟨hback, -⟩ | ⟨-, hseparator⟩ := hdivides
      · exact List.mem_cons_of_mem _ hopener
      · exact List.mem_cons.mpr (.inl hback)
      · exact absurd hseparator (pieceStart_inert _ _ hmem)
    · refine absurd ?_ (pieceStart_inert _ _ hmem)
      rcases hkind with hkind | hkind <;> rw [hkind] <;> decide
  · intro rest hrest
    exact ⟨orders_missed fun h => absurd h (not_isSkip .newline Bool.false_ne_true), hrest⟩
  · cases o with
    | none => exact meets_pure fun _ => id
    | some l => exact meets_pieceRest l

theorem meets_primaryRest (l : Lexeme) (hsuits : ordering.suits c .primary) :
    (Reader.primaryRest l).Meets ordering.Kept c (fun _ => Orderly) (Opened l) := by
  unfold Reader.primaryRest
  split
  case h_1 hk | h_2 hk | h_3 hk =>
    exact meets_unopened (by rw [hk]; decide) (meets_pure fun _ => id)
  case h_4 hk =>
    refine meets_unopened (by rw [hk]; decide) ?_
    refine meets_bind (fun _ => Orderly) (meets_one (ordering.calls hsuits .parenthesized)
      (fun _ _ h => ⟨h, trivial⟩) fun _ h => h.1) fun _ => ?_
    refine meets_bind (fun _ => Orderly) (meets_within (within_expect (within_query ?_))) fun _ =>
      meets_pure fun _ => id
    show Bool → ∀ kind ∈ dividers, among [.rparen] kind = false
    decide
  case h_5 hk | h_6 hk =>
    exact meets_unopened (by rw [hk]; decide) (meets_call ⟨rfl, trivial, trivial⟩ fun _ _ => trivial)
  case h_7 => exact meets_opened
  case h_8 => exact meets_stop

theorem meets_primary (hsuits : ordering.suits c .primary) :
    Production.primary.body.Meets ordering.Kept c (fun _ => Orderly) Orderly := by
  refine meets_bind (fun l => Opened l) ?_ fun l => meets_primaryRest l hsuits
  refine meets_bind (fun | none => fun _ => False | some l => Opened l) (meets_take ?_ ?_) fun o => ?_
  · rintro t rest hwants ⟨hrest, hopened⟩
    have hstart : ∀ kind ∈ primaryStart, kind ≠ .backquote ∧ kind ∉ separators := by decide
    obtain ⟨hback', hinert⟩ := hstart _ (mem_of_wants (List.cons_ne_nil _ _) hwants)
    refine ⟨orders_taken (fun hdivides => hopened ?_) fun _ hkind => ?_, hrest⟩
    · obtain hopener | ⟨hback, -⟩ | ⟨-, hseparator⟩ := hdivides
      · exact List.mem_cons_of_mem _ hopener
      · exact absurd hback hback'
      · exact absurd hseparator hinert
    · refine absurd ?_ hinert
      rcases hkind with hkind | hkind <;> rw [hkind] <;> decide
  · intro rest h
    exact h.elim
  · cases o with
    | none => exact meets_stop
    | some l => exact meets_pure fun _ => id

end Ordering

/-- A production asks in order, in front of what is in order. -/
theorem Logs.ordered {c : Context} {p : Production} {ns : List Node} {as : List Asked}
    {place place' : Scan} (h : Logs c p ns as) (hanswered : Answered as place place')
    (hsuits : ordering.suits c p) {rest : List Asked} (hrest : Orderly rest) (hdemands : p.Demands ns rest) :
    ordering.pre c p (as ++ rest) := by
  refine h.met (C := ordering) (fun c p hsuits => ?_) hanswered hsuits ⟨hrest, hdemands⟩
  cases p with
  | newlines => exact (Ordering.meets_newlines hsuits).mono (fun _ _ => id) fun _ h => ⟨h.1, fun _ => h.2⟩
  | list => exact (Ordering.meets_list hsuits).mono (fun _ _ h => h.1) fun _ h => ⟨h.1, fun _ => h.2⟩
  | entries => exact (Ordering.meets_entries hsuits).mono (fun _ _ => id) fun _ h => ⟨h.1, fun _ => h.2⟩
  | entry => exact (Ordering.meets_entry hsuits).mono (fun _ _ => id) fun _ h => ⟨h, Bool.noConfusion⟩
  | chainRest =>
    exact (Ordering.meets_chainRest hsuits).mono (fun _ _ h => h.1) fun _ h => ⟨h, Bool.noConfusion⟩
  | piece => exact Ordering.meets_piece.mono (fun _ _ h => h.1) fun _ h => ⟨h, Bool.noConfusion⟩
  | primary =>
    exact (Ordering.meets_primary hsuits).mono (fun _ _ h => h.1) fun _ h => ⟨h, Bool.noConfusion⟩
  | _ =>
    exact (Ordering.meets_within (Ordering.within_quiet hsuits rfl)).mono (fun _ _ h => h.1)
      fun _ h => ⟨h, Bool.noConfusion⟩

/-! ### Who asks -/

/-- A reader asks a question itself, or a production does that it calls. -/
theorem Reader.Admits.asked {below : Admitting} {Q : (β : Type) → Query β → Prop}
    {C : Shift → Production → Prop} {c : Context} {α : Type} {m : Reader α} {b : α} {as : List Asked}
    (h : m.Admits below c b as) (hm : m.Within Q C) {a : Asked} (ha : a ∈ as) :
    (Q a.β a.query ∧ a.context = c) ∨
      ∃ shift p ns xs, C shift p ∧ below (c.shift shift) p ns xs ∧ a ∈ xs := by
  induction m generalizing as with
  | done b =>
    obtain ⟨-, rfl⟩ := h
    exact absurd ha List.not_mem_nil
  | stop => exact h.elim
  | ask q k ih =>
    obtain ⟨b, ts, bs, hrest, rfl⟩ := h
    rcases List.mem_cons.mp ha with rfl | ha
    · exact .inl ⟨hm.1, rfl⟩
    · exact ih b hrest (hm.2 b) ha
  | call shift p k ih =>
    obtain ⟨ns, xs, ys, hcall, hrest, rfl⟩ := h
    rcases List.mem_append.mp ha with ha | ha
    · exact .inr ⟨shift, p, ns, xs, hm.1, hcall, ha⟩
    · exact ih ns hrest (hm.2 ns) ha

/-- Every question of a log is asked by a production in a context that suits it. -/
theorem Logs.asked {c : Context} {p : Production} {ns : List Node} {as : List Asked}
    (h : Logs c p ns as) (hsuits : p.Suits c) {a : Asked} (ha : a ∈ as) :
    ∃ p' : Production, p'.Asks a.β a.query ∧ p'.Suits a.context := by
  refine h.induct (P := fun c p _ as => p.Suits c → ∀ a ∈ as,
    ∃ p' : Production, p'.Asks a.β a.query ∧ p'.Suits a.context) ?_ hsuits a ha
  intro c p ns as hbody hsuits a ha
  obtain ⟨hasks, rfl⟩ | ⟨shift, p', ns', xs, hcalls, hcall, ha⟩ := hbody.asked (covers_body p) ha
  · exact ⟨p, hasks, hsuits⟩
  · exact hcall.2 (hcalls.suits hsuits) a ha

end ShellGrammar
