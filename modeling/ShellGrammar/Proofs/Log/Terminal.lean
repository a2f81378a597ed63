import ShellGrammar.Proofs.Log.Exchange
import ShellGrammar.Proofs.Log.Twin

/-! A log with another terminal.

Where a `;` is exchanged for another terminal, the questions asked in front of it have the same
answers, also those at its place that leave it (`Exchange.stays`). The question that takes it, for a
terminal, takes the other, and behind it the same is ahead. So with the one answer exchanged the log
guides the other text (`ScriptLog.exchanged`). -/
namespace ShellGrammar
open Grammar ParseM Rules

/-! ### Questions for terminals -/

/-- Only an entry looks for a `;`. -/
theorem Production.Asks.eq_entry {p : Production} {β : Type} {q : Query β} (h : p.Asks β q) {inBackquote : Bool}
    (hwanted : q.wanted inBackquote .semi = true) : p = .entry := by
  by_cases hquiet : p.isQuiet = true
  · rw [h.quiet hquiet inBackquote _ (by decide)] at hwanted
    cases hwanted
  cases h with
  | next hmem =>
    cases p with
    | entry => rfl
    | newlines | primary =>
      simp only [sought, List.mem_cons, List.not_mem_nil, or_false] at hmem
      rcases hmem with rfl | rfl <;> cases hwanted
    | list closer =>
      obtain rfl := List.mem_singleton.mp hmem
      cases closer <;> cases hwanted
    | chainRest | entries | piece => cases hmem
    | _ => exact absurd rfl hquiet
  | operator ch => cases ch <;> cases hwanted
  | ending closer => cases closer <;> cases hwanted
  | start => cases inBackquote <;> cases hwanted
  | _ => cases hwanted

/-- What takes a `;` is the question for a terminal, among commands. -/
theorem Asked.of_semi {a : Asked} {p : Production} (hasks : p.Asks a.β a.query) (hsuits : p.Suits a.context)
    {inBackquote : Bool} (hwanted : a.query.wanted inBackquote .semi = true) :
    a.context.mode.rules = .command ∧
      ∃ o, a = ⟨a.context, .take false fun _ => among terminals, o, a.tokens⟩ := by
  obtain rfl := hasks.eq_entry hwanted
  refine ⟨hsuits, ?_⟩
  obtain ⟨c, q, o, ts⟩ := a
  cases hasks with
  | next hmem =>
    obtain rfl := List.mem_singleton.mp hmem
    exact ⟨o, rfl⟩

/-- Among commands, what looks for another terminal looks for a `;` too, but for the question for
newlines. -/
theorem Production.Asks.wanted_terminal {p : Production} {c : Context} {β : Type} {q : Query β}
    (h : p.Asks β q) (hsuits : p.Suits c) (hrules : c.mode.rules = .command) (hp : p ≠ .newlines)
    {kind : Kind} (hkind : kind = .newline ∨ kind = .amp) :
    q.wanted c.inBackquote kind = q.wanted c.inBackquote .semi := by
  have hdivider : kind ∈ dividers ∧ Kind.semi ∈ dividers := by
    rcases hkind with rfl | rfl <;> decide
  by_cases hquiet : p.isQuiet = true
  · rw [h.quiet hquiet _ _ hdivider.1, h.quiet hquiet _ _ hdivider.2]
  cases h with
  | next hmem =>
    cases p with
    | newlines => exact absurd rfl hp
    | entry =>
      obtain rfl := List.mem_singleton.mp hmem
      rcases hkind with rfl | rfl <;> rfl
    | primary => cases hrules.symm.trans hsuits
    | list closer =>
      obtain rfl := List.mem_singleton.mp hmem
      cases closer <;> rcases hkind with rfl | rfl <;> rfl
    | chainRest | entries | piece => cases hmem
    | _ => exact absurd rfl hquiet
  | operator ch =>
    cases ch with
    | comma | binary => cases hrules.symm.trans hsuits
    | andOr | pipe => rcases hkind with rfl | rfl <;> rfl
  | ending closer => cases closer <;> rcases hkind with rfl | rfl <;> rfl
  | start =>
    show among (pieceStart c.inBackquote) kind = among (pieceStart c.inBackquote) .semi
    cases c.inBackquote <;> rcases hkind with rfl | rfl <;> rfl
  | brace => exact absurd rfl hquiet
  | _ => rfl

/-- The question of newlines is the one for a newline that can be skipped. -/
theorem Asked.isSkip_of_newlines {a : Asked} (hasks : Production.newlines.Asks a.β a.query)
    (hrules : a.context.mode.rules = .command) : a.IsSkip := by
  obtain ⟨c, q, o, ts⟩ := a
  cases hasks with
  | next hmem =>
    obtain rfl := List.mem_singleton.mp hmem
    exact .mk hrules o ts

/-- In front of a separator no newline is asked for in vain. -/
theorem Asked.Orders.not_isSkip {a : Asked} {rest : List Asked} {y : Taken} {more : List Taken}
    (h : a.Orders rest) (hleft : a.tokens = []) (hrest : takenIn rest = y :: more) (hy : y.kind ∈ separators) :
    ¬ a.IsSkip := by
  intro hskip
  obtain ⟨z, zs, hbegins, -, hno⟩ := h.skipped hskip hleft
  rw [hrest] at hbegins
  obtain ⟨rfl, -⟩ := List.cons.inj hbegins
  exact hno rfl hy

theorem takenIn_eq_nil {a : Asked} {as : List Asked} :
    takenIn (a :: as) = [] ↔ a.tokens = [] ∧ takenIn as = [] := by
  rw [takenIn_cons, List.append_eq_nil_iff, Asked.taken, List.map_eq_nil_iff]

/-! ### Operators in front -/

/-- Among commands and in arithmetic a `&` and a `|` are operators, in an expansion they are characters
like any other, and elsewhere bare text. -/
theorem Rules.kind_of_op {rules : Rules} {a : Scan} {t : Token} (ht : rules.tokenAt a = .ok t)
    (hop : t.body = ['&'] ∨ t.body = ['|']) :
    ((rules = .command ∨ rules = .arith) ∧ (t.kind = .amp ∨ t.kind = .pipe)) ∨ t.kind = .glyph ∨
      (t.kind = .str ∧ rules ≠ .command ∧ rules ≠ .param) := by
  obtain ⟨r, hr, hkind, hself⟩ := rule_of_tokenAt ht (by rcases hop with hop | hop <;> rw [hop] <;> nofun)
  rw [← hkind]
  clear hkind
  revert r
  rcases hop with hop | hop <;> rw [hop] <;> cases rules <;> decide

/-- Who takes a `&` or a `|` last looks for a token, and takes nothing else. -/
theorem Query.Gives.op {c : Context} {β : Type} {q : Query β} {b : β} {ts : List Token} {place place' : Scan}
    (h : q.Gives c place b ts place') {t : Token} (ht : ts.getLast? = some t)
    (hop : t.body = ['&'] ∨ t.body = ['|']) :
    ts = [t] ∧ c.mode.rules.tokenAt place = .ok t ∧ q.wanted c.inBackquote t.kind = true ∧
      ∀ xs, q.Heeds c ts xs → Looks c.mode.rules xs := by
  cases q with
  | take adjacent want =>
    obtain ⟨u, hu, ⟨hwants, -, rfl, -⟩ | ⟨-, -, rfl, -⟩⟩ := h
    · obtain rfl : u = t := Option.some.inj ht
      exact ⟨rfl, Context.token?_eq_some.mp hu, (Context.wants_iff.mp hwants).1, fun _ => id⟩
    · cases ht
  | peek want =>
    obtain ⟨_, -, -, rfl, -⟩ := h
    cases ht
  | mark shape pastBlank =>
    obtain ⟨u, hu, -, rfl, -⟩ | ⟨-, -, rfl, -⟩ := h
    · obtain rfl : u = t := Option.some.inj ht
      obtain ⟨n, hreach, rfl⟩ := takeAt_cases hu
      have hdenotes := Pattern.denotes_of_reach (Pattern.reach?_eq_some_iff.mp hreach).1
      have hno : ∀ ch ∈ Scan.edges, (place.rest.drop (c.mode.rules.blankLength place.rest)).take n ≠ [ch] := by
        intro ch hch heq
        exact Pattern.not_mem_of_avoids (avoids_edges shape ch hch) hdenotes (heq ▸ List.mem_singleton_self ch)
      exact absurd hop (not_or.mpr ⟨hno _ (by decide), hno _ (by decide)⟩)
    · cases ht
  | close closing pastBlank =>
    obtain ⟨u, hu, rfl, -⟩ := h
    obtain rfl : u = t := Option.some.inj ht
    rw [(takeAt_matches hu).2.of_lit] at hop
    exact absurd hop (by cases closing <;> decide)
  | bang =>
    obtain ⟨u, -, ⟨-, -, rfl, -⟩ | ⟨hbang, v, -, ⟨-, -, rfl, -⟩ | ⟨-, -, rfl, -⟩⟩⟩ := h
    · cases ht
    · cases ht
    · obtain rfl : u = t := Option.some.inj ht
      rw [hbang.2] at hop
      exact absurd hop (by decide)
  | target =>
    obtain ⟨u, -, ⟨-, -, rfl, -⟩ | ⟨-, v, hv, ⟨-, -, rfl, -⟩ | ⟨hassign, -, rfl, -⟩⟩⟩ := h
    · cases ht
    · cases ht
    · obtain rfl : v = t := Option.some.inj ht
      have hspellings : ∀ kind ∈ assignmentOps,
          kind.spelling?.any (fun s => s != ['&'] && s != ['|']) = true := by decide
      obtain ⟨spelling, hspelling, hno⟩ := Option.any_eq_true _ _ |>.mp
        (hspellings _ (mem_of_wants (List.cons_ne_nil _ _) hassign))
      rw [body_of_spelling (Context.token?_eq_some.mp hv) hspelling] at hop
      rcases hop with rfl | rfl <;> cases hno

/-- The last of the questions that take something. -/
theorem exists_last (as : List Asked) : takenIn as = [] ∨
    ∃ us a vs, as = us ++ a :: vs ∧ a.tokens ≠ [] ∧ takenIn vs = [] := by
  induction as with
  | nil => exact .inl rfl
  | cons a as ih =>
    obtain hnil | ⟨us, a', vs, rfl, ha', hvs⟩ := ih
    · by_cases ha : a.tokens = []
      · exact .inl (takenIn_eq_nil.mpr ⟨ha, hnil⟩)
      · exact .inr ⟨[], a, as, rfl, ha, hnil⟩
    · exact .inr ⟨a :: us, a', vs, rfl, ha', hvs⟩

/-- In front of a separator stands no operator that another character would make longer. -/
theorem ScriptLog.not_op {source : Text} {t : Node} {e : Scan} {us vs : List Asked} {a : Asked} {y z : Taken}
    {more : List Taken} (h : ScriptLog source t e (us ++ a :: vs)) (hvs : takenIn vs = y :: more)
    (hskipping : ¬ Skipping vs) (hrules : y.rules = .command)
    (hshows : ∀ rules : Rules, rules.Shows y.token → rules = .command ∨ rules = .param)
    (hz : a.taken.getLast? = some z) : z.token.body ≠ ['&'] ∧ z.token.body ≠ ['|'] := by
  rw [← not_or]
  intro hop
  obtain ⟨place, -, place₁, hgives, -⟩ := answered_append.mp h.answered
  obtain ⟨t, ht, rfl⟩ : ∃ t, a.tokens.getLast? = some t ∧ (⟨a.context, t⟩ : Taken) = z := by
    rw [Asked.taken, List.getLast?_map, Option.map_eq_some_iff] at hz
    exact hz
  obtain ⟨htokens, hcut, hwanted, hlooks⟩ := hgives.op ht hop
  have horders := h.orderly.of_append.1
  have htaken : (⟨a.context, t⟩ : Taken) ∈ a.taken := by
    rw [Asked.taken, htokens]
    exact List.mem_singleton_self _
  obtain ⟨hcommand | harith, hkind⟩ | hglyph | ⟨hstr, hno⟩ := kind_of_op hcut hop
  · -- Among commands it divides, so that a newline would be asked for.
    refine hskipping (horders.divided ⟨_, htaken, .inr (.inr ⟨hcommand, ?_⟩)⟩)
    rcases hkind with hkind | hkind <;> rw [Taken.kind, hkind] <;> decide
  · -- In arithmetic an operand would stand behind it.
    obtain ⟨_, _, hbegins, hrules', -⟩ := horders.operand ⟨_, htaken, harith, hkind⟩
    rw [hvs] at hbegins
    obtain ⟨rfl, -⟩ := List.cons.inj hbegins
    cases hrules.symm.trans hrules'
  · obtain ⟨p, hasks, -⟩ := h.logs.asked rfl (List.mem_append_right _ List.mem_cons_self)
    rw [hglyph, hasks.no_glyph] at hwanted
    cases hwanted
  · -- Bare text would go on with the separator.
    have hheeds := hlooks _ h.heeded.of_append.1
    rw [takenIn_cons, Asked.taken, htokens, hvs] at hheeds
    obtain ⟨_, _, heq, hshown⟩ := hheeds.2 ((tokenAt_fits hcut).1 ▸ hcut) (.inl hstr)
    obtain ⟨rfl, -⟩ := List.cons.inj heq
    exact (hshows _ hshown).elim hno.1 hno.2

/-! ### Operators behind -/

/-- Among commands a `&` starts an operator. -/
theorem Rules.kind_of_amp {place : Scan} {t : Token} (ht : command.tokenAt place = .ok t)
    (hamp : place.rest.head? = some '&') : t.kind = .amp ∨ t.kind = .andAnd := by
  obtain ⟨more, hmore⟩ := List.head?_eq_some_iff.mp hamp
  have hskip : command.skipLength place = 0 := by
    have hblank : command.blankLength place.rest = 0 := by
      rw [hmore]
      exact blankLength_cons_of_not_mem (by decide) more
    rw [skipLength, hblank, List.drop_zero, hmore, commentLength_of_ne (by decide)]
    split <;> rfl
  obtain ⟨hnil, rfl⟩ | ⟨kind, length, hfit, rfl⟩ := tokenAt_cases ht
  · rw [hskip, List.drop_zero, hmore] at hnil
    cases hnil
  · rw [hskip, List.drop_zero, hmore] at hfit
    obtain ⟨r, hr, rfl, hreach⟩ := firstFit_mem hfit
    obtain ⟨hreach, hpos⟩ := Pattern.reach?_eq_some_iff.mp hreach
    obtain ⟨n, rfl⟩ := Nat.exists_eq_succ_of_ne_zero (Nat.ne_of_gt hpos)
    have hall : command.set.rules.all (fun r => !r.pattern.mayStart '&' || r.kind == .amp || r.kind == .andAnd) =
        true := by decide
    have hkind := List.all_eq_true.mp hall r hr
    rw [Pattern.mayStart_of_reach hreach, Bool.not_true, Bool.false_or, Bool.or_eq_true] at hkind
    exact hkind.imp eq_of_beq eq_of_beq

/-- What is taken first of a `&` among commands is an operator. -/
theorem Query.Gives.separator {c : Context} {β : Type} {q : Query β} {b : β} {t : Token} {ts : List Token}
    {place place' : Scan} (h : q.Gives c place b (t :: ts) place') (hrules : c.mode.rules = .command)
    (hamp : place.rest.head? = some '&') : t.kind ∈ separators := by
  have htoken : ∀ {u : Token}, c.token? place = some u → u.kind ∈ separators := by
    intro u hu
    have hu := Context.token?_eq_some.mp hu
    rw [hrules] at hu
    rcases kind_of_amp hu hamp with hkind | hkind <;> rw [hkind] <;> decide
  have hmark : ∀ {pattern : Pattern} {kind : Kind} {allowBlank : Bool} {u : Token},
      pattern.mayStart '&' = false → c.mode.rules.takeAt pattern kind allowBlank place ≠ some u := by
    intro pattern kind allowBlank u hstart hu
    obtain ⟨more, hmore⟩ := List.head?_eq_some_iff.mp hamp
    obtain ⟨n, hreach, -⟩ := takeAt_cases hu
    rw [hmore, blankLength_cons_of_not_mem (by decide), List.drop_zero,
      Pattern.reach?_eq_none_of_mayStart hstart] at hreach
    cases hreach
  cases q with
  | take adjacent want =>
    obtain ⟨u, hu, ⟨-, -, heq, -⟩ | ⟨-, -, hnil, -⟩⟩ := h
    · obtain ⟨rfl, -⟩ := List.cons.inj heq
      exact htoken hu
    · cases hnil
  | peek want =>
    obtain ⟨_, -, -, hnil, -⟩ := h
    cases hnil
  | mark shape pastBlank =>
    obtain ⟨u, hu, -⟩ | ⟨-, -, hnil, -⟩ := h
    · exact absurd hu (hmark (Pattern.mayStart_of_avoids (avoids_edges shape _ (by decide))))
    · cases hnil
  | close closing pastBlank =>
    obtain ⟨u, hu, -⟩ := h
    exact absurd hu (hmark (by cases closing <;> rfl))
  | bang =>
    obtain ⟨u, hu, ⟨-, -, hnil, -⟩ | ⟨-, v, -, ⟨-, -, hnil, -⟩ | ⟨-, -, heq, -⟩⟩⟩ := h
    · cases hnil
    · cases hnil
    · obtain ⟨rfl, -⟩ := List.cons.inj heq
      exact htoken hu
  | target =>
    obtain ⟨u, hu, ⟨-, -, hnil, -⟩ | ⟨-, v, -, ⟨-, -, hnil, -⟩ | ⟨-, -, heq, -⟩⟩⟩ := h
    · cases hnil
    · cases hnil
    · obtain ⟨rfl, -⟩ := List.cons.inj heq
      exact htoken hu

/-- What is taken first is taken where the log starts. -/
theorem Answered.first {as : List Asked} {place place' : Scan} {y : Taken} {ys : List Taken}
    (h : Answered as place place') (hxs : takenIn as = y :: ys) :
    ∃ (a : Asked) (ts : List Token) (place₁ : Scan), a.context = y.context ∧
      a.query.Gives a.context place a.answer (y.token :: ts) place₁ := by
  induction as generalizing place with
  | nil => cases hxs
  | cons a as ih =>
    obtain ⟨place₁, hgives, hrest⟩ := h
    rw [takenIn_cons, Asked.taken] at hxs
    cases hts : a.tokens with
    | nil =>
      rw [hts] at hgives hxs
      obtain rfl : place = place₁ := hgives.tiles
      exact ih hrest hxs
    | cons t ts =>
      rw [hts] at hgives hxs
      obtain ⟨rfl, -⟩ := List.cons.inj hxs
      exact ⟨a, ts, place₁, rfl, hgives⟩

/-- Where a newline is asked for stands no `&`. -/
theorem Asked.IsSkip.not_amp {a : Asked} {rest : List Asked} {place e : Scan} (ha : a.IsSkip)
    (horders : a.Orders rest) (hanswered : Answered (a :: rest) place e) : place.rest.head? ≠ some '&' := by
  intro hamp
  have hskipped := horders.skipped ha
  obtain ⟨place₁, hgives, hrest⟩ := hanswered
  obtain ⟨hc, o, ts⟩ := ha
  obtain ⟨t, ht, ⟨hwants, -⟩ | ⟨-, -, rfl, rfl⟩⟩ := hgives
  · have ht := Context.token?_eq_some.mp ht
    rw [hc] at ht
    have hkind := kind_of_wants hwants
    rcases kind_of_amp ht hamp with hamp | hamp <;> cases hkind.symm.trans hamp
  · obtain ⟨y, ys, heq, hrules, hno⟩ := hskipped rfl
    obtain ⟨a, ts, place₁, hcontext, hgives⟩ := hrest.first heq
    exact hno rfl (hgives.separator (hcontext ▸ hrules) hamp)

/-! ### At the place -/

namespace Exchange
variable (x : Exchange) {b : Scan} (hb : b.rest = x.ahead)
include hb

/-- Where rules show the `;`, they make terminals of both texts, or characters like any other, which are
wanted alike if the terminals are. -/
theorem tokens {c : Context} (hshows : c.mode.rules.Shows x.semi) :
    ∃ t t', c.token? x.semi.origin = some t ∧ c.token? b = some t' ∧ t.kind ∈ .glyph :: terminals ∧
      t'.kind ∈ .glyph :: terminals ∧ ∀ adjacent want,
        (c.mode.rules = .command → want x.kind = want .semi) →
          c.wants adjacent want t' = c.wants adjacent want t := by
  obtain ⟨t, t', ht, ht', hblank, hcases⟩ := x.there hb hshows
  refine ⟨t, t', Context.token?_eq_some.mpr ht, Context.token?_eq_some.mpr ht', ?_⟩
  have hwants : ∀ adjacent want, want t'.kind = want t.kind →
      c.wants adjacent want t' = c.wants adjacent want t := by
    intro adjacent want hwant
    rw [Context.wants, Context.wants, hwant, Token.isAdjacent, Token.isAdjacent, hblank]
  obtain ⟨hrules, rfl, rfl⟩ | ⟨hkind, hkind'⟩ := hcases
  · refine ⟨by rw [x.isSemi]; decide, ?_, fun adjacent want hwant => hwants _ _ ?_⟩
    · show x.kind ∈ _
      obtain ⟨hkind, -⟩ | ⟨hkind, -⟩ := x.new <;> rw [hkind] <;> decide
    · rw [x.isSemi]
      exact hwant hrules
  · refine ⟨by rw [hkind]; decide, by rw [hkind']; decide, fun adjacent want _ => hwants _ _ ?_⟩
    rw [hkind, hkind']

/-- A question that leaves the `;` leaves the other terminal. -/
theorem answer {a : Asked} {p : Production} (hasks : p.Asks a.β a.query) (hsuits : p.Suits a.context)
    (hp : p ≠ .newlines) {place : Scan}
    (hgives : a.query.Gives a.context x.semi.origin a.answer a.tokens place) (hleft : a.tokens = [])
    {y : Taken} {more : List Taken} (hy : y.token = x.semi)
    (hheeds : a.query.Heeds a.context a.tokens (y :: more)) :
    a.query.answer a.context b = some (a.answer, b) := by
  have hterminal : x.kind = .newline ∨ x.kind = .amp := x.new.imp And.left And.left
  have hwanted := fun hrules => hasks.wanted_terminal hsuits hrules hp hterminal
  obtain ⟨c, q, o, ts⟩ := a
  dsimp only at hgives hleft hheeds hwanted ⊢
  subst hleft
  have hlooks : Looks c.mode.rules (y :: more) → ∃ t t', c.token? x.semi.origin = some t ∧
      c.token? b = some t' ∧ t.kind ∈ .glyph :: terminals ∧ t'.kind ∈ .glyph :: terminals ∧ ∀ adjacent want,
        (c.mode.rules = .command → want x.kind = want .semi) →
          c.wants adjacent want t' = c.wants adjacent want t := by
    intro hlooks
    exact x.tokens hb (hy ▸ hlooks.1)
  cases q with
  | take adjacent want =>
    obtain ⟨t, t', ht, ht', -, -, hwants⟩ := hlooks hheeds
    obtain ⟨t₀, ht₀, ⟨-, -, hnil, -⟩ | ⟨hno, rfl, -, -⟩⟩ := hgives
    · cases hnil
    · rw [ht, Option.some.injEq] at ht₀
      subst ht₀
      exact Query.take_none.mpr ⟨t', ht', (hwants _ _ hwanted).trans hno, rfl⟩
  | peek want =>
    obtain ⟨t, t', ht, ht', -, -, hwants⟩ := hlooks hheeds
    obtain ⟨t₀, ht₀, rfl, -, -⟩ := hgives
    rw [ht, Option.some.injEq] at ht₀
    subst ht₀
    exact Query.peek_iff.mpr ⟨t', ht', hwants _ _ hwanted, rfl⟩
  | mark shape pastBlank =>
    obtain ⟨t, -, -, hnil, -⟩ | ⟨-, rfl, -, -⟩ := hgives
    · cases hnil
    · refine Query.mark_none.mpr ⟨?_, rfl⟩
      obtain hlooks | ⟨-, -, hlooks⟩ := hheeds.resolve_left (· rfl)
      · exact x.missed hb (avoids_edges shape) (hy ▸ hlooks.1)
      · obtain hrules | hrules := x.rules_of_shows (hy ▸ hlooks.1) <;> cases hrules
  | close closing pastBlank =>
    obtain ⟨t, -, hnil, -⟩ := hgives
    cases hnil
  | bang =>
    obtain ⟨t, t', ht, ht', hkind, hkind', -⟩ := hlooks hheeds
    obtain ⟨t₀, ht₀, ⟨-, rfl, -, -⟩ | ⟨hyes, -⟩⟩ := hgives
    · refine Query.bang_iff.mpr ⟨t', ht', .inl ⟨fun hyes => ?_, rfl, rfl⟩⟩
      rw [kind_of_wants hyes.1] at hkind'
      exact absurd hkind' (by decide)
    · rw [ht, Option.some.injEq] at ht₀
      subst ht₀
      rw [kind_of_wants hyes.1] at hkind
      exact absurd hkind (by decide)
  | target =>
    obtain ⟨t, t', ht, ht', hkind, hkind', -⟩ := hlooks hheeds
    obtain ⟨t₀, ht₀, ⟨-, rfl, -, -⟩ | ⟨hyes, -⟩⟩ := hgives
    · refine Query.target_iff.mpr ⟨t', ht', .inl ⟨Bool.eq_false_iff.mpr fun hyes => ?_, rfl, rfl⟩⟩
      rw [kind_of_wants hyes] at hkind'
      exact absurd hkind' (by decide)
    · rw [ht, Option.some.injEq] at ht₀
      subst ht₀
      rw [kind_of_wants hyes] at hkind
      exact absurd hkind (by decide)

/-- Questions that leave the `;` leave the other terminal, one after the other. -/
theorem stays {us vs : List Asked} {e : Scan} {y : Taken} {more : List Taken} (hleft : takenIn us = [])
    (hanswered : Answered us x.semi.origin e) (hheeded : Heeded (us ++ vs)) (horderly : Orderly (us ++ vs))
    (hasked : ∀ a ∈ us, ∃ p : Production, p.Asks a.β a.query ∧ p.Suits a.context)
    (hvs : takenIn vs = y :: more) (hy : y.token = x.semi) : Guides us b b := by
  induction us with
  | nil => rfl
  | cons a us ih =>
    obtain ⟨hnone, hleft⟩ := takenIn_eq_nil.mp hleft
    have hrest : takenIn (us ++ vs) = y :: more := by rw [takenIn_append, hleft, hvs, List.nil_append]
    obtain ⟨place, hgives, hanswered⟩ := hanswered
    have hplace : place = x.semi.origin := by
      have htiles := hgives.tiles
      rw [hnone] at htiles
      exact Eq.symm htiles
    obtain ⟨p, hasks, hsuits⟩ := hasked a List.mem_cons_self
    have hp : p ≠ .newlines := by
      rintro rfl
      refine horderly.1.not_isSkip hnone hrest ?_ (Asked.isSkip_of_newlines hasks hsuits)
      rw [Taken.kind, hy, x.isSemi]
      decide
    have hheeds := hheeded.1
    rw [List.append_eq, takenIn_cons, hrest, Asked.taken, hnone, List.map_nil, List.nil_append, ← hnone] at hheeds
    exact ⟨b, x.answer hb hasks hsuits hp hgives hnone hy hheeds,
      ih hleft (hplace ▸ hanswered) hheeded.2 horderly.2 fun a ha => hasked a (List.mem_cons_of_mem _ ha)⟩

omit hb in
/-- Behind a name or a `!` both terminals mean the same. -/
theorem touches {y z : Taken} {ys : List Taken} (hy : y.token = x.semi) : x.parting.Touches (y :: ys) z := by
  intro c w more b hcons _ _ _ hshows hfront
  obtain ⟨rfl, -⟩ := List.cons.inj hcons
  rw [hy] at hshows
  obtain ⟨t, t', ht, ht', hkind, -, hwants⟩ := x.tokens hfront.rest hshows
  refine ⟨t, t', Context.token?_eq_some.mp ht, Context.token?_eq_some.mp ht', ⟨hwants _ _ fun _ => ?_,
    hwants _ _ fun _ => ?_⟩, ?_⟩
  · obtain ⟨hnew, -⟩ | ⟨hnew, -⟩ := x.new <;> rw [hnew] <;> cases c.inBackquote <;> rfl
  · obtain ⟨hnew, -⟩ | ⟨hnew, -⟩ := x.new <;> rw [hnew] <;> rfl
  · have hno : ∀ kind ∈ .glyph :: terminals, among assignmentOps kind = false := by decide
    rw [Context.wants, hno _ hkind, Bool.false_and]

end Exchange

/-! ### In a script -/

section Script
variable {source : Text} {t : Node} {e : Scan} {us vs : List Asked} {q : Asked} {y : Taken} {more : List Taken}

/-- In front of a separator that is taken no newline is asked for. -/
theorem Orderly.not_skipping (h : Orderly (us ++ q :: vs)) (hus : takenIn us = [])
    (hq : takenIn (q :: vs) = y :: more) (hy : y.kind ∈ separators) (hskip : ¬ q.IsSkip) :
    ¬ Skipping (us ++ q :: vs) := by
  rintro ⟨a, rest, heq, ha⟩
  cases us with
  | nil =>
    obtain ⟨rfl, -⟩ := List.cons.inj heq
    exact hskip ha
  | cons u us =>
    obtain ⟨rfl, rfl⟩ := List.cons.inj heq
    obtain ⟨hnone, hus⟩ := takenIn_eq_nil.mp hus
    exact h.1.not_isSkip hnone (by rw [List.append_eq, takenIn_append, hus, hq, List.nil_append]) hy ha

/-- A log guides both texts up to a `;` that is exchanged. -/
theorem ScriptLog.upto (h : ScriptLog source t e (us ++ q :: vs)) {x : Exchange}
    (hus : Answered us (.ofText source) x.semi.origin) (hq : takenIn (q :: vs) = y :: more)
    (hy : y.token = x.semi) (hrules : y.rules = .command) (hskip : ¬ q.IsSkip) :
    ∃ b, Guides us (.ofText (textIn (takenIn us) ++ x.ahead)) b ∧ b.rest = x.ahead := by
  have hkind : y.kind ∈ separators := by
    rw [Taken.kind, hy, x.isSemi]
    decide
  obtain hnil | ⟨us, a, us', rfl, ha, hleft⟩ := exists_last us
  · have hplace : Scan.ofText source = x.semi.origin := by
      have htiles := hus.tiles
      rw [hnil] at htiles
      exact htiles
    rw [hplace] at hus
    rw [hnil]
    refine ⟨_, x.stays (b := .ofText x.ahead) rfl hnil hus h.heeded h.orderly (fun a ha => ?_) hq hy, rfl⟩
    exact h.logs.asked rfl (List.mem_append_left _ ha)
  · rw [List.append_assoc, List.cons_append] at h
    obtain ⟨hanswered, hheeded⟩ := And.intro h.answered h.heeded
    rw [List.append_cons] at hanswered hheeded
    have hvs : takenIn (us' ++ q :: vs) = y :: more := by rw [takenIn_append, hleft, hq, List.nil_append]
    have htaken : takenIn (us ++ a :: us') = takenIn (us ++ [a]) := by
      rw [List.append_cons, takenIn_append, hleft, List.append_nil]
    obtain ⟨place, hfirst, hsecond⟩ := answered_append.mp (List.append_cons us a us' ▸ hus)
    have hplace : place = x.semi.origin := by
      have htiles := hsecond.tiles
      rw [hleft] at htiles
      exact htiles
    rw [hplace] at hfirst hsecond
    have hfront : x.parting.Front ((takenIn (us ++ [a])).map Taken.token) (.ofText source)
        (.ofText (textIn (takenIn (us ++ [a])) ++ x.ahead)) := by
      have hne : a.taken ≠ [] := fun hnil => ha (List.map_eq_nil_iff.mp hnil)
      refine ⟨hfirst.tiles, by rw [textIn_eq]; rfl, rfl, ?_, ?_⟩
      · rw [List.append_cons] at h
        refine h.bodies hfirst ?_
        rw [x.rest_origin]
        exact List.append_ne_nil_of_right_ne_nil _ (List.cons_ne_nil _ _)
      · rw [takenIn_append, takenIn_cons, takenIn_nil, List.append_nil, List.getLast?_map, List.getLast?_append,
          List.getLast?_eq_some_getLast hne, Option.some_or]
        intro u hu _ _ _ _
        obtain rfl := Option.some.inj hu
        exact h.not_op hvs (h.orderly.of_append.2.not_skipping hleft hq hkind hskip) hrules
          (fun rules hshows => x.rules_of_shows (hy ▸ hshows)) (List.getLast?_eq_some_getLast hne)
    obtain ⟨b, hguides, hbehind⟩ := hfront.guides ha hanswered hheeded (by
      rw [hvs]
      exact fun z _ => x.touches hy)
    have hb : b.rest = x.ahead := hbehind.rest
    rw [htaken, List.append_cons]
    refine ⟨b, guides_append.mpr ⟨b, hguides, ?_⟩, hb⟩
    refine x.stays hb hleft hsecond hheeded.of_append h.orderly.of_append.2 (fun u hu => ?_) hq hy
    exact h.logs.asked rfl (List.mem_append_right _ (List.mem_cons_of_mem _ (List.mem_append_left _ hu)))

/-- A question puts a `;` into the tree for each that it takes. -/
theorem Query.Gives.count {c : Context} {β : Type} {q : Query β} {b : β} {ts : List Token} {p : Production}
    {place place' : Scan} (h : q.Gives c place b ts place') (hasks : p.Asks β q) (hsuits : p.Suits c) :
    (q.terminators b).count [';'] = ts.countP (·.kind == .semi) := by
  by_cases hwanted : q.wanted false .semi = true
  · obtain ⟨-, o, heq⟩ := Asked.of_semi (a := ⟨c, q, b, ts⟩) hasks hsuits hwanted
    cases heq
    obtain ⟨t, ht, ⟨hwants, rfl, rfl, -⟩ | ⟨-, rfl, rfl, -⟩⟩ := h
    · show [t.body].count [';'] = [t].countP _
      have hspell : ∀ {spelling}, t.kind.spelling? = some spelling → t.body = spelling :=
        body_of_spelling (Context.token?_eq_some.mp ht)
      have hkind := mem_of_wants (by decide) hwants
      simp only [terminals, List.mem_cons, List.not_mem_nil, or_false] at hkind
      rcases hkind with hkind | hkind | hkind <;>
        rw [hspell (by rw [hkind]; rfl), List.countP_singleton, hkind] <;> rfl
    · rfl
  · have hwanted := Bool.not_eq_true _ ▸ hwanted
    rw [terminators_eq_nil hwanted, List.count_nil, eq_comm, List.countP_eq_zero]
    intro t ht hsemi
    have hkind : t.kind = .semi := eq_of_beq hsemi
    have hyes := (h.divider ht (by rw [hkind]; decide)).2.2.2
    rw [hkind] at hyes
    obtain rfl := hasks.eq_entry hyes
    cases hasks with
    | next hmem =>
      obtain rfl := List.mem_singleton.mp hmem
      cases hwanted

/-- In the terminals of a log there is a `;` for each that was taken. -/
theorem Answered.count {as : List Asked} {place place' : Scan} (h : Answered as place place')
    (hasked : ∀ a ∈ as, ∃ p : Production, p.Asks a.β a.query ∧ p.Suits a.context) :
    (terminatorsIn as).count [';'] = (takenIn as).countP (·.kind == .semi) := by
  induction as generalizing place with
  | nil => rfl
  | cons a as ih =>
    obtain ⟨place₁, hgives, hrest⟩ := h
    obtain ⟨p, hasks, hsuits⟩ := hasked a List.mem_cons_self
    have hfirst := hgives.count hasks hsuits
    have hlater := ih hrest fun a ha => hasked a (List.mem_cons_of_mem _ ha)
    rw [takenIn_cons, List.countP_append, Asked.taken, List.countP_map, ← hlater, terminatorsIn,
      List.flatMap_cons, List.count_append, hfirst]
    rfl

/-- With another terminal in place of a `;`, a log whose answers agree guides the text. The terminals it
takes are those of the first, with the one exchanged. -/
theorem ScriptLog.exchanged {as : List Asked} (h : ScriptLog source t e as) {front back : List Taken}
    (hxs : takenIn as = front ++ y :: back) (hy : y.kind = .semi) {kind : Kind} {char : Char}
    (hnew : (kind = .newline ∧ char = '\n') ∨ (kind = .amp ∧ char = '&')) :
    ∃ as' e', List.Forall₂ Asked.Agrees as as' ∧
      Guides as' (.ofText (textIn front ++ (y.token.blank ++ char :: textIn back))) e' ∧
      ∃ before after, terminatorsIn as = before ++ [';'] :: after ∧ terminatorsIn as' = before ++ [char] :: after ∧
        before.count [';'] = front.countP (·.kind == .semi) := by
  have hseparator : y.kind ∈ separators := by
    rw [hy]
    decide
  obtain ⟨us, q, vs, rfl, rfl, rfl, hparted⟩ := h.answered.parted hxs (List.mem_append_right _
    (List.mem_cons_of_mem _ hseparator))
  obtain ⟨p, hasks, hsuits⟩ := h.logs.asked rfl (a := q) (List.mem_append_right _ List.mem_cons_self)
  obtain ⟨hrules, o, hq⟩ := Asked.of_semi hasks hsuits (hy ▸ hparted.wanted)
  rw [hparted.context] at hrules
  have htaken : q.taken = [y] := by
    rw [Asked.taken, hparted.tokens, hparted.context]
    rfl
  have hskip : ¬ q.IsSkip := by
    rw [hq]
    exact not_isSkip .semi (by decide)
  -- Behind it a newline is asked for.
  obtain ⟨a, rest, rfl, ha⟩ : Skipping vs :=
    h.orderly.of_append.1.divided ⟨y, htaken ▸ List.mem_singleton_self y, .inr (.inr ⟨hrules, hseparator⟩)⟩
  let x : Exchange := {
    semi := y.token
    kind := kind
    char := char
    cut := hrules ▸ hparted.cut
    isSemi := hy
    new := hnew
    alone := fun _ => ha.not_amp h.orderly.of_append.2.1 hparted.back }
  have hahead : x.ahead = y.token.blank ++ char :: textIn (takenIn (a :: rest)) := by
    rw [Exchange.ahead, hparted.back.rest, h.ends, List.append_nil]
  obtain ⟨b, hus, hb⟩ := h.upto (x := x) hparted.front (by rw [takenIn_cons, htaken]; rfl) rfl hrules hskip
  obtain ⟨e', hvs⟩ := Scan.Same.likeness.guides (x.same_after hb) hparted.back h.heeded.of_append.2
  obtain ⟨_, -, _, hgives, -⟩ := answered_append.mp h.answered
  have htokens := hparted.tokens
  have hcontext := hparted.context
  obtain ⟨c, q, b₀, ts⟩ := q
  cases hq
  cases hcontext
  obtain ⟨t', -, ⟨hwants, rfl, rfl, -⟩ | ⟨-, -, rfl, -⟩⟩ := hgives
  · obtain rfl : t' = y.token := (List.cons.inj htokens).1
    refine ⟨us ++ ⟨y.context, .take false fun _ => among terminals, some ⟨kind, [char]⟩, []⟩ :: a :: rest, e', ?_, ?_,
      terminatorsIn us, terminatorsIn (a :: rest), ?_, ?_, ?_⟩
    · have hsame : ∀ as : List Asked, List.Forall₂ Asked.Agrees as as := fun as =>
        List.forall₂_same.mpr fun a _ => .refl a
      exact List.rel_append (hsame us) (.cons (.mk rfl) (hsame _))
    · rw [← hahead]
      refine guides_append.mpr ⟨b, hus, (x.token b).after, Query.take_some.mpr ⟨x.token b, ?_, ?_, rfl, rfl⟩, hvs⟩
      · exact Context.token?_eq_some.mpr (hrules ▸ x.tokenAt_command hb)
      · refine Context.wants_iff.mpr ⟨?_, (Context.wants_iff.mp hwants).2⟩
        obtain ⟨hkind, -⟩ | ⟨hkind, -⟩ := x.new <;> rw [Exchange.token, hkind] <;> rfl
    · rw [terminatorsIn_append, ← x.body]
      rfl
    · rw [terminatorsIn_append]
      rfl
    · exact hparted.front.count fun a ha => h.logs.asked rfl (List.mem_append_left _ ha)
  · cases htokens

end Script

end ShellGrammar
