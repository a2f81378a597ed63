import ShellGrammar.Proofs.Reader.Script
import ShellGrammar.Proofs.Reader.Takings
import ShellGrammar.Proofs.Tree.Quiet

/-! Backquotes pair up.

A backquote opens a list or closes one, and which of the two is decided by what the innermost
list under way was opened by: within a list between backquotes no piece starts with a backquote,
so the next one is the closer, and it is found where nothing else of the list is open
(`takings_closer`). A list in parentheses starts afresh.

In the tree this leaves no substitution between backquotes within another, unless one in
parentheses stands between the two (`Derives.quiet`). -/
namespace ShellGrammar
open Grammar ParseM Reader

/-! ### Who takes a backquote -/

/-- The kinds of tokens that an answer can take. -/
def Query.seeks {β : Type} (inBackquote : Bool) : Query β → Kind → Bool
  | take _ want, kind => want inBackquote kind
  | peek _, _ => false
  | mark shape _, kind => kind == shape.kind
  | close closing _, kind => kind == closing.kind
  | bang, kind => kind == .str
  | target, kind => kind == .ident || assignmentOps.contains kind

theorem Query.Gives.seeks {β : Type} {q : Query β} {c : Context} {place place' : Scan} {b : β}
    {ts : List Token} (h : q.Gives c place b ts place') {t : Token} (ht : t ∈ ts) :
    q.seeks c.inBackquote t.kind = true := by
  cases q with
  | take adjacent want =>
    obtain ⟨u, -, ⟨hwants, -, rfl, -⟩ | ⟨-, -, rfl, -⟩⟩ := h
    · obtain rfl := List.mem_singleton.mp ht
      exact (Context.wants_iff.mp hwants).1
    · cases ht
  | peek want =>
    obtain ⟨_, -, -, rfl, -⟩ := h
    cases ht
  | mark shape pastBlank =>
    obtain ⟨u, hu, -, rfl, -⟩ | ⟨-, -, rfl, -⟩ := h
    · obtain rfl := List.mem_singleton.mp ht
      exact beq_iff_eq.mpr (Rules.takeAt_matches hu).1
    · cases ht
  | close closing pastBlank =>
    obtain ⟨u, hu, rfl, -⟩ := h
    obtain rfl := List.mem_singleton.mp ht
    exact beq_iff_eq.mpr (Rules.takeAt_matches hu).1
  | bang =>
    obtain ⟨u, -, ⟨-, -, rfl, -⟩ | ⟨⟨hwants, -⟩, _, -, ⟨-, -, rfl, -⟩ | ⟨-, -, rfl, -⟩⟩⟩ := h
    · cases ht
    · cases ht
    · obtain rfl := List.mem_singleton.mp ht
      exact beq_iff_eq.mpr (kind_of_wants hwants)
  | target =>
    obtain ⟨u, -, ⟨-, -, rfl, -⟩ | ⟨hname, v, -, ⟨-, -, rfl, -⟩ | ⟨hop, -, rfl, -⟩⟩⟩ := h
    · cases ht
    · cases ht
    · rw [Query.seeks, Bool.or_eq_true, beq_iff_eq]
      simp only [List.mem_cons, List.not_mem_nil, or_false] at ht
      rcases ht with rfl | rfl
      · exact .inl (kind_of_wants hname)
      · exact .inr (List.contains_iff_mem.mpr (mem_of_wants nofun hop))

theorem Production.sought_backquote {p : Production} {kinds : List Kind} (h : kinds ∈ p.sought)
    (hkinds : among kinds .backquote = true) : p = .list .backquote := by
  have hothers : (∀ kinds ∈ p.sought, among kinds .backquote ≠ true) ∨ p = .list .backquote := by
    cases p with
    | list closer =>
      cases closer with
      | backquote => exact .inr rfl
      | _ => exact .inl (by simp only [sought]; decide)
    | _ => exact .inl (by simp only [sought]; decide)
  exact hothers.resolve_left fun hno => hno kinds h hkinds

/-- Within backquotes, a backquote closes the list and is asked for by nothing else. -/
theorem Production.Asks.closes {p : Production} {β : Type} {q : Query β} (h : p.Asks β q)
    (hq : q.seeks true .backquote = true) : p = .list .backquote := by
  cases h with
  | next hsought => exact sought_backquote hsought hq
  | operator ch left => cases ch <;> cases hq
  | @shape shape =>
    cases shape <;> cases hq
  | closeBraced closing => cases closing <;> cases hq
  | _ => cases hq

/-! ### What is taken within backquotes -/

/-- Whether a production is a list of commands. -/
def Production.isList : Production → Bool
  | list _ => true
  | _ => false

section Takings
variable {c : Context} {p : Production} {place place' : Scan} {ns : List Node} {xs : List Taking}
  {x : Taking} {n : Nat}

/-- Lists are called as what stands in delimiters, and nothing else is. -/
theorem Production.Calls.inBackquote {shift : Shift} {p' : Production} (h : p.Calls shift p')
    (hp : p.Sane) (c : Context) :
    (∃ closer, p' = .list closer ∧ shift = .inside closer) ∨
      p'.isList = false ∧ (c.shift shift).inBackquote = c.inBackquote := by
  cases h with
  | list adjacent closer => exact .inl ⟨closer, rfl, rfl⟩
  | listInArith => exact .inl ⟨.paren, rfl, rfl⟩
  | one =>
    cases p' with
    | list _ => cases hp
    | _ => exact .inr ⟨rfl, rfl⟩
  | first ch => cases ch <;> exact .inr ⟨rfl, rfl⟩
  | operand ch _ _ => cases ch <;> exact .inr ⟨rfl, rfl⟩
  | _ => exact .inr ⟨rfl, rfl⟩

/-- A list takes its closer at its end, and nothing else itself. -/
theorem takings_end {closer : Closer} (h : takings n c (.list closer) place ns xs place')
    (hx : x ∈ xs) (hcalls : x.calls = [⟨c, .list closer, place, place'⟩]) :
    x.taken.token.after = place' := by
  cases n with
  | zero => exact h.elim
  | succ n =>
    obtain ⟨ys, hbody, rfl⟩ := h
    obtain ⟨y, hy, rfl⟩ := List.mem_map.mp hx
    obtain ⟨body, us, place₁, vs, hentries, hrest, rfl⟩ := records_bind.mp hbody
    obtain ⟨l, ws, place₂, _, hcloser, ⟨rfl, rfl, rfl⟩, rfl⟩ := records_bind.mp hrest
    rw [List.append_nil] at hy
    rcases List.mem_append.mp hy with hearlier | hlast
    · obtain ⟨inner, hinner⟩ := takings_outermost (records_all.mp hentries) hearlier
      rw [Taking.calls_under, hinner] at hcalls
      cases hcalls
    · obtain ⟨ts, hgives, rfl⟩ := records_ask.mp (records_expect.mp hcloser)
      obtain ⟨t, ht, rfl⟩ := List.mem_map.mp hlast
      obtain ⟨u, -, ⟨-, -, rfl, hplace⟩ | ⟨-, ho, -, -⟩⟩ := hgives
      · rw [hplace, ← List.mem_singleton.mp ht]
        rfl
      · cases ho

/-- Within backquotes, and in no list within, a backquote is the closer of the list. -/
theorem takings_closer (h : takings n c p place ns xs place') (hp : p.Sane)
    (hc : c.inBackquote = true) (hx : x ∈ xs) (hkind : x.taken.kind = .backquote)
    {inner : List Call}
    (hcalls : x.calls = ⟨c, p, place, place'⟩ :: inner)
    (hinner : ∀ call ∈ inner, call.production.isList = false) :
    p = .list .backquote ∧ inner = [] ∧ x.taken.token.after = place' := by
  induction n generalizing c p place ns xs place' x inner with
  | zero => exact h.elim
  | succ n ih =>
    obtain ⟨y, rfl, ⟨hnone, -, _, q, _, ts, _, _, hasks, hgives, ht⟩ |
      ⟨shift, p', start, ns', ys, stop, hcalled, hcall, hy, -⟩⟩ := takings_cases h hx
    · have hseeks := hgives.seeks ht
      rw [hc, show y.taken.token.kind = .backquote from hkind] at hseeks
      obtain rfl := hasks.closes hseeks
      obtain rfl : inner = [] := by
        rw [Taking.calls_under, hnone] at hcalls
        exact (List.cons.inj hcalls).2.symm
      exact ⟨rfl, rfl, takings_end h hx hcalls⟩
    · obtain ⟨deeper, hdeeper⟩ := takings_outermost hcall hy
      obtain rfl : inner = _ :: deeper := by
        rw [Taking.calls_under, hdeeper] at hcalls
        exact (List.cons.inj hcalls).2.symm
      rw [List.forall_mem_cons] at hinner
      -- The production that is called is no list, so backquotes stay what they are.
      obtain ⟨closer, rfl, -⟩ | ⟨-, hsame⟩ := hcalled.inBackquote hp c
      · cases hinner.1
      · obtain ⟨rfl, -⟩ := ih hcall (hcalled.sane hp) (hsame.trans hc) hy hkind hdeeper hinner.2
        cases hinner.1

/-- Behind another opener than a backquote stands no list between backquotes. -/
theorem within_pieceRest {l : Lexeme} (hl : l.kind ≠ .backquote) :
    (Reader.pieceRest l).Within (fun _ _ => False) fun _ p => p ≠ .list .backquote := by
  unfold Reader.pieceRest
  split
  case h_8 hkind => exact absurd hkind hl
  case h_5 | h_6 => exact within_all (by simp)
  case h_4 => exact within_bind (within_all (by simp)) fun _ => within_pure
  case h_7 | h_9 | h_10 => exact within_bind (within_one (by simp)) fun _ => within_pure
  all_goals trivial

/-- A piece that calls a list between backquotes takes the backquote in front of it. -/
theorem piece_opens {adjacent : Bool}
    (h : (Production.piece adjacent).body.RecordsBy (takings n) c place ns xs place') (hx : x ∈ xs)
    {list : Call} {inner : List Call} (hcalls : x.calls = list :: inner)
    (hlist : list.production = .list .backquote) :
    ∃ y ∈ xs, y.calls = [] ∧ y.taken.kind = .backquote ∧ y.taken.token.after = list.start := by
  obtain ⟨o, us, place₁, vs, hask, hrest, rfl⟩ := records_bind.mp h
  obtain ⟨ts, ⟨t, -, ⟨-, rfl, rfl, rfl⟩ | ⟨-, rfl, rfl, rfl⟩⟩, rfl⟩ := records_ask.mp hask
  · have hlater : x ∈ vs := by
      refine (List.mem_append.mp hx).resolve_left fun hfirst => ?_
      rw [List.mem_singleton.mp hfirst] at hcalls
      cases hcalls
    change (Reader.pieceRest t.lexeme).RecordsBy (takings n) c t.after ns vs place' at hrest
    by_cases hkind : t.kind = .backquote
    · simp only [Reader.pieceRest, Token.lexeme, hkind] at hrest
      obtain ⟨_, ws, _, _, hcall, ⟨-, rfl, -⟩, rfl⟩ := records_bind.mp hrest
      rw [List.append_nil] at hlater
      obtain ⟨_, hfirst⟩ := takings_outermost (records_one.mp hcall) hlater
      obtain rfl := (List.cons.inj (hcalls.symm.trans hfirst)).1
      exact ⟨_, List.mem_append_left _ List.mem_cons_self, rfl, hkind, rfl⟩
    · obtain ⟨hnone, -⟩ | ⟨_, p, _, _, _, _, hp, hcall, hx, -⟩ :=
        hrest.taking_cases (within_pieceRest hkind) hlater
      · cases hcalls.symm.trans hnone
      · obtain ⟨_, hfirst⟩ := takings_outermost hcall hx
        obtain rfl := (List.cons.inj (hcalls.symm.trans hfirst)).1
        exact absurd hlist hp
  · obtain ⟨-, rfl, -⟩ := hrest
    cases hx

/-- Whatever is taken in a list between backquotes is taken behind the backquote that opens it,
and a backquote in no list within is the one that closes it. -/
theorem takings_paired (h : takings n c p place ns xs place') (hp : p.Sane) (hx : x ∈ xs)
    {outer inner : List Call} {list : Call} (hcalls : x.calls = outer ++ list :: inner)
    (houter : outer ≠ []) (hlist : list.production = .list .backquote) :
    (∃ y ∈ xs, y.calls = outer ∧ y.taken.kind = .backquote ∧ y.taken.token.after = list.start) ∧
      (x.taken.kind = .backquote → (∀ call ∈ inner, call.production.isList = false) →
        inner = [] ∧ x.taken.token.after = list.stop) := by
  induction n generalizing c p place ns xs place' x outer with
  | zero => exact h.elim
  | succ n ih =>
    obtain ⟨first, outer, rfl⟩ := List.exists_cons_of_ne_nil houter
    obtain ⟨y, rfl, hy⟩ := takings_cases h hx
    obtain ⟨rfl, hwithin : y.calls = outer ++ list :: inner⟩ := List.cons.inj hcalls
    obtain ⟨hnone, -⟩ | ⟨shift, p', start, ns', ys, stop, hcalled, hcall, hy, hsub⟩ := hy
    · rw [hnone] at hwithin
      cases outer <;> cases hwithin
    cases outer with
    | cons second outer =>
      obtain ⟨⟨z, hz, hzcalls, hzopens⟩, hcloses⟩ :=
        ih hcall (hcalled.sane hp) hy hwithin (List.cons_ne_nil _ _)
      exact ⟨⟨_, hsub z hz, congrArg _ hzcalls, hzopens⟩, hcloses⟩
    | nil =>
      obtain ⟨_, hfirst⟩ := takings_outermost hcall hy
      obtain ⟨rfl, rfl⟩ := List.cons.inj (hwithin.symm.trans hfirst)
      obtain rfl : p' = .list .backquote := hlist
      obtain ⟨_, hcloser, rfl⟩ | ⟨hno, -⟩ := hcalled.inBackquote hp c
      · cases hcloser
        refine ⟨?_, fun hkind hinner =>
          (takings_closer hcall trivial rfl hy hkind hfirst hinner).2⟩
        cases hcalled
        obtain ⟨zs, hbody, rfl⟩ := h
        obtain ⟨z, hz, hzy⟩ := List.mem_map.mp hx
        have hzcalls : z.calls = y.calls := (List.cons.inj (congrArg Taking.calls hzy)).2
        obtain ⟨w, hw, hwcalls, hwopens⟩ := piece_opens hbody hz (hzcalls.trans hfirst) rfl
        exact ⟨_, List.mem_map_of_mem hw, congrArg _ hwcalls, hwopens⟩
      · cases hno

end Takings

/-! ### Scripts -/

/-- Where a script has a tree, a backquote pairs up with the innermost open one. Each substitution
between backquotes in the body of another stands in the body of one in parentheses there. And
whatever is consumed while a list between backquotes is open stands behind the backquote that
opened it; where the list is the innermost, a backquote that is consumed is its closer, taken by
the list itself with nothing else of it open. -/
theorem run_backquotes {options : Options} {source : Text} {t : Node} {s : ParseState}
    (h : run options source = .ok t s) :
    (∀ m ∈ t.preorder, ∀ body, m.backquoted? = some body → body.Shields) ∧
    ∃ xs, Takings .script (.list .endOfSource) (.ofText source) [t] xs s.here ∧
      s.lexer.consumed = xs.map (·.taken.token) ∧
      ∀ x ∈ xs, ∀ outer list inner, x.calls = outer ++ list :: inner →
        list.production = .list .backquote →
        (∃ y ∈ xs, y.calls = outer ∧ y.taken.kind = .backquote ∧
          y.taken.token.after = list.start) ∧
        (x.taken.kind = .backquote → (∀ call ∈ inner, call.production.isList = false) →
          inner = [] ∧ x.taken.token.after = list.stop) := by
  constructor
  · obtain ⟨_, -, -, hderives⟩ := run_derives h
    exact (hderives.quiet t List.mem_cons_self).bodies
  · obtain ⟨ys, hrecords, hconsumed⟩ := run_records (run_unlimited h)
    obtain ⟨xs, htakings, rfl⟩ := hrecords.takings
    refine ⟨xs, htakings, hconsumed.trans (List.map_map ..), ?_⟩
    intro x hx outer list inner hcalls hlist
    obtain ⟨n, hn⟩ := htakings
    refine takings_paired hn trivial hx hcalls ?_ hlist
    -- The outermost list is that of the script.
    rintro rfl
    obtain ⟨_, hfirst⟩ := takings_outermost hn hx
    obtain ⟨rfl, -⟩ := List.cons.inj (hcalls.symm.trans hfirst)
    cases hlist

/-- A list that is a single piece. -/
def Node.ofPiece (piece : Node) : Node :=
  .list [.pipelines (.pipeline false (.simpleCommand [] [piece])) none]

/-- Between the backquotes of ``` `$(`a`)` ``` stand others, in parentheses. -/
theorem run_backquotes_nested :
    let innermost := Node.commandSubst ['`'] (.ofPiece (.str ['a']))
    let body := Node.ofPiece (.commandSubst ['$', '('] (.ofPiece innermost))
    innermost ∈ body.preorder ∧ body.Shields ∧
      ∃ s, run ⟨0⟩ ['`', '$', '(', '`', 'a', '`', ')', '`'] =
        .ok (.ofPiece (.commandSubst ['`'] body)) s := by
  intro innermost body
  have hparse : (parse ⟨0⟩ ['`', '$', '(', '`', 'a', '`', ')', '`']).toOption =
      some (.ofPiece (.commandSubst ['`'] body)) := by
    decide +kernel
  obtain ⟨s, hs⟩ := parse_eq_ok_iff.mp (parse_of_toOption hparse)
  have hmem : .commandSubst ['`'] body ∈ (Node.ofPiece (.commandSubst ['`'] body)).preorder := by
    decide +kernel
  exact ⟨by decide +kernel, (run_backquotes hs).1 _ hmem body rfl, s, hs⟩

end ShellGrammar
