import ShellGrammar.Proofs.Print.Word

/-! Commands and lists, read again.

Between the entries of a list the source may have newlines and comments that are not printed. What
is left is the newline that ends an entry, or one space behind another terminal. Such a space belongs
to what stands behind it: to the next entry, or to the closer. -/
namespace ShellGrammar
open Grammar ParseM Rules

variable {c : Context} {a a' a₁ : Scan} {ns : List Node} {n : Node} {gap more : Text} {closer : Closer}

/-! ### Newlines -/

/-- Behind newlines stands something else, and a comment may start there if it may in front. -/
theorem Parses.newlines_behind (h : Parses c .newlines a ns a') :
    ns = [] ∧ (commentMayStart 0 a = true → commentMayStart 0 a' = true) ∧
      ∃ t, c.token? a' = some t ∧ c.wants false (among [.newline]) t = false := by
  refine h.induct (P := fun c p a ns a' => p = .newlines → ns = [] ∧
    (commentMayStart 0 a = true → commentMayStart 0 a' = true) ∧
      ∃ t, c.token? a' = some t ∧ c.wants false (among [.newline]) t = false) ?_ rfl
  rintro c p a ns a' hbody rfl
  obtain ⟨o, a₁, hnext, hrest⟩ := leads_bind.mp hbody
  cases o with
  | none =>
    obtain ⟨t, ht, hwants, rfl⟩ := leads_next_none.mp hnext
    obtain ⟨rfl, rfl⟩ := leads_pure.mp hrest
    exact ⟨rfl, id, t, ht, hwants⟩
  | some l =>
    obtain ⟨t, ht, hwants, -, rfl⟩ := leads_next_some.mp hnext
    obtain ⟨hnil, hmay, hthere⟩ := (leads_all.mp hrest).2 rfl
    refine ⟨hnil, fun _ => hmay ?_, hthere⟩
    refine boundary_of_divider (Context.token?_eq_some.mp ht) ?_
    rw [kind_of_wants hwants]
    decide

/-- Newlines are not printed, and none are read. -/
theorem rereads_newlines (hmode : c.mode = .base) (touch : Prop) (h : Parses c .newlines a ns a₁)
    (hmay : commentMayStart 0 a = true) :
    commentMayStart 0 a₁ = true ∧
      (Reader.all .here .newlines).Rereads c (c.Beyond touch a₁) [] (c.Beyond touch a₁) a ns a₁ := by
  obtain ⟨rfl, hbehind, t, ht, hwants⟩ := h.newlines_behind
  have hmay' := hbehind hmay
  refine ⟨hmay', fun rest hrest => ⟨hrest, fun b hb hlevel => ?_⟩⟩
  have hlevel' : a₁.Level b := by
    rw [Scan.Level, hmay', ← hmay]
    exact hlevel
  obtain ⟨u, t', hu, ht', htells⟩ := hrest.ahead b hb hlevel'
  obtain rfl := Option.some.inj (ht.symm.trans hu)
  refine ⟨b, leads_all.mpr (Parses.newlines_done ht' fun hkind => ?_), hb, hlevel'⟩
  have hwants' : c.wants false (among [.newline]) t' = true :=
    Context.wants_iff.mpr ⟨by rw [hkind]; rfl, .inl ⟨rfl, by rw [hmode]; rfl⟩⟩
  rw [htells.wants (.inl ⟨rfl, by rw [hmode]; rfl⟩), hwants] at hwants'
  cases hwants'

/-! ### Closers -/

namespace Rules
variable {b : Scan} {x : Char} {rest : Text}

/-- In front of what starts no comment, nothing or one space is all that is skipped. -/
theorem skipLength_gap (hx : x ∉ [' ', '\t', '\n', '\\', '#']) (hgap : gap = [] ∨ gap = [' '])
    (hb : b.rest = gap ++ x :: rest) : command.skipLength b = gap.length := by
  have hblank : command.blankLength b.rest = gap.length := by
    rw [hb]
    exact blankLength_gap (fun hmem => hx (List.mem_append_left ['#'] hmem))
      (hgap.imp_right fun h => ⟨h, nofun⟩)
  have hsharp : x ≠ '#' := fun h => hx (by rw [h]; decide)
  rw [skipLength, hblank, hb, List.drop_left, commentLength_of_ne hsharp, Nat.add_zero, ite_self]

/-- A closer is the token where it stands, and the end of the source where the text has ended. -/
theorem tokenAt_closer (hgap : gap = [] ∨ gap = [' ']) (hend : closer = .endOfSource → more = [])
    (hb : b.rest = gap ++ (closer.text ++ more)) : ∃ t, command.tokenAt b = .ok t ∧ t.kind = closer.kind := by
  have hclosed : ∀ x, closer.text = [x] → x ∉ [' ', '\t', '\n', '\\', '#'] →
      (∀ more, firstFit command.set.rules (x :: more) = some (closer.kind, 1)) →
        ∃ t, command.tokenAt b = .ok t ∧ t.kind = closer.kind := by
    intro x htext hx hfit
    rw [htext] at hb
    have hdrop : b.rest.drop (command.skipLength b) = x :: more := by
      rw [skipLength_gap hx hgap hb, hb, List.drop_left]
      rfl
    exact ⟨_, tokenAt_of_fit (hdrop ▸ hfit more), rfl⟩
  cases closer with
  | endOfSource =>
    rw [hend rfl] at hb
    have hdrop : b.rest.drop (command.skipLength b) = [] := by
      obtain rfl | rfl := hgap
      · rw [hb]
        exact List.drop_nil
      · have hskip : command.skipLength b = 1 := by
          rw [skipLength, hb]
          show (if _ then 1 + 0 else 1) = 1
          rw [ite_self]
        rw [hskip, hb]
        rfl
    refine ⟨cut .eos (command.skipLength b) 0 b, ?_, rfl⟩
    simp only [tokenAt, hdrop]
  | paren => exact hclosed ')' rfl (by decide) fun _ => rfl
  | backquote => exact hclosed '`' rfl (by decide) fun _ => rfl

/-- In front of a closer no token gets longer. -/
theorem keeps_closer {old : Text} (hgap : gap = [] ∨ gap = [' ']) (hend : closer = .endOfSource → more = []) :
    command.Keeps old (gap ++ (closer.text ++ more)) := by
  obtain rfl | rfl := hgap
  · cases closer with
    | endOfSource =>
      rw [hend rfl]
      exact keeps_nil
    | paren => exact keeps_bound (by decide) (by decide)
    | backquote => exact keeps_bound (by decide) (by decide)
  · exact keeps_bound (by decide) (by decide)

end Rules

/-- No closer starts a piece. -/
theorem closer_notMem_pieceStart (hback : closer = .backquote → c.inBackquote = true) :
    closer.kind ∉ pieceStart c.inBackquote := by
  cases closer with
  | endOfSource | paren => cases c.inBackquote <;> decide
  | backquote =>
    rw [hback rfl]
    decide

section Base
variable (hmode : c.mode = .base)
include hmode

/-- In front of a closer the same is ahead of what stands there, behind a space or not. -/
theorem beyond_closer {t : Token} (ht : c.token? a = some t) (hkind : t.kind = closer.kind)
    (hback : closer = .backquote → c.inBackquote = true) (hgap : gap = [] ∨ gap = [' '])
    (hend : closer = .endOfSource → more = []) : c.Beyond True a (gap ++ (closer.text ++ more)) := by
  refine ⟨fun b hb _ => ?_, fun _ => ?_⟩
  · obtain ⟨t', ht', hkind'⟩ := tokenAt_closer hgap hend hb
    refine ahead_of_spelling ht (Context.token?_eq_some.mpr ?_) (hkind'.trans hkind.symm)
      (hkind ▸ closer.spelling?_kind) fun _ => hkind ▸ closer_notMem_pieceStart hback
    rw [rules_of_base hmode]
    exact ht'
  · rw [rules_of_base hmode]
    exact keeps_closer hgap hend

/-- A space may stand in front of a closer. -/
theorem spaces_closer {t : Token} (ht : c.token? a = some t) (hkind : t.kind = closer.kind)
    (hgap : gap = [] ∨ gap = [' ']) : c.Spaces a gap := by
  refine hgap.imp_right fun h => ⟨h, by rw [hmode]; nofun, by rw [hmode]; rfl, fun _ u hu => ?_⟩
  obtain rfl := Option.some.inj (ht.symm.trans hu)
  rw [body_of_spelling (Context.token?_eq_some.mp ht) (hkind ▸ closer.spelling?_kind)]
  cases closer <;> decide

/-- Where the same is ahead as of a token, no other parenthesis stands. -/
theorem paren_of_beyond {touch : Prop} {t : Token} {rest : Text} (hmay : commentMayStart 0 a = true)
    (ht : c.token? a = some t) (hkind : t.kind ≠ .lparen) (h : c.Beyond touch a rest) :
    rest.head? ≠ some '(' := by
  intro hhead
  obtain ⟨more, rfl⟩ := List.head?_eq_some_iff.mp hhead
  obtain ⟨u, t', hu, ht', htells⟩ := h.ahead (.ofText ('(' :: more)) rfl (by rw [Scan.Level, hmay]; rfl)
  obtain rfl := Option.some.inj (ht.symm.trans hu)
  have hskip : command.skipLength (.ofText ('(' :: more)) = 0 :=
    skipLength_gap (by decide) (.inl rfl) rfl
  have hfit : firstFit command.set.rules ((Scan.ofText ('(' :: more)).rest.drop
      (command.skipLength (.ofText ('(' :: more)))) = some (.lparen, 1) := by
    rw [hskip]
    rfl
  rw [Context.token?_eq_some, rules_of_base hmode, tokenAt_of_fit hfit] at ht'
  cases ht'
  exact hkind htells.akin.kind.symm

/-! ### Where commands start and end -/

/-- Behind assignments no piece touches. -/
theorem stops_of_assigns (h : Parses c (.many .assign) a (n :: ns) a') : Stops c a' := by
  induction ns generalizing a n with
  | nil =>
    obtain ⟨ms, a₁, hassign, hrest⟩ := h.many_cons
    obtain rfl := hrest.many_nil.assign_nil
    exact (assign_starts hmode hassign).2.1
  | cons m ms ih =>
    obtain ⟨_, a₁, -, hrest⟩ := h.many_cons
    exact ih hrest

theorem command_starts (h : Parses c .command a [n] a') :
    ∃ t, c.token? a = some t ∧ t.kind ∈ pieceStart c.inBackquote := by
  obtain ⟨assigns, a₁, hassigns, hrest⟩ := leads_bind.mp (parses_iff.mp h)
  obtain ⟨body, a₂, hwords, hrest⟩ := leads_bind.mp hrest
  have hassigns : Parses c (.many .assign) a assigns a₁ := leads_all.mp hassigns
  have hwords : Parses c (.many .word) a₁ body a₂ := leads_all.mp hwords
  cases assigns with
  | cons m ms =>
    obtain ⟨_, _, hassign, -⟩ := hassigns.many_cons
    exact (assign_starts hmode hassign).2.2
  | nil =>
    obtain rfl := hassigns.many_nil.assign_nil
    cases body with
    | nil => exact hrest.elim
    | cons m ms =>
      obtain ⟨_, _, hword, -⟩ := hwords.many_cons
      exact (word_starts hmode hword).2.2

theorem pipes_start (h : Parses c (.chain .pipe) a [n] a') :
    ∃ t, c.token? a = some t ∧ t.kind ∈ pieceStart c.inBackquote := by
  obtain ⟨first, a₁, hfirst, -⟩ := leads_bind.mp (parses_iff.mp h)
  exact command_starts hmode (leads_one.mp hfirst)

theorem pipeline_starts (h : Parses c .pipeline a [n] a') :
    ∃ t, c.token? a = some t ∧ t.kind ∈ pieceStart c.inBackquote := by
  obtain ⟨excl, a₁, hask, hrest⟩ := leads_bind.mp (parses_iff.mp h)
  obtain ⟨body, a₂, hone, -⟩ := leads_bind.mp hrest
  obtain ⟨t, ht, ⟨-, -, rfl⟩ | ⟨hbang, -⟩⟩ := Query.bang_iff.mp (leads_query.mp hask)
  · exact pipes_start hmode (leads_one.mp hone)
  · refine ⟨t, ht, ?_⟩
    rw [kind_of_wants hbang.1]
    cases c.inBackquote <;> decide

theorem entry_starts (h : Parses c .entry a [n] a') :
    ∃ t, c.token? a = some t ∧ t.kind ∈ pieceStart c.inBackquote := by
  obtain ⟨body, a₁, hone, -⟩ := leads_bind.mp (parses_iff.mp h)
  obtain ⟨first, a₂, hfirst, -⟩ := leads_bind.mp (parses_iff.mp (leads_one.mp hone))
  exact pipeline_starts hmode (leads_one.mp hfirst)

end Base

/-! ### Commands -/

section Bang
variable (hmode : c.mode = .base)
include hmode

/-- A `!` is taken again, if it is kept apart from what stands behind it. -/
theorem rereads_banged (hanswer : Query.bang.answer c a = some (true, a₁)) (hgap : c.Spaces a gap) :
    Stops c a₁ ∧ (Reader.ask .bang .done).Rereads c (c.Beyond (c.Fits a gap) a) (gap ++ ['!'])
      (c.Beyond True a₁) a true a₁ := by
  have hrules := rules_of_base hmode
  obtain ⟨t, ht, ⟨-, hno, -⟩ | ⟨⟨hwants, hbody⟩, u, hu, ⟨-, hno, -⟩ | ⟨hapart, -, rfl⟩⟩⟩ :=
    Query.bang_iff.mp hanswer
  · cases hno
  · cases hno
  have htake : (Query.take false fun _ => among [.str]).answer c a = some (some t.lexeme, t.after) :=
    Query.take_some.mpr ⟨t, ht, hwants, rfl, rfl⟩
  have hkind : t.lexeme.kind ∉ [Kind.amp, .pipe, .eos, .glyph] := by
    rw [show t.lexeme.kind = .str from kind_of_wants hwants]
    decide
  refine ⟨⟨u, hu, fun hblank hmem => ?_⟩, fun more hmore => ?_⟩
  · rw [Context.wants_iff.mpr ⟨among_pieceStart.mpr hmem, .inr hblank⟩] at hapart
    cases hapart
  obtain ⟨hagain, hreads⟩ := rereads_take_kept htake hgap (fun _ => rfl) hkind more hmore
  rw [show t.lexeme.body = ['!'] from hbody] at hagain hreads
  refine ⟨hagain.beyond hgap (by rw [hrules]; nofun), fun b hb hlevel => ?_⟩
  obtain ⟨b', hlead, hb', hlevel'⟩ := hreads b hb hlevel
  obtain ⟨t', ht', hwants', hlexeme, rfl⟩ := Query.take_some.mp (leads_query.mp hlead)
  obtain ⟨v, u', hv, hu', htells⟩ := hmore.ahead t'.after hb' hlevel'
  obtain rfl := Option.some.inj (hu.symm.trans hv)
  have hbody' : t'.body = ['!'] := (congrArg Lexeme.body hlexeme).symm.trans hbody
  have hsame : c.wants true (among (pieceStart c.inBackquote)) u' =
      c.wants true (among (pieceStart c.inBackquote)) u :=
    htells.wants (.inr ⟨trivial, by rw [hrules]; nofun, fun _ => among_pieceStart.mp⟩)
  exact ⟨t'.after, leads_query.mpr (Query.bang_iff.mpr ⟨t', ht', .inr ⟨⟨hwants', hbody'⟩, u', hu',
    .inr ⟨hsame.trans hapart, rfl, rfl⟩⟩⟩), hb', hlevel'⟩

/-- Where none stands alone, none is taken. -/
theorem rereads_unbanged (touch : Prop) (hanswer : Query.bang.answer c a = some (false, a₁)) :
    a₁ = a ∧ (Reader.ask .bang .done).Rereads c (c.Beyond touch a) [] (c.Beyond touch a) a false a₁ := by
  have hstay : a₁ = a := by
    obtain ⟨_, _, ⟨_, _, rfl⟩ | ⟨_, _, _, ⟨_, _, rfl⟩ | ⟨_, hyes, _⟩⟩⟩ := Query.bang_iff.mp hanswer
    · rfl
    · rfl
    · cases hyes
  subst hstay
  exact ⟨rfl, rereads_ahead fun _ hahead => (hahead.bang hmode hanswer).1⟩

end Bang

namespace Production.Reprints

theorem command (hmode : c.mode = .base) (h : Production.command.body.LeadsBy Reprinted c a ns a') :
    Production.command.Reprints c a ns a' := by
  intro gap hgap _ _
  obtain ⟨assigns, a₁, hassigns, hrest⟩ := leads_bind.mp h
  obtain ⟨body, a₂, hwords, hrest⟩ := leads_bind.mp hrest
  have hassigns : Reprinted c (.many .assign) a assigns a₁ := leads_all.mp hassigns
  have hwords : Reprinted c (.many .word) a₁ body a₂ := leads_all.mp hwords
  refine rereads_body (p := .command) ?_
  cases assigns with
  | nil =>
    cases body with
    | nil => exact hrest.elim
    | cons m ms =>
      obtain ⟨rfl, rfl⟩ := leads_pure.mp hrest
      obtain ⟨rfl, hunassigned⟩ := rereads_unassigned hmode (c.Fits a gap) hassigns.1
      have hwords := hwords.2 hmode gap hgap nofun nofun
      refine .of_text (rereads_behind hunassigned (rereads_bind hwords rereads_pure fun _ _ => id)) ?_
      simp [Production.printed, Node.printed, Node.printedApart]
  | cons m ms =>
    obtain ⟨rfl, rfl⟩ := leads_pure.mp hrest
    have hassigned := hassigns.2 hmode gap hgap nofun nofun
    have hbetween : body ≠ [] → c.Spaces a₁ [' '] ∧ c.Fits a₁ [' '] := by
      intro hne
      obtain ⟨k, rest, rfl⟩ := List.exists_cons_of_ne_nil hne
      obtain ⟨_, _, hword, -⟩ := hwords.1.many_cons
      obtain ⟨-, -, t, ht, hkind⟩ := word_starts hmode hword
      exact apart_of_stops hmode (stops_of_assigns hmode hassigns.1) ht hkind
    have hbehind := rereads_rest Parses.word_nil (fun _ => rfl) rfl hbetween hwords.1 (hwords.2 hmode)
    refine .of_text (rereads_bind hassigned (rereads_bind hbehind rereads_pure fun _ _ => id) fun _ _ => id) ?_
    cases body <;> simp [Production.printed, Node.printed, Node.printedApart]

end Production.Reprints

/-! ### Chains -/

section Chains
variable {ch : Chain} {l : Lexeme} {left : Node}

/-- Operators start no piece, and are no bare text. -/
theorem Chain.plain_of_wants {kind : Kind} (h : ch.wants kind = true) (inBackquote : Bool) :
    kind ∉ [Kind.str, .ident, .eos, .glyph] ∧ kind ∉ pieceStart inBackquote := by
  cases ch with
  | binary min =>
    have hsome : (rowOf? kind).isSome = true := by
      rw [Chain.wants, isBinaryFrom] at h
      cases hrow : rowOf? kind with
      | none =>
        rw [hrow] at h
        cases h
      | some row => rfl
    cases kind <;> first | cases inBackquote <;> decide | cases hsome
  | andOr | pipe | comma => cases kind <;> first | cases inBackquote <;> decide | cases h

theorem Chain.join_printed (op : Text) (left right : Node) :
    (ch.join op left right).printed = left.printed ++ ([' '] ++ (op ++ ([' '] ++ right.printed))) := by
  cases ch <;> rw [Chain.join, Node.printed]

variable (hmode : c.mode = if ch.isCommand then .base else ⟨.arith, true⟩)
include hmode

/-- What both modes of chains have in common. -/
theorem mode_of_chain :
    c.mode.allowBlank = true ∧ c.mode.rules.set.blank ≠ none ∧ c.mode.rules.text ' ' = false := by
  rw [hmode]
  split
  · exact ⟨rfl, nofun, by decide⟩
  · exact ⟨rfl, nofun, rfl⟩

/-- A space may stand in front of an operator. -/
theorem spaces_operator {t : Token} (ht : c.token? a = some t) (hwants : ch.wants t.kind = true) :
    c.Spaces a [' '] := by
  obtain ⟨hallow, hblank, -⟩ := mode_of_chain hmode
  refine .inr ⟨rfl, hblank, hallow, fun hrules u hu => ?_⟩
  obtain rfl := Option.some.inj (ht.symm.trans hu)
  cases ch with
  | comma | binary min =>
    rw [hmode] at hrules
    cases hrules
  | andOr | pipe =>
    have hall : ∀ kind, Chain.andOr.wants kind = true ∨ Chain.pipe.wants kind = true →
        ∃ spelling, kind.spelling? = some spelling ∧ spelling.head? ≠ some '#' := by
      intro kind hkind
      cases kind <;> first | exact ⟨_, rfl, by decide⟩ | (revert hkind; decide)
    obtain ⟨spelling, hspelling, hhead⟩ := hall t.kind (by first | exact .inl hwants | exact .inr hwants)
    rwa [body_of_spelling (Context.token?_eq_some.mp ht) hspelling]

/-- An operator is read again with a space behind it. -/
theorem rereads_operator (h : ch.operator.LeadsBy Reprinted c a (some l) a₁) :
    (ch.isCommand = true → commentMayStart 0 a₁ = true) ∧
      ch.operator.Rereads c (c.Beyond True a) ([' '] ++ l.body)
        (fun more => (∃ rest, more = ' ' :: rest) ∧ c.Beyond False a₁ more) a (some l) a₁ := by
  obtain ⟨hallow, hblank, hspace⟩ := mode_of_chain hmode
  obtain ⟨o, a₂, htake, hrest⟩ := leads_bind.mp h
  have hanswer := leads_query.mp htake
  cases o with
  | none => cases (leads_pure.mp hrest).1
  | some op =>
    obtain ⟨t, ht, hwants, rfl, rfl⟩ := Query.take_some.mp hanswer
    have hwant := (Context.wants_iff.mp hwants).1
    obtain ⟨hplain, hpiece⟩ := Chain.plain_of_wants hwant c.inBackquote
    have htoken := rereads_take_bound hanswer (spaces_operator hmode ht hwant) (fun _ => rfl) hplain
    have hoperator : (Reader.ask (.take false fun _ => ch.wants) .done).Rereads c (c.Beyond True a)
        ([' '] ++ t.body) (fun more => ∃ rest, more = ' ' :: rest) a (some t.lexeme) t.after := by
      refine htoken.mono (fun more _ hagain =>
        hagain.beyond_of_kind (fun u hu => ?_) (keeps_bound (by decide) hspace)) ?_
      · obtain rfl := Option.some.inj (ht.symm.trans hu)
        exact hpiece
      · rintro _ ⟨rest, rfl⟩
        exact ⟨' ', rest, rfl, by decide, hspace⟩
    cases hcommand : ch.isCommand with
    | true =>
      simp only [hcommand, if_true] at hrest hmode
      obtain ⟨ms, a₃, hall, hpure⟩ := leads_bind.mp hrest
      obtain ⟨hsame, rfl⟩ := leads_pure.mp hpure
      cases hsame
      have hmem : t.kind ∈ dividers := by
        cases ch with
        | comma | binary min => cases hcommand
        | andOr | pipe =>
          revert hwant
          cases t.kind <;> decide
      have hmay := boundary_of_divider (Context.token?_eq_some.mp ht) hmem
      obtain ⟨hmay', hnewlines⟩ := rereads_newlines hmode False (leads_all.mp hall).1 hmay
      refine ⟨fun _ => hmay', ?_⟩
      rw [Chain.operator]
      simp only [hcommand, if_true]
      have hbehind : (do let _ ← Reader.all .here .newlines; pure (some t.lexeme) : Reader (Option Lexeme)).Rereads c
          (c.Beyond False a₁) [] (c.Beyond False a₁) t.after (some t.lexeme) a₁ :=
        rereads_behind hnewlines rereads_pure
      exact .of_text (rereads_bind hoperator (hbehind.mono (fun _ _ => id) fun _ hmore => hmore.2)
        fun _ hmore _ => hmore.1) (List.append_nil _).symm
    | false =>
      simp only [hcommand, Bool.false_eq_true, if_false] at hrest
      obtain ⟨hsame, rfl⟩ := leads_pure.mp hrest
      cases hsame
      refine ⟨fun hyes => Bool.noConfusion hyes, ?_⟩
      rw [Chain.operator]
      simp only [hcommand, Bool.false_eq_true, if_false]
      exact .of_text (rereads_bind hoperator rereads_pure fun _ hmore _ => hmore.1) (List.append_nil _).symm

/-- Where no operator stands, none is read. -/
theorem rereads_unoperated (touch : Prop) (h : ch.operator.LeadsBy Reprinted c a none a₁) :
    a₁ = a ∧ ch.operator.Rereads c (c.Beyond touch a) [] (c.Beyond touch a) a none a₁ := by
  obtain ⟨hallow, -⟩ := mode_of_chain hmode
  obtain ⟨t, ht, hwants, rfl⟩ := leads_operator_none.mp h
  refine ⟨rfl, .of_stay fun more hmore => ⟨hmore, fun b hb hlevel => ?_⟩⟩
  obtain ⟨u, t', hu, ht', htells⟩ := hmore.ahead b hb hlevel
  obtain rfl := Option.some.inj (ht.symm.trans hu)
  exact leads_operator_none.mpr ⟨t', ht', (htells.wants (.inl ⟨rfl, hallow⟩)).trans hwants, rfl⟩

/-- What stands between operators is read again. -/
theorem rereads_joined {p : Production} (hp : p = ch.first ∨ ∃ kind, p = ch.operand kind)
    (h : (Reader.one .here p).LeadsBy Reprinted c a n a') (hgap : c.Spaces a gap) :
    (Reader.one .here p).Rereads c (c.Beyond (c.Fits a gap) a) (gap ++ n.printed) (c.Beyond True a') a n a' := by
  have hreprinted : Reprinted c p a [n] a' := leads_one.mp h
  obtain ⟨hfitting, hresumes, hjoined, hprinted⟩ : p.Fitting c ∧
      (p.Reprints c a [n] a' → p.Resumes c a [n] a') ∧ p.isJoined = false ∧ p.printed [n] = n.printed := by
    rcases hp with rfl | ⟨kind, rfl⟩ <;> cases ch <;> exact ⟨hmode, id, rfl, Node.printedAll_singleton n⟩
  have hreads := hresumes (hreprinted.2 hfitting) gap hgap
    (fun hyes => Bool.noConfusion (hjoined.symm.trans hyes)) nofun
  rw [hprinted] at hreads
  exact rereads_one (show (Reader.all .here p).Rereads (c.shift .here) _ _ _ _ _ _ from hreads)

/-- A space may stand in front of what an operator joins. -/
theorem spaces_operand (hmay : ch.isCommand = true → commentMayStart 0 a = true) : c.Spaces a [' '] := by
  cases hcommand : ch.isCommand with
  | true =>
    rw [hcommand, if_pos rfl] at hmode
    exact c.spaces_base hmode (.inl (hmay hcommand))
  | false =>
    rw [hcommand, if_neg Bool.false_ne_true] at hmode
    exact c.spaces_arith hmode

end Chains

namespace Production.Reprints

theorem chainRest {ch : Chain} {left : Node} (hmode : c.mode = if ch.isCommand then .base else ⟨.arith, true⟩)
    (h : (Production.chainRest ch left).body.LeadsBy Reprinted c a ns a') :
    (Production.chainRest ch left).Reprints c a ns a' := by
  obtain ⟨o, a₁, hoperator, hrest⟩ := leads_bind.mp h
  cases o with
  | none =>
    obtain ⟨rfl, rfl⟩ := leads_pure.mp hrest
    obtain ⟨rfl, hunoperated⟩ := rereads_unoperated hmode True hoperator
    refine ⟨left, [], rfl, (List.append_nil _).symm, rereads_body (p := .chainRest ch left) ?_⟩
    exact rereads_behind hunoperated rereads_pure
  | some op =>
    obtain ⟨right, a₂, hone, hall⟩ := leads_bind.mp hrest
    obtain ⟨hmay, hop⟩ := rereads_operator hmode hoperator
    have hoperand := rereads_joined hmode (.inr ⟨op.kind, rfl⟩) hone (spaces_operand hmode hmay)
    obtain ⟨n, text, rfl, hn, hreads⟩ := (leads_all.mp hall).2 hmode
    refine ⟨n, _, rfl, ?_, rereads_body (p := .chainRest ch left) (rereads_bind hop (rereads_bind hoperand hreads
      fun _ _ => id) fun more hmore hbeyond => ⟨⟨_, rfl⟩, hbeyond.mono nofun⟩)⟩
    rw [hn, Chain.join_printed]
    simp only [List.append_assoc]

theorem chain {ch : Chain} (hmode : c.mode = if ch.isCommand then .base else ⟨.arith, true⟩)
    (h : (Production.chain ch).body.LeadsBy Reprinted c a ns a') : (Production.chain ch).Reprints c a ns a' := by
  intro gap hgap _ _
  obtain ⟨left, a₁, hone, hall⟩ := leads_bind.mp h
  have hfirst := rereads_joined hmode (.inl rfl) hone hgap
  obtain ⟨n, text, rfl, hn, hreads⟩ := (leads_all.mp hall).2 hmode
  refine rereads_body (p := .chain ch) (.of_text (rereads_bind hfirst hreads fun _ _ => id) ?_)
  rw [show (Production.chain ch).printed [n] = n.printed from Node.printedAll_singleton n, hn, List.append_assoc]

theorem pipeline (hmode : c.mode = .base) (h : Production.pipeline.body.LeadsBy Reprinted c a ns a') :
    Production.pipeline.Reprints c a ns a' := by
  intro gap hgap _ _
  obtain ⟨excl, a₁, hask, hrest⟩ := leads_bind.mp h
  obtain ⟨body, a₂, hone, hpure⟩ := leads_bind.mp hrest
  obtain ⟨rfl, rfl⟩ := leads_pure.mp hpure
  have hanswer := leads_query.mp hask
  have hbody := leads_one.mp hone
  refine rereads_body (p := .pipeline) ?_
  cases excl with
  | true =>
    obtain ⟨hstops, hbanged⟩ := rereads_banged hmode hanswer hgap
    obtain ⟨t, ht, hkind⟩ := pipes_start hmode hbody.1
    obtain ⟨hspaces, hfits⟩ := apart_of_stops hmode hstops ht hkind
    have hreads := rereads_one (hbody.2 hmode [' '] hspaces nofun nofun)
    refine .of_text (rereads_bind hbanged (rereads_bind hreads rereads_pure fun _ _ => id)
      fun _ _ hmore => hmore.mono fun _ => hfits) ?_
    simp [Production.printed, Node.printed]
  | false =>
    obtain ⟨rfl, hunbanged⟩ := rereads_unbanged hmode (c.Fits a gap) hanswer
    have hreads := rereads_one (hbody.2 hmode gap hgap nofun nofun)
    refine .of_text (rereads_behind hunbanged (rereads_bind hreads rereads_pure fun _ _ => id)) ?_
    simp [Production.printed, Node.printed]

end Production.Reprints

/-! ### Lists -/

/-- What ends an entry makes nothing longer in front of it, and is no other operator in front of the
space that is printed behind it. -/
theorem Rules.fit_terminal {kind : Kind} {body : Text} (hkind : kind ∈ terminals)
    (hspelling : kind.spelling? = some body) :
    ∃ trail, (trail = [] ∨ trail = [' ']) ∧ printedTerminal (some body) = body ++ trail ∧
      (∀ old more, old ≠ [] → command.Keeps old (body ++ more)) ∧
        ∀ more, trail <+: more → firstFit command.set.rules (body ++ more) = some (kind, body.length) := by
  simp only [terminals, List.mem_cons, List.not_mem_nil, or_false] at hkind
  obtain rfl | rfl | rfl := hkind <;> cases hspelling
  · exact ⟨[' '], .inr rfl, rfl, fun _ _ _ => keeps_bound (by decide) (by decide), fun _ _ => rfl⟩
  · exact ⟨[], .inl rfl, rfl, fun _ _ _ => keeps_bound (by decide) (by decide), fun _ _ => rfl⟩
  · refine ⟨[' '], .inr rfl, rfl, fun _ _ hold => keeps_amp hold, ?_⟩
    rintro _ ⟨more, rfl⟩
    rfl

theorem plain_of_terminal {kind : Kind} (hkind : kind ∈ terminals) (inBackquote : Bool) :
    kind ∈ dividers ∧ kind ∉ [Kind.str, .ident, .eos, .glyph] ∧ kind ∉ pieceStart inBackquote ∧
      ∃ body, kind.spelling? = some body := by
  simp only [terminals, List.mem_cons, List.not_mem_nil, or_false] at hkind
  obtain rfl | rfl | rfl := hkind <;>
    exact ⟨by decide, by decide, by cases inBackquote <;> decide, _, rfl⟩

/-- What ends an entry is read again, with the space behind it that is printed. -/
theorem rereads_terminal {l : Lexeme} (hmode : c.mode = .base)
    (h : (Reader.next terminals).LeadsBy Reprinted c a (some l) a₁) :
    commentMayStart 0 a₁ = true ∧ ∃ trail, (trail = [] ∨ trail = [' ']) ∧
      printedTerminal (some l.body) = l.body ++ trail ∧
        (Reader.next terminals).Rereads c (c.Beyond True a) l.body (fun more => trail <+: more) a (some l) a₁ := by
  have hrules := rules_of_base hmode
  obtain ⟨t, ht, hwants, rfl, rfl⟩ := leads_next_some.mp h
  have hlexed := Context.token?_eq_some.mp ht
  have hmem := mem_of_wants (List.cons_ne_nil _ _) hwants
  obtain ⟨hdivides, hplain, hpiece, body, hspelling⟩ := plain_of_terminal hmem c.inBackquote
  obtain ⟨trail, htrail, hprinted, hkeeps, hfit⟩ := fit_terminal hmem hspelling
  have hbody : t.lexeme.body = body := body_of_spelling hlexed hspelling
  have hrest : a.rest ≠ [] := by
    rw [tokenAt_front hlexed]
    exact List.append_ne_nil_of_right_ne_nil _
      (List.append_ne_nil_of_left_ne_nil (body_of_divider hlexed hdivides) _)
  rw [← hbody] at hprinted hkeeps hfit
  refine ⟨boundary_of_divider hlexed hdivides, trail, htrail, hprinted, ?_⟩
  refine (rereads_take_opener (leads_query.mp h) c.spaces_nil (fun _ => rfl) hplain (hrules ▸ hfit)).mono
    (fun more _ hagain => hagain.beyond_of_kind (fun u hu => ?_) ?_) fun _ => id
  · obtain rfl := Option.some.inj (ht.symm.trans hu)
    exact hpiece
  · rw [hrules]
    exact hkeeps a.rest more hrest

namespace Production.Reprints

theorem entry (hmode : c.mode = .base) (h : Production.entry.body.LeadsBy Reprinted c a ns a') :
    Production.entry.Reprints c a ns a' := by
  intro gap hgap
  obtain ⟨body, a₁, hone, hrest⟩ := leads_bind.mp h
  obtain ⟨o, a₂, hnext, hpure⟩ := leads_bind.mp hrest
  obtain ⟨rfl, rfl⟩ := leads_pure.mp hpure
  have hchain := rereads_one ((leads_one.mp hone).2 hmode gap hgap nofun nofun)
  rw [show (Production.chain .andOr).printed [body] = body.printed from Node.printedAll_singleton body] at hchain
  cases o with
  | none =>
    obtain ⟨-, -, -, rfl⟩ := leads_next_none.mp hnext
    have hdecides : c.Decides True false (among terminals) := .inl ⟨rfl, by rw [hmode]; rfl⟩
    have huntaken := rereads_untaken (leads_query.mp hnext) hdecides
    refine ⟨_, body.printed, [], rfl, rfl, .inl rfl, nofun, fun _ => rfl, rereads_body ?_⟩
    exact .of_text (rereads_bind hchain (rereads_bind huntaken rereads_pure fun _ _ => id) fun _ _ => id)
      (by rw [List.append_nil, List.append_nil])
  | some l =>
    obtain ⟨hmay, trail, htrail, hprinted, hreads⟩ := rereads_terminal hmode hnext
    refine ⟨_, body.printed ++ l.body, trail, rfl, ?_, htrail, fun _ => hmay, nofun, rereads_body ?_⟩
    · rw [Node.printed, Option.map_some, hprinted, List.append_assoc]
    exact .of_text (rereads_bind hchain (rereads_bind hreads rereads_pure fun _ _ => id) fun _ _ => id)
      (by rw [List.append_nil, List.append_assoc])

end Production.Reprints

/-- What is read of a list behind an entry. -/
def Reader.behindEntry (closer : Closer) (first : Node) : Reader (List Node) :=
  if isTerminated first then do pure (first :: (← Reader.all .here (.entries closer))) else pure [first]

/-- What is read of a list behind newlines, where it has ended or not. -/
def Reader.behindNewlines (closer : Closer) (ended : Bool) : Reader (List Node) :=
  if ended then pure [] else do Reader.behindEntry closer (← Reader.one .here .entry)

section Entries
variable {pre post : Text → Prop} {text : Text}

/-- Entries are read again behind newlines that are not printed. -/
theorem rereads_entries {touch : Prop} {t : Token} {ended : Bool} {ms : List Node}
    (hmode : c.mode = .base) (hmay : commentMayStart 0 a₁ = true) (ht : c.token? a₁ = some t)
    (hkind : t.kind ≠ .lparen)
    (hnewlines : (Reader.all .here .newlines).Rereads c (c.Beyond touch a₁) [] (c.Beyond touch a₁) a ms a₁)
    (hpeek : (Reader.peek [closer.kind]).Rereads c (c.Beyond touch a₁) [] (c.Beyond touch a₁) a₁ ended a₁)
    (hrest : (Reader.behindNewlines closer ended).Rereads c (c.Beyond touch a₁) text post a₁ ns a') :
    (Reader.all .here (.entries closer)).Rereads c (fun rest => rest.head? ≠ some '(') text post a ns a' :=
  rereads_body ((rereads_behind hnewlines (rereads_behind hpeek hrest)).mono
    (fun _ _ => paren_of_beyond hmode hmay ht hkind) fun _ => id)

/-- Behind an entry that nothing ends the list is over. -/
theorem rereads_last (hterminated : isTerminated n = false) :
    (Reader.behindEntry closer n).Rereads c post [] post a [n] a := by
  rw [Reader.behindEntry, if_neg (by rw [hterminated]; exact Bool.false_ne_true)]
  exact rereads_pure

/-- Behind an entry that is ended the list goes on. -/
theorem rereads_more (hterminated : isTerminated n = true)
    (h : (Reader.all .here (.entries closer)).Rereads c pre text post a ns a') :
    (Reader.behindEntry closer n).Rereads c pre text post a (n :: ns) a' := by
  rw [Reader.behindEntry, if_pos hterminated]
  exact .of_text (rereads_bind h rereads_pure fun _ _ => id) (List.append_nil _).symm

end Entries

namespace Production.Reprints

theorem entries (hmode : c.mode = .base) (h : (Production.entries closer).body.LeadsBy Reprinted c a ns a') :
    (Production.entries closer).Reprints c a ns a' := by
  intro hback hmay hend gap hgap
  obtain ⟨ms, a₁, hnewlines, hrest⟩ := leads_bind.mp h
  obtain ⟨ended, a₂, hpeek, hrest⟩ := leads_bind.mp hrest
  have hanswer := leads_query.mp hpeek
  obtain ⟨-, -, -, rfl⟩ := Query.peek_iff.mp hanswer
  obtain ⟨hmay', hnewlines⟩ := rereads_newlines hmode (c.Fits a₂ gap) (leads_all.mp hnewlines).1 hmay
  have hdecides : c.Decides (c.Fits a₂ gap) false (among [closer.kind]) := .inl ⟨rfl, by rw [hmode]; rfl⟩
  have hpeeked := rereads_peek hanswer hdecides
  cases ended with
  | true =>
    obtain ⟨rfl, rfl⟩ := leads_pure.mp hrest
    obtain ⟨t, ht, hkind⟩ := hend
    have hparen : t.kind ≠ .lparen := by
      rw [hkind]
      cases closer <;> decide
    refine ⟨[], gap, List.append_nil gap, hgap, rereads_entries hmode hmay' ht hparen hnewlines hpeeked ?_⟩
    refine Reader.Rereads.mono rereads_pure (fun _ _ => id) ?_
    rintro _ ⟨more, rfl, hmore⟩
    exact (beyond_closer hmode ht hkind hback hgap hmore).mono fun _ => trivial
  | false =>
    obtain ⟨first, a₃, hone, hrest⟩ := leads_bind.mp hrest
    have hentry := leads_one.mp hone
    obtain ⟨t, ht, hpiece⟩ := entry_starts hmode hentry.1
    have hparen : t.kind ≠ .lparen := by
      intro hkind
      rw [hkind] at hpiece
      revert hpiece
      cases c.inBackquote <;> decide
    have hspaces : c.Spaces a₂ gap := by
      obtain rfl | rfl := hgap
      · exact c.spaces_nil
      · exact c.spaces_base hmode (.inl hmay')
    obtain ⟨_, core, trail, heq, hprinted, htrail, hafter, hnone, hreads⟩ := hentry.2 hmode gap hspaces
    cases heq
    cases hterminated : isTerminated first with
    | true =>
      simp only [hterminated, if_true] at hrest hreads
      obtain ⟨rest, a₄, hall, hpure⟩ := leads_bind.mp hrest
      obtain ⟨rfl, rfl⟩ := leads_pure.mp hpure
      -- The space behind the entry belongs to the next one, or to the closer.
      obtain ⟨core', trail', hprinted', htrail', hreads'⟩ :=
        (leads_all.mp hall).2 hmode hback (hafter hterminated) hend trail htrail
      refine ⟨gap ++ (core ++ core'), trail', ?_, htrail',
        rereads_entries hmode hmay' ht hparen hnewlines hpeeked ?_⟩
      · rw [Node.printedAll, hprinted, List.append_assoc, hprinted', List.append_assoc, List.append_assoc]
      refine .of_text (rereads_bind (rereads_one hreads) (rereads_more hterminated hreads') ?_)
        (List.append_assoc _ _ _).symm
      rintro _ ⟨more, rfl, -⟩ -
      refine ⟨Node.printedAll rest ++ (closer.text ++ more), ?_⟩
      rw [← List.append_assoc, ← List.append_assoc core', hprinted']
    | false =>
      simp only [hterminated, Bool.false_eq_true, if_false] at hrest hreads
      obtain ⟨rfl, rfl⟩ := leads_pure.mp hrest
      obtain rfl := hnone hterminated
      refine ⟨gap ++ core, [], ?_, .inl rfl, rereads_entries hmode hmay' ht hparen hnewlines hpeeked ?_⟩
      · rw [Node.printedAll_singleton, hprinted, List.append_assoc]
      refine Reader.Rereads.mono (.of_text (rereads_bind (rereads_one hreads) (rereads_last hterminated)
        fun _ _ => id) (List.append_nil _).symm) (fun _ _ => id) ?_
      obtain ⟨u, hu, hclosed⟩ := hend
      rintro _ ⟨more, rfl, hmore⟩
      exact beyond_closer hmode hu hclosed hback (.inl rfl) hmore

theorem list (hmode : c.mode = .base) (h : (Production.list closer).body.LeadsBy Reprinted c a ns a') :
    (Production.list closer).Reprints c a ns a' := by
  intro hcloser hback hmay
  obtain ⟨es, a₁, hall, hrest⟩ := leads_bind.mp h
  obtain ⟨l, a₂, hexpect, hpure⟩ := leads_bind.mp hrest
  obtain ⟨rfl, rfl⟩ := leads_pure.mp hpure
  have hnext := leads_expect.mp hexpect
  obtain ⟨t, ht, hwants, rfl, rfl⟩ := leads_next_some.mp hnext
  have hkind : t.kind = closer.kind := kind_of_wants hwants
  have hbody : t.lexeme.body = closer.text :=
    body_of_spelling (Context.token?_eq_some.mp ht) (hkind ▸ closer.spelling?_kind)
  have hplain : t.lexeme.kind ∉ [Kind.str, .ident, .eos, .glyph] := by
    rw [show t.lexeme.kind = closer.kind from hkind]
    cases closer with
    | endOfSource => exact absurd rfl hcloser
    | paren | backquote => decide
  have hfit : ∀ more, True →
      firstFit c.mode.rules.set.rules (t.lexeme.body ++ more) = some (t.lexeme.kind, t.lexeme.body.length) := by
    intro more _
    rw [hbody, rules_of_base hmode, show t.lexeme.kind = closer.kind from hkind]
    cases closer with
    | endOfSource => exact absurd rfl hcloser
    | paren | backquote => rfl
  obtain ⟨core, trail, hprinted, htrail, hreads⟩ :=
    (leads_all.mp hall).2 hmode hback hmay ⟨t, ht, hkind⟩ [] (.inl rfl)
  have hclose := rereads_expect (rereads_take_opener (leads_query.mp hnext) (spaces_closer hmode ht hkind htrail)
    (fun _ => rfl) hplain hfit)
  refine rereads_body (.of_text (rereads_bind hreads (rereads_bind hclose rereads_pure fun _ _ => id) ?_) ?_)
  · rintro more - -
    refine ⟨more, ?_, fun heos => absurd heos hcloser⟩
    rw [hbody, List.append_nil, List.append_assoc]
  · rw [Node.printedAll_singleton, Node.printed, hbody, List.append_nil, ← List.append_assoc, ← hprinted,
      List.nil_append]

end Production.Reprints

end ShellGrammar
