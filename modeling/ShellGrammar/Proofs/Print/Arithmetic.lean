import ShellGrammar.Proofs.Print.Basic

/-! Arithmetic, read again.

In an arithmetic expression there is one space in front of every token but the first, whatever blank
was there before. No token goes on in a space, and blank tells nothing between tokens, so only their
kinds matter to what is asked. -/
namespace ShellGrammar
open Grammar ParseM Rules

variable {c : Context} {a a' a₁ : Scan} {ns : List Node} {gap : Text} {l : Lexeme}

/-! ### Tokens -/

/-- A token of a kind with one spelling. -/
theorem body_of_next {kind : Kind} {spelling : Text}
    (hnext : (Reader.next [kind]).LeadsBy Reprinted c a (some l) a₁) (hspelling : kind.spelling? = some spelling) :
    l.body = spelling := by
  obtain ⟨t, ht, hwants, rfl, -⟩ := leads_next_some.mp hnext
  exact body_of_spelling (Context.token?_eq_some.mp ht) ((kind_of_wants hwants).symm ▸ hspelling)

section Tokens
variable (hmode : c.mode = ⟨.arith, true⟩)
include hmode

theorem arith_fits : c.Fits a [' '] := by
  rw [Context.Fits, hmode]
  exact List.cons_ne_nil _ _

theorem arith_decides {touch : Prop} {want : Kind → Bool} : c.Decides touch false want :=
  .inl ⟨rfl, by rw [hmode]⟩

theorem arith_again {rest : Text} (h : c.Again gap a rest) (hgap : c.Spaces a gap) :
    c.Beyond (c.Fits a gap) a rest :=
  h.beyond hgap (by rw [hmode]; nofun)

/-- An operator, with a space behind it. -/
theorem arith_operator {kinds : List Kind} (hnext : (Reader.next kinds).LeadsBy Reprinted c a (some l) a₁)
    (hgap : c.Spaces a gap) (hkinds : kinds ≠ [])
    (hkind : ∀ kind ∈ kinds, kind ∉ [Kind.str, .ident, .eos, .glyph]) :
    (Reader.next kinds).Rereads c (c.Beyond (c.Fits a gap) a) (gap ++ l.body)
      (fun more => ∃ rest, more = ' ' :: rest) a (some l) a₁ := by
  have hanswer := leads_query.mp hnext
  obtain ⟨t, -, hwants, rfl, rfl⟩ := Query.take_some.mp hanswer
  refine (rereads_take_bound hanswer hgap (fun _ => rfl) (hkind _ (mem_of_wants hkinds hwants))).mono
    (fun _ _ hagain => arith_again hmode hagain hgap) ?_
  rintro _ ⟨rest, rfl⟩
  refine ⟨' ', rest, rfl, by decide, ?_⟩
  rw [hmode]
  rfl

/-- A token with the same ahead behind it. -/
theorem arith_token {kinds : List Kind} (hnext : (Reader.next kinds).LeadsBy Reprinted c a (some l) a₁)
    (hgap : c.Spaces a gap) (hkind : l.kind ∉ [Kind.amp, .pipe, .eos, .glyph]) :
    (Reader.next kinds).Rereads c (c.Beyond (c.Fits a gap) a) (gap ++ l.body) (c.Beyond True a₁) a (some l) a₁ :=
  (rereads_take_kept (leads_query.mp hnext) hgap (fun _ => rfl) hkind).mono
    (fun _ _ hagain => arith_again hmode hagain hgap) fun _ => id

/-- The same behind a space. -/
theorem arith_spaced {rest : Text} (h : c.Beyond (c.Fits a [' ']) a rest) : c.Beyond True a rest :=
  h.mono fun _ => arith_fits hmode

/-- No token is taken. -/
theorem arith_untaken {kinds : List Kind} (touch : Prop)
    (hnext : (Reader.next kinds).LeadsBy Reprinted c a none a₁) :
    a₁ = a ∧ (Reader.next kinds).Rereads c (c.Beyond touch a) [] (c.Beyond touch a) a none a₁ := by
  obtain ⟨-, -, -, hstay⟩ := leads_next_none.mp hnext
  exact ⟨hstay, rereads_untaken (leads_query.mp hnext) (arith_decides hmode)⟩

/-- No assignment is taken. -/
theorem arith_untargeted (touch : Prop) (hanswer : Query.target.answer c a = some (none, a₁)) :
    a₁ = a ∧ (Reader.ask .target .done).Rereads c (c.Beyond touch a) [] (c.Beyond touch a) a none a₁ := by
  have hstay : a₁ = a := by
    obtain ⟨_, _, ⟨_, _, rfl⟩ | ⟨_, _, _, ⟨_, _, rfl⟩ | ⟨_, hsome, _⟩⟩⟩ := Query.target_iff.mp hanswer
    · rfl
    · rfl
    · cases hsome
  subst hstay
  exact ⟨rfl, rereads_ahead fun _ hahead => (hahead.target (by rw [hmode]) hanswer).1⟩

/-- A token is there again in front of a space. -/
theorem arith_kept {b : Scan} {t : Token} {rest : Text} (ht : c.token? a = some t) (heos : t.kind ≠ .eos)
    (hglyph : t.kind ≠ .glyph) (hgap : c.Spaces a gap) (hb : b.rest = gap ++ (t.body ++ ' ' :: rest))
    (hlevel : a.Level b) :
    c.token? b = some (t.moved b gap) ∧ (t.moved b gap).after.rest = ' ' :: rest ∧
      t.after.Level (t.moved b gap).after := by
  have hlexed := Context.token?_eq_some.mp ht
  have hbody := body_ne_of_tokenAt hlexed heos
  have hslash : t.body ≠ ['\\'] := fun h => hglyph (kind_of_backslash hlexed h)
  have hstop : c.mode.rules.text ' ' = false := by rw [hmode]; rfl
  have hfit : firstFit c.mode.rules.set.rules (t.body ++ ' ' :: rest) = some (t.kind, t.body.length) :=
    firstFit_bound (by decide) hstop (fit_of_tokenAt hlexed hbody)
  exact ⟨c.token_again ht hbody hslash hgap hfit hb hlevel, Token.rest_moved hb,
    Token.level_moved (tokenAt_fits hlexed).2 hbody hb⟩

/-- A name and an assignment behind it, with a space behind both. -/
theorem arith_target {name op : Text} (hanswer : Query.target.answer c a = some (some (name, op), a₁))
    (hgap : c.Spaces a gap) :
    (Reader.ask .target .done).Rereads c (c.Beyond (c.Fits a gap) a) (gap ++ (name ++ ([' '] ++ op)))
      (fun more => ∃ rest, more = ' ' :: rest) a (some (name, op)) a₁ := by
  obtain ⟨t, ht, ⟨-, hnone, -⟩ | ⟨hident, u, hu, ⟨-, hnone, -⟩ | ⟨hop, hsome, rfl⟩⟩⟩ :=
    Query.target_iff.mp hanswer
  · cases hnone
  · cases hnone
  cases hsome
  have hlexed := Context.token?_eq_some.mp ht
  have hkind : t.kind = .ident := kind_of_wants hident
  have hbody := body_ne_of_tokenAt hlexed (by rw [hkind]; decide)
  have hslash : t.body ≠ ['\\'] := fun h => by cases hkind.symm.trans (kind_of_backslash hlexed h)
  obtain ⟨heos, hglyph⟩ : u.kind ≠ .eos ∧ u.kind ≠ .glyph :=
    (by decide : ∀ kind ∈ assignmentOps, kind ≠ .eos ∧ kind ≠ .glyph) _ (mem_of_wants (List.cons_ne_nil _ _) hop)
  refine rereads_query fun more hmore => ?_
  obtain ⟨rest, rfl⟩ := hmore
  have htext : gap ++ (t.body ++ ([' '] ++ u.body)) ++ ' ' :: rest =
      gap ++ (t.body ++ ' ' :: (u.body ++ ' ' :: rest)) := by simp
  rw [htext]
  have hthere : ∀ b, b.rest = gap ++ (t.body ++ ' ' :: (u.body ++ ' ' :: rest)) → a.Level b →
      c.token? b = some (t.moved b gap) ∧ c.token? (t.moved b gap).after =
        some (u.moved (t.moved b gap).after [' ']) ∧
        (u.moved (t.moved b gap).after [' ']).after.rest = ' ' :: rest ∧
        u.after.Level (u.moved (t.moved b gap).after [' ']).after := by
    intro b hb hlevel
    obtain ⟨ht', hrest, hlevel'⟩ :=
      arith_kept hmode ht (by rw [hkind]; decide) (by rw [hkind]; decide) hgap hb hlevel
    exact ⟨ht', arith_kept hmode hu heos hglyph (c.spaces_arith hmode) hrest hlevel'⟩
  refine ⟨?_, fun b hb hlevel => ?_⟩
  · refine arith_again hmode ⟨t, ht, hbody, hslash, ⟨_, rfl⟩, fun b hb hlevel => ?_⟩ hgap
    obtain ⟨ht', hu', -⟩ := hthere b hb hlevel
    exact ⟨ht', .moved t b gap, nofun, fun harith => absurd (by rw [hmode]) harith,
      fun _ => ⟨u, _, hu, hu', rfl⟩⟩
  · obtain ⟨ht', hu', hrest, hlevel'⟩ := hthere b hb hlevel
    refine ⟨_, Query.target_iff.mpr ⟨_, ht', .inr ⟨?_, _, hu', .inr ⟨?_, rfl, rfl⟩⟩⟩, hrest, hlevel'⟩
    · exact Context.wants_iff.mpr ⟨(Context.wants_iff.mp hident).1, .inl ⟨rfl, by rw [hmode]⟩⟩
    · exact Context.wants_iff.mpr ⟨(Context.wants_iff.mp hop).1, .inl ⟨rfl, by rw [hmode]⟩⟩

end Tokens

/-! ### Where an expression ends -/

namespace Rules
variable {kind : Kind} {x : Char} {blank rest : Text}

/-- The characters behind which an expression goes on no further, and the tokens that they are. -/
def arithStops : List (Char × Kind) := [(')', .rparen), (']', .rbracket), (':', .colon), ('}', .rbrace)]

theorem firstFit_stop (hstop : (x, kind) ∈ arithStops) (rest : Text) :
    firstFit arith.set.rules (x :: rest) = some (kind, 1) := by
  simp only [arithStops, List.mem_cons, Prod.mk.injEq, List.not_mem_nil, or_false] at hstop
  obtain ⟨rfl, rfl⟩ | ⟨rfl, rfl⟩ | ⟨rfl, rfl⟩ | ⟨rfl, rfl⟩ := hstop <;> rfl

theorem kind_of_stop (hstop : (x, kind) ∈ arithStops) :
    kind.spelling? = some [x] ∧ x ∉ [' ', '\t', '\n', '\\'] := by
  simp only [arithStops, List.mem_cons, Prod.mk.injEq, List.not_mem_nil, or_false] at hstop
  obtain ⟨rfl, rfl⟩ | ⟨rfl, rfl⟩ | ⟨rfl, rfl⟩ | ⟨rfl, rfl⟩ := hstop <;> exact ⟨rfl, by decide⟩

/-- Behind blank, such a character is a token. -/
theorem tokenAt_stop (hstop : (x, kind) ∈ arithStops) (hrest : a.rest = blank ++ x :: rest)
    (hblank : arith.blankLength a.rest = blank.length) : ∃ t, arith.tokenAt a = .ok t ∧ t.kind = kind := by
  have hskip : arith.skipLength a = blank.length := hblank
  have hfit : firstFit arith.set.rules (a.rest.drop (arith.skipLength a)) = some (kind, 1) := by
    rw [hskip, hrest, List.drop_left]
    exact firstFit_stop hstop rest
  exact ⟨_, tokenAt_of_fit hfit, rfl⟩

end Rules

/-- In front of such a character the same is ahead of what stands there, behind a space or not. -/
theorem arith_stop {x : Char} {kind : Kind} {rest : Text} {t : Token} (hmode : c.mode = ⟨.arith, true⟩)
    (hstop : (x, kind) ∈ arithStops) (ht : c.token? a = some t) (hkind : t.kind = kind)
    (hgap : gap = [' '] ∨ gap = [] ∧ x ∈ bounds) : c.Beyond True a (gap ++ x :: rest) := by
  obtain ⟨hspelling, hx⟩ := kind_of_stop hstop
  refine ⟨fun b hb _ => ?_, fun _ => ?_⟩
  · have hblank : arith.blankLength b.rest = gap.length := by
      rw [hb]
      refine blankLength_gap hx ?_
      obtain rfl | ⟨rfl, -⟩ := hgap
      · exact .inr ⟨rfl, nofun⟩
      · exact .inl rfl
    obtain ⟨t', ht', hkind'⟩ := tokenAt_stop hstop hb hblank
    refine ahead_of_spelling ht (Context.token?_eq_some.mpr ?_) (hkind'.trans hkind.symm) (hkind ▸ hspelling)
      fun harith => absurd (by rw [hmode]) harith
    rw [hmode]
    exact ht'
  · rw [hmode]
    obtain rfl | ⟨rfl, hx⟩ := hgap
    · exact keeps_bound (by decide) rfl
    · exact keeps_bound hx rfl

/-! ### Productions -/

theorem primaryRest_of_opener (hopens : l.kind ∈ expansionOpeners) :
    Reader.primaryRest l = Reader.pieceRest l := by
  obtain ⟨kind, body⟩ := l
  simp only [expansionOpeners, List.mem_cons, List.not_mem_nil, or_false] at hopens
  obtain rfl | rfl | rfl := hopens <;> rfl

namespace Production.Reprints
variable (hmode : c.mode = ⟨.arith, true⟩)
include hmode

theorem unary (h : Production.unary.body.LeadsBy Reprinted c a ns a') : Production.unary.Reprints c a ns a' := by
  intro gap hgap _ hnil
  obtain ⟨o, a₁, hnext, hrest⟩ := leads_bind.mp h
  refine rereads_body ?_
  cases o with
  | none =>
    obtain ⟨rfl, huntaken⟩ := arith_untaken hmode (c.Fits a gap) hnext
    have hpost := (leads_all.mp hrest).2 hmode gap hgap nofun hnil
    exact rereads_behind huntaken hpost
  | some op =>
    obtain ⟨n, a₂, hone, hpure⟩ := leads_bind.mp hrest
    obtain ⟨rfl, rfl⟩ := leads_pure.mp hpure
    have hoperand := (leads_one.mp hone).2 hmode [' '] (c.spaces_arith hmode) nofun nofun
    have hop := arith_operator hmode hnext hgap (List.cons_ne_nil _ _) (by decide)
    refine .of_text (rereads_bind hop (rereads_bind (rereads_one hoperand) rereads_pure fun _ _ => id)
      fun _ _ _ => ⟨_, rfl⟩) ?_
    simp [Production.printed, Node.printed]

theorem post (h : Production.post.body.LeadsBy Reprinted c a ns a') : Production.post.Reprints c a ns a' := by
  intro gap hgap _ _
  obtain ⟨operand, a₁, hone, hrest⟩ := leads_bind.mp h
  obtain ⟨o, a₂, hnext, hpure⟩ := leads_bind.mp hrest
  have hoperand := rereads_one ((leads_one.mp hone).2 hmode gap hgap nofun nofun)
  refine rereads_body ?_
  cases o with
  | none =>
    obtain ⟨rfl, rfl⟩ := leads_pure.mp hpure
    obtain ⟨rfl, huntaken⟩ := arith_untaken hmode True hnext
    refine .of_text (rereads_bind hoperand (rereads_bind huntaken rereads_pure fun _ _ => id) fun _ _ => id) ?_
    simp [Production.printed]
  | some op =>
    obtain ⟨rfl, rfl⟩ := leads_pure.mp hpure
    have hkind : op.kind ∉ [Kind.amp, .pipe, .eos, .glyph] := by
      obtain ⟨t, -, hwants, rfl, -⟩ := leads_next_some.mp hnext
      have hmem := mem_of_wants (List.cons_ne_nil _ _) hwants
      revert hmem
      exact (by decide : ∀ kind ∈ behindOps, kind ∉ [Kind.amp, .pipe, .eos, .glyph]) _
    have hop := arith_token hmode hnext (c.spaces_arith hmode) hkind
    refine .of_text (rereads_bind hoperand (rereads_bind hop rereads_pure fun _ _ => id)
      fun _ _ => arith_spaced hmode) ?_
    simp [Production.printed, Node.printed]

theorem power (h : Production.power.body.LeadsBy Reprinted c a ns a') : Production.power.Reprints c a ns a' := by
  intro gap hgap _ _
  obtain ⟨base, a₁, hone, hrest⟩ := leads_bind.mp h
  obtain ⟨o, a₂, hnext, hrest⟩ := leads_bind.mp hrest
  have hbase := rereads_one ((leads_one.mp hone).2 hmode gap hgap nofun nofun)
  refine rereads_body ?_
  cases o with
  | none =>
    obtain ⟨rfl, rfl⟩ := leads_pure.mp hrest
    obtain ⟨rfl, huntaken⟩ := arith_untaken hmode True hnext
    refine .of_text (rereads_bind hbase (rereads_bind huntaken rereads_pure fun _ _ => id) fun _ _ => id) ?_
    simp [Production.printed]
  | some op =>
    obtain ⟨n, a₃, hexp, hpure⟩ := leads_bind.mp hrest
    obtain ⟨rfl, rfl⟩ := leads_pure.mp hpure
    have hop := arith_operator hmode hnext (c.spaces_arith hmode) (List.cons_ne_nil _ _) (by decide)
    have hexp := rereads_one ((leads_one.mp hexp).2 hmode [' '] (c.spaces_arith hmode) nofun nofun)
    refine .of_text (rereads_bind hbase (rereads_bind hop (rereads_bind hexp rereads_pure fun _ _ => id)
      fun _ _ _ => ⟨_, rfl⟩) fun _ _ => arith_spaced hmode) ?_
    simp [Production.printed, Node.printed]

theorem ternary (h : Production.ternary.body.LeadsBy Reprinted c a ns a') :
    Production.ternary.Reprints c a ns a' := by
  intro gap hgap _ _
  obtain ⟨cond, a₁, hone, hrest⟩ := leads_bind.mp h
  obtain ⟨o, a₂, hnext, hrest⟩ := leads_bind.mp hrest
  have hcond := rereads_one ((leads_one.mp hone).2 hmode gap hgap nofun nofun)
  refine rereads_body ?_
  cases o with
  | none =>
    obtain ⟨rfl, rfl⟩ := leads_pure.mp hrest
    obtain ⟨rfl, huntaken⟩ := arith_untaken hmode True hnext
    refine .of_text (rereads_bind hcond (rereads_bind huntaken rereads_pure fun _ _ => id) fun _ _ => id) ?_
    simp [Production.printed]
  | some mark =>
    obtain ⟨yes, a₃, hyes, hrest⟩ := leads_bind.mp hrest
    obtain ⟨colon, a₄, hexpect, hrest⟩ := leads_bind.mp hrest
    obtain ⟨no, a₅, hno, hpure⟩ := leads_bind.mp hrest
    obtain ⟨rfl, rfl⟩ := leads_pure.mp hpure
    have hspace : ∀ {a}, c.Spaces a [' '] := c.spaces_arith hmode
    have hmarked := body_of_next hnext rfl
    have hcoloned := body_of_next (leads_expect.mp hexpect) rfl
    have hmark := arith_operator hmode hnext hspace (List.cons_ne_nil _ _) (by decide)
    have hcolon := arith_operator hmode (leads_expect.mp hexpect) hspace (List.cons_ne_nil _ _) (by decide)
    have hyes := rereads_one ((leads_one.mp hyes).2 hmode [' '] hspace nofun nofun)
    have hno := rereads_one ((leads_one.mp hno).2 hmode [' '] hspace nofun nofun)
    refine .of_text (rereads_bind hcond (rereads_bind hmark (rereads_bind hyes
      (rereads_bind (rereads_expect hcolon) (rereads_bind hno rereads_pure fun _ _ => id)
        fun _ _ _ => ⟨_, rfl⟩) fun _ _ => arith_spaced hmode) fun _ _ _ => ⟨_, rfl⟩)
      fun _ _ => arith_spaced hmode) ?_
    simp [Production.printed, Node.printed, hmarked, hcoloned]

theorem assignment (h : Production.assignment.body.LeadsBy Reprinted c a ns a') :
    Production.assignment.Reprints c a ns a' := by
  intro gap hgap _ hnil
  obtain ⟨o, a₁, hask, hrest⟩ := leads_bind.mp h
  have hanswer := leads_query.mp hask
  refine rereads_body ?_
  match o with
  | none =>
    obtain ⟨rfl, huntargeted⟩ := arith_untargeted hmode (c.Fits a gap) hanswer
    have hternary := (leads_all.mp hrest).2 hmode gap hgap nofun hnil
    exact rereads_behind huntargeted hternary
  | some (name, op) =>
    obtain ⟨n, a₂, hone, hpure⟩ := leads_bind.mp hrest
    obtain ⟨rfl, rfl⟩ := leads_pure.mp hpure
    have hvalue := rereads_one ((leads_one.mp hone).2 hmode [' '] (c.spaces_arith hmode) nofun nofun)
    refine .of_text (rereads_bind (arith_target hmode hanswer hgap) (rereads_bind hvalue rereads_pure fun _ _ => id)
      fun _ _ _ => ⟨_, rfl⟩) ?_
    simp [Production.printed, Node.printed]

theorem primary (h : Production.primary.body.LeadsBy Reprinted c a ns a') :
    Production.primary.Reprints c a ns a' := by
  intro gap hgap _ _
  obtain ⟨⟨kind, body⟩, a₁, hexpect, hrest⟩ := leads_bind.mp h
  have hnext := leads_expect.mp hexpect
  obtain ⟨t, ht, hwants, hlexeme, rfl⟩ := leads_next_some.mp hnext
  have hlexed := Context.token?_eq_some.mp ht
  have hmem := mem_of_wants (List.cons_ne_nil _ _) hwants
  cases hlexeme
  have htoken : t.kind ∉ [Kind.amp, .pipe, .eos, .glyph] → (Reader.expect primaryStart).Rereads c
      (c.Beyond (c.Fits a gap) a) (gap ++ t.body) (c.Beyond True t.after) a ⟨t.kind, t.body⟩ t.after :=
    fun hkind => rereads_expect (arith_token hmode hnext hgap hkind)
  refine rereads_body (p := .primary) ?_
  by_cases hopens : t.kind ∈ expansionOpeners
  · have hsame : Reader.primaryRest ⟨t.kind, t.body⟩ = Reader.pieceRest t.lexeme := primaryRest_of_opener hopens
    obtain ⟨text, mid, htext, hfit, hreads⟩ :=
      rereads_expansion (by rw [hmode]; nofun) hlexed hopens (hsame ▸ hrest)
    have hopener := rereads_take_opener (leads_query.mp hnext) hgap (fun _ => rfl)
      (plain_of_opener hopens) hfit
    refine .of_text (rereads_bind (rereads_expect (hopener.mono (fun _ _ hagain => arith_again hmode hagain hgap)
      fun _ => id)) (hsame ▸ hreads) fun _ _ => id) ?_
    rw [Production.printed, htext, List.append_assoc]
    all_goals nofun
  simp only [List.mem_cons, List.not_mem_nil, or_false] at hmem
  rcases hmem with hk | hk | hk | hk | hk | hk | hk <;> rw [hk] at htoken hrest hopens
  · obtain ⟨rfl, rfl⟩ := leads_pure.mp hrest
    refine .of_text (rereads_bind (htoken (by decide)) rereads_pure fun _ _ => id) ?_
    simp [Production.printed, Node.printed]
  · obtain ⟨rfl, rfl⟩ := leads_pure.mp hrest
    refine .of_text (rereads_bind (htoken (by decide)) rereads_pure fun _ _ => id) ?_
    simp [Production.printed, Node.printed]
  · obtain ⟨rfl, rfl⟩ := leads_pure.mp hrest
    refine .of_text (rereads_bind (htoken (by decide)) rereads_pure fun _ _ => id) ?_
    have hname := body_of_dollarName hlexed hk
    simp [Production.printed, Node.printed, ← hname]
  · obtain ⟨body, a₂, hone, hrest⟩ := leads_bind.mp hrest
    obtain ⟨closer, a₃, hclose, hpure⟩ := leads_bind.mp hrest
    obtain ⟨rfl, rfl⟩ := leads_pure.mp hpure
    have hspace : ∀ {a}, c.Spaces a [' '] := c.spaces_arith hmode
    have hopened : t.body = ['('] := body_of_spelling hlexed (hk ▸ rfl)
    have hclosed := body_of_next (leads_expect.mp hclose) rfl
    have hkind : closer.kind ∉ [Kind.amp, .pipe, .eos, .glyph] := by
      obtain ⟨u, -, hcloses, rfl, -⟩ := leads_next_some.mp (leads_expect.mp hclose)
      rw [show u.lexeme.kind = .rparen from kind_of_wants hcloses]
      decide
    have hbody := rereads_one ((leads_one.mp hone).2 hmode [' '] hspace nofun nofun)
    have hclose := rereads_expect (arith_token hmode (leads_expect.mp hclose) hspace hkind)
    refine .of_text (rereads_bind (htoken (by decide)) (rereads_bind hbody (rereads_bind hclose rereads_pure
      fun _ _ => id) fun _ _ => arith_spaced hmode) fun _ _ => arith_spaced hmode) ?_
    simp [Production.printed, Node.printed, hclosed, hopened]
  all_goals exact absurd (by decide) hopens

theorem arithClosed (h : Production.arithClosed.body.LeadsBy Reprinted c a ns a') :
    Production.arithClosed.Reprints c a ns a' := by
  obtain ⟨body, a₁, hone, hrest⟩ := leads_bind.mp h
  obtain ⟨u, a₂, hask, hpure⟩ := leads_bind.mp hrest
  obtain ⟨rfl, rfl⟩ := leads_pure.mp hpure
  have hanswer := leads_query.mp hask
  -- What closes the expansion is a parenthesis to the expression in front of it.
  obtain ⟨t, ht, hkind⟩ : ∃ t, c.token? a₁ = some t ∧ t.kind = .rparen := by
    obtain ⟨y, hy, -⟩ := Query.close_iff.mp hanswer
    obtain ⟨horigin, hfits⟩ := takeAt_fits hy
    obtain ⟨hblank, -⟩ := takeAt_front hy
    have hbody : y.body = [')', ')'] := (takeAt_matches hy).2.of_lit
    have hrest := Token.rest_origin hfits
    rw [horigin, Token.text, hbody, List.append_assoc] at hrest
    rw [hmode] at hblank
    obtain ⟨t, ht, hkind⟩ := tokenAt_stop (show (')', Kind.rparen) ∈ arithStops by decide) hrest hblank
    refine ⟨t, Context.token?_eq_some.mpr ?_, hkind⟩
    rw [hmode]
    exact ht
  have hexpression := rereads_one
    ((leads_one.mp hone).2 hmode [] c.spaces_nil (fun hyes => Bool.noConfusion hyes) fun _ => rfl)
  have hclose := rereads_close hanswer (.inl rfl)
  refine ⟨_, ?_, rereads_body (rereads_bind (hexpression.mono (fun _ _ _ => trivial) fun _ => id)
    (rereads_bind hclose rereads_pure fun _ _ => id) fun more _ _ => ?_)⟩
  · simp [Production.printed, Node.printed]
    rfl
  exact arith_stop hmode (by decide) ht hkind (.inr ⟨rfl, by decide⟩)

end Production.Reprints

end ShellGrammar
