import ShellGrammar.Proofs.Print.Arithmetic
import ShellGrammar.Proofs.Reader.Single

/-! Words, read again.

The pieces of a word touch, so what stands behind a piece starts with the same character as before,
and no token goes on into it (`Rules.keeps_same`). What stands between words is one space where there
was blank. An assignment is the exception: its head is not a token, and behind the `=` bare text may
go on that the head was part of. It is enough that the token there still opens an assignment. -/
namespace ShellGrammar
open Grammar ParseM Rules

variable {c : Context} {a a' a₁ : Scan} {ns : List Node} {n : Node} {gap : Text}

/-! ### Openers of pieces -/

namespace Rules
variable {rules : Rules} {t : Token}

theorem fit_doubleQuote (hwordy : rules.isWordy = true) (more : Text) :
    firstFit rules.set.rules (['"'] ++ more) = some (.doubleQuote, 1) := by
  cases rules with
  | param | arith => cases hwordy
  | _ => rfl

theorem fit_backquote (hwordy : rules.isWordy = true) (more : Text) :
    firstFit rules.set.rules (['`'] ++ more) = some (.backquote, 1) := by
  cases rules with
  | param | arith => cases hwordy
  | _ => rfl

/-- Where blank is text, nothing is skipped. -/
theorem skipLength_of_unblank (hblank : rules.set.blank = none) (a : Scan) : rules.skipLength a = 0 := by
  cases rules with
  | command | param | arith => cases hblank
  | doubleQuote | wordUntilBrace | wordUntilSlash => rfl

/-- Processes are substituted among commands only. -/
theorem command_of_processOpener (ht : rules.tokenAt a = .ok t) (hkind : t.kind ∈ [Kind.inParen, .outParen]) :
    rules = .command := by
  obtain ⟨hk, -⟩ | ⟨r, hr, hk, -⟩ := tokenAt_rule ht
  · rw [hk] at hkind
    cases hkind with
    | tail _ h => cases h with | tail _ h => cases h
  · have hno : ∀ rules ∈ Rules.all, rules ≠ .command →
        ∀ r ∈ rules.set.rules, r.kind ∉ [Kind.inParen, .outParen] := by
      decide
    have hall : rules ∈ Rules.all := by cases rules <;> decide
    exact Decidable.byContradiction fun hne => hno rules hall hne r hr (hk ▸ hkind)

end Rules

theorem rules_of_wordy (hwordy : c.mode.rules.isWordy = true) :
    c.mode.rules ≠ .param ∧ c.mode.rules ≠ .arith := by
  rw [isWordy, Bool.and_eq_true, bne_iff_ne, bne_iff_ne] at hwordy
  exact hwordy

/-- The kinds of what opens a piece that is no expansion. -/
def pieceOpeners : List Kind := [.doubleQuote, .backquote, .inParen, .outParen]

theorem plain_of_pieceOpener : ∀ kind ∈ pieceOpeners, kind ∉ [Kind.str, .ident, .eos, .glyph] := by
  decide

/-- A piece is one token, or starts with an opener. -/
theorem opener_of_pieceStart : ∀ inBackquote, ∀ kind ∈ pieceStart inBackquote,
    kind ∉ [Kind.str, .singleQuote, .dollarName] → kind ∈ expansionOpeners ∨ kind ∈ pieceOpeners := by
  decide

/-- A piece that is no single token and no expansion starts with its opener, and no text makes that
another. -/
theorem rereads_opened {t : Token} {post : Text → Prop} (hwordy : c.mode.rules.isWordy = true)
    (ht : c.mode.rules.tokenAt a = .ok t) (hkind : t.kind ∈ pieceOpeners)
    (h : (Reader.pieceRest t.lexeme).LeadsBy Reprinted c t.after ns a') :
    ∃ text mid, Node.printedAll ns = t.body ++ text ∧
      (∀ more, mid more → firstFit c.mode.rules.set.rules (t.body ++ more) = some (t.kind, t.body.length)) ∧
        (Reader.pieceRest t.lexeme).Rereads c mid text post t.after ns a' := by
  have hspelled : ∀ {spelling}, t.kind.spelling? = some spelling → t.body = spelling := body_of_spelling ht
  have hmay : t.kind ∈ dividers → commentMayStart 0 t.after = true := boundary_of_divider ht
  have hcommand : t.kind ∈ [Kind.inParen, .outParen] → c.mode.rules = .command := command_of_processOpener ht
  simp only [pieceOpeners, List.mem_cons, List.not_mem_nil, or_false] at hkind
  rw [Token.lexeme] at h ⊢
  rcases hkind with hk | hk | hk | hk <;> rw [hk] at h hspelled hmay hcommand ⊢ <;> have hbody := hspelled rfl
  · obtain ⟨pieces, a₂, hall, hpure⟩ := leads_bind.mp h
    obtain ⟨rfl, rfl⟩ := leads_pure.mp hpure
    have hquoted := (leads_all.mp hall).2 rfl
    refine ⟨_, fun _ => True, ?_, fun more _ => ?_,
      rereads_bind ((rereads_call hquoted).mono (fun _ _ _ => trivial) fun _ => id) rereads_pure fun _ _ _ => trivial⟩
    · simp [Node.printed, hbody]
    · rw [hbody]
      exact fit_doubleQuote hwordy more
  all_goals
    obtain ⟨body, a₂, hone, hpure⟩ := leads_bind.mp h
    obtain ⟨rfl, rfl⟩ := leads_pure.mp hpure
    have hlist := rereads_list hone (by decide) (hmay (by decide))
    refine ⟨_, fun _ => True, ?_, fun more _ => ?_,
      rereads_bind (hlist.mono (fun _ _ _ => trivial) fun _ => id) rereads_pure fun _ _ _ => trivial⟩
  · simp [Node.printed, hbody, Closer.text]
  · rw [hbody]
    exact fit_backquote hwordy more
  · simp [Node.printed, hbody, Closer.text]
  · rw [hbody, hcommand (by decide)]
    rfl
  · simp [Node.printed, hbody, Closer.text]
  · rw [hbody, hcommand (by decide)]
    rfl

/-! ### Pieces -/

namespace Production.Reprints

theorem piece {adjacent : Bool} (hwordy : c.mode.rules.isWordy = true)
    (h : (Production.piece adjacent).body.LeadsBy Reprinted c a ns a') :
    (Production.piece adjacent).Reprints c a ns a' := by
  intro gap hgap hjoined hnil
  obtain ⟨hparam, harith⟩ := rules_of_wordy hwordy
  obtain ⟨o, a₁, hask, hrest⟩ := leads_bind.mp h
  have hanswer := leads_query.mp hask
  refine rereads_body (p := .piece adjacent) ?_
  cases o with
  | none =>
    obtain ⟨rfl, rfl⟩ := leads_pure.mp hrest
    obtain ⟨t, -, -, rfl⟩ := Query.take_none.mp hanswer
    obtain rfl := hnil rfl
    have hdecides : c.Decides True adjacent (among (pieceStart c.inBackquote)) :=
      .inr ⟨trivial, harith, fun _ => among_pieceStart.mp⟩
    have huntaken := rereads_untaken hanswer hdecides
    exact Reader.Rereads.mono (rereads_behind huntaken rereads_pure) (fun _ _ hmore => hmore.mono fun _ => trivial)
      fun _ => id
  | some l =>
    obtain ⟨t, ht, hwants, rfl, rfl⟩ := Query.take_some.mp hanswer
    have hlexed := Context.token?_eq_some.mp ht
    have hadjacent : gap ≠ [] → adjacent = false := fun hne =>
      Bool.eq_false_iff.mpr fun hyes => hne (hjoined hyes)
    have hagain : ∀ {rest}, c.Again gap a rest → c.Beyond (c.Fits a gap) a rest := fun h => h.beyond hgap hparam
    by_cases hplain : t.kind ∈ [Kind.str, .singleQuote, .dollarName]
    · have htoken := (rereads_take_kept hanswer hgap hadjacent (by
        revert hplain
        exact (by decide : ∀ kind ∈ [Kind.str, .singleQuote, .dollarName], kind ∉ [Kind.amp, .pipe, .eos, .glyph]) _)).mono
        (fun _ _ => hagain) fun _ => id
      simp only [List.mem_cons, List.not_mem_nil, or_false] at hplain
      rw [Token.lexeme] at htoken hrest
      rcases hplain with hk | hk | hk <;> rw [hk] at htoken hrest <;> obtain ⟨rfl, rfl⟩ := leads_pure.mp hrest
      · refine .of_text (rereads_bind htoken rereads_pure fun _ _ => id) ?_
        simp [Production.printed, Node.printed]
      · refine .of_text (rereads_bind htoken rereads_pure fun _ _ => id) ?_
        simp [Production.printed, Node.printed, ← body_of_singleQuote hlexed hk]
      · refine .of_text (rereads_bind htoken rereads_pure fun _ _ => id) ?_
        simp [Production.printed, Node.printed, ← body_of_dollarName hlexed hk]
    · have hmem := among_pieceStart.mp (Context.wants_iff.mp hwants).1
      have hopens := opener_of_pieceStart _ _ hmem hplain
      have hkind : t.kind ∉ [Kind.str, .ident, .eos, .glyph] := hopens.elim plain_of_opener (plain_of_pieceOpener _)
      obtain ⟨text, mid, htext, hfit, hreads⟩ := hopens.elim
        (fun hopens => rereads_expansion hparam hlexed hopens hrest)
        fun hopens => rereads_opened hwordy hlexed hopens hrest
      have hopener := (rereads_take_opener hanswer hgap hadjacent hkind hfit).mono (fun _ _ => hagain) fun _ => id
      refine .of_text (rereads_bind hopener hreads fun _ _ => id) ?_
      simp only [Production.printed, htext, Token.lexeme, List.append_assoc]

end Production.Reprints

/-! ### What is read any number of times -/

/-- A production that yields one node or nothing, and is read any number of times with `sep` between. -/
structure Production.Strung (c : Context) (p : Production) (sep : Text) : Prop where
  single : ∀ {a n ns a'}, Parses c p a (n :: ns) a' → ns = []
  stay : ∀ {a a'}, Parses c p a [] a' → a' = a
  resumes : ∀ {a ns a'}, Reprinted c p a ns a' → p.Resumes c a ns a'
  restrung : ∀ {a ns a'}, Reprinted c (.many p) a ns a' → (Production.many p).Resumes c a ns a'
  joined : (Production.many p).isJoined = p.isJoined
  unjoined : sep ≠ [] → p.isJoined = false
  between : ∀ {a n a₁ m ns a'}, Parses c p a [n] a₁ → Parses c (.many p) a₁ (m :: ns) a' →
    c.Spaces a₁ sep ∧ c.Fits a₁ sep
  printed : p.printed [] = [] ∧ (∀ n, p.printed [n] = n.printed) ∧ (Production.many p).printed [] = [] ∧
    ∀ n ns, (Production.many p).printed (n :: ns) =
      n.printed ++ ((if ns = [] then [] else sep) ++ (Production.many p).printed ns)

/-- Behind what is there, the rest of a row is read again. -/
theorem rereads_rest {p : Production} {sep : Text} (hstay : ∀ {a a'}, Parses c p a [] a' → a' = a)
    (hunjoined : sep ≠ [] → (Production.many p).isJoined = false) (hempty : (Production.many p).printed [] = [])
    (hbetween : ns ≠ [] → c.Spaces a sep ∧ c.Fits a sep) (hparses : Parses c (.many p) a ns a')
    (h : (Production.many p).Resumes c a ns a') :
    (Reader.all .here (.many p)).Rereads c (c.Beyond True a) ((if ns = [] then [] else sep) ++
      (Production.many p).printed ns) (c.Beyond True a') a ns a' := by
  by_cases hnil : ns = []
  · subst hnil
    obtain rfl := hstay hparses.many_nil
    have hreads := h [] c.spaces_nil (fun _ => rfl) fun _ => rfl
    rw [hempty] at hreads ⊢
    exact hreads.nothing
  · obtain ⟨hspaces, hfits⟩ := hbetween hnil
    rw [if_neg hnil]
    refine (h sep hspaces (fun hyes => ?_) fun hno => absurd hno hnil).mono
      (fun _ _ hmore => hmore.mono fun _ => hfits) fun _ => id
    exact Decidable.byContradiction fun hne => Bool.false_ne_true ((hunjoined hne).symm.trans hyes)

theorem Production.Strung.resumes_many {p : Production} {sep : Text} (hp : p.Strung c sep)
    (h : (Production.many p).body.LeadsBy Reprinted c a ns a') : (Production.many p).Resumes c a ns a' := by
  intro gap hgap hjoined hnil
  rw [hp.joined] at hjoined
  obtain ⟨hnone, hone, hempty, hcons⟩ := hp.printed
  obtain ⟨o, a₁, hfirst, hrest⟩ := leads_bind.mp h
  obtain ⟨ms, hms, rfl⟩ := leads_first?.mp hfirst
  have hresumes : p.Resumes (c.shift .here) a ms a₁ := hp.resumes hms
  refine rereads_body (p := .many p) ?_
  cases ms with
  | nil =>
    obtain ⟨rfl, rfl⟩ := leads_pure.mp hrest
    have hreads := rereads_first? (hresumes gap hgap hjoined fun _ => hnil rfl)
    refine .of_text (rereads_bind hreads rereads_pure fun _ _ => id) ?_
    rw [hnone, hempty, List.append_nil, List.append_nil]
  | cons m ms =>
    obtain rfl := hp.single hms.1
    obtain ⟨rest, a₂, hall, hpure⟩ := leads_bind.mp hrest
    obtain ⟨rfl, rfl⟩ := leads_pure.mp hpure
    have hall := leads_all.mp hall
    have hreads := rereads_first? (hresumes gap hgap hjoined nofun)
    have hbehind := rereads_rest hp.stay (fun hne => hp.joined.trans (hp.unjoined hne)) hempty
      (fun hne => by
        obtain ⟨k, rest, rfl⟩ := List.exists_cons_of_ne_nil hne
        exact hp.between hms.1 hall.1) hall.1 (hp.restrung hall)
    refine .of_text (rereads_bind hreads (rereads_bind hbehind rereads_pure fun _ _ => id) fun _ _ => id) ?_
    rw [hone, hcons, List.append_nil, List.append_assoc]

/-- A piece that has to touch does touch. -/
theorem fits_of_piece (hwordy : c.mode.rules.isWordy = true) (h : Parses c (.many (.piece true)) a (n :: ns) a') :
    c.Fits a [] := by
  obtain ⟨ms, a₁, hpiece, -⟩ := h.many_cons
  obtain ⟨hnil, -⟩ | ⟨_, t, -, ht, hwants, -⟩ := hpiece.piece_cases
  · cases hnil
  rw [Context.Fits, if_neg (rules_of_wordy hwordy).2]
  intro u hu
  obtain rfl := Option.some.inj (ht.symm.trans hu)
  obtain ⟨-, ⟨hno, -⟩ | htouches⟩ := Context.wants_iff.mp hwants
  · cases hno
  · exact ⟨fun _ => htouches, fun _ => rfl⟩

theorem strung_piece (hwordy : c.mode.rules.isWordy = true) : (Production.piece true).Strung c [] where
  single h := by
    obtain ⟨hnil, -⟩ | ⟨_, _, hone, -⟩ := h.piece_cases
    · cases hnil
    · exact (List.cons.inj hone).2
  stay := Parses.piece_nil
  resumes h := h.2 hwordy
  restrung h := h.2 hwordy
  joined := rfl
  unjoined h := absurd rfl h
  between _ h := ⟨c.spaces_nil, fits_of_piece hwordy h⟩
  printed := by
    refine ⟨?_, fun n => ?_, ?_, fun n ns => ?_⟩ <;> simp [Production.printed, Node.printedAll]

namespace Production.Reprints

theorem word (hwordy : c.mode.rules.isWordy = true) (h : Production.word.body.LeadsBy Reprinted c a ns a') :
    Production.word.Reprints c a ns a' := by
  intro gap hgap _ hnil
  obtain ⟨o, a₁, hfirst, hrest⟩ := leads_bind.mp h
  obtain ⟨ms, ⟨hpiece, hreprints⟩, rfl⟩ := leads_first?.mp hfirst
  refine rereads_body (p := .word) ?_
  cases ms with
  | nil =>
    obtain ⟨rfl, rfl⟩ := leads_pure.mp hrest
    have hreads := rereads_first? (hreprints hwordy gap hgap nofun fun _ => hnil rfl)
    refine .of_text (rereads_bind hreads rereads_pure fun _ _ => id) ?_
    simp [Production.printed]
  | cons m ms =>
    obtain ⟨rest, a₂, hall, hpure⟩ := leads_bind.mp hrest
    obtain ⟨rfl, rfl⟩ := leads_pure.mp hpure
    have hall := leads_all.mp hall
    obtain ⟨hnil, -⟩ | ⟨_, _, hone, -⟩ := hpiece.piece_cases
    · cases hnil
    cases hone
    have hreads := rereads_first? (hreprints hwordy gap hgap nofun nofun)
    have hbehind := rereads_rest Parses.piece_nil (fun hne => absurd rfl hne) rfl (fun hne => by
      obtain ⟨k, rest, rfl⟩ := List.exists_cons_of_ne_nil hne
      exact ⟨c.spaces_nil, fits_of_piece hwordy hall.1⟩) hall.1 (hall.2 hwordy)
    refine .of_text (rereads_bind hreads (rereads_bind hbehind rereads_pure fun _ _ => id) fun _ _ => id) ?_
    cases rest <;> simp [Production.printed, Node.printed, Node.printedAll]

end Production.Reprints

/-! ### Strings -/

/-- Where blank is text, a token touches what stands in front of it. -/
theorem fits_of_unskipped (hwordy : c.mode.rules.isWordy = true) (hblank : c.mode.rules.set.blank = none) :
    c.Fits a [] := by
  rw [Context.Fits, if_neg (rules_of_wordy hwordy).2]
  intro t ht
  rw [blank_of_tokenAt (Context.token?_eq_some.mp ht), skipLength_of_unblank hblank, List.take_zero]

/-- What is behind an inner reader is behind the outer one, if both read words by the same rules. -/
theorem Context.Beyond.under {touch : Prop} {more : Text} {allowBlank : Bool} (h : c.Beyond touch a more) :
    (c.under c.mode.rules allowBlank).Beyond touch a more := by
  refine ⟨fun b hb hlevel => ?_, h.keeps⟩
  obtain ⟨t, t', ht, ht', htells⟩ := h.ahead b hb hlevel
  exact ⟨t, t', ht, ht', htells.akin, htells.joins, htells.bang, htells.target⟩

namespace Production.Reprints

theorem quoted (hmode : c.mode = ⟨.doubleQuote, true⟩) (h : Production.quoted.body.LeadsBy Reprinted c a ns a') :
    Production.quoted.Reprints c a ns a' := by
  have hwordy : c.mode.rules.isWordy = true := by rw [hmode]; rfl
  have hfits : ∀ {a}, c.Fits a [] := fits_of_unskipped hwordy (by rw [hmode]; rfl)
  obtain ⟨o, a₁, hnext, hrest⟩ := leads_bind.mp h
  have hanswer := leads_query.mp hnext
  refine rereads_body ?_
  cases o with
  | some l =>
    obtain ⟨rfl, rfl⟩ := leads_pure.mp hrest
    have hbody := body_of_next hnext rfl
    have hkind : l.kind = .doubleQuote := by
      obtain ⟨t, -, hwants, rfl, -⟩ := Query.take_some.mp hanswer
      exact kind_of_wants hwants
    have hfit : ∀ more, True → firstFit c.mode.rules.set.rules (l.body ++ more) = some (l.kind, l.body.length) := by
      intro more _
      rw [hbody, hkind]
      exact fit_doubleQuote hwordy more
    have hcloser := rereads_take_opener hanswer c.spaces_nil (fun _ => rfl) (by rw [hkind]; decide) hfit
    refine .of_text (rereads_bind (hcloser.mono (fun _ _ hagain => ?_) fun _ => id) rereads_pure fun _ _ => id) ?_
    · exact (hagain.beyond c.spaces_nil (rules_of_wordy hwordy).1).mono fun _ => hfits
    · simp [Node.printedAll, hbody]
  | none =>
    obtain ⟨t, -, -, rfl⟩ := Query.take_none.mp hanswer
    have hdecides : c.Decides True false (among [.doubleQuote]) := .inl ⟨rfl, by rw [hmode]⟩
    have huntaken := rereads_untaken hanswer hdecides
    obtain ⟨o, a₂, hfirst, hrest⟩ := leads_bind.mp hrest
    obtain ⟨ms, ⟨hpiece, hreprints⟩, rfl⟩ := leads_first?.mp hfirst
    cases ms with
    | nil => exact hrest.elim
    | cons m ms =>
      obtain ⟨hnil, -⟩ | ⟨_, _, hone, -⟩ := hpiece.piece_cases
      · cases hnil
      cases hone
      obtain ⟨pieces, a₃, hall, hpure⟩ := leads_bind.mp hrest
      obtain ⟨rfl, rfl⟩ := leads_pure.mp hpure
      have hquoted := (leads_all.mp hall).2 hmode
      have hreads := rereads_first? (hreprints hwordy [] Context.spaces_nil (fun _ => rfl) nofun)
      refine rereads_behind huntaken (.of_text (rereads_bind
        (hreads.mono (fun _ _ hmore => hmore.mono fun _ => hfits) fun _ => id)
        (rereads_bind (rereads_call hquoted) rereads_pure fun _ _ => id) fun _ _ => id) ?_)
      simp [Production.printed, Node.printedAll]

end Production.Reprints

/-! ### Commands of words -/

section Base
variable (hmode : c.mode = .base)
include hmode

theorem rules_of_base : c.mode.rules = .command := congrArg Mode.rules hmode

/-- What reads words reads a token first that could start a piece, and ends where none touches. -/
theorem word_starts (h : Parses c .word a (n :: ns) a') :
    ns = [] ∧ Stops c a' ∧ ∃ t, c.token? a = some t ∧ t.kind ∈ pieceStart c.inBackquote := by
  obtain ⟨xs, hxs⟩ := h.records
  obtain ⟨hns, hstops, -, t, hleading, -⟩ := hxs.word_cons (rules_of_base hmode)
  exact ⟨hns, hstops, t, hleading.token, hleading.kind⟩

/-- So does what reads assignments. -/
theorem assign_starts (h : Parses c .assign a (n :: ns) a') :
    ns = [] ∧ Stops c a' ∧ ∃ t, c.token? a = some t ∧ t.kind ∈ pieceStart c.inBackquote := by
  obtain ⟨xs, hxs⟩ := h.records
  obtain ⟨hns, hstops, -⟩ := hxs.assign_cons (rules_of_base hmode)
  refine ⟨hns, hstops, ?_⟩
  obtain ⟨o, a₁, haccept, hrest⟩ := leads_bind.mp (parses_iff.mp h)
  cases o with
  | none => cases (leads_pure.mp hrest).1
  | some body =>
    obtain ⟨y, hy, -⟩ := Query.mark_some.mp (leads_query.mp haccept)
    rw [rules_of_base hmode] at hy
    obtain ⟨t, ht, hkind, -⟩ := token_of_head hy
    refine ⟨t, Context.token?_eq_some.mpr ((rules_of_base hmode).symm ▸ ht), ?_⟩
    rw [hkind]
    cases c.inBackquote <;> decide

/-- Where no piece touches, what could start one stands behind blank. -/
theorem apart_of_stops {t : Token} (hstops : Stops c a) (ht : c.token? a = some t)
    (hkind : t.kind ∈ pieceStart c.inBackquote) : c.Spaces a [' '] ∧ c.Fits a [' '] := by
  have hblank : t.blank ≠ [] := by
    obtain ⟨u, hu, hno⟩ := hstops
    obtain rfl := Option.some.inj (ht.symm.trans hu)
    exact fun hnil => hno hnil hkind
  have hthere : ∀ u, c.token? a = some u → u.blank ≠ [] := fun u hu => Option.some.inj (ht.symm.trans hu) ▸ hblank
  refine ⟨c.spaces_base hmode (.inr hthere), ?_⟩
  rw [Context.Fits, rules_of_base hmode, if_neg (by decide)]
  exact fun u hu => iff_of_false (List.cons_ne_nil _ _) (hthere u hu)

theorem strung_word : Production.word.Strung c [' '] where
  single h := (word_starts hmode h).1
  stay := Parses.word_nil
  resumes h := h.2 (by rw [Production.Fitting]; rw [hmode]; rfl)
  restrung h := h.2 hmode
  joined := rfl
  unjoined _ := rfl
  between h h' := by
    obtain ⟨ms, _, hword, -⟩ := h'.many_cons
    obtain ⟨-, -, t, ht, hkind⟩ := word_starts hmode hword
    exact apart_of_stops hmode (word_starts hmode h).2.1 ht hkind
  printed := by
    refine ⟨?_, fun n => ?_, ?_, fun n ns => ?_⟩
    · simp [Production.printed, Node.printedAll]
    · simp [Production.printed]
    · simp [Production.printed, Node.printedApart]
    · cases ns <;> simp [Production.printed, Node.printedApart]

theorem strung_assign : Production.assign.Strung c [' '] where
  single h := (assign_starts hmode h).1
  stay := Parses.assign_nil
  resumes h := h.2 hmode
  restrung h := h.2 hmode
  joined := rfl
  unjoined _ := rfl
  between h h' := by
    obtain ⟨ms, _, hassign, -⟩ := h'.many_cons
    obtain ⟨-, -, t, ht, hkind⟩ := assign_starts hmode hassign
    exact apart_of_stops hmode (assign_starts hmode h).2.1 ht hkind
  printed := by
    refine ⟨?_, fun n => ?_, ?_, fun n ns => ?_⟩
    · simp [Production.printed, Node.printedAll]
    · simp [Production.printed]
    · simp [Production.printed, Node.printedApart]
    · cases ns <;> simp [Production.printed, Node.printedApart]

/-- No assignment is taken. -/
theorem rereads_unheaded (touch : Prop)
    (hanswer : (Query.mark .assignHead false).answer c a = some (none, a₁)) :
    a₁ = a ∧ (Reader.accept .assignHead).Rereads c (c.Beyond touch a) [] (c.Beyond touch a) a none a₁ := by
  obtain ⟨-, rfl⟩ := Query.mark_none.mp hanswer
  exact ⟨rfl, rereads_ahead fun _ hahead => (hahead.assignHead hmode hanswer).1⟩

/-- The head of an assignment is taken again, whatever stands behind it. -/
theorem rereads_head {body : Text} (hanswer : (Query.mark .assignHead false).answer c a = some (some body, a₁))
    (hgap : c.Spaces a gap) :
    (Reader.accept .assignHead).Rereads c (c.Beyond (c.Fits a gap) a) (gap ++ body) (fun _ => True) a
      (some body) a₁ := by
  have hrules := rules_of_base hmode
  have hallow : (false || c.mode.allowBlank) = true := by rw [hmode]; rfl
  have hnothing : gap = [] ∨ gap = [' '] := hgap.imp_right And.left
  obtain ⟨y, hy, rfl, rfl⟩ := Query.mark_some.mp hanswer
  rw [hrules, hallow] at hy
  obtain ⟨-, hfits⟩ := takeAt_fits hy
  obtain ⟨t, ht, hkind, -, hfront, name, hname, hbody⟩ := token_of_head hy
  have ht : c.token? a = some t := Context.token?_eq_some.mpr (hrules.symm ▸ ht)
  rw [hbody] at hfront ⊢
  obtain ⟨x, hx, hfirst, hstart⟩ := Token.head?_of_opens hname hfront
  have hne : y.body ≠ [] := by
    rw [hbody]
    exact List.append_ne_nil_of_right_ne_nil _ (List.cons_ne_nil _ _)
  refine rereads_query fun more _ => ⟨⟨fun b hb _ => ?_, fun hfit => ?_⟩, fun b hb hlevel => ?_⟩
  · -- Bare text stands there again, and starts with the same head.
    rw [List.append_assoc] at hb
    obtain ⟨t', ht', hkind', hblank', hfront'⟩ := tokenAt_head hname hb hnothing
    refine ⟨t, t', ht, Context.token?_eq_some.mpr (hrules.symm ▸ ht'),
      Token.akin_of_opens hname (hkind'.trans hkind.symm) hfront hfront', fun hfit harith _ => ?_,
      fun _ _ hno => absurd hno (Token.bang_of_opens hname hfront), fun hident => ?_⟩
    · rw [Context.Fits, if_neg harith] at hfit
      rw [hblank']
      exact hfit t ht
    · cases hkind.symm.trans hident
  · rw [List.append_assoc]
    refine Context.keeps_of_head ht (fun hslash => ?_) hgap hfit (by rw [hrules]; decide) ?_
    · rw [hslash] at hx
      cases hx
      cases hstart
    · rw [List.append_assoc, List.head?_append, hfirst, hx]
      rfl
  · rw [List.append_assoc] at hb
    have htake : command.takeAt assignHead Shape.assignHead.kind true b = some (y.moved b gap) := by
      rw [takeAt_head hname hb hnothing, Token.moved, (takeAt_matches hy).1, hbody]
    refine ⟨_, Query.mark_some.mpr ⟨y.moved b gap, ?_, hbody.symm, rfl⟩, Token.rest_moved (hbody ▸ hb),
      Token.level_moved hfits hne (hbody ▸ hb)⟩
    rw [hrules, hallow]
    exact htake

end Base

namespace Production.Reprints

theorem assign (hmode : c.mode = .base) (h : Production.assign.body.LeadsBy Reprinted c a ns a') :
    Production.assign.Reprints c a ns a' := by
  intro gap hgap _ hnil
  obtain ⟨o, a₁, haccept, hrest⟩ := leads_bind.mp h
  have hanswer := leads_query.mp haccept
  refine rereads_body ?_
  cases o with
  | none =>
    obtain ⟨rfl, rfl⟩ := leads_pure.mp hrest
    obtain rfl := hnil rfl
    obtain ⟨rfl, hunheaded⟩ := rereads_unheaded hmode True hanswer
    exact Reader.Rereads.mono (rereads_behind hunheaded rereads_pure) (fun _ _ hmore => hmore.mono fun _ => trivial)
      fun _ => id
  | some body =>
    obtain ⟨value, a₂, hfirst, hpure⟩ := leads_bind.mp hrest
    obtain ⟨rfl, rfl⟩ := leads_pure.mp hpure
    obtain ⟨ms, ⟨hparses, hreprints⟩, rfl⟩ := leads_first?.mp hfirst
    have hhead := rereads_head hmode hanswer hgap
    have hvalue := rereads_first? (hreprints rfl [] Context.spaces_nil nofun fun _ => rfl)
    have hbehind : ∀ more, c.Beyond True a' more → (c.under .command false).Beyond True a' more := fun more hmore =>
      rules_of_base hmode ▸ hmore.under
    have hname : ∃ name, body = name ++ ['='] := by
      obtain ⟨y, hy, rfl, -⟩ := Query.mark_some.mp hanswer
      rw [rules_of_base hmode] at hy
      obtain ⟨-, -, -, -, -, name, -, hbody⟩ := token_of_head hy
      exact ⟨name, hbody⟩
    obtain ⟨name, rfl⟩ := hname
    refine .of_text (rereads_bind hhead (rereads_bind (hvalue.mono (fun _ _ => id) hbehind) rereads_pure
      fun _ _ => id) fun _ _ _ => trivial) ?_
    cases ms with
    | nil => simp [Production.printed, Node.printed, Node.printedOpt, Node.printedAll]
    | cons m ms =>
      obtain ⟨hnil, -⟩ | ⟨_, _, _, -, -, hone⟩ := hparses.word_cases
      · cases hnil
      · obtain rfl := (List.cons.inj hone).2
        simp [Production.printed, Node.printed, Node.printedOpt]

end Production.Reprints

/-- Where no assignments are read, none are read again, whether what is behind touches or not. -/
theorem rereads_unassigned (hmode : c.mode = .base) (touch : Prop) (h : Parses c (.many .assign) a [] a') :
    a' = a ∧ (Reader.all .here (.many .assign)).Rereads c (c.Beyond touch a) [] (c.Beyond touch a) a [] a := by
  have hassign := h.many_nil
  obtain rfl := hassign.assign_nil
  obtain ⟨o, a₁, haccept, hrest⟩ := leads_bind.mp (parses_iff.mp hassign)
  cases o with
  | some body => cases (leads_pure.mp (leads_bind.mp hrest).choose_spec.choose_spec.2).1
  | none =>
    obtain ⟨rfl, hunheaded⟩ := rereads_unheaded hmode touch (leads_query.mp haccept)
    refine ⟨rfl, rereads_body (p := .many .assign) ?_⟩
    exact rereads_behind (rereads_first? (rereads_body (p := .assign) (rereads_behind hunheaded rereads_pure)))
      rereads_pure

end ShellGrammar
