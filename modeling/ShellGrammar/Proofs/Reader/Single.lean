import ShellGrammar.Proofs.Reader.Answers
import ShellGrammar.Proofs.Reader.Script

/-! Scripts of one word.

A script whose tree is one word, not put together from pieces, is one piece and nothing
else (`Script.piece_of_single`). The other way round, a piece with nothing behind it makes
such a script (`Script.of_piece`), unless it is bare text, which could be the head of an
assignment or a `!`. -/
namespace ShellGrammar
open Grammar ParseM

/-- The tree of a script with one word. -/
def Node.single (w : Node) : Node :=
  .list [.pipelines (.pipeline false (.simpleCommand [] [w])) none]

namespace Parses
variable {c : Context} {p : Production} {place place' : Scan} {ns : List Node} {n : Node}

/-! ### Pieces -/

theorem braced_one (h : Parses c .braced place ns place') : ∃ n, ns = [n] := by
  obtain ⟨form, place₁, _, hrest⟩ := leads_bind.mp (parses_iff.mp h)
  split at hrest
  · obtain ⟨_, _, _, hlast⟩ := leads_bind.mp hrest
    exact ⟨_, hlast.1⟩
  · obtain ⟨_, _, _, hlast⟩ := leads_bind.mp hrest
    exact ⟨_, hlast.1⟩

theorem arithClosed_one (h : Parses c .arithClosed place ns place') : ∃ n, ns = [n] := by
  obtain ⟨body, place₁, _, hrest⟩ := leads_bind.mp (parses_iff.mp h)
  obtain ⟨_, _, _, hlast⟩ := leads_bind.mp hrest
  exact ⟨_, hlast.1⟩

/-- Behind a token that starts a piece there is a piece. -/
theorem pieceRest_one {l : Lexeme} (h : Leads c (Reader.pieceRest l) place ns place') :
    ∃ n, ns = [n] := by
  unfold Reader.pieceRest at h
  split at h
  · exact ⟨_, h.1⟩
  · exact ⟨_, h.1⟩
  · exact ⟨_, h.1⟩
  · obtain ⟨_, _, _, hlast⟩ := leads_bind.mp h
    exact ⟨_, hlast.1⟩
  · exact braced_one (leads_all.mp h)
  · exact arithClosed_one (leads_all.mp h)
  · obtain ⟨_, _, _, hlast⟩ := leads_bind.mp h
    exact ⟨_, hlast.1⟩
  · obtain ⟨_, _, _, hlast⟩ := leads_bind.mp h
    exact ⟨_, hlast.1⟩
  · obtain ⟨_, _, _, hlast⟩ := leads_bind.mp h
    exact ⟨_, hlast.1⟩
  · obtain ⟨_, _, _, hlast⟩ := leads_bind.mp h
    exact ⟨_, hlast.1⟩
  · exact h.elim

/-- A piece is nothing, or a token and what follows it. -/
theorem piece_cases {adjacent : Bool} (h : Parses c (.piece adjacent) place ns place') :
    (ns = [] ∧ place' = place) ∨
      ∃ n t, ns = [n] ∧ c.token? place = some t ∧
        c.wants adjacent (among (pieceStart c.inBackquote)) t = true ∧
        Leads c (Reader.pieceRest t.lexeme) t.after [n] place' := by
  obtain ⟨o, place₁, htake, hrest⟩ := leads_bind.mp (parses_iff.mp h)
  cases o with
  | none =>
    obtain ⟨_, _, _, rfl⟩ := Query.take_none.mp (leads_query.mp htake)
    exact .inl hrest
  | some l =>
    obtain ⟨t, ht, hwants, rfl, rfl⟩ := Query.take_some.mp (leads_query.mp htake)
    obtain ⟨n, rfl⟩ := pieceRest_one hrest
    exact .inr ⟨n, t, rfl, ht, hwants, hrest⟩

/-! ### Productions that read nothing -/

theorem piece_nil {adjacent : Bool} (h : Parses c (.piece adjacent) place [] place') :
    place' = place := by
  obtain ⟨_, hplace⟩ | ⟨n, t, hnil, _⟩ := h.piece_cases
  · exact hplace
  · cases hnil

/-- A word is nothing, or a piece and the pieces that touch it. -/
theorem word_cases (h : Parses c .word place ns place') :
    (ns = [] ∧ place' = place) ∨
      ∃ first rest place₁, Parses c (.piece false) place [first] place₁ ∧
        Parses c (.many (.piece true)) place₁ rest place' ∧
        ns = [if rest.isEmpty then first else .concat (first :: rest)] := by
  obtain ⟨o, place₁, hfirst, hrest⟩ := leads_bind.mp (parses_iff.mp h)
  obtain ⟨ms, hms, rfl⟩ := leads_first?.mp hfirst
  cases ms with
  | nil =>
    obtain ⟨rfl, rfl⟩ := leads_pure.mp hrest
    exact .inl ⟨rfl, hms.piece_nil⟩
  | cons m ms =>
    obtain ⟨rest, place₂, hall, hlast⟩ := leads_bind.mp hrest
    obtain ⟨rfl, rfl⟩ := leads_pure.mp hlast
    obtain ⟨hnil, _⟩ | ⟨k, _, hone, _⟩ := hms.piece_cases
    · cases hnil
    · cases hone
      exact .inr ⟨m, rest, place₁, hms, leads_all.mp hall, rfl⟩

theorem word_nil (h : Parses c .word place [] place') : place' = place := by
  obtain ⟨_, hplace⟩ | ⟨_, _, _, _, _, hnil⟩ := h.word_cases
  · exact hplace
  · cases hnil

theorem assign_nil (h : Parses c .assign place [] place') : place' = place := by
  obtain ⟨o, place₁, haccept, hrest⟩ := leads_bind.mp (parses_iff.mp h)
  cases o with
  | none =>
    obtain ⟨_, rfl⟩ := leads_accept_none.mp haccept
    exact hrest.2
  | some t =>
    obtain ⟨_, _, _, hlast⟩ := leads_bind.mp hrest
    cases hlast.1

/-- A repetition of nothing is no round. -/
theorem many_nil (h : Parses c (.many p) place [] place') : Parses c p place [] place' := by
  obtain ⟨o, place₁, hfirst, hrest⟩ := leads_bind.mp (parses_iff.mp h)
  obtain ⟨ms, hms, rfl⟩ := leads_first?.mp hfirst
  cases ms with
  | nil =>
    rw [hrest.2]
    exact hms
  | cons m ms =>
    obtain ⟨_, _, _, hlast⟩ := leads_bind.mp hrest
    cases hlast.1

/-- A repetition with a result is a round and a repetition. -/
theorem many_cons (h : Parses c (.many p) place (n :: ns) place') :
    ∃ ms place₁, Parses c p place (n :: ms) place₁ ∧ Parses c (.many p) place₁ ns place' := by
  obtain ⟨o, place₁, hfirst, hrest⟩ := leads_bind.mp (parses_iff.mp h)
  obtain ⟨ms, hms, rfl⟩ := leads_first?.mp hfirst
  cases ms with
  | nil => cases hrest.1
  | cons m ms =>
    obtain ⟨rest, place₂, hall, hlast⟩ := leads_bind.mp hrest
    obtain ⟨heq, rfl⟩ := leads_pure.mp hlast
    cases heq
    exact ⟨ms, place₁, hms, leads_all.mp hall⟩

/-- A word that is not put together is one piece. -/
theorem word_piece (h : Parses c .word place (n :: ns) place') (hn : ∀ ps, n ≠ .concat ps) :
    Parses c (.piece false) place [n] place' := by
  obtain ⟨hnil, _⟩ | ⟨first, rest, place₁, hfirst, hrest, hone⟩ := h.word_cases
  · cases hnil
  · cases rest with
    | nil =>
      cases hone
      rw [hrest.many_nil.piece_nil]
      exact hfirst
    | cons k rest =>
      cases hone
      exact absurd rfl (hn _)

/-! ### Chains of one operand -/

/-- The rest of a chain is nothing, or it puts the chain together. -/
theorem chainRest_cases {ch : Chain} {left : Node}
    (h : Parses c (.chainRest ch left) place [n] place') :
    (n = left ∧ place' = place) ∨ ∃ op l r, n = ch.join op l r := by
  obtain ⟨depth, h⟩ := h
  induction depth generalizing place left with
  | zero => exact h.elim
  | succ depth ih =>
    obtain ⟨o, place₁, hop, hrest⟩ := leads_bind.mp h
    cases o with
    | none =>
      obtain ⟨heq, rfl⟩ := leads_pure.mp hrest
      cases heq
      obtain ⟨_, _, _, rfl⟩ := leads_operator_none.mp hop
      exact .inl ⟨rfl, rfl⟩
    | some op =>
      obtain ⟨right, place₂, _, hrest⟩ := leads_bind.mp hrest
      obtain ⟨rfl, _⟩ | hjoined := ih (leads_all.mp hrest)
      · exact .inr ⟨_, _, _, rfl⟩
      · exact .inr hjoined

/-- A chain of one operand is the operand. -/
theorem chain_first {ch : Chain} (h : Parses c (.chain ch) place [n] place')
    (hn : ∀ op l r, n ≠ ch.join op l r) : Parses c ch.first place [n] place' := by
  obtain ⟨left, place₁, hfirst, hrest⟩ := leads_bind.mp (parses_iff.mp h)
  obtain ⟨rfl, rfl⟩ | ⟨op, l, r, hjoined⟩ := (leads_all.mp hrest).chainRest_cases
  · exact leads_one.mp hfirst
  · exact absurd hjoined (hn op l r)

/-! ### Commands -/

/-- A command of one word that is not put together is one piece. -/
theorem command_piece {w : Node} (h : Parses c .command place [.simpleCommand [] [w]] place')
    (hw : ∀ ps, w ≠ .concat ps) : Parses c (.piece false) place [w] place' := by
  obtain ⟨assigns, place₁, hassigns, hrest⟩ := leads_bind.mp (parses_iff.mp h)
  obtain ⟨body, place₂, hbody, hrest⟩ := leads_bind.mp hrest
  split at hrest
  · exact hrest.elim
  · obtain ⟨heq, rfl⟩ := leads_pure.mp hrest
    cases heq
    obtain ⟨ms, place₃, hword, hmany⟩ := (leads_all.mp hbody).many_cons
    have hstay : place₁ = place := (leads_all.mp hassigns).many_nil.assign_nil
    rw [hmany.many_nil.word_nil, ← hstay]
    exact hword.word_piece hw

end Parses

variable {source : Text} {last : Token} {w : Node}

/-- Where no newline stands, none is read. -/
theorem Parses.newlines_stay {c : Context} {place place' : Scan} {ns : List Node}
    (h : Parses c .newlines place ns place')
    (hno : ∀ t, c.token? place = some t → t.kind ≠ .newline) : place' = place := by
  obtain ⟨o, place₁, hnext, hrest⟩ := leads_bind.mp (parses_iff.mp h)
  cases o with
  | none =>
    obtain ⟨_, _, _, rfl⟩ := leads_next_none.mp hnext
    exact hrest.2
  | some l =>
    obtain ⟨t, ht, hwants, _, _⟩ := leads_next_some.mp hnext
    have hkind : t.kind = .newline := by
      simpa [among] using (Context.wants_iff.mp hwants).1
    exact absurd hkind (hno t ht)

/-- An entry of one pipeline of one command of one piece. -/
theorem Parses.entry_piece {c : Context} {place place' : Scan}
    (h : Parses c .entry place
      [.pipelines (.pipeline false (.simpleCommand [] [w])) none] place')
    (hw : ∀ ps, w ≠ .concat ps) : Parses c (.piece false) place [w] place' := by
  obtain ⟨body, place₁, hbody, hrest⟩ := leads_bind.mp (parses_iff.mp h)
  obtain ⟨terminal, place₂, hterminal, hlast⟩ := leads_bind.mp hrest
  obtain ⟨heq, rfl⟩ := leads_pure.mp hlast
  cases terminal with
  | some l => cases heq
  | none =>
    cases heq
    obtain ⟨_, _, _, rfl⟩ := leads_next_none.mp hterminal
    have hpipeline := (leads_one.mp hbody).chain_first nofun
    obtain ⟨excl, place₃, hbang, hrest⟩ := leads_bind.mp (parses_iff.mp hpipeline)
    obtain ⟨command, place₄, hcommand, hlast⟩ := leads_bind.mp hrest
    obtain ⟨heq, rfl⟩ := leads_pure.mp hlast
    cases heq
    have hstay : place₃ = place := by
      obtain ⟨_, _, ⟨_, _, hplace⟩ | ⟨_, _, _, ⟨_, _, hplace⟩ | ⟨_, hfalse, _⟩⟩⟩ :=
        Query.bang_iff.mp (leads_query.mp hbang)
      · exact hplace
      · exact hplace
      · cases hfalse
    rw [← hstay]
    exact ((leads_one.mp hcommand).chain_first nofun).command_piece hw

/-- A script of one word that is not put together is one piece. -/
theorem Script.piece_of_single {es : List Node} (h : Script source es last)
    (hes : .list es = Node.single w) (hw : ∀ ps, w ≠ .concat ps)
    (hno : ∀ t, Context.script.token? (.ofText source) = some t → t.kind ≠ .newline) :
    Parses .script (.piece false) (.ofText source) [w] last.origin := by
  cases hes
  obtain ⟨_, place₁, hnewlines, hrest⟩ := leads_bind.mp (parses_iff.mp h.entries)
  obtain ⟨ended, place₂, hpeek, hrest⟩ := leads_bind.mp hrest
  obtain ⟨_, _, _, rfl⟩ := Query.peek_iff.mp (leads_query.mp hpeek)
  have hstay : place₂ = .ofText source := (leads_all.mp hnewlines).newlines_stay hno
  cases ended with
  | true => cases hrest.1
  | false =>
    rw [if_neg Bool.false_ne_true] at hrest
    obtain ⟨first, place₃, hentry, hrest⟩ := leads_bind.mp hrest
    split at hrest
    · rename_i hterminated
      obtain ⟨rest, place₄, _, hlast⟩ := leads_bind.mp hrest
      obtain ⟨heq, _⟩ := leads_pure.mp hlast
      cases heq
      cases hterminated
    · obtain ⟨heq, hplace⟩ := leads_pure.mp hrest
      cases heq
      rw [hplace, ← hstay]
      exact (leads_one.mp hentry).entry_piece hw

/-! ### From a piece to a script -/

namespace Parses
variable {c : Context} {p : Production} {place place' place'' : Scan} {ns : List Node} {n : Node}

theorem many_done (h : Parses c p place [] place') : Parses c (.many p) place [] place' :=
  parses_iff.mpr (leads_bind.mpr ⟨none, place', leads_first?.mpr ⟨[], h, rfl⟩, rfl, rfl⟩)

theorem many_more {ms : List Node} (h : Parses c p place (n :: ms) place')
    (hrest : Parses c (.many p) place' ns place'') : Parses c (.many p) place (n :: ns) place'' := by
  refine parses_iff.mpr (leads_bind.mpr ⟨some n, place', leads_first?.mpr ⟨_, h, rfl⟩, ?_⟩)
  exact leads_bind.mpr ⟨ns, place'', leads_all.mpr hrest, rfl, rfl⟩

theorem piece_done {adjacent : Bool} {t : Token} (ht : c.token? place = some t)
    (hwants : c.wants adjacent (among (pieceStart c.inBackquote)) t = false) :
    Parses c (.piece adjacent) place [] place :=
  parses_iff.mpr (leads_bind.mpr
    ⟨none, place, leads_query.mpr (Query.take_none.mpr ⟨t, ht, hwants, rfl⟩), rfl, rfl⟩)

theorem piece_of_token {adjacent : Bool} {t : Token} (ht : c.token? place = some t)
    (hwants : c.wants adjacent (among (pieceStart c.inBackquote)) t = true)
    (hrest : Leads c (Reader.pieceRest t.lexeme) t.after ns place') :
    Parses c (.piece adjacent) place ns place' :=
  parses_iff.mpr (leads_bind.mpr ⟨some t.lexeme, t.after,
    leads_query.mpr (Query.take_some.mpr ⟨t, ht, hwants, rfl, rfl⟩), hrest⟩)

theorem word_done (h : Parses c (.piece false) place [] place') : Parses c .word place [] place' :=
  parses_iff.mpr (leads_bind.mpr ⟨none, place', leads_first?.mpr ⟨[], h, rfl⟩, rfl, rfl⟩)

theorem word_of_piece (h : Parses c (.piece false) place [n] place')
    (hdone : Parses c (.piece true) place' [] place') : Parses c .word place [n] place' := by
  refine parses_iff.mpr (leads_bind.mpr ⟨some n, place', leads_first?.mpr ⟨_, h, rfl⟩, ?_⟩)
  exact leads_bind.mpr ⟨[], place', leads_all.mpr hdone.many_done, rfl, rfl⟩

theorem chain_of_first {ch : Chain} (h : Parses c ch.first place [n] place') {t : Token}
    (ht : c.token? place' = some t) (hwants : c.wants false ch.wants t = false) :
    Parses c (.chain ch) place [n] place' := by
  refine parses_iff.mpr (leads_bind.mpr ⟨n, place', leads_one.mpr h, leads_all.mpr ?_⟩)
  refine parses_iff.mpr (leads_bind.mpr ⟨none, place', ?_, rfl, rfl⟩)
  exact leads_operator_none.mpr ⟨t, ht, hwants, rfl⟩

theorem newlines_done {t : Token} (ht : c.token? place = some t) (hkind : t.kind ≠ .newline) :
    Parses c .newlines place [] place := by
  refine parses_iff.mpr (leads_bind.mpr ⟨none, place, leads_next_none.mpr ⟨t, ht, ?_, rfl⟩, rfl, rfl⟩)
  simp [Context.wants, among, hkind]

end Parses

/-- The characters that what opens a piece can start with. -/
def Rules.openers : Text := ['"', '$', '<', '>', '`']

/-- No assignment starts with an opener. -/
theorem Rules.takeAt_assignHead {ch : Char} {r : Text} {place : Scan} (hch : ch ∈ openers)
    (hplace : place.rest = ch :: r) (allowBlank : Bool) :
    command.takeAt assignHead .assignHead allowBlank place = none := by
  have hblank : command.blankLength (ch :: r) = 0 := by
    simp only [openers, List.mem_cons, List.not_mem_nil, or_false] at hch
    rcases hch with rfl | rfl | rfl | rfl | rfl <;> rfl
  have hreach : assignHead.reach? (ch :: r) = none := by
    apply Pattern.reach?_eq_none_of_mayStart
    simp only [openers, List.mem_cons, List.not_mem_nil, or_false] at hch
    rcases hch with rfl | rfl | rfl | rfl | rfl <;> rfl
  simp only [takeAt, hplace, hblank, List.drop_zero, hreach, Option.map_none, ite_self]

section Script
variable {place : Scan}

/-- A piece with nothing behind it, which no assignment and no `!` is, is a command. -/
theorem Parses.command_of_piece {c : Context} {start : Scan} {ch : Char} {r : Text}
    (h : Parses c (.piece false) start [w] place) (hrules : c.mode.rules = .command)
    (hend : place.rest = []) (hch : ch ∈ Rules.openers) (hstart : start.rest = ch :: r) :
    Parses c .command start [.simpleCommand [] [w]] place := by
  have heos : c.token? place = some (Rules.cut .eos 0 0 place) :=
    Context.token?_eq_some.mpr (Rules.tokenAt_nil hend _)
  have hnone : ∀ adjacent, c.wants adjacent (among (pieceStart c.inBackquote))
      (Rules.cut .eos 0 0 place) = false := by
    intro adjacent
    have hkind : among (pieceStart c.inBackquote) .eos = false := by
      cases c.inBackquote <;> rfl
    rw [Context.wants, show (Rules.cut .eos 0 0 place).kind = .eos from rfl, hkind, Bool.false_and]
  have hword : Parses c .word start [w] place := h.word_of_piece (.piece_done heos (hnone true))
  have hwords : Parses c (.many .word) start [w] place :=
    hword.many_more (Parses.word_done (.piece_done heos (hnone false))).many_done
  have hassign : Parses c .assign start [] start := by
    have hnone := Rules.takeAt_assignHead hch hstart c.mode.allowBlank
    rw [← hrules] at hnone
    exact parses_iff.mpr
      (leads_bind.mpr ⟨none, start, leads_accept_none.mpr ⟨hnone, rfl⟩, rfl, rfl⟩)
  refine parses_iff.mpr (leads_bind.mpr ⟨[], start, leads_all.mpr hassign.many_done, ?_⟩)
  exact leads_bind.mpr ⟨[w], place, leads_all.mpr hwords, rfl, rfl⟩

/-- A piece with nothing behind it makes a script, unless it is bare text. -/
theorem Script.of_piece {ch : Char} {r : Text}
    (h : Parses .script (.piece false) (.ofText source) [w] place) (hend : place.rest = [])
    (hch : ch ∈ Rules.openers) (hstart : source = ch :: r)
    (hstr : ∀ t, Context.script.token? (.ofText source) = some t → t.kind ≠ .str) :
    ∃ es last, .list es = Node.single w ∧ Script source es last := by
  obtain ⟨hnil, _⟩ | ⟨n, t, hn, ht, hwants, _⟩ := h.piece_cases
  · cases hnil
  have heos : Context.script.token? place = some (Rules.cut .eos 0 0 place) :=
    Context.token?_eq_some.mpr (Rules.tokenAt_nil hend _)
  have hstarts : among (pieceStart false) t.kind = true := (Context.wants_iff.mp hwants).1
  have hne : ∀ {kinds}, (∀ k ∈ pieceStart false, k ≠ .str → among kinds k = false) →
      Context.script.wants false (among kinds) t = false := by
    intro kinds hkinds
    have hmem : t.kind ∈ pieceStart false := by simpa [among, pieceStart] using hstarts
    rw [Context.wants, hkinds _ hmem (hstr t ht), Bool.false_and]
  have hcommand := h.command_of_piece rfl hend hch hstart
  have hpipes : Parses .script (.chain .pipe) (.ofText source) [.simpleCommand [] [w]] place :=
    Parses.chain_of_first hcommand heos rfl
  have hpipeline : Parses .script .pipeline (.ofText source)
      [.pipeline false (.simpleCommand [] [w])] place := by
    have hno : ¬ (Context.script.wants false (among [.str]) t = true ∧ t.body = ['!']) := by
      rw [hne (by decide)]
      exact fun hbang => Bool.false_ne_true hbang.1
    have hbang : Query.bang.answer .script (.ofText source) = some (false, .ofText source) :=
      Query.bang_iff.mpr ⟨t, ht, .inl ⟨hno, rfl, rfl⟩⟩
    refine parses_iff.mpr (leads_bind.mpr ⟨false, _, leads_query.mpr hbang, ?_⟩)
    exact leads_bind.mpr ⟨_, place, leads_one.mpr hpipes, rfl, rfl⟩
  have hentry : Parses .script .entry (.ofText source)
      [.pipelines (.pipeline false (.simpleCommand [] [w])) none] place := by
    have handOr : Parses .script (.chain .andOr) (.ofText source) _ place :=
      Parses.chain_of_first hpipeline heos rfl
    refine parses_iff.mpr (leads_bind.mpr ⟨_, place, leads_one.mpr handOr, ?_⟩)
    exact leads_bind.mpr ⟨none, place, leads_next_none.mpr ⟨_, heos, rfl, rfl⟩, rfl, rfl⟩
  refine ⟨_, Rules.cut .eos 0 0 place, rfl, ?_, Context.token?_eq_some.mp heos, rfl⟩
  refine parses_iff.mpr (leads_bind.mpr ⟨[], .ofText source, leads_all.mpr ?_, ?_⟩)
  · refine Parses.newlines_done ht fun hkind => ?_
    rw [hkind] at hstarts
    cases hstarts
  · refine leads_bind.mpr ⟨false, .ofText source, ?_, ?_⟩
    · exact leads_query.mpr (Query.peek_iff.mpr ⟨t, ht, hne (by decide), rfl⟩)
    · exact leads_bind.mpr ⟨_, place, leads_one.mpr hentry, rfl, rfl⟩

/-- Where no assignment starts, none is read. -/
theorem Parses.assigns_none {c : Context} {start : Scan} {ns : List Node}
    (h : Parses c (.many .assign) start ns place)
    (hnone : c.mode.rules.takeAt assignHead .assignHead c.mode.allowBlank start = none) :
    ns = [] ∧ place = start := by
  have hassign : Parses c .assign start [] start :=
    parses_iff.mpr (leads_bind.mpr ⟨none, start, leads_accept_none.mpr ⟨hnone, rfl⟩, rfl, rfl⟩)
  exact Parses.functional hassign.many_done h

/-- A command starts with a piece, unless it starts with an assignment. -/
theorem Parses.command_start {c : Context} {start : Scan} {ns : List Node}
    (h : Parses c .command start ns place)
    (hnone : c.mode.rules.takeAt assignHead .assignHead c.mode.allowBlank start = none) :
    ∃ n place', Parses c (.piece false) start [n] place' := by
  obtain ⟨assigns, place₁, hassigns, hrest⟩ := leads_bind.mp (parses_iff.mp h)
  obtain ⟨rfl, rfl⟩ := (leads_all.mp hassigns).assigns_none hnone
  obtain ⟨body, place₂, hbody, hrest⟩ := leads_bind.mp hrest
  cases body with
  | nil => exact hrest.elim
  | cons n body =>
    obtain ⟨ms, place₃, hword, _⟩ := (leads_all.mp hbody).many_cons
    obtain ⟨hnil, _⟩ | ⟨first, _, place₄, hfirst, _⟩ := hword.word_cases
    · cases hnil
    · exact ⟨first, place₄, hfirst⟩

/-- An entry starts with a piece if no assignment and no `!` starts it. -/
theorem Parses.entry_start {c : Context} {start : Scan} {ns : List Node}
    (h : Parses c .entry start ns place) {t : Token} (ht : c.token? start = some t)
    (hstr : t.kind ≠ .str)
    (hnone : c.mode.rules.takeAt assignHead .assignHead c.mode.allowBlank start = none) :
    ∃ n place', Parses c (.piece false) start [n] place' := by
  obtain ⟨_, _, hbody, _⟩ := leads_bind.mp (parses_iff.mp h)
  obtain ⟨_, _, hpipeline, _⟩ := leads_bind.mp (parses_iff.mp (leads_one.mp hbody))
  obtain ⟨excl, place₃, hbang, hrest⟩ := leads_bind.mp (parses_iff.mp (leads_one.mp hpipeline))
  have hstay : place₃ = start := by
    obtain ⟨v, hv, ⟨_, _, hplace⟩ | ⟨⟨hwants, _⟩, _⟩⟩ := Query.bang_iff.mp (leads_query.mp hbang)
    · exact hplace
    · have hkind : v.kind = .str := by
        simpa [among] using (Context.wants_iff.mp hwants).1
      obtain rfl := Option.some.inj (hv.symm.trans ht)
      exact absurd hkind hstr
  subst hstay
  obtain ⟨_, _, hpipes, _⟩ := leads_bind.mp hrest
  obtain ⟨_, _, hcommand, _⟩ := leads_bind.mp (parses_iff.mp (leads_one.mp hpipes))
  exact (leads_one.mp hcommand).command_start hnone

/-- A script starts with a piece if no newline, no assignment and no bare text starts it. -/
theorem Script.piece_start {es : List Node} (h : Script source es last)
    (hnone : Rules.command.takeAt assignHead .assignHead true (.ofText source) = none) {t : Token}
    (ht : Context.script.token? (.ofText source) = some t) (hnewline : t.kind ≠ .newline)
    (heos : t.kind ≠ .eos) (hstr : t.kind ≠ .str) :
    ∃ n place, Parses .script (.piece false) (.ofText source) [n] place := by
  have hfirst : ∀ {u : Token}, Context.script.token? (.ofText source) = some u → u = t :=
    fun hu => Option.some.inj (hu.symm.trans ht)
  obtain ⟨_, place₁, hnewlines, hrest⟩ := leads_bind.mp (parses_iff.mp h.entries)
  have hstay : place₁ = .ofText source :=
    (leads_all.mp hnewlines).newlines_stay fun u hu => by rwa [hfirst hu]
  subst hstay
  obtain ⟨ended, place₂, hpeek, hrest⟩ := leads_bind.mp hrest
  obtain ⟨u, hu, hwants, rfl⟩ := Query.peek_iff.mp (leads_query.mp hpeek)
  obtain rfl := hfirst hu
  cases ended with
  | true =>
    have hkind : u.kind = .eos := by
      simpa [among, Closer.kind] using (Context.wants_iff.mp hwants).1
    exact absurd hkind heos
  | false =>
    rw [if_neg Bool.false_ne_true] at hrest
    obtain ⟨_, _, hentry, _⟩ := leads_bind.mp hrest
    exact (leads_one.mp hentry).entry_start ht hstr hnone

end Script

end ShellGrammar
