import ShellGrammar.Proofs.Reader.Single
import ShellGrammar.Proofs.Reader.Tail
import ShellGrammar.Proofs.Rules.Ending

/-! Commands in front of a closer.

The commands of a text that is read to its end are read the same with the closer of a list
behind the text (`Parses.entries_ending`). What was asked at the end of the source is asked
about the closer then: it starts no command and no piece, and it is no operator. -/
namespace ShellGrammar
open Grammar ParseM Rules

variable {closer : Closer} {c : Context} {m m₁ a : Scan}

/-- The rest of a text does not end with a comment, and it is no lone backslash. -/
structure Scan.Uncommented (m : Scan) : Prop where
  backslash : m.rest ≠ ['\\']
  sharp : ∀ t, Rules.command.tokenAt m = .ok t → t.kind = .eos → '#' ∉ m.rest

/-- A lone backslash is no token of a command. -/
theorem Rules.rest_ne_backslash {t : Token} (ht : Rules.command.tokenAt m = .ok t) :
    m.rest ≠ ['\\'] := by
  intro hrest
  have hskip : Rules.command.skipLength m = 0 := by
    simp only [skipLength, hrest]
    split <;> rfl
  obtain ⟨hnil, _⟩ | ⟨kind, n, hfit, _⟩ := tokenAt_cases ht
  · rw [hskip, hrest] at hnil
    cases hnil
  · rw [hskip, hrest] at hfit
    cases hfit

/-- Where a token is left there is no comment up to the end. -/
theorem Scan.Uncommented.of_token {t : Token} (ht : Rules.command.tokenAt m = .ok t)
    (hkind : t.kind ≠ .eos) : m.Uncommented where
  backslash := rest_ne_backslash ht
  sharp u hu heos := by
    rw [ht] at hu
    cases hu
    exact absurd heos hkind

/-- A closer that ends the commands of a context. -/
structure Closer.Ends (closer : Closer) (c : Context) : Prop where
  nested : closer ≠ .endOfSource
  rules : c.mode.rules = .command
  starts : among (pieceStart c.inBackquote) closer.kind = false

/-! ### Questions -/

/-- The questions that are asked in commands: none takes the end of the source or the closer. -/
def Query.IsCommand (closer : Closer) (c : Context) : (β : Type) → Query β → Prop
  | _, take _ want => want c.inBackquote .eos = false ∧ want c.inBackquote closer.kind = false
  | _, mark shape _ => shape = .assignHead
  | _, bang => True
  | _, _ => False

namespace Scan.Ahead
variable (hcloser : closer.Ends c)
include hcloser

/-- What is not taken at the end of the source or for the closer is wanted at both places or
at neither. -/
theorem wants_ending (h : m.Ahead closer.text a) {t : Token} (ht : c.token? m = some t)
    (hsharp : t.kind = .eos → '#' ∉ m.rest) {adjacent : Bool} {want : Kind → Bool}
    (heos : want .eos = false) (hno : want closer.kind = false) :
    ∃ u, c.token? a = some u ∧ c.wants adjacent want u = c.wants adjacent want t ∧
      (t.kind = .str → u.body = ['!'] → t.body = ['!']) := by
  have hlexed := Context.token?_eq_some.mp ht
  rw [hcloser.rules] at hlexed
  have htoken : ∀ {u : Token}, Rules.command.tokenAt a = .ok u → c.token? a = some u := by
    intro u hu
    rw [← hcloser.rules] at hu
    exact Context.token?_eq_some.mpr hu
  cases h.tokenAt_ending hcloser.nested hlexed with
  | same _ hu => exact ⟨t.at a, htoken hu, rfl, fun _ hbody => hbody⟩
  | closed hkind hu hkind' =>
    refine ⟨_, htoken hu, ?_, fun hstr => ?_⟩
    · simp only [Context.wants, hkind, hkind', heos, hno, Bool.false_and]
    · rw [hkind] at hstr
      cases hstr
  | comment hkind hmem =>
    rw [(tokenAt_fits hlexed).1] at hmem
    exact absurd hmem (hsharp hkind)
  | longer hkind _ hu hkind' hblank hbody =>
    refine ⟨_, htoken hu, ?_, fun _ hbang => ?_⟩
    · simp only [Context.wants, Token.isAdjacent, hkind', hblank, hkind]
    · rw [hbang] at hbody
      exact absurd hbody (by decide)

/-- A token in front of the closer is the same, unless it is bare text with a lone backslash
behind it. -/
theorem token?_ending (h : m.Ahead closer.text a) {t : Token} (ht : c.token? m = some t)
    (hkind : t.kind ≠ .eos) (hend : t.kind = .str → t.after.rest ≠ ['\\']) :
    c.token? a = some (t.at a) ∧ t.after.Ahead closer.text (t.at a).after := by
  have hlexed := Context.token?_eq_some.mp ht
  obtain ⟨rfl, hfits⟩ := tokenAt_fits hlexed
  refine ⟨?_, h.after hfits⟩
  rw [hcloser.rules] at hlexed
  cases h.tokenAt_ending hcloser.nested hlexed with
  | same _ hu =>
    rw [← hcloser.rules] at hu
    exact Context.token?_eq_some.mpr hu
  | closed hkind' => exact absurd hkind' hkind
  | comment hkind' => exact absurd hkind' hkind
  | longer hstr hlast => exact absurd hlast (hend hstr)

theorem kind_ending (h : m.Ahead closer.text a) {t : Token} (ht : c.token? m = some t)
    (hkind : t.kind ≠ .eos) : ∃ u, c.token? a = some u ∧ u.kind = t.kind := by
  have hlexed := Context.token?_eq_some.mp ht
  rw [hcloser.rules] at hlexed
  have htoken : ∀ {u : Token}, Rules.command.tokenAt a = .ok u → c.token? a = some u := by
    intro u hu
    rw [← hcloser.rules] at hu
    exact Context.token?_eq_some.mpr hu
  cases h.tokenAt_ending hcloser.nested hlexed with
  | same _ hu => exact ⟨_, htoken hu, rfl⟩
  | closed hkind' => exact absurd hkind' hkind
  | comment hkind' => exact absurd hkind' hkind
  | longer hstr _ hu hkind' => exact ⟨_, htoken hu, hkind'.trans hstr.symm⟩

theorem take_ending (h : m.Ahead closer.text a) {adjacent : Bool} {want : Bool → Kind → Bool}
    {o : Option Lexeme} (hq : (Query.take adjacent want).answer c m = some (o, m₁))
    (heos : want c.inBackquote .eos = false) (hno : want c.inBackquote closer.kind = false)
    (hend : m₁.Uncommented ∨ ∃ l, o = some l ∧ l.kind ≠ .str) :
    ∃ a₁, (Query.take adjacent want).answer c a = some (o, a₁) ∧ m₁.Ahead closer.text a₁ := by
  cases o with
  | none =>
    obtain ⟨t, ht, hwants, rfl⟩ := Query.take_none.mp hq
    have hlexed := Context.token?_eq_some.mp ht
    rw [hcloser.rules] at hlexed
    obtain ⟨u, hu, hsame, _⟩ := h.wants_ending hcloser ht
      ((hend.resolve_right nofun).sharp t hlexed) heos hno
    exact ⟨a, Query.take_none.mpr ⟨u, hu, hsame.trans hwants, rfl⟩, h⟩
  | some l =>
    obtain ⟨t, ht, hwants, rfl, rfl⟩ := Query.take_some.mp hq
    have hkind : t.kind ≠ .eos := by
      intro hkind
      rw [Context.wants, hkind, heos] at hwants
      cases hwants
    obtain ⟨hu, hafter⟩ := h.token?_ending hcloser ht hkind fun hstr => by
      rcases hend with hend | ⟨l, hl, hnot⟩
      · exact hend.backslash
      · cases hl
        exact absurd hstr hnot
    exact ⟨_, Query.take_some.mpr ⟨_, hu, hwants, rfl, rfl⟩, hafter⟩

/-- No head of an assignment goes over the closer. -/
theorem mark_ending (h : m.Ahead closer.text a) {pastBlank : Bool} {o : Option Text}
    (hq : (Query.mark .assignHead pastBlank).answer c m = some (o, m₁)) :
    ∃ a₁, (Query.mark .assignHead pastBlank).answer c a = some (o, a₁) ∧
      m₁.Ahead closer.text a₁ := by
  obtain ⟨x, htext, hx, _⟩ := closer_cases hcloser.nested
  have hblank : c.mode.rules.blankLength a.rest = c.mode.rules.blankLength m.rest := by
    rw [h.rest, blankLength_closer _ hcloser.nested]
  have hreach : Shape.assignHead.pattern.reach? (a.rest.drop (c.mode.rules.blankLength m.rest)) =
      Shape.assignHead.pattern.reach? (m.rest.drop (c.mode.rules.blankLength m.rest)) := by
    rw [h.drop_blank, htext, Pattern.reach?,
      Pattern.steady_of_avoids (Shape.assignHead.avoids x hx) _ [] id]
    rfl
  have hthere := h.takeAt_eq hblank hreach Shape.assignHead.kind (pastBlank || c.mode.allowBlank)
  cases o with
  | none =>
    obtain ⟨hnone, rfl⟩ := Query.mark_none.mp hq
    rw [hnone] at hthere
    exact ⟨a, Query.mark_none.mpr ⟨hthere, rfl⟩, h⟩
  | some body =>
    obtain ⟨t, ht, rfl, rfl⟩ := Query.mark_some.mp hq
    rw [ht] at hthere
    obtain ⟨rfl, hfits⟩ := takeAt_fits ht
    exact ⟨_, Query.mark_some.mpr ⟨_, hthere, rfl, rfl⟩, h.after hfits⟩

/-- A `!` stands alone in front of the closer if it does at the end of the source. -/
theorem bang_ending (h : m.Ahead closer.text a) {b : Bool}
    (hq : Query.bang.answer c m = some (b, m₁)) (hend : m₁.Uncommented) :
    ∃ a₁, Query.bang.answer c a = some (b, a₁) ∧ m₁.Ahead closer.text a₁ := by
  obtain ⟨t, ht, hcase⟩ := Query.bang_iff.mp hq
  have hlexed := Context.token?_eq_some.mp ht
  rw [hcloser.rules] at hlexed
  have hstr : among [.str] closer.kind = false := by cases closer <;> rfl
  have hstart : among (pieceStart c.inBackquote) .eos = false := by cases c.inBackquote <;> rfl
  obtain ⟨hno, rfl, rfl⟩ | ⟨⟨hwants, hbody⟩, u, hu, hcase⟩ := hcase
  · obtain ⟨t', ht', hsame, hbang⟩ := h.wants_ending hcloser ht (hend.sharp t hlexed) rfl hstr
    refine ⟨a, Query.bang_iff.mpr ⟨t', ht', .inl ⟨fun ⟨hwants', hbody⟩ => ?_, rfl, rfl⟩⟩, h⟩
    rw [hsame] at hwants'
    have hkind : t.kind = .str := by simpa [among] using (Context.wants_iff.mp hwants').1
    exact hno ⟨hwants', hbang hkind hbody⟩
  · have hkind : t.kind = .str := by simpa [among] using (Context.wants_iff.mp hwants).1
    have hlexed' := Context.token?_eq_some.mp hu
    rw [hcloser.rules] at hlexed'
    obtain ⟨ht', hafter⟩ := h.token?_ending hcloser ht (by rw [hkind]; decide)
      fun _ => rest_ne_backslash hlexed'
    obtain ⟨hadjacent, rfl, rfl⟩ | ⟨hadjacent, rfl, rfl⟩ := hcase
    · obtain ⟨u', hu', hsame, _⟩ := hafter.wants_ending hcloser hu (fun heos => by
        rw [Context.wants, heos, hstart] at hadjacent
        cases hadjacent) hstart hcloser.starts
      exact ⟨a, Query.bang_iff.mpr ⟨_, ht', .inr ⟨⟨hwants, hbody⟩, u', hu',
        .inl ⟨hsame.trans hadjacent, rfl, rfl⟩⟩⟩, h⟩
    · obtain ⟨u', hu', hsame, _⟩ := hafter.wants_ending hcloser hu (hend.sharp u hlexed') hstart
        hcloser.starts
      exact ⟨_, Query.bang_iff.mpr ⟨_, ht', .inr ⟨⟨hwants, hbody⟩, u', hu',
        .inr ⟨hsame.trans hadjacent, rfl, rfl⟩⟩⟩, hafter⟩

/-- In front of the closer the questions of commands are answered as at the end of the source. -/
theorem answer_ending (h : m.Ahead closer.text a) {β : Type} {q : Query β} {r : β}
    (hcommand : Query.IsCommand closer c β q) (hq : q.answer c m = some (r, m₁))
    (hend : m₁.Uncommented) :
    ∃ a₁, q.answer c a = some (r, a₁) ∧ m₁.Ahead closer.text a₁ := by
  cases q with
  | take adjacent want => exact h.take_ending hcloser hq hcommand.1 hcommand.2 (.inl hend)
  | mark shape pastBlank =>
    cases show shape = .assignHead from hcommand
    exact h.mark_ending hcloser hq
  | bang => exact h.bang_ending hcloser hq hend
  | peek | close | target => exact hcommand.elim

end Scan.Ahead

/-- Where an assignment starts there is no comment. -/
theorem Scan.Uncommented.of_assign {allowBlank : Bool} {t : Token}
    (ht : Rules.command.takeAt assignHead .assignHead allowBlank m = some t) : m.Uncommented := by
  obtain ⟨n, hreach, _⟩ := takeAt_cases ht
  cases hdrop : m.rest.drop (Rules.command.blankLength m.rest) with
  | nil =>
    rw [hdrop, Pattern.reach?_nil] at hreach
    cases hreach
  | cons ch r =>
    rw [hdrop] at hreach
    have hstart : assignHead.mayStart ch = true := by
      apply Bool.of_not_eq_false
      intro hno
      rw [Pattern.reach?_eq_none_of_mayStart hno] at hreach
      cases hreach
    refine ⟨fun hrest => ?_, fun u hu heos => ?_⟩
    · rw [hrest] at hdrop
      cases hdrop
      cases hstart
    · have hcomment : commentLength (ch :: r) = 0 := by
        have hne : '#' ≠ ch := by
          rintro rfl
          cases hstart
        simp [commentLength, comment, Pattern.reach, List.isPrefixOf, hne]
      have hskip : Rules.command.skipLength m = Rules.command.blankLength m.rest := by
        simp only [skipLength, hdrop, hcomment]
        split <;> rfl
      obtain ⟨hnil, _⟩ | ⟨kind, length, hfit, rfl⟩ := tokenAt_cases hu
      · rw [hskip, hdrop] at hnil
        cases hnil
      · exact absurd heos (firstFit_ne_eos hfit)

/-- Where no comment is ahead behind a question there is none in front of it. -/
theorem Query.uncommented (hcloser : closer.Ends c) {β : Type} {q : Query β} {r : β}
    (hcommand : Query.IsCommand closer c β q) (hq : q.answer c m = some (r, m₁))
    (hend : m₁.Uncommented) : m.Uncommented := by
  have hlexed : ∀ {t : Token}, c.token? m = some t → Rules.command.tokenAt m = .ok t := by
    intro t ht
    have ht := Context.token?_eq_some.mp ht
    rwa [hcloser.rules] at ht
  cases q with
  | take adjacent want =>
    cases r with
    | none =>
      obtain ⟨_, _, _, rfl⟩ := take_none.mp hq
      exact hend
    | some l =>
      obtain ⟨t, ht, hwants, _, _⟩ := take_some.mp hq
      refine .of_token (hlexed ht) fun hkind => ?_
      rw [Context.wants, hkind, hcommand.1] at hwants
      cases hwants
  | mark shape pastBlank =>
    cases show shape = .assignHead from hcommand
    cases r with
    | none =>
      obtain ⟨_, rfl⟩ := mark_none.mp hq
      exact hend
    | some body =>
      obtain ⟨t, ht, _, _⟩ := mark_some.mp hq
      rw [hcloser.rules] at ht
      exact .of_assign ht
  | bang =>
    obtain ⟨t, ht, ⟨_, _, rfl⟩ | ⟨⟨hwants, _⟩, _⟩⟩ := bang_iff.mp hq
    · exact hend
    · have hkind : t.kind = .str := by simpa [among] using (Context.wants_iff.mp hwants).1
      exact .of_token (hlexed ht) (by rw [hkind]; decide)
  | peek | close | target => exact hcommand.elim

/-! ### Productions -/

/-- The productions of commands and words. -/
def Production.IsCommand : Production → Prop
  | many p => p.IsCommand
  | chain ch | chainRest ch _ => ch.isCommand = true
  | newlines | entry | pipeline | command | assign | word | piece _ => True
  | _ => False

/-- The calls that are made in commands. -/
def Shift.IsCommand (shift : Shift) (p : Production) : Prop :=
  (shift = .here ∨ ∃ allowBlank, shift = .under .command allowBlank) ∧ p.IsCommand

open Reader in
theorem Production.IsCommand.within {p : Production} (hp : p.IsCommand)
    (hpiece : ∀ adjacent, p ≠ .piece adjacent) :
    p.body.Within (Query.IsCommand closer c) Shift.IsCommand := by
  have hhere : ∀ {p : Production}, p.IsCommand → Shift.IsCommand .here p := fun hp => ⟨.inl rfl, hp⟩
  have hnext : ∀ {kinds : List Kind}, among kinds .eos = false → among kinds .rparen = false →
      among kinds .backquote = false →
      (Reader.next kinds).Within (Query.IsCommand closer c) Shift.IsCommand := by
    intro kinds heos hparen hback
    refine within_query ⟨heos, ?_⟩
    cases closer <;> assumption
  cases p with
  | many p =>
    refine within_bind (within_first? (hhere hp)) fun o => ?_
    cases o with
    | none => exact within_pure
    | some n => exact within_bind (within_all (hhere hp)) fun _ => within_pure
  | chain ch =>
    refine within_bind (within_one (hhere ?_)) fun _ => within_all (hhere hp)
    cases ch with
    | andOr | pipe => trivial
    | comma | binary => cases hp
  | chainRest ch left =>
    have hoperator : ch.operator.Within (Query.IsCommand closer c) Shift.IsCommand := by
      refine within_bind ?_ fun o => ?_
      · cases ch with
        | andOr | pipe => exact within_query ⟨rfl, by cases closer <;> rfl⟩
        | comma | binary => cases hp
      · cases o with
        | none => exact within_pure
        | some op =>
          simp only [show ch.isCommand = true from hp, if_true]
          exact within_bind (within_all (hhere trivial)) fun _ => within_pure
    refine within_bind hoperator fun o => ?_
    cases o with
    | none => exact within_pure
    | some op =>
      refine within_bind (within_one (hhere ?_)) fun _ => within_all (hhere hp)
      cases ch with
      | andOr | pipe => trivial
      | comma | binary => cases hp
  | newlines =>
    refine within_bind (hnext rfl rfl rfl) fun o => ?_
    cases o with
    | none => exact within_pure
    | some _ => exact within_all (hhere trivial)
  | entry =>
    refine within_bind (within_one (hhere rfl)) fun _ => ?_
    exact within_bind (hnext rfl rfl rfl) fun _ => within_pure
  | pipeline =>
    refine within_bind (within_query trivial) fun _ => ?_
    exact within_bind (within_one (hhere rfl)) fun _ => within_pure
  | command =>
    refine within_bind (within_all (hhere trivial)) fun assigns => ?_
    refine within_bind (within_all (hhere trivial)) fun body => ?_
    cases assigns.isEmpty && body.isEmpty with
    | true => trivial
    | false => exact within_pure
  | assign =>
    refine within_bind (within_query rfl) fun o => ?_
    cases o with
    | none => exact within_pure
    | some t => exact within_bind (within_first? ⟨.inr ⟨false, rfl⟩, trivial⟩) fun _ => within_pure
  | word =>
    refine within_bind (within_first? (hhere trivial)) fun o => ?_
    cases o with
    | none => exact within_pure
    | some first => exact within_bind (within_all (hhere trivial)) fun _ => within_pure
  | piece adjacent => exact absurd rfl (hpiece adjacent)
  | list | entries | quoted | braced | arithClosed | assignment | ternary | power | unary | post
    | primary => cases hp

/-- The productions of commands read the same in front of the closer, if no comment ends the
text. -/
def Ended (closer : Closer) : Yielding := fun c p m ns m₁ =>
  closer.Ends c → p.IsCommand → m₁.Uncommented → m.Uncommented ∧
    ∀ a, m.Ahead closer.text a → ∃ a₁, Parses c p a ns a₁ ∧ m₁.Ahead closer.text a₁

theorem carries_ending (hcloser : closer.Ends c) :
    Carries (Query.IsCommand closer c) Shift.IsCommand
      (fun c p m ns m₁ => Parses c p m ns m₁ ∧ Ended closer c p m ns m₁) Parses c c
      (Scan.Ahead closer.text) Scan.Uncommented := by
  have hshift : ∀ {shift : Shift} {p : Production}, Shift.IsCommand shift p →
      closer.Ends (c.shift shift) := by
    rintro shift p ⟨rfl | ⟨allowBlank, rfl⟩, _⟩
    · exact hcloser
    · exact ⟨hcloser.nested, rfl, hcloser.starts⟩
  exact
    { ask := fun hcommand hq hend hrel => hrel.answer_ending hcloser hcommand hq hend
      call := fun hp hcall hend hrel => (hcall.2 (hshift hp) hp.2 hend).2 _ hrel
      asked := fun hcommand hq hend => Query.uncommented hcloser hcommand hq hend
      called := fun hp hcall hend => (hcall.2 (hshift hp) hp.2 hend).1 }

/-- A piece in front of the closer. -/
theorem Parses.piece_ending (hcloser : closer.Ends c) {adjacent : Bool} {ns : List Node}
    (h : Parses c (.piece adjacent) m ns m₁) (hend : m₁.Uncommented) :
    m.Uncommented ∧ ∀ a, m.Ahead closer.text a →
      ∃ a₁, Parses c (.piece adjacent) a ns a₁ ∧ m₁.Ahead closer.text a₁ := by
  have hstart : among (pieceStart c.inBackquote) .eos = false := by cases c.inBackquote <;> rfl
  obtain ⟨o, m₂, htake, hrest⟩ := leads_bind.mp (parses_iff.mp h)
  have htake := leads_query.mp htake
  cases o with
  | none =>
    obtain ⟨rfl, rfl⟩ := leads_pure.mp hrest
    have hcommand : Query.IsCommand closer c _ (.take adjacent fun b => among (pieceStart b)) :=
      ⟨hstart, hcloser.starts⟩
    refine ⟨Query.uncommented hcloser hcommand htake hend, ?_⟩
    intro a hahead
    obtain ⟨a₁, htake', hahead₁⟩ := hahead.take_ending hcloser htake hstart hcloser.starts (.inl hend)
    exact ⟨a₁, parses_iff.mpr (leads_bind.mpr ⟨none, a₁, leads_query.mpr htake', rfl, rfl⟩), hahead₁⟩
  | some l =>
    have hstays : m₂.Uncommented ∨ ∃ l', some l = some l' ∧ l'.kind ≠ .str := by
      by_cases hstr : l.kind = .str
      · simp only [Reader.pieceRest, hstr] at hrest
        obtain ⟨_, rfl⟩ := leads_pure.mp hrest
        exact .inl hend
      · exact .inr ⟨l, rfl, hstr⟩
    refine ⟨?_, fun a hahead => ?_⟩
    · obtain ⟨t, ht, hwants, _, _⟩ := Query.take_some.mp htake
      have hlexed := Context.token?_eq_some.mp ht
      rw [hcloser.rules] at hlexed
      refine .of_token hlexed fun hkind => ?_
      rw [Context.wants, hkind, hstart] at hwants
      cases hwants
    · obtain ⟨a₂, htake', hahead₂⟩ :=
        hahead.take_ending hcloser htake hstart hcloser.starts hstays
      obtain ⟨a₁, hrest', hahead₁⟩ := leads_pieceRest_tail (isInert_closer closer) rfl hrest hahead₂
      exact ⟨a₁, parses_iff.mpr (leads_bind.mpr ⟨some l, a₂, leads_query.mpr htake', hrest'⟩), hahead₁⟩

theorem Parses.ended {p : Production} {ns : List Node} (h : Parses c p m ns m₁) :
    Ended closer c p m ns m₁ := by
  refine h.induct fun {c p m ns m₁} hbody => ?_
  intro hcloser hp hend
  by_cases hpiece : ∃ adjacent, p = .piece adjacent
  · obtain ⟨adjacent, rfl⟩ := hpiece
    exact Parses.piece_ending hcloser (parses_iff.mpr (hbody.mono fun _ _ _ _ _ h => h.1)) hend
  · have hwithin : p.body.Within (Query.IsCommand closer c) Shift.IsCommand :=
      hp.within fun adjacent heq => hpiece ⟨adjacent, heq⟩
    obtain ⟨hstart, hthere⟩ := (carries_ending hcloser).leads hwithin hbody hend
    refine ⟨hstart, fun a hahead => ?_⟩
    obtain ⟨a₁, hleads, hahead₁⟩ := hthere a hahead
    exact ⟨a₁, parses_iff.mpr hleads, hahead₁⟩

/-! ### Lists -/

/-- No entry starts with a closer. -/
theorem Parses.kind_ne_closer (hcloser : closer.Ends c) {ns : List Node}
    (h : Parses c .entry m ns m₁) {t : Token} (ht : c.token? m = some t) :
    t.kind ≠ closer.kind := by
  intro hkind
  have hlexed := Context.token?_eq_some.mp ht
  rw [hcloser.rules] at hlexed
  obtain ⟨x, htext, hx, _⟩ := closer_cases hcloser.nested
  have hfixed : closer.kind ≠ .eos ∧ closer.kind ≠ .str := by
    cases closer with
    | endOfSource => exact absurd rfl hcloser.nested
    | paren | backquote => decide
  obtain ⟨_, hdrop⟩ := tokenAt_blank hlexed (hkind ▸ hfixed.1) (hkind ▸ closer.kind_ne_newline)
  rw [body_of_spelling hlexed (hkind ▸ closer.spelling?_kind), htext, List.singleton_append] at hdrop
  have hnone : c.mode.rules.takeAt assignHead .assignHead c.mode.allowBlank m = none := by
    have hreach : assignHead.reach? (x :: t.after.rest) = none := by
      refine Pattern.reach?_eq_none_of_mayStart ?_
      simp only [closers, List.mem_cons, List.not_mem_nil, or_false] at hx
      rcases hx with rfl | rfl | rfl | rfl <;> rfl
    simp only [takeAt, hcloser.rules, hdrop, hreach, Option.map_none, ite_self]
  obtain ⟨n, place, hpiece⟩ := h.entry_start ht (hkind ▸ hfixed.2) hnone
  obtain ⟨hnil, _⟩ | ⟨_, u, _, hu, hwants, _⟩ := hpiece.piece_cases
  · cases hnil
  · obtain rfl := Option.some.inj (ht.symm.trans hu)
    rw [Context.wants, hkind, hcloser.starts] at hwants
    cases hwants

/-- A place where a text of commands ends, without a comment. -/
structure Scan.Ended (c : Context) (m : Scan) : Prop where
  eos : ∃ t, c.token? m = some t ∧ t.kind = .eos
  sharp : '#' ∉ m.rest

theorem Scan.Ended.uncommented (hcloser : closer.Ends c) (h : m.Ended c) : m.Uncommented where
  backslash := by
    obtain ⟨t, ht, _⟩ := h.eos
    have hlexed := Context.token?_eq_some.mp ht
    rw [hcloser.rules] at hlexed
    exact rest_ne_backslash hlexed
  sharp _ _ _ := h.sharp

/-- Where a text of commands ends stands the closer. -/
theorem Scan.Ahead.closer_of_ended (hcloser : closer.Ends c) (hended : m.Ended c)
    (h : m.Ahead closer.text a) :
    ∃ u, c.token? a = some u ∧ u.kind = closer.kind ∧ u.after.rest = [] := by
  obtain ⟨t, ht, heos⟩ := hended.eos
  have hlexed := Context.token?_eq_some.mp ht
  rw [hcloser.rules] at hlexed
  cases h.tokenAt_ending hcloser.nested hlexed with
  | same hkind => exact absurd heos hkind
  | closed _ hu hkind _ hrest =>
    rw [← hcloser.rules] at hu
    exact ⟨_, Context.token?_eq_some.mpr hu, hkind, hrest⟩
  | comment _ hmem =>
    rw [(tokenAt_fits hlexed).1] at hmem
    exact absurd hmem hended.sharp
  | longer hkind =>
    rw [heos] at hkind
    cases hkind

/-- The entries of a text are the entries of a list with the text and the closer behind it. -/
theorem Parses.entries_ending (hcloser : closer.Ends c) (hblank : c.mode.allowBlank = true)
    {es : List Node} (h : Parses c (.entries .endOfSource) m es m₁) (hended : m₁.Ended c) :
    m.Uncommented ∧ ∀ a, m.Ahead closer.text a →
      ∃ a₁, Parses c (.entries closer) a es a₁ ∧ m₁.Ahead closer.text a₁ := by
  refine @Parses.induct _ _ _ (fun c p m es m₁ => p = .entries .endOfSource → closer.Ends c →
    c.mode.allowBlank = true → m₁.Ended c → m.Uncommented ∧ ∀ a, m.Ahead closer.text a →
      ∃ a₁, Parses c (.entries closer) a es a₁ ∧ m₁.Ahead closer.text a₁) ?_ _ _ h rfl hcloser
    hblank hended
  rintro c p m es m₁ hbody rfl hcloser hblank hended
  obtain ⟨ns, m₂, t, ⟨hnewlines, _⟩, ht, hrest⟩ := leads_entries.mp hbody
  have hwants : ∀ {kind : Kind} {u : Token},
      c.wants false (among [kind]) u = true ↔ u.kind = kind := by
    intro kind u
    simp [Context.wants, hblank, among]
  obtain ⟨_, rfl, rfl⟩ | ⟨hnot, first, m₃, ⟨hentry, _⟩, hrest⟩ := hrest
  · obtain ⟨hstart, hthere⟩ := hnewlines.ended hcloser trivial (hended.uncommented hcloser)
    refine ⟨hstart, fun a hahead => ?_⟩
    obtain ⟨a₂, hnewlines', hahead₂⟩ := hthere a hahead
    obtain ⟨u, hu, hkind, _⟩ := hahead₂.closer_of_ended hcloser hended
    exact ⟨a₂, parses_iff.mpr (leads_entries.mpr
      ⟨ns, a₂, u, hnewlines', hu, .inl ⟨hwants.mpr hkind, rfl, rfl⟩⟩), hahead₂⟩
  · have heos : t.kind ≠ .eos := fun heos =>
      Bool.false_ne_true (hnot.symm.trans (hwants.mpr heos))
    -- Behind the entry stands the rest of the entries, or the end of the text.
    have hbehind : m₃.Uncommented ∧ ∀ a₃, m₃.Ahead closer.text a₃ → ∃ a₁,
        ((isTerminated first = true ∧ ∃ rest, Parses c (.entries closer) a₃ rest a₁ ∧
            es = first :: rest) ∨
          (isTerminated first = false ∧ es = [first] ∧ a₁ = a₃)) ∧ m₁.Ahead closer.text a₁ := by
      obtain ⟨hterminated, rest, ⟨_, hrest⟩, rfl⟩ | ⟨hterminated, rfl, rfl⟩ := hrest
      · obtain ⟨hstart, hthere⟩ := hrest rfl hcloser hblank hended
        refine ⟨hstart, fun a₃ hahead => ?_⟩
        obtain ⟨a₁, hrest', hahead₁⟩ := hthere a₃ hahead
        exact ⟨a₁, .inl ⟨hterminated, rest, hrest', rfl⟩, hahead₁⟩
      · exact ⟨hended.uncommented hcloser,
          fun a₃ hahead => ⟨a₃, .inr ⟨hterminated, rfl, rfl⟩, hahead⟩⟩
    obtain ⟨hstart₂, hthere₂⟩ := hentry.ended hcloser trivial hbehind.1
    obtain ⟨hstart, hthere⟩ := hnewlines.ended hcloser trivial hstart₂
    refine ⟨hstart, fun a hahead => ?_⟩
    obtain ⟨a₂, hnewlines', hahead₂⟩ := hthere a hahead
    obtain ⟨a₃, hentry', hahead₃⟩ := hthere₂ a₂ hahead₂
    obtain ⟨a₁, hrest', hahead₁⟩ := hbehind.2 a₃ hahead₃
    obtain ⟨u, hu, hkind⟩ := hahead₂.kind_ending hcloser ht heos
    refine ⟨a₁, parses_iff.mpr (leads_entries.mpr
      ⟨ns, a₂, u, hnewlines', hu, .inr ⟨?_, first, a₃, hentry', hrest'⟩⟩), hahead₁⟩
    rw [← Bool.not_eq_true, hwants, hkind]
    exact hentry.kind_ne_closer hcloser ht

/-- The list of a script is a list with the closer behind its text. -/
theorem Parses.list_ending (hcloser : closer.Ends c) (hblank : c.mode.allowBlank = true)
    {es : List Node} (h : Parses c (.entries .endOfSource) m es m₁) (hended : m₁.Ended c)
    (hahead : m.Ahead closer.text a) :
    ∃ a₁, Parses c (.list closer) a [.list es] a₁ ∧ a₁.rest = [] := by
  obtain ⟨_, hthere⟩ := h.entries_ending hcloser hblank hended
  obtain ⟨a₁, hentries, hahead₁⟩ := hthere a hahead
  obtain ⟨u, hu, hkind, hrest⟩ := hahead₁.closer_of_ended hcloser hended
  refine ⟨u.after, parses_iff.mpr (leads_bind.mpr ⟨es, a₁, leads_all.mpr hentries, ?_⟩), hrest⟩
  refine leads_bind.mpr ⟨u.lexeme, u.after, leads_expect.mpr (leads_next_some.mpr
    ⟨u, hu, ?_, rfl, rfl⟩), rfl, rfl⟩
  simp [Context.wants, hblank, among, hkind]

end ShellGrammar
