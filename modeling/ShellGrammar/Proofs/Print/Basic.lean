import ShellGrammar.Proofs.Log.Newlines
import ShellGrammar.Proofs.Rules.Kept
import ShellGrammar.Proofs.Tree.Printed
import ShellGrammar.Proofs.Words

/-! Reading again what was printed.

What a production read from one text it reads from another, if the same tokens stand there. A reader
goes on asking behind what it takes, so this depends on what is left behind it: on both sides the
same has to be ahead (`Context.Ahead`), and it must not make a token longer that stands in front of
it (`Rules.Keeps`). `Rereads` says of a reader what it asks of the text behind it, and what the text
that starts with its own then is for a reader in front of it. So readers are put together by their
texts, and no place of the other text is ever named. -/
namespace ShellGrammar
open Grammar ParseM Rules

/-! ### Heads of assignments -/

/-- The text of a token starts with the name of a variable and `=`. -/
def Token.OpensAssignment (t : Token) : Prop :=
  ∃ name, Text.isVariableName name = true ∧ name ++ ['='] <+: t.body

namespace Rules
variable {a : Scan} {t y : Token} {kind : Kind} {allowBlank : Bool} {name : Text}

theorem text_of_nameRest {c : Char} (hc : Text.isNameRest c = true) : command.text c = true := by
  rw [Text.isNameRest, Bool.or_eq_true, Char.isAlphanum, Bool.or_eq_true] at hc
  obtain (halpha | hdigit) | hunder := hc
  · exact text_of_name (by rw [Text.isNameStart, halpha, Bool.true_or])
  · obtain ⟨hge, hle⟩ := (Bool.and_eq_true _ _).mp hdigit
    have hge : 48 ≤ c.toNat := UInt32.le_iff_toNat_le.mp (of_decide_eq_true hge)
    have hle : c.toNat ≤ 57 := UInt32.le_iff_toNat_le.mp (of_decide_eq_true hle)
    have hspace : Text.isSpace c = false := by
      simp only [Text.isSpace, Text.Range.holds, Text.whiteSpace, List.any_cons, List.any_nil,
        Bool.or_false, Bool.or_eq_false_iff, Bool.and_eq_false_iff, decide_eq_false_iff_not]
      omega
    have hstops : commandStops.contains c = false := by
      refine Bool.eq_false_iff.mpr fun hmem => ?_
      have hdigits : commandStops.all (fun d => !d.isDigit) = true := by decide
      have hno := List.all_eq_true.mp hdigits c (List.contains_iff_mem.mp hmem)
      rw [hdigit] at hno
      cases hno
    show (!Text.isSpace c && !commandStops.contains c) = true
    rw [hspace, hstops]
    rfl
  · exact text_of_name (by rw [Text.isNameStart, hunder, Bool.or_true])

/-- A name and a `=` are bare text among commands. -/
theorem denotes_head (hname : Text.isVariableName name = true) :
    (Pattern.run command.text).Denotes (name ++ ['=']) := by
  have hall : ∀ {u : Text}, (∀ c ∈ u, Text.isNameRest c = true) →
      (Pattern.many (Pattern.runPiece command.text)).Denotes (u ++ ['=']) := by
    intro u hu
    induction u with
    | nil => exact Pattern.denotes_many_one (Pattern.denotes_char (by decide) (by decide))
    | cons c u ih =>
      obtain ⟨hc, hu⟩ := List.forall_mem_cons.mp hu
      refine .again (t := [c]) (Pattern.denotes_char (text_of_nameRest hc) ?_) (ih hu)
      rintro rfl
      revert hc
      decide
  exact (Pattern.denotes_run_iff (List.append_ne_nil_of_right_ne_nil _ (List.cons_ne_nil _ _))).mpr
    (hall fun _ => Text.isNameRest_of_mem hname)

/-- Where the head of an assignment stands, the token is bare text that starts with it. -/
theorem token_of_head (hy : command.takeAt assignHead kind allowBlank a = some y) :
    ∃ t, command.tokenAt a = .ok t ∧ t.kind = .str ∧ t.blank = y.blank ∧ y.body <+: t.body ∧
      ∃ name, Text.isVariableName name = true ∧ y.body = name ++ ['='] := by
  obtain ⟨horigin, hfits⟩ := takeAt_fits hy
  obtain ⟨name, _, hbody, hname, heq⟩ := (takeAt_matches hy).2.of_seq
  rw [heq.of_lit] at hbody
  have hname := hname.of_variableName
  obtain ⟨hblank, -, -⟩ := takeAt_front hy
  have hrest : a.rest = y.blank ++ (y.body ++ y.after.rest) := by
    rw [← horigin, Token.rest_origin hfits, Token.text, List.append_assoc]
  obtain ⟨c, name, rfl, hc⟩ := Text.exists_cons_of_name hname
  obtain ⟨t, ht, hkind, htblank, hhead⟩ := tokenAt_name hc (a := a) (by
    rw [hblank, hrest, List.drop_left, hbody]
    rfl)
  have htblank : t.blank = y.blank := by rw [htblank, hblank, hrest, List.take_left]
  refine ⟨t, ht, hkind, htblank, ?_, _, hname, hbody⟩
  have hdrop : t.body ++ t.after.rest = y.body ++ y.after.rest := by
    have hfront := tokenAt_front ht
    rw [hrest, htblank] at hfront
    exact (List.append_cancel_left hfront).symm
  have hfit := fit_of_tokenAt ht (by rintro hnil; rw [hnil] at hhead; cases hhead)
  have hrun : ⟨.run command.text, .str⟩ ∈ command.set.rules := by
    simp [set, commandRules, text]
  have hle := firstFit_longest (fun _ => greedy_of_mem) (before_rules command) hfit hrun
    (hbody ▸ denotes_head hname) (hdrop ▸ List.prefix_append _ _)
  exact List.prefix_of_prefix_length_le (List.prefix_append _ _) (hdrop ▸ List.prefix_append _ _) hle

theorem reach_head (hname : Text.isVariableName name = true) (more : Text) :
    assignHead.reach? (name ++ ['='] ++ more) = some (name.length + 1) := by
  refine Pattern.reach?_eq_some_iff.mpr ⟨?_, Nat.succ_pos _⟩
  have hstop : ∀ ch, (['='] ++ more).head? = some ch → Text.isNameRest ch = false := by
    rintro ch ⟨⟩
    decide
  rw [List.append_assoc, assignHead]
  simp only [Pattern.reach, Pattern.reach_variableName hname hstop, List.drop_left, Option.bind_eq_bind,
    Option.bind_some, Option.pure_def]
  rfl

/-- Where blank is allowed, the head of an assignment stands if the token starts with one. -/
theorem takeAt_head_iff (ht : command.tokenAt a = .ok t) :
    (command.takeAt assignHead kind true a).isSome = true ↔ t.kind = .str ∧ t.OpensAssignment := by
  constructor
  · intro h
    obtain ⟨y, hy⟩ := Option.isSome_iff_exists.mp h
    obtain ⟨t', ht', hkind, -, hfront, name, hname, hbody⟩ := token_of_head hy
    rw [ht'] at ht
    cases ht
    exact ⟨hkind, name, hname, hbody ▸ hfront⟩
  · rintro ⟨hkind, name, hname, more, hmore⟩
    have hdrop := (tokenAt_blank ht (by rw [hkind]; nofun) (by rw [hkind]; nofun)).2
    have hreach : assignHead.reach? (t.body ++ t.after.rest) = some (name.length + 1) := by
      rw [← hmore, List.append_assoc]
      exact reach_head hname _
    rw [takeAt, Bool.not_true, Bool.and_false, if_neg Bool.false_ne_true, hdrop, hreach]
    rfl

end Rules

/-! ### Shapes -/

namespace Rules
variable {rules : Rules} {b : Scan} {kind : Kind} {allowBlank : Bool} {gap rest more : Text} {x : Char}

/-- In front of a text that starts with no blank, nothing or one space is all that is skipped. -/
theorem blankLength_gap (hx : x ∉ [' ', '\t', '\n', '\\'])
    (hgap : gap = [] ∨ gap = [' '] ∧ rules.set.blank ≠ none) :
    rules.blankLength (gap ++ x :: rest) = gap.length := by
  have hzero : rules.blankLength (x :: rest) = 0 := blankLength_cons_of_not_mem hx rest
  obtain rfl | ⟨rfl, hblank⟩ := hgap
  · exact hzero
  · exact blankLength_append (blankLength_spaces hblank (by simp)) hzero

/-- The head of an assignment is taken where it stands. -/
theorem takeAt_head {name : Text} (hname : Text.isVariableName name = true)
    (hb : b.rest = gap ++ (name ++ ['='] ++ more)) (hgap : gap = [] ∨ gap = [' ']) :
    command.takeAt assignHead kind true b = some ⟨kind, b, gap, name ++ ['=']⟩ := by
  have hskip : command.blankLength b.rest = gap.length := by
    obtain ⟨x, rest, rfl, hx⟩ := Text.exists_cons_of_name hname
    rw [hb]
    refine blankLength_gap (fun hmem => ?_) (hgap.imp_right fun h => ⟨h, nofun⟩)
    have hno : [' ', '\t', '\n', '\\'].all (fun ch => !Text.isNameStart ch) = true := by decide
    have hno := List.all_eq_true.mp hno x hmem
    rw [hx] at hno
    cases hno
  have hlength : name.length + 1 = (name ++ ['=']).length := by
    rw [List.length_append]
    rfl
  rw [takeAt, Bool.not_true, Bool.and_false, if_neg Bool.false_ne_true, hskip, hb, List.drop_left,
    reach_head hname, Option.map_some, cut, hb, List.take_left, List.drop_left, hlength, List.take_left]

/-- Bare text stands there then, and starts with it. -/
theorem tokenAt_head {name : Text} (hname : Text.isVariableName name = true)
    (hb : b.rest = gap ++ (name ++ ['='] ++ more)) (hgap : gap = [] ∨ gap = [' ']) :
    ∃ t, command.tokenAt b = .ok t ∧ t.kind = .str ∧ t.blank = gap ∧ name ++ ['='] <+: t.body := by
  have htake : command.takeAt assignHead Shape.assignHead.kind true b = some ⟨_, b, gap, name ++ ['=']⟩ :=
    takeAt_head hname hb hgap
  obtain ⟨t, ht, hkind, hblank, hfront, -⟩ := token_of_head htake
  exact ⟨t, ht, hkind, hblank, hfront⟩

/-- A fixed text is taken where it stands. -/
theorem takeAt_text (hx : x ∉ [' ', '\t', '\n', '\\']) (hb : b.rest = gap ++ (x :: rest ++ more))
    (hgap : gap = [] ∨ gap = [' '] ∧ rules.set.blank ≠ none ∧ allowBlank = true) :
    rules.takeAt (.lit (x :: rest)) kind allowBlank b = some ⟨kind, b, gap, x :: rest⟩ := by
  have hskip : rules.blankLength b.rest = gap.length := by
    rw [hb]
    exact blankLength_gap hx (hgap.imp_right fun h => ⟨h.1, h.2.1⟩)
  have hallowed : ¬ (decide (0 < gap.length) && !allowBlank) = true := by
    obtain rfl | ⟨rfl, -, rfl⟩ := hgap
    · nofun
    · nofun
  have hreach : (Pattern.lit (x :: rest)).reach? (x :: rest ++ more) = some (x :: rest).length := by
    refine Pattern.reach?_eq_some_iff.mpr ⟨?_, Nat.succ_pos _⟩
    rw [Pattern.reach, if_pos (List.isPrefixOf_iff_prefix.mpr (List.prefix_append _ _))]
  rw [takeAt, hskip, if_neg hallowed, hb, List.drop_left, hreach, Option.map_some, cut, hb, List.take_left,
    List.drop_left, List.take_left]

end Rules

/-! ### Two places -/

/-- A comment may start at both places or at neither. -/
def Scan.Level (a b : Scan) : Prop := commentMayStart 0 b = commentMayStart 0 a

namespace Token
variable {t t' : Token} {b : Scan} {gap more : Text}

/-- Tokens of which questions tell the same, but for the blank in front of them. -/
structure Akin (t t' : Token) : Prop where
  kind : t'.kind = t.kind
  head : t'.body.head? = t.body.head?
  bang : t'.body = ['!'] ↔ t.body = ['!']
  opens : t'.OpensAssignment ↔ t.OpensAssignment

theorem Akin.moved (t : Token) (b : Scan) (gap : Text) : t.Akin (t.moved b gap) :=
  ⟨rfl, rfl, Iff.rfl, Iff.rfl⟩

section Opens
variable {name : Text} (hname : Text.isVariableName name = true)
include hname

/-- What opens an assignment starts as a name does. -/
theorem head?_of_opens (h : name ++ ['='] <+: t.body) : ∃ x, t.body.head? = some x ∧ name.head? = some x ∧
    Text.isNameStart x = true := by
  obtain ⟨more, hmore⟩ := h
  obtain ⟨x, name, rfl, hx⟩ := Text.exists_cons_of_name hname
  exact ⟨x, by rw [← hmore]; rfl, rfl, hx⟩

theorem bang_of_opens (h : name ++ ['='] <+: t.body) : t.body ≠ ['!'] := by
  intro hbang
  obtain ⟨x, hx, -, hstart⟩ := head?_of_opens hname h
  rw [hbang] at hx
  cases hx
  cases hstart

theorem akin_of_opens (hkind : t'.kind = t.kind) (h : name ++ ['='] <+: t.body) (h' : name ++ ['='] <+: t'.body) :
    t.Akin t' := by
  obtain ⟨x, hx, hfirst, -⟩ := head?_of_opens hname h
  obtain ⟨x', hx', hfirst', -⟩ := head?_of_opens hname h'
  refine ⟨hkind, ?_, iff_of_false (bang_of_opens hname h') (bang_of_opens hname h),
    iff_of_true ⟨name, hname, h'⟩ ⟨name, hname, h⟩⟩
  rw [hx, hx', Option.some.inj (hfirst.symm.trans hfirst')]

end Opens

theorem fits_moved (hb : b.rest = gap ++ (t.body ++ more)) : (t.moved b gap).Fits :=
  ⟨more, by rw [Token.text, Token.moved, hb, List.append_assoc]⟩

theorem rest_moved (hb : b.rest = gap ++ (t.body ++ more)) : (t.moved b gap).after.rest = more := by
  rw [Token.after, Scan.rest_forward, Token.moved, hb, ← List.append_assoc, ← List.length_append,
    List.drop_left]

theorem level_moved (hfits : t.Fits) (hbody : t.body ≠ []) (hb : b.rest = gap ++ (t.body ++ more)) :
    t.after.Level (t.moved b gap).after := by
  rw [Scan.Level, Token.commentMayStart_after hfits hbody,
    Token.commentMayStart_after (fits_moved hb) hbody]
  rfl

end Token

namespace Context
variable {c : Context} {touch touch' : Prop} {a b : Scan} {t t' : Token} {gap more : Text}

/-- Tokens of which questions in a context tell the same. With `touch`, what can start a piece of a
word touches on both sides or on neither. Behind a `!` and behind a name the second token is looked
at too. -/
structure Tells (c : Context) (touch : Prop) (t t' : Token) : Prop where
  akin : t.Akin t'
  joins : touch → c.mode.rules ≠ .arith → t.kind ∈ pieceStart c.inBackquote → (t'.blank = [] ↔ t.blank = [])
  bang : c.mode.rules ≠ .arith → t.kind = .str → t.body = ['!'] → ∃ u u', c.token? t.after = some u ∧
    c.token? t'.after = some u' ∧ c.wants true (among (pieceStart c.inBackquote)) u' = c.wants true (among (pieceStart c.inBackquote)) u
  target : t.kind = .ident → ∃ u u', c.token? t.after = some u ∧ c.token? t'.after = some u' ∧ u'.kind = u.kind

/-- At two places stand tokens of which questions tell the same. -/
def Ahead (c : Context) (touch : Prop) (a b : Scan) : Prop :=
  ∃ t t', c.token? a = some t ∧ c.token? b = some t' ∧ c.Tells touch t t'

/-- With this text ahead questions tell the same as at a place, and with `touch`, what stands in front
of it stays as it is. -/
structure Beyond (c : Context) (touch : Prop) (a : Scan) (more : Text) : Prop where
  ahead : ∀ b, b.rest = more → a.Level b → c.Ahead touch a b
  keeps : touch → c.mode.rules.Keeps a.rest more

theorem Tells.mono (h : c.Tells touch t t') (htouch : touch' → touch) : c.Tells touch' t t' :=
  ⟨h.akin, h.joins ∘ htouch, h.bang, h.target⟩

theorem Ahead.mono (h : c.Ahead touch a b) (htouch : touch' → touch) : c.Ahead touch' a b := by
  obtain ⟨t, t', ht, ht', htells⟩ := h
  exact ⟨t, t', ht, ht', htells.mono htouch⟩

theorem Beyond.mono (h : c.Beyond touch a more) (htouch : touch' → touch) : c.Beyond touch' a more :=
  ⟨fun b hb hlevel => (h.ahead b hb hlevel).mono htouch, h.keeps ∘ htouch⟩

/-- A question that is asked past blank, or for pieces where they touch on both sides or on neither. -/
def Decides (c : Context) (touch : Prop) (adjacent : Bool) (want : Kind → Bool) : Prop :=
  (adjacent = false ∧ c.mode.allowBlank = true) ∨
    (touch ∧ c.mode.rules ≠ .arith ∧ ∀ kind, want kind = true → kind ∈ pieceStart c.inBackquote)

theorem Tells.wants (h : c.Tells touch t t') {adjacent : Bool} {want : Kind → Bool}
    (hdecides : c.Decides touch adjacent want) : c.wants adjacent want t' = c.wants adjacent want t := by
  rw [Bool.eq_iff_iff, Context.wants_iff, Context.wants_iff, h.akin.kind]
  obtain ⟨rfl, hallow⟩ | ⟨htouch, hrules, hwant⟩ := hdecides
  · simp [hallow]
  · refine and_congr_right fun hkind => or_congr_right ?_
    exact h.joins htouch hrules (hwant _ hkind)

namespace Ahead
variable (h : c.Ahead touch a b) {place : Scan}
include h

theorem take {adjacent : Bool} {want : Bool → Kind → Bool}
    (hanswer : (Query.take adjacent want).answer c a = some (none, place))
    (hdecides : c.Decides touch adjacent (want c.inBackquote)) :
    (Query.take adjacent want).answer c b = some (none, b) ∧ place = a := by
  obtain ⟨t, t', ht, ht', htells⟩ := h
  obtain ⟨u, hu, hwants, rfl⟩ := Query.take_none.mp hanswer
  obtain rfl := Option.some.inj (ht.symm.trans hu)
  exact ⟨Query.take_none.mpr ⟨t', ht', (htells.wants hdecides).trans hwants, rfl⟩, rfl⟩

theorem peek {want : Kind → Bool} {o : Bool} (hanswer : (Query.peek want).answer c a = some (o, place))
    (hdecides : c.Decides touch false want) :
    (Query.peek want).answer c b = some (o, b) ∧ place = a := by
  obtain ⟨t, t', ht, ht', htells⟩ := h
  obtain ⟨u, hu, hwants, rfl⟩ := Query.peek_iff.mp hanswer
  obtain rfl := Option.some.inj (ht.symm.trans hu)
  exact ⟨Query.peek_iff.mpr ⟨t', ht', (htells.wants hdecides).trans hwants, rfl⟩, rfl⟩

theorem assignHead {pastBlank : Bool} (hmode : c.mode = .base)
    (hanswer : (Query.mark .assignHead pastBlank).answer c a = some (none, place)) :
    (Query.mark .assignHead pastBlank).answer c b = some (none, b) ∧ place = a := by
  obtain ⟨t, t', ht, ht', htells⟩ := h
  obtain ⟨hnone, rfl⟩ := Query.mark_none.mp hanswer
  rw [Context.token?_eq_some, hmode] at ht ht'
  rw [hmode] at hnone
  refine ⟨Query.mark_none.mpr ⟨?_, rfl⟩, rfl⟩
  rw [hmode]
  have hallow : (pastBlank || Mode.base.allowBlank) = true := Bool.or_true _
  rw [hallow] at hnone ⊢
  refine Option.not_isSome_iff_eq_none.mp fun hsome => ?_
  obtain ⟨hkind, hopens⟩ := (takeAt_head_iff ht').mp hsome
  have hyes : (command.takeAt Grammar.assignHead Shape.assignHead.kind true place).isSome = true :=
    (takeAt_head_iff ht).mpr ⟨htells.akin.kind.symm.trans hkind, htells.akin.opens.mp hopens⟩
  exact Option.isSome_iff_ne_none.mp hyes hnone

theorem bang (hmode : c.mode = .base) (hanswer : Query.bang.answer c a = some (false, place)) :
    Query.bang.answer c b = some (false, b) ∧ place = a := by
  obtain ⟨t, t', ht, ht', htells⟩ := h
  obtain ⟨u, hu, hcases⟩ := Query.bang_iff.mp hanswer
  obtain rfl := Option.some.inj (ht.symm.trans hu)
  have hsame : (c.wants false (among [.str]) t' = true ∧ t'.body = ['!']) ↔
      c.wants false (among [.str]) t = true ∧ t.body = ['!'] := by
    rw [htells.wants (.inl ⟨rfl, by rw [hmode]; rfl⟩), htells.akin.bang]
  obtain ⟨hno, -, rfl⟩ | ⟨hyes, v, hv, ⟨hwants, -, rfl⟩ | ⟨-, hfalse, -⟩⟩ := hcases
  · exact ⟨Query.bang_iff.mpr ⟨t', ht', .inl ⟨mt hsame.mp hno, rfl, rfl⟩⟩, rfl⟩
  · obtain ⟨w, w', hw, hw', hpiece⟩ := htells.bang (by rw [hmode]; nofun) (kind_of_wants hyes.1) hyes.2
    obtain rfl := Option.some.inj (hv.symm.trans hw)
    refine ⟨Query.bang_iff.mpr ⟨t', ht', .inr ⟨hsame.mpr hyes, w', hw', .inl ⟨?_, rfl, rfl⟩⟩⟩, rfl⟩
    exact hpiece.trans hwants
  · cases hfalse

theorem target (hallow : c.mode.allowBlank = true)
    (hanswer : Query.target.answer c a = some (none, place)) :
    Query.target.answer c b = some (none, b) ∧ place = a := by
  obtain ⟨t, t', ht, ht', htells⟩ := h
  obtain ⟨u, hu, hcases⟩ := Query.target_iff.mp hanswer
  obtain rfl := Option.some.inj (ht.symm.trans hu)
  have hsame : c.wants false (among [.ident]) t' = c.wants false (among [.ident]) t :=
    htells.wants (.inl ⟨rfl, hallow⟩)
  obtain ⟨hno, -, rfl⟩ | ⟨hyes, v, hv, ⟨hwants, -, rfl⟩ | ⟨-, hsome, -⟩⟩ := hcases
  · exact ⟨Query.target_iff.mpr ⟨t', ht', .inl ⟨hsame.trans hno, rfl, rfl⟩⟩, rfl⟩
  · obtain ⟨w, w', hw, hw', hkind⟩ := htells.target (kind_of_wants hyes)
    obtain rfl := Option.some.inj (hv.symm.trans hw)
    have hop : c.wants false (among assignmentOps) w' = c.wants false (among assignmentOps) v := by
      rw [Bool.eq_iff_iff, Context.wants_iff, Context.wants_iff, hkind]
      simp [hallow]
    refine ⟨Query.target_iff.mpr ⟨t', ht', .inr ⟨hsame.trans hyes, w', hw', .inl ⟨?_, rfl, rfl⟩⟩⟩, rfl⟩
    exact hop.trans hwants
  · cases hsome

end Ahead

end Context

/-! ### Readers -/

/-- What a reader made of one text, it makes of another that starts with `text`: behind it stands what
satisfies `post`, and then all of it satisfies `pre`. -/
def Reader.Rereads {α : Type} (c : Context) (m : Reader α) (pre : Text → Prop) (text : Text)
    (post : Text → Prop) (a : Scan) (r : α) (a' : Scan) : Prop :=
  ∀ more, post more → pre (text ++ more) ∧
    ∀ b, b.rest = text ++ more → a.Level b → ∃ b', Leads c m b r b' ∧ b'.rest = more ∧ a'.Level b'

section Rereads
variable {c : Context} {α β : Type} {m : Reader α} {pre pre' post post' : Text → Prop} {text : Text}
  {a a' a₁ : Scan} {r : α} {s : β}

theorem Reader.Rereads.mono (h : m.Rereads c pre text post a r a')
    (hpre : ∀ more, post' more → pre (text ++ more) → pre' (text ++ more))
    (hpost : ∀ more, post' more → post more) :
    m.Rereads c pre' text post' a r a' := by
  intro more hmore
  obtain ⟨hbefore, hreads⟩ := h more (hpost more hmore)
  exact ⟨hpre more hmore hbefore, hreads⟩

/-- What reads what another reader reads, in its context. -/
theorem Reader.Rereads.of_leads {c' : Context} {m' : Reader β} (h : m.Rereads c' pre text post a r a')
    (hleads : ∀ {b b'}, Leads c' m b r b' → Leads c m' b s b') : m'.Rereads c pre text post a s a' := by
  intro more hmore
  obtain ⟨hbefore, hreads⟩ := h more hmore
  refine ⟨hbefore, fun b hb hlevel => ?_⟩
  obtain ⟨b', hlead, hb', hlevel'⟩ := hreads b hb hlevel
  exact ⟨b', hleads hlead, hb', hlevel'⟩

/-- What asks nothing of the text behind it. -/
theorem Reader.Rereads.closed (h : m.Rereads c pre text (fun _ => True) a r a') :
    m.Rereads c pre text post a r a' :=
  fun more _ => h more trivial

/-- Where nothing is read, what is behind is what was in front. -/
theorem Reader.Rereads.nothing (h : m.Rereads c pre [] post a r a') : m.Rereads c post [] post a r a' :=
  fun more hmore => ⟨hmore, (h more hmore).2⟩

theorem rereads_pure : (pure r : Reader α).Rereads c post [] post a r a :=
  fun _ hmore => ⟨hmore, fun b hb hlevel => ⟨b, ⟨rfl, rfl⟩, hb, hlevel⟩⟩

/-- A reader that takes nothing. -/
theorem Reader.Rereads.of_stay
    (h : ∀ more, post more → pre more ∧ ∀ b, b.rest = more → a.Level b → Leads c m b r b) :
    m.Rereads c pre [] post a r a :=
  fun more hmore => ⟨(h more hmore).1, fun b hb hlevel => ⟨b, (h more hmore).2 b hb hlevel, hb, hlevel⟩⟩

/-- One reader behind another reads the texts of both. -/
theorem rereads_bind {f : α → Reader β} {mid mid' : Text → Prop} {first second : Text}
    (hm : m.Rereads c pre first mid a r a₁) (hf : (f r).Rereads c mid' second post a₁ s a')
    (hmid : ∀ more, post more → mid' (second ++ more) → mid (second ++ more)) :
    (m >>= f).Rereads c pre (first ++ second) post a s a' := by
  intro more hmore
  obtain ⟨hbehind, hsecond⟩ := hf more hmore
  obtain ⟨hbefore, hfirst⟩ := hm _ (hmid more hmore hbehind)
  rw [List.append_assoc]
  refine ⟨hbefore, fun b hb hlevel => ?_⟩
  obtain ⟨b₁, hlead, hb₁, hlevel₁⟩ := hfirst b hb hlevel
  obtain ⟨b', hlead', hb', hlevel'⟩ := hsecond b₁ hb₁ hlevel₁
  exact ⟨b', leads_bind.mpr ⟨r, b₁, hlead, hlead'⟩, hb', hlevel'⟩

/-- A reader in front that takes nothing. -/
theorem rereads_behind {f : α → Reader β} {mid : Text → Prop}
    (hm : m.Rereads c pre [] mid a r a₁) (hf : (f r).Rereads c mid text post a₁ s a') :
    (m >>= f).Rereads c pre text post a s a' :=
  rereads_bind hm hf fun _ _ => id

theorem Reader.Rereads.of_text {text' : Text} (h : m.Rereads c pre text post a r a') (htext : text' = text) :
    m.Rereads c pre text' post a r a' :=
  htext ▸ h

theorem rereads_query {q : Query α} (h : ∀ more, post more → pre (text ++ more) ∧
    ∀ b, b.rest = text ++ more → a.Level b → ∃ b', q.answer c b = some (r, b') ∧ b'.rest = more ∧ a'.Level b') :
    (Reader.ask q .done).Rereads c pre text post a r a' := by
  intro more hmore
  obtain ⟨hbefore, hreads⟩ := h more hmore
  refine ⟨hbefore, fun b hb hlevel => ?_⟩
  obtain ⟨b', hanswer, hb', hlevel'⟩ := hreads b hb hlevel
  exact ⟨b', leads_query.mpr hanswer, hb', hlevel'⟩

section Calls
variable {shift : Shift} {p : Production} {ns : List Node} {n : Node}

/-- What a production reads in the context of a call, the call reads. -/
theorem rereads_call (h : (Reader.all .here p).Rereads (c.shift shift) pre text post a ns a') :
    (Reader.all shift p).Rereads c pre text post a ns a' :=
  h.of_leads fun hlead => leads_all.mpr (leads_all.mp hlead)

theorem rereads_one (h : (Reader.all .here p).Rereads (c.shift shift) pre text post a [n] a') :
    (Reader.one shift p).Rereads c pre text post a n a' :=
  h.of_leads fun hlead => leads_one.mpr (leads_all.mp hlead)

theorem rereads_first? (h : (Reader.all .here p).Rereads (c.shift shift) pre text post a ns a') :
    (Reader.first? shift p).Rereads c pre text post a ns.head? a' :=
  h.of_leads fun hlead => leads_first?.mpr ⟨ns, leads_all.mp hlead, rfl⟩

/-- A production reads what its reader reads. -/
theorem rereads_body (h : p.body.Rereads c pre text post a ns a') :
    (Reader.all .here p).Rereads c pre text post a ns a' :=
  h.of_leads fun hlead => leads_all.mpr (parses_iff.mpr hlead)

end Calls

theorem rereads_expect {kinds : List Kind} {l : Lexeme}
    (h : (Reader.next kinds).Rereads c pre text post a (some l) a') :
    (Reader.expect kinds).Rereads c pre text post a l a' :=
  h.of_leads leads_expect.mpr

/-! ### Nothing taken -/

/-- A question that takes nothing and is answered alike wherever the same is ahead. -/
theorem rereads_ahead {q : Query α} {touch : Prop} (h : ∀ b, c.Ahead touch a b → q.answer c b = some (r, b)) :
    (Reader.ask q .done).Rereads c (c.Beyond touch a) [] (c.Beyond touch a) a r a :=
  rereads_query fun _ hmore => ⟨hmore, fun b hb hlevel => ⟨b, h b (hmore.ahead b hb hlevel), hb, hlevel⟩⟩

/-- Where the same is ahead, a token that is not wanted is not wanted. -/
theorem rereads_untaken {adjacent : Bool} {want : Bool → Kind → Bool} {touch : Prop}
    (hanswer : (Query.take adjacent want).answer c a = some (none, a'))
    (hdecides : c.Decides touch adjacent (want c.inBackquote)) :
    (Reader.ask (.take adjacent want) .done).Rereads c (c.Beyond touch a) [] (c.Beyond touch a) a none a' := by
  obtain ⟨-, -, -, rfl⟩ := Query.take_none.mp hanswer
  exact rereads_ahead fun _ hahead => (hahead.take hanswer hdecides).1

theorem rereads_peek {want : Kind → Bool} {touch o : _}
    (hanswer : (Query.peek want).answer c a = some (o, a')) (hdecides : c.Decides touch false want) :
    (Reader.ask (.peek want) .done).Rereads c (c.Beyond touch a) [] (c.Beyond touch a) a o a' := by
  obtain ⟨-, -, -, rfl⟩ := Query.peek_iff.mp hanswer
  exact rereads_ahead fun _ hahead => (hahead.peek hanswer hdecides).1

end Rereads

/-! ### Tokens again -/

namespace Context
variable {c : Context} {a b : Scan} {t : Token} {gap rest more : Text}

/-- Nothing or one space may stand in front of the token at a place. Behind a space, the token must
not start like a comment. -/
def Spaces (c : Context) (a : Scan) (gap : Text) : Prop :=
  gap = [] ∨ gap = [' '] ∧ c.mode.rules.set.blank ≠ none ∧ c.mode.allowBlank = true ∧
    (c.mode.rules = .command → ∀ t, c.token? a = some t → t.body.head? ≠ some '#')

/-- With this in front of it the token at a place touches what it touches. In arithmetic that does
not matter, as long as there is something in front. -/
def Fits (c : Context) (a : Scan) (gap : Text) : Prop :=
  if c.mode.rules = .arith then gap ≠ [] else ∀ t, c.token? a = some t → (gap = [] ↔ t.blank = [])

/-- A text starts with the token at a place, with this in front of it. -/
def Again (c : Context) (gap : Text) (a : Scan) (rest : Text) : Prop :=
  ∃ t, c.token? a = some t ∧ t.body ≠ [] ∧ t.body ≠ ['\\'] ∧ (∃ more, rest = gap ++ (t.body ++ more)) ∧
    ∀ b, b.rest = rest → a.Level b → c.token? b = some (t.moved b gap) ∧ c.Tells False t (t.moved b gap)

theorem spaces_nil : c.Spaces a [] := .inl rfl

theorem spaces_arith (hmode : c.mode = ⟨.arith, true⟩) : c.Spaces a [' '] := by
  refine .inr ⟨rfl, ?_⟩
  rw [hmode]
  exact ⟨nofun, rfl, nofun⟩

/-- Among commands a space may stand where a comment could start, or where there is blank. -/
theorem spaces_base (hmode : c.mode = .base)
    (hfree : commentMayStart 0 a = true ∨ ∀ t, c.token? a = some t → t.blank ≠ []) : c.Spaces a [' '] := by
  refine .inr ⟨rfl, by rw [hmode]; nofun, by rw [hmode]; rfl, fun _ t ht hsharp => ?_⟩
  have hlexed := Context.token?_eq_some.mp ht
  rw [hmode] at hlexed
  obtain ⟨hblank, hno⟩ := blank_of_sharp hlexed hsharp
  obtain hmay | hspace := hfree
  · rw [hno] at hmay
    cases hmay
  · exact hspace t ht hblank

/-- The token stands there again, if nothing behind it makes it longer. -/
theorem token_again (ht : c.token? a = some t) (hbody : t.body ≠ []) (hslash : t.body ≠ ['\\'])
    (hgap : c.Spaces a gap)
    (hfit : firstFit c.mode.rules.set.rules (t.body ++ more) = some (t.kind, t.body.length))
    (hb : b.rest = gap ++ (t.body ++ more)) (hlevel : a.Level b) :
    c.token? b = some (t.moved b gap) := by
  refine Context.token?_eq_some.mpr (tokenAt_kept (Context.token?_eq_some.mp ht) hbody hslash hfit hb ?_ hlevel ?_)
  · exact hgap.imp_right fun h => ⟨h.1, h.2.1⟩
  · intro hrules hne
    obtain hnil | ⟨-, -, -, hsharp⟩ := hgap
    · exact absurd hnil hne
    · exact hsharp hrules t ht

/-- Nothing gets longer in front of a text that starts like the token at a place. -/
theorem keeps_of_head (ht : c.token? a = some t) (hslash : t.body ≠ ['\\']) (hgap : c.Spaces a gap)
    (hfits : c.Fits a gap) (hrules : c.mode.rules ≠ .param) (hhead : more.head? = t.body.head?) :
    c.mode.rules.Keeps a.rest (gap ++ more) := by
  obtain rfl | ⟨rfl, hblank, -⟩ := hgap
  · rw [Fits] at hfits
    split at hfits
    · exact absurd rfl hfits
    · rename_i harith
      have hnone := (hfits t ht).mp rfl
      have hrest := tokenAt_front (Context.token?_eq_some.mp ht)
      cases hbody : t.body with
      | nil =>
        rw [hbody, List.head?_nil, List.head?_eq_none_iff] at hhead
        rw [hhead]
        exact keeps_nil
      | cons x body =>
        obtain ⟨more, rfl⟩ := List.head?_eq_some_iff.mp (hbody ▸ hhead)
        rw [hrest, hnone, hbody]
        refine keeps_same ?_ ?_
        · rw [isWordy, Bool.and_eq_true, bne_iff_ne, bne_iff_ne]
          exact ⟨hrules, harith⟩
        · rintro rfl hnil
          rw [List.append_eq, List.append_eq_nil_iff] at hnil
          exact hslash (hnil.1 ▸ hbody)
  · refine keeps_bound (by decide) ?_
    cases hc : c.mode.rules with
    | command | param | arith => rfl
    | doubleQuote | wordUntilBrace | wordUntilSlash =>
      rw [hc] at hblank
      exact absurd rfl hblank

namespace Again
variable (h : c.Again gap a rest)
include h

/-- Nothing that stands in front of it gets longer. -/
theorem keeps (hgap : c.Spaces a gap) (hfits : c.Fits a gap) (hrules : c.mode.rules ≠ .param) :
    c.mode.rules.Keeps a.rest rest := by
  obtain ⟨t, ht, hbody, hslash, ⟨more, rfl⟩, -⟩ := h
  refine keeps_of_head ht hslash hgap hfits hrules ?_
  obtain ⟨x, body, hcons⟩ := List.exists_cons_of_ne_nil hbody
  rw [hcons]
  rfl

/-- Questions tell the same of it. -/
theorem beyond (hgap : c.Spaces a gap) (hrules : c.mode.rules ≠ .param) :
    c.Beyond (c.Fits a gap) a rest := by
  refine ⟨fun b hb hlevel => ?_, fun hfits => h.keeps hgap hfits hrules⟩
  obtain ⟨t, ht, -, -, -, hthere⟩ := h
  obtain ⟨ht', htells⟩ := hthere b hb hlevel
  refine ⟨t, _, ht, ht', htells.akin, fun hfits harith _ => ?_, htells.bang, htells.target⟩
  rw [Fits, if_neg harith] at hfits
  exact hfits t ht

/-- If it starts no piece, questions tell the same of it whether it touches or not. -/
theorem beyond_of_kind (hkind : ∀ t, c.token? a = some t → t.kind ∉ pieceStart c.inBackquote)
    (hkeeps : c.mode.rules.Keeps a.rest rest) : c.Beyond True a rest := by
  refine ⟨fun b hb hlevel => ?_, fun _ => hkeeps⟩
  obtain ⟨t, ht, -, -, -, hthere⟩ := h
  obtain ⟨ht', htells⟩ := hthere b hb hlevel
  exact ⟨t, _, ht, ht', htells.akin, fun _ _ hmem => absurd hmem (hkind t ht), htells.bang, htells.target⟩

end Again

end Context

/-! ### Tokens of one spelling -/

section Spelling
variable {c : Context} {a b : Scan} {t t' : Token} {spelling more : Text}

/-- Tokens of a kind with one spelling are akin. -/
theorem akin_of_spelling (ht : c.token? a = some t) (ht' : c.token? b = some t') (hkind : t'.kind = t.kind)
    (hspelling : t.kind.spelling? = some spelling) : t.Akin t' := by
  have hbody := body_of_spelling (Context.token?_eq_some.mp ht) hspelling
  have hbody' := body_of_spelling (Context.token?_eq_some.mp ht') (hkind.symm ▸ hspelling)
  have hsame : t'.body = t.body := hbody'.trans hbody.symm
  refine ⟨hkind, by rw [hsame], by rw [hsame], ?_⟩
  rw [Token.OpensAssignment, Token.OpensAssignment, hsame]

/-- In front of such a token the same is ahead, if it starts no piece. -/
theorem ahead_of_spelling (ht : c.token? a = some t) (ht' : c.token? b = some t') (hkind : t'.kind = t.kind)
    (hspelling : t.kind.spelling? = some spelling)
    (hpiece : c.mode.rules ≠ .arith → t.kind ∉ pieceStart c.inBackquote) : c.Ahead True a b := by
  refine ⟨t, t', ht, ht', akin_of_spelling ht ht' hkind hspelling, fun _ harith hmem => absurd hmem (hpiece harith),
    fun _ hstr => ?_, fun hident => ?_⟩
  · rw [hstr] at hspelling
    cases hspelling
  · rw [hident] at hspelling
    cases hspelling

end Spelling

section Taking
variable {c : Context} {a a' : Scan} {gap : Text} {l : Lexeme} {post : Text → Prop}

/-- What is taken is taken again, if nothing behind it makes it longer. If it is bare text or a name,
the same has to be ahead behind it. -/
theorem rereads_take {adjacent : Bool} {want : Bool → Kind → Bool}
    (hanswer : (Query.take adjacent want).answer c a = some (some l, a')) (hgap : c.Spaces a gap)
    (hadjacent : gap ≠ [] → adjacent = false) (heos : l.kind ≠ .eos) (hglyph : l.kind ≠ .glyph)
    (hpost : ∀ more, post more →
      firstFit c.mode.rules.set.rules (l.body ++ more) = some (l.kind, l.body.length) ∧
        (l.kind = .str ∨ l.kind = .ident → ∀ b, b.rest = more → a'.Level b → c.Ahead True a' b)) :
    (Reader.ask (.take adjacent want) .done).Rereads c (c.Again gap a) (gap ++ l.body) post a (some l) a' := by
  obtain ⟨t, ht, hwants, rfl, rfl⟩ := Query.take_some.mp hanswer
  have hlexed := Context.token?_eq_some.mp ht
  obtain ⟨horigin, hfits⟩ := tokenAt_fits hlexed
  have hbody : t.body ≠ [] := body_ne_of_tokenAt hlexed heos
  have hslash : t.body ≠ ['\\'] := fun hslash => hglyph (kind_of_backslash hlexed hslash)
  refine rereads_query fun more hmore => ?_
  obtain ⟨hfit, hahead⟩ := hpost more hmore
  have hthere : ∀ b, b.rest = gap ++ (t.body ++ more) → a.Level b → c.token? b = some (t.moved b gap) :=
    fun b hb hlevel => c.token_again ht hbody hslash hgap hfit hb hlevel
  rw [List.append_assoc]
  refine ⟨⟨t, ht, hbody, hslash, ⟨more, rfl⟩,
      fun b hb hlevel => ⟨hthere b hb hlevel, .moved t b gap, nofun, ?_, ?_⟩⟩,
    fun b hb hlevel => ⟨_, ?_, Token.rest_moved hb, Token.level_moved hfits hbody hb⟩⟩
  · intro harith hkind _
    obtain ⟨u, u', hu, hu', htells⟩ :=
      hahead (.inl hkind) _ (Token.rest_moved hb) (Token.level_moved hfits hbody hb)
    exact ⟨u, u', hu, hu', htells.wants (.inr ⟨trivial, harith, fun _ => among_pieceStart.mp⟩)⟩
  · intro hkind
    obtain ⟨u, u', hu, hu', htells⟩ :=
      hahead (.inr hkind) _ (Token.rest_moved hb) (Token.level_moved hfits hbody hb)
    exact ⟨u, u', hu, hu', htells.akin.kind⟩
  · refine Query.take_some.mpr ⟨_, hthere b hb hlevel, ?_, rfl, rfl⟩
    obtain ⟨hwant, hvisible⟩ := Context.wants_iff.mp hwants
    refine Context.wants_iff.mpr ⟨hwant, ?_⟩
    obtain rfl | ⟨rfl, -, hallow, -⟩ := hgap
    · exact .inr rfl
    · exact .inl ⟨hadjacent (List.cons_ne_nil _ _), hallow⟩

/-- What opens something is taken again, if the text behind it makes it no other opener. -/
theorem rereads_take_opener {adjacent : Bool} {want : Bool → Kind → Bool}
    (hanswer : (Query.take adjacent want).answer c a = some (some l, a')) (hgap : c.Spaces a gap)
    (hadjacent : gap ≠ [] → adjacent = false) (hkind : l.kind ∉ [Kind.str, .ident, .eos, .glyph])
    (hfit : ∀ more, post more →
      firstFit c.mode.rules.set.rules (l.body ++ more) = some (l.kind, l.body.length)) :
    (Reader.ask (.take adjacent want) .done).Rereads c (c.Again gap a) (gap ++ l.body) post a (some l) a' := by
  simp only [List.mem_cons, List.not_mem_nil, or_false, not_or] at hkind
  refine rereads_take hanswer hgap hadjacent hkind.2.2.1 hkind.2.2.2
    fun more hmore => ⟨hfit more hmore, fun hno => ?_⟩
  exact absurd hno (not_or.mpr ⟨hkind.1, hkind.2.1⟩)

/-- In front of what ends every token, an operator is taken again. -/
theorem rereads_take_bound {adjacent : Bool} {want : Bool → Kind → Bool}
    (hanswer : (Query.take adjacent want).answer c a = some (some l, a')) (hgap : c.Spaces a gap)
    (hadjacent : gap ≠ [] → adjacent = false) (hkind : l.kind ∉ [Kind.str, .ident, .eos, .glyph]) :
    (Reader.ask (.take adjacent want) .done).Rereads c (c.Again gap a) (gap ++ l.body)
      (fun more => ∃ x rest, more = x :: rest ∧ x ∈ bounds ∧ c.mode.rules.text x = false) a (some l) a' := by
  obtain ⟨t, ht, -, rfl, rfl⟩ := Query.take_some.mp hanswer
  refine rereads_take_opener hanswer hgap hadjacent hkind ?_
  rintro _ ⟨x, rest, rfl, hx, htext⟩
  have hlexed := Context.token?_eq_some.mp ht
  simp only [List.mem_cons, List.not_mem_nil, or_false, not_or] at hkind
  exact firstFit_bound hx htext (fit_of_tokenAt hlexed (body_ne_of_tokenAt hlexed hkind.2.2.1))

/-- In front of what it touched, or of what it is kept apart from, a token is taken again. -/
theorem rereads_take_kept {adjacent : Bool} {want : Bool → Kind → Bool}
    (hanswer : (Query.take adjacent want).answer c a = some (some l, a')) (hgap : c.Spaces a gap)
    (hadjacent : gap ≠ [] → adjacent = false) (hkind : l.kind ∉ [Kind.amp, .pipe, .eos, .glyph]) :
    (Reader.ask (.take adjacent want) .done).Rereads c (c.Again gap a) (gap ++ l.body) (c.Beyond True a') a
      (some l) a' := by
  obtain ⟨t, ht, -, rfl, rfl⟩ := Query.take_some.mp hanswer
  simp only [List.mem_cons, List.not_mem_nil, or_false, not_or] at hkind
  refine rereads_take hanswer hgap hadjacent hkind.2.2.1 hkind.2.2.2 fun more hmore => ?_
  have hlexed := Context.token?_eq_some.mp ht
  refine ⟨hmore.keeps trivial _ _ hkind.1 hkind.2.1 ?_, fun _ => hmore.ahead⟩
  exact fit_of_tokenAt hlexed (body_ne_of_tokenAt hlexed hkind.2.2.1)

end Taking

/-! ### Marks and closers again -/

section Marks
variable {c : Context} {a a' : Scan} {gap rest : Text} {x : Char}

/-- A fixed text stands behind nothing, or behind one space where blank is allowed. -/
def Context.Admits (c : Context) (pastBlank : Bool) (gap : Text) : Prop :=
  gap = [] ∨ gap = [' '] ∧ c.mode.rules.set.blank ≠ none ∧ (pastBlank || c.mode.allowBlank) = true

/-- A mark that is a fixed text is taken again. -/
theorem rereads_mark {shape : Shape} {pastBlank : Bool} {body : Text} (hshape : shape.pattern = .lit (x :: rest))
    (hx : x ∉ [' ', '\t', '\n', '\\'])
    (hanswer : (Query.mark shape pastBlank).answer c a = some (some body, a')) (hgap : c.Admits pastBlank gap) :
    (Reader.ask (.mark shape pastBlank) .done).Rereads c (fun _ => True) (gap ++ x :: rest) (fun _ => True) a
      (some body) a' := by
  obtain ⟨t, ht, rfl, rfl⟩ := Query.mark_some.mp hanswer
  rw [hshape] at ht
  obtain ⟨-, hfits⟩ := takeAt_fits ht
  have hbody : t.body = x :: rest := (takeAt_matches ht).2.of_lit
  refine rereads_query fun more _ => ⟨trivial, fun b hb hlevel => ?_⟩
  rw [List.append_assoc] at hb
  refine ⟨_, Query.mark_some.mpr ⟨t.moved b gap, ?_, rfl, rfl⟩, Token.rest_moved (hbody ▸ hb),
    Token.level_moved hfits (by rw [hbody]; nofun) (hbody ▸ hb)⟩
  rw [hshape, takeAt_text hx hb hgap, Token.moved, (takeAt_matches ht).1, hbody]

/-- A closer is taken again. -/
theorem rereads_close {closing : Closing} {pastBlank : Bool}
    (hanswer : (Query.close closing pastBlank).answer c a = some ((), a')) (hgap : c.Admits pastBlank gap) :
    (Reader.close closing pastBlank).Rereads c (fun _ => True) (gap ++ closing.text) (fun _ => True) a () a' := by
  obtain ⟨t, ht, rfl⟩ := Query.close_iff.mp hanswer
  obtain ⟨-, hfits⟩ := takeAt_fits ht
  have hbody : t.body = closing.text := (takeAt_matches ht).2.of_lit
  obtain ⟨x, rest, htext, hx⟩ : ∃ x rest, closing.text = x :: rest ∧ x ∉ [' ', '\t', '\n', '\\'] := by
    cases closing <;> exact ⟨_, _, rfl, by decide⟩
  refine rereads_query fun more _ => ⟨trivial, fun b hb hlevel => ?_⟩
  rw [List.append_assoc] at hb
  refine ⟨_, Query.close_iff.mpr ⟨t.moved b gap, ?_, rfl⟩, Token.rest_moved (hbody ▸ hb),
    Token.level_moved hfits (by rw [hbody, htext]; nofun) (hbody ▸ hb)⟩
  rw [htext] at hb ⊢
  rw [takeAt_text hx hb hgap, Token.moved, (takeAt_matches ht).1, hbody, htext]

end Marks

/-! ### Productions -/

namespace Production

/-- The text of what a production yields. -/
@[simp] def printed : Production → List Node → Text
  | many (piece _), ns => Node.printedAll ns
  | many _, ns => (Node.printedApart ns).tail
  | _, ns => Node.printedAll ns

/-- The modes in which productions are called. -/
def Fitting (c : Context) : Production → Prop
  | newlines | list _ | entries _ | entry | pipeline | command | assign | many assign | many word =>
    c.mode = .base
  | chain ch | chainRest ch _ => c.mode = if ch.isCommand then .base else ⟨.arith, true⟩
  | word | piece _ | many (piece true) => c.mode.rules.isWordy = true
  | many _ => False
  | quoted => c.mode = ⟨.doubleQuote, true⟩
  | braced => c.mode = ⟨.param, false⟩
  | arithClosed | assignment | ternary | power | unary | post | primary => c.mode = ⟨.arith, true⟩

/-- What has to touch what stands in front of it. -/
def isJoined : Production → Bool
  | piece adjacent => adjacent
  | many (piece _) => true
  | _ => false

/-- A production reads again what it read, with nothing or a space in front and the same ahead behind.
What has to touch touches, and nothing is put in front of nothing. -/
def Resumes (p : Production) (c : Context) (a : Scan) (ns : List Node) (a' : Scan) : Prop :=
  ∀ gap, c.Spaces a gap → (p.isJoined = true → gap = []) → (ns = [] → gap = []) →
    (Reader.all .here p).Rereads c (c.Beyond (c.Fits a gap) a) (gap ++ p.printed ns) (c.Beyond True a') a ns a'

/-- What a production reads again, where it is printed. A production that closes what was opened asks
nothing of the text behind it. A list may end with a space that its closer skips, and what opens a
list asks that no parenthesis follows. -/
def Reprints (c : Context) (a : Scan) (ns : List Node) (a' : Scan) : Production → Prop
  | newlines => True
  | list closer => closer ≠ .endOfSource → (closer = .backquote → c.inBackquote = true) →
    commentMayStart 0 a = true →
    (Reader.all .here (.list closer)).Rereads c (fun rest => rest.head? ≠ some '(')
      (Node.printedAll ns ++ closer.text) (fun _ => True) a ns a'
  | entries closer => (closer = .backquote → c.inBackquote = true) → commentMayStart 0 a = true →
    (∃ t, c.token? a' = some t ∧ t.kind = closer.kind) → ∀ gap, gap = [] ∨ gap = [' '] →
      ∃ core trail, gap ++ Node.printedAll ns = core ++ trail ∧ (trail = [] ∨ trail = [' ']) ∧
        (Reader.all .here (.entries closer)).Rereads c (fun rest => rest.head? ≠ some '(') core
          (fun more => ∃ more', more = trail ++ (closer.text ++ more') ∧ (closer = .endOfSource → more' = []))
          a ns a'
  | entry => ∀ gap, c.Spaces a gap → ∃ e core trail, ns = [e] ∧ e.printed = core ++ trail ∧
    (trail = [] ∨ trail = [' ']) ∧ (isTerminated e = true → commentMayStart 0 a' = true) ∧
      (isTerminated e = false → trail = []) ∧
        (Reader.all .here .entry).Rereads c (c.Beyond (c.Fits a gap) a) (gap ++ core)
          (fun more => if isTerminated e then trail <+: more else c.Beyond True a' more) a [e] a'
  | chainRest ch left => ∃ n text, ns = [n] ∧ n.printed = left.printed ++ text ∧
    (Reader.all .here (.chainRest ch left)).Rereads c (c.Beyond True a) text (c.Beyond True a') a [n] a'
  | quoted => (Reader.all .here .quoted).Rereads c (c.Beyond True a) (Node.printedAll ns ++ ['"'])
    (fun _ => True) a ns a'
  | braced => ∃ text, Node.printedAll ns = ['$', '{'] ++ text ∧
    (Reader.all .here .braced).Rereads c (fun _ => True) text (fun _ => True) a ns a'
  | arithClosed => ∃ text, Node.printedAll ns = ['$', '(', '('] ++ text ∧
    (Reader.all .here .arithClosed).Rereads c (fun _ => True) text (fun _ => True) a ns a'
  | p => p.Resumes c a ns a'

end Production

/-- What a production yields, and that it is read again in the modes in which it is called. -/
def Reprinted : Yielding := fun c p a ns a' => Parses c p a ns a' ∧ (p.Fitting c → p.Reprints c a ns a')

/-! ### Openers -/

namespace Rules
variable {rules : Rules}

theorem fit_dollarBrace (hrules : rules ≠ .param) (more : Text) :
    firstFit rules.set.rules (['$', '{'] ++ more) = some (.dollarBrace, 2) := by
  cases rules with
  | param => exact absurd rfl hrules
  | _ => rfl

theorem fit_dollarParen2 (hrules : rules ≠ .param) (more : Text) :
    firstFit rules.set.rules (['$', '(', '('] ++ more) = some (.dollarParen2, 3) := by
  cases rules with
  | param => exact absurd rfl hrules
  | _ => rfl

theorem fit_dollarParen (hrules : rules ≠ .param) {more : Text} (hmore : more.head? ≠ some '(') :
    firstFit rules.set.rules (['$', '('] ++ more) = some (.dollarParen, 2) := by
  cases more with
  | nil =>
    cases rules with
    | param => exact absurd rfl hrules
    | _ => rfl
  | cons x more =>
    have hx : '(' ≠ x := fun heq => hmore (heq ▸ rfl)
    cases rules with
    | param => exact absurd rfl hrules
    | _ =>
      simp [set, commandRules, arithRules, doubleQuoteRules, wordUntilBraceRules, wordUntilSlashRules,
        expansions, firstFit, numberLiteral, Pattern.variableName, Pattern.digit, Pattern.oneOf, Pattern.some1,
        Pattern.reach?, Pattern.reach, Option.filter, Text.isNameStart, hx]

end Rules

/-! ### Inside of openers -/

section Nested
variable {c : Context} {a a' : Scan} {ns : List Node}

theorem rereads_braced (h : (Reader.all (.under .param false) .braced).LeadsBy Reprinted c a ns a') :
    ∃ text, Node.printedAll ns = ['$', '{'] ++ text ∧
      (Reader.all (.under .param false) .braced).Rereads c (fun _ => True) text (fun _ => True) a ns a' := by
  obtain ⟨text, hprinted, hreads⟩ := (leads_all.mp h).2 rfl
  exact ⟨text, hprinted, rereads_call hreads⟩

theorem rereads_arithClosed (h : (Reader.all (.under .arith true) .arithClosed).LeadsBy Reprinted c a ns a') :
    ∃ text, Node.printedAll ns = ['$', '(', '('] ++ text ∧
      (Reader.all (.under .arith true) .arithClosed).Rereads c (fun _ => True) text (fun _ => True) a ns a' := by
  obtain ⟨text, hprinted, hreads⟩ := (leads_all.mp h).2 rfl
  exact ⟨text, hprinted, rereads_call hreads⟩

theorem rereads_list {closer : Closer} {n : Node}
    (h : (Reader.one (.inside closer) (.list closer)).LeadsBy Reprinted c a n a')
    (hcloser : closer ≠ .endOfSource) (hmay : commentMayStart 0 a = true) :
    (Reader.one (.inside closer) (.list closer)).Rereads c (fun rest => rest.head? ≠ some '(')
      (n.printed ++ closer.text) (fun _ => True) a n a' := by
  have hreads := (leads_one.mp h).2 rfl hcloser (fun hback => by rw [hback]; rfl) hmay
  rw [Node.printedAll, Node.printedAll, List.append_nil] at hreads
  exact rereads_one hreads

/-- The kinds of what opens an expansion, in a word as in arithmetic. -/
def expansionOpeners : List Kind := [.dollarBrace, .dollarParen2, .dollarParen]

theorem plain_of_opener : ∀ {kind : Kind}, kind ∈ expansionOpeners → kind ∉ [Kind.str, .ident, .eos, .glyph] := by
  decide

/-- An expansion starts with its opener. What is behind that is read again, and makes it no other
opener. -/
theorem rereads_expansion {t : Token} {post : Text → Prop} (hparam : c.mode.rules ≠ .param)
    (ht : c.mode.rules.tokenAt a = .ok t) (hkind : t.kind ∈ expansionOpeners)
    (h : (Reader.pieceRest t.lexeme).LeadsBy Reprinted c t.after ns a') :
    ∃ text mid, Node.printedAll ns = t.body ++ text ∧
      (∀ more, mid more → firstFit c.mode.rules.set.rules (t.body ++ more) = some (t.kind, t.body.length)) ∧
        (Reader.pieceRest t.lexeme).Rereads c mid text post t.after ns a' := by
  have hspelled : ∀ {spelling}, t.kind.spelling? = some spelling → t.body = spelling := body_of_spelling ht
  have hmay : t.kind ∈ dividers → commentMayStart 0 t.after = true := boundary_of_divider ht
  simp only [expansionOpeners, List.mem_cons, List.not_mem_nil, or_false] at hkind
  rw [Token.lexeme] at h ⊢
  rcases hkind with hk | hk | hk <;> rw [hk] at h hspelled hmay ⊢ <;> have hbody := hspelled rfl
  · obtain ⟨text, htext, hreads⟩ := rereads_braced h
    refine ⟨text, fun _ => True, hbody ▸ htext, fun more _ => ?_, hreads.closed⟩
    rw [hbody]
    exact fit_dollarBrace hparam more
  · obtain ⟨text, htext, hreads⟩ := rereads_arithClosed h
    refine ⟨text, fun _ => True, hbody ▸ htext, fun more _ => ?_, hreads.closed⟩
    rw [hbody]
    exact fit_dollarParen2 hparam more
  · obtain ⟨body, a₂, hone, hpure⟩ := leads_bind.mp h
    obtain ⟨rfl, rfl⟩ := leads_pure.mp hpure
    refine ⟨_, fun rest => rest.head? ≠ some '(', ?_, fun more hmore => ?_,
      rereads_bind (rereads_list hone (by decide) (hmay (by decide))) rereads_pure fun _ _ _ => trivial⟩
    · simp [Node.printed, hbody, Closer.text]
    · rw [hbody]
      exact fit_dollarParen hparam hmore

end Nested

end ShellGrammar
