import ShellGrammar.Proofs.Print.Word
import ShellGrammar.Proofs.Rules.Refused

/-! Expansions, read again.

Between `${` and its brace no blank is allowed but around operands in arithmetic. What is asked there
of the text depends on two characters at most (`reach_two`), so what was read is read again in front
of any text that starts with the same character (`Scan.Alike`). The forms behind a name are told apart
by the character that introduces them, but for `:` and `[`: behind these there is a space where an
operand follows, and no other form goes on with that. -/
namespace ShellGrammar
open Grammar ParseM Rules

variable {c : Context} {a a' a₁ b : Scan} {n : Node} {ns : List Node} {x : Char} {body more rest : Text}

/-! ### Shapes in expansions -/

section Shapes
variable {shape : Shape}

/-- No more than two characters tell how far a shape reaches. -/
theorem reach_two (hshape : shape ≠ .assignHead) (x y : Char) (t : Text) :
    shape.pattern.reach? (x :: y :: t) = shape.pattern.reach? [x, y] := by
  cases shape with
  | assignHead => exact absurd rfl hshape
  | sharp | bang | colon | slash | atSign | star | anchor | transform =>
    simp [Shape.pattern, Pattern.reach?, Pattern.reach, replacementMode, transformOp, Pattern.oneOf]
  | default =>
    by_cases hx : ':' = x
    · subst hx
      rfl
    · simp [Shape.pattern, Pattern.reach?, Pattern.reach, defaultOp, Pattern.oneOf, hx]
  | removal =>
    by_cases hx : '#' = x
    · subst hx
      rfl
    by_cases hx' : '%' = x
    · subst hx'
      rfl
    · simp [Shape.pattern, Pattern.reach?, Pattern.reach, removalOp, hx, hx']
  | caseChange =>
    by_cases hx : '^' = x
    · subst hx
      rfl
    by_cases hx' : ',' = x
    · subst hx'
      rfl
    · simp [Shape.pattern, Pattern.reach?, Pattern.reach, caseOp, hx, hx']

/-- What a shape takes, it takes in front of any text that starts with the same character. -/
theorem reach_alike {old : Text} (hshape : shape ≠ .assignHead) (hbody : body ≠ [])
    (hhead : more.head? = old.head?)
    (h : shape.pattern.reach? (body ++ old) = some body.length) :
    shape.pattern.reach? (body ++ more) = some body.length := by
  obtain ⟨x, body, rfl⟩ := List.exists_cons_of_ne_nil hbody
  cases body with
  | cons y body =>
    simp only [List.cons_append] at h ⊢
    rw [reach_two hshape] at h ⊢
    exact h
  | nil =>
    cases old with
    | nil =>
      rw [List.head?_eq_none_iff.mp hhead]
      exact h
    | cons y old =>
      obtain ⟨more, rfl⟩ := List.head?_eq_some_iff.mp hhead
      simp only [List.cons_append, List.nil_append] at h ⊢
      rw [reach_two hshape] at h ⊢
      exact h

/-- A text of one character is one of one. -/
theorem reach_lit_one (x : Char) (t : Text) : (Pattern.lit [x]).reach? t = (Pattern.oneOf [x]).reach? t := by
  cases t with
  | nil => rfl
  | cons y t =>
    by_cases hxy : x = y
    · subst hxy
      simp [Pattern.reach?, Pattern.reach, Pattern.oneOf]
    · simp [Pattern.reach?, Pattern.reach, Pattern.oneOf, hxy, Ne.symm hxy]

/-- No shape starts with what could be blank. -/
theorem unblank_of_mayStart (hmay : shape.pattern.mayStart x = true) : x ∉ [' ', '\t', '\n', '\\'] := by
  intro hx
  simp only [List.mem_cons, List.not_mem_nil, or_false] at hx
  rcases hx with rfl | rfl | rfl | rfl <;> cases shape <;> exact absurd hmay (by decide)

/-- Where a shape may not start, it takes nothing. -/
theorem reach_of_mayStart (hmay : shape.pattern.mayStart x = false) (t : Text) :
    shape.pattern.reach? (x :: t) = none := by
  cases hreach : shape.pattern.reach? (x :: t) with
  | none => rfl
  | some n =>
    obtain ⟨hreach, hpos⟩ := Pattern.reach?_eq_some_iff.mp hreach
    obtain ⟨m, rfl⟩ := Nat.exists_eq_succ_of_ne_zero (Nat.ne_of_gt hpos)
    rw [Pattern.mayStart_of_reach hreach] at hmay
    cases hmay

/-- None of the shapes that may not start so is there. -/
theorem unmarked {shapes : List Shape} (h : ∀ shape ∈ shapes, shape.pattern.mayStart x = false) (t : Text) :
    ∀ shape ∈ shapes, shape.pattern.reach? (x :: t) = none :=
  fun shape hshape => reach_of_mayStart (h shape hshape) t

/-- What operators start with. -/
theorem mem_of_default (hmay : Shape.default.pattern.mayStart x = true) : x ∈ [':', '-', '=', '?', '+'] := by
  simp [Shape.pattern, defaultOp, Pattern.oneOf, Pattern.mayStart, Pattern.nullable] at hmay
  rcases hmay with rfl | rfl | rfl | rfl | rfl <;> decide

theorem mem_of_removal (hmay : Shape.removal.pattern.mayStart x = true) : x ∈ ['#', '%'] := by
  simp [Shape.pattern, removalOp, Pattern.mayStart, Pattern.nullable] at hmay
  rcases hmay with rfl | rfl <;> decide

theorem mem_of_caseChange (hmay : Shape.caseChange.pattern.mayStart x = true) : x ∈ ['^', ','] := by
  simp [Shape.pattern, caseOp, Pattern.mayStart, Pattern.nullable] at hmay
  rcases hmay with rfl | rfl <;> decide

end Shapes

/-! ### Places -/

/-- A text starts with the same character as what is behind a place. -/
def Scan.Alike (a : Scan) (rest : Text) : Prop := rest.head? = a.rest.head?

/-- A character stands at a place, behind what is blank in an expansion. With `tight`, there is none. -/
def Scan.Meets (a : Scan) (tight : Bool) (x : Char) : Prop :=
  ∃ blank rest, a.rest = blank ++ x :: rest ∧ param.blankLength a.rest = blank.length ∧
    (tight = true → blank = [])

theorem Scan.Meets.alike (h : a.Meets true x) : a.Alike (x :: rest) := by
  obtain ⟨blank, rest, hrest, -, htight⟩ := h
  rw [htight rfl] at hrest
  rw [Scan.Alike, hrest]
  rfl

/-- In front of such a character the same is ahead of an operand. -/
theorem Scan.Meets.arith {tight : Bool} {kind : Kind} {gap : Text} (h : a.Meets tight x)
    (hstop : (x, kind) ∈ arithStops) (hgap : gap = [' '] ∨ gap = [] ∧ x ∈ bounds) : (c.under .arith true).Beyond True a (gap ++ x :: rest) := by
  obtain ⟨blank, old, hrest, hblank, -⟩ := h
  have hskip : Rules.arith.blankLength a.rest = blank.length := by
    have hall := blankLength_take param a.rest
    rw [hblank, hrest, List.take_left] at hall
    rw [hrest]
    exact blankLength_append (blankLength_arith_of_param hall)
      (blankLength_cons_of_not_mem (kind_of_stop hstop).2 old)
  obtain ⟨t, ht, hkind⟩ := tokenAt_stop hstop hrest hskip
  exact arith_stop (c := c.under .arith true) rfl hstop (Context.token?_eq_some.mpr ht) hkind hgap

/-- In front of what ends a payload the same is ahead of it. -/
theorem Scan.Meets.payload {rules : Rules} {kind : Kind} (h : a.Meets true x) (hwordy : rules.isWordy = true)
    (hblank : rules.set.blank = none) (hfit : ∀ rest, firstFit rules.set.rules (x :: rest) = some (kind, 1))
    (hspelling : kind.spelling? = some [x]) (hpiece : ∀ inBackquote, kind ∉ pieceStart inBackquote)
    (hx : x ≠ '\\') : (c.under rules true).Beyond True a (x :: rest) := by
  obtain ⟨blank, old, hrest, -, htight⟩ := h
  rw [htight rfl, List.nil_append] at hrest
  have hthere : ∀ {b : Scan} {rest : Text}, b.rest = x :: rest →
      ∃ t, (c.under rules true).token? b = some t ∧ t.kind = kind := by
    intro b rest hb
    have hfit := hfit rest
    rw [← hb, ← List.drop_zero (l := b.rest), ← skipLength_of_unblank hblank b] at hfit
    exact ⟨_, Context.token?_eq_some.mpr (tokenAt_of_fit hfit), rfl⟩
  obtain ⟨t, ht, hkind⟩ := hthere hrest
  refine ⟨fun b hb _ => ?_, fun _ => ?_⟩
  · obtain ⟨t', ht', hkind'⟩ := hthere hb
    exact ahead_of_spelling ht ht' (hkind'.trans hkind.symm) (hkind ▸ hspelling) fun _ => hkind ▸ hpiece _
  · rw [hrest]
    exact keeps_same hwordy fun hslash => absurd hslash hx

/-- What tells the same of a word where blank is text starts with the same character. -/
theorem Context.Beyond.alike {touch : Prop} (hblank : c.mode.rules.set.blank = none) (h : c.Beyond touch a more) :
    a.Alike more := by
  have hhead : ∀ {b : Scan} {t : Token}, c.token? b = some t → t.body.head? = b.rest.head? := by
    intro b t ht
    have hskip := skipLength_of_unblank hblank b
    obtain ⟨hnil, rfl⟩ | ⟨kind, length, hfit, rfl⟩ := tokenAt_cases (Context.token?_eq_some.mp ht)
    · rw [hskip, List.drop_zero] at hnil
      rw [hnil]
      rfl
    · have hpos := firstFit_pos hfit
      rw [cut, hskip, List.drop_zero, List.head?_take, if_neg (by omega)]
  obtain ⟨t, t', ht, ht', htells⟩ := h.ahead { a with rest := more } rfl rfl
  rw [Scan.Alike, ← hhead ht, ← htells.akin.head]
  exact (hhead ht').symm

/-! ### Questions in expansions -/

section Questions
variable {shape : Shape} {kind : Kind}

/-- What is taken in an expansion touches what stands in front of it. -/
theorem param_front {t : Token} (ht : c.token? a = some t) (hblank : t.blank = []) :
    a.rest = t.body ++ t.after.rest := by
  have hfront := tokenAt_front (Context.token?_eq_some.mp ht)
  rwa [hblank] at hfront

/-- A shape that is not there is not taken. -/
theorem leads_missed {pastBlank : Bool} (hx : x ∉ [' ', '\t', '\n', '\\']) (hb : b.rest = x :: rest)
    (hnone : shape.pattern.reach? (x :: rest) = none) :
    Leads c (.ask (.mark shape pastBlank) .done : Reader (Option Text)) b none b := by
  refine leads_query.mpr (Query.mark_none.mpr ⟨?_, rfl⟩)
  rw [takeAt, hb, blankLength_cons_of_not_mem hx, List.drop_zero, hnone]
  split <;> rfl

/-- In front of the brace, no shape is taken that it may not start. -/
theorem rereads_ended {pastBlank : Bool} (hmay : shape.pattern.mayStart '}' = false) :
    (Reader.ask (.mark shape pastBlank) .done : Reader (Option Text)).Rereads c
      (fun more => ∃ rest, more = '}' :: rest) [] (fun more => ∃ rest, more = '}' :: rest) a none a := by
  refine .of_stay fun more hmore => ⟨hmore, fun b hb _ => ?_⟩
  obtain ⟨rest, rfl⟩ := hmore
  exact leads_missed (by decide) hb (reach_of_mayStart hmay rest)

/-- A mark that is a fixed text takes it. -/
theorem body_of_mark (hpattern : shape.pattern = .lit rest)
    (hanswer : (Query.mark shape false).answer c a = some (some body, a₁)) : body = rest := by
  obtain ⟨t, ht, rfl, -⟩ := Query.mark_some.mp hanswer
  exact (takeAt_matches (hpattern ▸ ht)).2.of_lit

variable (hmode : c.mode = ⟨.param, false⟩)
include hmode

theorem blank_of_param {kinds : List Kind} {t : Token} (hwants : c.wants false (among kinds) t = true) :
    t.blank = [] := by
  obtain ⟨-, ⟨-, hallow⟩ | hblank⟩ := Context.wants_iff.mp hwants
  · rw [hmode] at hallow
    cases hallow
  · exact hblank

/-- A shape that is there is taken again. -/
theorem rereads_found (hshape : shape ≠ .assignHead)
    (hanswer : (Query.mark shape false).answer c a = some (some body, a₁)) :
    (Reader.accept shape).Rereads c a.Alike body a₁.Alike a (some body) a₁ := by
  obtain ⟨t, ht, rfl, rfl⟩ := Query.mark_some.mp hanswer
  have hblank := Heeding.blank_nil hmode ht
  obtain ⟨horigin, hfits⟩ := takeAt_fits ht
  obtain ⟨-, hbody, hreach⟩ := takeAt_front ht
  have hrest : a.rest = t.body ++ t.after.rest := by
    rw [← horigin, Token.rest_origin hfits, Token.text, hblank]
    rfl
  obtain ⟨x, body, hcons⟩ := List.exists_cons_of_ne_nil hbody
  refine rereads_query fun more hmore => ⟨?_, fun b hb hlevel => ?_⟩
  · rw [Scan.Alike, hrest, hcons]
    rfl
  · have hagain := reach_alike hshape hbody hmore hreach
    have hmay : shape.pattern.mayStart x = true := by
      obtain ⟨hreach, -⟩ := Pattern.reach?_eq_some_iff.mp hreach
      rw [hcons] at hreach
      exact Pattern.mayStart_of_reach hreach
    have hzero : c.mode.rules.blankLength b.rest = 0 := by
      rw [hb, hcons]
      exact blankLength_cons_of_not_mem (unblank_of_mayStart hmay) _
    have hmoved := takeAt_moved ht hzero (show b.rest = [] ++ (_ ++ _) from hb) (fun _ => rfl) hagain
    exact ⟨_, Query.mark_some.mpr ⟨_, hmoved, rfl, rfl⟩, Token.rest_moved hb, Token.level_moved hfits hbody hb⟩

/-- A shape of one character that is not there is not taken in front of what starts with the same. -/
theorem rereads_missed (hshape : shape ∈ [Shape.sharp, .bang, .anchor])
    (hanswer : (Query.mark shape false).answer c a = some (none, a₁)) :
    a₁ = a ∧ (Reader.accept shape).Rereads c a.Alike [] a.Alike a none a₁ := by
  obtain ⟨hnone, rfl⟩ := Query.mark_none.mp hanswer
  refine ⟨rfl, rereads_query fun more hmore => ⟨hmore, fun b hb hlevel => ?_⟩⟩
  refine ⟨b, Query.mark_none.mpr ⟨?_, rfl⟩, hb, hlevel⟩
  have hone : ∃ cs : Text, (∀ ch ∈ cs, ch ∉ [' ', '\t', '\n', '\\']) ∧ ∀ t, shape.pattern.reach? t =
      (Pattern.oneOf cs).reach? t := by
    simp only [List.mem_cons, List.not_mem_nil, or_false] at hshape
    obtain rfl | rfl | rfl := hshape
    · exact ⟨['#'], by simp, reach_lit_one '#'⟩
    · exact ⟨['!'], by simp, reach_lit_one '!'⟩
    · exact ⟨['/', '#', '%'], by simp, fun t => rfl⟩
  obtain ⟨cs, hcs, hsame⟩ := hone
  have htake : ∀ b : Scan, c.mode.rules.takeAt shape.pattern shape.kind (false || c.mode.allowBlank) b =
      c.mode.rules.takeAt (.oneOf cs) shape.kind false b := by
    intro b
    rw [hmode, takeAt, takeAt, hsame]
    rfl
  rw [htake, takeAt_oneOf hcs] at hnone ⊢
  rw [hb, List.nil_append, hmore]
  exact hnone

/-- Where no blank stands, the token is what the first rule that fits takes. -/
theorem token_of_fit {n : Nat} (hb : b.rest = x :: rest) (hx : x ∉ [' ', '\t', '\n', '\\'])
    (hfit : firstFit param.set.rules (x :: rest) = some (kind, n)) :
    ∃ t, c.token? b = some t ∧ t.kind = kind ∧ t.blank = [] := by
  have hzero : param.skipLength b = 0 := by
    show param.blankLength b.rest = 0
    rw [hb]
    exact blankLength_cons_of_not_mem hx rest
  have hthere : firstFit param.set.rules (b.rest.drop (param.skipLength b)) = some (kind, n) := by
    rw [hzero, hb]
    exact hfit
  refine ⟨cut kind (param.skipLength b) n b, Context.token?_eq_some.mpr ?_, rfl, ?_⟩
  · rw [hmode]
    exact tokenAt_of_fit hthere
  · rw [cut, hzero, List.take_zero]

/-- The brace that closes an expansion is taken again. -/
theorem rereads_brace {l : Lexeme} (h : (Reader.expect [.rbrace]).LeadsBy Reprinted c a l a') :
    a.Meets true '}' ∧ (Reader.expect [.rbrace]).Rereads c (fun _ => True) ['}'] (fun _ => True) a l a' := by
  have hnext := leads_expect.mp h
  obtain ⟨t, ht, hwants, rfl, rfl⟩ := leads_next_some.mp hnext
  have hkind := kind_of_wants hwants
  have hbody : t.body = ['}'] := body_of_spelling (Context.token?_eq_some.mp ht) (by rw [hkind]; rfl)
  have hrest := param_front ht (blank_of_param hmode hwants)
  refine ⟨⟨[], t.after.rest, by rw [hrest, hbody]; rfl, ?_, fun _ => rfl⟩, ?_⟩
  · rw [hrest, hbody]
    exact blankLength_cons_of_not_mem (by decide) _
  · have hfit : ∀ more, True → firstFit c.mode.rules.set.rules (t.lexeme.body ++ more) =
        some (t.lexeme.kind, t.lexeme.body.length) := by
      intro more _
      rw [hmode, show t.lexeme.kind = .rbrace from hkind, show t.lexeme.body = ['}'] from hbody]
      rfl
    have hclosed := rereads_take_opener (leads_query.mp hnext) c.spaces_nil (fun _ => rfl)
      (by rw [show t.lexeme.kind = .rbrace from hkind]; decide) hfit
    exact (rereads_expect (hclosed.mono (fun _ _ _ => trivial) fun _ => id)).of_text (by
      rw [show t.lexeme.body = ['}'] from hbody]; rfl)

/-- What is taken for a mark touches what stands in front of it. -/
theorem meets_of_mark (hpattern : shape.pattern = .lit [x])
    (hanswer : (Query.mark shape false).answer c a = some (some body, a₁)) : a.Meets true x := by
  obtain ⟨t, ht, rfl, rfl⟩ := Query.mark_some.mp hanswer
  have hnil := Heeding.blank_nil hmode ht
  obtain ⟨horigin, hfits⟩ := takeAt_fits ht
  obtain ⟨hblank, -⟩ := takeAt_front ht
  have hbody : t.body = [x] := (takeAt_matches (hpattern ▸ ht)).2.of_lit
  rw [hmode, hnil] at hblank
  refine ⟨[], t.after.rest, ?_, hblank, fun _ => rfl⟩
  rw [← horigin, Token.rest_origin hfits, Token.text, hnil, hbody]
  rfl

/-- What a mark or a closer starts with stands at its place. -/
theorem meets_of_takeAt {allowBlank : Bool} {t : Token}
    (ht : c.mode.rules.takeAt (.lit (x :: rest)) kind allowBlank a = some t) : a.Meets false x := by
  obtain ⟨horigin, hfits⟩ := takeAt_fits ht
  obtain ⟨hblank, -⟩ := takeAt_front ht
  have hbody : t.body = x :: rest := (takeAt_matches ht).2.of_lit
  rw [hmode] at hblank
  have hrest := Token.rest_origin hfits
  rw [horigin, Token.text, hbody, List.append_assoc] at hrest
  exact ⟨t.blank, _, hrest, hblank, fun hno => Bool.noConfusion hno⟩

end Questions

/-! ### Names -/

namespace Rules

/-- The name of a parameter of more than one character goes on only in what names go on in. -/
theorem nameRest_of_denotes {u v : Text}
    (h : (Pattern.alt (.some1 .digit) (.alt .variableName (.oneOf specialGlyphs))).Denotes (u ++ v)) (hu : u ≠ [])
    (hv : v ≠ []) : ∃ ch ∈ v.head?, Text.isNameRest ch = true := by
  obtain ⟨x, u, rfl⟩ := List.exists_cons_of_ne_nil hu
  obtain ⟨y, v, rfl⟩ := List.exists_cons_of_ne_nil hv
  refine ⟨y, rfl, ?_⟩
  have hbehind : ∀ {w' : Text} {z : Char}, x :: u ++ y :: v = [z] ++ w' → y ∈ w' := by
    intro w' z heq
    obtain rfl : u ++ y :: v = w' := (List.cons.inj heq).2
    exact List.mem_append_right _ (List.mem_cons_self ..)
  generalize ht : x :: u ++ y :: v = t at h
  cases h with
  | first h =>
    cases h with
    | seq hfirst hmore =>
      cases hfirst with
      | one _ =>
        have hdigit := Pattern.all_of_denotes hmore y (hbehind ht)
        rw [Text.isNameRest, Char.isAlphanum, hdigit, Bool.or_true, Bool.true_or]
  | second h =>
    cases h with
    | first h =>
      cases h with
      | seq hfirst hmore =>
        cases hfirst with
        | one _ => exact Pattern.all_of_denotes hmore y (hbehind ht)
    | second h =>
      cases h with
      | one _ => cases u <;> cases ht

/-- The name of a parameter is cut off in front of what no name goes on with. -/
theorem firstFit_name {old : Text} (h : firstFit param.set.rules (body ++ old) = some (.name, body.length))
    (hmore : ∀ ch ∈ more.head?, Text.isNameRest ch = false) :
    firstFit param.set.rules (body ++ more) = some (.name, body.length) := by
  have hbody : body ≠ [] := List.ne_nil_of_length_pos (firstFit_pos h)
  obtain ⟨r, hr, hkind, hreach⟩ := firstFit_mem h
  have hname : r.pattern.mayStart '[' = false := by
    revert hkind
    exact (by decide : ∀ r ∈ param.set.rules, r.kind = .name → r.pattern.mayStart '[' = false) r hr
  refine firstFit_of_longest h fun r' hr' z hz hfront hdenotes => ?_
  have hlong : 1 < (body ++ z).length := by
    have := List.length_pos_iff.mpr hbody
    have := List.length_pos_iff.mpr hz
    rw [List.length_append]
    omega
  have hbracket : ∀ {u : Text}, body ++ z = '[' :: u → False := by
    intro u hu
    obtain ⟨x, body, rfl⟩ := List.exists_cons_of_ne_nil hbody
    obtain ⟨rfl, -⟩ := List.cons.inj hu
    obtain ⟨hreach, -⟩ := Pattern.reach?_eq_some_iff.mp hreach
    rw [Pattern.mayStart_of_reach hreach] at hname
    cases hname
  simp only [set, paramRules, List.mem_cons, List.not_mem_nil, or_false] at hr'
  rcases hr' with rfl | rfl | rfl | rfl | rfl | rfl
  · obtain ⟨ch, hch, hyes⟩ := nameRest_of_denotes hdenotes hbody hz
    obtain ⟨rest, rfl⟩ := hfront
    obtain ⟨y, z, rfl⟩ := List.exists_cons_of_ne_nil hz
    rw [hmore ch hch] at hyes
    cases hyes
  · exact hbracket (Pattern.denotes_lit hdenotes)
  · exact hbracket (Pattern.denotes_lit hdenotes)
  all_goals exact absurd (Pattern.length_of_short rfl hdenotes) (Nat.ne_of_gt hlong)

end Rules

section Head
variable (hmode : c.mode = ⟨.param, false⟩)
include hmode

theorem rereads_parameterName {l : Lexeme} (h : (Reader.next [.name]).LeadsBy Reprinted c a (some l) a₁) :
    (Reader.next [.name]).Rereads c a.Alike l.body (fun more => ∀ ch ∈ more.head?, Text.isNameRest ch = false) a
      (some l) a₁ := by
  have hanswer := leads_query.mp h
  obtain ⟨t, ht, hwants, rfl, rfl⟩ := Query.take_some.mp hanswer
  have hkind : t.lexeme.kind = .name := kind_of_wants hwants
  have hlexed := Context.token?_eq_some.mp ht
  have hbody := body_ne_of_tokenAt hlexed (by rw [show t.kind = .name from hkind]; nofun)
  have hfit := fit_of_tokenAt hlexed hbody
  rw [hmode, show t.kind = .name from hkind] at hfit
  refine (rereads_take hanswer c.spaces_nil (fun _ => rfl) (by rw [hkind]; nofun) (by rw [hkind]; nofun)
    fun more hmore => ⟨?_, ?_⟩).mono (fun _ _ _ => ?_) fun _ => id
  · rw [hmode, hkind]
    exact firstFit_name hfit hmore
  · rw [hkind]
    nofun
  · rw [Scan.Alike, param_front ht (blank_of_param hmode hwants)]
    obtain ⟨x, body, hcons⟩ := List.exists_cons_of_ne_nil hbody
    rw [Token.lexeme, hcons]
    rfl

/-- A mark in front of a name is taken again, or again it is not. -/
theorem rereads_headMark {shape : Shape} {o : Option Text} (hshape : shape ∈ [Shape.sharp, .bang])
    (hpattern : shape.pattern = .lit [x]) (h : (Reader.accept shape).LeadsBy Reprinted c a o a₁) :
    (Reader.accept shape).Rereads c a.Alike (if o.isSome then [x] else []) a₁.Alike a o a₁ := by
  have hanswer := leads_query.mp h
  cases o with
  | none =>
    obtain ⟨rfl, hmissed⟩ := rereads_missed hmode (List.mem_append_left [.anchor] hshape) hanswer
    exact hmissed
  | some body =>
    obtain ⟨t, ht, rfl, -⟩ := Query.mark_some.mp hanswer
    have hbody : t.body = [x] := (takeAt_matches (hpattern ▸ ht)).2.of_lit
    refine (rereads_found hmode (fun hno => ?_) hanswer).of_text hbody.symm
    rw [hno] at hshape
    revert hshape
    decide

/-- The brace that is looked for stands there. -/
theorem brace_of_peek (h : (Reader.peek [.rbrace]).LeadsBy Reprinted c a true a₁) :
    a₁ = a ∧ a.rest.head? = some '}' := by
  obtain ⟨t, ht, hwants, rfl⟩ := Query.peek_iff.mp (leads_query.mp h)
  have hbody : t.body = ['}'] :=
    body_of_spelling (Context.token?_eq_some.mp ht) (by rw [kind_of_wants hwants]; rfl)
  rw [param_front ht (blank_of_param hmode hwants), hbody]
  exact ⟨rfl, rfl⟩

/-- Where it stands, no name is read, and it is seen. -/
theorem leads_brace (hb : b.rest = '}' :: rest) :
    Leads c (Reader.next [.name]) b none b ∧ Leads c (Reader.peek [.rbrace]) b true b := by
  obtain ⟨t, ht, hkind, hblank⟩ := token_of_fit hmode hb (by decide) rfl
  refine ⟨leads_next_none.mpr ⟨t, ht, ?_, rfl⟩, leads_query.mpr (Query.peek_iff.mpr ⟨t, ht, ?_, rfl⟩)⟩
  · rw [Context.wants, hkind]
    rfl
  · rw [Context.wants, hkind, Token.isAdjacent, hblank]
    simp [among]

/-- The marks and the name are read again in front of what starts with the same character, and goes on
no name. -/
theorem rereads_namedHead {r : Head} (h : Reader.head.LeadsBy Reprinted c a r a') :
    Reader.head.Rereads c a.Alike ((if r.length then ['#'] else []) ++ (bangMark r.ref ++ r.name))
      (fun more => a'.Alike more ∧ ∀ ch ∈ more.head?, Text.isNameRest ch = false) a r a' := by
  obtain ⟨o₁, a₁, hsharp, hrest⟩ := leads_bind.mp h
  obtain ⟨o₂, a₂, hbang, hrest'⟩ := leads_bind.mp hrest
  obtain ⟨o₃, a₃, hnext, hlast⟩ := leads_bind.mp hrest'
  clear h hrest hrest'
  have hsharp := rereads_headMark hmode (by decide) rfl hsharp
  have hbang := rereads_headMark hmode (by decide) rfl hbang
  cases o₃ with
  | some l =>
    obtain ⟨rfl, rfl⟩ := leads_pure.mp hlast
    have hname := (rereads_parameterName hmode hnext).mono (fun _ _ => id)
      fun more (hmore : a'.Alike more ∧ ∀ ch ∈ more.head?, Text.isNameRest ch = false) => hmore.2
    refine .of_text (rereads_bind hsharp (rereads_bind hbang (rereads_bind hname rereads_pure fun _ _ => id)
      fun _ _ => id) fun _ _ => id) ?_
    simp
  | none =>
    -- A mark alone is the name, if the brace follows.
    obtain ⟨t, ht, -, rfl⟩ := leads_next_none.mp hnext
    have hmarked : (o₂.isSome || o₁.isSome) = true := by
      refine Decidable.byContradiction fun hno => ?_
      simp only [hno, Bool.false_eq_true, if_false] at hlast
      exact hlast
    simp only [hmarked, if_true] at hlast
    obtain ⟨closed, a₄, hpeek, hlast⟩ := leads_bind.mp hlast
    cases closed with
    | false => exact hlast.elim
    | true =>
      obtain ⟨hr, rfl⟩ := leads_pure.mp hlast
      obtain ⟨rfl, hbrace⟩ := brace_of_peek hmode hpeek
      refine .of_text (rereads_bind hsharp (rereads_bind hbang
        (.of_stay fun more hmore => ⟨hmore.1, fun b hb hlevel => ?_⟩) fun _ _ => id) fun _ _ => id) ?_
      · obtain ⟨rest, hrest⟩ := List.head?_eq_some_iff.mp (hmore.1.trans hbrace)
        obtain ⟨hunnamed, hseen⟩ := leads_brace hmode (hb.trans hrest)
        refine leads_bind.mpr ⟨none, b, hunnamed, ?_⟩
        simp only [hmarked, if_true]
        exact leads_bind.mpr ⟨true, b, hseen, hr, rfl⟩
      · rw [hr]
        cases o₁ <;> cases o₂ <;> simp at hmarked ⊢

end Head

/-! ### Operands -/

/-- A payload is read again with the same ahead behind it. -/
theorem rereads_payload {rules : Rules} (hwordy : rules.isWordy = true) (hblank : rules.set.blank = none)
    (h : (Reader.payload rules).LeadsBy Reprinted c a n a') :
    (Reader.payload rules).Rereads c a.Alike (n.printed) ((c.under rules true).Beyond True a') a n a' := by
  obtain ⟨o, a₁, hfirst, hpure⟩ := leads_bind.mp h
  obtain ⟨rfl, rfl⟩ := leads_pure.mp hpure
  obtain ⟨ms, ⟨hparses, hreprints⟩, rfl⟩ := leads_first?.mp hfirst
  have hreads := rereads_first? (hreprints hwordy [] Context.spaces_nil nofun fun _ => rfl)
  refine .of_text (rereads_bind (hreads.mono (fun _ _ hmore => hmore.alike hblank) fun _ => id) rereads_pure
    fun _ _ => id) ?_
  cases ms with
  | nil => rfl
  | cons m ms =>
    obtain ⟨hnil, -⟩ | ⟨_, _, _, -, -, hone⟩ := hparses.word_cases
    · cases hnil
    · obtain rfl := (List.cons.inj hone).2
      simp [Production.printed]

/-- An operand is read again behind a space. -/
theorem rereads_operand (h : Reader.arithOperand.LeadsBy Reprinted c a n a') :
    n ≠ .empty ∧ Reader.arithOperand.Rereads c (fun _ => True) ([' '] ++ n.printed)
      ((c.under .arith true).Beyond True a') a n a' := by
  obtain ⟨hparses, hreprints⟩ := leads_one.mp h
  refine ⟨?_, ?_⟩
  · have hmakes := (contracted hparses trivial).makes n (List.mem_cons_self ..)
    rintro rfl
    cases hmakes
  · have hreads := rereads_one (hreprints rfl [' '] (Context.spaces_arith rfl) nofun nofun)
    refine (hreads.mono (fun _ _ _ => trivial) fun _ => id).of_text ?_
    simp [Production.printed]

/-! ### Alternatives -/

section Alternatives
variable {α β : Type} {below : Yielding} {alternatives : List (Reader (Option α))} {f : Reader (Option α)} {y : α}

theorem leads_firstOf_none (h : ∀ g ∈ alternatives, g.LeadsBy below c b none b) :
    (Reader.firstOf alternatives).LeadsBy below c b none b := by
  induction alternatives with
  | nil => exact ⟨rfl, rfl⟩
  | cons g rest ih =>
    obtain ⟨hg, hrest⟩ := List.forall_mem_cons.mp h
    exact leads_bind.mpr ⟨none, b, hg, ih hrest⟩

/-- The first alternative that takes something behind those that take nothing. -/
theorem leads_firstOf_at {i : Nat} {b' : Scan} (hi : alternatives[i]? = some f)
    (hbefore : ∀ g ∈ alternatives.take i, g.LeadsBy below c b none b) (hf : f.LeadsBy below c b (some y) b') :
    (Reader.firstOf alternatives).LeadsBy below c b (some y) b' := by
  induction alternatives generalizing i with
  | nil => cases hi
  | cons g rest ih =>
    cases i with
    | zero =>
      obtain rfl : g = f := Option.some.inj hi
      exact leads_bind.mpr ⟨some y, b', hf, rfl, rfl⟩
    | succ i =>
      obtain ⟨hg, hrest⟩ := List.forall_mem_cons.mp hbefore
      exact leads_bind.mpr ⟨none, b, hg, ih hi hrest⟩

/-- Of alternatives that go nowhere if they take nothing, one takes something where they start, or none
does. -/
theorem firstOf_cases {o : Option α} (hstay : ∀ g ∈ alternatives, ∀ a a', g.LeadsBy below c a none a' → a' = a)
    (h : (Reader.firstOf alternatives).LeadsBy below c a o a') :
    (o = none ∧ a' = a) ∨ ∃ (i : Nat) (f : Reader (Option α)) (y : α), alternatives[i]? = some f ∧
      o = some y ∧ f.LeadsBy below c a (some y) a' := by
  induction alternatives generalizing a with
  | nil => exact .inl h
  | cons g rest ih =>
    obtain ⟨hg, hrest⟩ := List.forall_mem_cons.mp hstay
    obtain ⟨o₁, a₁, hfirst, hbehind⟩ := leads_bind.mp h
    cases o₁ with
    | none =>
      obtain rfl := hg _ _ hfirst
      obtain hnone | ⟨i, f, y, hi, hsome⟩ := ih hrest hbehind
      · exact .inl hnone
      · exact .inr ⟨i + 1, f, y, hi, hsome⟩
    | some y =>
      obtain ⟨rfl, rfl⟩ := leads_pure.mp hbehind
      exact .inr ⟨0, g, y, rfl, rfl, hfirst⟩

/-- A reader that never ends with nothing. -/
def Reader.Commits (below : Yielding) (c : Context) (m : Reader (Option α)) : Prop :=
  ∀ a a', ¬ m.LeadsBy below c a none a'

theorem commits_some : (pure (some y) : Reader (Option α)).Commits below c := fun _ _ h => nomatch h.1

theorem commits_bind {m : Reader β} {k : β → Reader (Option α)} (h : ∀ x, (k x).Commits below c) :
    (m >>= k).Commits below c := by
  intro a a' hleads
  obtain ⟨x, a₁, -, hrest⟩ := leads_bind.mp hleads
  exact h x a₁ a' hrest

end Alternatives

/-! ### Forms in order -/

section Order
variable {ref : Bool} {name : Text}

/-- The shapes that introduce forms, in the order in which they are tried. -/
def introducers : List Shape := [.default, .colon, .removal, .caseChange, .slash, .atSign, .star]

/-- The forms that shapes introduce. -/
def introducedForms (ref : Bool) (name : Text) : List (Shape × Reader (Option Form)) := [
  (.default, Reader.defaultForm ref name), (.colon, Reader.substringForm ref name),
  (.removal, Reader.removalForm ref name), (.caseChange, Reader.caseForm ref name),
  (.slash, Reader.replacementForm ref name), (.atSign, Reader.atForm ref name), (.star, Reader.starForm ref name)]

theorem forms_eq : Reader.forms ref name = Reader.elementsForm ref name ::
    ((introducedForms ref name).map Prod.snd ++ [Reader.elementForm ref name]) := rfl

/-- Such a form takes nothing where its shape is not there, and commits itself where it is. -/
theorem introduced {shape : Shape} {f : Reader (Option Form)} (hf : (shape, f) ∈ introducedForms ref name) :
    (∀ b, Leads c (Reader.accept shape) b none b → Leads c f b none b) ∧
      ∀ {below : Yielding} a a', f.LeadsBy below c a none a' → a' = a := by
  simp only [introducedForms, List.mem_cons, Prod.mk.injEq, List.not_mem_nil, or_false] at hf
  have hstay : ∀ {below : Yielding} {shape : Shape} {k : Option Text → Reader (Option Form)},
      k none = pure none → (∀ text, (k (some text)).Commits below c) →
      ∀ a a', (Reader.accept shape >>= k).LeadsBy below c a none a' → a' = a := by
    intro below shape k hnone hcommits a a' h
    obtain ⟨o, a₁, haccept, hrest⟩ := leads_bind.mp h
    cases o with
    | none =>
      rw [hnone] at hrest
      obtain ⟨-, rfl⟩ := leads_pure.mp hrest
      exact (leads_accept_none.mp haccept).2
    | some text => exact absurd hrest (hcommits text _ _)
  have hpayload : ∀ {below : Yielding} {rules : Rules} {k : Node → Form},
      (Reader.payload rules >>= fun n => pure (some (k n))).Commits below c := commits_bind fun _ => commits_some
  have hmatching : ∀ {below : Yielding} {mode : Text},
      (Reader.matchingNames ref name mode >>= fun form => pure (some form)).Commits below c :=
    commits_bind fun _ => commits_some
  rcases hf with ⟨rfl, rfl⟩ | ⟨rfl, rfl⟩ | ⟨rfl, rfl⟩ | ⟨rfl, rfl⟩ | ⟨rfl, rfl⟩ | ⟨rfl, rfl⟩ | ⟨rfl, rfl⟩ <;>
    refine ⟨fun b h => leads_bind.mpr ⟨none, b, h, rfl, rfl⟩, fun {below} => hstay rfl fun text => ?_⟩
  · exact hpayload
  · refine commits_bind fun offset => commits_bind fun o => ?_
    cases o with
    | none => exact commits_some
    | some _ => exact commits_bind fun _ => commits_some
  · exact hpayload
  · exact hpayload
  · refine commits_bind fun anchor => commits_bind fun pattern => commits_bind fun o => ?_
    cases o with
    | none => exact commits_some
    | some _ => exact hpayload
  · refine commits_bind fun o => ?_
    cases o with
    | none => exact hmatching
    | some op => exact commits_some
  · exact hmatching

/-- A form takes nothing where a token of other kinds stands. -/
theorem leads_unwanted {kinds : List Kind} {t : Token} (ht : c.token? b = some t) (hne : kinds ≠ [])
    (hkind : t.kind ∉ kinds) : Leads c (Reader.next kinds) b none b := by
  refine leads_next_none.mpr ⟨t, ht, ?_, rfl⟩
  exact Bool.eq_false_iff.mpr fun hyes => hkind (mem_of_wants hne hyes)

theorem forms_stay {below : Yielding} :
    ∀ g ∈ Reader.forms ref name, ∀ a a', g.LeadsBy below c a none a' → a' = a := by
  have hnext : ∀ {kinds : List Kind} {k : Option Lexeme → Reader (Option Form)},
      k none = pure none → (∀ l, (k (some l)).Commits below c) →
      ∀ a a', (Reader.next kinds >>= k).LeadsBy below c a none a' → a' = a := by
    intro kinds k hnone hcommits a a' h
    obtain ⟨o, a₁, hnext, hrest⟩ := leads_bind.mp h
    cases o with
    | none =>
      rw [hnone] at hrest
      obtain ⟨-, rfl⟩ := leads_pure.mp hrest
      obtain ⟨-, -, -, hstay⟩ := leads_next_none.mp hnext
      exact hstay
    | some l => exact absurd hrest (hcommits l _ _)
  intro g hg
  rw [forms_eq, List.mem_cons, List.mem_append, List.mem_singleton] at hg
  obtain rfl | hg | rfl := hg
  · exact hnext rfl fun _ => commits_some
  · obtain ⟨⟨shape, f⟩, hf, rfl⟩ := List.mem_map.mp hg
    exact (introduced hf).2
  · exact hnext rfl fun _ => commits_bind fun _ => commits_bind fun _ => commits_some

/-- The forms that come before a shape take nothing in front of a character that does not introduce
them. -/
theorem leads_before {k : Nat} {t : Token} (hk : k ≤ 7) (hb : b.rest = x :: rest)
    (hx : x ∉ [' ', '\t', '\n', '\\']) (ht : c.token? b = some t)
    (hkind : t.kind ∉ [Kind.bracketAt, .bracketStar])
    (hmarks : ∀ shape ∈ introducers.take k, shape.pattern.reach? (x :: rest) = none) :
    ∀ g ∈ (Reader.forms ref name).take (k + 1), Leads c g b none b := by
  intro g hg
  rw [forms_eq, List.take_succ_cons, List.take_append_of_le_length hk, ← List.map_take, List.mem_cons] at hg
  obtain rfl | hg := hg
  · exact leads_bind.mpr ⟨none, b, leads_unwanted ht (List.cons_ne_nil _ _) hkind, rfl, rfl⟩
  · obtain ⟨⟨shape, f⟩, hf, rfl⟩ := List.mem_map.mp hg
    refine (introduced (List.mem_of_mem_take hf)).1 b (leads_missed hx hb (hmarks shape ?_))
    have hshape := List.mem_map_of_mem (f := Prod.fst) hf
    rwa [List.map_take] at hshape

/-- Only a bracket starts the tokens that open one. -/
theorem token_of_mark (hmode : c.mode = ⟨.param, false⟩) (hb : b.rest = x :: rest)
    (hx : x ∉ [' ', '\t', '\n', '\\']) (hbracket : x ≠ '[') :
    ∃ t, c.token? b = some t ∧ t.kind ∉ [Kind.bracketAt, .bracketStar, .lbracket] := by
  obtain ⟨⟨kind, n⟩, hfit⟩ : ∃ fit, firstFit param.set.rules (x :: rest) = some fit :=
    Option.ne_none_iff_exists'.mp firstFit_param
  obtain ⟨r, hr, hkind, hreach⟩ := firstFit_mem hfit
  obtain ⟨t, ht, htkind, -⟩ := token_of_fit hmode hb hx hfit
  refine ⟨t, ht, fun hmem => ?_⟩
  obtain ⟨hreach, hpos⟩ := Pattern.reach?_eq_some_iff.mp hreach
  obtain ⟨m, rfl⟩ := Nat.exists_eq_succ_of_ne_zero (Nat.ne_of_gt hpos)
  have hmay := Pattern.mayStart_of_reach hreach
  have hall : ∀ r ∈ param.set.rules, r.kind ∈ [Kind.bracketAt, .bracketStar, .lbracket] → r.pattern = .lit ['['] ∨
      r.pattern = .lit ['[', '@', ']'] ∨ r.pattern = .lit ['[', '*', ']'] := by
    intro r hr
    simp only [Rules.set, paramRules, List.mem_cons, List.not_mem_nil, or_false] at hr
    rcases hr with rfl | rfl | rfl | rfl | rfl | rfl <;> simp
  obtain hlit | hlit | hlit := hall r hr (hkind ▸ htkind ▸ hmem) <;> rw [hlit] at hmay <;>
    exact hbracket (Option.some.inj (beq_iff_eq.mp hmay)).symm

theorem leads_matchingNames {below : Yielding} {mode : Text} {form : Form}
    (h : (Reader.matchingNames ref name mode).LeadsBy below c a form a') :
    ref = true ∧ form = ⟨.namesStarting name mode, false⟩ ∧ a' = a ∧
      ∀ b, Leads c (Reader.matchingNames ref name mode) b form b := by
  simp only [Reader.matchingNames] at h ⊢
  split at h
  · rename_i hnamed
    obtain ⟨rfl, rfl⟩ := leads_pure.mp h
    refine ⟨(Bool.and_eq_true_iff.mp hnamed).1, rfl, rfl, fun b => ?_⟩
    rw [if_pos hnamed]
    exact ⟨rfl, rfl⟩
  · exact h.elim

end Order

/-! ### Forms -/

/-- The form that is tried as the `i`-th is read again where it is printed: what is printed behind the name
starts as before, is introduced by no form that is tried before it, and goes on no name. -/
def Reforms (c : Context) (ref : Bool) (name : Text) (i : Nat) (a : Scan) (form : Form) (a' : Scan) : Prop :=
  ∃ x inner f, (Reader.forms ref name)[i]? = some f ∧
    form.node.printed = printedBraces ref name (x :: inner) ∧ a.Alike [x] ∧ Text.isNameRest x = false ∧
      (∀ b more, b.rest = x :: inner ++ more → ∀ g ∈ (Reader.forms ref name).take i, Leads c g b none b) ∧
        f.Rereads c (fun _ => True) (x :: inner) (fun more => ∃ rest, more = '}' :: rest) a (some form) a'

section Forms
variable (hmode : c.mode = ⟨.param, false⟩) {ref : Bool} {name : Text} {form : Form} {shape : Shape}
include hmode

/-- A form that a shape introduces. -/
theorem reforms_of {k : Nat} (inner : Text) {f : Reader (Option Form)} (hk : k ≤ 6)
    (hf : (Reader.forms ref name)[k + 1]? = some f)
    (hprinted : form.node.printed = printedBraces ref name (x :: inner)) (halike : a.Alike [x])
    (hx : x ∈ [':', '-', '=', '?', '+', '#', '%', '^', ',', '/', '@', '*'])
    (hmarks : ∀ more, ∀ shape ∈ introducers.take k, shape.pattern.reach? (x :: inner ++ more) = none)
    (hreads : f.Rereads c (fun _ => True) (x :: inner) (fun more => ∃ rest, more = '}' :: rest) a (some form) a') :
    Reforms c ref name (k + 1) a form a' := by
  have hmark : x ∉ [' ', '\t', '\n', '\\'] ∧ x ≠ '[' ∧ Text.isNameRest x = false := by
    simp only [List.mem_cons, List.not_mem_nil, or_false] at hx
    rcases hx with rfl | rfl | rfl | rfl | rfl | rfl | rfl | rfl | rfl | rfl | rfl | rfl <;> decide
  refine ⟨x, inner, f, hf, hprinted, halike, hmark.2.2, fun b more hb => ?_, hreads⟩
  obtain ⟨t, ht, hkind⟩ := token_of_mark hmode hb hmark.1 hmark.2.1
  exact leads_before (by omega) hb hmark.1 ht (fun hmem => hkind (List.mem_of_mem_take (i := 2) hmem)) (hmarks more)

/-- What is taken for a shape starts as the shape may. -/
theorem front_of_found (hanswer : (Query.mark shape false).answer c a = some (some body, a₁)) :
    ∃ x rest, body = x :: rest ∧ a.Alike [x] ∧ shape.pattern.mayStart x = true := by
  obtain ⟨t, ht, rfl, rfl⟩ := Query.mark_some.mp hanswer
  have hblank := Heeding.blank_nil hmode ht
  obtain ⟨horigin, hfits⟩ := takeAt_fits ht
  obtain ⟨-, hbody, hreach⟩ := takeAt_front ht
  obtain ⟨x, rest, hcons⟩ := List.exists_cons_of_ne_nil hbody
  refine ⟨x, rest, hcons, ?_, ?_⟩
  · rw [Scan.Alike, ← horigin, Token.rest_origin hfits, Token.text, hblank, hcons]
    rfl
  · obtain ⟨hreach, -⟩ := Pattern.reach?_eq_some_iff.mp hreach
    rw [hcons] at hreach
    exact Pattern.mayStart_of_reach hreach

/-- A form of an operator and a payload. -/
theorem rereads_payloadForm {f : Text → Node → Form} {k : Option Text → Reader (Option Form)}
    (hshape : shape ≠ .assignHead) (hnone : k none = pure none)
    (hsome : ∀ op, k (some op) = Reader.payload .wordUntilBrace >>= fun n => pure (some (f op n)))
    (hclosed : ∀ op n, (f op n).blankBeforeBrace = false)
    (h : (Reader.accept shape >>= k).LeadsBy Reprinted c a (some form) a')
    (hbrace : a'.Meets (!form.blankBeforeBrace) '}') :
    ∃ x rest value, form = f (x :: rest) value ∧ a.Alike [x] ∧ shape.pattern.mayStart x = true ∧
      (Reader.accept shape >>= k).Rereads c (fun _ => True) (x :: (rest ++ value.printed))
        (fun more => ∃ rest, more = '}' :: rest) a (some form) a' := by
  obtain ⟨o, a₁, haccept, hrest⟩ := leads_bind.mp h
  cases o with
  | none =>
    rw [hnone] at hrest
    cases (leads_pure.mp hrest).1
  | some op =>
    rw [hsome] at hrest
    obtain ⟨value, a₂, hpayload, hpure⟩ := leads_bind.mp hrest
    obtain ⟨heq, rfl⟩ := leads_pure.mp hpure
    have hanswer := leads_query.mp haccept
    obtain ⟨x, rest, rfl, halike, hmay⟩ := front_of_found hmode hanswer
    rw [Option.some.inj heq, hclosed] at hbrace
    have hop := rereads_found hmode hshape hanswer
    have hvalue := rereads_payload rfl rfl hpayload
    have hbehind : (k (some (x :: rest))).Rereads c a₁.Alike (value.printed ++ [])
        (fun more => ∃ rest, more = '}' :: rest) a₁ (some form) a' := by
      rw [hsome, heq]
      refine rereads_bind hvalue rereads_pure ?_
      rintro _ ⟨more, rfl⟩ -
      exact hbrace.payload rfl rfl (fun _ => rfl) rfl (by decide) (by decide)
    refine ⟨x, rest, value, Option.some.inj heq, halike, hmay, ((rereads_bind hop hbehind fun _ _ => id).mono
      (fun _ _ _ => trivial) fun _ => id).of_text ?_⟩
    simp

/-- Such a form is read again, if no form that is tried before it starts like its operator. -/
theorem reforms_payload {i : Nat} {f : Text → Node → Form} {k : Option Text → Reader (Option Form)} (hi : i ≤ 6)
    (hform : (Reader.forms ref name)[i + 1]? = some (Reader.accept shape >>= k)) (hshape : shape ≠ .assignHead)
    (hnone : k none = pure none)
    (hsome : ∀ op, k (some op) = Reader.payload .wordUntilBrace >>= fun n => pure (some (f op n)))
    (hclosed : ∀ op n, (f op n).blankBeforeBrace = false)
    (hprinted : ∀ op n, (f op n).node.printed = printedBraces ref name (op ++ n.printed))
    (hfirst : ∀ x, shape.pattern.mayStart x = true →
      x ∈ [':', '-', '=', '?', '+', '#', '%', '^', ',', '/', '@', '*'] ∧ ∀ shape ∈ introducers.take i, shape.pattern.mayStart x = false)
    (h : (Reader.accept shape >>= k).LeadsBy Reprinted c a (some form) a')
    (hbrace : a'.Meets (!form.blankBeforeBrace) '}') : Reforms c ref name (i + 1) a form a' := by
  obtain ⟨x, rest, value, rfl, halike, hmay, hreads⟩ := rereads_payloadForm hmode hshape hnone hsome hclosed h hbrace
  obtain ⟨hx, hmarks⟩ := hfirst x hmay
  exact reforms_of hmode _ hi hform (hprinted _ _) halike hx (fun more => unmarked hmarks _) hreads

theorem reforms_default (h : (Reader.defaultForm ref name).LeadsBy Reprinted c a (some form) a')
    (hbrace : a'.Meets (!form.blankBeforeBrace) '}') : Reforms c ref name 1 a form a' := by
  refine reforms_payload hmode (i := 0) (f := fun op n => ⟨.paramDefault ref name op n, false⟩) (by decide) rfl
    (by decide) rfl (fun _ => rfl) (fun _ _ => rfl) (fun _ _ => by simp [Node.printed]) (fun x hmay => ?_) h hbrace
  exact ⟨List.mem_of_mem_take (i := 5) (mem_of_default hmay), fun _ hno => absurd hno List.not_mem_nil⟩

theorem reforms_removal (h : (Reader.removalForm ref name).LeadsBy Reprinted c a (some form) a')
    (hbrace : a'.Meets (!form.blankBeforeBrace) '}') : Reforms c ref name 3 a form a' := by
  refine reforms_payload hmode (i := 2) (f := fun op n => ⟨.patternRemoval ref name op n, false⟩) (by decide) rfl
    (by decide) rfl (fun _ => rfl) (fun _ _ => rfl) (fun _ _ => by simp [Node.printed]) (fun x hmay => ?_) h hbrace
  have hx := mem_of_removal hmay
  simp only [List.mem_cons, List.not_mem_nil, or_false] at hx
  obtain rfl | rfl := hx <;> exact ⟨by decide, by decide⟩

theorem reforms_case (h : (Reader.caseForm ref name).LeadsBy Reprinted c a (some form) a')
    (hbrace : a'.Meets (!form.blankBeforeBrace) '}') : Reforms c ref name 4 a form a' := by
  refine reforms_payload hmode (i := 3) (f := fun op n => ⟨.caseChange ref name op n, false⟩) (by decide) rfl
    (by decide) rfl (fun _ => rfl) (fun _ _ => rfl) (fun _ _ => by simp [Node.printed]) (fun x hmay => ?_) h hbrace
  have hx := mem_of_caseChange hmay
  simp only [List.mem_cons, List.not_mem_nil, or_false] at hx
  obtain rfl | rfl := hx <;> exact ⟨by decide, by decide⟩

theorem reforms_elements (h : (Reader.elementsForm ref name).LeadsBy Reprinted c a (some form) a') :
    Reforms c ref name 0 a form a' := by
  obtain ⟨o, a₁, hnext, hrest⟩ := leads_bind.mp h
  cases o with
  | none => cases (leads_pure.mp hrest).1
  | some l =>
    obtain ⟨heq, rfl⟩ := leads_pure.mp hrest
    cases heq
    have hanswer := leads_query.mp hnext
    obtain ⟨t, ht, hwants, rfl, rfl⟩ := Query.take_some.mp hanswer
    have hspelled : ∀ {spelling}, t.kind.spelling? = some spelling → t.body = spelling :=
      body_of_spelling (Context.token?_eq_some.mp ht)
    obtain ⟨y, hkind, hbody, hfit⟩ : ∃ y, t.kind ∉ [Kind.str, .ident, .eos, .glyph] ∧ t.body = ['[', y, ']'] ∧
        ∀ more, firstFit param.set.rules (['[', y, ']'] ++ more) = some (t.kind, 3) := by
      have hmem := mem_of_wants (List.cons_ne_nil _ _) hwants
      simp only [List.mem_cons, List.not_mem_nil, or_false] at hmem
      obtain hk | hk := hmem <;> rw [hk] at hspelled ⊢
      · exact ⟨'@', by decide, hspelled rfl, fun _ => rfl⟩
      · exact ⟨'*', by decide, hspelled rfl, fun _ => rfl⟩
    have hfit : ∀ more, (∃ rest, more = '}' :: rest) →
        firstFit c.mode.rules.set.rules (t.body ++ more) = some (t.kind, t.body.length) := by
      intro more _
      rw [hmode, hbody]
      exact hfit more
    have hopened := (rereads_take_opener hanswer c.spaces_nil (fun _ => rfl) hkind hfit)
    refine ⟨'[', [y, ']'], _, rfl, ?_, ?_, by decide, fun _ _ _ => nofun, ?_⟩
    · rw [Token.lexeme, hbody]
      cases ref <;> rfl
    · rw [Scan.Alike, param_front ht (blank_of_param hmode hwants), hbody]
      rfl
    · refine .of_text (.mono (rereads_bind hopened rereads_pure fun _ _ => id) (fun _ _ _ => trivial) fun _ => id) ?_
      rw [Token.lexeme, hbody]
      rfl

theorem reforms_substring (h : (Reader.substringForm ref name).LeadsBy Reprinted c a (some form) a')
    (hbrace : a'.Meets (!form.blankBeforeBrace) '}') : Reforms c ref name 2 a form a' := by
  obtain ⟨o, a₁, haccept, hrest⟩ := leads_bind.mp h
  cases o with
  | none => cases (leads_pure.mp hrest).1
  | some body =>
    obtain ⟨offset, a₂, hoffset, hbehind⟩ := leads_bind.mp hrest
    obtain ⟨o, a₃, hcolon, hlast⟩ := leads_bind.mp hbehind
    clear hrest hbehind
    have hanswer := leads_query.mp haccept
    have halike : a.Alike [':'] := (meets_of_mark hmode rfl hanswer).alike
    have hmark := rereads_mark (x := ':') rfl (by decide) hanswer (.inl rfl)
    obtain ⟨-, hoffset⟩ := rereads_operand hoffset
    have hbrace : a'.Meets false '}' := by
      obtain ⟨blank, rest, hrest, hblank, -⟩ := hbrace
      exact ⟨blank, rest, hrest, hblank, nofun⟩
    have hdefault : ∀ inner more, ∀ shape ∈ introducers.take 1,
        shape.pattern.reach? (':' :: ' ' :: inner ++ more) = none := by
      intro inner more shape hshape
      obtain rfl := List.mem_singleton.mp hshape
      rfl
    cases o with
    | none =>
      obtain ⟨-, rfl⟩ := Query.mark_none.mp (leads_query.mp hcolon)
      obtain ⟨heq, rfl⟩ := leads_pure.mp hlast
      cases heq
      refine reforms_of hmode (k := 1) (' ' :: offset.printed) (by decide) rfl ?_ halike (by decide)
        (hdefault _) ?_
      · simp [Node.printed]
      · refine .of_text (rereads_bind hmark (rereads_bind hoffset
          (rereads_bind (rereads_ended (by decide)) rereads_pure fun _ _ => id) ?_) fun _ _ => id) ?_
        · rintro _ ⟨rest, rfl⟩ -
          exact hbrace.arith (by decide : ('}', Kind.rbrace) ∈ arithStops) (.inr ⟨rfl, by decide⟩)
        · simp
    | some colon =>
      obtain ⟨length, a₄, hlength, hpure⟩ := leads_bind.mp hlast
      obtain ⟨heq, rfl⟩ := leads_pure.mp hpure
      cases heq
      obtain ⟨hlength, hreads⟩ := rereads_operand hlength
      have hanswer' := leads_query.mp hcolon
      have hmeets : a₂.Meets false ':' := by
        obtain ⟨t, ht, -⟩ := Query.mark_some.mp hanswer'
        exact meets_of_takeAt hmode ht
      have hmark' := rereads_mark (x := ':') rfl (by decide) hanswer' (.inr ⟨rfl, by rw [hmode]; nofun, rfl⟩)
      refine reforms_of hmode (k := 1) (' ' :: (offset.printed ++ ([' ', ':', ' '] ++ length.printed)))
        (by decide) rfl ?_ halike (by decide) (hdefault _) ?_
      · simp [Node.printed, hlength]
      · refine .of_text (rereads_bind hmark (rereads_bind hoffset (rereads_bind hmark'
          (rereads_bind hreads rereads_pure ?_) fun _ _ => id) ?_) fun _ _ => id) ?_
        · rintro _ ⟨rest, rfl⟩ -
          exact hbrace.arith (by decide : ('}', Kind.rbrace) ∈ arithStops) (.inr ⟨rfl, by decide⟩)
        · rintro more - -
          exact hmeets.arith (by decide : (':', Kind.colon) ∈ arithStops) (.inl rfl)
        · simp

/-- An anchor is taken again, or again it is not. -/
theorem rereads_anchor {o : Option Text} (h : (Reader.accept .anchor).LeadsBy Reprinted c a o a₁) :
    (Reader.accept .anchor).Rereads c a.Alike (o.getD []) a₁.Alike a o a₁ := by
  cases o with
  | none =>
    obtain ⟨rfl, hmissed⟩ := rereads_missed hmode (by decide) (leads_query.mp h)
    exact hmissed
  | some body => exact rereads_found hmode (by decide) (leads_query.mp h)

theorem reforms_replacement (h : (Reader.replacementForm ref name).LeadsBy Reprinted c a (some form) a')
    (hbrace : a'.Meets (!form.blankBeforeBrace) '}') : Reforms c ref name 5 a form a' := by
  obtain ⟨o, a₁, hslash, hrest⟩ := leads_bind.mp h
  cases o with
  | none => cases (leads_pure.mp hrest).1
  | some slash =>
    obtain ⟨anchor, a₂, hanchor, hbehind⟩ := leads_bind.mp hrest
    obtain ⟨pattern, a₃, hpattern, hbehind'⟩ := leads_bind.mp hbehind
    obtain ⟨o, a₄, hslash', hlast⟩ := leads_bind.mp hbehind'
    clear hrest hbehind hbehind'
    have hanswer := leads_query.mp hslash
    have halike : a.Alike ['/'] := (meets_of_mark hmode rfl hanswer).alike
    obtain rfl : _ = ['/'] := body_of_mark rfl hanswer
    have hmark := rereads_mark (x := '/') rfl (by decide) hanswer (.inl rfl)
    have hanchor := rereads_anchor hmode hanchor
    have hpattern := rereads_payload rfl rfl hpattern
    have hmarks : ∀ inner more : Text, ∀ shape ∈ introducers.take 4,
        shape.pattern.reach? ('/' :: inner ++ more) = none :=
      fun _ _ => unmarked (by decide) _
    cases o with
    | none =>
      obtain ⟨-, rfl⟩ := Query.mark_none.mp (leads_query.mp hslash')
      obtain ⟨heq, rfl⟩ := leads_pure.mp hlast
      cases heq
      refine reforms_of hmode (k := 4) (anchor.getD [] ++ pattern.printed) (by decide) rfl ?_ halike
        (by decide) (hmarks _) ?_
      · simp [Node.printed, Node.printedOpt]
      · refine .of_text (rereads_bind hmark (rereads_bind hanchor (rereads_bind hpattern
          (rereads_bind (rereads_ended (by decide)) rereads_pure fun _ _ => id) ?_) fun _ _ => id) fun _ _ _ => trivial) ?_
        · rintro _ ⟨more, rfl⟩ -
          exact hbrace.payload rfl rfl (fun _ => rfl) rfl (by decide) (by decide)
        · simp
    | some slash' =>
      obtain ⟨replace, a₅, hreplace, hpure⟩ := leads_bind.mp hlast
      obtain ⟨heq, rfl⟩ := leads_pure.mp hpure
      cases heq
      have hanswer' := leads_query.mp hslash'
      have hmeets := meets_of_mark hmode (x := '/') rfl hanswer'
      have hmark' := rereads_mark (x := '/') rfl (by decide) hanswer' (.inl rfl)
      have hreplace := rereads_payload rfl rfl hreplace
      refine reforms_of hmode (k := 4) (anchor.getD [] ++ (pattern.printed ++ (['/'] ++ replace.printed)))
        (by decide) rfl ?_ halike (by decide) (hmarks _) ?_
      · simp [Node.printed, Node.printedOpt]
      · refine .of_text (rereads_bind hmark (rereads_bind hanchor (rereads_bind hpattern (rereads_bind hmark'
          (rereads_bind hreplace rereads_pure ?_) fun _ _ _ => trivial) ?_) fun _ _ => id) fun _ _ _ => trivial) ?_
        · rintro _ ⟨more, rfl⟩ -
          exact hbrace.payload rfl rfl (fun _ => rfl) rfl (by decide) (by decide)
        · rintro more - -
          exact hmeets.payload rfl rfl (fun _ => rfl) rfl (by decide) (by decide)
        · simp

theorem reforms_at (h : (Reader.atForm ref name).LeadsBy Reprinted c a (some form) a')
    (hbrace : a'.Meets (!form.blankBeforeBrace) '}') : Reforms c ref name 6 a form a' := by
  obtain ⟨o, a₁, hat, hrest⟩ := leads_bind.mp h
  cases o with
  | none => cases (leads_pure.mp hrest).1
  | some body =>
    obtain ⟨o, a₂, htransform, hlast⟩ := leads_bind.mp hrest
    clear hrest
    have hanswer := leads_query.mp hat
    have halike : a.Alike ['@'] := (meets_of_mark hmode rfl hanswer).alike
    have hmark := rereads_mark (x := '@') rfl (by decide) hanswer (.inl rfl)
    have hmarks : ∀ inner more : Text, ∀ shape ∈ introducers.take 5,
        shape.pattern.reach? ('@' :: inner ++ more) = none :=
      fun _ _ => unmarked (by decide) _
    cases o with
    | none =>
      obtain ⟨form', a₃, hmatching, hpure⟩ := leads_bind.mp hlast
      obtain ⟨heq, rfl⟩ := leads_pure.mp hpure
      cases heq
      obtain ⟨rfl, rfl, rfl, hagain⟩ := leads_matchingNames hmatching
      obtain ⟨-, rfl⟩ := Query.mark_none.mp (leads_query.mp htransform)
      refine reforms_of hmode (k := 5) [] (by decide) rfl ?_ halike (by decide) (hmarks _) ?_
      · simp [Node.printed]
      · refine rereads_bind hmark (rereads_behind (rereads_ended (by decide)) (.of_stay fun more hmore =>
          ⟨hmore, fun b _ _ => leads_bind.mpr ⟨_, b, hagain b, rfl, rfl⟩⟩)) fun _ _ _ => trivial
    | some op =>
      obtain ⟨heq, rfl⟩ := leads_pure.mp hlast
      cases heq
      have hop := rereads_found hmode (by decide) (leads_query.mp htransform)
      refine reforms_of hmode (k := 5) op (by decide) rfl ?_ halike (by decide) (hmarks _) ?_
      · simp [Node.printed]
      · refine .of_text (rereads_bind hmark (rereads_bind hop rereads_pure ?_) fun _ _ _ => trivial) ?_
        · rintro _ ⟨rest, rfl⟩ -
          exact hbrace.alike
        · simp

theorem reforms_star (h : (Reader.starForm ref name).LeadsBy Reprinted c a (some form) a') :
    Reforms c ref name 7 a form a' := by
  obtain ⟨o, a₁, hstar, hrest⟩ := leads_bind.mp h
  cases o with
  | none => cases (leads_pure.mp hrest).1
  | some body =>
    obtain ⟨form', a₂, hmatching, hpure⟩ := leads_bind.mp hrest
    obtain ⟨heq, rfl⟩ := leads_pure.mp hpure
    cases heq
    obtain ⟨rfl, rfl, rfl, hagain⟩ := leads_matchingNames hmatching
    have hanswer := leads_query.mp hstar
    have halike : a.Alike ['*'] := (meets_of_mark hmode rfl hanswer).alike
    have hmark := rereads_mark (x := '*') rfl (by decide) hanswer (.inl rfl)
    refine reforms_of hmode (k := 6) [] (by decide) rfl ?_ halike (by decide) (fun _ => unmarked (by decide) _) ?_
    · simp [Node.printed]
    · refine rereads_bind hmark (.of_stay fun more _ => ⟨trivial, fun b _ _ => ?_⟩)
        fun _ _ _ => trivial
      exact leads_bind.mpr ⟨_, b, hagain b, rfl, rfl⟩

theorem reforms_element (h : (Reader.elementForm ref name).LeadsBy Reprinted c a (some form) a') :
    Reforms c ref name 8 a form a' := by
  obtain ⟨o, a₁, hnext, hrest⟩ := leads_bind.mp h
  cases o with
  | none => cases (leads_pure.mp hrest).1
  | some l =>
    obtain ⟨subscript, a₂, hsubscript, hlast⟩ := leads_bind.mp hrest
    obtain ⟨⟨⟩, a₃, hclose, hpure⟩ := leads_bind.mp hlast
    obtain ⟨heq, rfl⟩ := leads_pure.mp hpure
    cases heq
    clear hrest hlast hpure
    have hanswer := leads_query.mp hnext
    have hclosing := leads_query.mp hclose
    obtain ⟨t, ht, hwants, rfl, rfl⟩ := Query.take_some.mp hanswer
    have hkind : t.kind = .lbracket := kind_of_wants hwants
    have hbody : t.body = ['['] := body_of_spelling (Context.token?_eq_some.mp ht) (by rw [hkind]; rfl)
    have hopened : (Reader.next [.lbracket]).Rereads c (c.Again [] a) ([] ++ t.lexeme.body)
        (fun more => ∃ rest, more = ' ' :: rest) a (some t.lexeme) t.after := by
      refine rereads_take_opener hanswer c.spaces_nil (fun _ => rfl)
        (by rw [show t.lexeme.kind = .lbracket from hkind]; decide) ?_
      rintro _ ⟨rest, rfl⟩
      rw [hmode, show t.lexeme.kind = .lbracket from hkind, show t.lexeme.body = ['['] from hbody]
      rfl
    obtain ⟨-, hsubscript⟩ := rereads_operand hsubscript
    have hclosed := rereads_close hclosing (.inr ⟨rfl, by rw [hmode]; nofun, rfl⟩)
    refine ⟨'[', ' ' :: (subscript.printed ++ [' ', ']']), _, rfl, ?_, ?_, by decide, fun b more hb => ?_, ?_⟩
    · simp [Node.printed]
    · rw [Scan.Alike, param_front ht (blank_of_param hmode hwants), hbody]
      rfl
    · obtain ⟨u, hu, hlbracket, -⟩ := token_of_fit hmode hb (by decide) rfl
      exact leads_before (k := 7) (by decide) hb (by decide) hu (by rw [hlbracket]; decide)
        (unmarked (by decide) _)
    · refine .of_text (.mono (rereads_bind hopened (rereads_bind hsubscript (rereads_bind hclosed rereads_pure
        fun _ _ _ => trivial) ?_) ?_) (fun _ _ _ => trivial) fun _ => id) ?_
      · rintro more - -
        obtain ⟨u, hu, -⟩ := Query.close_iff.mp hclosing
        exact (meets_of_takeAt hmode hu).arith (by decide : (']', Kind.rbracket) ∈ arithStops) (.inl rfl)
      · rintro more - -
        exact ⟨_, rfl⟩
      · rw [Token.lexeme, hbody]
        simp [Closing.text]

/-- What is behind the name of an expansion is read again in front of its brace. -/
theorem rereads_forms {o : Option Form} (h : (Reader.firstOf (Reader.forms ref name)).LeadsBy Reprinted c a o a')
    (hform : form = o.getD ⟨.param ref name, false⟩) (hbrace : a'.Meets (!form.blankBeforeBrace) '}') :
    ∃ inner, form.node.printed = printedBraces ref name inner ∧
      (Reader.firstOf (Reader.forms ref name)).Rereads c
        (fun more => a.Alike more ∧ ∀ ch ∈ more.head?, Text.isNameRest ch = false) inner
        (fun more => ∃ rest, more = '}' :: rest) a o a' := by
  obtain ⟨rfl, rfl⟩ | ⟨i, f, y, hi, rfl, hf⟩ := firstOf_cases forms_stay h
  · rw [Option.getD_none] at hform
    subst hform
    refine ⟨[], rfl, .of_stay fun more hmore => ?_⟩
    obtain ⟨rest, rfl⟩ := hmore
    refine ⟨⟨hbrace.alike, by rintro _ ⟨⟩; decide⟩, fun b hb _ => leads_firstOf_none fun g hg => ?_⟩
    obtain ⟨t, ht, hkind⟩ := token_of_mark hmode hb (by decide) (by decide)
    rw [forms_eq, ← List.cons_append, List.mem_append, List.mem_singleton] at hg
    obtain hg | rfl := hg
    · exact leads_before (show 7 ≤ 7 by decide) hb (by decide) ht
        (fun hmem => hkind (List.mem_of_mem_take (i := 2) hmem)) (unmarked (by decide) _) g hg
    · refine leads_bind.mpr ⟨none, b, leads_unwanted ht (List.cons_ne_nil _ _) fun hmem => ?_, rfl, rfl⟩
      exact hkind (List.mem_cons_of_mem _ (List.mem_cons_of_mem _ hmem))
  · rw [Option.getD_some] at hform
    subst hform
    have hreforms : Reforms c ref name i a form a' := by
      match i with
      | 0 => obtain rfl := Option.some.inj hi; exact reforms_elements hmode hf
      | 1 => obtain rfl := Option.some.inj hi; exact reforms_default hmode hf hbrace
      | 2 => obtain rfl := Option.some.inj hi; exact reforms_substring hmode hf hbrace
      | 3 => obtain rfl := Option.some.inj hi; exact reforms_removal hmode hf hbrace
      | 4 => obtain rfl := Option.some.inj hi; exact reforms_case hmode hf hbrace
      | 5 => obtain rfl := Option.some.inj hi; exact reforms_replacement hmode hf hbrace
      | 6 => obtain rfl := Option.some.inj hi; exact reforms_at hmode hf hbrace
      | 7 => obtain rfl := Option.some.inj hi; exact reforms_star hmode hf
      | 8 => obtain rfl := Option.some.inj hi; exact reforms_element hmode hf
      | i + 9 => cases hi
    obtain ⟨x, inner, g, hg, hprinted, halike, hrest, hbefore, hreads⟩ := hreforms
    obtain rfl := Option.some.inj (hi.symm.trans hg)
    refine ⟨x :: inner, hprinted, fun more hmore => ?_⟩
    obtain ⟨-, hagain⟩ := hreads more hmore
    refine ⟨⟨halike, by rintro _ ⟨⟩; exact hrest⟩, fun b hb hlevel => ?_⟩
    obtain ⟨b', hlead, hb', hlevel'⟩ := hagain b hb hlevel
    exact ⟨b', leads_firstOf_at hi (hbefore b more hb) hlead, hb', hlevel'⟩

/-- What is read behind the head of an expansion. -/
def Reader.behindHead (r : Head) : Reader Form :=
  if r.length then pure ⟨.paramLength r.ref r.name, false⟩
  else do pure ((← Reader.firstOf (Reader.forms r.ref r.name)).getD ⟨.param r.ref r.name, false⟩)

/-- What is read behind the form of an expansion. -/
def Reader.behindForm (form : Form) : Reader (List Node) :=
  if form.blankBeforeBrace then do Reader.close .brace true; pure [form.node]
  else do let _ ← Reader.expect [.rbrace]; pure [form.node]

theorem rereads_behindHead {r : Head} (h : (Reader.behindHead r).LeadsBy Reprinted c a form a')
    (hbrace : a'.Meets (!form.blankBeforeBrace) '}') :
    ∃ inner, form.node.printed =
        ['$', '{'] ++ ((if r.length then ['#'] else []) ++ (bangMark r.ref ++ r.name) ++ inner ++ ['}']) ∧
      (Reader.behindHead r).Rereads c (fun more => a.Alike more ∧ ∀ ch ∈ more.head?, Text.isNameRest ch = false)
        inner (fun more => ∃ rest, more = '}' :: rest) a form a' := by
  cases hlength : r.length with
  | true =>
    simp only [Reader.behindHead, hlength, if_true] at h ⊢
    obtain ⟨rfl, rfl⟩ := leads_pure.mp h
    refine ⟨[], by simp [Node.printed], rereads_pure.mono ?_ fun _ => id⟩
    rintro _ ⟨rest, rfl⟩ -
    exact ⟨hbrace.alike, by rintro _ ⟨⟩; decide⟩
  | false =>
    simp only [Reader.behindHead, hlength, Bool.false_eq_true, if_false] at h ⊢
    obtain ⟨o, a₂, hforms, hpure⟩ := leads_bind.mp h
    obtain ⟨rfl, rfl⟩ := leads_pure.mp hpure
    obtain ⟨inner, hprinted, hforms⟩ := rereads_forms hmode hforms rfl hbrace
    refine ⟨inner, ?_, .of_text (rereads_bind hforms rereads_pure fun _ _ => id) (List.append_nil _).symm⟩
    rw [hprinted]
    simp [printedBraces]

/-- What stands between `${` and its brace is read again. -/
theorem rereads_parameterBody (h : Reader.parameterBody.LeadsBy Reprinted c a form a')
    (hbrace : a'.Meets (!form.blankBeforeBrace) '}') :
    ∃ text, form.node.printed = ['$', '{'] ++ (text ++ ['}']) ∧
      Reader.parameterBody.Rereads c (fun _ => True) text (fun more => ∃ rest, more = '}' :: rest) a form a' := by
  obtain ⟨r, a₁, hhead, hrest⟩ := leads_bind.mp h
  have hhead := rereads_namedHead hmode hhead
  obtain ⟨inner, hprinted, hbehind⟩ := rereads_behindHead hmode hrest hbrace
  exact ⟨_, hprinted, (rereads_bind hhead hbehind fun _ _ => id).mono (fun _ _ _ => trivial) fun _ => id⟩

/-- The brace behind a form is read again. -/
theorem rereads_behindForm (h : (Reader.behindForm form).LeadsBy Reprinted c a ns a') :
    ns = [form.node] ∧ a.Meets (!form.blankBeforeBrace) '}' ∧
      (Reader.behindForm form).Rereads c (fun more => ∃ rest, more = '}' :: rest) ['}'] (fun _ => True) a ns a' := by
  cases hblank : form.blankBeforeBrace with
  | false =>
    simp only [Reader.behindForm, hblank, Bool.false_eq_true, if_false] at h ⊢
    obtain ⟨l, a₂, hbrace, hpure⟩ := leads_bind.mp h
    obtain ⟨rfl, rfl⟩ := leads_pure.mp hpure
    obtain ⟨hmeets, hbrace⟩ := rereads_brace hmode hbrace
    refine ⟨rfl, hmeets, .mono (rereads_bind hbrace rereads_pure fun _ _ => id) ?_ fun _ => id⟩
    exact fun more _ _ => ⟨more, rfl⟩
  | true =>
    simp only [Reader.behindForm, hblank, if_true] at h ⊢
    obtain ⟨⟨⟩, a₂, hclose, hpure⟩ := leads_bind.mp h
    obtain ⟨rfl, rfl⟩ := leads_pure.mp hpure
    have hanswer := leads_query.mp hclose
    obtain ⟨t, ht, -⟩ := Query.close_iff.mp hanswer
    have hbrace := rereads_close hanswer (.inl rfl)
    refine ⟨rfl, meets_of_takeAt hmode ht, .mono (rereads_bind hbrace rereads_pure fun _ _ => id) ?_ fun _ => id⟩
    exact fun more _ _ => ⟨more, rfl⟩

end Forms

theorem Production.Reprints.braced (hmode : c.mode = ⟨.param, false⟩)
    (h : Production.braced.body.LeadsBy Reprinted c a ns a') : Production.braced.Reprints c a ns a' := by
  obtain ⟨form, a₁, hform, hrest⟩ := leads_bind.mp h
  obtain ⟨rfl, hmeets, hend⟩ := rereads_behindForm hmode hrest
  obtain ⟨text, hprinted, hbody⟩ := rereads_parameterBody hmode hform hmeets
  refine ⟨text ++ ['}'], by rw [Node.printedAll_singleton, hprinted], rereads_body ?_⟩
  exact rereads_bind hbody hend fun _ _ => id

end ShellGrammar
