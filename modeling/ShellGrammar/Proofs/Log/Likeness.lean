import ShellGrammar.Proofs.Log.Heeded
import ShellGrammar.Proofs.Reader.Tail
import ShellGrammar.Proofs.Rules.Reblank

/-! Questions that have the same answer elsewhere.

Places of two texts are alike if rules and shapes tell the same there of the token that is taken next
(`Likeness`). A question that looks at nothing but what is taken has the same answer at both, and if
the places behind what it takes are alike again, a log of such questions guides both texts
(`Likeness.guides`). -/
namespace ShellGrammar
open Grammar ParseM Rules

/-! ### The same ahead -/

/-- At two places stands the same. If it is not nothing, a comment may start at both or at
neither. -/
structure Scan.Same (a b : Scan) : Prop where
  rest : b.rest = a.rest
  boundary : a.rest ≠ [] → commentMayStart 0 b = commentMayStart 0 a

namespace Scan.Same
variable {a b : Scan} {rules : Rules} {t : Token} (h : a.Same b)
include h

theorem skipLength : rules.skipLength b = rules.skipLength a := by
  by_cases hnil : a.rest = []
  · have hzero : ∀ s : Scan, s.rest = [] → rules.skipLength s = 0 := by
      intro s hs
      have hle := skipLength_le rules s
      rw [hs] at hle
      exact Nat.le_zero.mp hle
    rw [hzero a hnil, hzero b (h.rest.trans hnil)]
  · have hmay : ∀ n, commentMayStart n b = commentMayStart n a := by
      intro n
      cases n with
      | zero => exact h.boundary hnil
      | succ n => rfl
    simp only [Rules.skipLength, h.rest, hmay]

theorem tokenAt (ht : rules.tokenAt a = .ok t) : rules.tokenAt b = .ok (t.at b) := by
  have hcut : ∀ kind skip length, cut kind skip length b = (cut kind skip length a).at b := by
    intro kind skip length
    simp only [cut, Token.at, h.rest]
  obtain ⟨hnil, rfl⟩ | ⟨kind, length, hfit, rfl⟩ := tokenAt_cases ht
  · simp only [Rules.tokenAt, h.skipLength, h.rest, hnil, hcut]
  · rw [← hcut, ← h.skipLength]
    rw [← h.skipLength, ← h.rest] at hfit
    exact tokenAt_of_fit hfit

theorem takeAt (pattern : Pattern) (kind : Kind) (allowBlank : Bool) :
    rules.takeAt pattern kind allowBlank b =
      (rules.takeAt pattern kind allowBlank a).map (·.at b) := by
  simp only [Rules.takeAt, h.rest]
  split
  · rfl
  · rw [Option.map_map]
    refine congrArg (Option.map · _) (funext fun length => ?_)
    simp only [Function.comp, cut, Token.at, h.rest]

theorem after (hfits : t.Fits) (ht : t.origin = a) : t.after.Same (t.at b).after := by
  subst ht
  by_cases hnil : t.origin.rest = []
  · refine ⟨?_, fun hne => absurd ?_ hne⟩
    · simp only [Token.after, Scan.rest_forward, Token.at, h.rest]
    · rw [Token.after, Scan.rest_forward, hnil, List.drop_nil]
  · have hahead : t.origin.Ahead [] b := ⟨by rw [h.rest, List.append_nil], h.boundary hnil⟩
    have hafter := hahead.after hfits
    exact ⟨by rw [hafter.rest, List.append_nil], fun _ => hafter.boundary⟩

end Scan.Same

/-- Behind a token with text, that text tells whether a comment may start. -/
theorem Token.commentMayStart_after {t : Token} (hfits : t.Fits) (hbody : t.body ≠ []) :
    commentMayStart 0 t.after = (t.body.getLast?.map isBoundary).getD true := by
  have hpos := List.length_pos_iff.mpr hbody
  have hle := hfits.length_le
  rw [Token.text, List.length_append] at hle
  obtain ⟨n, hn⟩ := Nat.exists_eq_succ_of_ne_zero (show t.blank.length + t.body.length ≠ 0 by omega)
  have hlast := commentMayStart_forward (s := t.origin) (n := n) (by omega)
  rw [← Nat.succ_eq_add_one, ← hn, take_of_fits hfits, Token.text, List.getLast?_append,
    List.getLast?_eq_some_getLast hbody, Option.some_or, ← List.getLast?_eq_some_getLast hbody] at hlast
  exact hlast

namespace Rules
variable {rules : Rules} {y t : Token}

theorem body_ne_of_tokenAt {a : Scan} (ht : rules.tokenAt a = .ok t) (hkind : t.kind ≠ .eos) :
    t.body ≠ [] := by
  obtain ⟨-, rfl⟩ | ⟨kind, length, hfit, rfl⟩ := tokenAt_cases ht
  · exact absurd rfl hkind
  · refine List.ne_nil_of_length_pos ?_
    rw [(length_cut kind hfit).2]
    exact firstFit_pos hfit

/-- Behind a token without text nothing is left. -/
theorem rest_after_empty (ht : rules.tokenAt y.origin = .ok y) (hbody : y.body = []) : y.after.rest = [] := by
  by_cases hkind : y.kind = .eos
  · exact rest_after_eos ht hkind
  · exact absurd hbody (body_ne_of_tokenAt ht hkind)

/-- The token where a name starts among commands. -/
theorem tokenAt_of_name {a : Scan} {blank body more : Text} {c : Char} (hrest : a.rest = blank ++ (body ++ more))
    (hblank : command.blankLength a.rest = blank.length) (hstart : body.head? = some c)
    (hname : Text.isNameStart c = true) :
    ∃ t, command.tokenAt a = .ok t ∧ t.kind = .str ∧ t.blank = blank ∧ t.body ≠ ['!'] := by
  obtain ⟨t, ht, hkind, htblank, hbody⟩ := tokenAt_name hname (a := a) (by
    rw [hblank, hrest, List.drop_left, List.head?_append, hstart]
    rfl)
  refine ⟨t, ht, hkind, ?_, ?_⟩
  · rw [htblank, hblank, hrest, List.take_left]
  · intro hbang
    rw [hbang] at hbody
    cases hbody
    revert hname
    decide

namespace Shows

/-- A token that rules show has text if it is not the end of the source. -/
theorem body_ne (h : rules.Shows y) (hmore : y.after.rest ≠ []) : y.body ≠ [] := by
  intro hnil
  cases h with
  | same h => exact hmore (rest_after_empty h hnil)
  | part h _ hlength hkind =>
    rw [hnil] at hlength
    refine body_ne_of_tokenAt h ?_ (List.eq_nil_of_length_eq_zero (Nat.le_zero.mp hlength))
    intro heos
    exact hkind (List.mem_cons_of_mem _ (List.mem_cons_of_mem _ (List.mem_singleton.mpr heos)))
  | name _ _ hstart _ =>
    rw [hnil] at hstart
    cases hstart

/-- A name among commands is taken off bare text. -/
theorem front_of_name {c : Char} (hfits : y.Fits)
    (hblank : y.blank = y.origin.rest.take (command.blankLength y.origin.rest))
    (hstart : y.body.head? = some c) (hname : Text.isNameStart c = true) :
    ∃ t, command.tokenAt y.origin = .ok t ∧ t.kind = .str ∧ t.blank = y.blank ∧ t.body ≠ ['!'] := by
  have hrest : y.origin.rest = y.blank ++ (y.body ++ y.after.rest) := by
    rw [Token.rest_origin hfits, Token.text, List.append_assoc]
  refine tokenAt_of_name hrest ?_ hstart hname
  have hlength := congrArg List.length hblank
  rw [List.length_take_of_le (blankLength_le _ _)] at hlength
  exact hlength.symm

/-- The rules that show a token make something of its place. -/
theorem tokenAt (h : rules.Shows y) (hfits : y.Fits) : ∃ t, rules.tokenAt y.origin = .ok t := by
  cases h with
  | same h => exact ⟨y, h⟩
  | part h => exact ⟨_, h⟩
  | name hrules hblank hstart hname =>
    subst hrules
    obtain ⟨t, ht, -⟩ := front_of_name hfits hblank hstart hname
    exact ⟨t, ht⟩

/-- Only the token itself can be shown as a name or as a `!`. -/
theorem eq_of_first (h : rules.Shows y) (hfits : y.Fits) (ht : rules.tokenAt y.origin = .ok t)
    (hkind : t.kind = .ident ∨ (t.kind = .str ∧ t.body = ['!'])) : t = y := by
  cases h with
  | same h =>
    rw [h] at ht
    exact (Except.ok.inj ht).symm
  | part h _ _ hno =>
    rw [h] at ht
    cases ht
    refine absurd ?_ hno
    rcases hkind with hkind | ⟨hkind, -⟩ <;> rw [hkind] <;> decide
  | name hrules hblank hstart hname =>
    subst hrules
    obtain ⟨u, hu, hstr, -, hbang⟩ := front_of_name hfits hblank hstart hname
    rw [hu] at ht
    cases ht
    rcases hkind with hident | ⟨-, hbody⟩
    · cases hstr.symm.trans hident
    · exact absurd hbody hbang

end Shows

end Rules

/-- What tokens laid end to end start from is their text and the rest. -/
theorem Tiles.rest {s e : Scan} {ts : List Token} (h : Tiles s ts e) :
    s.rest = ts.flatMap Token.text ++ e.rest := by
  induction ts generalizing s with
  | nil =>
    subst h
    rfl
  | cons t ts ih =>
    obtain ⟨rfl, hfits, h⟩ := h
    rw [Token.rest_origin hfits, ih h, List.flatMap_cons, List.append_assoc]

theorem Tiles.rest_nil {s e : Scan} {ts : List Token} {t : Token} (h : Tiles s ts e) (ht : t ∈ ts)
    (hnil : t.after.rest = []) : e.rest = [] := by
  induction ts generalizing s with
  | nil => cases ht
  | cons t' ts ih =>
    obtain ⟨-, -, h⟩ := h
    rcases List.mem_cons.mp ht with rfl | ht
    · exact (List.append_eq_nil_iff.mp (h.rest.symm.trans hnil)).2
    · exact ih h ht

theorem Tiles.before {s e : Scan} {ts : List Token} (h : Tiles s ts e) :
    e.before.reverse = s.before.reverse ++ ts.flatMap Token.text := by
  induction ts generalizing s with
  | nil =>
    subst h
    simp
  | cons t ts ih =>
    obtain ⟨rfl, hfits, h⟩ := h
    rw [ih h, Token.before_after hfits, List.flatMap_cons, List.append_assoc]

namespace Rules
variable {rules : Rules} {y t : Token} {a : Scan} {pattern : Pattern} {kind : Kind} {allowBlank : Bool}

/-- What a shape takes stands behind all blank there is. -/
theorem takeAt_front (h : rules.takeAt pattern kind allowBlank a = some t) :
    rules.blankLength a.rest = t.blank.length ∧ t.body ≠ [] ∧
      pattern.reach? (t.body ++ t.after.rest) = some t.body.length := by
  obtain ⟨horigin, hfits⟩ := takeAt_fits h
  obtain ⟨n, hreach, heq⟩ := takeAt_cases h
  have hblank : t.blank.length = rules.blankLength a.rest := by
    rw [heq]
    exact List.length_take_of_le (blankLength_le _ _)
  obtain ⟨hn, hpos⟩ := Pattern.reach?_eq_some_iff.mp hreach
  have hbody : t.body.length = n := by
    rw [heq]
    exact List.length_take_of_le (Pattern.reach_le hn)
  have hrest : a.rest = t.blank ++ (t.body ++ t.after.rest) := by
    rw [← horigin, Token.rest_origin hfits, Token.text, List.append_assoc]
  rw [← hblank, hrest, List.drop_left, ← hbody] at hreach
  refine ⟨hblank.symm, List.ne_nil_of_length_pos (by omega), hreach⟩

theorem takeAt_eq_none : rules.takeAt pattern kind allowBlank a = none ↔
    (0 < rules.blankLength a.rest ∧ allowBlank = false) ∨
      pattern.reach? (a.rest.drop (rules.blankLength a.rest)) = none := by
  rw [takeAt]
  by_cases h : (decide (0 < rules.blankLength a.rest) && !allowBlank) = true
  · simp only [h, if_true, true_iff]
    left
    simpa using h
  · simp only [h, Bool.false_eq_true, if_false, Option.map_eq_none_iff]
    simp only [Bool.and_eq_true, decide_eq_true_eq, Bool.not_eq_true'] at h
    simp only [h, false_or]

/-- The blank that rules show in front of a token is all blank there is, or it ends in a comment. -/
theorem Shows.blank_cases (h : rules.Shows y) :
    rules.blankLength y.origin.rest = y.blank.length ∨
      (rules.EndsInComment y.origin ∧ rules.skipLength y.origin = y.blank.length) := by
  have hskip : ∀ {t : Token}, rules.tokenAt y.origin = .ok t → t.blank.length = rules.skipLength y.origin := by
    intro t ht
    obtain ⟨-, rfl⟩ | ⟨_, _, -, rfl⟩ := tokenAt_cases ht <;>
      exact List.length_take_of_le (skipLength_le _ _)
  have hcases : ∀ {t : Token}, rules.tokenAt y.origin = .ok t → t.blank = y.blank →
      rules.blankLength y.origin.rest = y.blank.length ∨
        (rules.EndsInComment y.origin ∧ rules.skipLength y.origin = y.blank.length) := by
    intro t ht hblank
    rw [← hblank, hskip ht]
    exact (rules.skip_cases y.origin).imp Eq.symm fun hcomment => ⟨hcomment, rfl⟩
  cases h with
  | same ht => exact hcases ht rfl
  | part ht hblank => exact hcases ht hblank
  | name _ hblank =>
    refine .inl ?_
    rw [hblank, List.length_take_of_le (blankLength_le _ _)]

/-- One of some characters, with no blank in front of it, is there if the text starts with one. -/
theorem takeAt_oneOf {cs : Text} (hcs : ∀ ch ∈ cs, ch ∉ [' ', '\t', '\n', '\\']) {a : Scan} :
    rules.takeAt (.oneOf cs) kind false a = none ↔ ∀ ch ∈ a.rest.head?, ch ∉ cs := by
  rw [takeAt_eq_none]
  constructor
  · intro h ch hch hmem
    obtain ⟨rest, hrest⟩ := List.head?_eq_some_iff.mp hch
    have hzero : rules.blankLength a.rest = 0 := by
      rw [hrest]
      exact blankLength_cons_of_not_mem (hcs ch hmem) rest
    rw [hzero, hrest, List.drop_zero] at h
    obtain ⟨hpos, -⟩ | hnone := h
    · cases hpos
    · simp [Pattern.reach?, Pattern.oneOf, Pattern.reach, hmem] at hnone
  · intro h
    by_cases hzero : rules.blankLength a.rest = 0
    · right
      rw [hzero, List.drop_zero]
      cases hrest : a.rest with
      | nil => rfl
      | cons ch rest =>
        have hno := h ch (by rw [hrest]; rfl)
        simp [Pattern.reach?, Pattern.oneOf, Pattern.reach, hno]
    · exact .inl ⟨Nat.pos_of_ne_zero hzero, rfl⟩

/-- The shapes take no blank and nothing that ends a word. -/
theorem avoids_edges (shape : Shape) : ∀ ch ∈ Scan.edges, shape.pattern.avoids ch = true := by
  have hall : Scan.edges.all shape.pattern.avoids = true := by cases shape <;> rfl
  exact List.all_eq_true.mp hall

end Rules

/-! ### Tokens of a log -/

/-- What an answer takes is cut off by the table or is a shape. -/
theorem Query.Gives.cut {c : Context} {β : Type} {q : Query β} {o : β} {place place' : Scan}
    {ts : List Token} (h : q.Gives c place o ts place') {x : Token} (hx : x ∈ ts) :
    c.mode.rules.tokenAt x.origin = .ok x ∨
      ∃ pattern kind allowBlank, c.mode.rules.takeAt pattern kind allowBlank x.origin = some x := by
  have htoken : ∀ {place : Scan} {t : Token}, c.token? place = some t →
      c.mode.rules.tokenAt t.origin = .ok t := by
    intro place t ht
    have ht := Context.token?_eq_some.mp ht
    rwa [(Rules.tokenAt_fits ht).1]
  have hmark : ∀ {pattern : Pattern} {kind : Kind} {allowBlank : Bool} {place : Scan} {t : Token},
      c.mode.rules.takeAt pattern kind allowBlank place = some t →
      ∃ pattern kind allowBlank, c.mode.rules.takeAt pattern kind allowBlank t.origin = some t := by
    intro pattern kind allowBlank place t ht
    refine ⟨pattern, kind, allowBlank, ?_⟩
    rwa [(Rules.takeAt_fits ht).1]
  cases q with
  | take adjacent want =>
    obtain ⟨t, ht, ⟨-, -, rfl, -⟩ | ⟨-, -, rfl, -⟩⟩ := h
    · exact .inl (List.mem_singleton.mp hx ▸ htoken ht)
    · cases hx
  | peek want =>
    obtain ⟨_, -, -, rfl, -⟩ := h
    cases hx
  | mark shape pastBlank =>
    obtain ⟨t, ht, -, rfl, -⟩ | ⟨-, -, rfl, -⟩ := h
    · exact .inr (List.mem_singleton.mp hx ▸ hmark ht)
    · cases hx
  | close closing pastBlank =>
    obtain ⟨t, ht, rfl, -⟩ := h
    exact .inr (List.mem_singleton.mp hx ▸ hmark ht)
  | bang =>
    obtain ⟨t, ht, ⟨-, -, rfl, -⟩ | ⟨-, u, -, ⟨-, -, rfl, -⟩ | ⟨-, -, rfl, -⟩⟩⟩ := h
    · cases hx
    · cases hx
    · exact .inl (List.mem_singleton.mp hx ▸ htoken ht)
  | target =>
    obtain ⟨t, ht, ⟨-, -, rfl, -⟩ | ⟨-, u, hu, ⟨-, -, rfl, -⟩ | ⟨-, -, rfl, -⟩⟩⟩ := h
    · cases hx
    · cases hx
    · simp only [List.mem_cons, List.not_mem_nil, or_false] at hx
      rcases hx with rfl | rfl
      · exact .inl (htoken ht)
      · exact .inl (htoken hu)

theorem Answered.cut {as : List Asked} {place place' : Scan} (h : Answered as place place') {x : Token}
    (hx : x ∈ (takenIn as).map Taken.token) : ∃ rules : Rules, rules.tokenAt x.origin = .ok x ∨
      ∃ pattern kind allowBlank, rules.takeAt pattern kind allowBlank x.origin = some x := by
  induction as generalizing place with
  | nil => cases hx
  | cons a as ih =>
    obtain ⟨place₁, hgives, hrest⟩ := h
    rw [takenIn_cons, List.map_append, Asked.taken, List.map_map, List.mem_append] at hx
    obtain hx | hx := hx
    · exact ⟨_, hgives.cut (by simpa using hx)⟩
    · exact ih hrest hx

/-- Behind a token without text nothing is left. -/
theorem Rules.rest_of_body {rules : Rules} {x : Token}
    (h : rules.tokenAt x.origin = .ok x ∨
      ∃ pattern kind allowBlank, rules.takeAt pattern kind allowBlank x.origin = some x)
    (hbody : x.body = []) : x.after.rest = [] := by
  obtain h | ⟨pattern, kind, allowBlank, h⟩ := h
  · exact rest_after_empty h hbody
  · exact absurd hbody (takeAt_front h).2.1

/-! ### Alike -/

/-- The tokens of a log are those of its first answer and the others. -/
theorem tokens_cons (a : Asked) (as : List Asked) :
    (takenIn (a :: as)).map Taken.token = a.tokens ++ (takenIn as).map Taken.token := by
  rw [takenIn_cons, List.map_append, Asked.taken, List.map_map]
  exact congrArg (· ++ _) (List.map_id _)

/-- Two tokens that a question takes for the same behind another token. -/
structure Likens (c : Context) (u u' : Token) : Prop where
  piece : c.wants true (among (pieceStart c.inBackquote)) u' =
    c.wants true (among (pieceStart c.inBackquote)) u
  assignment : c.wants false (among assignmentOps) u' = c.wants false (among assignmentOps) u

theorem Likens.of_alike {c : Context} {u u' : Token} (h : u.Alike u') : Likens c u u' :=
  ⟨h.wants _ _, h.wants _ _⟩

/-- Places of two texts, from where on the tokens `ts` are taken in the one, of which rules and shapes
tell the same, and the places behind the first of the tokens. -/
structure Likeness (Here Behind : List Token → Scan → Scan → Prop) : Prop where
  stays : ∀ {ts : List Token} {a b : Scan}, Here ts a b → Behind ts a b
  shown : ∀ {rules : Rules} {y : Token} {ts : List Token} {b : Scan}, Here (y :: ts) y.origin b →
    y.Fits → rules.Shows y → ∃ t t', rules.tokenAt y.origin = .ok t ∧ rules.tokenAt b = .ok t' ∧
      t.Alike t' ∧ (t = y → t'.body = y.body ∧ Behind ts y.after t'.after)
  taken : ∀ {rules : Rules} {pattern : Pattern} {kind : Kind} {allowBlank : Bool} {y : Token}
    {ts : List Token} {b : Scan}, Here (y :: ts) y.origin b → y.Fits →
    (∀ ch ∈ Scan.edges, pattern.avoids ch = true) ∨ (∃ l, pattern = .lit l) →
    rules.takeAt pattern kind allowBlank y.origin = some y →
    ∃ y', rules.takeAt pattern kind allowBlank b = some y' ∧ y'.body = y.body ∧ Behind ts y.after y'.after
  missed : ∀ {rules : Rules} {pattern : Pattern} {kind : Kind} {allowBlank : Bool} {y : Token}
    {ts : List Token} {b : Scan}, Here (y :: ts) y.origin b → y.Fits →
    (∀ ch ∈ Scan.edges, pattern.avoids ch = true) →
    rules.takeAt pattern kind allowBlank y.origin = none → rules.Shows y →
    rules.takeAt pattern kind allowBlank b = none
  anchor : ∀ {rules : Rules} {kind : Kind} {y : Token} {ts : List Token} {b : Scan},
    Here (y :: ts) y.origin b → y.Fits →
    rules.takeAt Shape.anchor.pattern kind false y.origin = none → Rules.wordUntilSlash.Shows y →
    rules.takeAt Shape.anchor.pattern kind false b = none

/-- Where the second of the tokens is looked at, it is taken for the same. -/
def Likeness.Seconds (Behind : List Token → Scan → Scan → Prop) (c : Context) (xs : List Taken) : Prop :=
  ∀ y z more b, xs = y :: z :: more → y.kind = .str ∨ y.kind = .ident →
    Behind (z.token :: more.map Taken.token) z.token.origin b → z.token.Fits →
    c.mode.rules.Shows z.token →
    ∃ u u', c.mode.rules.tokenAt z.token.origin = .ok u ∧ c.mode.rules.tokenAt b = .ok u' ∧ Likens c u u' ∧
      (u = z.token → c.wants false (among assignmentOps) u = true →
        u'.body = u.body ∧ Behind (more.map Taken.token) u.after u'.after)

section Alike
variable {Here Behind : List Token → Scan → Scan → Prop} {c : Context} {a b e : Scan} {xs : List Taken}

/-- What rules make of the first of the tokens they show, in both texts. If it is a name or a `!`, it is
the first token, and the second is taken for the same. -/
theorem Likeness.looks (hlike : Likeness Here Behind) (h : Here (xs.map Taken.token) a b)
    (htiles : Tiles a (xs.map Taken.token) e) (hlooks : Looks c.mode.rules xs)
    (hsecond : Likeness.Seconds Behind c xs) :
    ∃ t t', c.mode.rules.tokenAt a = .ok t ∧ c.mode.rules.tokenAt b = .ok t' ∧ t.Alike t' ∧
      (∀ ts, xs.map Taken.token = t :: ts → t'.body = t.body ∧ Behind ts t.after t'.after) ∧
      (t.kind = .ident ∨ (t.kind = .str ∧ t.body = ['!']) →
        ∃ u u', c.mode.rules.tokenAt t.after = .ok u ∧ c.mode.rules.tokenAt t'.after = .ok u' ∧
          Likens c u u' ∧ t'.body = t.body ∧
          (c.wants false (among assignmentOps) u = true →
            ∀ ts, xs.map Taken.token = t :: u :: ts → u'.body = u.body ∧ Behind ts u.after u'.after)) := by
  cases xs with
  | nil => exact hlooks.elim
  | cons y later =>
    obtain ⟨hshows, hnext⟩ := hlooks
    obtain ⟨rfl, hfits, htiles⟩ := htiles
    obtain ⟨t, t', ht, ht', halike, hafter⟩ := hlike.shown h hfits hshows
    refine ⟨t, t', ht, ht', halike, ?_, fun hfirst => ?_⟩
    · intro ts hts
      obtain ⟨rfl, rfl⟩ := List.cons.inj hts
      exact hafter rfl
    · obtain rfl := hshows.eq_of_first hfits ht hfirst
      obtain ⟨hbody, hbehind⟩ := hafter rfl
      have hkind := hfirst.symm.imp And.left id
      obtain ⟨z, more, rfl, hz⟩ := hnext ht hkind
      obtain ⟨horigin, hzfits, -⟩ := htiles
      rw [← horigin] at hbehind ⊢
      obtain ⟨u, u', hu, hu', hlikens, hop⟩ := hsecond y z more _ rfl hkind hbehind hzfits hz
      refine ⟨u, u', hu, hu', hlikens, hbody, fun hwants ts hts => ?_⟩
      obtain ⟨heq, rfl⟩ := List.cons.inj (List.cons.inj hts).2
      exact hop heq.symm hwants

/-- A question that looks at nothing but what is taken is answered alike. -/
theorem Likeness.answer {β : Type} {q : Query β} {o : β} {taken ts : List Token} {a₁ : Scan}
    (hlike : Likeness Here Behind) (h : Here (xs.map Taken.token) a b)
    (htiles : Tiles a (xs.map Taken.token) e) (hts : xs.map Taken.token = taken ++ ts)
    (hgives : q.Gives c a o taken a₁) (hheeds : q.Heeds c taken xs)
    (hsecond : Likeness.Seconds Behind c xs) :
    ∃ b₁, q.answer c b = some (o, b₁) ∧ Behind ts a₁ b₁ := by
  have htoken : ∀ {t : Token} {place : Scan}, c.mode.rules.tokenAt place = .ok t → c.token? place = some t :=
    Context.token?_eq_some.mpr
  have hstay : taken = [] → Behind ts a b := by
    rintro rfl
    rw [hts] at h
    exact hlike.stays h
  have htaken : ∀ {pattern : Pattern} {kind : Kind} {allowBlank : Bool} {t : Token}, taken = [t] →
      (∀ ch ∈ Scan.edges, pattern.avoids ch = true) ∨ (∃ l, pattern = .lit l) →
      c.mode.rules.takeAt pattern kind allowBlank a = some t →
      ∃ t', c.mode.rules.takeAt pattern kind allowBlank b = some t' ∧ t'.body = t.body ∧
        Behind ts t.after t'.after := by
    intro pattern kind allowBlank t htaken hpattern ht
    subst htaken
    rw [hts] at h
    obtain ⟨rfl, hfits⟩ := takeAt_fits ht
    exact hlike.taken h hfits hpattern ht
  cases q with
  | take adjacent want =>
    obtain ⟨t, t', ht, ht', halike, hafter, -⟩ := hlike.looks h htiles hheeds hsecond
    obtain ⟨t₀, ht₀, hgives⟩ := hgives
    rw [htoken ht, Option.some.injEq] at ht₀
    subst ht₀
    obtain ⟨hwants, rfl, rfl, rfl⟩ | ⟨hwants, rfl, rfl, rfl⟩ := hgives
    · obtain ⟨hbody, hbehind⟩ := hafter ts hts
      refine ⟨_, Query.take_some.mpr ⟨t', htoken ht', halike.wants _ _ ▸ hwants, ?_, rfl⟩, hbehind⟩
      rw [Token.lexeme, Token.lexeme, halike.kind, hbody]
    · exact ⟨b, Query.take_none.mpr ⟨t', htoken ht', halike.wants _ _ ▸ hwants, rfl⟩, hstay rfl⟩
  | peek want =>
    obtain ⟨t, t', ht, ht', halike, -⟩ := hlike.looks h htiles hheeds hsecond
    obtain ⟨t₀, ht₀, rfl, rfl, rfl⟩ := hgives
    rw [htoken ht, Option.some.injEq] at ht₀
    subst ht₀
    exact ⟨b, Query.peek_iff.mpr ⟨t', htoken ht', halike.wants _ _, rfl⟩, hstay rfl⟩
  | mark shape pastBlank =>
    obtain ⟨t, ht, rfl, rfl, rfl⟩ | ⟨hnone, rfl, rfl, rfl⟩ := hgives
    · obtain ⟨t', ht', hbody, hbehind⟩ := htaken rfl (.inl (avoids_edges shape)) ht
      exact ⟨_, Query.mark_some.mpr ⟨t', ht', hbody.symm, rfl⟩, hbehind⟩
    · refine ⟨b, Query.mark_none.mpr ⟨?_, rfl⟩, hstay rfl⟩
      have hlooks := hheeds.resolve_left (· rfl)
      cases xs with
      | nil => exact (hlooks.elim id fun h => h.2.2).elim
      | cons y later =>
        obtain ⟨rfl, hfits, -⟩ := htiles
        obtain hlooks | ⟨hshape, hdeny, hlooks⟩ := hlooks
        · exact hlike.missed h hfits (avoids_edges shape) hnone hlooks.1
        · subst hshape
          rw [hdeny] at hnone ⊢
          exact hlike.anchor h hfits hnone hlooks.1
  | close closing pastBlank =>
    obtain ⟨t, ht, rfl, rfl⟩ := hgives
    obtain ⟨t', ht', -, hbehind⟩ := htaken rfl (.inr ⟨_, rfl⟩) ht
    exact ⟨_, Query.close_iff.mpr ⟨t', ht', rfl⟩, hbehind⟩
  | bang =>
    obtain ⟨t, t', ht, ht', halike, hafter, hnext⟩ := hlike.looks h htiles hheeds hsecond
    obtain ⟨t₀, ht₀, hgives⟩ := hgives
    rw [htoken ht, Option.some.injEq] at ht₀
    subst ht₀
    have hbang : (c.wants false (among [.str]) t' = true ∧ t'.body = ['!']) ↔
        c.wants false (among [.str]) t = true ∧ t.body = ['!'] := by
      rw [halike.wants, halike.bang]
    obtain ⟨hno, rfl, rfl, rfl⟩ | ⟨hyes, u₀, hu₀, hgives⟩ := hgives
    · exact ⟨b, Query.bang_iff.mpr ⟨t', htoken ht', .inl ⟨mt hbang.mp hno, rfl, rfl⟩⟩, hstay rfl⟩
    · obtain ⟨u, u', hu, hu', hlikens, -⟩ := hnext (.inr ⟨kind_of_wants hyes.1, hyes.2⟩)
      rw [htoken hu, Option.some.injEq] at hu₀
      subst hu₀
      obtain ⟨htouches, rfl, rfl, rfl⟩ | ⟨hfree, rfl, rfl, rfl⟩ := hgives
      · exact ⟨b, Query.bang_iff.mpr ⟨t', htoken ht', .inr ⟨hbang.mpr hyes, u', htoken hu',
          .inl ⟨hlikens.piece ▸ htouches, rfl, rfl⟩⟩⟩, hstay rfl⟩
      · exact ⟨_, Query.bang_iff.mpr ⟨t', htoken ht', .inr ⟨hbang.mpr hyes, u', htoken hu',
          .inr ⟨hlikens.piece ▸ hfree, rfl, rfl⟩⟩⟩, (hafter ts hts).2⟩
  | target =>
    obtain ⟨t, t', ht, ht', halike, -, hnext⟩ := hlike.looks h htiles hheeds hsecond
    obtain ⟨t₀, ht₀, hgives⟩ := hgives
    rw [htoken ht, Option.some.injEq] at ht₀
    subst ht₀
    obtain ⟨hno, rfl, rfl, rfl⟩ | ⟨hyes, u₀, hu₀, hgives⟩ := hgives
    · exact ⟨b, Query.target_iff.mpr ⟨t', htoken ht', .inl ⟨halike.wants _ _ ▸ hno, rfl, rfl⟩⟩, hstay rfl⟩
    · obtain ⟨u, u', hu, hu', hlikens, hbody, hop⟩ := hnext (.inl (kind_of_wants hyes))
      rw [htoken hu, Option.some.injEq] at hu₀
      subst hu₀
      obtain ⟨hno, rfl, rfl, rfl⟩ | ⟨hwants, rfl, rfl, rfl⟩ := hgives
      · exact ⟨b, Query.target_iff.mpr ⟨t', htoken ht', .inr ⟨halike.wants _ _ ▸ hyes, u', htoken hu',
          .inl ⟨hlikens.assignment ▸ hno, rfl, rfl⟩⟩⟩, hstay rfl⟩
      · obtain ⟨hbody', hbehind⟩ := hop hwants ts hts
        refine ⟨_, Query.target_iff.mpr ⟨t', htoken ht', .inr ⟨halike.wants _ _ ▸ hyes, u', htoken hu',
          .inr ⟨hlikens.assignment ▸ hwants, ?_, rfl⟩⟩⟩, hbehind⟩
        rw [hbody, hbody']

/-- Where all places behind are alike too, the second token is taken for the same. -/
theorem Likeness.seconds (hlike : Likeness Here Here) : Likeness.Seconds Here c xs := by
  intro y z more b hxs _ h hfits hz
  obtain ⟨u, u', hu, hu', halike, hafter⟩ := hlike.shown h hfits hz
  exact ⟨u, u', hu, hu', .of_alike halike, fun heq _ => heq ▸ hafter heq⟩

/-- A log whose questions look at nothing but what is taken guides both texts. -/
theorem Likeness.guides (hlike : Likeness Here Here) {as : List Asked}
    (h : Here ((takenIn as).map Taken.token) a b) (hanswered : Answered as a e) (hheeded : Heeded as) :
    ∃ e', Guides as b e' := by
  induction as generalizing a b with
  | nil => exact ⟨b, rfl⟩
  | cons q as ih =>
    have htiles := hanswered.tiles
    obtain ⟨a₁, hgives, hanswered⟩ := hanswered
    obtain ⟨b₁, hanswer, hbehind⟩ :=
      hlike.answer h htiles (tokens_cons q as) hgives hheeded.1 hlike.seconds
    obtain ⟨e', hguides⟩ := ih hbehind hanswered hheeded.2
    exact ⟨e', b₁, hanswer, hguides⟩

end Alike

/-- Where the same is ahead, the same is told of it. -/
theorem Scan.Same.likeness : Likeness (fun _ => Scan.Same) fun _ => Scan.Same where
  stays := id
  shown := by
    intro rules y ts b h hfits hshows
    obtain ⟨t, ht⟩ := hshows.tokenAt hfits
    refine ⟨t, t.at b, ht, h.tokenAt ht, .moved t b, ?_⟩
    rintro rfl
    exact ⟨rfl, h.after hfits rfl⟩
  taken := by
    intro rules pattern kind allowBlank y ts b h hfits _ hy
    exact ⟨y.at b, by rw [h.takeAt, hy]; rfl, rfl, h.after hfits rfl⟩
  missed := by
    intro rules pattern kind allowBlank y ts b h _ _ hnone _
    rw [h.takeAt, hnone]
    rfl
  anchor := by
    intro rules kind y ts b h _ hnone _
    rw [h.takeAt, hnone]
    rfl

end ShellGrammar
