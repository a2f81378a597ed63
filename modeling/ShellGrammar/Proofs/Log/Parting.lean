import ShellGrammar.Proofs.Log.Likeness
import ShellGrammar.Proofs.Log.Order

/-! Two texts that part.

Up to a place two texts are the same, and what stands there differs. In front of the place the rules
may still see what is behind it: bare text goes on, an operator gets longer, a backslash escapes. A
`Parting` is a place where they do not. Then places in front of it are alike in both texts
(`Parting.likeness`), and a log that ends at the place guides both up to there
(`Parting.Front.guides`). -/
namespace ShellGrammar
open Grammar ParseM Rules

/-! ### Tokens of a backslash -/

/-- The rule that makes a token describes its text alone. -/
theorem Rules.rule_of_tokenAt {rules : Rules} {a : Scan} {t : Token} (ht : rules.tokenAt a = .ok t)
    (hbody : t.body ≠ []) : ∃ r ∈ rules.set.rules, r.kind = t.kind ∧ r.pattern.reach? t.body ≠ none := by
  obtain ⟨-, rfl⟩ | ⟨kind, length, hfit, rfl⟩ := tokenAt_cases ht
  · exact absurd rfl hbody
  obtain ⟨r, hr, rfl, hreach⟩ := firstFit_mem hfit
  have hdenotes := Pattern.denotes_of_reach (Pattern.reach?_eq_some_iff.mp hreach).1
  obtain ⟨n, hn, hle⟩ := greedy_of_mem hr hdenotes List.prefix_rfl
  refine ⟨r, hr, rfl, ?_⟩
  rw [show (cut r.kind (rules.skipLength a) length a).body = (a.rest.drop _).take length from rfl,
    Pattern.reach?_eq_some_iff.mpr ⟨hn, Nat.lt_of_lt_of_le (List.length_pos_iff.mpr hbody) hle⟩]
  exact Option.some_ne_none _

/-- A backslash alone is no token, but where every character is one. -/
theorem Rules.kind_of_backslash {rules : Rules} {a : Scan} {t : Token} (ht : rules.tokenAt a = .ok t)
    (hbody : t.body = ['\\']) : t.kind = .glyph := by
  obtain ⟨r, hr, hkind, hself⟩ := rule_of_tokenAt ht (hbody ▸ List.cons_ne_nil _ _)
  rw [hbody] at hself
  have hall : ∀ rules : Rules, ∀ r ∈ rules.set.rules, r.pattern.reach? ['\\'] ≠ none → r.kind = .glyph := by
    intro rules
    cases rules <;> decide
  exact hkind ▸ hall rules r hr hself

/-- No production wants such a token. -/
theorem Production.Asks.no_glyph {p : Production} {β : Type} {q : Query β} (h : p.Asks β q)
    (inBackquote : Bool) : q.wanted inBackquote .glyph = false := by
  have hsought : ∀ kinds ∈ p.sought, among kinds .glyph = false := by
    cases p with
    | many | chain => exact List.forall_mem_nil _
    | list closer =>
      rw [sought, List.forall_mem_singleton]
      cases closer <;> rfl
    | chainRest | entries | piece => exact List.forall_mem_nil _
    | _ => decide
  cases h with
  | next hmem => exact hsought _ hmem
  | operator ch => cases ch <;> rfl
  | ending closer => cases closer <;> rfl
  | start => cases inBackquote <;> rfl
  | _ => rfl

/-- What an answer takes is not a backslash alone. -/
theorem Query.Gives.body_ne {c : Context} {β : Type} {q : Query β} {b : β} {ts : List Token}
    {place place' : Scan} (h : q.Gives c place b ts place')
    (hq : ∀ inBackquote, q.wanted inBackquote .glyph = false) : ∀ t ∈ ts, t.body ≠ ['\\'] := by
  have htoken : ∀ {place : Scan} {t : Token}, c.token? place = some t → t.kind ≠ .glyph →
      t.body ≠ ['\\'] :=
    fun ht hkind hbody => hkind (kind_of_backslash (Context.token?_eq_some.mp ht) hbody)
  cases q with
  | take adjacent want =>
    obtain ⟨t, ht, ⟨hwants, -, rfl, -⟩ | ⟨-, -, rfl, -⟩⟩ := h
    · rw [List.forall_mem_singleton]
      refine htoken ht fun hkind => ?_
      have hyes := (Context.wants_iff.mp hwants).1
      rw [hkind] at hyes
      exact Bool.noConfusion ((hq c.inBackquote).symm.trans hyes)
    · exact List.forall_mem_nil _
  | peek want =>
    obtain ⟨_, -, -, rfl, -⟩ := h
    exact List.forall_mem_nil _
  | mark shape pastBlank =>
    obtain ⟨t, ht, -, rfl, -⟩ | ⟨-, -, rfl, -⟩ := h
    · rw [List.forall_mem_singleton]
      intro hbody
      obtain ⟨n, hreach, rfl⟩ := takeAt_cases ht
      have hdenotes := Pattern.denotes_of_reach (Pattern.reach?_eq_some_iff.mp hreach).1
      refine Pattern.not_mem_of_avoids (avoids_edges shape '\\' (by decide)) hdenotes ?_
      rw [show (place.rest.drop _).take n = ['\\'] from hbody]
      exact List.mem_singleton_self _
    · exact List.forall_mem_nil _
  | close closing pastBlank =>
    obtain ⟨t, ht, rfl, -⟩ := h
    rw [List.forall_mem_singleton, (takeAt_matches ht).2.of_lit]
    cases closing <;> decide
  | bang =>
    obtain ⟨t, ht, ⟨-, -, rfl, -⟩ | ⟨hstr, u, -, ⟨-, -, rfl, -⟩ | ⟨-, -, rfl, -⟩⟩⟩ := h
    · exact List.forall_mem_nil _
    · exact List.forall_mem_nil _
    · rw [List.forall_mem_singleton]
      refine htoken ht ?_
      rw [kind_of_wants hstr.1]
      decide
  | target =>
    obtain ⟨t, ht, ⟨-, -, rfl, -⟩ | ⟨hident, u, hu, ⟨-, -, rfl, -⟩ | ⟨hop, -, rfl, -⟩⟩⟩ := h
    · exact List.forall_mem_nil _
    · exact List.forall_mem_nil _
    · rw [List.forall_mem_cons, List.forall_mem_singleton]
      refine ⟨htoken ht ?_, htoken hu ?_⟩
      · rw [kind_of_wants hident]
        decide
      · have hops : ∀ kind ∈ assignmentOps, kind ≠ .glyph := by decide
        exact hops _ (mem_of_wants (List.cons_ne_nil _ _) hop)

/-- The tokens of a log have text as long as something is left, and more than a backslash. -/
theorem Logs.bodies {c : Context} {p : Production} {ns : List Node} {as : List Asked}
    {place place' : Scan} (h : Logs c p ns as) (hsuits : p.Suits c) (hanswered : Answered as place place') :
    ∀ t ∈ (takenIn as).map Taken.token, (t.body = [] → t.after.rest = []) ∧ t.body ≠ ['\\'] := by
  have hno : ∀ a ∈ as, ∀ inBackquote, a.query.wanted inBackquote .glyph = false := by
    intro a ha inBackquote
    obtain ⟨p', hasks, -⟩ := h.asked hsuits ha
    exact hasks.no_glyph inBackquote
  clear h
  intro t ht
  obtain ⟨rules, hcut⟩ := hanswered.cut ht
  refine ⟨rest_of_body hcut, ?_⟩
  induction as generalizing place with
  | nil => cases ht
  | cons a as ih =>
    obtain ⟨place₁, hgives, hanswered⟩ := hanswered
    rw [tokens_cons, List.mem_append] at ht
    obtain ht | ht := ht
    · exact hgives.body_ne (hno a List.mem_cons_self) t ht
    · exact ih hanswered (fun a ha => hno a (List.mem_cons_of_mem _ ha)) ht

/-! ### In front of where texts part -/


/-- A place up to which two texts are the same, and where no difference is seen in front of it. -/
structure Parting where
  /-- The place in the one text. -/
  here : Scan
  /-- What stands there in the other text. -/
  ahead : Text
  /-- What is known of the kind and the text of a token that ends there. -/
  last : Kind → Text → Prop
  token : ∀ {rules : Rules} {a b : Scan} {t : Token} {v : Text},
    a.rest = t.text ++ (v ++ here.rest) → b.rest = t.text ++ (v ++ ahead) →
    here.before.head? = (t.body ++ v).getLast? → commentMayStart 0 b = commentMayStart 0 a →
    rules.tokenAt a = .ok t → t.body ≠ [] → t.body ++ v ≠ ['\\'] → (v = [] → last t.kind t.body) →
    rules.tokenAt b = .ok (t.at b)
  blank : ∀ {rules : Rules} {u : Text}, rules.blankLength (u ++ here.rest) < u.length →
    u.drop (rules.blankLength (u ++ here.rest)) ≠ ['\\'] →
    rules.blankLength (u ++ ahead) = rules.blankLength (u ++ here.rest)
  shape : ∀ {p : Pattern} {u : Text}, (∀ ch ∈ Scan.edges, p.avoids ch = true) → u ≠ [] →
    here.before.head? = u.getLast? → p.reach? (u ++ ahead) = p.reach? (u ++ here.rest)

namespace Parting

/-- In front of the place stand the tokens `ts`, in the one text from `a` on and in the other from
`b` on. -/
structure Front (P : Parting) (ts : List Token) (a b : Scan) : Prop where
  tiles : Tiles a ts P.here
  rest : b.rest = ts.flatMap Token.text ++ P.ahead
  boundary : commentMayStart 0 b = commentMayStart 0 a
  bodies : ∀ t ∈ ts, t.body ≠ [] ∧ t.body ≠ ['\\']
  last : ∀ t ∈ ts.getLast?, ∀ kind, kind = t.kind ∨ kind ∉ [.str, .ident, .eos] → P.last kind t.body

namespace Front
variable {P : Parting} {y t : Token} {ts : List Token} {b : Scan} {rules : Rules}
  (h : P.Front (y :: ts) y.origin b)
include h

theorem fits : y.Fits := h.tiles.2.1

theorem rest_origin : y.origin.rest = y.text ++ (ts.flatMap Token.text ++ P.here.rest) := by
  rw [h.tiles.rest, List.flatMap_cons, List.append_assoc]

theorem rest_other : b.rest = y.text ++ (ts.flatMap Token.text ++ P.ahead) := by
  rw [h.rest, List.flatMap_cons, List.append_assoc]

/-- The last character in front of the place. -/
theorem head?_before {u : Text} (hu : u ≠ []) (hsuffix : u <:+ y.text ++ ts.flatMap Token.text) :
    P.here.before.head? = u.getLast? := by
  obtain ⟨front, hfront⟩ := hsuffix
  have hlast := congrArg List.getLast? h.tiles.before
  rw [List.getLast?_reverse, List.flatMap_cons, ← hfront] at hlast
  rw [hlast, ← List.append_assoc, List.getLast?_append, List.getLast?_eq_some_getLast hu, Option.some_or]

theorem body_ne : y.body ≠ [] := (h.bodies y List.mem_cons_self).1

/-- Behind the first token the same holds of the others. -/
theorem after : P.Front ts y.after (y.at b).after where
  tiles := h.tiles.2.2
  rest := by
    rw [Token.after, Scan.rest_forward, Token.at, h.rest_other, Token.text, ← List.length_append,
      List.drop_left]
  boundary := by
    have hfits : (y.at b).Fits := ⟨_, h.rest_other.symm⟩
    rw [Token.commentMayStart_after hfits h.body_ne, Token.commentMayStart_after h.fits h.body_ne]
    rfl
  bodies := fun t ht => h.bodies t (List.mem_cons_of_mem _ ht)
  last := fun t ht => h.last t (by
    rw [List.getLast?_cons, Option.mem_def.mp ht]
    rfl)

/-- What ends with the last token is that token. -/
theorem last_of_text (hts : ts.flatMap Token.text = []) {kind : Kind}
    (hkind : kind = y.kind ∨ kind ∉ [.str, .ident, .eos]) : P.last kind y.body := by
  have hnil : ts = [] := by
    cases ts with
    | nil => rfl
    | cons t ts =>
      rw [List.flatMap_cons, List.append_eq_nil_iff, Token.text, List.append_eq_nil_iff] at hts
      exact absurd hts.1.2 (h.bodies t (List.mem_cons_of_mem _ List.mem_cons_self)).1
  subst hnil
  exact h.last y rfl kind hkind

/-- What rules make of the one text they make of the other. -/
theorem tokenAt (ht : rules.tokenAt y.origin = .ok t) (hblank : t.blank = y.blank)
    (hlength : t.body.length ≤ y.body.length) (hbody : t.body ≠ [])
    (hkind : t.kind = y.kind ∨ t.kind ∉ [.str, .ident, .eos]) : rules.tokenAt b = .ok (t.at b) := by
  obtain ⟨horigin, htfits⟩ := tokenAt_fits ht
  rw [Token.Fits, horigin] at htfits
  have hle : t.text.length ≤ y.text.length := by
    rw [Token.text, Token.text, List.length_append, List.length_append, hblank]
    exact Nat.add_le_add_left hlength _
  obtain ⟨u, hu⟩ := List.prefix_of_prefix_length_le htfits h.fits hle
  have hbodies : t.body ++ u = y.body := by
    rw [Token.text, Token.text, hblank, List.append_assoc] at hu
    exact List.append_cancel_left hu
  have hsame : u ++ ts.flatMap Token.text = [] → t.body = y.body := by
    intro hnil
    rw [← hbodies, (List.append_eq_nil_iff.mp hnil).1, List.append_nil]
  refine P.token (v := u ++ ts.flatMap Token.text) ?_ ?_ ?_ h.boundary ht hbody ?_ ?_
  · rw [h.rest_origin, ← hu, List.append_assoc, List.append_assoc]
  · rw [h.rest_other, ← hu, List.append_assoc, List.append_assoc]
  · refine h.head?_before (List.append_ne_nil_of_left_ne_nil hbody _) ⟨t.blank, ?_⟩
    rw [← hu, Token.text, List.append_assoc, List.append_assoc]
  · intro hslash
    rw [List.append_eq_singleton_iff] at hslash
    obtain ⟨hnil, -⟩ | ⟨hslash, hnil⟩ := hslash
    · exact hbody hnil
    · exact (h.bodies y List.mem_cons_self).2 (hsame hnil ▸ hslash)
  · intro hnil
    rw [hsame hnil]
    exact h.last_of_text (List.append_eq_nil_iff.mp hnil).2 hkind

/-- How much blank there is, if something else stands behind it. -/
theorem blankLength (hlt : rules.blankLength y.origin.rest < (y.text ++ ts.flatMap Token.text).length)
    (hslash : (y.text ++ ts.flatMap Token.text).drop (rules.blankLength y.origin.rest) ≠ ['\\']) :
    rules.blankLength b.rest = rules.blankLength y.origin.rest := by
  have hrest := h.rest_origin
  rw [← List.append_assoc] at hrest
  rw [h.rest_other, ← List.append_assoc, hrest]
  rw [hrest] at hlt hslash
  exact P.blank hlt hslash

/-- All blank is in front of the first token. -/
theorem blankLength_of_eq (hblank : rules.blankLength y.origin.rest = y.blank.length) :
    rules.blankLength b.rest = y.blank.length := by
  have hpos := List.length_pos_iff.mpr h.body_ne
  rw [← hblank]
  refine h.blankLength ?_ ?_
  · rw [hblank, Token.text, List.length_append, List.length_append]
    omega
  · rw [hblank, Token.text, List.append_assoc, List.drop_left]
    intro hslash
    rw [List.append_eq_singleton_iff] at hslash
    obtain ⟨hnil, -⟩ | ⟨hslash, -⟩ := hslash
    · exact h.body_ne hnil
    · exact (h.bodies y List.mem_cons_self).2 hslash

/-- What rules show of the next token they show in the other text too. If it is the token, the same
holds behind it. -/
theorem shown (hshows : rules.Shows y) :
    ∃ t t', rules.tokenAt y.origin = .ok t ∧ rules.tokenAt b = .ok t' ∧ t.Alike t' ∧
      (t = y → t'.body = y.body ∧ P.Front ts y.after t'.after) := by
  by_cases hself : rules.tokenAt y.origin = .ok y
  · exact ⟨y, _, hself, h.tokenAt hself rfl (Nat.le_refl _) h.body_ne (.inl rfl), .moved y b,
      fun _ => ⟨rfl, h.after⟩⟩
  · have hother : ∀ {t : Token}, rules.tokenAt y.origin = .ok t → t ≠ y := fun ht heq => hself (heq ▸ ht)
    cases hshows with
    | same ht => exact absurd ht hself
    | @part t ht hblank hlength hkind =>
      have hbody := body_ne_of_tokenAt ht (by rintro heos; simp [heos] at hkind)
      exact ⟨t, _, ht, h.tokenAt ht hblank hlength hbody (.inr hkind), .moved t b,
        fun heq => absurd heq (hother ht)⟩
    | name hrules hblank hstart hname =>
      subst hrules
      obtain ⟨t, ht, hkind, htblank, hbang⟩ := Shows.front_of_name h.fits hblank hstart hname
      have hlength := congrArg List.length hblank
      rw [List.length_take_of_le (blankLength_le _ _)] at hlength
      obtain ⟨t', ht', hkind', htblank', hbang'⟩ := tokenAt_of_name (a := b)
        (by rw [h.rest_other, Token.text, List.append_assoc]) (h.blankLength_of_eq hlength.symm) hstart hname
      refine ⟨t, t', ht, ht', ⟨hkind'.trans hkind.symm, ?_, iff_of_false hbang' hbang⟩,
        fun heq => absurd heq (hother ht)⟩
      rw [Token.isAdjacent, Token.isAdjacent, htblank, htblank']

/-- In front of what rules show there is as much blank in both texts, and less than all. -/
theorem blankLength_of_shows (hshows : rules.Shows y) :
    rules.blankLength y.origin.rest < (y.text ++ ts.flatMap Token.text).length ∧
      rules.blankLength b.rest = rules.blankLength y.origin.rest := by
  have hpos := List.length_pos_iff.mpr h.body_ne
  have hlength : (y.text ++ ts.flatMap Token.text).length =
      y.blank.length + y.body.length + (ts.flatMap Token.text).length := by
    rw [Token.text, List.length_append, List.length_append]
  obtain hblank | ⟨hcomment, hskip⟩ := hshows.blank_cases
  · exact ⟨by omega, (h.blankLength_of_eq hblank).trans hblank.symm⟩
  · -- Behind all blank starts a comment, with a `#`.
    have hlt := hcomment.lt
    have hle : rules.blankLength y.origin.rest < (y.text ++ ts.flatMap Token.text).length := by omega
    refine ⟨hle, h.blankLength hle fun hslash => ?_⟩
    have hsharp := hcomment.sharp
    have hrest : y.origin.rest = (y.text ++ ts.flatMap Token.text) ++ P.here.rest := by
      rw [h.rest_origin, List.append_assoc]
    generalize rules.blankLength y.origin.rest = k at hle hslash hsharp
    rw [hrest, List.drop_append_of_le_length (Nat.le_of_lt hle), hslash] at hsharp
    cases hsharp

section Shapes
variable {pattern : Pattern} {kind : Kind} {allowBlank : Bool}

/-- A shape that is taken is there in the other text. -/
theorem taken (hpattern : (∀ ch ∈ Scan.edges, pattern.avoids ch = true) ∨ ∃ l, pattern = .lit l)
    (hy : rules.takeAt pattern kind allowBlank y.origin = some y) :
    ∃ y', rules.takeAt pattern kind allowBlank b = some y' ∧ y'.body = y.body ∧ P.Front ts y.after y'.after := by
  obtain ⟨hblank, hbody, hreach⟩ := takeAt_front hy
  have hsplit : y.after.rest = ts.flatMap Token.text ++ P.here.rest := h.tiles.2.2.rest
  have hreach' : pattern.reach? (y.body ++ (ts.flatMap Token.text ++ P.ahead)) = some y.body.length := by
    obtain havoids | ⟨l, rfl⟩ := hpattern
    · have hne : y.body ++ ts.flatMap Token.text ≠ [] := List.append_ne_nil_of_left_ne_nil hbody _
      have hsuffix : y.body ++ ts.flatMap Token.text <:+ y.text ++ ts.flatMap Token.text :=
        ⟨y.blank, by rw [Token.text, List.append_assoc]⟩
      rw [hsplit, ← List.append_assoc] at hreach
      rw [← List.append_assoc, P.shape havoids hne (h.head?_before hne hsuffix), hreach]
    · have hl := (takeAt_matches hy).2.of_lit
      rw [Pattern.reach?_eq_some_iff]
      refine ⟨?_, List.length_pos_iff.mpr hbody⟩
      rw [hl]
      simp [Pattern.reach]
  refine ⟨y.moved b y.blank, takeAt_moved hy (h.blankLength_of_eq hblank) ?_ id hreach', rfl, h.after⟩
  rw [h.rest_other, Token.text, List.append_assoc]

/-- A shape that is missed where rules show the next token is missed in the other text. -/
theorem missed (hpattern : ∀ ch ∈ Scan.edges, pattern.avoids ch = true)
    (hnone : rules.takeAt pattern kind allowBlank y.origin = none) (hshows : rules.Shows y) :
    rules.takeAt pattern kind allowBlank b = none := by
  obtain ⟨hlt, hblank⟩ := h.blankLength_of_shows hshows
  rw [takeAt_eq_none] at hnone ⊢
  rw [hblank]
  refine hnone.imp_right fun hreach => ?_
  have hdrop : ∀ rest : Text, (y.text ++ (ts.flatMap Token.text ++ rest)).drop (rules.blankLength y.origin.rest) =
      (y.text ++ ts.flatMap Token.text).drop (rules.blankLength y.origin.rest) ++ rest := by
    intro rest
    rw [← List.append_assoc, List.drop_append_of_le_length (Nat.le_of_lt hlt)]
  have hne : (y.text ++ ts.flatMap Token.text).drop (rules.blankLength y.origin.rest) ≠ [] := by
    intro hnil
    have := List.drop_eq_nil_iff.mp hnil
    omega
  generalize rules.blankLength y.origin.rest = k at hreach hdrop hne
  rw [h.rest_origin, hdrop] at hreach
  rw [h.rest_other, hdrop, P.shape hpattern hne (h.head?_before hne (List.drop_suffix _ _)), hreach]

/-- The mark of a replacement is missed in the other text, where a word follows the slash. -/
theorem missed_anchor (hnone : rules.takeAt Shape.anchor.pattern kind false y.origin = none) :
    rules.takeAt Shape.anchor.pattern kind false b = none := by
  have hcs : ∀ ch ∈ ['/', '#', '%'], ch ∉ [' ', '\t', '\n', '\\'] := by simp
  obtain ⟨c, body, htext⟩ := List.exists_cons_of_ne_nil
    (List.append_ne_nil_of_right_ne_nil y.blank h.body_ne)
  refine (takeAt_oneOf hcs).mpr fun ch hch => (takeAt_oneOf hcs).mp hnone ch ?_
  rw [h.rest_other, Token.text, htext] at hch
  rw [h.rest_origin, Token.text, htext]
  exact hch

end Shapes

end Front

/-! ### Places in front -/

section Places
variable (P : Parting) (back : List Token)

/-- Up to the place stand tokens, and behind it the tokens `back` are taken. -/
def Upto (ts : List Token) (a b : Scan) : Prop := ∃ front, ts = front ++ back ∧ P.Front front a b

/-- At least one token stands in front of the place. -/
def Before (ts : List Token) (a b : Scan) : Prop :=
  ∃ y front, ts = y :: front ++ back ∧ P.Front (y :: front) a b

end Places

variable {P : Parting} {back : List Token}

/-- In front of the place the texts are alike. -/
theorem likeness : Likeness (P.Before back) (P.Upto back) where
  stays := fun ⟨y, front, hts, h⟩ => ⟨y :: front, hts, h⟩
  shown := by
    rintro rules y ts b ⟨_, front, heq, h⟩ - hshows
    obtain ⟨rfl, rfl⟩ := List.cons.inj heq
    obtain ⟨t, t', ht, ht', halike, hafter⟩ := h.shown hshows
    exact ⟨t, t', ht, ht', halike, fun heq => ⟨(hafter heq).1, front, rfl, (hafter heq).2⟩⟩
  taken := by
    rintro rules pattern kind allowBlank y ts b ⟨_, front, heq, h⟩ - hpattern hy
    obtain ⟨rfl, rfl⟩ := List.cons.inj heq
    obtain ⟨y', hy', hbody, hafter⟩ := h.taken hpattern hy
    exact ⟨y', hy', hbody, front, rfl, hafter⟩
  missed := by
    rintro rules pattern kind allowBlank y ts b ⟨_, front, heq, h⟩ - hpattern hnone hshows
    obtain ⟨rfl, rfl⟩ := List.cons.inj heq
    exact h.missed hpattern hnone hshows
  anchor := by
    rintro rules kind y ts b ⟨_, front, heq, h⟩ - hnone -
    obtain ⟨rfl, rfl⟩ := List.cons.inj heq
    exact h.missed_anchor hnone

/-- At the place the next token is no assignment, and taken for the same in both texts. It may be
looked at behind a name or a `!`. -/
def Touches (P : Parting) (back : List Taken) (y : Taken) : Prop :=
  ∀ c z more b, back = z :: more → y.kind = .str ∨ y.kind = .ident → z.token.origin = P.here →
    z.token.Fits → c.mode.rules.Shows z.token → P.Front [] P.here b →
    ∃ u u', c.mode.rules.tokenAt P.here = .ok u ∧ c.mode.rules.tokenAt b = .ok u' ∧ Likens c u u' ∧
      c.wants false (among assignmentOps) u = false

theorem seconds {c : Context} {front back : List Taken} (htouch : ∀ y ∈ front.getLast?, P.Touches back y) :
    Likeness.Seconds (P.Upto (back.map Taken.token)) c (front ++ back) := by
  rintro y z more b hxs hkind ⟨zs, hzs, h⟩ hfits hz
  cases zs with
  | nil =>
    have hlength := congrArg List.length hzs
    rw [List.nil_append, List.length_cons, List.length_map, List.length_map] at hlength
    have hsplit := congrArg List.length hxs
    rw [List.length_append, List.length_cons, List.length_cons, ← hlength] at hsplit
    obtain ⟨y', hfront⟩ := List.length_eq_one_iff.mp (show front.length = 1 by omega)
    subst hfront
    obtain ⟨rfl, rfl⟩ := List.cons.inj hxs
    have horigin : z.token.origin = P.here := h.tiles
    obtain ⟨u, u', hu, hu', hlikens, hno⟩ := htouch y' rfl c z more b rfl hkind horigin hfits hz (horigin ▸ h)
    refine ⟨u, u', horigin ▸ hu, hu', hlikens, fun _ hop => ?_⟩
    exact Bool.noConfusion (hno.symm.trans hop)
  | cons t zs =>
    obtain ⟨rfl, hmore⟩ := List.cons.inj hzs
    obtain ⟨u, u', hu, hu', halike, hafter⟩ := h.shown hz
    refine ⟨u, u', hu, hu', .of_alike halike, ?_⟩
    rintro rfl -
    exact ⟨(hafter rfl).1, zs, hmore, (hafter rfl).2⟩

/-- A question in front of the place is answered alike. -/
theorem Front.step {q : Asked} {us vs : List Asked} {a b e : Scan}
    (h : P.Front ((takenIn (q :: us)).map Taken.token) a b) (hne : takenIn (q :: us) ≠ [])
    (hanswered : Answered (q :: us ++ vs) a e) (hheeded : Heeded (q :: us ++ vs))
    (htouch : ∀ y ∈ (takenIn (q :: us)).getLast?, P.Touches (takenIn vs) y) :
    ∃ a₁ b₁, q.query.answer q.context b = some (q.answer, b₁) ∧ Answered (us ++ vs) a₁ e ∧
      P.Front ((takenIn us).map Taken.token) a₁ b₁ := by
  have htiles := hanswered.tiles
  obtain ⟨a₁, hgives, hanswered⟩ := hanswered
  have hsplit : takenIn (q :: us ++ vs) = takenIn (q :: us) ++ takenIn vs := takenIn_append _ _
  obtain ⟨y, front, hfront⟩ := List.exists_cons_of_ne_nil hne
  have hbefore : P.Before ((takenIn vs).map Taken.token) ((takenIn (q :: us ++ vs)).map Taken.token) a b := by
    refine ⟨y.token, front.map Taken.token, ?_, ?_⟩
    · rw [hsplit, List.map_append, hfront, List.map_cons]
    · rwa [hfront] at h
  have hheeds := hheeded.1
  have hseconds := seconds htouch (c := q.context)
  rw [← hsplit] at hseconds
  obtain ⟨b₁, hanswer, ts, hts, hbehind⟩ :=
    likeness.answer hbefore htiles (tokens_cons q (us ++ vs)) hgives hheeds hseconds
  rw [takenIn_append, List.map_append] at hts
  rw [← List.append_cancel_right hts] at hbehind
  exact ⟨a₁, b₁, hanswer, hanswered, hbehind⟩

/-- A log up to the place whose last answer takes something guides both texts. -/
theorem Front.guides {us vs : List Asked} {x : Asked} {a b e : Scan}
    (h : P.Front ((takenIn (us ++ [x])).map Taken.token) a b) (hx : x.tokens ≠ [])
    (hanswered : Answered (us ++ [x] ++ vs) a e) (hheeded : Heeded (us ++ [x] ++ vs))
    (htouch : ∀ y ∈ (takenIn (us ++ [x])).getLast?, P.Touches (takenIn vs) y) :
    ∃ b', Guides (us ++ [x]) b b' ∧ P.Front [] P.here b' := by
  have hlast : takenIn [x] ≠ [] := by
    intro hnil
    rw [takenIn_cons, takenIn_nil, List.append_nil] at hnil
    exact hx (List.map_eq_nil_iff.mp hnil)
  induction us generalizing a b with
  | nil =>
    obtain ⟨a₁, b₁, hanswer, -, hbehind⟩ := h.step hlast hanswered hheeded htouch
    have hhere : a₁ = P.here := hbehind.tiles
    exact ⟨b₁, ⟨b₁, hanswer, rfl⟩, hhere ▸ hbehind⟩
  | cons q us ih =>
    have hne : takenIn (us ++ [x]) ≠ [] := by
      rw [takenIn_append]
      exact List.append_ne_nil_of_right_ne_nil _ hlast
    have hsame : (takenIn (q :: us ++ [x])).getLast? = (takenIn (us ++ [x])).getLast? := by
      rw [List.cons_append, takenIn_cons, List.getLast?_append, List.getLast?_eq_some_getLast hne,
        Option.some_or]
    obtain ⟨a₁, b₁, hanswer, hanswered, hbehind⟩ := h.step (by
      rw [takenIn_cons]
      exact List.append_ne_nil_of_right_ne_nil _ hne) hanswered hheeded htouch
    obtain ⟨b', hguides, hplace⟩ := ih hbehind hanswered hheeded.2 (hsame ▸ htouch)
    exact ⟨b', ⟨b₁, hanswer, hguides⟩, hplace⟩

end Parting

end ShellGrammar
