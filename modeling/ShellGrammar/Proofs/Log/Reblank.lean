import ShellGrammar.Proofs.Log.Parting

/-! A log along a text with other blank.

In a text that was parsed, the blank in front of one token is replaced (`Reblanking`). In front of it
the two texts part, behind it the same is ahead, and there, behind other blank, the rules make the same
token of both (`Rules.tokenAt_moved`). So all along the text places are alike
(`Reblanking.likeness`). -/
namespace ShellGrammar
open Grammar ParseM Rules

/-- A token of a text, and other blank in place of the blank in front of it. -/
structure Reblanking where
  token : Token
  blank : Text
  fits : token.Fits
  old : token.blank ≠ []
  new : blank ≠ []
  spaces : ∀ ch ∈ blank, ch = ' ' ∨ ch = '\t'
  skips : token.origin.Skips
  /-- Without a text it is the end of the source. -/
  ended : token.body = [] → token.after.rest = []

namespace Reblanking
variable (r : Reblanking)

/-- What stands behind the blank. -/
def behind : Text := r.token.body ++ r.token.after.rest

theorem rest_origin : r.token.origin.rest = r.token.blank ++ r.behind := by
  rw [Token.rest_origin r.fits, Token.text, List.append_assoc]
  rfl

theorem rest_ne : r.token.origin.rest ≠ [] := by
  rw [r.rest_origin]
  exact List.append_ne_nil_of_left_ne_nil r.old _

theorem blank_cons : ∃ x more, r.blank = x :: more ∧ (x = ' ' ∨ x = '\t') := by
  obtain ⟨x, more, hblank⟩ := List.exists_cons_of_ne_nil r.new
  exact ⟨x, more, hblank, r.spaces x (hblank ▸ List.mem_cons_self)⟩

/-- In front of the token the texts part. -/
def parting : Parting where
  here := r.token.origin
  ahead := r.blank ++ r.behind
  last := fun _ _ => True
  token := by
    intro rules a b t v ha hb _ hmay ht hbody hslash _
    obtain ⟨x, more, hcons, hx⟩ := r.blank_cons
    rw [hcons, List.cons_append] at hb
    refine tokenAt_seam ha hb hmay ⟨?_, fun _ => r.rest_ne, ?_, fun _ htext _ _ => r.skips.denotes hx htext⟩
      hslash ht hbody
    · rcases hx with rfl | rfl <;> decide
    · rintro rfl
      rcases hx with hx | hx <;> cases hx
  blank := by
    intro rules u hlt hslash
    exact blankLength_front (fun h => hslash h.1) hlt
  shape := by
    intro p u hp hu hbefore
    obtain ⟨x, more, hblank, hx⟩ := r.blank_cons
    have hedge : x ∈ Scan.edges := by rcases hx with rfl | rfl <;> decide
    rw [Pattern.reach?, Pattern.reach?, r.skips.reach hp hu hbefore, hblank, List.cons_append,
      Pattern.steady_of_avoids (hp x hedge) u _ id]

/-- What is ahead at places of the two texts, where the tokens `ts` are taken: the same up to the
token and behind other blank the token, or the same. -/
inductive Rel (ts : List Token) (a b : Scan) : Prop
  | before {back : List Token} (h : r.parting.Upto (r.token :: back) ts a b)
  | behind (h : a.Same b)

variable {r} {y t : Token} {ts : List Token} {a b : Scan} {rules : Rules}

/-- As much blank as was taken of the one text is blank in the other. -/
theorem blankLength_moved (h : rules.blankLength r.token.origin.rest = r.token.blank.length) :
    rules.blankLength (r.blank ++ r.behind) = r.blank.length := by
  have hrules : rules.set.blank ≠ none := by
    intro hnone
    rw [Rules.blankLength, hnone] at h
    exact r.old (List.eq_nil_of_length_eq_zero h.symm)
  refine blankLength_append (blankLength_spaces hrules r.spaces) ?_
  have hzero := blankLength_drop rules r.token.origin.rest
  rwa [h, r.rest_origin, List.drop_left] at hzero

theorem isAdjacent_moved (h : t.blank = r.token.blank) {t' : Token} (h' : t'.blank = r.blank) :
    t'.isAdjacent = t.isAdjacent := by
  rw [Token.isAdjacent, Token.isAdjacent, h, h', List.isEmpty_eq_false_iff.mpr r.old]
  exact List.isEmpty_eq_false_iff.mpr r.new

/-! ### At the token -/

section There
variable (hb : b.rest = r.blank ++ r.behind)
include hb

theorem same_behind : r.token.after.Same (r.token.moved b r.blank).after := by
  have hrest : (r.token.moved b r.blank).after.rest = r.token.after.rest := by
    rw [Token.after, Scan.rest_forward, Token.moved, hb, Reblanking.behind, ← List.append_assoc,
      ← List.length_append, List.drop_left]
  refine ⟨hrest, fun hne => ?_⟩
  have hbody : r.token.body ≠ [] := fun hnil => hne (r.ended hnil)
  have hfits : (r.token.moved b r.blank).Fits := ⟨r.token.after.rest, by
    rw [Token.text, Token.moved, hb, Reblanking.behind, List.append_assoc]⟩
  rw [Token.commentMayStart_after hfits hbody, Token.commentMayStart_after r.fits hbody]
  rfl

/-- A token behind the same blank is there behind the other. -/
theorem there_tokenAt (ht : rules.tokenAt r.token.origin = .ok t) (hblank : t.blank = r.token.blank) :
    ∃ t', rules.tokenAt b = .ok t' ∧ t.Alike t' ∧ t' = t.moved b r.blank :=
  ⟨_, tokenAt_moved (hblank.symm ▸ r.rest_origin) hb (hblank ▸ r.old) r.spaces ht,
    ⟨rfl, isAdjacent_moved hblank rfl, Iff.rfl⟩, rfl⟩

/-- What rules show of the token they show behind other blank. -/
theorem there_shown (hshows : rules.Shows r.token) :
    ∃ t t', rules.tokenAt r.token.origin = .ok t ∧ rules.tokenAt b = .ok t' ∧ t.Alike t' ∧
      (t = r.token → t'.body = r.token.body ∧ r.token.after.Same t'.after) := by
  cases hshows with
  | same ht =>
    obtain ⟨t', ht', halike, rfl⟩ := there_tokenAt hb ht rfl
    exact ⟨_, _, ht, ht', halike, fun _ => ⟨rfl, same_behind hb⟩⟩
  | @part t ht hblank =>
    obtain ⟨t', ht', halike, rfl⟩ := there_tokenAt hb ht hblank
    refine ⟨t, _, ht, ht', halike, ?_⟩
    rintro rfl
    exact ⟨rfl, same_behind hb⟩
  | name hrules hblank hstart hname =>
    subst hrules
    obtain ⟨t, ht, -, htblank, -⟩ := Shows.front_of_name r.fits hblank hstart hname
    obtain ⟨t', ht', halike, rfl⟩ := there_tokenAt hb ht htblank
    refine ⟨t, _, ht, ht', halike, ?_⟩
    rintro rfl
    exact ⟨rfl, same_behind hb⟩

section Shapes
variable {pattern : Pattern} {kind : Kind} {allowBlank : Bool}

theorem there_taken (hy : rules.takeAt pattern kind allowBlank r.token.origin = some r.token) :
    ∃ y', rules.takeAt pattern kind allowBlank b = some y' ∧ y'.body = r.token.body ∧
      r.token.after.Same y'.after := by
  obtain ⟨hblank, -, hreach⟩ := takeAt_front hy
  refine ⟨_, takeAt_moved hy (hb ▸ blankLength_moved hblank) hb (fun hnil => absurd hnil r.old) hreach, rfl,
    same_behind hb⟩

theorem there_missed (hpattern : ∀ ch ∈ Scan.edges, pattern.avoids ch = true)
    (hnone : rules.takeAt pattern kind allowBlank r.token.origin = none) (hshows : rules.Shows r.token) :
    rules.takeAt pattern kind allowBlank b = none := by
  rw [takeAt_eq_none] at hnone ⊢
  rw [hb]
  obtain hblank | ⟨hcomment, hskip⟩ := hshows.blank_cases
  · rw [blankLength_moved hblank, List.drop_left]
    rw [hblank, r.rest_origin, List.drop_left] at hnone
    refine hnone.imp_left fun hdeny => ⟨List.length_pos_iff.mpr r.new, hdeny.2⟩
  · -- Behind the comment stands a newline or nothing, which no shape starts with.
    have hbehind := hcomment.behind
    rw [hskip, r.rest_origin, List.drop_left] at hbehind
    have hzero : rules.blankLength r.behind = 0 := by
      rw [hcomment.command]
      obtain hnil | ⟨more, hmore⟩ := hbehind
      · rw [hnil]
        rfl
      · rw [hmore]
        rfl
    have hrules : rules.set.blank ≠ none := by
      rw [hcomment.command]
      exact Option.some_ne_none _
    rw [blankLength_append (blankLength_spaces hrules r.spaces) hzero, List.drop_left]
    right
    obtain hnil | ⟨more, hmore⟩ := hbehind
    · rw [hnil, Pattern.reach?_nil]
    · rw [hmore, Pattern.reach?_eq_none_of_mayStart (Pattern.mayStart_of_avoids (hpattern '\n' (by decide)))]

end Shapes

end There

/-! ### All along -/

/-- In front of the token, there, or behind it. -/
theorem Rel.cases (h : r.Rel ts a b) :
    (∃ back, r.parting.Before (r.token :: back) ts a b) ∨
      (∃ back, ts = r.token :: back ∧ b.rest = r.blank ++ r.behind) ∨ a.Same b := by
  cases h with
  | behind h => exact .inr (.inr h)
  | @before back h =>
    obtain ⟨front, rfl, hfront⟩ := h
    cases front with
    | nil => exact .inr (.inl ⟨back, rfl, hfront.rest⟩)
    | cons y front => exact .inl ⟨back, y, front, rfl, hfront⟩

/-- All along the texts places are alike. -/
theorem likeness : Likeness r.Rel r.Rel where
  stays := id
  shown := by
    intro rules y ts b h hfits hshows
    obtain ⟨back, h⟩ | ⟨back, heq, hb⟩ | h := h.cases
    · obtain ⟨t, t', ht, ht', halike, hafter⟩ := Parting.likeness.shown h hfits hshows
      exact ⟨t, t', ht, ht', halike, fun heq => ⟨(hafter heq).1, .before (hafter heq).2⟩⟩
    · obtain ⟨rfl, rfl⟩ := List.cons.inj heq
      obtain ⟨t, t', ht, ht', halike, hafter⟩ := there_shown hb hshows
      exact ⟨t, t', ht, ht', halike, fun heq => ⟨(hafter heq).1, .behind (hafter heq).2⟩⟩
    · obtain ⟨t, t', ht, ht', halike, hafter⟩ := @Likeness.shown _ _ Scan.Same.likeness _ _ ts _ h hfits hshows
      exact ⟨t, t', ht, ht', halike, fun heq => ⟨(hafter heq).1, .behind (hafter heq).2⟩⟩
  taken := by
    intro rules pattern kind allowBlank y ts b h hfits hpattern hy
    obtain ⟨back, h⟩ | ⟨back, heq, hb⟩ | h := h.cases
    · obtain ⟨y', hy', hbody, hafter⟩ := Parting.likeness.taken h hfits hpattern hy
      exact ⟨y', hy', hbody, .before hafter⟩
    · obtain ⟨rfl, rfl⟩ := List.cons.inj heq
      obtain ⟨y', hy', hbody, hafter⟩ := there_taken hb hy
      exact ⟨y', hy', hbody, .behind hafter⟩
    · obtain ⟨y', hy', hbody, hafter⟩ := @Likeness.taken _ _ Scan.Same.likeness _ _ _ _ _ ts _ h hfits hpattern hy
      exact ⟨y', hy', hbody, .behind hafter⟩
  missed := by
    intro rules pattern kind allowBlank y ts b h hfits hpattern hnone hshows
    obtain ⟨back, h⟩ | ⟨back, heq, hb⟩ | h := h.cases
    · exact Parting.likeness.missed h hfits hpattern hnone hshows
    · obtain ⟨rfl, rfl⟩ := List.cons.inj heq
      exact there_missed hb hpattern hnone hshows
    · exact @Likeness.missed _ _ Scan.Same.likeness _ _ _ _ _ ts _ h hfits hpattern hnone hshows
  anchor := by
    intro rules kind y ts b h hfits hnone hshows
    obtain ⟨back, h⟩ | ⟨back, heq, -⟩ | h := h.cases
    · exact Parting.likeness.anchor h hfits hnone hshows
    · -- The word would have started with the blank.
      obtain ⟨rfl, rfl⟩ := List.cons.inj heq
      refine absurd (List.eq_nil_of_length_eq_zero ?_) r.old
      obtain hblank | ⟨hcomment, -⟩ := hshows.blank_cases
      · exact hblank.symm
      · cases hcomment.command
    · exact @Likeness.anchor _ _ Scan.Same.likeness _ _ _ ts _ h hfits hnone hshows

end Reblanking

end ShellGrammar
