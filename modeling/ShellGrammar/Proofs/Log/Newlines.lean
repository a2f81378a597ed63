import ShellGrammar.Proofs.Log.Parting
import ShellGrammar.Proofs.Log.Script

/-! Newlines behind what divides.

Behind a token that divides, a newline ends no token that went on there, starts none of its own kind
but the newline, and is skipped. So with any number of newlines there, the log of a text guides the
other up to the newlines (`Parting.newlines`), then the newlines are skipped (`guides_newlines`), and
from there on the same is ahead. -/
namespace ShellGrammar
open Grammar ParseM Rules

/-! ### Tokens that divide -/

/-- What divides ends with a character behind which a comment may start. -/
theorem last_of_divider {rules : Rules} {place : Scan} {t : Token} (ht : rules.tokenAt place = .ok t)
    (hkind : t.kind ∈ dividers) : ∃ c, t.body.getLast? = some c ∧ isBoundary c = true := by
  have hall : ∀ kind ∈ dividers, ∃ spelling : Text, kind.spelling? = some spelling ∧
      (∃ c, spelling.getLast? = some c ∧ isBoundary c = true) := by
    simp [dividers, listOpeners, separators, Kind.spelling?]
    decide
  obtain ⟨spelling, hspelling, hlast⟩ := hall _ hkind
  rwa [body_of_spelling ht hspelling]

theorem body_of_divider {rules : Rules} {place : Scan} {t : Token} (ht : rules.tokenAt place = .ok t)
    (hkind : t.kind ∈ dividers) : t.body ≠ [] := by
  obtain ⟨c, hc, -⟩ := last_of_divider ht hkind
  intro hnil
  rw [hnil] at hc
  cases hc

theorem boundary_of_divider {rules : Rules} {place : Scan} {t : Token} (ht : rules.tokenAt place = .ok t)
    (hkind : t.kind ∈ dividers) : commentMayStart 0 t.after = true := by
  obtain ⟨c, hc, hboundary⟩ := last_of_divider ht hkind
  rw [Token.commentMayStart_after (tokenAt_fits ht).2 (body_of_divider ht hkind), hc]
  exact hboundary

/-- Where a comment may start, no word goes on. -/
theorem mem_edges_of_boundary {c : Char} (h : isBoundary c = true) : c ∈ Scan.edges := by
  have hmem := List.contains_iff_mem.mp h
  simp only [List.mem_cons, List.not_mem_nil, or_false] at hmem
  rcases hmem with rfl | rfl | rfl | rfl | rfl | rfl | rfl <;> decide

/-- Bare text starts with a character that is bare text, or escapes one. -/
theorem start_of_bare {test : Char → Bool} {c : Char} {u : Text}
    (h : (Pattern.many (Pattern.runPiece test)).Denotes (c :: u)) : test c = true ∨ c = '\\' := by
  generalize htext : c :: u = w at h
  cases h with
  | stop => cases htext
  | again hpiece hmore =>
    obtain ⟨d, rfl, hd, -⟩ | ⟨d, rfl⟩ := Pattern.denotes_runPiece hpiece
    · exact .inl ((List.cons.inj htext).1 ▸ hd)
    · exact .inr (List.cons.inj htext).1

/-- Where a newline is bare text, whatever can be bare text is. -/
theorem Rules.kind_of_bare {rules : Rules} {a : Scan} {t : Token} (ht : rules.tokenAt a = .ok t)
    (hbody : t.body ≠ []) (htext : rules.text '\n' = true)
    (hbare : (Pattern.many (Pattern.runPiece rules.text)).Denotes t.body) : t.kind = .str := by
  obtain ⟨-, rfl⟩ | ⟨kind, length, hfit, rfl⟩ := tokenAt_cases ht
  · exact absurd rfl hbody
  obtain ⟨r, hr, rfl, hreach⟩ := firstFit_mem hfit
  have hopenings : rules.set.rules.all (fun rule => rule.kind == .str ||
      rule.pattern.opening?.any fun c => !(rules.text c) && c != '\\') = true := by
    cases rules with
    | command | param | arith => cases htext
    | doubleQuote | wordUntilBrace | wordUntilSlash => decide
  obtain hkind | hopening := (Bool.or_eq_true _ _).mp (List.all_eq_true.mp hopenings r hr)
  · exact eq_of_beq hkind
  obtain ⟨c, hc, hno⟩ := Option.any_eq_true _ _ |>.mp hopening
  obtain ⟨hreach, hpos⟩ := Pattern.reach?_eq_some_iff.mp hreach
  obtain ⟨n, rfl⟩ := Nat.exists_eq_succ_of_ne_zero (Nat.ne_of_gt hpos)
  obtain ⟨d, more, hdrop⟩ := List.exists_cons_of_length_pos (Nat.lt_of_lt_of_le hpos (Pattern.reach_le hreach))
  rw [hdrop] at hreach
  obtain rfl := Pattern.eq_of_opening hc (Pattern.mayStart_of_reach hreach)
  rw [cut, hdrop, List.take_succ_cons] at hbare
  obtain htest | rfl := start_of_bare hbare
  · rw [htest] at hno
    cases hno
  · rw [Bool.and_eq_true] at hno
    cases hno.2

/-! ### The parting -/

section Parting
variable {x : Token} (hlast : ∃ c, x.body.getLast? = some c ∧ isBoundary c = true)
  (hbefore : x.after.before.head? = x.body.getLast?)

/-- Behind a token that divides, the texts part at a newline. -/
def Parting.newlines (more : Text) : Parting where
  here := x.after
  ahead := '\n' :: more
  last := fun kind _ => kind ≠ .str
  token := by
    intro rules a b t v ha hb hhead hmay ht hbody hslash hkind
    obtain ⟨c, hc, hboundary⟩ := hlast
    refine tokenAt_seam ha hb hmay ⟨by decide, fun hescaped => ?_, fun hamp => ?_, ?_⟩ hslash ht hbody
    · rw [hbefore, hc, hescaped, Option.some.injEq] at hhead
      subst hhead
      cases hboundary
    · cases hamp
    · intro hv htext _ hbare
      exact absurd (kind_of_bare ht hbody htext hbare) (hkind hv)
  blank := by
    intro rules u hlt hslash
    exact blankLength_front (fun h => hslash h.1) hlt
  shape := by
    intro p u hp hu hhead
    obtain ⟨c, hc, hboundary⟩ := hlast
    rw [hbefore, hc] at hhead
    obtain ⟨front, rfl⟩ := List.getLast?_eq_some_iff.mp hhead.symm
    have hsteady := Pattern.steady_of_avoids (hp c (mem_edges_of_boundary hboundary))
    rw [Pattern.reach?, Pattern.reach?, List.append_assoc, List.append_assoc, List.singleton_append,
      List.singleton_append, hsteady front _ id, hsteady front _ id]

end Parting

/-! ### Along the newlines -/

/-- Among commands, a newline is a token of its own. -/
theorem tokenAt_newline {place : Scan} {more : Text} (h : place.rest = '\n' :: more) :
    command.tokenAt place = .ok ⟨.newline, place, [], ['\n']⟩ := by
  have hskip : command.skipLength place = 0 := by
    simp only [Rules.skipLength, h]
    split <;> rfl
  have hfit : firstFit command.set.rules (place.rest.drop (command.skipLength place)) = some (.newline, 1) := by
    rw [hskip, h]
    rfl
  rw [tokenAt_of_fit hfit, hskip, cut, h]
  rfl

/-- Behind a newline stands the rest, and a comment may start there. -/
theorem after_newline {place : Scan} {more : Text} (h : place.rest = '\n' :: more) :
    (⟨.newline, place, [], ['\n']⟩ : Token).after.rest = more ∧
      commentMayStart 0 (⟨.newline, place, [], ['\n']⟩ : Token).after = true := by
  constructor
  · rw [Token.after, Scan.rest_forward, h]
    rfl
  · exact Token.commentMayStart_after ⟨more, h.symm⟩ (List.cons_ne_nil _ _)

/-- Newlines that stand at a place are skipped there. -/
theorem guides_newlines {c : Context} (hc : c.mode.rules = .command) (n : Nat) {place : Scan} {more : Text}
    (hrest : place.rest = List.replicate n '\n' ++ more) (hmay : commentMayStart 0 place = true) :
    ∃ place', Guides (List.replicate n (.skipped c)) place place' ∧ place'.rest = more ∧
      commentMayStart 0 place' = true := by
  induction n generalizing place with
  | zero => exact ⟨place, rfl, hrest, hmay⟩
  | succ n ih =>
    rw [List.replicate_succ, List.cons_append] at hrest
    have ht := tokenAt_newline hrest
    obtain ⟨hbehind, hmay⟩ := after_newline hrest
    obtain ⟨place', hguides, hplace'⟩ := ih hbehind hmay
    refine ⟨place', ⟨_, ?_, hguides⟩, hplace'⟩
    refine Query.take_some.mpr ⟨_, Context.token?_eq_some.mpr (hc ▸ ht), ?_, rfl, rfl⟩
    exact Context.wants_iff.mpr ⟨rfl, .inr rfl⟩

/-- Where a newline is asked for, more of them are skipped in front of what stands there. -/
theorem Asked.IsSkip.guides {a : Asked} {vs : List Asked} {here stop place : Scan} (ha : a.IsSkip)
    (hanswered : Answered (a :: vs) here stop) (hheeded : Heeded (a :: vs))
    (hhere : commentMayStart 0 here = true) (hplace : commentMayStart 0 place = true) (n : Nat)
    (hrest : place.rest = List.replicate n '\n' ++ here.rest) :
    ∃ stop', Guides (List.replicate n (.skipped a.context) ++ a :: vs) place stop' := by
  have hrules : a.context.mode.rules = .command := by
    cases ha with
    | mk hc => exact hc
  obtain ⟨place', hskipped, hrest', hplace'⟩ := guides_newlines hrules n hrest hplace
  have hsame : here.Same place' := ⟨hrest', fun _ => hplace'.trans hhere.symm⟩
  have hlike : Likeness (fun _ => Scan.Same) fun _ => Scan.Same := Scan.Same.likeness
  obtain ⟨stop', hguides⟩ := hlike.guides hsame hanswered hheeded
  exact ⟨stop', guides_append.mpr ⟨place', hskipped, hguides⟩⟩

/-! ### In a script -/

/-- Up to what divides there is the same in front of newlines. -/
theorem ScriptLog.front_newlines {source : Text} {t : Node} {e : Scan} {us vs : List Asked} {q : Asked} {x : Taken}
    (h : ScriptLog source t e (us ++ q :: vs)) (hparted : Parted (.ofText source) e x us q vs)
    (hkind : x.kind ∈ dividers) (n : Nat) :
    ∃ P : Parting, P.here = x.token.after ∧ P.ahead = List.replicate (n + 1) '\n' ++ textIn (takenIn vs) ∧
      P.Front ((takenIn (us ++ [q])).map Taken.token) (.ofText source)
        (.ofText (textIn (takenIn us ++ [x]) ++ (List.replicate (n + 1) '\n' ++ textIn (takenIn vs)))) := by
  obtain ⟨-, hfits⟩ := Rules.tokenAt_fits hparted.cut
  have hlast := last_of_divider hparted.cut hkind
  obtain ⟨c, hc, hboundary⟩ := id hlast
  have hbody := body_of_divider hparted.cut hkind
  have hbefore : x.token.after.before.head? = x.token.body.getLast? :=
    (Token.head?_before_after hfits hc).trans hc.symm
  refine ⟨.newlines hlast hbefore (List.replicate n '\n' ++ textIn (takenIn vs)), rfl, rfl, ?_⟩
  rw [hparted.taken, List.map_append, List.map_singleton]
  refine ⟨tiles_append.mpr ⟨_, hparted.front.tiles, rfl, hfits, rfl⟩, ?_, rfl, ?_, ?_⟩
  · rw [textIn_eq, List.map_append]
    rfl
  · intro u hu
    obtain hu | hu := List.mem_append.mp hu
    · refine h.bodies hparted.front ?_ u hu
      rw [Token.rest_origin hfits, Token.text]
      simp [hbody]
    · obtain rfl := List.mem_singleton.mp hu
      refine ⟨hbody, fun hslash => ?_⟩
      rw [hslash, List.getLast?_singleton, Option.some.injEq] at hc
      subst hc
      cases hboundary
  · rw [List.getLast?_concat]
    intro u hu kind hkind' hstr
    obtain rfl := Option.some.inj hu
    subst hstr
    obtain hkind' | hkind' := hkind'
    · rw [Taken.kind, ← hkind'] at hkind
      exact absurd hkind (by decide)
    · exact hkind' (by decide)

namespace ScriptLog
variable {source : Text} {t : Node} {e : Scan} {as : List Asked} (h : ScriptLog source t e as)
include h

/-- In front of a script there can be newlines. -/
theorem leading (n : Nat) : ∃ as' e', Logs .script (.list .endOfSource) [t] as' ∧
    Guides as' (.ofText (List.replicate n '\n' ++ source)) e' := by
  obtain ⟨a, more, rfl, ha⟩ := h.skipping
  have hplace : (Scan.ofText (List.replicate n '\n' ++ source)).rest
      = List.replicate n '\n' ++ (Scan.ofText source).rest := rfl
  obtain ⟨e', hguides⟩ := ha.guides h.answered h.heeded rfl rfl n hplace
  have hlogs : Logs .script (.list .endOfSource) [t] ([] ++ a :: more) := h.logs
  exact ⟨_, e', hlogs.spliced ha n, hguides⟩

/-- Behind what divides there can be newlines. -/
theorem newlines {front back : List Taken} {x : Taken} (hxs : takenIn as = front ++ x :: back)
    (hx : x.Divides) (n : Nat) : ∃ as' e', Logs .script (.list .endOfSource) [t] as' ∧
      Guides as' (.ofText (textIn (front ++ [x]) ++ (List.replicate (n + 1) '\n' ++ textIn back))) e' := by
  obtain ⟨us, q, vs, rfl, rfl, rfl, hparted⟩ := h.answered.parted hxs hx.mem
  obtain ⟨P, hhere, hahead, hfront⟩ := h.front_newlines hparted hx.mem n
  have hanswered := h.answered
  have hheeded := h.heeded
  have hlogs := h.logs
  have horderly := h.orderly
  rw [List.append_cons] at hanswered hheeded hlogs
  have hlast : ∀ y ∈ (takenIn (us ++ [q])).getLast?, P.Touches (takenIn vs) y := by
    rw [hparted.taken, List.getLast?_concat]
    intro y hy c z more b _ hkind
    obtain rfl := Option.some.inj hy
    exact absurd hx.mem (by rcases hkind with hkind | hkind <;> rw [hkind] <;> decide)
  obtain ⟨b, hguides, hplace⟩ := hfront.guides (by rw [hparted.tokens]; exact List.cons_ne_nil _ _) hanswered
    hheeded hlast
  -- Behind what divides a newline is asked for.
  obtain ⟨a, more, rfl, ha⟩ : Skipping vs := by
    refine horderly.of_append.1.divided ⟨x, ?_, hx⟩
    rw [Asked.taken, hparted.tokens, hparted.context]
    exact List.mem_singleton_self _
  have hboundary := boundary_of_divider hparted.cut hx.mem
  obtain ⟨e', hskips⟩ := ha.guides hparted.back hheeded.of_append hboundary
    (hplace.boundary.trans (hhere ▸ hboundary)) (n + 1) (by
      rw [hplace.rest, hahead, hparted.back.rest, h.ends, List.append_nil]
      rfl)
  exact ⟨_, e', hlogs.spliced ha (n + 1), guides_append.mpr ⟨b, hguides, hskips⟩⟩

end ScriptLog

end ShellGrammar
