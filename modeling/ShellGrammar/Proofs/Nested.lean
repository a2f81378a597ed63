import ShellGrammar.Proofs.Embedded
import ShellGrammar.Proofs.Reader.Backquote
import ShellGrammar.Proofs.Reader.Ending
import ShellGrammar.Proofs.Tree.Need

/-! Scripts in substitutions.

The list of a substitution is read like a script of its own: its tokens are those of the
script, up to the end, and there stands the closer in place of the end of the source
(`Parses.list_ending`). Between backquotes the script must not have commands between
backquotes itself, since each backquote would close the list (`Parses.backquoted`). A
substitution takes one level more than its list, and so `parse_nested` moves the limit. -/
namespace ShellGrammar
open Grammar ParseM Rules

/-! ### Openers -/

/-- The substitutions with a list: the text and kind of what opens the list, what closes it,
and the node it becomes part of. -/
inductive OpensList : Text → Kind → Closer → (Node → Node) → Prop where
  | command : OpensList ['$', '('] .dollarParen .paren (.commandSubst ['$', '('])
  | input : OpensList ['<', '('] .inParen .paren (.processSubst ['<'])
  | output : OpensList ['>', '('] .outParen .paren (.processSubst ['>'])
  | backquote : OpensList ['`'] .backquote .backquote (.commandSubst ['`'])

namespace OpensList
variable {opener : Text} {kind : Kind} {closer : Closer} {wrap : Node → Node} {r : Text}

/-- The opener is a token, unless a parenthesis makes it that of an expression. -/
theorem fit (h : OpensList opener kind closer wrap) (hr : r.head? ≠ some '(') :
    firstFit Rules.command.set.rules (opener ++ r) = some (kind, opener.length) := by
  cases h with
  | command => exact firstFit_dollarParen hr
  | input | output | backquote => rfl

theorem cons (h : OpensList opener kind closer wrap) : ∃ ch rest, opener = ch :: rest ∧ ch ∈ openers ∧
    ch ≠ '#' ∧ ∀ r, Rules.command.blankLength (ch :: r) = 0 := by
  cases h with
  | command => exact ⟨'$', ['('], rfl, by decide, by decide, fun _ => rfl⟩
  | input => exact ⟨'<', ['('], rfl, by decide, by decide, fun _ => rfl⟩
  | output => exact ⟨'>', ['('], rfl, by decide, by decide, fun _ => rfl⟩
  | backquote => exact ⟨'`', [], rfl, by decide, by decide, fun _ => rfl⟩

theorem starts (h : OpensList opener kind closer wrap) :
    among (pieceStart false) kind = true ∧ kind ≠ .str := by
  cases h <;> exact ⟨rfl, nofun⟩

/-- Behind the opener a comment may start, as at the start of a script. -/
theorem boundary (h : OpensList opener kind closer wrap) : opener.getLast?.map isBoundary = some true := by
  cases h <;> rfl

theorem ends (h : OpensList opener kind closer wrap) :
    closer.Ends (Context.script.shift (.inside closer)) := by
  cases h <;> exact ⟨nofun, rfl, rfl⟩

theorem need (h : OpensList opener kind closer wrap) (B : Node) : (wrap B).need = 1 + B.need := by
  cases h <;> simp

/-- Behind the opener stands the list. -/
theorem leads (h : OpensList opener kind closer wrap) {c : Context} {a a₁ : Scan} {B : Node}
    (hlist : Parses (c.shift (.inside closer)) (.list closer) a [B] a₁) :
    Leads c (Reader.pieceRest ⟨kind, opener⟩) a [wrap B] a₁ := by
  cases h <;> exact leads_bind.mpr ⟨B, a₁, leads_one.mpr hlist, rfl, rfl⟩

end OpensList

/-! ### The list -/

/-- No script starts with a parenthesis. -/
theorem Script.head_ne_paren {source : Text} {es : List Node} {last : Token}
    (h : Script source es last) : source.head? ≠ some '(' := by
  intro hhead
  obtain ⟨r, rfl⟩ : ∃ r, source = '(' :: r := by
    cases source with
    | nil => cases hhead
    | cons ch r => exact ⟨r, by rw [Option.some.inj hhead]⟩
  obtain ⟨ht, _⟩ := token?_cut .script .lparen (n := 1)
    (show (Scan.ofText ('(' :: r)).rest = _ from rfl) rfl (by decide) rfl
  have hnone : Rules.command.takeAt assignHead .assignHead true (.ofText ('(' :: r)) = none := by
    have hblank : Rules.command.blankLength ('(' :: r) = 0 := rfl
    have hreach : assignHead.reach? ('(' :: r) = none := Pattern.reach?_eq_none_of_mayStart rfl
    simp only [takeAt, Scan.ofText, hblank, List.drop_zero, hreach, Option.map_none, ite_self]
  obtain ⟨n, place, hpiece⟩ := h.piece_start hnone ht (fun h => by cases h)
    (fun h => by cases h) (fun h => by cases h)
  obtain ⟨hnil, _⟩ | ⟨_, u, _, hu, hwants, _⟩ := hpiece.piece_cases
  · cases hnil
  · obtain rfl := Option.some.inj (ht.symm.trans hu)
    cases hwants

/-- A script ends where the text of a list can end. -/
theorem Script.ended {source : Text} {es : List Node} {last : Token} (h : Script source es last)
    (hsharp : '#' ∉ last.blank) {c : Context} (hrules : c.mode.rules = .command) :
    last.origin.Ended c where
  eos := ⟨last, Context.token?_eq_some.mpr (hrules ▸ h.lexed), h.ends⟩
  sharp := by
    rw [tokenAt_front h.lexed, body_of_spelling h.lexed (by rw [h.ends]; rfl),
      rest_after_eos h.lexed h.ends]
    simpa using hsharp

/-- The entries of a script, in the context of a list. -/
theorem Script.entries_inside {source : Text} {es : List Node} {last : Token}
    (h : Script source es last) {closer : Closer} (hclean : closer = .backquote →
      Node.anyBackquotes es = false) :
    Parses (Context.script.shift (.inside closer)) (.entries .endOfSource) (.ofText source) es
      last.origin := by
  cases closer with
  | endOfSource | paren => exact h.entries
  | backquote => exact h.entries.backquoted trivial rfl (hclean rfl)

/-- Behind the opener stands what stands at the start of the script. -/
theorem OpensList.ahead {opener : Text} {kind : Kind} {closer : Closer} {wrap : Node → Node}
    (h : OpensList opener kind closer wrap) (source : Text) :
    (Scan.ofText source).Ahead closer.text
      ((Scan.ofText (opener ++ (source ++ closer.text))).forward opener.length) where
  rest := by
    rw [Scan.rest_forward]
    exact List.drop_left
  boundary := by
    obtain ⟨ch, r, rfl, _⟩ := h.cons
    have hlength : r.length < (Scan.ofText (ch :: r ++ (source ++ closer.text))).rest.length := by
      simp only [Scan.ofText, List.length_append, List.length_cons]
      omega
    have htake : (Scan.ofText (ch :: r ++ (source ++ closer.text))).rest.take (r.length + 1) =
        ch :: r := @List.take_left _ (ch :: r) _
    rw [List.length_cons, commentMayStart_forward hlength, htake, h.boundary]
    rfl

/-- A script is the list of a substitution. -/
theorem OpensList.script {opener : Text} {kind : Kind} {closer : Closer} {wrap : Node → Node}
    (hopens : OpensList opener kind closer wrap) {source : Text} {es : List Node} {last : Token}
    (h : Script source es last) (hsharp : '#' ∉ last.blank)
    (hclean : closer = .backquote → Node.anyBackquotes es = false) :
    parse ⟨0⟩ (opener ++ (source ++ closer.text)) = .ok (.single (wrap (.list es))) := by
  obtain ⟨ch, r, rfl, hch, hne, hblank⟩ := hopens.cons
  have hhead : (source ++ closer.text).head? ≠ some '(' := by
    cases source with
    | nil => cases hopens <;> exact nofun
    | cons d t => exact h.head_ne_paren
  obtain ⟨ht, hafter⟩ := token?_cut .script kind
    (show (Scan.ofText (ch :: r ++ (source ++ closer.text))).rest = _ from rfl) (hblank _) hne
    (hopens.fit hhead)
  obtain ⟨a₁, hlist, hend⟩ := (h.entries_inside hclean).list_ending hopens.ends rfl
    (h.ended hsharp rfl) (hopens.ahead source)
  rw [← hafter] at hlist
  have htake : (ch :: (r ++ (source ++ closer.text))).take (ch :: r).length = ch :: r :=
    @List.take_left _ (ch :: r) _
  have hpiece : Parses .script (.piece false) (.ofText (ch :: r ++ (source ++ closer.text)))
      [wrap (.list es)] a₁ := by
    refine Parses.piece_of_token ht ?_ ?_
    · rw [wants_of_adjacent rfl]
      exact hopens.starts.1
    · show Leads _ (Reader.pieceRest ⟨kind, (ch :: (r ++ _)).take (ch :: r).length⟩) _ _ _
      rw [htake]
      exact hopens.leads hlist
  obtain ⟨es', last', hes, hscript⟩ := Script.of_piece hpiece hend hch rfl fun u hu => by
    obtain rfl := Option.some.inj (ht.symm.trans hu)
    exact hopens.starts.2
  exact hscript.parse_eq.trans (congrArg _ hes)

/-! ### Scripts -/

/-- The limit one level further in. A limit of zero is none. -/
def limitInside (limit : Nat) : Nat := if limit = 0 then 0 else limit + 1

/-- The same under a limit, which may be one more for the substitution than for the script. -/
theorem OpensList.parse {opener : Text} {kind : Kind} {closer : Closer} {wrap : Node → Node}
    (hopens : OpensList opener kind closer wrap) {limit : Nat} {source blank : Text} {B : Node}
    (h : parseEnd ⟨limit⟩ source = some (B, blank)) (hblank : '#' ∉ blank)
    (hclean : closer = .backquote → B.backquotes = false) :
    parse ⟨limitInside limit⟩ (opener ++ source ++ closer.text) = .ok (.single (wrap B)) := by
  obtain ⟨s, hrun, hlast⟩ := run_of_parseEnd h
  obtain ⟨es, last, front, rfl, hscript, hconsumed⟩ := Script.of_run (run_unlimited hrun)
  have hends : last.blank = blank := hlast last (by rw [hconsumed, List.getLast?_concat]; rfl)
  have hparse := hopens.script hscript (hends ▸ hblank) hclean
  rw [List.append_assoc]
  unfold limitInside
  split
  · exact hparse
  · have hneed : (Node.list es).need ≤ limit := need_le_of_run (by omega) hrun
    have hwrapped := hopens.need (.list es)
    refine parse_of_need_le (by omega) hparse ?_
    simp only [Node.single, Node.need, Node.needAll]
    omega

/-- A list in a substitution is read like a script of its own. Put a script that does not end
with a comment between the opener and closer of a substitution: the tree is that substitution
and nothing else, with the tree of the script in it. Between backquotes the script must have no
commands between backquotes outside of lists of its own. -/
theorem parse_nested {limit : Nat} {L blank : Text} {B : Node}
    (h : parseEnd ⟨limit⟩ L = some (B, blank)) (hblank : '#' ∉ blank) :
    parse ⟨limitInside limit⟩ ("$(".toList ++ L ++ ")".toList) =
        .ok (.single (.commandSubst "$(".toList B)) ∧
      parse ⟨limitInside limit⟩ ("<(".toList ++ L ++ ")".toList) =
        .ok (.single (.processSubst "<".toList B)) ∧
      parse ⟨limitInside limit⟩ (">(".toList ++ L ++ ")".toList) =
        .ok (.single (.processSubst ">".toList B)) ∧
      (B.backquotes = false → parse ⟨limitInside limit⟩ ("`".toList ++ L ++ "`".toList) =
        .ok (.single (.commandSubst "`".toList B))) :=
  ⟨OpensList.command.parse h hblank nofun, OpensList.input.parse h hblank nofun,
    OpensList.output.parse h hblank nofun, fun hclean => OpensList.backquote.parse h hblank fun _ => hclean⟩

/-- `a | $(`b`) # c`, with a newline at the end and a limit that just allows it. -/
theorem parse_nested_pipe :
    ∃ B, parseEnd ⟨3⟩ "a | $(`b`) # c\n".toList = some (B, []) ∧ B.backquotes = false ∧
      parse ⟨4⟩ ("$(".toList ++ "a | $(`b`) # c\n".toList ++ ")".toList) =
        .ok (.single (.commandSubst "$(".toList B)) ∧
      parse ⟨4⟩ ("<(".toList ++ "a | $(`b`) # c\n".toList ++ ")".toList) =
        .ok (.single (.processSubst "<".toList B)) ∧
      parse ⟨4⟩ (">(".toList ++ "a | $(`b`) # c\n".toList ++ ")".toList) =
        .ok (.single (.processSubst ">".toList B)) ∧
      parse ⟨4⟩ ("`".toList ++ "a | $(`b`) # c\n".toList ++ "`".toList) =
        .ok (.single (.commandSubst "`".toList B)) := by
  have hend : parseEnd ⟨3⟩ "a | $(`b`) # c\n".toList = some (.list [.pipelines (.pipeline false
      (.pipe ['|'] (.simpleCommand [] [.str ['a']]) (.simpleCommand [] [.commandSubst ['$', '(']
        (.list [.pipelines (.pipeline false (.simpleCommand [] [.commandSubst ['`']
          (.list [.pipelines (.pipeline false (.simpleCommand [] [.str ['b']])) none])]))
            none])]))) (some ['\n'])], []) := by
    decide +kernel
  have hclean : (Node.list [.pipelines (.pipeline false
      (.pipe ['|'] (.simpleCommand [] [.str ['a']]) (.simpleCommand [] [.commandSubst ['$', '(']
        (.list [.pipelines (.pipeline false (.simpleCommand [] [.commandSubst ['`']
          (.list [.pipelines (.pipeline false (.simpleCommand [] [.str ['b']])) none])]))
            none])]))) (some ['\n'])]).backquotes = false := by
    decide
  obtain ⟨hcommand, hinput, houtput, hbackquote⟩ := parse_nested hend (by decide)
  exact ⟨_, hend, hclean, hcommand, hinput, houtput, hbackquote hclean⟩

end ShellGrammar
