import ShellGrammar.Proofs.Log.Newlines
import ShellGrammar.Proofs.Log.Terminal

/-! Separators carry no structure.

Newlines in front of a script, behind what opens a list of commands, behind an operator between
commands and behind a terminal leave the tree as it is, and which terminal stands behind an entry
changes nothing else of the tree (`parse_separated`). With newlines the log of the script is spliced,
and with another terminal one answer of it is exchanged: either way it guides the other text. -/
namespace ShellGrammar
open Grammar ParseM

/-- **Separators carry no structure.** Let a script parse. With any number of newlines in front of it, or
behind one of its tokens that divides, it parses to the same tree, whatever the limit. With a newline
or a `&` in place of one of its tokens `;` it parses to a tree that has the same frame, and the same
terminals but for that one. -/
theorem parse_separated {options : Options} {source : Text} {t : Node} {s : ParseState}
    (h : run options source = .ok t s) :
    ∃ xs, Records .script (.list .endOfSource) (.ofText source) [t] xs s.here ∧
      s.lexer.consumed = xs.map Taken.token ∧ source = textIn xs ∧
      (∀ n, parse options (List.replicate n '\n' ++ source) = .ok t) ∧
      (∀ front x back, xs = front ++ x :: back → x.Divides → ∀ n,
        parse options (textIn (front ++ [x]) ++ (List.replicate n '\n' ++ textIn back)) = .ok t) ∧
      ∀ front x back, xs = front ++ x :: back → x.kind = .semi → ∀ new ∈ ['\n', '&'],
        ∃ t' before after,
          parse options (textIn front ++ (x.token.blank ++ new :: textIn back)) = .ok t' ∧
            t'.frame = t.frame ∧ t.terminators = before ++ [';'] :: after ∧
            t'.terminators = before ++ [new] :: after ∧
            before.count [';'] = front.countP (·.kind == .semi) := by
  obtain ⟨as, hlog, hconsumed, hrecords⟩ := scriptLog_of_run h
  have hsource : source = textIn (takenIn as) := by
    have hrest := hlog.answered.rest
    rwa [hlog.ends, List.append_nil] at hrest
  have hsame : ∀ {as' : List Asked} {source' : Text} {e : Scan}, Logs .script (.list .endOfSource) [t] as' →
      Guides as' (.ofText source') e → parse options source' = .ok t :=
    fun hlogs hguides => parse_of_guides h hlogs hguides rfl
  refine ⟨takenIn as, hrecords, hconsumed, hsource, fun n => ?_, fun front x back hxs hx n => ?_,
    fun front x back hxs hx new hnew => ?_⟩
  · obtain ⟨as', e, hlogs, hguides⟩ := hlog.leading n
    exact hsame hlogs hguides
  · cases n with
    | zero =>
      rw [List.replicate_zero, List.nil_append, ← textIn_append, List.append_assoc, List.singleton_append,
        ← hxs, ← hsource]
      exact parse_eq_ok_iff.mpr ⟨s, h⟩
    | succ n =>
      obtain ⟨as', e, hlogs, hguides⟩ := hlog.newlines hxs hx n
      exact hsame hlogs hguides
  · obtain ⟨kind, hnew⟩ : ∃ kind : Kind, (kind = .newline ∧ new = '\n') ∨ (kind = .amp ∧ new = '&') := by
      simp only [List.mem_cons, List.not_mem_nil, or_false] at hnew
      exact hnew.elim (fun heq => ⟨.newline, .inl ⟨rfl, heq⟩⟩) fun heq => ⟨.amp, .inr ⟨rfl, heq⟩⟩
    obtain ⟨as', e, hagrees, hguides, before, after, hbefore, hafter, hcount⟩ := hlog.exchanged hxs hx hnew
    have hplain : (Production.list .endOfSource).Plain := ⟨rfl, trivial⟩
    obtain ⟨ns', hlogs, hframes, -⟩ := hlog.logs.twin hplain hagrees
    obtain ⟨t', rfl, hframe⟩ : ∃ t', ns' = [t'] ∧ t'.frame = t.frame := by
      match ns', hframes with
      | [t'], hframes => exact ⟨t', rfl, (List.cons.inj hframes).1⟩
      | _ :: _ :: _, hframes => cases (List.cons.inj hframes).2
    have hneed : t'.need = t.need := by rw [← t'.need_frame, hframe, t.need_frame]
    have hterminators : t.terminators = terminatorsIn as := by
      rw [← hlog.logs.terminators hplain]
      exact (List.append_nil _).symm
    have hterminators' : t'.terminators = terminatorsIn as' := by
      rw [← hlogs.terminators hplain]
      exact (List.append_nil _).symm
    exact ⟨t', before, after, parse_of_guides h hlogs hguides hneed, hframe, hterminators.trans hbefore,
      hterminators'.trans hafter, hcount⟩

/-- In a substitution with two commands: newlines in front of it and behind its parenthesis, and a `&` in
place of its `;`. -/
theorem parse_separated_substitution :
    ∃ t, parse ⟨4⟩ ['$', '(', 'a', ';', 'b', ')'] = .ok t ∧
      (∀ n, parse ⟨4⟩ (List.replicate n '\n' ++ ['$', '(', 'a', ';', 'b', ')']) = .ok t) ∧
      (∀ n, parse ⟨4⟩ (['$', '('] ++ (List.replicate n '\n' ++ ['a', ';', 'b', ')'])) = .ok t) ∧
      ∃ t', parse ⟨4⟩ ['$', '(', 'a', '&', 'b', ')'] = .ok t' ∧ t'.frame = t.frame ∧
        t.terminators = [[';']] ∧ t'.terminators = [['&']] := by
  have hpieces : parsePieces ⟨4⟩ ['$', '(', 'a', ';', 'b', ')'] = some (.list [.pipelines
      (.pipeline false (.simpleCommand [] [.commandSubst ['$', '('] (.list [
        .pipelines (.pipeline false (.simpleCommand [] [.str ['a']])) (some [';']),
        .pipelines (.pipeline false (.simpleCommand [] [.str ['b']])) none])])) none],
      [(.dollarParen, [], ['$', '(']), (.str, [], ['a']), (.semi, [], [';']), (.str, [], ['b']),
        (.rparen, [], [')']), (.eos, [], [])]) := by decide +kernel
  obtain ⟨s, hs, hpieces⟩ := run_of_parsePieces hpieces
  obtain ⟨xs, -, hconsumed, -, hstart, hbehind, hsemi⟩ := parse_separated hs
  rw [hconsumed, List.map_map] at hpieces
  obtain ⟨opener, xs, rfl, hopener, hpieces⟩ := List.map_eq_cons_iff.mp hpieces
  obtain ⟨first, xs, rfl, hfirst, hpieces⟩ := List.map_eq_cons_iff.mp hpieces
  obtain ⟨semi, xs, rfl, hkind, hpieces⟩ := List.map_eq_cons_iff.mp hpieces
  obtain ⟨second, xs, rfl, hsecond, hpieces⟩ := List.map_eq_cons_iff.mp hpieces
  obtain ⟨closer, xs, rfl, hcloser, hpieces⟩ := List.map_eq_cons_iff.mp hpieces
  obtain ⟨last, xs, rfl, hlast, hpieces⟩ := List.map_eq_cons_iff.mp hpieces
  obtain rfl := List.map_eq_nil_iff.mp hpieces
  simp only [Function.comp_apply, Prod.mk.injEq] at hopener hfirst hkind hsecond hcloser hlast
  refine ⟨_, parse_eq_ok_iff.mpr ⟨s, hs⟩, hstart, fun n => ?_, ?_⟩
  · have hopens : opener.kind ∈ listOpeners := by
      rw [Taken.kind, hopener.1]
      decide
    have hparse := hbehind [] opener [first, semi, second, closer, last] rfl (.inl hopens) n
    simpa [textIn, Token.text, hopener, hfirst, hkind, hsecond, hcloser, hlast] using hparse
  · obtain ⟨t', before, after, hparse, hframe, hold, hnew, -⟩ :=
      hsemi [opener, first] semi [second, closer, last] rfl hkind.1 '&' (by decide)
    obtain ⟨rfl, rfl⟩ : before = [] ∧ after = [] := by
      have hlength : 1 = before.length + (after.length + 1) :=
        (congrArg List.length hold).trans (by rw [List.length_append, List.length_cons])
      exact ⟨List.eq_nil_of_length_eq_zero (by omega), List.eq_nil_of_length_eq_zero (by omega)⟩
    refine ⟨t', ?_, hframe, rfl, hnew⟩
    simpa [textIn, Token.text, hopener, hfirst, hkind, hsecond, hcloser, hlast] using hparse

end ShellGrammar
