import ShellGrammar.Proofs.Reader.Mentions

/-! The queries about a tree agree with its tokens.

What a tree mentions is what its tokens do (`Records.tells`), and the queries are read off
that list. -/
namespace ShellGrammar
open Grammar ParseM Node

/-- The queries about a tree agree with the tokens that were consumed for it, whatever the
limit: the parameters are the names written there, each at its first mention; there are
substitutions if one is opened; and there is a simple command for each entry of a list and for
each operator that was taken among commands. -/
theorem queries_agree {options : Options} {source : Text} {t : Node} {s : ParseState}
    (h : run options source = .ok t s) :
    t.parameterNames = (namesIn s.lexer.consumed).eraseDups ∧
      (t.hasSubstitutions = true ↔ ∃ u ∈ s.lexer.consumed,
        u.kind ∈ [.dollarParen, .backquote, .inParen, .outParen]) ∧
      ∃ xs, Records .script (.list .endOfSource) (.ofText source) [t] xs s.here ∧
        s.lexer.consumed = xs.map Taken.token ∧
        t.countSimpleCommands = t.preorder.countP isEntry +
          xs.countP fun x => x.rules = .command &&
            [Kind.pipe, .pipeAmp, .andAnd, .orOr].contains x.kind := by
  obtain ⟨xs, hrecords, hconsumed⟩ := run_records (run_unlimited h)
  obtain ⟨ms, hms, heq⟩ := (hrecords.tells rfl).mentions
  have hmentions : mentionsIn xs = t.mentions := by
    rw [hms.eq]
    simpa [Production.closing, Production.left] using heq.symm
  have hcontract : t.isList ∧ ∀ n ∈ t.preorder, n.Proper := by
    obtain ⟨es, last, front, rfl, hscript, -⟩ := Script.of_run (run_unlimited h)
    exact ⟨rfl, (contracted hscript.list trivial).contract _ List.mem_cons_self⟩
  obtain ⟨hlist, hcontract⟩ := hcontract
  refine ⟨?_, ?_, xs, hrecords, hconsumed, ?_⟩
  · rw [hconsumed, ← filterMap_mentionsIn, hmentions, parameters_mentions]
    rfl
  · rw [← substitution_mem_mentions, ← hmentions, substitution_mem_mentionsIn, hconsumed]
    simp [Kind.isSubstitution]
  · rw [countSimpleCommands, Contract.countP_isSimpleCommand hcontract, operators, ← hmentions,
      count_mentionsIn, chains, not_isChain_of_isList hlist]
    rfl

/-- In the script a|b `c`&&${!d*}${#!}$((e|$f)) the start of names and the operator of arithmetic
do not count, and the special parameter does. -/
theorem queries_agree_forms :
    ∃ t s, run ⟨9⟩ ['a', '|', 'b', ' ', '`', 'c', '`', '&', '&', '$', '{', '!', 'd', '*', '}', '$',
        '{', '#', '!', '}', '$', '(', '(', 'e', '|', '$', 'f', ')', ')'] = .ok t s ∧
      t.parameterNames = [['!'], ['e'], ['f']] ∧
      t.parameterNames = (namesIn s.lexer.consumed).eraseDups ∧
      t.hasSubstitutions = true ∧
      (∃ u ∈ s.lexer.consumed, u.kind ∈ [.dollarParen, .backquote, .inParen, .outParen]) ∧
      t.countSimpleCommands = 4 ∧ t.preorder.countP isEntry = 2 ∧
      ∃ xs : List Taken, s.lexer.consumed = xs.map Taken.token ∧
        (xs.countP fun x => x.rules = .command &&
          [Kind.pipe, .pipeAmp, .andAnd, .orOr].contains x.kind) = 2 := by
  have hparse : (parse ⟨9⟩ ['a', '|', 'b', ' ', '`', 'c', '`', '&', '&', '$', '{', '!', 'd', '*',
      '}', '$', '{', '#', '!', '}', '$', '(', '(', 'e', '|', '$', 'f', ')', ')']).toOption = some
      (.list [.pipelines (.andOr ['&', '&']
        (.pipeline false (.pipe ['|'] (.simpleCommand [] [.str ['a']])
          (.simpleCommand [] [.str ['b'], .commandSubst ['`'] (.list [.pipelines
            (.pipeline false (.simpleCommand [] [.str ['c']])) none])])))
        (.pipeline false (.simpleCommand [] [.concat [.namesStarting ['d'] ['*'],
          .paramLength false ['!'],
          .arithExpansion (.binOp ['|'] (.var ['e'] false) (.var ['f'] true))]]))) none]) := by
    decide +kernel
  obtain ⟨s, hs⟩ := parse_eq_ok_iff.mp (parse_of_toOption hparse)
  obtain ⟨hnames, hsubstitutions, xs, -, hconsumed, hcount⟩ := queries_agree hs
  refine ⟨_, s, hs, by decide +kernel, hnames, by decide +kernel,
    hsubstitutions.mp (by decide +kernel), by decide +kernel, by decide +kernel, xs, hconsumed, ?_⟩
  have hcommands : (4 : Nat) = 2 + _ := hcount
  omega

end ShellGrammar
