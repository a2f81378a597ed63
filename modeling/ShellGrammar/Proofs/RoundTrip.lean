import ShellGrammar.Proofs.Print.Command
import ShellGrammar.Proofs.Print.Parameter
import ShellGrammar.Proofs.Reader.Script
import ShellGrammar.Proofs.Tree.Need

/-! What is printed parses.

Every production reads again what it read, where it is printed (`Parses.reprinted`), and a script is
the entries up to the end of the source. So a tree, printed, parses to itself (`parse_printed`), under
the same limit, since the levels that are opened are what the tree needs. -/
namespace ShellGrammar
open Grammar ParseM Rules

/-- What a production reads is read again where it is printed. -/
theorem Parses.reprinted {c : Context} {p : Production} {a a' : Scan} {ns : List Node} (h : Parses c p a ns a') :
    Reprinted c p a ns a' := by
  refine ⟨h, h.induct (P := fun c p a ns a' => p.Fitting c → p.Reprints c a ns a') ?_⟩
  intro c p a ns a' hbody hmode
  cases p with
  | newlines => trivial
  | list => exact .list hmode hbody
  | entries => exact .entries hmode hbody
  | entry => exact .entry hmode hbody
  | chain => exact .chain hmode hbody
  | chainRest => exact .chainRest hmode hbody
  | pipeline => exact .pipeline hmode hbody
  | command => exact .command hmode hbody
  | assign => exact .assign hmode hbody
  | word => exact .word hmode hbody
  | piece => exact .piece hmode hbody
  | quoted => exact .quoted hmode hbody
  | braced => exact .braced hmode hbody
  | arithClosed => exact .arithClosed hmode hbody
  | assignment => exact .assignment hmode hbody
  | ternary => exact .ternary hmode hbody
  | power => exact .power hmode hbody
  | unary => exact .unary hmode hbody
  | post => exact .post hmode hbody
  | primary => exact .primary hmode hbody
  | many p =>
    cases p with
    | assign => exact (strung_assign hmode).resumes_many hbody
    | word => exact (strung_word hmode).resumes_many hbody
    | piece adjacent =>
      cases adjacent with
      | true => exact (strung_piece hmode).resumes_many hbody
      | false => exact hmode.elim
    | _ => exact hmode.elim

/-- The entries of a script, printed, are a script with the same entries. -/
theorem Script.printed {source : Text} {es : List Node} {last : Token} (h : Script source es last) :
    ∃ last', Script (Node.list es).printed es last' := by
  have hlast : Context.script.token? last.origin = some last := Context.token?_eq_some.mpr h.lexed
  obtain ⟨core, trail, hprinted, htrail, hreads⟩ :=
    h.entries.reprinted.2 rfl nofun rfl ⟨last, hlast, h.ends⟩ [] (.inl rfl)
  have hsource : (Scan.ofText (Node.list es).printed).rest = core ++ trail := by
    rw [← hprinted]
    show (Node.list es).printed = _
    rw [Node.printed, List.nil_append]
  have hend : trail = trail ++ (Closer.endOfSource.text ++ []) := (List.append_nil trail).symm
  obtain ⟨place, hlead, hrest, -⟩ := (hreads trail ⟨[], hend, fun _ => rfl⟩).2 _ hsource rfl
  obtain ⟨last', hlexed, hkind⟩ := tokenAt_closer htrail (fun _ => rfl) (hrest.trans hend)
  obtain ⟨rfl, -⟩ := tokenAt_fits hlexed
  exact ⟨last', leads_all.mp hlead, hlexed, hkind⟩

/-- A tree that some text parses to is the tree of the text that it is printed as, under any limit
under which the other text parses. -/
theorem parse_printed {options : Options} {source : Text} {t : Node} (h : parse options source = .ok t) :
    parse options t.printed = .ok t := by
  obtain ⟨s, hrun⟩ := parse_eq_ok_iff.mp h
  obtain ⟨es, last, -, rfl, hscript, -⟩ := Script.of_run (run_unlimited hrun)
  obtain ⟨last', hprinted⟩ := hscript.printed
  obtain ⟨limit⟩ := options
  obtain rfl | hpos := Nat.eq_zero_or_pos limit
  · exact hprinted.parse_eq
  · exact parse_of_need_le hpos hprinted.parse_eq (need_le_of_run hpos hrun)

/-- Where `! x=1  a|b&${y:1 :2}` and a newline are printed, they are `! x=1 a | b& ${y: 1 : 2}` and a
newline, which parse to the same tree. -/
theorem parse_printed_pipes :
    ∃ t, parse ⟨64⟩ ['!', ' ', 'x', '=', '1', ' ', ' ', 'a', '|', 'b', '&', '$', '{', 'y', ':', '1', ' ', ':', '2',
        '}', '\n'] = .ok t ∧
      t.printed = ['!', ' ', 'x', '=', '1', ' ', 'a', ' ', '|', ' ', 'b', '&', ' ', '$', '{', 'y', ':', ' ', '1', ' ',
        ':', ' ', '2', '}', '\n'] ∧
      parse ⟨64⟩ t.printed = .ok t := by
  have hparse : parse ⟨64⟩ ['!', ' ', 'x', '=', '1', ' ', ' ', 'a', '|', 'b', '&', '$', '{', 'y', ':', '1', ' ', ':',
      '2', '}', '\n'] = .ok (.list [
        .pipelines (.pipeline true (.pipe ['|'] (.simpleCommand [.assign ['x'] (some (.str ['1']))] [.str ['a']])
          (.simpleCommand [] [.str ['b']]))) (some ['&']),
        .pipelines (.pipeline false (.simpleCommand [] [.substring false ['y'] (.number ['1']) (.number ['2'])]))
          (some ['\n'])]) :=
    parse_of_toOption (by decide +kernel)
  refine ⟨_, hparse, ?_, parse_printed hparse⟩
  decide +kernel

/-- Behind the offset of a substring, a colon asks for a length. So where none was written, no colon
is printed. -/
example : (parse ⟨64⟩ ['$', '{', 'y', ':', ' ', '1', ' ', ':', ' ', '}']).toOption = none := by
  decide +kernel

end ShellGrammar
