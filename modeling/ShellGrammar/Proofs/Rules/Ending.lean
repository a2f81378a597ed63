import ShellGrammar.Proofs.Rules.Inside
import ShellGrammar.Proofs.Tree.Written

/-! What is read where a text of commands ends.

Put the closer of a list behind a text of commands. Each token of the text is the token it
was, and where the text has ended the closer stands in place of the end of the source
(`Scan.Ahead.tokenAt_ending`). There are two exceptions. A comment on the last line goes on
over the closer, and a backslash that ends the text escapes it; but the second text is one
that nothing reads to its end. -/
namespace ShellGrammar

namespace Rules
variable {closer : Closer} {t : Text}

/-- The character that closes a nested list. -/
theorem closer_cases (hcloser : closer ≠ .endOfSource) :
    ∃ x, closer.text = [x] ∧ x ∈ closers ∧ command.text x = false ∧
      firstFit command.set.rules [x] = some (closer.kind, 1) := by
  cases closer with
  | endOfSource => exact absurd rfl hcloser
  | paren => exact ⟨')', rfl, by decide, rfl, rfl⟩
  | backquote => exact ⟨'`', rfl, by decide, rfl, rfl⟩

theorem isInert_closer (closer : Closer) : closer.text.isInert = true := by
  cases closer <;> rfl

/-- A comment starts with its sign. -/
theorem mem_of_comment (h : 0 < commentLength t) : '#' ∈ t := by
  cases t with
  | nil => exact absurd h (by decide)
  | cons c t =>
    by_cases hc : c = '#'
    · rw [hc]
      exact List.mem_cons_self
    · have hzero : commentLength (c :: t) = 0 := by
        simp [commentLength, comment, Pattern.reach, List.isPrefixOf, Ne.symm hc]
      omega

/-- No closer is blank. -/
theorem blankLength_closer (rules : Rules) (hcloser : closer ≠ .endOfSource) (t : Text) :
    rules.blankLength (t ++ closer.text) = rules.blankLength t := by
  obtain ⟨x, htext, hx, _, _⟩ := closer_cases hcloser
  rw [htext]
  simp only [blankLength]
  cases hblank : rules.set.blank with
  | none => rfl
  | some p =>
    simp only [Option.bind_some, Pattern.steady_of_avoids (blank_avoids hblank hx) t [] id]

end Rules

open Rules

/-- What can stand at a place with a closer behind the text, where `t` is the token that the
text alone makes there. -/
inductive Rules.Ending (closer : Closer) (t : Token) (a : Scan) : Prop where
  /-- The same token. -/
  | same (kind : t.kind ≠ .eos) (h : command.tokenAt a = .ok (t.at a))
  /-- The closer, where the text has ended. -/
  | closed {u : Token} (kind : t.kind = .eos) (h : command.tokenAt a = .ok u)
    (kind' : u.kind = closer.kind) (blank : u.blank = t.blank) (rest : u.after.rest = [])
  /-- A comment up to the end. -/
  | comment (kind : t.kind = .eos) (sharp : '#' ∈ t.origin.rest)
  /-- Bare text in front of a backslash, which escapes the closer. -/
  | longer {u : Token} (kind : t.kind = .str) (last : t.after.rest = ['\\'])
    (h : command.tokenAt a = .ok u) (kind' : u.kind = .str) (blank : u.blank = t.blank)
    (body : 1 < u.body.length)

namespace Scan.Ahead
variable {closer : Closer} {m a : Scan} {t : Token}

theorem skipLength_ending (h : m.Ahead closer.text a) (hcloser : closer ≠ .endOfSource) :
    command.skipLength a = command.skipLength m ∨
      (m.rest.drop (command.skipLength m) = [] ∧ '#' ∈ m.rest) := by
  have hblank : command.blankLength a.rest = command.blankLength m.rest := by
    rw [h.rest, blankLength_closer command hcloser]
  have hdrop : a.rest.drop (command.blankLength m.rest) =
      m.rest.drop (command.blankLength m.rest) ++ closer.text := by
    rw [h.rest, List.drop_append_of_le_length (blankLength_le _ _)]
  simp only [skipLength, hblank, h.commentMayStart, hdrop]
  split
  · by_cases hnil : m.rest.drop (command.blankLength m.rest) = []
    · left
      rw [hnil]
      cases closer <;> rfl
    · obtain ⟨hsame, _⟩ | ⟨hend, hpos, _⟩ := commentLength_inert hnil (isInert_closer closer)
      · exact .inl (by rw [hsame])
      · refine .inr ⟨?_, List.mem_of_mem_drop (mem_of_comment hpos)⟩
        rw [← List.drop_drop]
        exact hend
  · exact .inl rfl

/-- Where a text of commands has a closer behind it, its tokens are the same up to the
closer. -/
theorem tokenAt_ending (h : m.Ahead closer.text a) (hcloser : closer ≠ .endOfSource)
    (ht : command.tokenAt m = .ok t) : Ending closer t a := by
  obtain ⟨x, htext, hx, hstops, hfit⟩ := closer_cases hcloser
  have hle := skipLength_le command m
  obtain hskip | ⟨hnil, hsharp⟩ := h.skipLength_ending hcloser
  · have hdrop : a.rest.drop (command.skipLength a) =
        m.rest.drop (command.skipLength m) ++ [x] := by
      rw [hskip, h.rest, List.drop_append_of_le_length hle, htext]
    have hblank : a.rest.take (command.skipLength a) = m.rest.take (command.skipLength m) := by
      rw [hskip, h.rest, List.take_append_of_le_length hle]
    obtain ⟨hnil, rfl⟩ | ⟨kind, n, hn, rfl⟩ := tokenAt_cases ht
    · rw [hnil, List.nil_append] at hdrop
      rw [← hdrop] at hfit
      refine .closed rfl (tokenAt_of_fit hfit) rfl hblank ?_
      rw [rest_after_cut hfit, hdrop]
      rfl
    · obtain ⟨hne, hlength⟩ := firstFit_bounds hn
      rw [List.length_drop] at hlength
      obtain hsame | ⟨rfl, hedge, n', hlt, hlonger⟩ := firstFit_behind (closers_bounds hx) hne hn []
      · refine .same (firstFit_ne_eos hn) ?_
        rw [tokenAt_of_fit (hdrop ▸ hsame), hskip]
        exact congrArg _ (h.cut kind (by omega))
      · have hbody := (length_cut .str hn).2
        have hlast : (m.rest.drop (command.skipLength m)).drop n = ['\\'] :=
          hedge.resolve_right fun hend => by rw [hstops] at hend; cases hend.2
        refine .longer rfl ?_ (tokenAt_of_fit (hdrop ▸ hlonger)) rfl hblank ?_
        · rw [rest_after_cut hn]
          exact hlast
        · rw [(length_cut .str (hdrop ▸ hlonger)).2]
          have hpos := firstFit_pos hn
          omega
  · obtain ⟨_, rfl⟩ | ⟨kind, n, hn, _⟩ := tokenAt_cases ht
    · exact .comment rfl hsharp
    · rw [hnil] at hn
      exact absurd rfl (firstFit_bounds hn).1

end Scan.Ahead

end ShellGrammar
