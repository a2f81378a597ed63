import ShellGrammar.Proofs.Pair.Command
import ShellGrammar.Proofs.Script

/-! No parse breaks a promise.

The lexer and the combinators of the grammar rely on whoever drives them: stepping back
needs a consumed token, reading a buffer that the cursor has not left behind, cutting the
source a place between two characters, noting a span two places in order, leaving a rule
set or a level one that was entered, and every loop and level a bound that is large
enough. Each of these is checked where it is relied on, and a check that fails ends a run
with a `Breach`, which nothing catches.

That no text leads to one is what a parse beside itself comes to: a run ends with a breach
only if there was as much text left as it had room for, and a script has one level and one
step more than it has characters. -/
namespace ShellGrammar
open ParseM

/-- A parse of a script beside itself. -/
theorem list_tracks (options : Options) (source : Text) :
    Tracks (.same source) options.maxDepth true (fun _ _ => True) (source.length + 1) (fun _ => 0)
      (.ofText source) (.ofText source) (run options source) (run options source) := by
  have hagree := agree_level ⟨true, options.maxDepth⟩ (source.length + 1) _ (Nat.le_refl _)
  have hlist := hagree.list (c := .script) .endOfSource rfl fun _ => rfl
  rw [steps_level] at hlist
  exact (hlist.mono (fun _ _ _ => trivial) (Nat.le_refl _) fun _ => Nat.le_refl _)
    (.same source) (fun _ => rfl) _ _ (Pair.inStep_same (Lexer.current_ofText source)) rfl

/-- A parse that stops, stops at a fault of the text. -/
theorem fault_of_run {options : Options} {source : Text} {e : Halt Fault} {s : ParseState}
    (h : run options source = .error e s) : ∃ f, e = .fault f := by
  cases e with
  | fault f => exact ⟨f, rfl⟩
  | breach b =>
    have htracks := list_tracks options source
    rw [h] at htracks
    have hleft : (ParseState.ofText source).left = source.length := rfl
    have hroom : source.length + 1 ≤ (ParseState.ofText source).left := htracks.2
    omega

/-- Whatever the text and the limit, a parse breaks no promise: it never steps back from
the first token, reads past its buffer, cuts the source inside a character or past its end,
notes a span that stops before it starts, leaves a rule set or a level that it did not
enter, or runs out of steps. -/
theorem run_ne_breach (options : Options) (source : Text) (b : Breach) (s : ParseState) :
    run options source ≠ .error (.breach b) s := by
  intro hrun
  obtain ⟨f, hf⟩ := fault_of_run hrun
  cases hf

end ShellGrammar
