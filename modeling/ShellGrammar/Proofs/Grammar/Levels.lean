import ShellGrammar.Grammar.Basic

/-! Levels of nesting, and what a limit on them changes.

Productions open levels through an action that is given to them, so a production is
a function of that action. Opened by `unlimited`, levels are only counted. Opened by
`descendOr limit refuse`, they are counted the same way until one more than `limit`
is asked for, and there `refuse` stops the run.

`Peaks act s peak` compares the two from a state `s`: a limit of at least `peak`
changes nothing, outcome and state included, and any lower limit refuses a level,
always at one and the same state, whatever `refuse` makes of it. Each way of putting
computations together has its lemma here, so that the peak of a production can be
read off its shape. -/
namespace ShellGrammar

/-! ### What a run puts back -/

/-- The modes, the open levels and the closing backquote are as they were. -/
structure Keeps (s s' : ParseState) : Prop where
  modes : s'.lexer.modes = s.lexer.modes
  inBackquote : s'.inBackquote = s.inBackquote
  depth : s'.depth = s.depth

namespace Keeps

theorem refl (s : ParseState) : Keeps s s := ⟨rfl, rfl, rfl⟩

theorem trans {s s' s'' : ParseState} (h : Keeps s s') (h' : Keeps s' s'') : Keeps s s'' :=
  ⟨h'.modes.trans h.modes, h'.inBackquote.trans h.inBackquote, h'.depth.trans h.depth⟩

end Keeps

/-! ### Ways to open a level -/

/-- What is done where no level is left: it stops, and puts back what a run puts back. -/
structure Refusal where
  halt : ParseState → Halt Fault
  after : ParseState → ParseState
  keeps : ∀ s, Keeps s (after s)

/-- A refusal as an action. -/
def Refusal.act (r : Refusal) : ParseM Unit := fun s => .error (r.halt s) (r.after s)

/-- The state one level further in. -/
def ParseState.deeper (s : ParseState) : ParseState := { s with depth := s.depth + 1 }

namespace ParseM

/-- Opens a level, however many are open. -/
def unlimited : ParseM Unit := modify ParseState.deeper

theorem unlimited_eq (s : ParseState) : unlimited s = .ok () s.deeper := rfl

/-- A limit of zero is none. -/
theorem descend_zero : descend 0 = unlimited := by
  funext s
  have hnot : ¬ (0 ≠ 0 ∧ 0 ≤ s.depth) := fun h => h.1 rfl
  show (if 0 ≠ 0 ∧ 0 ≤ s.depth then tooDeep 0 else _) s = _
  rw [if_neg hnot]
  rfl

theorem descendOr_of_lt {limit : Nat} {refuse : ParseM Unit} {s : ParseState}
    (h : s.depth < limit) : descendOr limit refuse s = .ok () s.deeper := by
  have hnot : ¬ (limit ≠ 0 ∧ limit ≤ s.depth) := by omega
  show (if limit ≠ 0 ∧ limit ≤ s.depth then refuse else _) s = _
  rw [if_neg hnot]
  rfl

theorem descendOr_of_le {limit : Nat} {refuse : ParseM Unit} {s : ParseState}
    (hpos : 0 < limit) (h : limit ≤ s.depth) : descendOr limit refuse s = refuse s := by
  have hfull : limit ≠ 0 ∧ limit ≤ s.depth := by omega
  show (if limit ≠ 0 ∧ limit ≤ s.depth then refuse else _) s = _
  rw [if_pos hfull]

end ParseM

/-! ### Peaks -/

open ParseM

/-- The most levels that are open at once in a run of `act` from `s`. A limit from there
on changes nothing; a lower one refuses a level at one state, which satisfies `At`, and
the run then ends in a state that satisfies `Left`. -/
structure Peaks {α : Type} (act : ParseM Unit → ParseM α) (s : ParseState) (peak : Nat)
    (At Left : ParseState → Prop) : Prop where
  within : ∀ limit refuse, 0 < limit → peak ≤ limit → act (descendOr limit refuse) s = act unlimited s
  beyond : ∀ limit, 0 < limit → s.depth ≤ limit → limit < peak →
    ∃ place, At place ∧ ∀ r : Refusal, ∃ s',
      act (descendOr limit r.act) s = .error (r.halt place) s' ∧ Left s'

namespace Peaks
variable {α β : Type} {act : ParseM Unit → ParseM α} {s s' : ParseState} {peak peak' : Nat}
  {At Left Left' : ParseState → Prop}

/-- A computation that opens no level peaks where it starts. -/
theorem const (m : ParseM α) (s : ParseState) (At Left : ParseState → Prop) :
    Peaks (fun _ => m) s s.depth At Left :=
  ⟨fun _ _ _ _ => rfl, fun _ _ hle hlt => absurd hlt (Nat.not_lt.mpr hle)⟩

/-- Opening a level. -/
theorem descend (hs : At s) : Peaks (fun d => d) s (s.depth + 1) At (Keeps s) := by
  refine ⟨fun limit refuse _ hle => descendOr_of_lt hle, fun limit hpos hle hlt => ?_⟩
  refine ⟨s, hs, fun r => ⟨r.after s, ?_, r.keeps s⟩⟩
  rw [descendOr_of_le hpos (Nat.le_of_lt_succ hlt)]
  rfl

theorem mono (h : Peaks act s peak At Left) (hleft : ∀ s', Left s' → Left' s') :
    Peaks act s peak At Left' := by
  refine ⟨h.within, fun limit hpos hle hlt => ?_⟩
  obtain ⟨place, hat, hplace⟩ := h.beyond limit hpos hle hlt
  refine ⟨place, hat, fun r => ?_⟩
  obtain ⟨s', hs', hl⟩ := hplace r
  exact ⟨s', hs', hleft s' hl⟩

/-- Only what a computation does from `s` matters. -/
theorem congr {act' : ParseM Unit → ParseM α} (h : Peaks act s peak At Left)
    (heq : ∀ d, act' d s = act d s) : Peaks act' s peak At Left := by
  refine ⟨fun limit refuse hpos hle => ?_, fun limit hpos hle hlt => ?_⟩
  · rw [heq, heq]
    exact h.within limit refuse hpos hle
  · simp only [heq]
    exact h.beyond limit hpos hle hlt

/-- No peak is lower than where a run starts. -/
theorem above (h : Peaks act s peak At Left) : Peaks act s (max s.depth peak) At Left := by
  refine ⟨fun limit refuse hpos hle => ?_, fun limit hpos hle hlt => ?_⟩
  · exact h.within limit refuse hpos (by omega)
  · exact h.beyond limit hpos hle (by omega)

theorem bind_error {k : α → ParseM Unit → ParseM β} {e : Halt Fault}
    (h : Peaks act s peak At Left) (herr : act unlimited s = .error e s') :
    Peaks (fun d => act d >>= fun a => k a d) s peak At Left := by
  refine ⟨fun limit refuse hpos hle => ?_, fun limit hpos hle hlt => ?_⟩
  · rw [bind_of_error herr, bind_of_error ((h.within limit refuse hpos hle).trans herr)]
  · obtain ⟨place, hat, hplace⟩ := h.beyond limit hpos hle hlt
    refine ⟨place, hat, fun r => ?_⟩
    obtain ⟨s', hs', hl⟩ := hplace r
    exact ⟨s', bind_of_error hs', hl⟩

/-- A computation and the one after it peak where the higher of the two does. -/
theorem bind {k : α → ParseM Unit → ParseM β} {a : α} (h : Peaks act s peak At Left)
    (hok : act unlimited s = .ok a s') (hdepth : s'.depth ≤ peak)
    (hk : Peaks (k a) s' peak' At Left) :
    Peaks (fun d => act d >>= fun a => k a d) s (max peak peak') At Left := by
  refine ⟨fun limit refuse hpos hle => ?_, fun limit hpos hle hlt => ?_⟩
  · have hfirst := (h.within limit refuse hpos (by omega)).trans hok
    rw [bind_of_ok hok, bind_of_ok hfirst]
    exact hk.within limit refuse hpos (by omega)
  · by_cases hp : limit < peak
    · obtain ⟨place, hat, hplace⟩ := h.beyond limit hpos hle hp
      refine ⟨place, hat, fun r => ?_⟩
      obtain ⟨s'', hs'', hl⟩ := hplace r
      exact ⟨s'', bind_of_error hs'', hl⟩
    · obtain ⟨place, hat, hplace⟩ := hk.beyond limit hpos (by omega) (by omega)
      refine ⟨place, hat, fun r => ?_⟩
      obtain ⟨s'', hs'', hl⟩ := hplace r
      exact ⟨s'', (bind_of_ok ((h.within limit r.act hpos (by omega)).trans hok)).trans hs'', hl⟩

/-- What is put back on the way out opens no level. -/
theorem ensuring {leave : ParseM Unit} (h : Peaks act s peak At Left)
    (hleave : ∀ s', Left s' → ∃ s'', leave s' = .ok () s'' ∧ Left' s'') :
    Peaks (fun d => ShellGrammar.ensuring (act d) leave) s peak At Left' := by
  refine ⟨fun limit refuse hpos hle => ?_, fun limit hpos hle hlt => ?_⟩
  · simp only [ShellGrammar.ensuring, h.within limit refuse hpos hle]
  · obtain ⟨place, hat, hplace⟩ := h.beyond limit hpos hle hlt
    refine ⟨place, hat, fun r => ?_⟩
    obtain ⟨s', hs', hl⟩ := hplace r
    obtain ⟨s'', hs'', hl'⟩ := hleave s' hl
    exact ⟨s'', ensuring_of_error hs' hs'', hl'⟩

end Peaks

end ShellGrammar
