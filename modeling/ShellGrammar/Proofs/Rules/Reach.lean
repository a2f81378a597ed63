import ShellGrammar.Pattern

/-! How far patterns reach, from the text in front of them.

A repetition of a test goes on exactly as long as the test holds, so what it takes from a
text can be told from where the test first fails. -/
namespace ShellGrammar.Pattern
variable {piece : Text → Option Nat} {p : Pattern} {t : Text}

/-- A repeated test takes the characters that pass it, up to one that does not. -/
theorem covered_one {test : Char → Bool} {w rest : Text} (hw : w.all test = true)
    (hrest : ∀ ch, rest.head? = some ch → test ch = false) :
    covered (one test).reach 0 (w ++ rest) = w.length := by
  induction w with
  | nil =>
    cases rest with
    | nil => rfl
    | cons ch rest => simp [covered, reach, hrest ch rfl]
  | cons ch w ih =>
    obtain ⟨hch, hw⟩ := Bool.and_eq_true_iff.mp (List.all_cons ▸ hw)
    simp only [List.cons_append, covered, reach, hch, if_true, ih hw, List.length_cons]

/-- What goes on up to a character goes up to it, or there is none and it goes up to the end. -/
theorem drop_noneOf (d : Char) (r : Text) :
    (d ∉ r ∧ r.drop (covered (noneOf [d]).reach 0 r) = []) ∨
      ∃ more, r.drop (covered (noneOf [d]).reach 0 r) = d :: more := by
  induction r with
  | nil => exact .inl ⟨List.not_mem_nil, rfl⟩
  | cons c r ih =>
    by_cases hc : c = d
    · subst hc
      right
      refine ⟨r, ?_⟩
      simp [covered, reach, noneOf]
    · have htake : covered (noneOf [d]).reach 0 (c :: r) =
          covered (noneOf [d]).reach 0 r + 1 := by
        simp [covered, reach, noneOf, hc]
      rw [htake, List.drop_succ_cons]
      refine ih.imp (fun h => ⟨?_, h.2⟩) id
      rw [List.mem_cons, not_or]
      exact ⟨Ne.symm hc, h.1⟩

/-- What is left of a piece is covered, and then what the next pieces cover. -/
theorem covered_left (k : Nat) (h : k ≤ t.length) :
    covered piece k t = k + covered piece 0 (t.drop k) := by
  induction k generalizing t with
  | zero => rw [Nat.zero_add, List.drop_zero]
  | succ k ih =>
    cases t with
    | nil => cases h
    | cons c t =>
      rw [covered, ih (Nat.le_of_succ_le_succ h), List.drop_succ_cons]
      omega

/-- At least once is as often as possible, or not at all. -/
theorem reach_some1 (hpos : p.reach t ≠ some 0) :
    ((some1 p).reach t).getD 0 = covered p.reach 0 t := by
  cases hp : p.reach t with
  | none =>
    have hzero : covered p.reach 0 t = 0 := by
      cases t with
      | nil => rfl
      | cons c t => simp only [covered, hp]
    simp only [some1, reach, hp, hzero]
    rfl
  | some n =>
    have hle := reach_le hp
    cases n with
    | zero => exact absurd hp hpos
    | succ k =>
      cases t with
      | nil => cases hle
      | cons c t =>
        simp only [some1, reach, hp, covered, Option.bind_eq_bind, Option.bind_some,
          Option.pure_def, Option.getD_some, List.drop_succ_cons,
          covered_left k (Nat.le_of_succ_le_succ hle)]
        omega

/-- A name is taken up to a character that is none of a name. -/
theorem reach_variableName {name rest : Text} (hname : Text.isVariableName name = true)
    (hrest : ∀ ch, rest.head? = some ch → Text.isNameRest ch = false) :
    variableName.reach (name ++ rest) = some name.length := by
  cases name with
  | nil => cases hname
  | cons ch name =>
    obtain ⟨hstart, hname⟩ := Bool.and_eq_true_iff.mp hname
    simp only [variableName, reach, List.cons_append, hstart, if_true, List.drop_succ_cons,
      List.drop_zero, covered_one hname hrest, Option.bind_eq_bind, Option.bind_some,
      Option.pure_def, List.length_cons, Nat.add_comm]

end ShellGrammar.Pattern
