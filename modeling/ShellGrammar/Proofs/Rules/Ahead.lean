import ShellGrammar.Proofs.Rules.Newline

/-! Places with the same text ahead.

What is left at one place is what is left at the other and then a `tail`, and comments may
start at both or at neither. What is cut off one text is then cut off the other, if it does
not reach into the tail. -/
namespace ShellGrammar

/-! ### What a token has of the text -/

namespace Rules
open Pattern
variable {rules : Rules} {place : Scan}

theorem firstFit_bounds {rs : List Rule} {t : Text} {kind : Kind} {n : Nat}
    (h : firstFit rs t = some (kind, n)) : t ≠ [] ∧ n ≤ t.length := by
  obtain ⟨r, _, _, hreach⟩ := firstFit_mem h
  obtain ⟨hreach, hpos⟩ := reach?_eq_some_iff.mp hreach
  have hle := reach_le hreach
  refine ⟨fun hnil => ?_, hle⟩
  rw [hnil, List.length_nil] at hle
  omega

theorem firstFit_pos {rs : List Rule} {t : Text} {kind : Kind} {n : Nat}
    (h : firstFit rs t = some (kind, n)) : 0 < n := by
  obtain ⟨r, _, _, hreach⟩ := firstFit_mem h
  exact (reach?_eq_some_iff.mp hreach).2

/-- Where no rule is the first to fit, none fits. -/
theorem reach?_of_firstFit {rs : List Rule} {t : Text} (h : firstFit rs t = none) :
    ∀ r ∈ rs, r.pattern.reach? t = none := by
  induction rs with
  | nil => exact fun _ hr => nomatch hr
  | cons r rs ih =>
    rw [firstFit] at h
    split at h
    · cases h
    · rename_i hr
      intro r' hr'
      rcases List.mem_cons.mp hr' with rfl | hr'
      · exact hr
      · exact ih h r' hr'

theorem tokenAt_of_fit {place : Scan} {fit : Kind × Nat}
    (h : firstFit rules.set.rules (place.rest.drop (rules.skipLength place)) = some fit) :
    rules.tokenAt place = .ok (cut fit.1 (rules.skipLength place) fit.2 place) := by
  obtain ⟨c, r, hcons⟩ := List.exists_cons_of_ne_nil (firstFit_bounds h).1
  rw [hcons] at h
  simp only [tokenAt, hcons, h]

/-- What is cut off has the lengths it was cut by. -/
theorem length_cut (kind : Kind) {length : Nat}
    (h : firstFit rules.set.rules (place.rest.drop (rules.skipLength place)) =
      some (kind, length)) :
    (cut kind (rules.skipLength place) length place).blank.length = rules.skipLength place ∧
      (cut kind (rules.skipLength place) length place).body.length = length := by
  have hskip := skipLength_le rules place
  have hlength := (firstFit_bounds h).2
  rw [List.length_drop] at hlength
  simp only [cut, List.length_take, List.length_drop]
  omega

/-- Behind what is cut off stands the rest. -/
theorem rest_after_cut {kind : Kind} {length : Nat}
    (h : firstFit rules.set.rules (place.rest.drop (rules.skipLength place)) =
      some (kind, length)) :
    (cut kind (rules.skipLength place) length place).after.rest =
      (place.rest.drop (rules.skipLength place)).drop length := by
  obtain ⟨hblank, hlength⟩ := length_cut kind h
  rw [Token.after, hblank, hlength, cut, Scan.rest_forward, List.drop_drop]

theorem commentMayStart_forward {s : Scan} {n : Nat} (h : n < s.rest.length) :
    commentMayStart 0 (s.forward (n + 1)) =
      ((s.rest.take (n + 1)).getLast?.map isBoundary).getD true := by
  have hne : (s.rest.take (n + 1)).reverse ≠ [] := by
    intro hnil
    have hlength := congrArg List.length hnil
    rw [List.length_reverse, List.length_take, List.length_nil] at hlength
    omega
  have hhead : ((s.rest.take (n + 1)).reverse ++ s.before).head? =
      (s.rest.take (n + 1)).getLast? := by
    obtain ⟨c, r, hcons⟩ := List.exists_cons_of_ne_nil hne
    rw [← List.head?_reverse, hcons]
    rfl
  simp only [commentMayStart, Scan.before_forward, hhead, Nat.lt_irrefl, decide_false,
    Bool.false_or]

end Rules

/-! ### The same text and a tail -/

/-- At `b` stands what stands at `a`, and then a tail. -/
structure Scan.Ahead (tail : Text) (a b : Scan) : Prop where
  rest : b.rest = a.rest ++ tail
  /-- A comment may start at both or at neither. -/
  boundary : Rules.commentMayStart 0 b = Rules.commentMayStart 0 a

/-- The same token, read elsewhere. -/
def Token.at (t : Token) (place : Scan) : Token := { t with origin := place }

namespace Scan.Ahead
variable {tail : Text} {a b : Scan}

theorem forward (h : a.Ahead tail b) {n : Nat} (hn : n ≤ a.rest.length) :
    (a.forward n).Ahead tail (b.forward n) := by
  have htake : b.rest.take n = a.rest.take n := by
    rw [h.rest, List.take_append_of_le_length hn]
  refine ⟨?_, ?_⟩
  · rw [Scan.rest_forward, Scan.rest_forward, h.rest, List.drop_append_of_le_length hn]
  · cases n with
    | zero => exact h.boundary
    | succ n =>
      have hb : n < b.rest.length := by
        rw [h.rest, List.length_append]
        omega
      rw [Rules.commentMayStart_forward hb, Rules.commentMayStart_forward hn, htake]

theorem cut (h : a.Ahead tail b) (kind : Kind) {skip length : Nat}
    (hle : skip + length ≤ a.rest.length) :
    Rules.cut kind skip length b = (Rules.cut kind skip length a).at b := by
  have hskip : skip ≤ a.rest.length := by omega
  have hlength : length ≤ (a.rest.drop skip).length := by
    rw [List.length_drop]
    omega
  simp only [Rules.cut, Token.at, h.rest, List.take_append_of_le_length hskip,
    List.drop_append_of_le_length hskip, List.take_append_of_le_length hlength]

/-- Behind the same token stands the same again. -/
theorem after {t : Token} (h : t.origin.Ahead tail b) (hfits : t.Fits) :
    t.after.Ahead tail (t.at b).after := by
  have hle := hfits.length_le
  rw [Token.text, List.length_append] at hle
  exact h.forward hle

theorem commentMayStart (h : a.Ahead tail b) (n : Nat) :
    Rules.commentMayStart n b = Rules.commentMayStart n a := by
  cases n with
  | zero => exact h.boundary
  | succ n => rfl

end Scan.Ahead

/-- Behind something that was read, the same is ahead if the same was. -/
theorem Scan.ahead_forward {a b : Scan} {tail : Text} {n : Nat} (h : b.rest = a.rest ++ tail)
    (hpos : 0 < n) (hn : n ≤ a.rest.length) : (a.forward n).Ahead tail (b.forward n) := by
  obtain ⟨m, rfl⟩ := Nat.exists_eq_succ_of_ne_zero (Nat.ne_of_gt hpos)
  have hb : m < b.rest.length := by
    rw [h, List.length_append]
    omega
  refine ⟨?_, ?_⟩
  · rw [Scan.rest_forward, Scan.rest_forward, h, List.drop_append_of_le_length hn]
  · rw [Rules.commentMayStart_forward hb, Rules.commentMayStart_forward hn, h, List.take_append_of_le_length hn]

end ShellGrammar
