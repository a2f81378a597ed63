import ShellGrammar.Proofs.Rules.Spelling
import ShellGrammar.Proofs.Script

/-! How many levels a tree needs.

`Node.need` counts levels on the tree alone. Some constructs take one level for all that
is in them. An operator of a chain takes one too, and holds it until the chain ends, so
its right side stands under as many levels as there are operators of the chain up to it
(`Node.spine`). `Derives.opened_add` says that this is how many levels reading the tree
opens, so a limit lets a script through exactly if it allows what its tree needs. -/
namespace ShellGrammar
open Grammar

/-! ### Operators -/

/-- The chains of operators that join to the left. The binary operators of arithmetic
make up one family, whatever their rows. -/
inductive Family where
  | andOr
  | pipe
  | comma
  | binary
deriving DecidableEq

/-- How an operator of arithmetic takes levels. -/
inductive OpClass where
  | assignment
  | power
  | chain (family : Family)
  | other
deriving DecidableEq

/-- The texts of some kinds. -/
def spellings (kinds : List Kind) : List Text := kinds.filterMap Kind.spelling?

/-- The class of an operator, by its text. -/
def opClass (op : Text) : OpClass :=
  if op ∈ spellings assignmentOps then .assignment
  else if op ∈ spellings [.starStar] then .power
  else if op ∈ spellings [.comma] then .chain .comma
  else if op ∈ spellings binaryRows.flatten then .chain .binary
  else .other

/-! ### The need of a tree -/

/-- How many operators of a chain stand on the left spine of a tree, its root included. -/
@[simp] def Node.spine (family : Family) : Node → Nat
  | .andOr _ left _ => if family = .andOr then left.spine family + 1 else 0
  | .pipe _ left _ => if family = .pipe then left.spine family + 1 else 0
  | .binOp op left _ => if opClass op = .chain family then left.spine family + 1 else 0
  | _ => 0

mutual

/-- How many levels of nesting a tree needs. -/
@[simp] def Node.need : Node → Nat
  | .doubleQuoted body => 1 + Node.needAll body
  | .param .. | .paramLength .. | .namesStarting .. | .paramTransform .. | .arrayElements ..
  | .arrayKeys .. => 1
  | .paramDefault _ _ _ value => 1 + value.need
  | .substring _ _ offset length => 1 + max offset.need length.need
  | .patternRemoval _ _ _ pattern | .caseChange _ _ _ pattern => 1 + pattern.need
  | .patternReplacement _ _ _ pattern replace => 1 + max pattern.need (Node.needOpt replace)
  | .arrayElement _ _ subscript => 1 + subscript.need
  | .arithExpansion body | .commandSubst _ body | .processSubst _ body | .parentheses body =>
    1 + body.need
  | .unOp _ operand => 1 + operand.need
  | .andOr _ left right => max left.need (left.spine .andOr + 1 + right.need)
  | .pipe _ left right => max left.need (left.spine .pipe + 1 + right.need)
  | .binOp op left right =>
    match opClass op with
    | .assignment => 1 + right.need
    | .power => max left.need (1 + right.need)
    | .chain family => max left.need (left.spine family + 1 + right.need)
    | .other => max left.need right.need
  | .ternary cond yes no => max cond.need (max (1 + yes.need) (1 + no.need))
  -- Everything else opens no level of its own.
  | .list body | .concat body => Node.needAll body
  | .simpleCommand assigns body => max (Node.needAll assigns) (Node.needAll body)
  | .pipelines body _ | .pipeline _ body => body.need
  | .assign _ value => Node.needOpt value
  | .postOp _ operand => operand.need
  | .str _ | .singleQuoted _ | .simpleParam _ | .number _ | .var .. | .empty => 0

@[simp] def Node.needAll : List Node → Nat
  | [] => 0
  | a :: as => max a.need (Node.needAll as)

@[simp] def Node.needOpt : Option Node → Nat
  | none => 0
  | some a => a.need

end

/-! ### Operators of derivations -/

theorem opClass_of_row {kind : Kind} {row : Nat} (h : rowOf? kind = some row) :
    kind.spelling?.map opClass = some (.chain .binary) := by
  have hall : ∀ kind : Kind, (rowOf? kind).isSome = true →
      kind.spelling?.map opClass = some (.chain .binary) := by
    intro kind
    cases kind <;> decide
  exact hall kind (by rw [h]; rfl)

theorem opClass_of_assignment {kind : Kind} (h : kind ∈ assignmentOps) :
    kind.spelling?.map opClass = some .assignment := by
  revert kind
  decide

namespace Context
variable {c : Context} {t : Token}

theorem Sees.opClass {adjacent : Bool} {cls : OpClass} (h : c.Sees adjacent t)
    (hc : t.kind.spelling?.map ShellGrammar.opClass = some cls) :
    ShellGrammar.opClass t.body = cls := by
  obtain ⟨spelling, hs, hcls⟩ := Option.map_eq_some_iff.mp hc
  rw [Rules.body_of_spelling h.lexed hs]
  exact hcls

theorem Finds.opClass {kind : Kind} {cls : OpClass} (h : c.Finds [kind] t)
    (hc : kind.spelling?.map ShellGrammar.opClass = some cls) :
    ShellGrammar.opClass t.body = cls :=
  h.reads.opClass (h.kind_eq ▸ hc)

end Context

/-! ### Chains of derivations -/

/-- How many operators of a chain stand on the left spine of what a phrase derives, where
that is the same for all. -/
@[simp] def Phrase.folds? : Phrase → Family → Option Nat
  | .andOr folds, .andOr => some folds
  | .pipeline, .andOr => some 0
  | .pipe folds, .pipe => some folds
  | .command, .pipe => some 0
  | .comma folds, .comma => some folds
  | .assignment, .comma | .ternary, .comma | .binary .., .comma => some 0
  | .binary _ folds, .binary => some folds
  | .power, .comma | .unary, .comma | .post, .comma | .primary, .comma | .parameter, .comma
  | .arithExpansion, .comma | .form .., .comma => some 0
  | .power, .binary | .unary, .binary | .post, .binary | .primary, .binary | .parameter, .binary
  | .arithExpansion, .binary | .form .., .binary => some 0
  | _, _ => none

theorem Derives.spine_eq {c : Context} {p : Phrase} {as : List Node} {ts : List Token} {n : Nat}
    (h : Derives c p as ts n) (family : Family) {folds : Nat} (hp : p.folds? family = some folds) :
    ∀ a ∈ as, a.spine family = folds := by
  induction h generalizing folds with
  | @commaFold _ _ _ _ _ _ _ _ t _ ht _ ih _ =>
    have hop : opClass t.body = .chain .comma := ht.opClass (by decide)
    cases family <;> cases hp
    simp [hop, ih rfl]
  | @assignmentOp _ _ u _ _ _ _ hu _ _ =>
    have hop : opClass u.body = .assignment := hu.reads.opClass (opClass_of_assignment hu.mem)
    cases family <;> cases hp
    simp [hop]
  | @binaryFold _ _ _ _ _ _ _ _ _ _ _ t _ ht hrow _ _ ih _ =>
    have hop : opClass t.body = .chain .binary := ht.opClass (opClass_of_row hrow)
    cases family <;> cases hp <;> simp [hop, ih rfl]
  | @powerOp _ _ _ _ _ _ _ t _ ht _ _ _ =>
    have hop : opClass t.body = .power := ht.opClass (by decide)
    cases family <;> cases hp <;> simp [hop]
  | _ => cases family <;> cases hp <;> simp_all

/-! ### Levels of derivations -/

/-- The levels that were opened for a phrase before it begins. -/
@[simp] def Phrase.opened : Phrase → Nat
  | .doubleQuoted | .parameter | .arithExpansion | .form .. => 1
  | _ => 0

/-- Reading a tree opens as many levels as the tree needs. -/
theorem Derives.opened_add {c : Context} {p : Phrase} {as : List Node} {ts : List Token} {n : Nat}
    (h : Derives c p as ts n) : p.opened + n = Node.needAll as := by
  induction h with
  | @manyCons _ p _ _ _ _ _ _ hpart _ _ ih ih' =>
    have hopened : p.opened = 0 := by cases p <;> first | rfl | cases hpart
    simp_all
  | andOrFold hl _ _ _ ih ih' =>
    have hspine := hl.spine_eq .andOr rfl _ List.mem_cons_self
    simp_all
  | pipeFold hl _ _ _ ih ih' =>
    have hspine := hl.spine_eq .pipe rfl _ List.mem_cons_self
    simp_all
  | @commaFold _ _ _ _ _ _ _ _ t hl ht _ ih ih' =>
    have hspine := hl.spine_eq .comma rfl _ List.mem_cons_self
    have hop : opClass t.body = .chain .comma := ht.opClass (by decide)
    simp_all
  | @binaryFold _ _ _ _ _ _ _ _ _ _ _ t hl ht hrow _ _ ih ih' =>
    have hspine := hl.spine_eq .binary rfl _ List.mem_cons_self
    have hop : opClass t.body = .chain .binary := ht.opClass (opClass_of_row hrow)
    simp_all
  | @assignmentOp _ _ u _ _ _ _ hu _ ih =>
    have hop : opClass u.body = .assignment := hu.reads.opClass (opClass_of_assignment hu.mem)
    simp_all
  | @powerOp _ _ _ _ _ _ _ t _ ht _ ih ih' =>
    have hop : opClass t.body = .power := ht.opClass (by decide)
    simp_all
  | _ => simp_all

/-! ### Limits -/

/-- The levels a script opens are what its tree needs. -/
theorem ScriptPeaks.eq_need {source : Text} {peak : Nat} (h : ScriptPeaks source peak) {t : Node}
    (ht : parse ⟨0⟩ source = .ok t) : peak = t.need := by
  obtain ⟨s, hs⟩ := parse_eq_ok_iff.mp ht
  rw [run_zero] at hs
  have hopened := (h.derives t s hs).2.opened_add
  simpa using hopened

/-- What parses under a limit needs no more than it allows. -/
theorem need_le_of_run {limit : Nat} (hpos : 1 ≤ limit) {source : Text} {t : Node} {s : ParseState}
    (h : run ⟨limit⟩ source = .ok t s) : t.need ≤ limit := by
  obtain ⟨peak, hpeak⟩ := exists_scriptPeaks source
  rw [← hpeak.eq_need (parse_eq_ok_iff.mpr ⟨s, run_unlimited h⟩)]
  rcases Nat.lt_or_ge limit peak with hlt | hle
  · obtain ⟨place, _, hplace⟩ := hpeak.beyond limit hpos hlt
    obtain ⟨s', hs'⟩ := hplace.run_eq
    rw [hs'] at h
    cases h
  · exact hle

/-- A limit that allows what the tree needs changes nothing. -/
theorem parse_of_need_le {limit : Nat} (hpos : 1 ≤ limit) {source : Text} {t : Node}
    (h : parse ⟨0⟩ source = .ok t) (hneed : t.need ≤ limit) : parse ⟨limit⟩ source = .ok t := by
  obtain ⟨peak, hpeak⟩ := exists_scriptPeaks source
  rw [← hpeak.eq_need h] at hneed
  exact (parse_congr (hpeak.run_of_le hpos hneed)).trans h

/-- A limit lets a script through exactly if it allows what the tree needs, and changes
nothing about the tree. -/
theorem parse_limited_iff {limit : Nat} (hpos : 1 ≤ limit) (source : Text) (t : Node) :
    parse ⟨limit⟩ source = .ok t ↔ parse ⟨0⟩ source = .ok t ∧ t.need ≤ limit := by
  obtain ⟨peak, hpeak⟩ := exists_scriptPeaks source
  rcases Nat.lt_or_ge limit peak with hlt | hle
  · -- Here a level is refused, so there is no tree on the left and too deep a one on the right.
    constructor
    · intro h
      obtain ⟨s, hs⟩ := parse_eq_ok_iff.mp h
      obtain ⟨place, _, hplace⟩ := hpeak.beyond limit hpos hlt
      obtain ⟨s', hs'⟩ := hplace.run_eq
      rw [hs'] at hs
      cases hs
    · intro h
      obtain ⟨h, hneed⟩ := h
      rw [← hpeak.eq_need h] at hneed
      omega
  · have hsame : parse ⟨limit⟩ source = parse ⟨0⟩ source :=
      parse_congr (hpeak.run_of_le hpos hle)
    rw [hsame]
    constructor
    · intro h
      exact ⟨h, by rwa [← hpeak.eq_need h]⟩
    · exact And.left

/-- The second pipe of a pipeline stands under two levels, and `${x}` behind it needs one
more. -/
theorem parse_limited_pipes :
    ∃ t, t.need = 3 ∧ parse ⟨3⟩ ['a', '|', 'b', '|', '$', '{', 'x', '}'] = .ok t ∧
      parse ⟨2⟩ ['a', '|', 'b', '|', '$', '{', 'x', '}'] ≠ .ok t := by
  have hparse : parse ⟨0⟩ ['a', '|', 'b', '|', '$', '{', 'x', '}'] = .ok (.list [.pipelines
      (.pipeline false (.pipe ['|'] (.pipe ['|'] (.simpleCommand [] [.str ['a']])
        (.simpleCommand [] [.str ['b']])) (.simpleCommand [] [.param false ['x']]))) none]) :=
    parse_of_toOption (by decide +kernel)
  refine ⟨_, ?_, (parse_limited_iff (by decide) _ _).mpr ⟨hparse, ?_⟩, fun h => ?_⟩
  · decide +kernel
  · decide +kernel
  · exact absurd ((parse_limited_iff (by decide) _ _).mp h).2 (by decide +kernel)

end ShellGrammar
