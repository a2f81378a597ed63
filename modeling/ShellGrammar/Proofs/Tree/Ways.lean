import ShellGrammar.Proofs.Tree.Contract
import ShellGrammar.Proofs.Tree.Need

/-! How far down a tree a limit lets a script go.

A limit bounds the levels that are open at one time while a script is read. An operator of a
chain takes its level only once its first operand has been read, and the levels taken for
that operand are free again by then. So the nodes that stand for a level are counted along
the ways down a tree in two manners (`Node.way`): all of them, or only those that a way does
not leave for the first operand of an operator. Of the latter there are never more than the
limit allows. All of them can be more, since each construct on the way may be the first
operand of chains as long as the levels left for it allow, and `Phrase.height` says how many
they can be at most (`parse_ways`). -/
namespace ShellGrammar
open Grammar

namespace Node

/-! ### Ways down a tree -/

/-- The nodes on a way down a tree, each with the place of the child it is left for. The way
takes the child at each given place, as far as there is one. -/
def way : Node → List Nat → List (Node × Option Nat)
  | n, [] => [(n, none)]
  | n, i :: places =>
    match n.children[i]? with
    | none => [(n, none)]
    | some child => (n, some i) :: child.way places

/-- A binary operator of any kind. -/
def isOperator : Node → Bool
  | andOr .. | pipe .. | binOp .. => true
  | _ => false

/-- Whether a node stands for a level of nesting. -/
def isLevel (n : Node) : Bool :=
  n.isOperator || n.isParameter ||
    match n with
    | doubleQuoted _ | arithExpansion _ | commandSubst .. | processSubst .. | parentheses _
    | unOp .. => true
    | _ => false

/-- Whether a step of a way counts: it stands for a level, and, unless first operands count
as well, is not left for the first operand of an operator. -/
def counts (firsts : Bool) (step : Node × Option Nat) : Bool :=
  step.1.isLevel && (firsts || !(step.1.isOperator && step.2 == some 0))

/-- How many steps count on a way down a tree. -/
def levelsOn (firsts : Bool) (n : Node) (places : List Nat) : Nat :=
  (n.way places).countP (counts firsts)

mutual

/-- How many steps count at most on a way down a tree. -/
@[simp] def climb (firsts : Bool) : Node → Nat
  | .doubleQuoted body => 1 + climbAll firsts body
  | .param .. | .paramLength .. | .namesStarting .. | .paramTransform .. | .arrayElements ..
  | .arrayKeys .. => 1
  | .paramDefault _ _ _ value => 1 + value.climb firsts
  | .substring _ _ offset length => 1 + max (offset.climb firsts) (length.climb firsts)
  | .patternRemoval _ _ _ pattern | .caseChange _ _ _ pattern => 1 + pattern.climb firsts
  | .patternReplacement _ _ _ pattern replace =>
    1 + max (pattern.climb firsts) (climbOpt firsts replace)
  | .arrayElement _ _ subscript => 1 + subscript.climb firsts
  | .arithExpansion body | .commandSubst _ body | .processSubst _ body | .parentheses body =>
    1 + body.climb firsts
  | .unOp _ operand => 1 + operand.climb firsts
  | .andOr _ left right | .pipe _ left right | .binOp _ left right =>
    max (firsts.toNat + left.climb firsts) (1 + right.climb firsts)
  | .ternary cond yes no => max (cond.climb firsts) (max (yes.climb firsts) (no.climb firsts))
  | .list body | .concat body => climbAll firsts body
  | .simpleCommand assigns body => max (climbAll firsts assigns) (climbAll firsts body)
  | .pipelines body _ | .pipeline _ body => body.climb firsts
  | .assign _ value => climbOpt firsts value
  | .postOp _ operand => operand.climb firsts
  | .str _ | .singleQuoted _ | .simpleParam _ | .number _ | .var .. | .empty => 0

@[simp] def climbAll (firsts : Bool) : List Node → Nat
  | [] => 0
  | a :: as => max (a.climb firsts) (climbAll firsts as)

@[simp] def climbOpt (firsts : Bool) : Option Node → Nat
  | none => 0
  | some a => a.climb firsts

end

theorem climb_le_climbAll {firsts : Bool} {as : List Node} {a : Node} (h : a ∈ as) :
    a.climb firsts ≤ climbAll firsts as := by
  induction as with
  | nil => cases h
  | cons b as ih =>
    rw [climbAll]
    rcases List.mem_cons.mp h with rfl | h
    · exact Nat.le_max_left _ _
    · exact Nat.le_trans (ih h) (Nat.le_max_right _ _)

theorem climb_le_climbOpt {firsts : Bool} {o : Option Node} {a : Node} (h : a ∈ o.toList) :
    a.climb firsts ≤ climbOpt firsts o := by
  obtain rfl := Option.mem_toList.mp h
  exact Nat.le_refl _

/-- A way that ends at a node counts it if it stands for a level. -/
theorem counts_le_climb (firsts : Bool) (n : Node) :
    (counts firsts (n, none)).toNat ≤ n.climb firsts := by
  cases n with
  | andOr _ left right | pipe _ left right | binOp _ left right =>
    have hright : 1 ≤ 1 + right.climb firsts := Nat.le_add_right 1 _
    exact Nat.le_trans (Bool.toNat_le _) (Nat.le_trans hright (Nat.le_max_right _ _))
  | _ => simp [counts, isLevel, isOperator, isParameter]

theorem getElem?_singleton {a b : Node} {i : Nat} (h : [a][i]? = some b) : b = a := by
  have hmem := List.mem_of_getElem? h
  exact List.mem_singleton.mp hmem

theorem getElem?_pair {a b c : Node} {i : Nat} (h : [a, b][i]? = some c) :
    i = 0 ∧ c = a ∨ i = 1 ∧ c = b := by
  match i, h with
  | 0, h => exact .inl ⟨rfl, (Option.some.inj h).symm⟩
  | 1, h => exact .inr ⟨rfl, (Option.some.inj h).symm⟩

/-- A way that goes on to a child counts what it leaves, and what it goes on with. -/
theorem counts_add_climb {firsts : Bool} {n child : Node} {i : Nat}
    (h : n.children[i]? = some child) :
    (counts firsts (n, some i)).toNat + child.climb firsts ≤ n.climb firsts := by
  cases n with
  | list body | concat body | doubleQuoted body =>
    have hle : child.climb firsts ≤ climbAll firsts body :=
      climb_le_climbAll (List.mem_of_getElem? h)
    simp [counts, isLevel, isOperator, isParameter] at hle ⊢
    omega
  | simpleCommand assigns body =>
    have hle : child.climb firsts ≤ max (climbAll firsts assigns) (climbAll firsts body) := by
      rcases List.mem_append.mp (List.mem_of_getElem? h) with h | h
      · exact Nat.le_trans (climb_le_climbAll h) (Nat.le_max_left _ _)
      · exact Nat.le_trans (climb_le_climbAll h) (Nat.le_max_right _ _)
    simp [counts, isLevel, isOperator, isParameter]
    omega
  | pipelines body _ | pipeline _ body | commandSubst _ body | processSubst _ body
  | arithExpansion body | parentheses body | paramDefault _ _ _ body | patternRemoval _ _ _ body
  | caseChange _ _ _ body | arrayElement _ _ body | unOp _ body | postOp _ body =>
    obtain rfl := getElem?_singleton h
    simp [counts, isLevel, isOperator, isParameter]
  | andOr _ left right | pipe _ left right | binOp _ left right =>
    obtain ⟨rfl, rfl⟩ | ⟨rfl, rfl⟩ := getElem?_pair h
    · cases firsts <;> exact Nat.le_max_left _ _
    · cases firsts <;> exact Nat.le_max_right _ _
  | substring _ _ offset length =>
    have hle : child.climb firsts ≤ max (offset.climb firsts) (length.climb firsts) := by
      obtain ⟨-, rfl⟩ | ⟨-, rfl⟩ := getElem?_pair h
      · exact Nat.le_max_left _ _
      · exact Nat.le_max_right _ _
    exact Nat.add_le_add (Bool.toNat_le _) hle
  | patternReplacement _ _ _ pattern replace =>
    have hle : child.climb firsts ≤ max (pattern.climb firsts) (climbOpt firsts replace) := by
      rcases List.mem_cons.mp (List.mem_of_getElem? h) with rfl | h
      · exact Nat.le_max_left _ _
      · exact Nat.le_trans (climb_le_climbOpt h) (Nat.le_max_right _ _)
    simp [counts, isLevel, isOperator, isParameter]
    omega
  | assign _ value =>
    have hle : child.climb firsts ≤ climbOpt firsts value :=
      climb_le_climbOpt (List.mem_of_getElem? h)
    simpa [counts, isLevel, isOperator, isParameter] using hle
  | ternary cond yes no =>
    have hmem : child = cond ∨ child = yes ∨ child = no := by
      simpa [children] using List.mem_of_getElem? h
    have hle : child.climb firsts ≤
        max (cond.climb firsts) (max (yes.climb firsts) (no.climb firsts)) := by
      rcases hmem with rfl | rfl | rfl <;> omega
    exact Nat.le_trans (Nat.le_of_eq (Nat.zero_add _)) hle
  | _ => cases h

/-- No way down a tree counts more than the tree climbs. -/
theorem levelsOn_le_climb (firsts : Bool) (n : Node) (places : List Nat) :
    n.levelsOn firsts places ≤ n.climb firsts := by
  induction places generalizing n with
  | nil =>
    have h := counts_le_climb firsts n
    rw [levelsOn, way, List.countP_singleton]
    cases hc : counts firsts (n, none) <;> simp_all
  | cons i places ih =>
    rw [levelsOn, way]
    cases hchild : n.children[i]? with
    | none =>
      have h := counts_le_climb firsts n
      rw [List.countP_singleton]
      cases hc : counts firsts (n, none) <;> simp_all
    | some child =>
      have h : (counts firsts (n, some i)).toNat + child.climb firsts ≤ n.climb firsts :=
        counts_add_climb hchild
      have hrest := ih child
      rw [levelsOn] at hrest
      rw [List.countP_cons]
      cases hc : counts firsts (n, some i) <;> simp_all <;> omega

end Node

/-! ### Levels held on a way -/

theorem Phrase.opened_of_part {p : Phrase} (h : p.isPart = true) : p.opened = 0 := by
  cases p <;> first | rfl | cases h

/-- First operands apart, no more levels are counted on a way than reading the tree opens. -/
theorem Derives.climb_le_opened {c : Context} {p : Phrase} {as : List Node} {ts : List Token}
    {n : Nat} (h : Derives c p as ts n) : Node.climbAll false as ≤ p.opened + n := by
  induction h with
  | manyCons hpart _ _ ih ih' =>
    have hopened := Phrase.opened_of_part hpart
    simp_all
    omega
  | _ => simp_all <;> omega

/-! ### All levels on a way -/

/-- How many levels at most a way counts in what a phrase derives, by the number of levels
that are opened for it. What opens a level of its own has one more around it than is opened
inside; each operator that a chain has taken is one more. -/
@[simp] def Phrase.height : Phrase → Nat → Nat
  | .list _, n | .entries, n | .entry, n | .nestedList _, n => n * n + 3 * n - 1
  | .andOr folds, n => folds + (n * n + 2 * n - 1)
  | .pipeline, n => n * n + 2 * n - 1
  | .pipe folds, n => folds + (n * n + n - 1)
  | .operand, n => n * n + 3 * n
  | .comma folds, n => folds + (n * n + 2 * n)
  | .assignment, n | .ternary, n => n * n + 2 * n
  | .binary _ folds, n => folds + (n * n + n)
  | .power, n => n * n + n
  | .doubleQuoted, n | .parameter, n | .arithExpansion, n | .form .., n => n * n + 3 * n + 1
  | _, n => n * n + n - 1

/-- The operators of a chain hold a level each. -/
theorem Derives.folds_le {c : Context} {p : Phrase} {as : List Node} {ts : List Token} {n : Nat}
    (h : Derives c p as ts n) : (match p with
      | .andOr folds | .pipe folds | .comma folds | .binary _ folds => folds
      | _ => 0) ≤ n := by
  cases h with
  | andOrFold | pipeFold | commaFold | binaryFold =>
    exact Nat.le_trans (Nat.le_add_right _ _) (Nat.le_max_right _ _)
  | _ => simp

theorem Phrase.height_of_part {p : Phrase} (h : p.isPart = true) (n : Nat) :
    p.height n = n * n + n - 1 := by
  cases p <;> first | rfl | cases h

theorem mul_self_one_add (n : Nat) : (1 + n) * (1 + n) = n * n + 2 * n + 1 := by
  simp only [Nat.add_mul, Nat.mul_add]
  omega

theorem Phrase.height_mono (p : Phrase) {n m : Nat} (h : n ≤ m) : p.height n ≤ p.height m := by
  have hsquare : n * n ≤ m * m := Nat.mul_self_le_mul_self h
  cases p <;> simp <;> omega

/-- The squares of what a maximum is taken of. -/
theorem mul_self_max (n m : Nat) :
    n * n ≤ max n m * max n m ∧ m * m ≤ max n m * max n m :=
  ⟨Nat.mul_self_le_mul_self (Nat.le_max_left n m), Nat.mul_self_le_mul_self (Nat.le_max_right n m)⟩

/-- With the right side under the operator and those before it, its level is one more. -/
theorem mul_self_fold (folds n m : Nat) :
    n * n ≤ max n (folds + 1 + m) * max n (folds + 1 + m) ∧
      m * m + 2 * m + 1 ≤ max n (folds + 1 + m) * max n (folds + 1 + m) := by
  refine ⟨(mul_self_max n _).1, ?_⟩
  have hle : 1 + m ≤ max n (folds + 1 + m) := by omega
  rw [← mul_self_one_add]
  exact Nat.mul_self_le_mul_self hle

/-- No way counts more levels in what a phrase derives than the height of the phrase. -/
theorem Derives.climb_le_height {c : Context} {p : Phrase} {as : List Node} {ts : List Token}
    {n : Nat} (h : Derives c p as ts n) : Node.climbAll true as ≤ p.height n := by
  induction h with
  | @manyCons _ p _ _ _ _ n m hpart _ _ ih ih' =>
    have hheight := Phrase.height_of_part hpart
    have hsquares := mul_self_max n m
    simp_all
    omega
  -- The parts of these stand side by side.
  | @entriesCons _ _ _ _ _ _ n m | @command _ _ _ _ _ n m | @wordConcat _ _ _ _ _ _ n m
  | @substringLength _ _ _ _ _ _ n _ _ _ m | @patternReplaced _ _ _ _ _ _ _ n _ _ _ m =>
    have hsquares := mul_self_max n m
    simp_all
    omega
  -- These are chains, which hold the levels of their operators.
  | entry hchain | entryTerminated hchain | pipeline hchain | pipelineNegated _ _ hchain
  | arithExpansion hchain | operand hchain | ternary hchain =>
    have hfolds := hchain.folds_le
    simp_all
    omega
  | @andOrFold _ folds _ _ _ _ _ n m | @pipeFold _ folds _ _ _ _ _ n m
  | @commaFold _ folds _ _ _ _ n m =>
    have hsquares := mul_self_fold folds n m
    simp_all
    omega
  | @binaryFold _ _ folds _ _ _ _ _ _ n m _ _ _ _ _ hright =>
    have hfolds := hright.folds_le
    have hsquares := mul_self_fold folds n m
    simp_all
    omega
  -- These open one level for what is inside.
  | @pieceQuoted _ _ _ _ _ n | @pieceParameter _ _ _ _ _ n | @pieceArith _ _ _ _ _ n
  | @pieceCommand _ _ _ _ _ n | @pieceBackquoted _ _ _ _ _ n | @pieceProcess _ _ _ _ _ n
  | @assignmentOp _ _ _ _ _ n | @unaryOp _ _ _ _ n | @primaryParameter _ _ _ _ n
  | @primaryArith _ _ _ _ n | @primaryCommand _ _ _ _ n =>
    have hsquare := mul_self_one_add n
    simp_all
    omega
  | @parentheses _ _ _ _ _ n _ _ _ hchain =>
    have hfolds := hchain.folds_le
    have hsquare := mul_self_one_add n
    simp_all
    omega
  | @powerOp _ _ _ _ _ n m =>
    have hsquares := mul_self_fold 0 n m
    simp_all
    omega
  | @ternaryOp _ _ _ _ _ _ _ _ _ n m k _ _ hcond _ hyes =>
    have hfolds := hcond.folds_le
    have hfolds' := hyes.folds_le
    have hmax := mul_self_max n (max (1 + m) (1 + k))
    have harms := mul_self_max (1 + m) (1 + k)
    have hyes := mul_self_one_add m
    have hno := mul_self_one_add k
    simp_all
    omega
  | _ => simp_all <;> omega

/-! ### Scripts under a limit -/

/-- **How far down a tree a limit lets a script go.** In the tree of a script that parses
under a limit no way down passes more levels than the limit allows, first operands of
operators apart; and with those no more than `limit * limit + 3 * limit - 1`. -/
theorem parse_ways {limit : Nat} (hpos : 1 ≤ limit) {source : Text} {t : Node}
    (h : parse ⟨limit⟩ source = .ok t) (places : List Nat) :
    t.levelsOn false places ≤ limit ∧
      t.levelsOn true places ≤ limit * limit + 3 * limit - 1 := by
  obtain ⟨s, hs⟩ := parse_eq_ok_iff.mp h
  obtain ⟨peak, hpeak, _, hderives⟩ := run_derives hs
  have hneed : peak ≤ limit := by
    rw [hpeak.eq_need (parse_eq_ok_iff.mpr ⟨s, run_unlimited hs⟩)]
    exact need_le_of_run hpos hs
  have hheld : t.climb false ≤ peak := by
    simpa using hderives.climb_le_opened
  have hheight : t.climb true ≤ peak * peak + 3 * peak - 1 := by
    simpa using hderives.climb_le_height
  have hmono := (Phrase.list .endOfSource).height_mono hneed
  exact ⟨Nat.le_trans (Node.levelsOn_le_climb false t places) (Nat.le_trans hheld hneed),
    Nat.le_trans (Node.levelsOn_le_climb true t places) (Nat.le_trans hheight hmono)⟩

/-- Under a limit of one level a substitution can be the first operand of a pipe, and that of
`&&`: three levels on one way, which is as many as there can be. -/
theorem parse_ways_first :
    ∃ t, parse ⟨1⟩ "$(a)|b&&c".toList = .ok t ∧ t.levelsOn true [0, 0, 0, 0, 0, 0] = 3 ∧
      t.levelsOn false [0, 0, 0, 0, 0, 0] ≤ 1 ∧ t.levelsOn true [0, 0, 0, 0, 0, 0] ≤ 3 := by
  have hparse : parse ⟨1⟩ "$(a)|b&&c".toList = .ok (.list [.pipelines
      (.andOr ['&', '&']
        (.pipeline false (.pipe ['|']
          (.simpleCommand [] [.commandSubst ['$', '('] (.list [.pipelines
            (.pipeline false (.simpleCommand [] [.str ['a']])) none])])
          (.simpleCommand [] [.str ['b']])))
        (.pipeline false (.simpleCommand [] [.str ['c']]))) none]) :=
    parse_of_toOption (by decide +kernel)
  obtain ⟨hheld, hall⟩ := parse_ways (by decide) hparse [0, 0, 0, 0, 0, 0]
  exact ⟨_, hparse, by decide +kernel, hheld, hall⟩

end ShellGrammar
