import ShellGrammar.Text.Basic

/-! Syntax trees of scripts.

Every construct of the grammar is one form of node, and every node keeps the text
it was written with: operators, names and numbers are kept as they stand, and
quotes and parentheses are forms of their own. The root of a script is a `list`.

Below the type stand the tag of a node, its children in the order of its fields,
and the proof that equality of trees can be decided. -/
namespace ShellGrammar

inductive Node where
  -- Commands
  /-- Entries one after another. -/
  | list (body : List Node)
  /-- An entry of a list and what ends it. -/
  | pipelines (body : Node) (terminal : Option Text)
  /-- Two pipelines or more: `left && right` or `left || right`. -/
  | andOr (op : Text) (left right : Node)
  /-- Commands joined by pipes, negated by a `!` in front. -/
  | pipeline (excl : Bool) (body : Node)
  /-- Two commands or more: `left | right` or `left |& right`. -/
  | pipe (op : Text) (left right : Node)
  /-- Assignments, then words. -/
  | simpleCommand (assigns body : List Node)
  /-- An assignment: `name=value`, or `name=` with nothing after it. -/
  | assign (name : Text) (value : Option Node)
  -- Words
  /-- Bare text, escapes kept as written. -/
  | str (body : Text)
  /-- Single-quoted text, without its quotes. -/
  | singleQuoted (body : Text)
  /-- What stands between double quotes. -/
  | doubleQuoted (body : List Node)
  /-- Two or more pieces that touch. -/
  | concat (body : List Node)
  -- Parameter expansions
  /-- A parameter without braces: `$name`. -/
  | simpleParam (name : Text)
  /-- A parameter and nothing else: `${name}`. -/
  | param (ref : Bool) (name : Text)
  /-- The length of a parameter: `${#name}`. -/
  | paramLength (ref : Bool) (name : Text)
  /-- A parameter or a value for want of it: `${name:-value}` and its like. -/
  | paramDefault (ref : Bool) (name op : Text) (value : Node)
  /-- Part of a parameter: `${name:offset}` or `${name:offset:length}`. -/
  | substring (ref : Bool) (name : Text) (offset length : Node)
  /-- A parameter with a pattern cut off: `${name#pattern}` and its like. -/
  | patternRemoval (ref : Bool) (name mode : Text) (pattern : Node)
  /-- A parameter with a pattern replaced: `${name/pattern/replace}`, or without a
  second slash. -/
  | patternReplacement (ref : Bool) (name mode : Text) (pattern : Node) (replace : Option Node)
  /-- A parameter with letters changed: `${name^pattern}` and its like. -/
  | caseChange (ref : Bool) (name mode : Text) (pattern : Node)
  /-- The variables whose names start so: `${!stem*}` or `${!stem@}`. -/
  | namesStarting (stem mode : Text)
  /-- A parameter transformed: `${name@op}`. -/
  | paramTransform (ref : Bool) (name op : Text)
  /-- All elements of an array: `${name[@]}` or `${name[*]}`. -/
  | arrayElements (array mode : Text)
  /-- All keys of an array: `${!name[@]}` or `${!name[*]}`. -/
  | arrayKeys (array mode : Text)
  /-- One element of an array: `${name[subscript]}`. -/
  | arrayElement (ref : Bool) (name : Text) (subscript : Node)
  -- Substitutions
  /-- A list in `$(…)` or between backquotes; `style` is what opens it. -/
  | commandSubst (style : Text) (body : Node)
  /-- A list in `<(…)` or `>(…)`; `direction` is the first character. -/
  | processSubst (direction : Text) (body : Node)
  /-- An expression in `$((…))`. -/
  | arithExpansion (body : Node)
  -- Arithmetic
  | number (value : Text)
  /-- A variable, with or without a `$` in front. -/
  | var (name : Text) (dollar : Bool)
  /-- A binary operator; the comma and the assignments are among them. -/
  | binOp (op : Text) (left right : Node)
  | unOp (op : Text) (operand : Node)
  | postOp (op : Text) (operand : Node)
  | ternary (cond yes no : Node)
  | parentheses (body : Node)
  /-- A word or length that was not written. -/
  | empty

namespace Node

/-- The tag that names a node's form. -/
def tag : Node → String
  | list .. => "list"
  | pipelines .. => "pipelines"
  | andOr .. => "and_or"
  | pipeline .. => "pipeline"
  | pipe .. => "pipe"
  | simpleCommand .. => "simple_command"
  | assign .. => "assign"
  | str .. => "str"
  | singleQuoted .. => "sstr"
  | doubleQuoted .. => "dquote"
  | concat .. => "concat"
  | simpleParam .. => "simple_param_ex"
  | param .. => "param_ex"
  | paramLength .. => "param_len"
  | paramDefault .. => "param_subst"
  | substring .. => "substr"
  | patternRemoval .. => "pattern_rm"
  | patternReplacement .. => "pattern_subst"
  | caseChange .. => "case_mod"
  | namesStarting .. => "prefix_ex"
  | paramTransform .. => "param_trans"
  | arrayElements .. => "array_ex"
  | arrayKeys .. => "array_keys"
  | arrayElement .. => "array_access"
  | commandSubst .. => "command_subst"
  | processSubst .. => "process_subst"
  | arithExpansion .. => "arith_ex"
  | number .. => "number"
  | var .. => "var"
  | binOp .. => "bin_op"
  | unOp .. => "un_op"
  | postOp .. => "post_op"
  | ternary .. => "ternary"
  | parentheses .. => "parentheses"
  | empty => "empty"

/-- The nodes right below a node, in the order of its fields. -/
def children : Node → List Node
  | list body | doubleQuoted body | concat body => body
  | simpleCommand assigns body => assigns ++ body
  | pipelines body _ | pipeline _ body | commandSubst _ body | processSubst _ body
  | arithExpansion body | parentheses body => [body]
  | andOr _ left right | pipe _ left right | binOp _ left right => [left, right]
  | assign _ value => value.toList
  | paramDefault _ _ _ value => [value]
  | substring _ _ offset length => [offset, length]
  | patternRemoval _ _ _ pattern | caseChange _ _ _ pattern => [pattern]
  | patternReplacement _ _ _ pattern replace => pattern :: replace.toList
  | arrayElement _ _ subscript => [subscript]
  | unOp _ operand | postOp _ operand => [operand]
  | ternary cond yes no => [cond, yes, no]
  | str _ | singleQuoted _ | simpleParam _ | param .. | paramLength .. | namesStarting ..
  | paramTransform .. | arrayElements .. | arrayKeys .. | number _ | var .. | empty => []

/-! ### Equality -/

mutual

/-- Whether two trees are the same. -/
def same : Node → Node → Bool
  | list xs, n => match n with | list ys => sameAll xs ys | _ => false
  | pipelines b t, n => match n with | pipelines b' t' => same b b' && t == t' | _ => false
  | andOr o l r, n =>
    match n with | andOr o' l' r' => o == o' && same l l' && same r r' | _ => false
  | pipeline e b, n => match n with | pipeline e' b' => e == e' && same b b' | _ => false
  | pipe o l r, n =>
    match n with | pipe o' l' r' => o == o' && same l l' && same r r' | _ => false
  | simpleCommand a b, n =>
    match n with | simpleCommand a' b' => sameAll a a' && sameAll b b' | _ => false
  | assign m v, n => match n with | assign m' v' => m == m' && sameOpt v v' | _ => false
  | str b, n => match n with | str b' => b == b' | _ => false
  | singleQuoted b, n => match n with | singleQuoted b' => b == b' | _ => false
  | doubleQuoted xs, n => match n with | doubleQuoted ys => sameAll xs ys | _ => false
  | concat xs, n => match n with | concat ys => sameAll xs ys | _ => false
  | simpleParam b, n => match n with | simpleParam b' => b == b' | _ => false
  | param f b, n => match n with | param f' b' => f == f' && b == b' | _ => false
  | paramLength f b, n => match n with | paramLength f' b' => f == f' && b == b' | _ => false
  | paramDefault f b o v, n =>
    match n with
    | paramDefault f' b' o' v' => f == f' && b == b' && o == o' && same v v'
    | _ => false
  | substring f b o l, n =>
    match n with
    | substring f' b' o' l' => f == f' && b == b' && same o o' && same l l'
    | _ => false
  | patternRemoval f b m p, n =>
    match n with
    | patternRemoval f' b' m' p' => f == f' && b == b' && m == m' && same p p'
    | _ => false
  | patternReplacement f b m p r, n =>
    match n with
    | patternReplacement f' b' m' p' r' =>
      f == f' && b == b' && m == m' && same p p' && sameOpt r r'
    | _ => false
  | caseChange f b m p, n =>
    match n with
    | caseChange f' b' m' p' => f == f' && b == b' && m == m' && same p p'
    | _ => false
  | namesStarting s m, n => match n with | namesStarting s' m' => s == s' && m == m' | _ => false
  | paramTransform f b o, n =>
    match n with | paramTransform f' b' o' => f == f' && b == b' && o == o' | _ => false
  | arrayElements a m, n => match n with | arrayElements a' m' => a == a' && m == m' | _ => false
  | arrayKeys a m, n => match n with | arrayKeys a' m' => a == a' && m == m' | _ => false
  | arrayElement f b s, n =>
    match n with | arrayElement f' b' s' => f == f' && b == b' && same s s' | _ => false
  | commandSubst s b, n => match n with | commandSubst s' b' => s == s' && same b b' | _ => false
  | processSubst d b, n => match n with | processSubst d' b' => d == d' && same b b' | _ => false
  | arithExpansion b, n => match n with | arithExpansion b' => same b b' | _ => false
  | number v, n => match n with | number v' => v == v' | _ => false
  | var m d, n => match n with | var m' d' => m == m' && d == d' | _ => false
  | binOp o l r, n =>
    match n with | binOp o' l' r' => o == o' && same l l' && same r r' | _ => false
  | unOp o x, n => match n with | unOp o' x' => o == o' && same x x' | _ => false
  | postOp o x, n => match n with | postOp o' x' => o == o' && same x x' | _ => false
  | ternary c y z, n =>
    match n with | ternary c' y' z' => same c c' && same y y' && same z z' | _ => false
  | parentheses b, n => match n with | parentheses b' => same b b' | _ => false
  | empty, n => match n with | empty => true | _ => false

def sameAll : List Node → List Node → Bool
  | [], [] => true
  | x :: xs, y :: ys => same x y && sameAll xs ys
  | _, _ => false

def sameOpt : Option Node → Option Node → Bool
  | none, none => true
  | some x, some y => same x y
  | _, _ => false

end

mutual

theorem same_iff : ∀ a b : Node, same a b = true ↔ a = b
  | list xs, n => by cases n <;> simp [same, sameAll_iff xs]
  | pipelines b t, n => by cases n <;> simp [same, same_iff b]
  | andOr o l r, n => by cases n <;> simp [same, same_iff l, same_iff r, and_assoc]
  | pipeline e b, n => by cases n <;> simp [same, same_iff b]
  | pipe o l r, n => by cases n <;> simp [same, same_iff l, same_iff r, and_assoc]
  | simpleCommand a b, n => by cases n <;> simp [same, sameAll_iff a, sameAll_iff b]
  | assign m v, n => by cases n <;> simp [same, sameOpt_iff v]
  | str b, n => by cases n <;> simp [same]
  | singleQuoted b, n => by cases n <;> simp [same]
  | doubleQuoted xs, n => by cases n <;> simp [same, sameAll_iff xs]
  | concat xs, n => by cases n <;> simp [same, sameAll_iff xs]
  | simpleParam b, n => by cases n <;> simp [same]
  | param f b, n => by cases n <;> simp [same]
  | paramLength f b, n => by cases n <;> simp [same]
  | paramDefault f b o v, n => by cases n <;> simp [same, same_iff v, and_assoc]
  | substring f b o l, n => by cases n <;> simp [same, same_iff o, same_iff l, and_assoc]
  | patternRemoval f b m p, n => by cases n <;> simp [same, same_iff p, and_assoc]
  | patternReplacement f b m p r, n => by
    cases n <;> simp [same, same_iff p, sameOpt_iff r, and_assoc]
  | caseChange f b m p, n => by cases n <;> simp [same, same_iff p, and_assoc]
  | namesStarting s m, n => by cases n <;> simp [same]
  | paramTransform f b o, n => by cases n <;> simp [same, and_assoc]
  | arrayElements a m, n => by cases n <;> simp [same]
  | arrayKeys a m, n => by cases n <;> simp [same]
  | arrayElement f b s, n => by cases n <;> simp [same, same_iff s, and_assoc]
  | commandSubst s b, n => by cases n <;> simp [same, same_iff b]
  | processSubst d b, n => by cases n <;> simp [same, same_iff b]
  | arithExpansion b, n => by cases n <;> simp [same, same_iff b]
  | number v, n => by cases n <;> simp [same]
  | var m d, n => by cases n <;> simp [same]
  | binOp o l r, n => by cases n <;> simp [same, same_iff l, same_iff r, and_assoc]
  | unOp o x, n => by cases n <;> simp [same, same_iff x]
  | postOp o x, n => by cases n <;> simp [same, same_iff x]
  | ternary c y z, n => by cases n <;> simp [same, same_iff c, same_iff y, same_iff z, and_assoc]
  | parentheses b, n => by cases n <;> simp [same, same_iff b]
  | empty, n => by cases n <;> simp [same]

theorem sameAll_iff : ∀ xs ys : List Node, sameAll xs ys = true ↔ xs = ys
  | [], [] => by simp [sameAll]
  | [], _ :: _ => by simp [sameAll]
  | _ :: _, [] => by simp [sameAll]
  | x :: xs, y :: ys => by simp [sameAll, same_iff x, sameAll_iff xs]

theorem sameOpt_iff : ∀ x y : Option Node, sameOpt x y = true ↔ x = y
  | none, none => by simp [sameOpt]
  | none, some _ => by simp [sameOpt]
  | some _, none => by simp [sameOpt]
  | some x, some y => by simp [sameOpt, same_iff x]

end

instance : DecidableEq Node := fun a b => decidable_of_iff _ (same_iff a b)

end Node

end ShellGrammar
