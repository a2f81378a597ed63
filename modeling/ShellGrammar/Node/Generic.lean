import ShellGrammar.Json.Written
import ShellGrammar.Node.Basic
import ShellGrammar.Text.Quoted

/-! The generic view of a tree: a tag and named fields, whatever the form.

Fields have an order, in which they are written, but two views are equal when
they have the same fields in any order (`Tagged.same`). A view is written in two
ways, for people as `(tag (field value) …)` and for other programs as a JSON
object whose first key is `type`. Both writers put their text in front of a given
`tail`, so that nothing is copied twice. -/
namespace ShellGrammar

mutual

/-- A tag and named fields. -/
inductive Tagged where
  | mk (tag : String) (fields : List (String × Value))

/-- The value of a field. -/
inductive Value where
  | node (n : Tagged)
  | nodes (ns : List Tagged)
  | str (t : Text)
  | bool (b : Bool)
  | nil

end

namespace Tagged

def tag : Tagged → String
  | mk tag _ => tag

/-- The fields in the order in which they were given. -/
def fields : Tagged → List (String × Value)
  | mk _ fields => fields

/-- A view without fields. -/
def ofTag (tag : String) : Tagged := mk tag []

/-- Gives a field a value: in its place if the field is there, else at the end. -/
def putField (name : String) (value : Value) : List (String × Value) → List (String × Value)
  | [] => [(name, value)]
  | (k, v) :: rest => if k = name then (k, value) :: rest else (k, v) :: putField name value rest

/-- The view with a field given a value. -/
def put (t : Tagged) (name : String) (value : Value) : Tagged :=
  mk t.tag (putField name value t.fields)

/-- The value of a field. -/
def get? (t : Tagged) (name : String) : Option Value := t.fields.lookup name

end Tagged

/-! ### Equality -/

mutual

/-- Whether two views have the same tag and the same fields, in any order. -/
def Tagged.same : Tagged → Tagged → Bool
  | .mk tag fields, b =>
    tag == b.tag && fields.length == b.fields.length && Value.sameFields fields b

/-- Whether every field of a list has the same value in a view. -/
def Value.sameFields : List (String × Value) → Tagged → Bool
  | [], _ => true
  | (name, v) :: rest, b =>
    (match b.get? name with
      | some w => Value.same v w
      | none => false) && Value.sameFields rest b

def Value.same : Value → Value → Bool
  | .node a, w => match w with | .node b => Tagged.same a b | _ => false
  | .nodes as, w => match w with | .nodes bs => Value.sameNodes as bs | _ => false
  | .str s, w => match w with | .str t => s == t | _ => false
  | .bool p, w => match w with | .bool q => p == q | _ => false
  | .nil, w => match w with | .nil => true | _ => false

def Value.sameNodes : List Tagged → List Tagged → Bool
  | [], [] => true
  | a :: as, b :: bs => Tagged.same a b && Value.sameNodes as bs
  | _, _ => false

end

/-! ### The form for people -/

mutual

/-- A view as `(tag (field value) …)`, in front of `tail`. -/
def Tagged.writeDebug : Tagged → Text → Text
  | .mk tag fields, tail => '(' :: (tag.toList ++ Value.writeDebugFields fields (')' :: tail))

def Value.writeDebugFields : List (String × Value) → Text → Text
  | [], tail => tail
  | (name, v) :: rest, tail =>
    ' ' :: '(' ::
      (name.toList ++ ' ' :: Value.writeDebug v (')' :: Value.writeDebugFields rest tail))

def Value.writeDebug : Value → Text → Text
  | .node n, tail => Tagged.writeDebug n tail
  | .nodes [], tail => '[' :: ']' :: tail
  | .nodes (n :: ns), tail =>
    '[' :: Tagged.writeDebug n (Value.writeDebugRest ns (']' :: tail))
  | .str t, tail => Text.Quoted.write t tail
  | .bool true, tail => "true".toList ++ tail
  | .bool false, tail => "false".toList ++ tail
  | .nil, tail => "nil".toList ++ tail

/-- The nodes after the first, each behind a space. -/
def Value.writeDebugRest : List Tagged → Text → Text
  | [], tail => tail
  | n :: ns, tail => ' ' :: Tagged.writeDebug n (Value.writeDebugRest ns tail)

end

/-! ### The form for other programs -/

mutual

/-- A view as a JSON object, in front of `tail`. -/
def Tagged.writeJson : Tagged → Text → Text
  | .mk tag fields, tail =>
    '{' :: ("\"type\":".toList ++
      Json.writeString tag.toList (Value.writeJsonFields fields ('}' :: tail)))

def Value.writeJsonFields : List (String × Value) → Text → Text
  | [], tail => tail
  | (name, v) :: rest, tail =>
    ',' :: Json.writeString name.toList
      (':' :: Value.writeJson v (Value.writeJsonFields rest tail))

def Value.writeJson : Value → Text → Text
  | .node n, tail => Tagged.writeJson n tail
  | .nodes [], tail => '[' :: ']' :: tail
  | .nodes (n :: ns), tail =>
    '[' :: Tagged.writeJson n (Value.writeJsonRest ns (']' :: tail))
  | .str t, tail => Json.writeString t tail
  | .bool true, tail => "true".toList ++ tail
  | .bool false, tail => "false".toList ++ tail
  | .nil, tail => "null".toList ++ tail

/-- The nodes after the first, each behind a comma. -/
def Value.writeJsonRest : List Tagged → Text → Text
  | [], tail => tail
  | n :: ns, tail => ',' :: Tagged.writeJson n (Value.writeJsonRest ns tail)

end

namespace Tagged

def debugForm (t : Tagged) : Text := t.writeDebug []

def jsonForm (t : Tagged) : Text := t.writeJson []

end Tagged

namespace Value

def debugForm (v : Value) : Text := v.writeDebug []

/-- What kind of value this is. -/
def kind : Value → String
  | node _ => "node"
  | nodes _ => "nodes"
  | str _ => "str"
  | bool _ => "bool"
  | nil => "nil"

/-- A text that may be missing. -/
def ofText? : Option Text → Value
  | none => nil
  | some t => str t

end Value

/-! ### Paths -/

/-- One step into a view: to a field of a node, or to an element of a sequence. -/
inductive PathStep where
  | field (name : String)
  | index (i : Int)

namespace Value

/-- Where one step leads, if it applies. -/
def step? : PathStep → Value → Option Value
  | .field name, node n => n.get? name
  | .index i, nodes ns => if i < 0 then none else (ns[i.toNat]?).map node
  | _, _ => none

/-- Where a path leads, or the number of the first step that does not apply. Steps
are numbered from `first`. -/
def follow (first : Nat) : List PathStep → Value → Except Nat Value
  | [], v => .ok v
  | s :: path, v =>
    match v.step? s with
    | some w => follow (first + 1) path w
    | none => .error first

end Value

/-! ### The view of a tree -/

namespace Node

mutual

/-- The fields of a node. -/
def fields : Node → List (String × Value)
  | list body | doubleQuoted body | concat body => [("body", .nodes (taggedAll body))]
  | pipelines body terminal =>
    [("body", .node (.mk body.tag (fields body))), ("terminal", .ofText? terminal)]
  | andOr op left right | pipe op left right | binOp op left right =>
    [("op", .str op), ("left", .node (.mk left.tag (fields left))),
      ("right", .node (.mk right.tag (fields right)))]
  | pipeline excl body => [("excl", .bool excl), ("body", .node (.mk body.tag (fields body)))]
  | simpleCommand assigns body =>
    [("assigns", .nodes (taggedAll assigns)), ("body", .nodes (taggedAll body))]
  | assign name value => [("name", .str name), ("value", taggedOpt value)]
  | str body | singleQuoted body | simpleParam body => [("body", .str body)]
  | param ref name | paramLength ref name => [("ref", .bool ref), ("body", .str name)]
  | paramDefault ref name op value =>
    [("ref", .bool ref), ("body", .str name), ("op", .str op),
      ("value", .node (.mk value.tag (fields value)))]
  | substring ref name offset length =>
    [("ref", .bool ref), ("body", .str name),
      ("offset", .node (.mk offset.tag (fields offset))),
      ("length", .node (.mk length.tag (fields length)))]
  | patternRemoval ref name mode pattern | caseChange ref name mode pattern =>
    [("ref", .bool ref), ("body", .str name), ("mode", .str mode),
      ("pattern", .node (.mk pattern.tag (fields pattern)))]
  | patternReplacement ref name mode pattern replace =>
    [("ref", .bool ref), ("body", .str name), ("mode", .str mode),
      ("pattern", .node (.mk pattern.tag (fields pattern))), ("replace", taggedOpt replace)]
  | namesStarting stem mode => [("prefix", .str stem), ("mode", .str mode)]
  | paramTransform ref name op => [("ref", .bool ref), ("body", .str name), ("op", .str op)]
  | arrayElements array mode | arrayKeys array mode => [("array", .str array), ("mode", .str mode)]
  | arrayElement ref name subscript =>
    [("ref", .bool ref), ("body", .str name),
      ("subscript", .node (.mk subscript.tag (fields subscript)))]
  | commandSubst style body => [("style", .str style), ("body", .node (.mk body.tag (fields body)))]
  | processSubst direction body =>
    [("direction", .str direction), ("body", .node (.mk body.tag (fields body)))]
  | arithExpansion body | parentheses body => [("body", .node (.mk body.tag (fields body)))]
  | number value => [("value", .str value)]
  | var name dollar => [("name", .str name), ("dollar", .bool dollar)]
  | unOp op operand | postOp op operand =>
    [("op", .str op), ("operand", .node (.mk operand.tag (fields operand)))]
  | ternary cond yes no =>
    [("cond", .node (.mk cond.tag (fields cond))), ("then", .node (.mk yes.tag (fields yes))),
      ("else", .node (.mk no.tag (fields no)))]
  | empty => []

/-- The views of a list of nodes. -/
def taggedAll : List Node → List Tagged
  | [] => []
  | n :: ns => .mk n.tag (fields n) :: taggedAll ns

/-- The view of a node that may be missing. -/
def taggedOpt : Option Node → Value
  | none => .nil
  | some n => .node (.mk n.tag (fields n))

end

/-- The generic view of a tree. -/
def tagged (n : Node) : Tagged := .mk n.tag n.fields

/-- A tree in the form for people. -/
def debugForm (n : Node) : Text := n.tagged.debugForm

/-- A tree in the form for other programs. -/
def jsonForm (n : Node) : Text := n.tagged.jsonForm

end Node

end ShellGrammar
