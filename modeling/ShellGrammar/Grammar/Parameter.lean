import ShellGrammar.Grammar.Word

/-! Parameter expansions: everything between `${` and its brace.

After the name, the text right behind it tells the forms apart. Each form is an
alternative that takes its own introducer or nothing at all, so that of the
alternatives at most one reads anything. -/
namespace ShellGrammar.Grammar
open ParseM

/-! ### Introducers -/

/-- One of `-`, `=`, `?` and `+`, perhaps behind a colon. -/
def defaultOp : Pattern := .seq (.opt (.lit [':'])) (.oneOf ['-', '=', '?', '+'])

/-- One of `#`, `##`, `%` and `%%`. -/
def removalOp : Pattern :=
  .alt (.seq (.lit ['#']) (.opt (.lit ['#']))) (.seq (.lit ['%']) (.opt (.lit ['%'])))

/-- One of `^`, `^^`, `,` and `,,`. -/
def caseOp : Pattern :=
  .alt (.seq (.lit ['^']) (.opt (.lit ['^']))) (.seq (.lit [',']) (.opt (.lit [','])))

/-- How a pattern is replaced: everywhere, at the start or at the end. -/
def replacementMode : Pattern := .oneOf ['/', '#', '%']

/-- The letters of the transformations. -/
def transformOp : Pattern := .oneOf ['Q', 'E', 'P', 'A', 'a', 'U', 'u', 'L', 'K', 'k']

/-! ### Forms -/

/-- A parsed form, and whether blank may stand before the closing brace. -/
structure Form where
  node : Node
  blankBeforeBrace : Bool

variable (g : Grammar)

/-- An arithmetic expression inside an expansion. -/
def arithOperand : ParseM Node :=
  withRules .arith true (expression g)

section Alternatives
variable (ref : Bool) (name : Text)

/-- All elements of an array, or all its keys: `[@]` or `[*]`. -/
def elementsForm : ParseM (Option Form) := do
  match ← next [.bracketAt, .bracketStar] with
  | none => return none
  | some t =>
    let node := if ref then Node.arrayKeys name (between t.body)
      else .arrayElements name (between t.body)
    return some ⟨node, false⟩

/-- A default value, an assignment, a complaint or an alternative. -/
def defaultForm : ParseM (Option Form) := do
  match ← accept defaultOp .op with
  | none => return none
  | some op =>
    let value ← payload g .wordUntilBrace
    return some ⟨.paramDefault ref name op.body value, false⟩

/-- A substring: `:offset`, perhaps with `:length`. -/
def substringForm : ParseM (Option Form) := do
  match ← accept (.lit [':']) .colon with
  | none => return none
  | some _ =>
    let offset ← arithOperand g
    match ← acceptPastBlank (.lit [':']) .colon with
    | none => return some ⟨.substring ref name offset .empty, true⟩
    | some _ =>
      let length ← arithOperand g
      return some ⟨.substring ref name offset length, true⟩

def removalForm : ParseM (Option Form) := do
  match ← accept removalOp .op with
  | none => return none
  | some mode =>
    let pattern ← payload g .wordUntilBrace
    return some ⟨.patternRemoval ref name mode.body pattern, false⟩

def caseForm : ParseM (Option Form) := do
  match ← accept caseOp .op with
  | none => return none
  | some mode =>
    let pattern ← payload g .wordUntilBrace
    return some ⟨.caseChange ref name mode.body pattern, false⟩

/-- A pattern, and perhaps a slash with what replaces it. -/
def replacementForm : ParseM (Option Form) := do
  match ← accept (.lit ['/']) .slash with
  | none => return none
  | some slash =>
    let anchor ← accept replacementMode .op
    let mode := slash.body ++ (anchor.map (·.body)).getD []
    let pattern ← payload g .wordUntilSlash
    match ← accept (.lit ['/']) .slash with
    | none => return some ⟨.patternReplacement ref name mode pattern none, false⟩
    | some _ =>
      let replace ← payload g .wordUntilBrace
      return some ⟨.patternReplacement ref name mode pattern (some replace), false⟩

/-- The names that start with `name`: it needs a `!` in front and has to be the start
of a variable's name. -/
def matchingNames (mode : Text) : ParseM Form := do
  if !ref then
    fail .bangBeforeMatch
  if !Text.isVariableName name then
    fail .variableBeforeMatch
  return ⟨.namesStarting name mode, false⟩

/-- A transformation, `@` and its letter, or else the names matched. -/
def atForm : ParseM (Option Form) := do
  match ← accept (.lit ['@']) .glyph with
  | none => return none
  | some _ =>
    match ← accept transformOp .op with
    | some op => return some ⟨.paramTransform ref name op.body, false⟩
    | none => return some (← matchingNames ref name ['@'])

def starForm : ParseM (Option Form) := do
  match ← accept (.lit ['*']) .glyph with
  | none => return none
  | some _ => return some (← matchingNames ref name ['*'])

/-- One element of an array: `[subscript]`. -/
def elementForm : ParseM (Option Form) := do
  match ← next [.lbracket] with
  | none => return none
  | some _ =>
    let subscript ← arithOperand g
    if (← acceptPastBlank (.lit [']']) .rbracket).isNone then
      fail .closingBracket
    return some ⟨.arrayElement ref name subscript, false⟩

/-- The forms that can follow a name, in the order in which they are tried. -/
def forms : List (ParseM (Option Form)) := [
  elementsForm ref name, defaultForm g ref name, substringForm g ref name, removalForm g ref name,
  caseForm g ref name, replacementForm g ref name, atForm ref name, starForm ref name,
  elementForm g ref name]

end Alternatives

/-! ### The expansion -/

/-- A name with the marks in front of it. -/
structure Head where
  /-- Whether a `#` asks for the length. -/
  length : Bool
  /-- Whether a `!` asks for what the parameter names. -/
  ref : Bool
  name : Text

/-- The marks and the name. Right before the brace, a mark that has no name behind it
is itself the name of a special parameter. -/
def head : ParseM Head := do
  let length := (← accept (.lit ['#']) .sharp).isSome
  let ref := (← accept (.lit ['!']) .bang).isSome
  match ← next [.name] with
  | some t => return ⟨length, ref, t.body⟩
  | none =>
    if ref || length then
      if (← peek [.rbrace]).isSome then
        return if ref then ⟨length, false, ['!']⟩ else ⟨false, ref, ['#']⟩
    fail .parameterName

/-- What stands between `${` and its brace. -/
def parameterBody : ParseM Form := do
  let h ← head
  if h.length then
    return ⟨.paramLength h.ref h.name, false⟩
  return (← firstOf (forms g h.ref h.name)).getD ⟨.param h.ref h.name, false⟩

/-- The rest of an expansion after its `${`. -/
def parameterRest : ParseM Node :=
  withRules .param false do
    let form ← parameterBody g
    let brace ← if form.blankBeforeBrace then acceptPastBlank (.lit ['}']) .rbrace
      else next [.rbrace]
    if brace.isNone then
      fail .closingBrace
    return form.node

end ShellGrammar.Grammar
