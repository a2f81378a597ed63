import ShellGrammar.Pattern

/-! Reading JSON without keeping it.

Readers take a text and give back what is left of it. Values that nobody asked
for are skipped, but they have to be values: `skipValue` checks all of a value's
form, save that it does not ask whether the surrogates of a string pair up, since
that matters only to whoever wants the string. -/
namespace ShellGrammar.Json

/-- JSON's own white space. -/
def isBlank (c : Char) : Bool := [' ', '\n', '\t', '\r'].contains c

def skipBlank (t : Text) : Text := t.dropWhile isBlank

/-! ### Strings -/

/-- A piece of a string as it is written. -/
inductive Piece where
  | char (c : Char)
  /-- A code unit written with four hexadecimal digits. -/
  | unit (n : Nat)

def hexValue? (c : Char) : Option Nat :=
  if c.isDigit then some (c.toNat - '0'.toNat)
  else if 'a' ≤ c ∧ c ≤ 'f' then some (c.toNat - 'a'.toNat + 10)
  else if 'A' ≤ c ∧ c ≤ 'F' then some (c.toNat - 'A'.toNat + 10)
  else none

/-- The number that hexadecimal digits stand for. -/
def hexNumber? (digits : Text) : Option Nat :=
  digits.foldlM (fun n c => (hexValue? c).map (16 * n + ·)) 0

/-- The character that a backslash and a letter stand for. -/
def shortEscape? : Char → Option Char
  | '"' => some '"'
  | '\\' => some '\\'
  | '/' => some '/'
  | 'b' => some '\x08'
  | 'f' => some '\x0c'
  | 'n' => some '\n'
  | 'r' => some '\r'
  | 't' => some '\t'
  | _ => none

/-- The pieces of a string up to its closing quote, and what is left after it. -/
def readPieces : Text → Option (List Piece × Text)
  | [] => none
  | '"' :: t => some ([], t)
  | '\\' :: 'u' :: a :: b :: c :: d :: t => do
    let n ← hexNumber? [a, b, c, d]
    let (pieces, rest) ← readPieces t
    return (.unit n :: pieces, rest)
  | '\\' :: e :: t => do
    let c ← shortEscape? e
    let (pieces, rest) ← readPieces t
    return (.char c :: pieces, rest)
  | c :: t => do
    guard (0x20 ≤ c.toNat)
    let (pieces, rest) ← readPieces t
    return (.char c :: pieces, rest)

def isHighSurrogate (n : Nat) : Bool := 0xd800 ≤ n && n < 0xdc00

def isLowSurrogate (n : Nat) : Bool := 0xdc00 ≤ n && n < 0xe000

/-- The text that pieces stand for. A high surrogate needs a low one after it, and
a low one a high one before it. -/
def joinPieces : List Piece → Option Text
  | [] => some []
  | .char c :: pieces => (joinPieces pieces).map (c :: ·)
  | .unit n :: pieces =>
    if isLowSurrogate n then none
    else if isHighSurrogate n then
      match pieces with
      | .unit m :: pieces =>
        if isLowSurrogate m then
          (joinPieces pieces).map
            (Char.ofNat (0x10000 + 0x400 * (n - 0xd800) + (m - 0xdc00)) :: ·)
        else none
      | _ => none
    else (joinPieces pieces).map (Char.ofNat n :: ·)

/-- A string after its opening quote. -/
def readString (t : Text) : Option (Text × Text) := do
  let (pieces, rest) ← readPieces t
  return (← joinPieces pieces, rest)

/-! ### Numbers -/

/-- Zero, or digits that do not start with it. -/
def natural : Pattern :=
  .alt (.lit ['0']) (.seq (.one fun c => c.isDigit && c != '0') (.many .digit))

def number : Pattern :=
  .seq (.opt (.lit ['-'])) (.seq natural
    (.seq (.opt (.seq (.lit ['.']) (.some1 .digit)))
      (.opt (.seq (.oneOf ['e', 'E']) (.seq (.opt (.oneOf ['+', '-'])) (.some1 .digit))))))

/-- A natural number below `bound`. -/
def readNatural (bound : Nat) (t : Text) : Option (Nat × Text) := do
  let length ← natural.reach t
  let n := (t.take length).foldl (fun n c => 10 * n + (c.toNat - '0'.toNat)) 0
  guard (n < bound)
  return (n, t.drop length)

/-! ### Values that are skipped -/

/-- A fixed text or a number. -/
def scalar : Pattern :=
  .alt (.lit "null".toList) (.alt (.lit "true".toList) (.alt (.lit "false".toList) number))

/-- Past a scalar. -/
def skipScalar (t : Text) : Option Text := (scalar.reach t).map t.drop

mutual

/-- Past a value. Values nest at most `bound` deep. -/
def skipValue : (bound : Nat) → Text → Option Text
  | 0, _ => none
  | bound + 1, t =>
    match skipBlank t with
    | '"' :: t => (readPieces t).map (·.2)
    | '[' :: t =>
      match skipBlank t with
      | ']' :: t => some t
      | t => skipElements bound t
    | '{' :: t =>
      match skipBlank t with
      | '}' :: t => some t
      | t => skipMembers bound t
    | t => skipScalar t

/-- Past the values of an array, at least one, and its bracket. -/
def skipElements : (bound : Nat) → Text → Option Text
  | 0, _ => none
  | bound + 1, t => do
    match skipBlank (← skipValue bound t) with
    | ',' :: t => skipElements bound t
    | ']' :: t => some t
    | _ => none

/-- Past the members of an object, at least one, and its brace. -/
def skipMembers : (bound : Nat) → Text → Option Text
  | 0, _ => none
  | bound + 1, t =>
    match skipBlank t with
    | '"' :: t => do
      let (_, t) ← readPieces t
      match skipBlank t with
      | ':' :: t =>
        match skipBlank (← skipValue bound t) with
        | ',' :: t => skipMembers bound t
        | '}' :: t => some t
        | _ => none
      | _ => none
    | _ => none

end

end ShellGrammar.Json
