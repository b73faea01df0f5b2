/-!
# Parameter names in the loader script

Host code refers to parameters by name, so a script function takes the declared names as far as they
can be used.  A name that is no identifier, or is taken, becomes `p` with its position, and
underscores are added until it is free.
-/

namespace WasmForge

/-- Words that cannot name a parameter. -/
def reservedWords : List String :=
  ["arguments", "await", "break", "case", "catch", "class", "const", "continue", "debugger",
    "default", "delete", "do", "else", "enum", "eval", "export", "extends", "false", "finally",
    "for", "function", "if", "implements", "import", "in", "instanceof", "interface", "let",
    "new", "null", "package", "private", "protected", "public", "return", "static", "super",
    "switch", "this", "throw", "true", "try", "typeof", "var", "void", "while", "with", "yield"]

namespace ParamNames

/-- Can an identifier start with this character? -/
def isStart (c : Char) : Bool := c.isAlpha || c == '_' || c == '$'

/-- Can an identifier go on with this character? -/
def isPart (c : Char) : Bool := isStart c || c.isDigit

/-- Can the name stand for a parameter? -/
def isUsable (name : String) : Bool :=
  match name.toList with
  | [] => false
  | c :: rest => isStart c && rest.all isPart && !reservedWords.contains name

/-- Adds underscores to a name until it is not taken.  Of `fuel + 1` candidates one is free when
`fuel` names are taken. -/
def freeName (taken : List String) : (fuel : Nat) → String → String
  | 0, name => name
  | fuel + 1, name => if taken.contains name then freeName taken fuel (name.push '_') else name

/-- The name for the parameter at a position. -/
def choose (taken : List String) (position : Nat) (name : String) : String :=
  let wish :=
    if isUsable name && !taken.contains name then name
    else "p" ++ String.ofList (Nat.toDigits 10 position)
  freeName taken taken.length wish

/-- The names for the parameters from a position on; `taken` are the names before it. -/
def chooseFrom (taken : List String) (position : Nat) : List String → List String
  | [] => []
  | name :: rest =>
    let chosen := choose taken position name
    chosen :: chooseFrom (chosen :: taken) (position + 1) rest

/-- The names for all parameters. -/
def chooseAll (names : List String) : List String := chooseFrom [] 0 names

end ParamNames

end WasmForge
