/-
Tokens of model texts and where they stand.

A text is cut into lexemes: tokens, comments, blanks, and stretches that no
rule accepts. The parser sees the tokens only; the lexemes together are the
whole text.
-/
namespace Modelica

/-- A place in a text: lines count from one, columns from zero, and only a
line feed ends a line. -/
structure Position where
  line : Nat := 1
  column : Nat := 0
deriving Repr, DecidableEq, Inhabited

def Position.step (p : Position) (c : Char) : Position :=
  if c = '\n' then ⟨p.line + 1, 0⟩ else ⟨p.line, p.column + 1⟩

def Position.advance (p : Position) (cs : List Char) : Position := cs.foldl Position.step p

/-- What the grammar distinguishes: each keyword and sign by itself, names,
texts in quotes, and numbers. -/
inductive Terminal where
  | literal (text : String)
  | ident
  | string
  | number
deriving Repr, DecidableEq, Inhabited

structure Token where
  terminal : Terminal
  text : String
  position : Position
deriving Repr, DecidableEq, Inhabited

def Token.is (t : Token) (word : String) : Bool := t.terminal == .literal word

/-- The kinds of lexemes. `unrecognised` is text that no rule accepts. -/
inductive LexemeKind where
  | token (terminal : Terminal)
  | comment
  | blank
  | unrecognised
deriving Repr, DecidableEq, Inhabited

structure Lexeme where
  kind : LexemeKind
  chars : List Char
  position : Position
deriving Repr, DecidableEq, Inhabited

def Lexeme.token? (l : Lexeme) : Option Token :=
  match l.kind with
  | .token t => some ⟨t, String.ofList l.chars, l.position⟩
  | _ => none

def literals : List String := [
  "within", "final", "encapsulated", "partial", "class", "model", "operator", "record", "block",
  "expandable", "connector", "type", "package", "pure", "impure", "function", "end", "enumeration",
  "der", "extends", "public", "protected", "external", "redeclare", "inner", "outer", "replaceable",
  "import", "constrainedby", "flow", "stream", "discrete", "parameter", "constant", "input", "output",
  "if", "each", "initial", "equation", "algorithm", "break", "return", "then", "elseif", "else", "for",
  "loop", "in", "while", "when", "elsewhen", "connect", "not", "and", "or", "false", "true", "annotation",
  ";", "=", "(", ")", ":", ",", ".", "*", "\x7b", "\x7d", ":=", "-", "^", ".^", "/", ".*", "./", "+", ".+", ".-",
  "<", "<=", ">", ">=", "==", "<>", "[", "]"]

end Modelica
