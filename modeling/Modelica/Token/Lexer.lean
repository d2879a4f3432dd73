/-
Cutting a text into lexemes by longest match.

Each rule is a function from the remaining text to the length of its longest
match, zero for none. At every place the longest of these wins, the earlier
rule in a tie (keywords and signs before names). Where no rule matches, the
text is dropped as far as some rule could still have matched, and one
character more.
-/
import Modelica.Token

namespace Modelica.Lexer

def isNondigit (c : Char) : Bool := c.isAlpha || c == '_'

def isWordChar (c : Char) : Bool := isNondigit c || c.isDigit

def isBlank (c : Char) : Bool := c == ' ' || c == '\r' || c == '\n' || c == '\t'

def isQuotedChar (c : Char) : Bool := isWordChar c || "!#$%&()*+,-./:;<>=?@[]^\x7b\x7d| ".toList.contains c

def isEscaped (c : Char) : Bool := "'\"\\?bfnrtva".toList.contains c

/-- The characters of a quoted name after its opening quote. A quoted name
has no closing quote: it runs on while its characters are admitted. -/
def quotedLength : List Char → Nat
  | '\\' :: c :: rest => if isEscaped c then 2 + quotedLength rest else 0
  | c :: rest => if isQuotedChar c then 1 + quotedLength rest else 0
  | [] => 0

def identLength : List Char → Nat
  | '\'' :: rest => if quotedLength rest = 0 then 0 else 1 + quotedLength rest
  | c :: rest => if isNondigit c then 1 + (rest.takeWhile isWordChar).length else 0
  | [] => 0

/-- The end of a text in quotes, counted in characters read so far. A quote
behind a backslash may close the text or belong to it, so the last such place
is kept in `best` until a quote that has to close it. -/
def stringEnd (read best : Nat) (escaped : Bool) : List Char → Nat
  | [] => best
  | '"' :: rest => if escaped then stringEnd (read + 1) (read + 1) false rest else read + 1
  | c :: rest => stringEnd (read + 1) best (c == '\\') rest

def stringLength : List Char → Nat
  | '"' :: rest => stringEnd 1 0 false rest
  | _ => 0

def exponentLength : List Char → Nat
  | c :: rest =>
    if c == 'e' || c == 'E' then
      match rest with
      | s :: ds =>
        let sign := if s == '+' || s == '-' then 1 else 0
        let n := ((if sign = 1 then ds else rest).takeWhile Char.isDigit).length
        if n = 0 then 0 else 1 + sign + n
      | [] => 0
    else 0
  | [] => 0

/-- The rest of a number. A number may hold further numbers after its points,
each with an exponent of its own; `free` counts the exponents still free. -/
def numberRest : Nat → Nat → List Char → Nat
  | 0, _, _ => 0
  | fuel + 1, free, cs =>
    match free, cs with
    | free' + 1, '.' :: rest =>
      let n := (rest.takeWhile Char.isDigit).length
      1 + n + numberRest fuel (if n = 0 then free' + 1 else free' + 2) (rest.drop n)
    | free' + 1, cs =>
      let n := exponentLength cs
      if n = 0 then 0 else n + numberRest fuel free' (cs.drop n)
    | 0, _ => 0

def numberLength (cs : List Char) : Nat :=
  let n := (cs.takeWhile Char.isDigit).length
  if n = 0 then 0 else n + numberRest cs.length 1 (cs.drop n)

/-- The characters up to and including the first line feed, or zero. -/
def lineEnd (read : Nat) : List Char → Nat
  | [] => 0
  | c :: rest => if c = '\n' then read + 1 else lineEnd (read + 1) rest

/-- The characters up to and including the first `*/`, or zero. -/
def blockEnd (read : Nat) : List Char → Nat
  | '*' :: '/' :: _ => read + 2
  | _ :: rest => blockEnd (read + 1) rest
  | [] => 0

def commentLength : List Char → Nat
  | '/' :: '/' :: rest => lineEnd 2 rest
  | '/' :: '*' :: rest => blockEnd 2 rest
  | _ => 0

def blankLength (cs : List Char) : Nat := (cs.takeWhile isBlank).length

def rules : List (LexemeKind × (List Char → Nat)) :=
  literals.map (fun w => (.token (.literal w), fun cs => if w.toList.isPrefixOf cs then w.length else 0)) ++
  [(.token .ident, identLength), (.token .string, stringLength), (.token .number, numberLength),
   (.comment, commentLength), (.blank, blankLength)]

/-- The longest match of the rules, the first of them in a tie. -/
def longest (cs : List Char) : LexemeKind × Nat :=
  rules.foldl (fun best r => let n := r.2 cs; if n > best.2 then (r.1, n) else best) (.unrecognised, 0)

/-- How much is dropped where no rule matches: what a quoted name or a text
in quotes could have gone on with, and the character it failed on. -/
def unrecognisedLength : List Char → Nat
  | '\'' :: '\\' :: rest => 2 + min 1 rest.length
  | '\'' :: rest => 1 + min 1 rest.length
  | '"' :: rest => 1 + rest.length
  | _ => 1

/-- The lexeme at the start of the text: its kind and its length. -/
def next (cs : List Char) : LexemeKind × Nat :=
  let (kind, n) := longest cs
  if n = 0 then (.unrecognised, unrecognisedLength cs) else (kind, n)

def scan : Nat → Position → List Char → List Lexeme
  | 0, _, _ => []
  | _, _, [] => []
  | fuel + 1, p, cs =>
    let (kind, n) := next cs
    let chars := cs.take n
    ⟨kind, chars, p⟩ :: scan fuel (p.advance chars) (cs.drop n)

def lexemes (text : String) : List Lexeme :=
  let cs := text.toList
  scan cs.length {} cs

end Modelica.Lexer

namespace Modelica

def tokens (text : String) : List Token := (Lexer.lexemes text).filterMap Lexeme.token?

def endOf (text : String) : Position := Position.advance {} text.toList

structure Dropped where
  position : Position
  chars : List Char
deriving Repr, DecidableEq, Inhabited

def Dropped.visible (c : Char) : String :=
  if c = '\n' then "\\n" else if c = '\t' then "\\t" else if c = '\r' then "\\r" else c.toString

def Dropped.message (d : Dropped) : String :=
  "token recognition error at: '" ++ String.join (d.chars.map visible) ++ "'"

/-- The dropped stretches in front of the token number `n` (from zero), or in
front of the end when there are no more tokens. -/
def dropped : Nat → List Lexeme → List Dropped
  | _, [] => []
  | n, l :: rest =>
    match l.kind with
    | .token _ => if n = 0 then [] else dropped (n - 1) rest
    | .unrecognised => ⟨l.position, l.chars⟩ :: dropped n rest
    | _ => dropped n rest

end Modelica
