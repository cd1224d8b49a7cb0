import Rulebook.Numeral
import Rulebook.Token

namespace Rulebook

def byteSize : List Char → Nat
  | [] => 0
  | c :: cs => c.utf8Size + byteSize cs

namespace Token

def isWordStart (c : Char) : Bool := c.isAlpha || c = '_'

def isWordChar (c : Char) : Bool := c.isAlphanum || c = '_'

def ofWord (cs : List Char) : Token :=
  match String.ofList cs with
  | "AND" => and
  | "and" => and
  | "OR" => or
  | "or" => or
  | "true" => literal (.bool true)
  | "false" => literal (.bool false)
  | name => ident name

def ofNumeral (n : Numeral) : Except LexFault Token :=
  if n.isInteger then
    match n.toInt64? with
    | some i => .ok (literal (.int i))
    | none => .error (.invalidNumber (.ofList n.text))
  else if n.toBinary64.isFinite then .ok (literal (.float n.toBinary64))
  else .error (.invalidNumber (.ofList n.text))

def symbol : List Char → Option (Token × Nat)
  | '(' :: _ => some (leftParen, 1)
  | ')' :: _ => some (rightParen, 1)
  | '>' :: '=' :: _ => some (op .ge, 2)
  | '>' :: _ => some (op .gt, 1)
  | '<' :: '=' :: _ => some (op .le, 2)
  | '<' :: _ => some (op .lt, 1)
  | '!' :: '=' :: _ => some (op .ne, 2)
  | '=' :: '=' :: _ => some (op .eq, 2)
  | '=' :: _ => some (op .eq, 1)
  | _ => none

/-- The token at the start of `c :: cs`, with the number of characters of `cs` that belong to it. -/
def scan (c : Char) (cs : List Char) : Except LexFault (Token × Nat) :=
  if c = Quoted.singleQuote || c = Quoted.doubleQuote then
    match Quoted.split c cs with
    | some (body, _) => .ok (literal (.str (.ofList (Quoted.decode body))), body.length + 1)
    | none => .error .unterminatedString
  else if c.isDigit || c = '-' then
    match Numeral.scan (c :: cs) with
    | some (n, _) => (ofNumeral n).map fun t => (t, n.text.length - 1)
    | none => .error (.unexpectedChar c)
  else if isWordStart c then
    let tail := cs.takeWhile isWordChar
    .ok (ofWord (c :: tail), tail.length)
  else
    match symbol (c :: cs) with
    | some (t, n) => .ok (t, n - 1)
    | none => .error (.unexpectedChar c)

end Token

namespace Tokens

def scan (offset : Nat) (cs : List Char) : Tokens :=
  match cs with
  | [] => done offset
  | c :: rest =>
    if isBlank c then scan (offset + c.utf8Size) rest
    else
      match Token.scan c rest with
      | .error f => .fault ⟨offset, f⟩
      | .ok (token, n) =>
        next offset token (scan (offset + c.utf8Size + byteSize (rest.take n)) (rest.drop n))
termination_by cs.length

def ofString (s : String) : Tokens := scan 0 s.toList

end Tokens

end Rulebook
