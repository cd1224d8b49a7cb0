import Rulebook.Numeral

namespace Rulebook.Json

inductive Token
  | leftBrace
  | rightBrace
  | leftBracket
  | rightBracket
  | comma
  | colon
  | null
  | bool (b : Bool)
  | number (n : Numeral)
  | str (s : Option String)
deriving DecidableEq

inductive Piece
  | char (c : Char)
  | half (code : Nat)
deriving DecidableEq

namespace Piece

def ofCode (n : Nat) : Piece :=
  if 0xD800 ≤ n ∧ n ≤ 0xDFFF then half n else char (Char.ofNat n)

def join : List Piece → Option (List Char)
  | [] => some []
  | char c :: rest => (join rest).map (c :: ·)
  | half high :: half low :: rest =>
    if high < 0xDC00 ∧ 0xDC00 ≤ low then
      (join rest).map (Char.ofNat (0x10000 + (high - 0xD800) * 0x400 + (low - 0xDC00)) :: ·)
    else none
  | half _ :: _ => none

end Piece

def hexDigit? (c : Char) : Option Nat :=
  if c.isDigit then some (c.toNat - '0'.toNat)
  else if 'a' ≤ c ∧ c ≤ 'f' then some (c.toNat - 'a'.toNat + 10)
  else if 'A' ≤ c ∧ c ≤ 'F' then some (c.toNat - 'A'.toNat + 10)
  else none

def hexCode? (ds : List Char) : Option Nat :=
  ds.foldlM (fun n c => (hexDigit? c).map (16 * n + ·)) 0

def unescape? (c : Char) : Option Char :=
  if c = Quoted.doubleQuote || c = '\\' || c = '/' then some c
  else if c = 'b' then some '\x08'
  else if c = 'f' then some '\x0c'
  else if c = 'n' then some '\n'
  else if c = 'r' then some '\r'
  else if c = 't' then some '\t'
  else none

def pieces : List Char → Option (List Piece)
  | [] => some []
  | '\\' :: 'u' :: a :: b :: c :: d :: rest => do
    let n ← hexCode? [a, b, c, d]
    return .ofCode n :: (← pieces rest)
  | '\\' :: c :: rest => do
    let e ← unescape? c
    return .char e :: (← pieces rest)
  | c :: rest => do
    if c = '\\' || c.toNat < 0x20 then none
    return .char c :: (← pieces rest)

def isPlain (n : Numeral) : Bool :=
  match n.whole with
  | '0' :: _ :: _ => false
  | _ => true

def isSpace (c : Char) : Bool := c = ' ' || c = '\n' || c = '\t' || c = '\r'

namespace Token

def word (cs : List Char) (tail : String) (t : Token) : Option (Token × Nat) :=
  if tail.toList.isPrefixOf cs then some (t, tail.length) else none

def scan (c : Char) (cs : List Char) : Option (Token × Nat) :=
  if c = '\x7b' then some (leftBrace, 0)
  else if c = '\x7d' then some (rightBrace, 0)
  else if c = '[' then some (leftBracket, 0)
  else if c = ']' then some (rightBracket, 0)
  else if c = ',' then some (comma, 0)
  else if c = ':' then some (colon, 0)
  else if c = 'n' then word cs "ull" null
  else if c = 't' then word cs "rue" (bool true)
  else if c = 'f' then word cs "alse" (bool false)
  else if c = Quoted.doubleQuote then do
    let (body, _) ← Quoted.split c cs
    let ps ← pieces body
    return (str ((Piece.join ps).map .ofList), body.length + 1)
  else do
    let (n, _) ← Numeral.scan (c :: cs)
    if isPlain n then some (number n, n.text.length - 1) else none

def bracket? : Token → Option Bracket
  | leftBrace => some .opening
  | leftBracket => some .opening
  | rightBrace => some .closing
  | rightBracket => some .closing
  | _ => none

end Token

def tokens (cs : List Char) : Option (List Token) :=
  match cs with
  | [] => some []
  | c :: rest =>
    if isSpace c then tokens rest
    else
      match Token.scan c rest with
      | none => none
      | some (t, n) => (tokens (rest.drop n)).map (t :: ·)
termination_by cs.length

end Rulebook.Json
