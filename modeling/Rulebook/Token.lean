import Rulebook.Value

namespace Rulebook

inductive Token
  | ident (name : String)
  | literal (value : Value)
  | op (o : Operator)
  | and
  | or
  | leftParen
  | rightParen
deriving DecidableEq

def Token.text : Token → String
  | ident name => "identifier '" ++ name ++ "'"
  | literal (.str s) => "literal " ++ (Value.str s).text
  | literal v => "literal '" ++ v.text ++ "'"
  | op o => "operator '" ++ o.text ++ "'"
  | and => "'AND'"
  | or => "'OR'"
  | leftParen => "'('"
  | rightParen => "')'"

inductive LexFault
  | unexpectedChar (c : Char)
  | unterminatedString
  | invalidNumber (text : String)
deriving DecidableEq

def LexFault.message : LexFault → String
  | unexpectedChar c => "unexpected character '" ++ c.toString ++ "'"
  | unterminatedString => "unterminated string literal"
  | invalidNumber text => "invalid number literal '" ++ text ++ "'"

structure LexError where
  position : Nat
  fault : LexFault
deriving DecidableEq

def LexError.message (e : LexError) : String :=
  "lex error at position " ++ toString e.position ++ ": " ++ e.fault.message

inductive Tokens
  | done (offset : Nat)
  | fault (e : LexError)
  | next (offset : Nat) (token : Token) (rest : Tokens)
deriving DecidableEq

namespace Tokens

def toList : Tokens → List (Nat × Token)
  | done _ => []
  | fault _ => []
  | next n t rest => (n, t) :: rest.toList

def error? : Tokens → Option LexError
  | done _ => none
  | fault e => some e
  | next _ _ rest => rest.error?

end Tokens

end Rulebook
