import Rulebook.Token

namespace Rulebook

inductive ParseFault
  | emptyInput
  | missingOperator (field : String) (found : Option Token)
  | missingValue (field : String) (op : Operator) (found : Option Token)
  | expectedOperand (found : Option Token)
  | expectedConnective (found : Option Token)
  | unclosedParen
  | unmatchedCloseParen
  | trailingInput (found : Token)
  | tooDeep (limit : Nat)
  | treeTooDeep (limit : Nat)
deriving DecidableEq

def foundText : Option Token → String
  | some t => t.text
  | none => "end of input"

def ParseFault.message : ParseFault → String
  | emptyInput => "empty input"
  | missingOperator f t =>
    "missing comparison operator after '" ++ f ++ "', found " ++ foundText t
  | missingValue f o t =>
    "missing value after '" ++ f ++ " " ++ o.text ++ "', found " ++ foundText t
  | expectedOperand t => "expected a comparison or '(', found " ++ foundText t
  | expectedConnective t => "expected 'AND', 'OR' or ')', found " ++ foundText t
  | unclosedParen => "unmatched '('"
  | unmatchedCloseParen => "unmatched ')'"
  | trailingInput t => "unexpected trailing input starting with " ++ t.text
  | tooDeep n => "parentheses nested deeper than " ++ toString n ++ " levels"
  | treeTooDeep n => "condition tree deeper than " ++ toString n ++ " levels"

structure ParseError where
  position : Nat
  fault : ParseFault
deriving DecidableEq

def ParseError.message (e : ParseError) : String :=
  "parse error at position " ++ toString e.position ++ ": " ++ e.fault.message

inductive TextError
  | lex (e : LexError)
  | parse (e : ParseError)
deriving DecidableEq

namespace TextError

def message : TextError → String
  | lex e => e.message
  | parse e => e.message

def position : TextError → Nat
  | lex e => e.position
  | parse e => e.position

end TextError

end Rulebook
