import Rulebook.Json.Number

namespace Rulebook

inductive Json
  | null
  | bool (b : Bool)
  | number (n : Numeral)
  | str (s : Option String)
  | array (items : List Json)
  | object (members : List (Option String × Json))

namespace Json

inductive Shape
  | null
  | boolean
  | number
  | string
  | array
  | object
deriving DecidableEq

def Shape.name : Shape → String
  | null => "null"
  | boolean => "boolean"
  | number => "number"
  | string => "string"
  | array => "array"
  | object => "object"

def shape : Json → Shape
  | null => .null
  | bool _ => .boolean
  | number _ => .number
  | str _ => .string
  | array _ => .array
  | object _ => .object

abbrev Members := List (Option String × Json)

inductive Frame
  | array (items : List Json)
  | object (members : Members) (key : Option String)

inductive Phase
  | value
  | firstItem
  | firstKey
  | key (members : Members)
  | colon (members : Members) (key : Option String)
  | complete (v : Json)

structure State where
  frames : List Frame
  phase : Phase

def begin (frames : List Frame) : Token → Option State
  | .null => some ⟨frames, .complete null⟩
  | .bool b => some ⟨frames, .complete (bool b)⟩
  | .number n => some ⟨frames, .complete (number n)⟩
  | .str s => some ⟨frames, .complete (str s)⟩
  | .leftBracket => some ⟨frames, .firstItem⟩
  | .leftBrace => some ⟨frames, .firstKey⟩
  | _ => none

def step (s : State) (t : Token) : Option State :=
  match s.phase, t with
  | .value, t => begin s.frames t
  | .firstItem, .rightBracket => some ⟨s.frames, .complete (array [])⟩
  | .firstItem, t => begin (.array [] :: s.frames) t
  | .firstKey, .rightBrace => some ⟨s.frames, .complete (object [])⟩
  | .firstKey, .str k => some ⟨s.frames, .colon [] k⟩
  | .key ms, .str k => some ⟨s.frames, .colon ms k⟩
  | .colon ms k, .colon => some ⟨.object ms k :: s.frames, .value⟩
  | .complete v, t =>
    match s.frames, t with
    | .array vs :: frames, .comma => some ⟨.array (v :: vs) :: frames, .value⟩
    | .array vs :: frames, .rightBracket => some ⟨frames, .complete (array (v :: vs).reverse)⟩
    | .object ms k :: frames, .comma => some ⟨frames, .key ((k, v) :: ms)⟩
    | .object ms k :: frames, .rightBrace =>
      some ⟨frames, .complete (object ((k, v) :: ms).reverse)⟩
    | _, _ => none
  | _, _ => none

def ofTokens (ts : List Token) : Option Json := do
  let s ← ts.foldlM step ⟨[], .value⟩
  match s with
  | ⟨[], .complete v⟩ => some v
  | _ => none

def parse (text : String) : Option Json := do ofTokens (← tokens text.toList)

def Token.isSound : Token → Bool
  | str s => s.isSome
  | number n => inRange n
  | _ => true

def maxNesting : Nat := 127

def parseData (text : String) : Option Json := do
  let ts ← tokens text.toList
  if ts.all Token.isSound && deepest 0 (ts.filterMap Token.bracket?) ≤ maxNesting then ofTokens ts
  else none

end Json

end Rulebook
