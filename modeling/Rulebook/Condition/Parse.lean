import Rulebook.Condition
import Rulebook.Condition.Fault
import Rulebook.Token.Scan

/-!
Reading a rule. The parser takes the tokens from left to right and keeps, for each open
parenthesis, the left sides that wait for the right side of their AND or OR.
-/

namespace Rulebook

structure Bounds where
  nesting : Nat := 64
  tree : Nat := 512
deriving DecidableEq

namespace Condition

structure Node where
  condition : Condition
  height : Nat
  height_eq : height = condition.depth

namespace Node

def leaf (f : String) (o : Operator) (v : Value) : Node := ⟨.compare f o v, 1, rfl⟩

def and (a b : Node) : Node :=
  ⟨.and a.condition b.condition, max a.height b.height + 1, by
    rw [a.height_eq, b.height_eq, depth]⟩

def or (a b : Node) : Node :=
  ⟨.or a.condition b.condition, max a.height b.height + 1, by
    rw [a.height_eq, b.height_eq, depth]⟩

end Node

structure Waiting where
  left : Node
  offset : Nat

structure Level where
  disjunction : Option Waiting
  conjunction : Option Waiting

def Level.fresh : Level := ⟨none, none⟩

inductive Phase
  | operand
  | operator (field : String)
  | value (field : String) (op : Operator)
  | connective (node : Node)

structure State where
  outer : List (Nat × Level)
  level : Level
  phase : Phase

def State.start : State := ⟨[], .fresh, .operand⟩

def checkHeight (bounds : Bounds) (offset : Nat) (n : Node) : Except ParseError Node :=
  if n.height ≤ bounds.tree then .ok n else .error ⟨offset, .treeTooDeep bounds.tree⟩

def Level.conjoin (bounds : Bounds) (l : Level) (n : Node) : Except ParseError Node :=
  match l.conjunction with
  | none => .ok n
  | some w => checkHeight bounds w.offset (w.left.and n)

def Level.disjoin (bounds : Bounds) (l : Level) (n : Node) : Except ParseError Node :=
  match l.disjunction with
  | none => .ok n
  | some w => checkHeight bounds w.offset (w.left.or n)

def Level.close (bounds : Bounds) (l : Level) (n : Node) : Except ParseError Node := do
  l.disjoin bounds (← l.conjoin bounds n)

def afterOperand (bounds : Bounds) (s : State) (n : Node) (offset : Nat) :
    Token → Except ParseError State
  | .and => do
    let left ← s.level.conjoin bounds n
    return ⟨s.outer, { s.level with conjunction := some ⟨left, offset⟩ }, .operand⟩
  | .or => do
    let left ← s.level.close bounds n
    return ⟨s.outer, ⟨some ⟨left, offset⟩, none⟩, .operand⟩
  | .rightParen => do
    let inner ← s.level.close bounds n
    match s.outer with
    | [] => .error ⟨offset, .unmatchedCloseParen⟩
    | (_, l) :: outer => return ⟨outer, l, .connective inner⟩
  | t => do
    let _ ← s.level.close bounds n
    match s.outer with
    | [] => .error ⟨offset, .trailingInput t⟩
    | _ :: _ => .error ⟨offset, .expectedConnective (some t)⟩

def step (bounds : Bounds) (s : State) (offset : Nat) (t : Token) : Except ParseError State :=
  match s.phase with
  | .operand =>
    match t with
    | .ident f => .ok { s with phase := .operator f }
    | .leftParen =>
      if s.outer.length < bounds.nesting then .ok ⟨(offset, s.level) :: s.outer, .fresh, .operand⟩
      else .error ⟨offset, .tooDeep bounds.nesting⟩
    | t => .error ⟨offset, .expectedOperand (some t)⟩
  | .operator f =>
    match t with
    | .op o => .ok { s with phase := .value f o }
    | t => .error ⟨offset, .missingOperator f (some t)⟩
  | .value f o =>
    match t with
    | .literal v => .ok { s with phase := .connective (.leaf f o v) }
    | t => .error ⟨offset, .missingValue f o (some t)⟩
  | .connective n => afterOperand bounds s n offset t

def finish (bounds : Bounds) (s : State) (offset : Nat) : Except ParseError Node :=
  match s.phase with
  | .operand => .error ⟨offset, .expectedOperand none⟩
  | .operator f => .error ⟨offset, .missingOperator f none⟩
  | .value f o => .error ⟨offset, .missingValue f o none⟩
  | .connective n => do
    let whole ← s.level.close bounds n
    match s.outer with
    | [] => return whole
    | (opened, _) :: _ => .error ⟨opened, .unclosedParen⟩

def run (bounds : Bounds) (s : State) : Tokens → Except TextError Node
  | .done n => (finish bounds s n).mapError .parse
  | .fault e => .error (.lex e)
  | .next n t rest =>
    match step bounds s n t with
    | .ok s' => run bounds s' rest
    | .error e => .error (.parse e)

def ofTokens (bounds : Bounds) : Tokens → Except TextError Node
  | .done _ => .error (.parse ⟨0, .emptyInput⟩)
  | ts => run bounds .start ts

/-- A single comparison is never too deep: only joining two conditions is checked. -/
def parse (bounds : Bounds) (text : String) : Except TextError Condition :=
  (ofTokens bounds (.ofString text)).map Node.condition

end Condition

end Rulebook
