namespace Rulebook

inductive Relation
  | less
  | equal
  | greater
  | unordered
deriving DecidableEq

def Relation.ofOrdering : Ordering → Relation
  | .lt => .less
  | .eq => .equal
  | .gt => .greater

inductive Operator
  | eq
  | ne
  | gt
  | ge
  | lt
  | le
deriving DecidableEq, Inhabited

namespace Operator

def all : List Operator := [.eq, .ne, .gt, .ge, .lt, .le]

def text : Operator → String
  | eq => "="
  | ne => "!="
  | gt => ">"
  | ge => ">="
  | lt => "<"
  | le => "<="

def holds : Operator → Relation → Bool
  | eq, .equal => true
  | ne, .equal => false
  | ne, _ => true
  | gt, .greater => true
  | ge, .greater => true
  | ge, .equal => true
  | lt, .less => true
  | le, .less => true
  | le, .equal => true
  | _, _ => false

end Operator

end Rulebook
