import Rulebook.Bytes
import Rulebook.Rule
import Rulebook.Snapshot.Tree

namespace Rulebook.Snapshot

structure Entry where
  id : RuleId
  source : String
  tree : Tree

structure Payload where
  nextId : RuleId
  entries : List Entry

def utf8 (s : String) : List UInt8 := s.toUTF8.data.toList

def operatorIndex : Operator → Nat
  | .eq => 0
  | .ne => 1
  | .gt => 2
  | .ge => 3
  | .lt => 4
  | .le => 5

namespace Encode

def string (s : String) : List UInt8 := Varint.encode (utf8 s).length ++ utf8 s

def value : Value → List UInt8
  | .int n => Varint.encode 0 ++ Varint.encode (zigzag n.toInt)
  | .float x => Varint.encode 1 ++ Bytes.write 8 x.bits.toNat
  | .bool b => Varint.encode 2 ++ [if b then 1 else 0]
  | .str s => Varint.encode 3 ++ string s

mutual

def tree : Tree → List UInt8
  | .leaf f o v => Varint.encode 0 ++ string f ++ Varint.encode (operatorIndex o) ++ value v
  | .and ts => Varint.encode 1 ++ Varint.encode ts.length ++ trees ts
  | .or ts => Varint.encode 2 ++ Varint.encode ts.length ++ trees ts

def trees : List Tree → List UInt8
  | [] => []
  | t :: ts => tree t ++ trees ts

end

def entry (e : Entry) : List UInt8 :=
  Varint.encode e.id.value.toNat ++ string e.source ++ tree e.tree

def payload (p : Payload) : List UInt8 :=
  Varint.encode p.nextId.value.toNat ++ Varint.encode p.entries.length ++ p.entries.flatMap entry

end Encode

namespace Decode

def word32 : Decoder Nat := Varint.decode .word32

def word64 : Decoder Nat := Varint.decode .word64

def ruleId : Decoder RuleId := do return ⟨UInt64.ofNat (← word64)⟩

def string : Decoder String := do
  let bs ← takeBytes (← word64)
  match String.fromUTF8? ⟨bs.toArray⟩ with
  | some s => return s
  | none => throw .invalidUtf8

def operator : Decoder Operator := do
  match Operator.all[← word32]? with
  | some o => return o
  | none => throw .unknownVariant

def bool : Decoder Bool := do
  match ← takeBytes 1 with
  | [0] => return false
  | [1] => return true
  | _ => throw .invalidBoolean

def value : Decoder Value := do
  match ← word32 with
  | 0 => return .int (.ofInt (unzigzag (← word64)))
  | 1 => return .float ⟨UInt64.ofNat (Bytes.read (← takeBytes 8))⟩
  | 2 => return .bool (← bool)
  | 3 => return .str (← string)
  | _ => throw .unknownVariant

def items {α : Type} (item : Decoder α) : Nat → Decoder (List α)
  | 0 => return []
  | n + 1 => do
    let x ← item
    let xs ← items item n
    return x :: xs

/-- A tree of at most `levels` levels. Each level takes bytes, so as many levels as there are bytes are
enough, and a tree with more of them ends too early. -/
def tree : Nat → Decoder Tree
  | 0 => throw .unexpectedEnd
  | levels + 1 => do
    match ← word32 with
    | 0 =>
      let f ← string
      let o ← operator
      let v ← value
      return .leaf f o v
    | 1 => return .and (← items (tree levels) (← word64))
    | 2 => return .or (← items (tree levels) (← word64))
    | _ => throw .unknownVariant

def entry : Decoder Entry := do
  let i ← ruleId
  let source ← string
  let t ← tree (← get).length
  return ⟨i, source, t⟩

def payload : Decoder Payload := do
  let next ← ruleId
  let entries ← items entry (← word64)
  return ⟨next, entries⟩

end Decode

end Rulebook.Snapshot
