namespace Rulebook

namespace Bytes

def write : Nat → Nat → List UInt8
  | 0, _ => []
  | count + 1, n => UInt8.ofNat (n % 256) :: write count (n / 256)

def read : List UInt8 → Nat
  | [] => 0
  | b :: bs => b.toNat + 256 * read bs

theorem write_length (count n : Nat) : (write count n).length = count := by
  induction count generalizing n with
  | zero => rfl
  | succ count ih => rw [write, List.length_cons, ih]

end Bytes

namespace Snapshot

inductive DecodeError
  | unexpectedEnd
  | invalidIntegerType
  | invalidBoolean
  | invalidUtf8
  | unknownVariant
deriving DecidableEq

abbrev Decoder (α : Type) := StateT (List UInt8) (Except DecodeError) α

def takeBytes (n : Nat) : Decoder (List UInt8) := fun bs =>
  if n ≤ bs.length then .ok (bs.take n, bs.drop n) else .error .unexpectedEnd

namespace Varint

def encode (n : Nat) : List UInt8 :=
  if n ≤ 250 then [UInt8.ofNat n]
  else if n < 0x10000 then 251 :: Bytes.write 2 n
  else if n < 0x100000000 then 252 :: Bytes.write 4 n
  else 253 :: Bytes.write 8 n

inductive Width
  | word32
  | word64
deriving DecidableEq

def bytesAfter (w : Width) (mark : UInt8) : Except DecodeError Nat :=
  if mark ≤ 250 then .ok 0
  else if mark = 251 then .ok 2
  else if mark = 252 then .ok 4
  else if mark = 253 ∧ w = .word64 then .ok 8
  else .error .invalidIntegerType

def decode (w : Width) : Decoder Nat
  | [] => .error .unexpectedEnd
  | mark :: bs =>
    match bytesAfter w mark with
    | .error e => .error e
    | .ok 0 => .ok (mark.toNat, bs)
    | .ok n => (takeBytes n bs).map fun p => (Bytes.read p.1, p.2)

end Varint

def zigzag (n : Int) : Nat := if 0 ≤ n then 2 * n.toNat else 2 * (-n).toNat - 1

def unzigzag (n : Nat) : Int := if n % 2 = 0 then (n / 2 : Nat) else -((n / 2 : Nat) : Int) - 1

end Snapshot

end Rulebook
