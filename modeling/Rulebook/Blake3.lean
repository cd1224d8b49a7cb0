import Rulebook.Bytes

/-!
The hash function BLAKE3 without a key. The text is cut into chunks of 1024 bytes and these into
blocks of 64; the chunks are the leaves of a binary tree whose root gives the hash.
-/

namespace Rulebook.Blake3

abbrev Chaining := Vector UInt32 8

abbrev Block := Vector UInt32 16

def initial : Chaining :=
  #v[0x6A09E667, 0xBB67AE85, 0x3C6EF372, 0xA54FF53A, 0x510E527F, 0x9B05688C, 0x1F83D9AB, 0x5BE0CD19]

def permutation : Vector (Fin 16) 16 := #v[2, 6, 3, 10, 7, 0, 4, 13, 1, 11, 12, 5, 9, 14, 15, 8]

def chunkStart : UInt32 := 1

def chunkEnd : UInt32 := 2

def parent : UInt32 := 4

def root : UInt32 := 8

def rotateRight (w n : UInt32) : UInt32 := w >>> n ||| w <<< (32 - n)

def mix (v : Block) (a b c d : Fin 16) (x y : UInt32) : Block :=
  let v := v.set a (v[a] + v[b] + x)
  let v := v.set d (rotateRight (v[d] ^^^ v[a]) 16)
  let v := v.set c (v[c] + v[d])
  let v := v.set b (rotateRight (v[b] ^^^ v[c]) 12)
  let v := v.set a (v[a] + v[b] + y)
  let v := v.set d (rotateRight (v[d] ^^^ v[a]) 8)
  let v := v.set c (v[c] + v[d])
  v.set b (rotateRight (v[b] ^^^ v[c]) 7)

def round (v m : Block) : Block :=
  let v := mix v 0 4 8 12 m[0] m[1]
  let v := mix v 1 5 9 13 m[2] m[3]
  let v := mix v 2 6 10 14 m[4] m[5]
  let v := mix v 3 7 11 15 m[6] m[7]
  let v := mix v 0 5 10 15 m[8] m[9]
  let v := mix v 1 6 11 12 m[10] m[11]
  let v := mix v 2 7 8 13 m[12] m[13]
  mix v 3 4 9 14 m[14] m[15]

def permute (m : Block) : Block := permutation.map fun i => m[i]

def rounds : Nat → Block → Block → Block
  | 0, v, _ => v
  | n + 1, v, m => rounds n (round v m) (permute m)

structure Node where
  chaining : Chaining
  block : Block
  counter : Nat
  length : Nat
  flags : UInt32

namespace Node

def compress (n : Node) (flags : UInt32) : Chaining :=
  let h := n.chaining
  let v : Block :=
    #v[h[0], h[1], h[2], h[3], h[4], h[5], h[6], h[7], initial[0], initial[1], initial[2], initial[3],
      UInt32.ofNat n.counter, UInt32.ofNat (n.counter / 0x100000000), UInt32.ofNat n.length, flags]
  let w := rounds 7 v n.block
  Vector.ofFn fun (i : Fin 8) => w[i.val] ^^^ w[i.val + 8]

def value (n : Node) : Chaining := n.compress n.flags

def join (a b : Node) : Node :=
  ⟨initial, a.value ++ b.value, 0, 64, parent⟩

end Node

def blockOf (bs : List UInt8) : Block :=
  Vector.ofFn fun (i : Fin 16) => UInt32.ofNat (Bytes.read ((bs.drop (4 * i.val)).take 4))

def chunkFrom (h : Chaining) (flags : UInt32) (counter : Nat) (bs : List UInt8) : Node :=
  if 64 < bs.length then
    chunkFrom (Node.value ⟨h, blockOf (bs.take 64), counter, 64, flags⟩) 0 counter (bs.drop 64)
  else ⟨h, blockOf bs, counter, bs.length, flags ||| chunkEnd⟩
termination_by bs.length
decreasing_by rw [List.length_drop]; omega

def chunk (counter : Nat) (bs : List UInt8) : Node := chunkFrom initial chunkStart counter bs

def chunks (counter : Nat) (bs : List UInt8) : List Node :=
  if 1024 < bs.length then chunk counter (bs.take 1024) :: chunks (counter + 1) (bs.drop 1024)
  else [chunk counter bs]
termination_by bs.length
decreasing_by rw [List.length_drop]; omega

def pairs : List Node → List Node
  | a :: b :: rest => a.join b :: pairs rest
  | rest => rest

theorem pairs_length (ns : List Node) : (pairs ns).length ≤ (ns.length + 1) / 2 := by
  induction ns using pairs.induct with
  | case1 a b rest ih =>
    simp only [pairs, List.length_cons]
    omega
  | case2 rest h =>
    match rest, h with
    | [], _ => simp [pairs]
    | [_], _ => simp [pairs]
    | a :: b :: rest, h => exact absurd rfl (h a b rest)

/-- Joining in pairs until one node is left puts the greatest power of two chunks to the left. -/
def top (first : Node) (rest : List Node) : Node :=
  match h : pairs (first :: rest) with
  | [] => first
  | [n] => n
  | n :: m :: more =>
    have := pairs_length (first :: rest)
    have := congrArg List.length h
    top n (m :: more)
termination_by rest.length
decreasing_by simp only [List.length_cons] at *; omega

def digest (bs : List UInt8) : Chaining :=
  match chunks 0 bs with
  | [] => initial
  | first :: rest =>
    let n := top first rest
    n.compress (n.flags ||| root)

def hash (bs : List UInt8) : List UInt8 := (digest bs).toList.flatMap fun w => Bytes.write 4 w.toNat

theorem flatMap_write_length (ws : List UInt32) :
    (ws.flatMap fun w => Bytes.write 4 w.toNat).length = 4 * ws.length := by
  induction ws with
  | nil => rfl
  | cons w ws ih =>
    rw [List.flatMap_cons, List.length_append, ih, Bytes.write_length, List.length_cons]
    omega

theorem hash_length (bs : List UInt8) : (hash bs).length = 32 := by
  rw [hash, flatMap_write_length, Vector.length_toList]

end Rulebook.Blake3
