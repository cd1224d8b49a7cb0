import Mathlib.Algebra.Group.Nat.Defs
import Rulebook.Snapshot.Payload

namespace Rulebook

namespace Bytes

theorem read_write {count n : Nat} (h : n < 256 ^ count) : read (write count n) = n := by
  induction count generalizing n with
  | zero =>
    rw [Nat.pow_zero] at h
    have zero : n = 0 := by omega
    rw [zero]
    rfl
  | succ count ih =>
    have small : n / 256 < 256 ^ count := by
      apply Nat.div_lt_of_lt_mul
      rw [← Nat.pow_add_one']
      exact h
    rw [write, read, ih small]
    have byte : (UInt8.ofNat (n % 256)).toNat = n % 256 := by simp
    rw [byte]
    omega

theorem write_read (bs : List UInt8) : write bs.length (read bs) = bs := by
  induction bs with
  | nil => rfl
  | cons b bs ih =>
    have byte := b.toNat_lt
    have low : (b.toNat + 256 * read bs) % 256 = b.toNat := by omega
    have high : (b.toNat + 256 * read bs) / 256 = read bs := by omega
    rw [List.length_cons, read, write, low, high, ih, UInt8.ofNat_toNat]

theorem read_lt (bs : List UInt8) : read bs < 256 ^ bs.length := by
  induction bs with
  | nil => exact Nat.one_pos
  | cons b bs ih =>
    have byte := b.toNat_lt
    rw [read, List.length_cons, Nat.pow_succ]
    omega

theorem read_inj {as bs : List UInt8} (h : as.length = bs.length) : read as = read bs ↔ as = bs := by
  constructor
  · intro same
    rw [← write_read as, ← write_read bs, h, same]
  · exact congrArg read

end Bytes

namespace Snapshot

def Decodes {α : Type} (d : Decoder α) (bs : List UInt8) (x : α) : Prop :=
  ∀ rest, d (bs ++ rest) = .ok (x, rest)

namespace Decodes

variable {α β : Type}

theorem pure (x : α) : Decodes (Pure.pure x) [] x := fun _ => rfl

theorem bind {d : Decoder α} {f : α → Decoder β} {bs cs : List UInt8} {x : α} {y : β} (hd : Decodes d bs x)
    (hf : Decodes (f x) cs y) : Decodes (d >>= f) (bs ++ cs) y := by
  intro rest
  have first := hd (cs ++ rest)
  have second := hf rest
  rw [List.append_assoc]
  change (d (bs ++ (cs ++ rest)) >>= fun p => f p.1 p.2) = _
  rw [first]
  exact second

theorem finish {d : Decoder α} {f : α → Decoder β} {bs : List UInt8} {x : α} {y : β} (hd : Decodes d bs x)
    (hf : f x = Pure.pure y) : Decodes (d >>= f) bs y := by
  have last : Decodes (f x) [] y := by
    rw [hf]
    exact pure y
  have whole := hd.bind last
  rw [List.append_nil] at whole
  exact whole

end Decodes

theorem takeBytes_decodes (bs : List UInt8) : Decodes (takeBytes bs.length) bs bs := by
  intro rest
  rw [takeBytes, if_pos (by simp), List.take_left, List.drop_left]

namespace Varint

def Width.bound : Width → Nat
  | .word32 => 2 ^ 32
  | .word64 => 2 ^ 64

theorem decode_small {w : Width} {n : Nat} (h : n ≤ 250) (rest : List UInt8) :
    decode w (UInt8.ofNat n :: rest) = .ok (n, rest) := by
  have byte : (UInt8.ofNat n).toNat = n := by simp; omega
  have alone : bytesAfter w (UInt8.ofNat n) = .ok 0 := by
    rw [bytesAfter, if_pos]
    rw [UInt8.le_iff_toNat_le, byte]
    exact h
  rw [decode, alone, byte]
  rfl

theorem decode_marked {w : Width} {mark : UInt8} {count n : Nat} (hm : bytesAfter w mark = .ok count)
    (hc : 0 < count) (hn : n < 256 ^ count) (rest : List UInt8) :
    decode w (mark :: (Bytes.write count n ++ rest)) = .ok (n, rest) := by
  have taken := takeBytes_decodes (Bytes.write count n) rest
  rw [Bytes.write_length] at taken
  rw [decode, hm]
  split
  · next h => cases h
  · next h =>
    cases h
    omega
  · next h =>
    cases h
    rw [taken]
    change Except.ok (Bytes.read (Bytes.write count n), rest) = _
    rw [Bytes.read_write hn]

theorem decodes {w : Width} {n : Nat} (h : n < w.bound) : Decodes (decode w) (encode n) n := by
  intro rest
  rw [encode]
  by_cases one : n ≤ 250
  · rw [if_pos one]
    exact decode_small one rest
  rw [if_neg one]
  by_cases two : n < 0x10000
  · rw [if_pos two]
    exact decode_marked (by cases w <;> rfl) (by decide) two rest
  rw [if_neg two]
  by_cases four : n < 0x100000000
  · rw [if_pos four]
    exact decode_marked (by cases w <;> rfl) (by decide) four rest
  · rw [if_neg four]
    cases w with
    | word32 => exact absurd h four
    | word64 => exact decode_marked rfl (by decide) h rest

theorem encode_length_pos (n : Nat) : 0 < (encode n).length := by
  rw [encode]
  split
  · exact Nat.one_pos
  · split
    · exact Nat.succ_pos _
    · split <;> exact Nat.succ_pos _

end Varint

theorem unzigzag_zigzag (n : Int) : unzigzag (zigzag n) = n := by
  by_cases h : 0 ≤ n
  · simp only [zigzag, unzigzag, if_pos h]
    split <;> omega
  · simp only [zigzag, unzigzag, if_neg h]
    split <;> omega

theorem zigzag_lt (n : Int64) : zigzag n.toInt < 2 ^ 64 := by
  have lower := n.minValue_le_toInt
  have upper := n.toInt_le
  have least : Int64.minValue.toInt = -2 ^ 63 := rfl
  have greatest : Int64.maxValue.toInt = 2 ^ 63 - 1 := rfl
  simp only [zigzag]
  split <;> omega

end Snapshot

end Rulebook
