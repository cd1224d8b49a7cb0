import Mathlib.Data.String.Basic
import Mathlib.Tactic.SplitIfs

namespace Rulebook

theorem cons_lt_of_le {a b : Nat} {l m : List UInt8} (byte : b < UInt8.size) (le : a ≤ b) (h : a = b → l < m) :
    UInt8.ofNat a :: l < UInt8.ofNat b :: m := by
  rw [List.cons_lt_cons_iff, UInt8.lt_iff_toNat_lt, ← UInt8.toNat_inj,
    UInt8.toNat_ofNat_of_lt' (Nat.lt_of_le_of_lt le byte), UInt8.toNat_ofNat_of_lt' byte]
  rcases Nat.lt_or_eq_of_le le with less | same
  · exact .inl less
  · exact .inr ⟨same, h same⟩

theorem cons_lt_of_lt {a b : Nat} {l m : List UInt8} (byte : b < UInt8.size) (less : a < b) :
    UInt8.ofNat a :: l < UInt8.ofNat b :: m := by
  apply cons_lt_of_le byte (Nat.le_of_lt less)
  intro same
  omega

theorem char_toNat_lt (c : Char) : c.val.toNat < 0x110000 := by
  rcases c.valid with low | high
  · exact Nat.lt_trans low (by decide)
  · exact high.2

theorem encode_lt {c d : Char} (h : c < d) (cs ds : List UInt8) :
    String.utf8EncodeChar c ++ cs < String.utf8EncodeChar d ++ ds := by
  have below : c.val.toNat < d.val.toNat := h
  have bound := char_toNat_lt d
  have size : UInt8.size = 256 := rfl
  unfold String.utf8EncodeChar
  generalize c.val.toNat = m, d.val.toNat = n at *
  dsimp only
  -- The first byte grows with the number of bytes, so it decides between codes of different lengths.
  split_ifs <;> try omega
  · exact cons_lt_of_lt (by omega) (by omega)
  · exact cons_lt_of_lt (by omega) (by omega)
  · exact cons_lt_of_lt (by omega) (by omega)
  · exact cons_lt_of_lt (by omega) (by omega)
  · apply cons_lt_of_le (by omega) (by omega)
    intro first
    exact cons_lt_of_lt (by omega) (by omega)
  · exact cons_lt_of_lt (by omega) (by omega)
  · exact cons_lt_of_lt (by omega) (by omega)
  · apply cons_lt_of_le (by omega) (by omega)
    intro first
    apply cons_lt_of_le (by omega) (by omega)
    intro second
    exact cons_lt_of_lt (by omega) (by omega)
  · exact cons_lt_of_lt (by omega) (by omega)
  · apply cons_lt_of_le (by omega) (by omega)
    intro first
    apply cons_lt_of_le (by omega) (by omega)
    intro second
    apply cons_lt_of_le (by omega) (by omega)
    intro third
    exact cons_lt_of_lt (by omega) (by omega)

theorem flatMap_encode_lt {cs ds : List Char} (h : cs < ds) :
    cs.flatMap String.utf8EncodeChar < ds.flatMap String.utf8EncodeChar := by
  induction h with
  | @nil d ds =>
    obtain ⟨b, bs, code⟩ := List.exists_cons_of_ne_nil (String.utf8EncodeChar_ne_nil (c := d))
    rw [List.flatMap_nil, List.flatMap_cons, code]
    exact .nil
  | rel below =>
    rw [List.flatMap_cons, List.flatMap_cons]
    exact encode_lt below _ _
  | cons _ ih =>
    rw [List.flatMap_cons, List.flatMap_cons]
    exact List.append_left_lt ih

theorem toUTF8_toList (s : String) : s.toUTF8.data.toList = s.toList.flatMap String.utf8EncodeChar := by
  change s.toByteArray.data.toList = _
  rw [← String.utf8Encode_toList, List.utf8Encode, List.toList_data_toByteArray]

theorem toUTF8_lt_iff {s t : String} : s.toUTF8.data.toList < t.toUTF8.data.toList ↔ s < t := by
  have forward {s t : String} (h : s < t) : s.toUTF8.data.toList < t.toUTF8.data.toList := by
    rw [toUTF8_toList, toUTF8_toList]
    exact flatMap_encode_lt (String.lt_iff_toList_lt.mp h)
  refine ⟨?_, forward⟩
  intro bytes
  rcases lt_trichotomy s t with below | same | above
  · exact below
  · rw [same] at bytes
    exact absurd bytes (List.lt_irrefl _)
  · exact absurd bytes (List.lt_asymm (forward above))

theorem toUTF8_le_iff {s t : String} : s.toUTF8.data.toList ≤ t.toUTF8.data.toList ↔ s ≤ t := by
  rw [← List.not_lt, toUTF8_lt_iff, not_lt]

end Rulebook
