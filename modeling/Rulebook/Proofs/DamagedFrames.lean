import Rulebook.Proofs.Frames
import Rulebook.Proofs.LoadedStores

namespace Rulebook.Snapshot

open Results

variable {bs cs : List UInt8} {s : Store} {e : LoadError}

theorem framed_of_read (h : read bs = .ok s) : Framed bs := by
  obtain ⟨payload, unframed, -⟩ := bind_ok_iff.mp h
  exact (unframe_ok_iff.mp unframed).1

theorem read_of_unframe_error (h : unframe cs = .error e) : read cs = .error e := by
  rw [read, h]
  rfl

theorem unframe_short (h : cs.length < headerSize) : unframe cs = .error (.lengthMismatch headerSize cs.length) := by
  simp only [unframe, h, ↓reduceIte]

theorem slice_of_part {start count : Nat} (h : cs <+: bs) (long : start + count ≤ cs.length) :
    slice start count cs = slice start count bs := by
  obtain ⟨rest, rfl⟩ := h
  rw [slice, slice, List.drop_append_of_le_length (by omega), List.take_append_of_le_length]
  rw [List.length_drop]
  omega

namespace Framed

theorem unframe_resized (framed : Framed bs) (long : headerSize ≤ cs.length)
    (header : ∀ start count, start + count ≤ headerSize → slice start count cs = slice start count bs)
    (resized : cs.length ≠ bs.length) :
    unframe cs = .error (.lengthMismatch (Bytes.read (slice 12 4 bs)) (cs.length - headerSize)) := by
  have whole := framed.long
  have size : cs.length - headerSize ≠ bs.length - headerSize := by omega
  have stored := framed.size
  rw [List.length_drop] at stored
  simp only [unframe, Nat.not_lt.mpr long, header 0 4 (by decide), header 4 2 (by decide), header 12 4 (by decide),
    framed.magic, framed.version, stored, List.length_drop, size, ne_eq, not_true_eq_false, not_false_eq_true,
    ↓reduceIte]

theorem unframe_relabelled (framed : Framed bs) (length : cs.length = bs.length)
    (body : cs.drop headerSize = bs.drop headerSize) :
    unframe cs =
      if slice 0 4 cs ≠ slice 0 4 bs then .error .badMagic
      else if slice 4 2 cs ≠ slice 4 2 bs then .error (.incompatibleVersion (Bytes.read (slice 4 2 cs)))
      else if slice 12 4 cs ≠ slice 12 4 bs then
        .error (.lengthMismatch (Bytes.read (slice 12 4 cs)) (bs.length - headerSize))
      else if slice 16 16 cs ≠ slice 16 16 bs then .error .checksumMismatch
      else .ok (bs.drop headerSize) := by
  have long : 32 ≤ bs.length := framed.long
  have short : ¬cs.length < headerSize := by
    rw [length]
    exact Nat.not_lt.mpr framed.long
  have magic : slice 0 4 cs = Snapshot.magic ↔ slice 0 4 cs = slice 0 4 bs := by
    rw [framed.magic]
  have version : Bytes.read (slice 4 2 cs) = formatVersion ↔ slice 4 2 cs = slice 4 2 bs := by
    rw [← framed.version]
    apply Bytes.read_inj
    rw [slice_length (by omega), slice_length (by omega)]
  have size : bs.length - headerSize = Bytes.read (slice 12 4 cs) ↔ slice 12 4 cs = slice 12 4 bs := by
    rw [← List.length_drop, ← framed.size, eq_comm]
    apply Bytes.read_inj
    rw [slice_length (by omega), slice_length (by omega)]
  have sum : checksum (bs.drop headerSize) = slice 16 16 cs ↔ slice 16 16 cs = slice 16 16 bs := by
    rw [framed.sum, eq_comm]
  simp only [unframe, short, ↓reduceIte, body, List.length_drop, ne_eq, magic, version, size, sum]

end Framed

/-- Accepted bytes that are cut or lengthened have the wrong length. Where only their header is changed, the
first of its fields that differs says how, and where none of those differs the store is the same. -/
theorem read_damaged (h : read bs = .ok s) :
    (∀ cs, cs <+: bs → cs ≠ bs →
      read cs = .error (if cs.length < headerSize then .lengthMismatch headerSize cs.length
        else .lengthMismatch (Bytes.read (slice 12 4 bs)) (cs.length - headerSize))) ∧
      (∀ extra, extra ≠ [] →
        read (bs ++ extra) =
          .error (.lengthMismatch (Bytes.read (slice 12 4 bs)) ((bs ++ extra).length - headerSize))) ∧
      ∀ cs, cs.length = bs.length → cs.drop headerSize = bs.drop headerSize →
        read cs =
          if slice 0 4 cs ≠ slice 0 4 bs then .error .badMagic
          else if slice 4 2 cs ≠ slice 4 2 bs then .error (.incompatibleVersion (Bytes.read (slice 4 2 cs)))
          else if slice 12 4 cs ≠ slice 12 4 bs then
            .error (.lengthMismatch (Bytes.read (slice 12 4 cs)) (cs.length - headerSize))
          else if slice 16 16 cs ≠ slice 16 16 bs then .error .checksumMismatch
          else .ok s := by
  have framed := framed_of_read h
  refine ⟨?_, ?_, ?_⟩
  · intro cs part cut
    apply read_of_unframe_error
    by_cases short : cs.length < headerSize
    · rw [if_pos short]
      exact unframe_short short
    · rw [if_neg short]
      have long := Nat.not_lt.mp short
      apply framed.unframe_resized long
      · intro start count inside
        exact slice_of_part part (Nat.le_trans inside long)
      · intro same
        exact cut (part.eq_of_length same)
  · intro extra added
    apply read_of_unframe_error
    have whole := framed.long
    have positive := List.length_pos_of_ne_nil added
    apply framed.unframe_resized
    · rw [List.length_append]
      omega
    · intro start count inside
      exact (slice_of_part (List.prefix_append bs extra) (Nat.le_trans inside whole)).symm
    · rw [List.length_append]
      omega
  · intro cs length body
    have kept : unframe bs = .ok (bs.drop headerSize) := unframe_ok_iff.mpr ⟨framed, rfl⟩
    rw [read, kept] at h
    rw [read, framed.unframe_relabelled length body, length]
    split_ifs
    · rfl
    · rfl
    · rfl
    · rfl
    · exact h

theorem read_damaged_odd :
    ∃ bs, write (odd ⟨8⟩) = .ok bs ∧ read bs = .ok (odd ⟨8⟩) ∧
      read (bs.take 20) = .error (.lengthMismatch 32 20) ∧ read (bs.take 40) = .error (.lengthMismatch 51 8) ∧
        read (bs ++ [0]) = .error (.lengthMismatch 51 52) ∧
          read (magic ++ [2, 0] ++ List.replicate 26 0 ++ bs.drop 32) = .error (.incompatibleVersion 2) := by
  obtain ⟨bs, written, loaded⟩ := odd_saved
  have framed := framed_of_read loaded
  have length : bs.length = 83 := by
    rw [← (write_ok_iff.mp written).2, frame_length, odd_length]
    rfl
  have stored : Bytes.read (slice 12 4 bs) = 51 := by
    rw [framed.size, List.length_drop, length]
    rfl
  obtain ⟨shorter, longer, relabelled⟩ := read_damaged loaded
  have taken (n : Nat) (h : n < 83) : (bs.take n).length = n ∧ bs.take n ≠ bs := by
    have cut : (bs.take n).length = n := List.length_take_of_le (by omega)
    refine ⟨cut, ?_⟩
    intro same
    rw [same, length] at cut
    omega
  refine ⟨bs, written, loaded, ?_, ?_, ?_, ?_⟩
  · obtain ⟨cut, part⟩ := taken 20 (by decide)
    rw [shorter _ (List.take_prefix 20 bs) part, cut]
    rfl
  · obtain ⟨cut, part⟩ := taken 40 (by decide)
    rw [shorter _ (List.take_prefix 40 bs) part, cut, stored]
    rfl
  · rw [longer [0] (List.cons_ne_nil _ _), List.length_append, stored, length]
    rfl
  · have size : (magic ++ [2, 0] ++ List.replicate 26 0 ++ bs.drop 32).length = bs.length := by
      simp only [List.length_append, List.length_drop, length]
      rfl
    have first : slice 0 4 (magic ++ [2, 0] ++ List.replicate 26 0 ++ bs.drop 32) = magic := rfl
    have second : slice 4 2 (magic ++ [2, 0] ++ List.replicate 26 0 ++ bs.drop 32) = [2, 0] := rfl
    have version : [2, 0] ≠ slice 4 2 bs := by
      intro same
      have read := framed.version
      rw [← same] at read
      revert read
      decide
    rw [relabelled _ size rfl, first, second, framed.magic, if_neg (not_not.mpr rfl), if_pos version]
    rfl

end Rulebook.Snapshot
