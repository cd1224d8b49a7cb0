import Rulebook.Proofs.SnapshotRoundTrip

namespace Rulebook.Snapshot

variable {bs payload : List UInt8}

structure Framed (bs : List UInt8) : Prop where
  long : headerSize ≤ bs.length
  magic : slice 0 4 bs = magic
  version : Bytes.read (slice 4 2 bs) = formatVersion
  size : Bytes.read (slice 12 4 bs) = (bs.drop headerSize).length
  sum : slice 16 16 bs = checksum (bs.drop headerSize)

theorem unframe_ok_iff : unframe bs = .ok payload ↔ Framed bs ∧ bs.drop headerSize = payload := by
  constructor
  · intro h
    simp only [unframe] at h
    split at h
    · cases h
    split at h
    · cases h
    split at h
    · cases h
    split at h
    · cases h
    split at h
    · cases h
    next short magic version size sum =>
      rw [ne_eq, not_not] at magic version size sum
      cases h
      exact ⟨⟨Nat.not_lt.mp short, magic, version, size.symm, sum.symm⟩, rfl⟩
  · rintro ⟨⟨long, magic, version, size, sum⟩, rfl⟩
    simp only [unframe, Nat.not_lt.mpr long, magic, version, size, sum, ne_eq, not_true_eq_false, ↓reduceIte]

theorem slice_length {start count : Nat} (h : start + count ≤ bs.length) : (slice start count bs).length = count := by
  rw [slice, List.length_take, List.length_drop]
  omega

theorem slice_append_drop (start count : Nat) (bs : List UInt8) :
    slice start count bs ++ bs.drop (start + count) = bs.drop start := by
  rw [slice, ← List.drop_drop, List.take_append_drop]

theorem write_slice {start count n : Nat} (h : start + count ≤ bs.length) (read : Bytes.read (slice start count bs) = n) :
    Bytes.write count n = slice start count bs := by
  have same := Bytes.write_read (slice start count bs)
  rw [slice_length h, read] at same
  exact same

theorem slices_append (bs : List UInt8) :
    slice 0 4 bs ++ slice 4 2 bs ++ slice 6 2 bs ++ slice 8 4 bs ++ slice 12 4 bs ++ slice 16 16 bs ++
      bs.drop headerSize = bs := by
  simp only [List.append_assoc]
  change _ ++ (_ ++ (_ ++ (_ ++ (_ ++ (_ ++ bs.drop (16 + 16)))))) = _
  rw [slice_append_drop 16 16, slice_append_drop 12 4, slice_append_drop 8 4, slice_append_drop 6 2,
    slice_append_drop 4 2, slice_append_drop 0 4]
  rfl

theorem Framed.frame_eq (h : Framed bs) (writer : Bytes.read (slice 6 2 bs) = writerVersion)
    (flags : Bytes.read (slice 8 4 bs) = 0) : frame (bs.drop headerSize) = bs := by
  have long : 32 ≤ bs.length := h.long
  rw [frame, ← h.magic, ← h.sum, write_slice (by omega) h.version, write_slice (by omega) writer,
    write_slice (by omega) flags, write_slice (by omega) h.size, slices_append]

theorem Framed.size_lt (h : Framed bs) : (bs.drop headerSize).length < 0x100000000 := by
  have long : 32 ≤ bs.length := h.long
  have lt := Bytes.read_lt (slice 12 4 bs)
  rw [slice_length (by omega), h.size] at lt
  exact lt

theorem Framed.length_eq (h : Framed bs) : bs.length = headerSize + (bs.drop headerSize).length := by
  have long := h.long
  rw [List.length_drop]
  omega

theorem framed_frame (h : payload.length < 0x100000000) :
    Framed (frame payload) ∧ (frame payload).drop headerSize = payload :=
  unframe_ok_iff.mp (unframe_frame h)

theorem frame_length (payload : List UInt8) : (frame payload).length = headerSize + payload.length := by
  simp only [frame, List.length_append, Bytes.write_length, checksum_length]
  rfl

theorem writer_frame (payload : List UInt8) : Bytes.read (slice 6 2 (frame payload)) = writerVersion := by
  simp only [frame, List.append_assoc]
  rfl

theorem flags_frame (payload : List UInt8) : Bytes.read (slice 8 4 (frame payload)) = 0 := by
  simp only [frame, List.append_assoc]
  rfl

end Rulebook.Snapshot
