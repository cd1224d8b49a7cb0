import Rulebook.Engine.Saved
import Rulebook.Proofs.Flattening
import Rulebook.Proofs.KeyedStores
import Rulebook.Proofs.PayloadCodec

namespace Rulebook.Snapshot

open Results

theorem slice_append {as bs cs : List UInt8} {start count : Nat} (ha : as.length = start)
    (hb : bs.length = count) : slice start count (as ++ (bs ++ cs)) = bs := by
  subst ha hb
  rw [slice, List.drop_left, List.take_left]

theorem checksum_length (payload : List UInt8) : (checksum payload).length = 16 := by
  rw [checksum, List.length_take, Blake3.hash_length]
  rfl

def opening : List UInt8 :=
  magic ++ Bytes.write 2 formatVersion ++ Bytes.write 2 writerVersion ++ Bytes.write 4 0

theorem unframe_frame {payload : List UInt8} (h : payload.length < 0x100000000) :
    unframe (frame payload) = .ok payload := by
  have size := Bytes.write_length 4 payload.length
  have sum := checksum_length payload
  have parts : frame payload =
      opening ++ (Bytes.write 4 payload.length ++ (checksum payload ++ payload)) := by
    simp only [frame, opening, List.append_assoc]
  have header : (opening ++ Bytes.write 4 payload.length ++ checksum payload).length = headerSize := by
    simp only [List.length_append, size, sum]
    rfl
  have long : ¬(frame payload).length < headerSize := by
    rw [← header, frame, List.length_append]
    exact Nat.not_lt.mpr (Nat.le_add_right _ _)
  have body : (frame payload).drop headerSize = payload := by
    rw [← header]
    exact List.drop_left
  have magicRead : slice 0 4 (frame payload) = magic := by
    rw [parts]
    rfl
  have versionRead : slice 4 2 (frame payload) = Bytes.write 2 formatVersion := by
    rw [parts]
    rfl
  have sizeRead : slice 12 4 (frame payload) = Bytes.write 4 payload.length := by
    rw [parts]
    exact slice_append rfl size
  have sumRead : slice 16 16 (frame payload) = checksum payload := by
    rw [parts, ← List.append_assoc]
    apply slice_append _ sum
    rw [List.length_append, size]
    rfl
  have version : Bytes.read (Bytes.write 2 formatVersion) = formatVersion := rfl
  have count : Bytes.read (Bytes.write 4 payload.length) = payload.length := Bytes.read_write h
  simp only [unframe, long, body, magicRead, versionRead, sizeRead, sumRead, version, count, ne_eq,
    not_true_eq_false, ↓reduceIte]

/-- The payload that bytes hold, whatever stands after it. -/
def held (bs : List UInt8) : Except LoadError Payload := do
  let payload ← unframe bs
  let (p, _) ← (Decode.payload payload).mapError .decode
  return p

theorem read_eq_held (bs : List UInt8) : read bs = held bs >>= fun p => p.toStore.mapError .validation := by
  simp only [read, held, bind_assoc, pure_bind]

theorem held_frame {p : Payload} {rest : List UInt8} (h : (Encode.payload p ++ rest).length < 0x100000000) :
    held (frame (Encode.payload p ++ rest)) = .ok p := by
  have short : (Encode.payload p).length < 2 ^ 64 := by
    rw [List.length_append] at h
    omega
  rw [held, unframe_frame h]
  change (Decode.payload (Encode.payload p ++ rest)).mapError LoadError.decode >>= _ = _
  rw [payload_decodes short]
  rfl

theorem one_le_iff {w : UInt64} : 1 ≤ w ↔ w ≠ 0 := UInt64.pos_iff_ne_zero

theorem checkEntry_ok_iff {next : RuleId} {seen : List RuleId} {e : Entry} :
    checkEntry next seen e = .ok () ↔
      e.id.value ≠ 0 ∧ e.id.value < next.value ∧ e.id ∉ seen ∧ e.tree.isFilled = true := by
  unfold checkEntry
  by_cases zero : e.id.value = 0
  · simp [zero]
  · by_cases high : next.value ≤ e.id.value
    · simp [zero, high, UInt64.not_lt.mpr high]
    · by_cases repeated : e.id ∈ seen
      · simp [zero, high, repeated]
      · simp [zero, high, repeated, UInt64.not_le.mp high]

theorem checkEntries_ok_iff {next : RuleId} {seen : List RuleId} {es : List Entry} :
    checkEntries next seen es = .ok () ↔
      (∀ e ∈ es, e.id.value ≠ 0 ∧ e.id.value < next.value ∧ e.id ∉ seen ∧ e.tree.isFilled = true) ∧
        es.Pairwise fun d e => d.id ≠ e.id := by
  induction es generalizing seen with
  | nil => simp [checkEntries]
  | cons e es ih =>
    have step : checkEntries next seen (e :: es) = .ok () ↔
        checkEntry next seen e = .ok () ∧ checkEntries next (e.id :: seen) es = .ok () := by
      constructor
      · intro h
        obtain ⟨⟨⟩, first, rest⟩ := bind_ok_iff.mp h
        exact ⟨first, rest⟩
      · rintro ⟨first, rest⟩
        exact bind_ok_iff.mpr ⟨(), first, rest⟩
    rw [step, checkEntry_ok_iff, ih, List.forall_mem_cons, List.pairwise_cons]
    simp only [List.mem_cons, not_or]
    grind

theorem Payload.check_ok_iff {p : Payload} :
    p.check = .ok () ↔
      p.nextId.value ≠ 0 ∧ p.nextId.value ≠ 0xFFFFFFFFFFFFFFFF ∧
        (∀ e ∈ p.entries, e.id.value ≠ 0 ∧ e.id.value < p.nextId.value ∧ e.tree.isFilled = true) ∧
          p.entries.Pairwise fun d e => d.id ≠ e.id := by
  have entries : checkEntries p.nextId [] p.entries = .ok () ↔
      (∀ e ∈ p.entries, e.id.value ≠ 0 ∧ e.id.value < p.nextId.value ∧ e.tree.isFilled = true) ∧
        p.entries.Pairwise fun d e => d.id ≠ e.id := by
    rw [checkEntries_ok_iff]
    simp only [List.not_mem_nil, not_false_eq_true, true_and]
  rw [check, ← entries]
  split
  · next h =>
    simp only [reduceCtorEq, false_iff]
    rintro ⟨nonzero, notLast, -⟩
    exact h.elim nonzero notLast
  · next h =>
    rw [not_or] at h
    simp only [ne_eq, h, not_false_eq_true, true_and]

theorem toRule?_ofRule (r : Rule) : (Entry.ofRule r).toRule? = some r := by
  rw [Entry.toRule?, Entry.ofRule, Tree.toCondition?_ofCondition]
  rfl

theorem mapM_toRule? (rs : List Rule) : (rs.map Entry.ofRule).mapM Entry.toRule? = some rs := by
  induction rs with
  | nil => rfl
  | cons r rs ih =>
    rw [List.map_cons, List.mapM_cons, toRule?_ofRule, ih]
    rfl

theorem toStore?_ofStore {s : Store} (h : s.Keyed) : (Payload.ofStore s).toStore? = some s := by
  rw [Payload.toStore?, Payload.ofStore, mapM_toRule?]
  change some (Store.mk (.ofList (s.rules.values.map fun r => (r.id, r))) s.nextId) = some s
  rw [h.entries, Table.ofList_entries]

theorem toStore_ofStore {s : Store} (h : s.Keyed) :
    (Payload.ofStore s).toStore = (Payload.ofStore s).check.map fun _ => s := by
  rw [Payload.toStore, toStore?_ofStore h]
  cases (Payload.ofStore s).check <;> rfl

theorem write_ok_iff {s : Store} {bs : List UInt8} :
    write s = .ok bs ↔
      (Encode.payload (.ofStore s)).length < 0x100000000 ∧ frame (Encode.payload (.ofStore s)) = bs := by
  simp only [write]
  split
  · next size => simp [size]
  · next size => simp [size]

theorem read_of_write {s : Store} {bs : List UInt8} (h : s.Keyed) (hw : write s = .ok bs) :
    read bs = ((Payload.ofStore s).check.map fun _ => s).mapError .validation := by
  obtain ⟨size, rfl⟩ := write_ok_iff.mp hw
  rw [← List.append_nil (Encode.payload _)] at size
  have stored := held_frame size
  rw [List.append_nil] at stored
  rw [read_eq_held, stored, ← toStore_ofStore h]
  rfl

theorem eq_of_read_of_write {s t : Store} {bs : List UInt8} (h : s.Keyed) (hw : write s = .ok bs)
    (hr : read bs = .ok t) : t = s := by
  rw [read_of_write h hw] at hr
  obtain ⟨_, -, same⟩ := map_ok_iff.mp (mapError_ok_iff.mp hr)
  exact same.symm

theorem entries_ascending {s : Store} (h : s.Keyed) :
    (Payload.ofStore s).entries.Pairwise fun d e => compare d.id e.id = .lt := by
  rw [Payload.ofStore, Table.values, List.map_map, List.pairwise_map]
  apply s.rules.ascending.imp_of_mem
  intro d e hd he below
  rw [← h d hd, ← h e he] at below
  exact below

theorem entries_distinct (s : Store) (h : s.Keyed) :
    (Payload.ofStore s).entries.Pairwise fun d e => d.id ≠ e.id := by
  apply (entries_ascending h).imp
  intro d e below same
  have self : compare e.id e.id = .eq := Std.ReflCmp.compare_self
  rw [same, self] at below
  cases below

theorem check_ofStore {s : Store} (h : s.Numbered) :
    (Payload.ofStore s).check =
      if s.nextId.value = 0xFFFFFFFFFFFFFFFF then .error (.nextIdOutOfRange s.nextId) else .ok () := by
  split
  · next last => exact if_pos (.inr last)
  · next below =>
    apply Payload.check_ok_iff.mpr
    refine ⟨one_le_iff.mp h.next, below, ?_, entries_distinct s h.keyed⟩
    intro e he
    obtain ⟨r, hr, rfl⟩ := List.mem_map.mp he
    obtain ⟨d, hd, rfl⟩ := List.mem_map.mp hr
    obtain ⟨low, high⟩ := h.range d hd
    rw [← h.keyed d hd] at low high
    exact ⟨one_le_iff.mp low, high, Tree.isFilled_ofCondition d.2.condition⟩

theorem read_back {s : Store} {bs : List UInt8} (h : s.Numbered) (written : write s = .ok bs) :
    read bs =
      if s.nextId.value = 0xFFFFFFFFFFFFFFFF then .error (.validation (.nextIdOutOfRange s.nextId)) else .ok s := by
  rw [read_of_write h.keyed written, check_ofStore h]
  split <;> rfl

theorem read_written_store {s : Store} (h : s.Numbered)
    (size : (Encode.payload (.ofStore s)).length < 0x100000000) :
    ∃ bs, write s = .ok bs ∧
      read bs =
        if s.nextId.value = 0xFFFFFFFFFFFFFFFF then .error (.validation (.nextIdOutOfRange s.nextId))
        else .ok s := by
  have written : write s = .ok (frame (Encode.payload (.ofStore s))) := by
    rw [write]
    exact if_pos size
  exact ⟨_, written, read_back h written⟩

def odd (next : RuleId) : Store :=
  let condition : Condition := .and (.compare "" .lt (.float ⟨0x7FF8000000000001⟩))
    (.and (.compare "a b" .eq (.int (-5))) (.or (.compare "c" .ne (.str "'")) (.compare "c" .ge (.bool false))))
  ⟨.ofList [(⟨7⟩, ⟨⟨7⟩, condition, "anything"⟩)], next⟩

theorem odd_numbered : (odd ⟨8⟩).Numbered ∧ (odd ⟨0xFFFFFFFFFFFFFFFF⟩).Numbered := by
  have entries : ∀ next e, e ∈ (odd next).rules.entries → e.1 = ⟨7⟩ ∧ e.2.id = ⟨7⟩ := by
    intro next e he
    rw [List.mem_singleton.mp he]
    exact ⟨rfl, rfl⟩
  have keyed : ∀ next, (odd next).Keyed := by
    intro next e he
    rw [(entries next e he).1, (entries next e he).2]
  constructor
  · refine ⟨keyed _, by decide, ?_⟩
    intro e he
    rw [(entries _ e he).1]
    decide
  · refine ⟨keyed _, by decide, ?_⟩
    intro e he
    rw [(entries _ e he).1]
    decide

theorem odd_length : (Encode.payload (.ofStore (odd ⟨8⟩))).length = 51 := by decide

theorem odd_saved : ∃ bs, write (odd ⟨8⟩) = .ok bs ∧ read bs = .ok (odd ⟨8⟩) := by
  have size : (Encode.payload (.ofStore (odd ⟨8⟩))).length < 0x100000000 := by
    rw [odd_length]
    decide
  have written := write_ok_iff.mpr ⟨size, rfl⟩
  exact ⟨_, written, read_back odd_numbered.1 written⟩

theorem read_written_odd :
    (∃ bs, write (odd ⟨8⟩) = .ok bs ∧ read bs = .ok (odd ⟨8⟩)) ∧
      ∃ bs, write (odd ⟨0xFFFFFFFFFFFFFFFF⟩) = .ok bs ∧
        read bs = .error (.validation (.nextIdOutOfRange ⟨0xFFFFFFFFFFFFFFFF⟩)) := by
  have small : (Encode.payload (.ofStore (odd ⟨8⟩))).length < 0x100000000 := by decide
  have large : (Encode.payload (.ofStore (odd ⟨0xFFFFFFFFFFFFFFFF⟩))).length < 0x100000000 := by decide
  exact ⟨read_written_store odd_numbered.1 small, read_written_store odd_numbered.2 large⟩

end Rulebook.Snapshot
