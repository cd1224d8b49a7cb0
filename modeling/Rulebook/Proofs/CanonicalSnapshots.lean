import Rulebook.Proofs.CanonicalTrees
import Rulebook.Proofs.DecodedLayout
import Rulebook.Proofs.Frames
import Rulebook.Proofs.LoadedStores

namespace Rulebook.Snapshot

open Results

variable {bs : List UInt8} {p : Payload} {s : Store}

structure Opened (bs : List UInt8) (s : Store) (p : Payload) (used rest : List UInt8) : Prop where
  framed : Framed bs
  decoded : Decode.payload (bs.drop headerSize) = .ok (p, rest)
  split : bs.drop headerSize = used ++ rest
  laid : LaidPayload Varint.Form p used
  checked : p.check = .ok ()
  stored : p.toStore? = some s

theorem exists_opened (h : read bs = .ok s) : ∃ p used rest, Opened bs s p used rest := by
  obtain ⟨p, held, checked, stored⟩ := read_ok_iff.mp h
  obtain ⟨payload, unframed, later⟩ := bind_ok_iff.mp held
  obtain ⟨⟨q, rest⟩, decoded, same⟩ := bind_ok_iff.mp later
  cases same
  obtain ⟨framed, rfl⟩ := unframe_ok_iff.mp unframed
  have decoded := mapError_ok_iff.mp decoded
  obtain ⟨used, laid, split⟩ := laidPayload_of_decode decoded
  exact ⟨p, used, rest, framed, decoded, split, laid, checked, stored⟩

theorem values_perm {rs : List Rule} (checked : p.check = .ok ())
    (restored : List.Forall₂ Entry.Restores p.entries rs) :
    (Table.ofList (rs.map fun r => (r.id, r))).values.Perm rs := by
  have perm := (Payload.entries_perm checked restored).map Prod.snd
  rw [List.map_map] at perm
  have same : rs.map (Prod.snd ∘ fun r : Rule => (r.id, r)) = rs := List.map_id' rs
  rw [same] at perm
  exact perm

theorem Entry.Restores.length_le {e : Entry} {r : Rule} (h : e.Restores r)
    (bound : (Encode.entry e).length < 0x100000000) :
    (Encode.entry (.ofRule r)).length ≤ (Encode.entry e).length := by
  simp only [Encode.entry, List.length_append] at bound ⊢
  have tree := Tree.ofCondition_length_le e.tree h.folds (by omega)
  rw [← h.id, ← h.source]
  simp only [ofRule]
  omega

theorem entries_length_le {es : List Entry} {rs : List Rule} (restored : List.Forall₂ Entry.Restores es rs)
    (bound : (es.flatMap Encode.entry).length < 0x100000000) :
    ((rs.map Entry.ofRule).flatMap Encode.entry).length ≤ (es.flatMap Encode.entry).length := by
  induction restored with
  | nil => exact Nat.le_refl _
  | cons first _ ih =>
    simp only [List.map_cons, List.flatMap_cons, List.length_append] at bound ⊢
    have head := first.length_le (by omega)
    have tail := ih (by omega)
    omega

theorem payload_length_le (checked : p.check = .ok ()) (stored : p.toStore? = some s)
    (bound : (Encode.payload p).length < 0x100000000) :
    (Encode.payload (.ofStore s)).length ≤ (Encode.payload p).length := by
  obtain ⟨rs, restored, rfl⟩ := Payload.toStore?_eq_some_iff.mp stored
  have perm := values_perm checked restored
  have entries := ((perm.map Entry.ofRule).flatMap_right Encode.entry).length_eq
  have count : (Table.ofList (rs.map fun r => (r.id, r))).values.length = p.entries.length :=
    perm.length_eq.trans restored.length_eq.symm
  simp only [Encode.payload, List.length_append] at bound
  have shorter := entries_length_le restored (by omega)
  simp only [Encode.payload, Payload.ofStore, List.length_append, List.length_map, count]
  omega

structure Payload.Canonical (p : Payload) : Prop where
  ascending : p.entries.Pairwise fun d e => d.id.value < e.id.value
  trees : ∀ e ∈ p.entries, e.tree.Canonical

theorem compare_lt_iff {i j : RuleId} : compare i j = .lt ↔ i.value < j.value :=
  (Std.compare_eq_lt : compare i.value j.value = .lt ↔ _)

theorem Payload.canonical_ofStore (h : s.Keyed) : (Payload.ofStore s).Canonical := by
  constructor
  · exact (entries_ascending h).imp compare_lt_iff.mp
  · intro e he
    obtain ⟨r, -, rfl⟩ := List.mem_map.mp he
    exact Tree.canonical_ofCondition r.condition

theorem Entry.Restores.ofRule_eq {e : Entry} {r : Rule} (h : e.Restores r) (canonical : e.tree.Canonical) :
    Entry.ofRule r = e := by
  rw [ofRule, h.id, h.source, canonical.ofCondition_eq h.folds]

theorem map_ofRule {es : List Entry} {rs : List Rule} (restored : List.Forall₂ Entry.Restores es rs)
    (trees : ∀ e ∈ es, e.tree.Canonical) : rs.map Entry.ofRule = es := by
  induction restored with
  | nil => rfl
  | cons first _ ih =>
    obtain ⟨canonical, others⟩ := List.forall_mem_cons.mp trees
    rw [List.map_cons, first.ofRule_eq canonical, ih others]

theorem Payload.Canonical.ofStore_eq (h : p.Canonical) (stored : p.toStore? = some s) : Payload.ofStore s = p := by
  obtain ⟨rs, restored, rfl⟩ := Payload.toStore?_eq_some_iff.mp stored
  have ascending : rs.Pairwise fun q r => compare q.id r.id = .lt := by
    have ids : (p.entries.map Entry.id).Pairwise fun i j => compare i j = .lt :=
      List.pairwise_map.mpr (h.ascending.imp compare_lt_iff.mpr)
    rw [← map_id_of_restores restored] at ids
    exact List.pairwise_map.mp ids
  have values : (Table.ofList (rs.map fun r => (r.id, r))).values = rs := by
    rw [Table.values, Table.entries_ofList (List.pairwise_map.mpr ascending), List.map_map]
    exact List.map_id' rs
  rw [Payload.ofStore, values, map_ofRule restored h.trees]

namespace Opened

variable {used rest : List UInt8}

theorem short (h : Opened bs s p used rest) : used.length + rest.length < 0x100000000 := by
  have size := h.framed.size_lt
  rw [h.split, List.length_append] at size
  exact size

theorem encoded_length (h : Opened bs s p used rest) :
    (Encode.payload (.ofStore s)).length ≤ (bs.drop headerSize).length := by
  have short := h.short
  have number := Compares.form.payload h.laid
  have flat := payload_length_le h.checked h.stored (by omega)
  rw [h.split, List.length_append]
  omega

theorem of_write (h : Opened bs s p used rest) (written : write s = .ok bs) :
    p = .ofStore s ∧ used = Encode.payload p ∧ rest = [] := by
  obtain ⟨size, rfl⟩ := write_ok_iff.mp written
  have long : (Encode.payload (.ofStore s)).length < 2 ^ 64 := by omega
  have body := (framed_frame size).2
  have decoded := payload_decodes long []
  rw [List.append_nil, ← body, h.decoded] at decoded
  cases decoded
  have split := h.split
  rw [body, List.append_nil] at split
  exact ⟨rfl, split.symm, rfl⟩

theorem write_of_canonical (h : Opened bs s p used []) (writer : Bytes.read (slice 6 2 bs) = 1)
    (flags : Bytes.read (slice 8 4 bs) = 0) (shortest : LaidPayload Varint.Shortest p used)
    (canonical : p.Canonical) : write s = .ok bs := by
  have encoded : Encode.payload (.ofStore s) = bs.drop headerSize := by
    rw [canonical.ofStore_eq h.stored, Compares.shortest.payload shortest, h.split, List.append_nil]
  rw [write_ok_iff, encoded]
  exact ⟨h.framed.size_lt, h.framed.frame_eq writer flags⟩

end Opened

/-- Accepted bytes are what is written for their store exactly if the header is the one that is written, nothing
stands after the payload, every number has its shortest form, and ids and groups are canonical. -/
theorem write_eq_iff_canonical (h : read bs = .ok s) :
    ∃ p used rest, Decode.payload (bs.drop headerSize) = .ok (p, rest) ∧ bs.drop headerSize = used ++ rest ∧
      LaidPayload Varint.Form p used ∧
        (write s = .ok bs ↔
          Bytes.read (slice 6 2 bs) = 1 ∧ Bytes.read (slice 8 4 bs) = 0 ∧ rest = [] ∧
            LaidPayload Varint.Shortest p used ∧ p.Canonical) := by
  obtain ⟨p, used, rest, opened⟩ := exists_opened h
  refine ⟨p, used, rest, opened.decoded, opened.split, opened.laid, ?_⟩
  constructor
  · intro written
    obtain ⟨rfl, rfl, rfl⟩ := opened.of_write written
    obtain ⟨size, rfl⟩ := write_ok_iff.mp written
    exact ⟨writer_frame _, flags_frame _, rfl, laidPayload_encode (by omega),
      Payload.canonical_ofStore (numbered_of_read h).keyed⟩
  · rintro ⟨writer, flags, rfl, shortest, canonical⟩
    exact opened.write_of_canonical writer flags shortest canonical

def tidy : Payload :=
  let inner : Tree := .or [.and [.leaf "b" .eq (.int 2), .leaf "c" .ne (.bool true)], .leaf "d" .lt (.int (-4))]
  ⟨⟨300⟩, [⟨⟨2⟩, "earlier", .and [.leaf "a" .eq (.int 1), inner]⟩, ⟨⟨251⟩, "later", .leaf "e" .ge (.str "f")⟩]⟩

theorem tidy_canonical : tidy.Canonical := by
  have alone (f : String) (o : Operator) (v : Value) : (Tree.leaf f o v).Canonical := .leaf f o v
  constructor
  · simp [tidy]
  · simp only [tidy, List.forall_mem_cons, List.not_mem_nil, false_implies, implies_true, and_true]
    have conjunction : (Tree.and [.leaf "b" .eq (.int 2), .leaf "c" .ne (.bool true)]).Canonical :=
      .pair (k := .and) (fun _ => nofun) (alone _ _ _) (alone _ _ _)
    have disjunction : (Tree.or [.and [.leaf "b" .eq (.int 2), .leaf "c" .ne (.bool true)],
        .leaf "d" .lt (.int (-4))]).Canonical := .pair (k := .or) (fun _ => nofun) conjunction (alone _ _ _)
    exact ⟨.pair (k := .and) (fun _ => nofun) (alone _ _ _) disjunction, alone _ _ _⟩

def long : List UInt8 := [251, 9, 0, 0]

theorem write_eq_iff_canonical_samples :
    (∃ s, read (frame (Encode.payload tidy)) = .ok s ∧ write s = .ok (frame (Encode.payload tidy))) ∧
      ∃ s, read (frame long) = .ok s ∧ write s ≠ .ok (frame long) := by
  constructor
  · have size : (Encode.payload tidy).length < 0x100000000 := by decide
    have opened : held (frame (Encode.payload tidy)) = .ok tidy := by
      rw [← List.append_nil (Encode.payload tidy)]
      exact held_frame (by decide)
    have loaded := read_ok_iff.mpr ⟨tidy, opened, rfl, rfl⟩
    obtain ⟨p, used, rest, decoded, split, -, same⟩ := write_eq_iff_canonical loaded
    have body := (framed_frame size).2
    have direct := payload_decodes (p := tidy) (by decide) []
    rw [List.append_nil, ← body, decoded] at direct
    cases direct
    rw [body, List.append_nil] at split
    subst split
    exact ⟨_, loaded, same.mpr ⟨writer_frame _, flags_frame _, rfl, laidPayload_encode (by decide), tidy_canonical⟩⟩
  · have size : long.length < 0x100000000 := by decide
    have body := (framed_frame size).2
    have opened : held (frame long) = .ok ⟨⟨9⟩, []⟩ := by
      rw [held, unframe_frame size]
      rfl
    have loaded := read_ok_iff.mpr ⟨_, opened, rfl, rfl⟩
    obtain ⟨p, used, rest, decoded, split, -, same⟩ := write_eq_iff_canonical loaded
    rw [body] at decoded split
    cases decoded
    rw [List.append_nil] at split
    subst split
    refine ⟨_, loaded, ?_⟩
    intro written
    obtain ⟨-, -, -, shortest, -⟩ := same.mp written
    have encoded := Compares.shortest.payload shortest
    cases encoded

/-- Loading and saving gives bytes that are no longer, and that are saved as they are from then on. -/
theorem write_normalises (h : read bs = .ok s) :
    ∃ cs, write s = .ok cs ∧ cs.length ≤ bs.length ∧ read cs = .ok s ∧
      ∀ t, read cs = .ok t → write t = .ok cs := by
  obtain ⟨p, used, rest, opened⟩ := exists_opened h
  have shorter := opened.encoded_length
  have written := write_ok_iff.mpr ⟨Nat.lt_of_le_of_lt shorter opened.framed.size_lt, rfl⟩
  have below : s.nextId.value ≠ 0xFFFFFFFFFFFFFFFF := by
    obtain ⟨rs, -, rfl⟩ := Payload.toStore?_eq_some_iff.mp opened.stored
    exact (Payload.check_ok_iff.mp opened.checked).2.1
  have again := read_back (numbered_of_read h) written
  rw [if_neg below] at again
  refine ⟨_, written, ?_, again, ?_⟩
  · rw [frame_length, opened.framed.length_eq]
    omega
  · intro t loaded
    rw [again] at loaded
    cases loaded
    exact written

def loose : Payload :=
  let inner : Tree := .and [.leaf "a" .eq (.int 1), .leaf "b" .eq (.int 2)]
  ⟨⟨9⟩, [⟨⟨7⟩, "later", .or [.and [.leaf "a" .eq (.int 1)]]⟩, ⟨⟨2⟩, "earlier", .and [inner, .leaf "c" .eq (.int 3)]⟩]⟩

theorem write_normalises_loose :
    ∃ s cs, read (frame (Encode.payload loose ++ [0])) = .ok s ∧ write s = .ok cs ∧
      cs.length < (frame (Encode.payload loose ++ [0])).length ∧ read cs = .ok s := by
  have opened : held (frame (Encode.payload loose ++ [0])) = .ok loose := held_frame (by decide)
  have loaded := read_ok_iff.mpr ⟨loose, opened, rfl, rfl⟩
  obtain ⟨cs, written, -, again, -⟩ := write_normalises loaded
  refine ⟨_, cs, loaded, written, ?_, again⟩
  obtain ⟨-, rfl⟩ := write_ok_iff.mp written
  rw [frame_length, frame_length]
  decide

end Rulebook.Snapshot
