import Rulebook.Proofs.Decoding

namespace Rulebook.Snapshot

theorem fromUTF8?_utf8 (s : String) : String.fromUTF8? ⟨(utf8 s).toArray⟩ = some s := by
  have bytes : (⟨(utf8 s).toArray⟩ : ByteArray) = s.toByteArray := by
    rw [utf8, Array.toArray_toList]
    rfl
  rw [bytes, String.fromUTF8?, dif_pos s.isValidUTF8]
  rfl

theorem string_decodes {s : String} (h : (utf8 s).length < 2 ^ 64) :
    Decodes Decode.string (Encode.string s) s := by
  have size : Decodes Decode.word64 (Varint.encode (utf8 s).length) (utf8 s).length := Varint.decodes h
  apply size.bind
  apply (takeBytes_decodes (utf8 s)).finish
  rw [fromUTF8?_utf8]

theorem operator_decodes (o : Operator) : Decodes Decode.operator (Varint.encode (operatorIndex o)) o := by
  have small : operatorIndex o < 2 ^ 32 := by cases o <;> decide
  have index : Decodes Decode.word32 (Varint.encode (operatorIndex o)) (operatorIndex o) :=
    Varint.decodes small
  apply index.finish
  cases o <;> rfl

theorem tag_decodes {n : Nat} (h : n < 2 ^ 32) : Decodes Decode.word32 (Varint.encode n) n := Varint.decodes h

theorem bool_decodes (b : Bool) : Decodes Decode.bool [if b then 1 else 0] b := by
  apply (takeBytes_decodes [if b then 1 else 0]).finish
  cases b <;> rfl

theorem value_decodes {v : Value} (h : (Encode.value v).length < 2 ^ 64) :
    Decodes Decode.value (Encode.value v) v := by
  cases v with
  | int n =>
    apply (tag_decodes (n := 0) (by decide)).bind
    have number : Decodes Decode.word64 (Varint.encode (zigzag n.toInt)) (zigzag n.toInt) :=
      Varint.decodes (zigzag_lt n)
    apply number.finish
    rw [unzigzag_zigzag, Int64.ofInt_toInt]
  | float x =>
    apply (tag_decodes (n := 1) (by decide)).bind
    have bits := takeBytes_decodes (Bytes.write 8 x.bits.toNat)
    rw [Bytes.write_length] at bits
    apply bits.finish
    rw [Bytes.read_write x.bits.toNat_lt, UInt64.ofNat_toNat]
  | bool b =>
    apply (tag_decodes (n := 2) (by decide)).bind
    exact (bool_decodes b).finish rfl
  | str s =>
    have fits : (utf8 s).length < 2 ^ 64 := by
      simp only [Encode.value, Encode.string, List.length_append] at h
      omega
    apply (tag_decodes (n := 3) (by decide)).bind
    exact (string_decodes fits).finish rfl

theorem items_decodes {α : Type} {item : Decoder α} {encode : α → List UInt8} {xs : List α}
    (h : ∀ x ∈ xs, Decodes item (encode x) x) :
    Decodes (Decode.items item xs.length) (xs.flatMap encode) xs := by
  induction xs with
  | nil => exact .pure []
  | cons x xs ih =>
    have first := h x List.mem_cons_self
    have others := ih fun y hy => h y (List.mem_cons_of_mem x hy)
    apply first.bind
    exact others.finish rfl

theorem length_le_flatMap {α : Type} (encode : α → List UInt8) {xs : List α} {x : α} (h : x ∈ xs) :
    (encode x).length ≤ (xs.flatMap encode).length := by
  obtain ⟨before, after, rfl⟩ := List.append_of_mem h
  simp only [List.flatMap_append, List.flatMap_cons, List.length_append]
  omega

theorem count_le_flatMap {α : Type} {encode : α → List UInt8} {xs : List α}
    (h : ∀ x ∈ xs, 0 < (encode x).length) : xs.length ≤ (xs.flatMap encode).length := by
  induction xs with
  | nil => exact Nat.le_refl _
  | cons x xs ih =>
    have first := h x List.mem_cons_self
    have others := ih fun y hy => h y (List.mem_cons_of_mem x hy)
    simp only [List.length_cons, List.flatMap_cons, List.length_append]
    omega

theorem trees_eq_flatMap (ts : List Tree) : Encode.trees ts = ts.flatMap Encode.tree := by
  induction ts with
  | nil => rw [Encode.trees, List.flatMap_nil]
  | cons t ts ih => rw [Encode.trees, List.flatMap_cons, ih]

theorem tree_length_pos (t : Tree) : 0 < (Encode.tree t).length := by
  cases t <;> simp only [Encode.tree, List.length_append] <;> have := Varint.encode_length_pos 0 <;>
    have := Varint.encode_length_pos 1 <;> have := Varint.encode_length_pos 2 <;> omega

theorem group_decodes (join : List Tree → Tree) {levels : Nat} {ts : List Tree}
    (ih : ∀ {t : Tree}, (Encode.tree t).length ≤ levels → (Encode.tree t).length < 2 ^ 64 →
      Decodes (Decode.tree levels) (Encode.tree t) t)
    (hl : (Encode.trees ts).length ≤ levels) (hb : (Encode.trees ts).length < 2 ^ 64) :
    Decodes (do return join (← Decode.items (Decode.tree levels) (← Decode.word64)))
      (Varint.encode ts.length ++ Encode.trees ts) (join ts) := by
  rw [trees_eq_flatMap] at *
  have count : ts.length ≤ (ts.flatMap Encode.tree).length := count_le_flatMap fun t _ => tree_length_pos t
  have size : Decodes Decode.word64 (Varint.encode ts.length) ts.length := Varint.decodes (by
    change ts.length < 2 ^ 64
    omega)
  have parts : ∀ t ∈ ts, Decodes (Decode.tree levels) (Encode.tree t) t := by
    intro t ht
    have part := length_le_flatMap Encode.tree ht
    exact ih (by omega) (by omega)
  apply size.bind
  exact (items_decodes parts).finish rfl

theorem tree_decodes {levels : Nat} {t : Tree} (hl : (Encode.tree t).length ≤ levels)
    (hb : (Encode.tree t).length < 2 ^ 64) : Decodes (Decode.tree levels) (Encode.tree t) t := by
  -- On the levels and not on the tree: a part of a group has fewer bytes than the group.
  induction levels generalizing t with
  | zero =>
    have := tree_length_pos t
    omega
  | succ levels ih =>
    rw [Decode.tree]
    cases t with
    | leaf f o v =>
      simp only [Encode.tree, List.append_assoc, List.length_append] at *
      have field : (utf8 f).length < 2 ^ 64 := by
        simp only [Encode.string, List.length_append] at hb
        omega
      apply (tag_decodes (n := 0) (by decide)).bind
      apply (string_decodes field).bind
      apply (operator_decodes o).bind
      exact (value_decodes (by omega)).finish rfl
    | and ts =>
      have tag := Varint.encode_length_pos 1
      simp only [Encode.tree, List.append_assoc, List.length_append] at *
      apply (tag_decodes (n := 1) (by decide)).bind
      exact group_decodes .and ih (by omega) (by omega)
    | or ts =>
      have tag := Varint.encode_length_pos 2
      simp only [Encode.tree, List.append_assoc, List.length_append] at *
      apply (tag_decodes (n := 2) (by decide)).bind
      exact group_decodes .or ih (by omega) (by omega)

theorem Decodes.sized {α : Type} {f : Nat → Decoder α} {bs : List UInt8} {x : α}
    (h : ∀ n, bs.length ≤ n → Decodes (f n) bs x) : Decodes (do f (← get).length) bs x := by
  intro rest
  change f (bs ++ rest).length (bs ++ rest) = _
  apply h
  simp

theorem ruleId_decodes (i : RuleId) : Decodes Decode.ruleId (Varint.encode i.value.toNat) i := by
  have number : Decodes Decode.word64 (Varint.encode i.value.toNat) i.value.toNat :=
    Varint.decodes i.value.toNat_lt
  apply number.finish
  rw [UInt64.ofNat_toNat]

theorem entry_decodes {e : Entry} (h : (Encode.entry e).length < 2 ^ 64) :
    Decodes Decode.entry (Encode.entry e) e := by
  have source : (utf8 e.source).length < 2 ^ 64 := by
    simp only [Encode.entry, Encode.string, List.length_append] at h
    omega
  simp only [Encode.entry, List.append_assoc, List.length_append] at *
  apply (ruleId_decodes e.id).bind
  apply (string_decodes source).bind
  let shaped (n : Nat) : Decoder Entry := do return ⟨e.id, e.source, ← Decode.tree n⟩
  apply Decodes.sized (f := shaped)
  intro n hn
  exact (tree_decodes hn (by omega)).finish rfl

theorem entry_length_pos (e : Entry) : 0 < (Encode.entry e).length := by
  have tree := tree_length_pos e.tree
  simp only [Encode.entry, List.length_append]
  omega

theorem payload_decodes {p : Payload} (h : (Encode.payload p).length < 2 ^ 64) :
    Decodes Decode.payload (Encode.payload p) p := by
  simp only [Encode.payload, List.append_assoc, List.length_append] at *
  have count : p.entries.length ≤ (p.entries.flatMap Encode.entry).length :=
    count_le_flatMap fun e _ => entry_length_pos e
  have size : Decodes Decode.word64 (Varint.encode p.entries.length) p.entries.length := Varint.decodes (by
    change p.entries.length < 2 ^ 64
    omega)
  have entries : ∀ e ∈ p.entries, Decodes Decode.entry (Encode.entry e) e := by
    intro e he
    have part := length_le_flatMap Encode.entry he
    exact entry_decodes (by omega)
  apply (ruleId_decodes p.nextId).bind
  apply size.bind
  exact (items_decodes entries).finish rfl

end Rulebook.Snapshot
