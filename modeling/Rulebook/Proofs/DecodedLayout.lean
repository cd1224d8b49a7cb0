import Rulebook.Proofs.PayloadLayout

namespace Rulebook.Snapshot

open Results

variable {α β : Type} {bs rest : List UInt8}

theorem bind_decoded {d : Decoder α} {f : α → Decoder β} {y : β} (h : (d >>= f) bs = .ok (y, rest)) :
    ∃ x mid, d bs = .ok (x, mid) ∧ f x mid = .ok (y, rest) := by
  obtain ⟨⟨x, mid⟩, first, second⟩ := bind_ok_iff.mp h
  exact ⟨x, mid, first, second⟩

theorem takeBytes_ok_iff {n : Nat} {us : List UInt8} :
    takeBytes n bs = .ok (us, rest) ↔ us.length = n ∧ bs = us ++ rest := by
  unfold takeBytes
  constructor
  · intro h
    split at h
    · next enough =>
      cases h
      exact ⟨List.length_take_of_le enough, (List.take_append_drop n bs).symm⟩
    · cases h
  · rintro ⟨rfl, rfl⟩
    rw [if_pos (by simp), List.take_left, List.drop_left]

namespace Varint

theorem bytesAfter_ok {w : Width} {mark : UInt8} {count : Nat} (h : bytesAfter w mark = .ok count) :
    mark ≤ 250 ∧ count = 0 ∨ mark = 251 ∧ count = 2 ∨ mark = 252 ∧ count = 4 ∨ mark = 253 ∧ count = 8 := by
  unfold bytesAfter at h
  grind

theorem form_of_decode {w : Width} {n : Nat} (h : decode w bs = .ok (n, rest)) :
    ∃ used, Form n used ∧ bs = used ++ rest := by
  cases bs with
  | nil => cases h
  | cons mark bs =>
    simp only [decode] at h
    split at h
    · cases h
    · next alone =>
      cases h
      rcases bytesAfter_ok alone with ⟨small, -⟩ | ⟨-, ⟨⟩⟩ | ⟨-, ⟨⟩⟩ | ⟨-, ⟨⟩⟩
      have form := Form.byte (UInt8.le_iff_toNat_le.mp small)
      rw [UInt8.ofNat_toNat] at form
      exact ⟨[mark], form, rfl⟩
    · next count _ marked =>
      obtain ⟨⟨us, tail⟩, taken, same⟩ := map_ok_iff.mp h
      cases same
      obtain ⟨size, rfl⟩ := takeBytes_ok_iff.mp taken
      have lt := Bytes.read_lt us
      have written := Bytes.write_read us
      have form : Form (Bytes.read us) (mark :: us) := by
        rw [size] at lt written
        rw [← written, Bytes.read_write lt]
        rcases bytesAfter_ok marked with ⟨-, rfl⟩ | ⟨rfl, rfl⟩ | ⟨rfl, rfl⟩ | ⟨rfl, rfl⟩
        · contradiction
        · exact .word16 lt
        · exact .word32 lt
        · exact .word64 lt
      exact ⟨mark :: us, form, rfl⟩

end Varint

theorem utf8_of_fromUTF8? {s : String} (h : String.fromUTF8? ⟨bs.toArray⟩ = some s) : utf8 s = bs := by
  unfold String.fromUTF8? at h
  split at h
  · cases h
    rfl
  · cases h

theorem laidString_of_decode {s : String} (h : Decode.string bs = .ok (s, rest)) :
    ∃ used, LaidString Varint.Form s used ∧ bs = used ++ rest := by
  obtain ⟨n, mid, sized, later⟩ := bind_decoded h
  obtain ⟨us, tail, taken, last⟩ := bind_decoded later
  obtain ⟨size, form, rfl⟩ := Varint.form_of_decode sized
  obtain ⟨rfl, rfl⟩ := takeBytes_ok_iff.mp taken
  cases text : String.fromUTF8? ⟨us.toArray⟩ with
  | none =>
    rw [text] at last
    cases last
  | some t =>
    rw [text] at last
    cases last
    rw [← utf8_of_fromUTF8? text] at form ⊢
    exact ⟨_, .mk form, (List.append_assoc ..).symm⟩

theorem operatorIndex_of_getElem? {n : Nat} {o : Operator} (h : Operator.all[n]? = some o) : operatorIndex o = n := by
  have indexed : ∀ i : Fin 6, operatorIndex Operator.all[i.val] = i.val := by decide
  obtain ⟨small, rfl⟩ := List.getElem?_eq_some_iff.mp h
  exact indexed ⟨n, small⟩

theorem form_of_operator {o : Operator} (h : Decode.operator bs = .ok (o, rest)) :
    ∃ used, Varint.Form (operatorIndex o) used ∧ bs = used ++ rest := by
  obtain ⟨n, mid, indexed, last⟩ := bind_decoded h
  obtain ⟨index, form, rfl⟩ := Varint.form_of_decode indexed
  cases found : Operator.all[n]? with
  | none =>
    rw [found] at last
    cases last
  | some p =>
    rw [found] at last
    cases last
    rw [operatorIndex_of_getElem? found]
    exact ⟨index, form, rfl⟩

theorem bool_of_decode {b : Bool} (h : Decode.bool bs = .ok (b, rest)) : bs = (if b then 1 else 0) :: rest := by
  obtain ⟨us, tail, taken, last⟩ := bind_decoded h
  obtain ⟨-, rfl⟩ := takeBytes_ok_iff.mp taken
  split at last
  · cases last
    rfl
  · cases last
    rfl
  · cases last

theorem zigzag_unzigzag (n : Nat) : zigzag (unzigzag n) = n := by
  unfold zigzag unzigzag
  split <;> split <;> omega

theorem toInt_ofInt_unzigzag {n : Nat} (h : n < 2 ^ 64) : (Int64.ofInt (unzigzag n)).toInt = unzigzag n := by
  apply Int64.toInt_ofInt_of_le <;> unfold unzigzag <;> split <;> omega

theorem laidValue_of_decode {v : Value} (h : Decode.value bs = .ok (v, rest)) :
    ∃ used, LaidValue Varint.Form v used ∧ bs = used ++ rest := by
  obtain ⟨kind, mid, tagged, later⟩ := bind_decoded h
  obtain ⟨tag, form, rfl⟩ := Varint.form_of_decode tagged
  split at later
  · obtain ⟨n, tail, numbered, last⟩ := bind_decoded later
    cases last
    obtain ⟨digits, written, rfl⟩ := Varint.form_of_decode numbered
    have same : zigzag (Int64.ofInt (unzigzag n)).toInt = n := by
      rw [toInt_ofInt_unzigzag written.lt, zigzag_unzigzag]
    rw [← same] at written
    exact ⟨_, .int form written, (List.append_assoc ..).symm⟩
  · obtain ⟨us, tail, taken, last⟩ := bind_decoded later
    cases last
    obtain ⟨size, rfl⟩ := takeBytes_ok_iff.mp taken
    have bits : Bytes.write 8 (UInt64.ofNat (Bytes.read us)).toNat = us := by
      have lt := Bytes.read_lt us
      rw [size] at lt
      rw [UInt64.toNat_ofNat_of_lt' lt, ← size, Bytes.write_read]
    have laid := LaidValue.float (x := ⟨UInt64.ofNat (Bytes.read us)⟩) form
    rw [bits] at laid
    exact ⟨_, laid, (List.append_assoc ..).symm⟩
  · obtain ⟨b, tail, read, last⟩ := bind_decoded later
    cases last
    rw [bool_of_decode read]
    exact ⟨_, .bool form, List.append_cons ..⟩
  · obtain ⟨s, tail, read, last⟩ := bind_decoded later
    cases last
    obtain ⟨body, laid, rfl⟩ := laidString_of_decode read
    exact ⟨_, .str form laid, (List.append_assoc ..).symm⟩
  · cases later

theorem items_of_decode {item : Decoder α} {laid : α → List UInt8 → Prop}
    (each : ∀ {bs rest : List UInt8} {x : α}, item bs = .ok (x, rest) → ∃ used, laid x used ∧ bs = used ++ rest)
    {count : Nat} {xs : List α} (h : Decode.items item count bs = .ok (xs, rest)) :
    xs.length = count ∧ ∃ parts, List.Forall₂ laid xs parts ∧ bs = parts.flatten ++ rest := by
  induction count generalizing bs xs with
  | zero =>
    cases h
    exact ⟨rfl, [], .nil, rfl⟩
  | succ count ih =>
    obtain ⟨x, mid, first, later⟩ := bind_decoded h
    obtain ⟨ys, tail, others, last⟩ := bind_decoded later
    cases last
    obtain ⟨used, laid, rfl⟩ := each first
    obtain ⟨rfl, parts, all, rfl⟩ := ih others
    exact ⟨rfl, used :: parts, .cons laid all, (List.append_assoc ..).symm⟩

theorem group_of_decode (join : List Tree → Tree) {levels : Nat} {t : Tree}
    (each : ∀ {bs rest : List UInt8} {t : Tree}, Decode.tree levels bs = .ok (t, rest) →
      ∃ used, LaidTree Varint.Form t used ∧ bs = used ++ rest)
    (h : (do return join (← Decode.items (Decode.tree levels) (← Decode.word64)) : Decoder Tree) bs = .ok (t, rest)) :
    ∃ ts count parts, join ts = t ∧ Varint.Form ts.length count ∧ List.Forall₂ (LaidTree Varint.Form) ts parts ∧
      bs = count ++ parts.flatten ++ rest := by
  obtain ⟨n, mid, sized, later⟩ := bind_decoded h
  obtain ⟨ts, tail, read, last⟩ := bind_decoded later
  cases last
  obtain ⟨count, form, rfl⟩ := Varint.form_of_decode sized
  obtain ⟨rfl, parts, laid, rfl⟩ := items_of_decode each read
  exact ⟨ts, count, parts, rfl, form, laid, (List.append_assoc ..).symm⟩

theorem laidTree_of_decode {levels : Nat} {t : Tree} (h : Decode.tree levels bs = .ok (t, rest)) :
    ∃ used, LaidTree Varint.Form t used ∧ bs = used ++ rest := by
  -- On the levels, as the parts of a group are decoded with one level less.
  induction levels generalizing bs rest t with
  | zero => cases h
  | succ levels ih =>
    rw [Decode.tree] at h
    obtain ⟨kind, mid, tagged, later⟩ := bind_decoded h
    obtain ⟨tag, form, rfl⟩ := Varint.form_of_decode tagged
    split at later
    · obtain ⟨f, afterField, fieldRead, later⟩ := bind_decoded later
      obtain ⟨o, afterOp, opRead, later⟩ := bind_decoded later
      obtain ⟨v, afterValue, valueRead, last⟩ := bind_decoded later
      cases last
      obtain ⟨field, laidField, rfl⟩ := laidString_of_decode fieldRead
      obtain ⟨op, index, rfl⟩ := form_of_operator opRead
      obtain ⟨value, laidValue, rfl⟩ := laidValue_of_decode valueRead
      exact ⟨_, .leaf form laidField index laidValue, by simp⟩
    · obtain ⟨ts, count, parts, rfl, counted, laid, rfl⟩ := group_of_decode .and ih later
      exact ⟨_, .and form counted laid, by simp⟩
    · obtain ⟨ts, count, parts, rfl, counted, laid, rfl⟩ := group_of_decode .or ih later
      exact ⟨_, .or form counted laid, by simp⟩
    · cases later

theorem form_of_ruleId {i : RuleId} (h : Decode.ruleId bs = .ok (i, rest)) :
    ∃ used, Varint.Form i.value.toNat used ∧ bs = used ++ rest := by
  obtain ⟨n, mid, numbered, last⟩ := bind_decoded h
  cases last
  obtain ⟨used, form, rfl⟩ := Varint.form_of_decode numbered
  rw [← UInt64.toNat_ofNat_of_lt' form.lt] at form
  exact ⟨used, form, rfl⟩

theorem laidEntry_of_decode {e : Entry} (h : Decode.entry bs = .ok (e, rest)) :
    ∃ used, LaidEntry Varint.Form e used ∧ bs = used ++ rest := by
  obtain ⟨i, afterId, idRead, later⟩ := bind_decoded h
  obtain ⟨source, afterSource, sourceRead, later⟩ := bind_decoded later
  obtain ⟨left, same, sized, later⟩ := bind_decoded later
  obtain ⟨t, afterTree, treeRead, last⟩ := bind_decoded later
  cases sized
  cases last
  obtain ⟨id, form, rfl⟩ := form_of_ruleId idRead
  obtain ⟨text, laidText, rfl⟩ := laidString_of_decode sourceRead
  obtain ⟨tree, laidTree, rfl⟩ := laidTree_of_decode treeRead
  exact ⟨_, .mk form laidText laidTree, by simp⟩

theorem laidPayload_of_decode {p : Payload} (h : Decode.payload bs = .ok (p, rest)) :
    ∃ used, LaidPayload Varint.Form p used ∧ bs = used ++ rest := by
  obtain ⟨i, afterId, idRead, later⟩ := bind_decoded h
  obtain ⟨n, afterCount, counted, later⟩ := bind_decoded later
  obtain ⟨es, afterEntries, entriesRead, last⟩ := bind_decoded later
  cases last
  obtain ⟨next, form, rfl⟩ := form_of_ruleId idRead
  obtain ⟨count, sized, rfl⟩ := Varint.form_of_decode counted
  obtain ⟨rfl, parts, laid, rfl⟩ := items_of_decode laidEntry_of_decode entriesRead
  exact ⟨_, .mk form sized laid, by simp⟩

end Rulebook.Snapshot
