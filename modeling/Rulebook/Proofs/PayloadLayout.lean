import Mathlib.Data.List.Forall2
import Rulebook.Proofs.PayloadCodec
import Rulebook.Proofs.Results

/-!
The bytes that stand for a payload. A number may be written in several forms and all else in one way, so a
payload is laid out in many ways. The decoder reads them all, and the encoder writes the shortest one.
-/

namespace Rulebook.Snapshot

open Results

namespace Varint

inductive Form : Nat → List UInt8 → Prop
  | byte {n : Nat} : n ≤ 250 → Form n [UInt8.ofNat n]
  | word16 {n : Nat} : n < 0x10000 → Form n (251 :: Bytes.write 2 n)
  | word32 {n : Nat} : n < 0x100000000 → Form n (252 :: Bytes.write 4 n)
  | word64 {n : Nat} : n < 2 ^ 64 → Form n (253 :: Bytes.write 8 n)

def Shortest (n : Nat) (bs : List UInt8) : Prop := Form n bs ∧ ∀ cs, Form n cs → bs.length ≤ cs.length

variable {n : Nat} {bs rest : List UInt8}

theorem encode_length (n : Nat) :
    (encode n).length = if n ≤ 250 then 1 else if n < 0x10000 then 3 else if n < 0x100000000 then 5 else 9 := by
  simp only [encode, apply_ite List.length, List.length_cons, List.length_nil, Bytes.write_length]

theorem form_encode (h : n < 2 ^ 64) : Form n (encode n) := by
  unfold encode
  split
  · next one => exact .byte one
  · split
    · next two => exact .word16 two
    · split
      · next four => exact .word32 four
      · exact .word64 h

theorem Form.lt (h : Form n bs) : n < 2 ^ 64 := by
  cases h <;> omega

theorem Form.encode_or_longer (h : Form n bs) : bs = encode n ∨ (encode n).length < bs.length := by
  rw [encode_length]
  cases h with
  | byte one =>
    left
    rw [encode, if_pos one]
  | word16 two =>
    by_cases one : n ≤ 250
    · right
      rw [if_pos one]
      exact Nat.succ_lt_succ (Nat.succ_pos _)
    · left
      rw [encode, if_neg one, if_pos two]
  | word32 four =>
    by_cases two : n < 0x10000
    · right
      rw [if_pos two, List.length_cons, Bytes.write_length]
      split <;> decide
    · left
      rw [encode, if_neg (by omega), if_neg two, if_pos four]
  | word64 eight =>
    by_cases four : n < 0x100000000
    · right
      rw [if_pos four, List.length_cons, Bytes.write_length]
      split
      · decide
      · split <;> decide
    · left
      rw [encode, if_neg (by omega), if_neg (by omega), if_neg four]

theorem Form.length_ge (h : Form n bs) : (encode n).length ≤ bs.length := by
  rcases h.encode_or_longer with rfl | longer
  · exact Nat.le_refl _
  · exact Nat.le_of_lt longer

theorem shortest_encode (h : n < 2 ^ 64) : Shortest n (encode n) := ⟨form_encode h, fun _ form => form.length_ge⟩

theorem Shortest.eq_encode (h : Shortest n bs) : encode n = bs := by
  rcases h.1.encode_or_longer with same | longer
  · exact same.symm
  · exact absurd (h.2 _ (form_encode h.1.lt)) (Nat.not_le.mpr longer)

end Varint

section Layout

-- How numbers may be written.
variable (number : Nat → List UInt8 → Prop)

inductive LaidString (s : String) : List UInt8 → Prop
  | mk {size : List UInt8} : number (utf8 s).length size → LaidString s (size ++ utf8 s)

inductive LaidValue : Value → List UInt8 → Prop
  | int {n : Int64} {tag digits : List UInt8} :
    number 0 tag → number (zigzag n.toInt) digits → LaidValue (.int n) (tag ++ digits)
  | float {x : Binary64} {tag : List UInt8} :
    number 1 tag → LaidValue (.float x) (tag ++ Bytes.write 8 x.bits.toNat)
  | bool {b : Bool} {tag : List UInt8} : number 2 tag → LaidValue (.bool b) (tag ++ [if b then 1 else 0])
  | str {s : String} {tag body : List UInt8} :
    number 3 tag → LaidString number s body → LaidValue (.str s) (tag ++ body)

inductive LaidTree : Tree → List UInt8 → Prop
  | leaf {f : String} {o : Operator} {v : Value} {tag field op value : List UInt8} :
    number 0 tag → LaidString number f field → number (operatorIndex o) op → LaidValue number v value →
      LaidTree (.leaf f o v) (tag ++ field ++ op ++ value)
  | and {ts : List Tree} {tag count : List UInt8} {parts : List (List UInt8)} :
    number 1 tag → number ts.length count → List.Forall₂ LaidTree ts parts →
      LaidTree (.and ts) (tag ++ count ++ parts.flatten)
  | or {ts : List Tree} {tag count : List UInt8} {parts : List (List UInt8)} :
    number 2 tag → number ts.length count → List.Forall₂ LaidTree ts parts →
      LaidTree (.or ts) (tag ++ count ++ parts.flatten)

inductive LaidEntry (e : Entry) : List UInt8 → Prop
  | mk {id source tree : List UInt8} :
    number e.id.value.toNat id → LaidString number e.source source → LaidTree number e.tree tree →
      LaidEntry e (id ++ source ++ tree)

inductive LaidPayload (p : Payload) : List UInt8 → Prop
  | mk {next count : List UInt8} {parts : List (List UInt8)} :
    number p.nextId.value.toNat next → number p.entries.length count →
      List.Forall₂ (LaidEntry number) p.entries parts → LaidPayload p (next ++ count ++ parts.flatten)

end Layout

structure Compares (number : Nat → List UInt8 → Prop) (R : List UInt8 → List UInt8 → Prop) : Prop where
  refl : ∀ bs, R bs bs
  append : ∀ {as bs cs ds : List UInt8}, R as bs → R cs ds → R (as ++ cs) (bs ++ ds)
  number : ∀ {n : Nat} {bs : List UInt8}, number n bs → R (Varint.encode n) bs

namespace Compares

theorem shortest : Compares Varint.Shortest Eq where
  refl _ := rfl
  append := by
    rintro as _ cs _ rfl rfl
    rfl
  number := Varint.Shortest.eq_encode

theorem form : Compares Varint.Form fun as bs => as.length ≤ bs.length where
  refl _ := Nat.le_refl _
  append := by
    intro as bs cs ds first second
    rw [List.length_append, List.length_append]
    exact Nat.add_le_add first second
  number := Varint.Form.length_ge

variable {number : Nat → List UInt8 → Prop} {R : List UInt8 → List UInt8 → Prop} {bs : List UInt8}

theorem string (c : Compares number R) {s : String} (laid : LaidString number s bs) : R (Encode.string s) bs := by
  cases laid with
  | mk size => exact c.append (c.number size) (c.refl _)

theorem value (c : Compares number R) {v : Value} (laid : LaidValue number v bs) : R (Encode.value v) bs := by
  cases laid with
  | int tag digits => exact c.append (c.number tag) (c.number digits)
  | float tag => exact c.append (c.number tag) (c.refl _)
  | bool tag => exact c.append (c.number tag) (c.refl _)
  | str tag body => exact c.append (c.number tag) (c.string body)

mutual

theorem tree (c : Compares number R) : (t : Tree) → {bs : List UInt8} → LaidTree number t bs → R (Encode.tree t) bs
  | .leaf _ _ _, _, .leaf tag field op value => by
    rw [Encode.tree]
    exact c.append (c.append (c.append (c.number tag) (c.string field)) (c.number op)) (c.value value)
  | .and ts, _, .and tag count parts => by
    rw [Encode.tree]
    exact c.append (c.append (c.number tag) (c.number count)) (trees c ts parts)
  | .or ts, _, .or tag count parts => by
    rw [Encode.tree]
    exact c.append (c.append (c.number tag) (c.number count)) (trees c ts parts)

theorem trees (c : Compares number R) : (ts : List Tree) → {parts : List (List UInt8)} →
    List.Forall₂ (LaidTree number) ts parts → R (Encode.trees ts) parts.flatten
  | [], _, .nil => c.refl _
  | t :: ts, _, .cons first others => by
    rw [Encode.trees, List.flatten_cons]
    exact c.append (tree c t first) (trees c ts others)

end

theorem entry (c : Compares number R) {e : Entry} (laid : LaidEntry number e bs) : R (Encode.entry e) bs := by
  cases laid with
  | mk id source tree => exact c.append (c.append (c.number id) (c.string source)) (c.tree e.tree tree)

theorem entries (c : Compares number R) {es : List Entry} {parts : List (List UInt8)}
    (laid : List.Forall₂ (LaidEntry number) es parts) : R (es.flatMap Encode.entry) parts.flatten := by
  induction laid with
  | nil => exact c.refl _
  | cons first _ ih =>
    rw [List.flatMap_cons, List.flatten_cons]
    exact c.append (c.entry first) ih

theorem payload (c : Compares number R) {p : Payload} (laid : LaidPayload number p bs) : R (Encode.payload p) bs := by
  cases laid with
  | mk next count parts => exact c.append (c.append (c.number next) (c.number count)) (c.entries parts)

end Compares

theorem laidString_encode {s : String} (h : (Encode.string s).length < 2 ^ 64) :
    LaidString Varint.Shortest s (Encode.string s) := by
  rw [Encode.string, List.length_append] at h
  exact .mk (Varint.shortest_encode (by omega))

theorem laidValue_encode {v : Value} (h : (Encode.value v).length < 2 ^ 64) :
    LaidValue Varint.Shortest v (Encode.value v) := by
  cases v with
  | int n => exact .int (Varint.shortest_encode (by decide)) (Varint.shortest_encode (zigzag_lt n))
  | float x => exact .float (Varint.shortest_encode (by decide))
  | bool b => exact .bool (Varint.shortest_encode (by decide))
  | str s =>
    rw [Encode.value, List.length_append] at h
    exact .str (Varint.shortest_encode (by decide)) (laidString_encode (by omega))

theorem count_le_trees (ts : List Tree) : ts.length ≤ (Encode.trees ts).length := by
  rw [trees_eq_flatMap]
  exact count_le_flatMap fun t _ => tree_length_pos t

mutual

theorem laidTree_encode : (t : Tree) → (Encode.tree t).length < 2 ^ 64 → LaidTree Varint.Shortest t (Encode.tree t)
  | .leaf f o v, h => by
    simp only [Encode.tree, List.length_append] at h ⊢
    have op : operatorIndex o < 2 ^ 64 := by cases o <;> decide
    exact .leaf (Varint.shortest_encode (by decide)) (laidString_encode (by omega)) (Varint.shortest_encode op)
      (laidValue_encode (by omega))
  | .and ts, h => by
    have count := count_le_trees ts
    simp only [Encode.tree, List.length_append] at h
    have parts := laidTrees_encode ts (by omega)
    rw [Encode.tree, trees_eq_flatMap]
    exact .and (Varint.shortest_encode (by decide)) (Varint.shortest_encode (by omega)) parts
  | .or ts, h => by
    have count := count_le_trees ts
    simp only [Encode.tree, List.length_append] at h
    have parts := laidTrees_encode ts (by omega)
    rw [Encode.tree, trees_eq_flatMap]
    exact .or (Varint.shortest_encode (by decide)) (Varint.shortest_encode (by omega)) parts

theorem laidTrees_encode : (ts : List Tree) → (Encode.trees ts).length < 2 ^ 64 →
    List.Forall₂ (LaidTree Varint.Shortest) ts (ts.map Encode.tree)
  | [], _ => .nil
  | t :: ts, h => by
    rw [Encode.trees, List.length_append] at h
    exact .cons (laidTree_encode t (by omega)) (laidTrees_encode ts (by omega))

end

theorem laidEntry_encode {e : Entry} (h : (Encode.entry e).length < 2 ^ 64) :
    LaidEntry Varint.Shortest e (Encode.entry e) := by
  simp only [Encode.entry, List.length_append] at h
  exact .mk (Varint.shortest_encode e.id.value.toNat_lt) (laidString_encode (by omega))
    (laidTree_encode e.tree (by omega))

theorem laidPayload_encode {p : Payload} (h : (Encode.payload p).length < 2 ^ 64) :
    LaidPayload Varint.Shortest p (Encode.payload p) := by
  have count : p.entries.length ≤ (p.entries.flatMap Encode.entry).length :=
    count_le_flatMap fun e _ => entry_length_pos e
  simp only [Encode.payload, List.length_append] at h
  have entries : List.Forall₂ (LaidEntry Varint.Shortest) p.entries (p.entries.map Encode.entry) := by
    rw [List.forall₂_map_right_iff, List.forall₂_same]
    intro e he
    have part := length_le_flatMap Encode.entry he
    exact laidEntry_encode (by omega)
  exact .mk (Varint.shortest_encode p.nextId.value.toNat_lt) (Varint.shortest_encode (by omega)) entries

end Rulebook.Snapshot
