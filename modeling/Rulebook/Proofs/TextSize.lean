import Rulebook.Proofs.Results
import Rulebook.Proofs.TokenStreams

namespace Rulebook

open Results

theorem byteSize_append (cs ds : List Char) : byteSize (cs ++ ds) = byteSize cs + byteSize ds := by
  induction cs with
  | nil => rw [List.nil_append, byteSize, Nat.zero_add]
  | cons c cs ih => rw [List.cons_append, byteSize, byteSize, ih, Nat.add_assoc]

theorem length_le_byteSize (cs : List Char) : cs.length ≤ byteSize cs := by
  induction cs with
  | nil => exact Nat.le_refl _
  | cons c cs ih =>
    have pos := c.utf8Size_pos
    rw [List.length_cons, byteSize]
    omega

theorem utf8ByteSize_ofList (cs : List Char) : (String.ofList cs).utf8ByteSize = byteSize cs := by
  induction cs with
  | nil => rfl
  | cons c cs ih =>
    rw [String.ofList_cons, String.utf8ByteSize_append, String.utf8ByteSize_singleton, ih]
    rfl

theorem utf8ByteSize_eq (s : String) : s.utf8ByteSize = byteSize s.toList := by
  rw [← utf8ByteSize_ofList, String.ofList_toList]

namespace Token

def leastSize : Token → Nat
  | and => 3
  | or => 2
  | _ => 1

def isConnective : Token → Bool
  | and => true
  | or => true
  | _ => false

def isWord : Token → Bool
  | ident _ => true
  | t => t.isConnective

end Token

def blank : List Token → Nat
  | .ident _ :: _ => 1
  | _ => 0

/-- No text with these tokens takes fewer bytes. -/
def leastSize : List Token → Nat
  | [] => 0
  | t :: ts => t.leastSize + (if t.isConnective then blank ts else 0) + leastSize ts

theorem blank_le_one (ts : List Token) : blank ts ≤ 1 := by
  unfold blank
  split <;> decide

theorem blank_append {ts : List Token} (h : ts ≠ []) (us : List Token) : blank (ts ++ us) = blank ts := by
  cases ts with
  | nil => exact absurd rfl h
  | cons t ts => cases t <;> rfl

theorem blank_le_append (ts us : List Token) : blank ts ≤ blank (ts ++ us) := by
  cases ts with
  | nil => exact Nat.zero_le _
  | cons t ts => exact Nat.le_of_eq (blank_append (List.cons_ne_nil t ts) us).symm

theorem leastSize_of_not_word {t : Token} (h : t.isWord = false) (ts : List Token) :
    blank (t :: ts) = 0 ∧ leastSize (t :: ts) = 1 + leastSize ts := by
  cases t <;> cases h <;> exact ⟨rfl, rfl⟩

theorem leastSize_append (ts us : List Token) : leastSize ts + leastSize us ≤ leastSize (ts ++ us) := by
  induction ts with
  | nil => exact Nat.le_of_eq (Nat.zero_add _)
  | cons t ts ih =>
    have gap := blank_le_append ts us
    simp only [List.cons_append, leastSize]
    split <;> omega

theorem leastSize_mono {ts us : List Token} (h : ts <:+: us) : leastSize ts ≤ leastSize us := by
  obtain ⟨before, after, rfl⟩ := h
  have first := leastSize_append (before ++ ts) after
  have second := leastSize_append before ts
  omega

namespace Token

theorem isWordStart_of_not_isWordChar {c : Char} (h : isWordChar c = false) : isWordStart c = false := by
  simp only [isWordChar, Char.isAlphanum, Bool.or_eq_false_iff] at h
  simp only [isWordStart, Bool.or_eq_false_iff]
  exact ⟨h.1.1, h.2⟩

theorem not_isWordStart_after_word (cs : List Char) :
    ∀ c ∈ (cs.drop (cs.takeWhile isWordChar).length).head?, isWordStart c = false := by
  intro c hc
  have rest : (cs.takeWhile isWordChar ++ cs.dropWhile isWordChar).drop (cs.takeWhile isWordChar).length =
      cs.dropWhile isWordChar := List.drop_left
  rw [List.takeWhile_append_dropWhile] at rest
  rw [rest] at hc
  have stops := List.head?_dropWhile_not isWordChar cs
  rw [hc] at stops
  exact isWordStart_of_not_isWordChar stops

theorem leastSize_ofWord {cs : List Char} (h : cs ≠ []) : (ofWord cs).leastSize ≤ cs.length := by
  have word {s : String} (same : String.ofList cs = s) : cs.length = s.length := by
    rw [← same, String.length_ofList]
  unfold ofWord
  split
  · next same => exact Nat.le_of_eq (word same).symm
  · next same => exact Nat.le_of_eq (word same).symm
  · next same => exact Nat.le_of_eq (word same).symm
  · next same => exact Nat.le_of_eq (word same).symm
  all_goals exact List.length_pos_iff.mpr h

theorem isWord_ofNumeral {m : Numeral} {t : Token} (h : ofNumeral m = .ok t) : t.isWord = false := by
  unfold ofNumeral at h
  split at h
  · split at h <;> cases h
    rfl
  · split at h <;> cases h
    rfl

theorem isWord_symbol {cs : List Char} {t : Token} {n : Nat} (h : symbol cs = some (t, n)) : t.isWord = false := by
  unfold symbol at h
  split at h <;> cases h <;> rfl

theorem scan_word {c : Char} {cs : List Char} {t : Token} {n : Nat} (h : scan c cs = .ok (t, n))
    (word : t.isWord = true) :
    isWordStart c = true ∧ t = ofWord (c :: cs.takeWhile isWordChar) ∧ n = (cs.takeWhile isWordChar).length := by
  unfold scan at h
  split at h
  · split at h <;> cases h
    cases word
  · split at h
    · split at h
      · next m left _ =>
        obtain ⟨u, number, same⟩ := map_ok_iff.mp h
        cases same
        rw [isWord_ofNumeral number] at word
        cases word
      · cases h
    · split at h
      · next start =>
        cases h
        exact ⟨start, rfl, rfl⟩
      · split at h
        · next symbolic =>
          cases h
          rw [isWord_symbol symbolic] at word
          cases word
        · cases h

end Token

namespace Tokens

theorem leastSize_scan (offset : Nat) (cs : List Char) :
    leastSize (scan offset cs).plain ≤ byteSize cs ∧
      ((∀ c ∈ cs.head?, Token.isWordStart c = false) →
        blank (scan offset cs).plain + leastSize (scan offset cs).plain ≤ byteSize cs) := by
  fun_induction scan offset cs with
  | case1 offset => exact ⟨Nat.le_refl _, fun _ => Nat.le_refl _⟩
  | case2 offset c cs isBlank ih =>
    have gap := blank_le_one (scan (offset + c.utf8Size) cs).plain
    have pos := c.utf8Size_pos
    rw [byteSize]
    exact ⟨by omega, fun _ => by omega⟩
  | case3 offset c cs notBlank f fault => exact ⟨Nat.zero_le _, fun _ => Nat.zero_le _⟩
  | case4 offset c cs notBlank t n lexeme ih =>
    generalize scan (offset + c.utf8Size + byteSize (cs.take n)) (cs.drop n) = rest at ih ⊢
    have pos := c.utf8Size_pos
    have taken : n ≤ byteSize (cs.take n) := by
      have length := length_le_byteSize (cs.take n)
      rw [List.length_take, Nat.min_eq_left (Token.scan_length lexeme)] at length
      exact length
    have cut := byteSize_append (cs.take n) (cs.drop n)
    rw [List.take_append_drop] at cut
    change leastSize (t :: rest.plain) ≤ _ ∧ (_ → blank (t :: rest.plain) + leastSize (t :: rest.plain) ≤ _)
    rw [byteSize, cut]
    by_cases word : t.isWord = true
    · obtain ⟨start, rfl, rfl⟩ := Token.scan_word lexeme word
      have size := Token.leastSize_ofWord (List.cons_ne_nil c (cs.takeWhile Token.isWordChar))
      have spaced := ih.2 (Token.not_isWordStart_after_word cs)
      rw [List.length_cons] at size
      constructor
      · rw [leastSize]
        split <;> omega
      · intro other
        rw [other c rfl] at start
        cases start
    · have one := leastSize_of_not_word (Bool.eq_false_iff.mpr word) rest.plain
      have unspaced := ih.1
      rw [one.1, one.2]
      constructor <;> omega

end Tokens

theorem leastSize_plain (text : String) : leastSize (Tokens.ofString text).plain ≤ text.utf8ByteSize := by
  rw [utf8ByteSize_eq]
  exact (Tokens.leastSize_scan 0 text.toList).1

theorem Phrase.ne_nil {r : Rank} {ts : List Token} {c : Condition} (h : Phrase r ts c) : ts ≠ [] := by
  induction h with
  | compare f o v => exact List.cons_ne_nil _ _
  | group h ih => exact List.cons_ne_nil _ _
  | single h ih => exact ih
  | and ha hb iha ihb => exact List.append_ne_nil_of_left_ne_nil iha _
  | alone h ih => exact ih
  | or ha hb iha ihb => exact List.append_ne_nil_of_left_ne_nil iha _

theorem Phrase.leafCount_le {r : Rank} {ts : List Token} {c : Condition} (h : Phrase r ts c) :
    6 * c.leafCount ≤ leastSize ts + blank ts + 2 := by
  induction h with
  | compare f o v => exact Nat.le_refl _
  | @group ts c h ih =>
    have size := leastSize_append ts [.rightParen]
    have gap := blank_le_one ts
    change _ ≤ 1 + 0 + leastSize (ts ++ [.rightParen]) + 0 + 2
    change _ + 1 ≤ _ at size
    omega
  | single h ih => exact ih
  | @and ts us a b ha hb iha ihb =>
    have size := leastSize_append ts (.and :: us)
    change _ + (3 + blank us + leastSize us) ≤ _ at size
    rw [blank_append ha.ne_nil, Condition.leafCount]
    omega
  | alone h ih => exact ih
  | @or ts us a b ha hb iha ihb =>
    have size := leastSize_append ts (.or :: us)
    change _ + (2 + blank us + leastSize us) ≤ _ at size
    rw [blank_append ha.ne_nil, Condition.leafCount]
    omega

namespace Condition

theorem depth_pos (c : Condition) : 1 ≤ c.depth := by
  cases c with
  | compare f o v => exact Nat.le_refl _
  | and a b => exact Nat.le_add_left _ _
  | or a b => exact Nat.le_add_left _ _

theorem depth_le_leafCount (c : Condition) : c.depth ≤ c.leafCount := by
  induction c with
  | compare f o v => exact Nat.le_refl _
  | and a b iha ihb =>
    have left := a.depth_pos
    have right := b.depth_pos
    rw [depth, leafCount]
    omega
  | or a b iha ihb =>
    have left := a.depth_pos
    have right := b.depth_pos
    rw [depth, leafCount]
    omega

theorem two_le_depth {c : Condition} (h : c.isLeaf = false) : 2 ≤ c.depth := by
  cases c with
  | compare f o v => cases h
  | and a b =>
    have left := a.depth_pos
    rw [depth]
    omega
  | or a b =>
    have left := a.depth_pos
    rw [depth]
    omega

end Condition

end Rulebook
