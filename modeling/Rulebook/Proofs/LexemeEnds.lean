import Rulebook.Proofs.Lexemes

namespace Rulebook

structure Stop (c : Char) : Prop where
  word : Token.isWordChar c = false
  point : c ≠ '.'
  equal : c ≠ '='
  plus : c ≠ '+'
  minus : c ≠ '-'

def Stops (cs : List Char) : Prop := ∀ c ∈ cs.head?, Stop c

theorem Stop.digit {c : Char} (h : Stop c) : c.isDigit = false := by
  have hw := h.word
  simp only [Token.isWordChar, Char.isAlphanum, Bool.or_eq_false_iff] at hw
  exact hw.1.2

theorem Stop.mark {c : Char} (h : Stop c) : (c = 'e' || c = 'E') = false := by
  by_cases he : c = 'e'
  · exact absurd h.word (by rw [he]; decide)
  · by_cases hE : c = 'E'
    · exact absurd h.word (by rw [hE]; decide)
    · simp [he, hE]

theorem Stop.sign {c : Char} (h : Stop c) : (c = '+' || c = '-') = false := by
  simp [h.plus, h.minus]

theorem stops_cons {c : Char} (h : Stop c) (cs : List Char) : Stops (c :: cs) := by
  intro d hd
  cases hd
  exact h

theorem takeWhile_all {p : Char → Bool} {cs : List Char} (h : ∀ c ∈ cs, p c = true) :
    cs.takeWhile p = cs := by
  induction cs with
  | nil => rfl
  | cons c cs ih =>
    rw [List.takeWhile_cons_of_pos (h c List.mem_cons_self), ih fun d hd => h d (List.mem_cons_of_mem c hd)]

theorem dropWhile_all {p : Char → Bool} {cs : List Char} (h : ∀ c ∈ cs, p c = true) :
    cs.dropWhile p = [] := by
  induction cs with
  | nil => rfl
  | cons c cs ih =>
    rw [List.dropWhile_cons_of_pos (h c List.mem_cons_self), ih fun d hd => h d (List.mem_cons_of_mem c hd)]

theorem takeWhile_stops {p : Char → Bool} (cs : List Char) {rest : List Char}
    (h : ∀ c ∈ rest.head?, p c = false) : (cs ++ rest).takeWhile p = cs.takeWhile p := by
  have hr : rest.takeWhile p = [] := by
    cases rest with
    | nil => rfl
    | cons c rest => exact List.takeWhile_cons_of_neg (by simp [h c rfl])
  rw [List.takeWhile_append, hr, List.append_nil]
  split
  · next hl => exact ((List.takeWhile_prefix p).eq_of_length hl).symm
  · rfl

theorem dropWhile_stops {p : Char → Bool} (cs : List Char) {rest : List Char}
    (h : ∀ c ∈ rest.head?, p c = false) : (cs ++ rest).dropWhile p = cs.dropWhile p ++ rest := by
  have hr : rest.dropWhile p = rest := by
    cases rest with
    | nil => rfl
    | cons c rest => exact List.dropWhile_cons_of_neg (by simp [h c rfl])
  rw [List.dropWhile_append, hr]
  split
  · next he => rw [List.isEmpty_iff.mp he, List.nil_append]
  · rfl

variable {rest : List Char}

theorem Stops.digit (h : Stops rest) : ∀ c ∈ rest.head?, c.isDigit = false := fun c hc => (h c hc).digit

theorem Stops.word (h : Stops rest) : ∀ c ∈ rest.head?, Token.isWordChar c = false :=
  fun c hc => (h c hc).word

namespace Exponent

theorem scanSign_append (h : Stops rest) (cs : List Char) :
    scanSign (cs ++ rest) = ((scanSign cs).1, (scanSign cs).2 ++ rest) := by
  cases cs with
  | nil =>
    cases rest with
    | nil => rfl
    | cons c rest => simp [scanSign, (h c rfl).sign]
  | cons c cs => by_cases hc : (c = '+' || c = '-') = true <;> simp [scanSign, hc]

theorem scan_append (h : Stops rest) (cs : List Char) :
    scan (cs ++ rest) = ((scan cs).1, (scan cs).2 ++ rest) := by
  cases cs with
  | nil =>
    cases rest with
    | nil => rfl
    | cons c rest => simp [scan, (h c rfl).mark]
  | cons c cs =>
    by_cases hc : (c = 'e' || c = 'E') = true
    · simp only [List.cons_append, scan, hc, ↓reduceIte, scanSign_append h, takeWhile_stops _ h.digit,
        dropWhile_stops _ h.digit]
      split <;> rfl
    · simp [scan, hc]

end Exponent

namespace Numeral

theorem scanFraction_append (h : Stops rest) (cs : List Char) :
    scanFraction (cs ++ rest) = ((scanFraction cs).1, (scanFraction cs).2 ++ rest) := by
  cases cs with
  | nil =>
    cases rest with
    | nil => rfl
    | cons c rest => 
      have hc := (h c rfl).point
      simp [scanFraction, hc]
  | cons c cs =>
    by_cases hc : c = '.'
    · subst hc
      simp only [List.cons_append, scanFraction, takeWhile_stops _ h.digit, dropWhile_stops _ h.digit]
      split <;> rfl
    · simp [scanFraction, hc]

theorem scanUnsigned_append (h : Stops rest) (negative : Bool) (cs : List Char) :
    scanUnsigned negative (cs ++ rest) = (scanUnsigned negative cs).map fun p => (p.1, p.2 ++ rest) := by
  simp only [scanUnsigned, takeWhile_stops _ h.digit, dropWhile_stops _ h.digit, scanFraction_append h,
    Exponent.scan_append h]
  split <;> rfl

theorem scan_append (h : Stops rest) (cs : List Char) :
    scan (cs ++ rest) = (scan cs).map fun p => (p.1, p.2 ++ rest) := by
  cases cs with
  | nil =>
    cases rest with
    | nil => rfl
    | cons c rest =>
      have hc := (h c rfl).minus
      have hs := scanUnsigned_append h false []
      rw [List.nil_append] at hs ⊢
      simpa [scan, hc] using hs
  | cons c cs =>
    by_cases hc : c = '-'
    · subst hc
      exact scanUnsigned_append h true cs
    · have hs := scanUnsigned_append h false (c :: cs)
      simpa [scan, hc] using hs

end Numeral

namespace Quoted

theorem split_append {quote : Char} (hq : quote ≠ '\\') {cs body left : List Char}
    (h : split quote cs = some (body, left)) (rest : List Char) :
    split quote (cs ++ rest) = some (body, left ++ rest) := by
  fun_induction split quote cs generalizing body with
  | case1 => cases h
  | case2 c cs ih =>
    obtain ⟨p, hp, he⟩ := Option.map_eq_some_iff.mp h
    cases he
    simp only [List.cons_append, split, ih hp, Option.map_some]
  | case3 cs hne =>
    cases h
    simp [split, hq]
  | case4 c cs hne hc ih =>
    obtain ⟨p, hp, he⟩ := Option.map_eq_some_iff.mp h
    cases he
    have hs : c ≠ '\\' := by
      rintro rfl
      cases cs with
      | nil => cases hp
      | cons d cs => exact hne d cs rfl rfl
    simp [split, hs, hc, ih hp]

end Quoted

namespace Token

theorem append_ne_equal (h : Stops rest) {cs : List Char} (hc : ∀ tail, cs = '=' :: tail → False)
    (tail : List Char) : cs ++ rest = '=' :: tail → False := by
  intro he
  cases cs with
  | nil =>
    rw [List.nil_append] at he
    subst he
    exact (h '=' rfl).equal rfl
  | cons c cs => exact hc cs (by rw [(List.cons.inj he).1])

theorem symbol_append (h : Stops rest) {cs : List Char} {t : Token} {n : Nat}
    (ht : symbol cs = some (t, n)) : symbol (cs ++ rest) = some (t, n) := by
  unfold symbol at ht
  split at ht <;> cases ht
  · rfl
  · rfl
  · rfl
  · next tail hne => rw [List.cons_append, symbol.eq_4 _ (append_ne_equal h hne)]
  · rfl
  · next tail hne => rw [List.cons_append, symbol.eq_6 _ (append_ne_equal h hne)]
  · rfl
  · rfl
  · next tail hne => rw [List.cons_append, symbol.eq_9 _ (append_ne_equal h hne)]

theorem scan_append (h : Stops rest) {c : Char} {cs : List Char} {t : Token} {n : Nat}
    (ht : scan c cs = .ok (t, n)) : scan c (cs ++ rest) = .ok (t, n) := by
  unfold scan at ht ⊢
  split at ht
  · next hq =>
    rw [if_pos hq]
    split at ht
    · next body left hs =>
      cases ht
      rw [Quoted.split_append _ hs]
      intro he
      rw [he] at hq
      exact absurd hq (by decide)
    · cases ht
  · next hq =>
    rw [if_neg hq]
    split at ht
    · next hd =>
      rw [if_pos hd]
      split at ht
      · next n left hn =>
        rw [← List.cons_append, Numeral.scan_append h, hn]
        exact ht
      · cases ht
    · next hd =>
      rw [if_neg hd]
      split at ht
      · next hw =>
        rw [if_pos hw, takeWhile_stops _ h.word]
        exact ht
      · next hw =>
        rw [if_neg hw]
        split at ht
        · next t n hs =>
          rw [← List.cons_append, symbol_append h hs]
          exact ht
        · cases ht

end Token

end Rulebook
