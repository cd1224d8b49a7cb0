import Rulebook.Proofs.LexemeClasses
import Rulebook.Proofs.LongestNumerals

namespace Rulebook

variable {c : Char} {cs ds w v : List Char} {r q : Except LexFault Token}

structure Longest (cs w : List Char) (r : Except LexFault Token) : Prop where
  start : w <+: cs
  lexeme : ∃ k, Lexeme k w r
  longest : ∀ v k q, v <+: cs → Lexeme k v q → v.length ≤ w.length

def Lexless (cs : List Char) : Prop := ∀ v k q, v <+: cs → ¬Lexeme k v q

def LexFault.ofFirst (c : Char) : LexFault :=
  if c = Quoted.singleQuote || c = Quoted.doubleQuote then unterminatedString else unexpectedChar c

inductive Faulty (cs : List Char) : LexFault → Prop
  | lexless {c : Char} : cs.head? = some c → Lexless cs → Faulty cs (.ofFirst c)
  | outOfRange {w : List Char} {f : LexFault} : Longest cs w (.error f) → Faulty cs f

namespace Longest

theorem unique (h : Longest cs w r) (h' : Longest cs v q) : w = v ∧ r = q := by
  obtain ⟨k, lexeme⟩ := h.lexeme
  obtain ⟨j, lexeme'⟩ := h'.lexeme
  have length : w.length = v.length :=
    Nat.le_antisymm (h'.longest w k r h.start lexeme) (h.longest v j q h'.start lexeme')
  have same : w = v := (List.prefix_of_prefix_length_le h.start h'.start (Nat.le_of_eq length)).eq_of_length length
  subst same
  exact ⟨rfl, lexeme.unique lexeme'⟩

theorem of_prefix (h : Longest cs w r) (whole : w <+: ds) (shorter : ds <+: cs) : Longest ds w r :=
  ⟨whole, h.lexeme, fun v k q start => h.longest v k q (start.trans shorter)⟩

theorem not_lexless (h : Longest cs w r) : ¬Lexless cs := by
  obtain ⟨k, lexeme⟩ := h.lexeme
  intro none
  exact none w k r h.start lexeme

end Longest

theorem Lexeme.ofFirst_of_prefix {k : LexemeClass} (h : Lexeme k v q) (start : v <+: c :: cs) : k = .ofFirst c := by
  obtain ⟨d, tail, rfl, same, -⟩ := h.first
  rw [same, (List.cons_prefix_cons.mp start).1]

theorem longest_of_class {k : LexemeClass} (class_eq : LexemeClass.ofFirst c = k) (start : w <+: c :: cs)
    (lexeme : Lexeme k w r) (longest : ∀ v q, v <+: c :: cs → Lexeme k v q → v.length ≤ w.length) :
    Longest (c :: cs) w r := by
  refine ⟨start, ⟨k, lexeme⟩, ?_⟩
  intro v j q start' lexeme'
  rw [lexeme'.ofFirst_of_prefix start', class_eq] at lexeme'
  exact longest v q start' lexeme'

theorem lexless_of_class {k : LexemeClass} (class_eq : LexemeClass.ofFirst c = k)
    (none : ∀ v q, v <+: c :: cs → ¬Lexeme k v q) : Lexless (c :: cs) := by
  intro v j q start lexeme
  rw [lexeme.ofFirst_of_prefix start, class_eq] at lexeme
  exact none v q start lexeme

theorem longest_word (class_eq : LexemeClass.ofFirst c = .word) (first : Token.isWordStart c = true) (cs : List Char) :
    Longest (c :: cs) (c :: cs.takeWhile Token.isWordChar)
      (.ok (Token.ofWord (c :: cs.takeWhile Token.isWordChar))) := by
  apply longest_of_class class_eq
  · exact List.cons_prefix_cons.mpr ⟨rfl, List.takeWhile_prefix _⟩
  · exact lexeme_word_iff.mpr ⟨c, _, rfl, first, List.all_takeWhile, rfl⟩
  · intro v q start lexeme
    obtain ⟨d, tail, rfl, -, all, -⟩ := lexeme_word_iff.mp lexeme
    obtain ⟨-, rest, rfl⟩ := List.cons_prefix_cons.mp start
    rw [List.takeWhile_append_of_pos (List.all_eq_true.mp all), List.length_cons, List.length_cons, List.length_append]
    omega

theorem split_of_prefix {body : List Char} (delimits : c = Quoted.singleQuote ∨ c = Quoted.doubleQuote)
    (escaped : Quoted.Body c body) (start : c :: (body ++ [c]) <+: c :: cs) :
    ∃ left, Quoted.split c cs = some (body, left) := by
  obtain ⟨-, left, rfl⟩ := List.cons_prefix_cons.mp start
  rw [List.append_assoc]
  exact ⟨left, Quoted.split_body (quote_ne_backslash delimits) escaped left⟩

theorem longest_string (class_eq : LexemeClass.ofFirst c = .string)
    (delimits : c = Quoted.singleQuote ∨ c = Quoted.doubleQuote) {body left : List Char}
    (h : Quoted.split c cs = some (body, left)) :
    Longest (c :: cs) (c :: (body ++ [c])) (.ok (.literal (.str (.ofList (Quoted.decode body))))) := by
  apply longest_of_class class_eq
  · rw [← Quoted.split_text h]
    exact List.cons_prefix_cons.mpr ⟨rfl, left, by rw [List.append_assoc]; rfl⟩
  · exact .string delimits (Quoted.body_of_split h)
  · intro v q start lexeme
    obtain ⟨d, other, delimits', escaped, rfl, -⟩ := lexeme_string_iff.mp lexeme
    cases (List.cons_prefix_cons.mp start).1
    obtain ⟨_, scanned⟩ := split_of_prefix delimits' escaped start
    rw [h] at scanned
    cases scanned
    exact Nat.le_refl _

theorem lexless_string (class_eq : LexemeClass.ofFirst c = .string) (h : Quoted.split c cs = none) :
    Lexless (c :: cs) := by
  apply lexless_of_class class_eq
  intro v q start lexeme
  obtain ⟨d, body, delimits, escaped, rfl, -⟩ := lexeme_string_iff.mp lexeme
  cases (List.cons_prefix_cons.mp start).1
  obtain ⟨_, scanned⟩ := split_of_prefix delimits escaped start
  rw [h] at scanned
  cases scanned

theorem longest_number (class_eq : LexemeClass.ofFirst c = .number) {n : Numeral} {left : List Char}
    (h : Numeral.scan (c :: cs) = some (n, left)) : Longest (c :: cs) n.text (Token.ofNumeral n) := by
  have whole := Numeral.scan_text h
  apply longest_of_class class_eq
  · exact ⟨left, whole⟩
  · exact lexeme_number_iff.mpr ⟨n, Numeral.scan_shape h, rfl, rfl⟩
  · intro v q start lexeme
    obtain ⟨m, shaped, rfl, -⟩ := lexeme_number_iff.mp lexeme
    obtain ⟨rest, same⟩ := start
    obtain ⟨_, _, scanned, fewer⟩ := Numeral.scan_text_append shaped rest
    rw [same, h] at scanned
    cases scanned
    have lengths := congrArg List.length (whole.trans same.symm)
    rw [List.length_append, List.length_append] at lengths
    omega

theorem lexless_number (class_eq : LexemeClass.ofFirst c = .number) (h : Numeral.scan (c :: cs) = none) :
    Lexless (c :: cs) := by
  apply lexless_of_class class_eq
  intro v q start lexeme
  obtain ⟨m, shaped, rfl, -⟩ := lexeme_number_iff.mp lexeme
  obtain ⟨rest, same⟩ := start
  obtain ⟨_, _, scanned, -⟩ := Numeral.scan_text_append shaped rest
  rw [same, h] at scanned
  cases scanned

theorem longest_symbol (class_eq : LexemeClass.ofFirst c = .symbol) {t : Token} {n : Nat}
    (h : Token.symbol (c :: cs) = some (t, n)) : ∃ w, Longest (c :: cs) w (.ok t) ∧ w.length = n := by
  obtain ⟨s, listed, start, length⟩ := symbol_listed h
  refine ⟨s.toList, ?_, length⟩
  apply longest_of_class class_eq start (.symbol listed)
  intro v q start' lexeme
  cases lexeme with
  | symbol listed' =>
    obtain ⟨rest, same⟩ := start'
    obtain ⟨_, _, found, longer⟩ := symbol_append_listed listed' rest
    rw [same, h] at found
    cases found
    rw [length]
    exact longer

theorem lexless_symbol (class_eq : LexemeClass.ofFirst c = .symbol) (h : Token.symbol (c :: cs) = none) :
    Lexless (c :: cs) := by
  apply lexless_of_class class_eq
  intro v q start lexeme
  cases lexeme with
  | symbol listed =>
    obtain ⟨rest, same⟩ := start
    obtain ⟨_, _, found, -⟩ := symbol_append_listed listed rest
    rw [same, h] at found
    cases found

theorem Faulty.not_longest {f : LexFault} {t : Token} (h : Faulty cs f) : ¬Longest cs w (.ok t) := by
  intro longest
  cases h with
  | lexless first none => exact longest.not_lexless none
  | outOfRange other => cases (longest.unique other).2

theorem Faulty.unique {f g : LexFault} (h : Faulty cs f) (h' : Faulty cs g) : f = g := by
  cases h with
  | lexless first none =>
    cases h' with
    | lexless first' none' =>
      rw [first] at first'
      cases first'
      rfl
    | outOfRange longest => exact absurd none longest.not_lexless
  | outOfRange longest =>
    cases h' with
    | lexless first none => exact absurd none longest.not_lexless
    | outOfRange longest' =>
      cases (longest.unique longest').2
      rfl

def Scanned (c : Char) (cs : List Char) : Except LexFault (Token × Nat) → Prop
  | .ok (t, n) => ∃ w, Longest (c :: cs) w (.ok t) ∧ w.length = n + 1
  | .error f => Faulty (c :: cs) f

theorem Longest.scanned {t : Token} {n : Nat} (h : Longest (c :: cs) w (.ok t)) (length : w.length = n) :
    Scanned c cs (.ok (t, n - 1)) := by
  obtain ⟨k, lexeme⟩ := h.lexeme
  obtain ⟨d, tail, rfl, -⟩ := lexeme.first
  refine ⟨d :: tail, h, ?_⟩
  rw [List.length_cons] at length ⊢
  omega

theorem scanned (c : Char) (cs : List Char) : Scanned c cs (Token.scan c cs) := by
  unfold Token.scan
  split
  · next quote =>
    have class_eq : LexemeClass.ofFirst c = .string := if_pos quote
    split
    · next body left split =>
      have delimits : c = Quoted.singleQuote ∨ c = Quoted.doubleQuote := by simpa using quote
      exact ⟨_, longest_string class_eq delimits split, by simp⟩
    · next split =>
      have none := Faulty.lexless rfl (lexless_string class_eq split)
      rw [LexFault.ofFirst, if_pos quote] at none
      exact none
  · next quote =>
    have unexpected : Lexless (c :: cs) → Faulty (c :: cs) (.unexpectedChar c) := by
      intro lexless
      have none := Faulty.lexless rfl lexless
      rw [LexFault.ofFirst, if_neg quote] at none
      exact none
    split
    · next digit =>
      have class_eq : LexemeClass.ofFirst c = .number := by
        rw [LexemeClass.ofFirst, if_neg quote, if_pos digit]
      split
      · next n left scan =>
        have longest := longest_number class_eq scan
        cases value : Token.ofNumeral n with
        | ok t =>
          rw [value] at longest
          exact longest.scanned rfl
        | error f =>
          rw [value] at longest
          exact .outOfRange longest
      · next scan => exact unexpected (lexless_number class_eq scan)
    · next digit =>
      split
      · next first =>
        have class_eq : LexemeClass.ofFirst c = .word := by
          rw [LexemeClass.ofFirst, if_neg quote, if_neg digit, if_pos first]
        exact ⟨_, longest_word class_eq first cs, rfl⟩
      · next first =>
        have class_eq : LexemeClass.ofFirst c = .symbol := by
          rw [LexemeClass.ofFirst, if_neg quote, if_neg digit, if_neg first]
        split
        · next t n found =>
          obtain ⟨w, longest, length⟩ := longest_symbol class_eq found
          exact longest.scanned length
        · next found => exact unexpected (lexless_symbol class_eq found)

theorem scan_ok_iff {t : Token} {n : Nat} :
    Token.scan c cs = .ok (t, n) ↔ ∃ w, Longest (c :: cs) w (.ok t) ∧ w.length = n + 1 := by
  have spec := scanned c cs
  constructor
  · intro h
    rw [h] at spec
    exact spec
  · rintro ⟨w, longest, length⟩
    cases result : Token.scan c cs with
    | ok p =>
      rw [result] at spec
      obtain ⟨v, longest', length'⟩ := spec
      obtain ⟨rfl, same⟩ := longest'.unique longest
      rw [length, Nat.add_right_cancel_iff] at length'
      cases same
      rw [length']
    | error f =>
      rw [result] at spec
      exact absurd longest spec.not_longest

theorem scan_error_iff {f : LexFault} : Token.scan c cs = .error f ↔ Faulty (c :: cs) f := by
  have spec := scanned c cs
  constructor
  · intro h
    rw [h] at spec
    exact spec
  · intro faulty
    cases result : Token.scan c cs with
    | ok p =>
      rw [result] at spec
      obtain ⟨v, longest, -⟩ := spec
      exact absurd longest faulty.not_longest
    | error g =>
      rw [result] at spec
      rw [faulty.unique spec]

theorem Longest.take {n : Nat} (h : Longest (c :: cs) w r) (length : w.length = n + 1) : w = c :: cs.take n := by
  have taken := List.prefix_iff_eq_take.mp h.start
  rw [length, List.take_succ_cons] at taken
  exact taken

end Rulebook
