import Rulebook.Proofs.PrintedForm

namespace Rulebook

open Results

inductive Quoted.Body (quote : Char) : List Char → Prop
  | nil : Body quote []
  | plain {c : Char} {cs : List Char} : c ≠ quote → c ≠ '\\' → Body quote cs → Body quote (c :: cs)
  | escaped (c : Char) {cs : List Char} : Body quote cs → Body quote ('\\' :: c :: cs)

namespace Token

def ofKeyword : List (String × Token) :=
  [("AND", and), ("and", and), ("OR", or), ("or", or), ("true", literal (.bool true)), ("false", literal (.bool false))]

def ofSymbol : List (String × Token) :=
  [("(", leftParen), (")", rightParen), (">=", op .ge), (">", op .gt), ("<=", op .le), ("<", op .lt), ("!=", op .ne),
    ("==", op .eq), ("=", op .eq)]

end Token

inductive LexemeClass
  | word
  | number
  | string
  | symbol

def LexemeClass.ofFirst (c : Char) : LexemeClass :=
  if c = Quoted.singleQuote || c = Quoted.doubleQuote then string
  else if c.isDigit || c = '-' then number
  else if Token.isWordStart c then word
  else symbol

/-- The lexemes of each class, with the token that each stands for; a number out of range stands for none. -/
inductive Lexeme : LexemeClass → List Char → Except LexFault Token → Prop
  | keyword {s : String} {t : Token} : (s, t) ∈ Token.ofKeyword → Lexeme .word s.toList (.ok t)
  | name {s : String} : IsFieldName s → Lexeme .word s.toList (.ok (.ident s))
  | integer {n : Numeral} {i : Int64} : n.Shaped → n.isInteger = true → i.toInt = n.toInt →
    Lexeme .number n.text (.ok (.literal (.int i)))
  | largeInteger {n : Numeral} : n.Shaped → n.isInteger = true → (∀ i : Int64, i.toInt ≠ n.toInt) →
    Lexeme .number n.text (.error (.invalidNumber (.ofList n.text)))
  | decimal {n : Numeral} : n.Shaped → n.isInteger = false → n.toBinary64.isFinite = true →
    Lexeme .number n.text (.ok (.literal (.float n.toBinary64)))
  | largeDecimal {n : Numeral} : n.Shaped → n.isInteger = false → n.toBinary64.isFinite = false →
    Lexeme .number n.text (.error (.invalidNumber (.ofList n.text)))
  | string {quote : Char} {body : List Char} : quote = Quoted.singleQuote ∨ quote = Quoted.doubleQuote →
    Quoted.Body quote body →
      Lexeme .string (quote :: (body ++ [quote])) (.ok (.literal (.str (.ofList (Quoted.decode body)))))
  | symbol {s : String} {t : Token} : (s, t) ∈ Token.ofSymbol → Lexeme .symbol s.toList (.ok t)

namespace Quoted

variable {quote : Char} {cs body left : List Char}

theorem body_of_split (h : split quote cs = some (body, left)) : Body quote body := by
  fun_induction split quote cs generalizing body with
  | case1 => cases h
  | case2 c rest ih =>
    obtain ⟨p, hp, he⟩ := Option.map_eq_some_iff.mp h
    cases he
    exact .escaped c (ih hp)
  | case3 rest hne =>
    cases h
    exact .nil
  | case4 c rest hne hc ih =>
    obtain ⟨p, hp, he⟩ := Option.map_eq_some_iff.mp h
    cases he
    have plain : c ≠ '\\' := by
      rintro rfl
      cases rest with
      | nil => cases hp
      | cons d rest => exact hne d rest rfl rfl
    exact .plain hc plain (ih hp)

theorem split_body (hq : quote ≠ '\\') (h : Body quote body) (left : List Char) :
    split quote (body ++ quote :: left) = some (body, left) := by
  induction h with
  | nil => simp [split, hq]
  | plain different unescaped _ ih => simp [split, different, unescaped, ih]
  | escaped c _ ih => simp [split, ih]

end Quoted

theorem quote_ne_backslash {quote : Char} (h : quote = Quoted.singleQuote ∨ quote = Quoted.doubleQuote) :
    quote ≠ '\\' := by
  rcases h with rfl | rfl <;> decide

theorem LexemeClass.ofFirst_word {c : Char} (h : Token.isWordStart c = true) : ofFirst c = word := by
  rw [ofFirst, if_neg (wordStart_ne_quote h), if_neg (wordStart_ne_numberStart h), if_pos h]

theorem LexemeClass.ofFirst_number {c : Char} (h : (c.isDigit || c = '-') = true) : ofFirst c = number := by
  rw [ofFirst, if_neg (numberStart_ne_quote h), if_pos h]

theorem Numeral.toInt64?_eq_some_iff {n : Numeral} {i : Int64} : n.toInt64? = some i ↔ i.toInt = n.toInt := by
  unfold toInt64?
  constructor
  · intro h
    split at h
    · next range =>
      cases h
      exact Int64.toInt_ofInt_of_le range.1 (Int.lt_add_one_of_le range.2)
    · cases h
  · intro same
    rw [← same, if_pos ⟨i.minValue_le_toInt, i.toInt_le⟩, Int64.ofInt_toInt]

theorem ofKeyword_spelled : ∀ p ∈ Token.ofKeyword, ∃ c cs, p.1.toList = c :: cs ∧ Token.isWordStart c = true ∧
    cs.all Token.isWordChar = true ∧ Token.ofWord p.1.toList = p.2 := by
  simp only [Token.ofKeyword, List.forall_mem_cons]
  refine ⟨?_, ?_, ?_, ?_, ?_, ?_, fun _ h => nomatch h⟩ <;> exact ⟨_, _, rfl, rfl, rfl, rfl⟩

theorem ofSymbol_spelled : ∀ p ∈ Token.ofSymbol, ∃ c cs, p.1.toList = c :: cs ∧ LexemeClass.ofFirst c = .symbol ∧
    isBlank c = false ∧ Token.symbol p.1.toList = some (p.2, p.1.toList.length) := by
  simp only [Token.ofSymbol, List.forall_mem_cons]
  refine ⟨?_, ?_, ?_, ?_, ?_, ?_, ?_, ?_, ?_, fun _ h => nomatch h⟩ <;> exact ⟨_, _, rfl, rfl, rfl, rfl⟩

theorem keyword_of_mem {s : String} (h : s ∈ keywords) : ∃ t, (s, t) ∈ Token.ofKeyword := by
  have words : keywords = Token.ofKeyword.map Prod.fst := rfl
  rw [words] at h
  obtain ⟨⟨_, t⟩, listed, rfl⟩ := List.mem_map.mp h
  exact ⟨t, listed⟩

theorem lexeme_word_iff {w : List Char} {r : Except LexFault Token} :
    Lexeme .word w r ↔ ∃ c cs, w = c :: cs ∧ Token.isWordStart c = true ∧ cs.all Token.isWordChar = true ∧
      r = .ok (Token.ofWord w) := by
  constructor
  · intro h
    cases h with
    | keyword listed =>
      obtain ⟨c, cs, spelled, start, all, known⟩ := ofKeyword_spelled _ listed
      exact ⟨c, cs, spelled, start, all, by rw [known]⟩
    | name field =>
      rw [ofWord_of_not_keyword field.1]
      obtain ⟨-, c, cs, spelled, start, all⟩ := field
      exact ⟨c, cs, spelled, start, all, rfl⟩
  · rintro ⟨c, cs, rfl, start, all, rfl⟩
    have spelled : (String.ofList (c :: cs)).toList = c :: cs := String.toList_ofList
    by_cases listed : String.ofList (c :: cs) ∈ keywords
    · obtain ⟨t, known⟩ := keyword_of_mem listed
      obtain ⟨-, -, -, -, -, same⟩ := ofKeyword_spelled _ known
      have word : Token.ofWord (c :: cs) = t := by
        rw [← spelled]
        exact same
      rw [word, ← spelled]
      exact .keyword known
    · have lexeme := Lexeme.name ⟨listed, c, cs, spelled, start, all⟩
      rw [← ofWord_of_not_keyword listed, spelled] at lexeme
      exact lexeme

theorem lexeme_number_iff {w : List Char} {r : Except LexFault Token} :
    Lexeme .number w r ↔ ∃ n : Numeral, n.Shaped ∧ w = n.text ∧ r = Token.ofNumeral n := by
  constructor
  · intro h
    cases h with
    | @integer n i shaped whole same =>
      refine ⟨n, shaped, rfl, ?_⟩
      rw [Token.ofNumeral, if_pos whole, Numeral.toInt64?_eq_some_iff.mpr same]
    | @largeInteger n shaped whole none =>
      refine ⟨n, shaped, rfl, ?_⟩
      have large : n.toInt64? = .none := by
        apply Option.eq_none_iff_forall_ne_some.mpr
        intro i found
        exact none i (Numeral.toInt64?_eq_some_iff.mp found)
      rw [Token.ofNumeral, if_pos whole, large]
    | @decimal n shaped broken finite =>
      refine ⟨n, shaped, rfl, ?_⟩
      rw [Token.ofNumeral, broken, finite]
      rfl
    | @largeDecimal n shaped broken infinite =>
      refine ⟨n, shaped, rfl, ?_⟩
      rw [Token.ofNumeral, broken, infinite]
      rfl
  · rintro ⟨n, shaped, rfl, rfl⟩
    unfold Token.ofNumeral
    split
    · next whole =>
      split
      · next i found => exact .integer shaped whole (Numeral.toInt64?_eq_some_iff.mp found)
      · next none =>
        apply Lexeme.largeInteger shaped whole
        intro i same
        rw [Numeral.toInt64?_eq_some_iff.mpr same] at none
        cases none
    · next broken =>
      have broken := Bool.eq_false_iff.mpr broken
      split
      · next finite => exact .decimal shaped broken finite
      · next infinite => exact .largeDecimal shaped broken (Bool.eq_false_iff.mpr infinite)

theorem lexeme_string_iff {w : List Char} {r : Except LexFault Token} :
    Lexeme .string w r ↔ ∃ quote body, (quote = Quoted.singleQuote ∨ quote = Quoted.doubleQuote) ∧
      Quoted.Body quote body ∧ w = quote :: (body ++ [quote]) ∧
        r = .ok (.literal (.str (.ofList (Quoted.decode body)))) := by
  constructor
  · intro h
    cases h with
    | string delimits escaped => exact ⟨_, _, delimits, escaped, rfl, rfl⟩
  · rintro ⟨quote, body, delimits, escaped, rfl, rfl⟩
    exact .string delimits escaped

theorem symbol_listed {cs : List Char} {t : Token} {n : Nat} (h : Token.symbol cs = some (t, n)) :
    ∃ s, (s, t) ∈ Token.ofSymbol ∧ s.toList <+: cs ∧ s.toList.length = n := by
  unfold Token.symbol at h
  split at h <;> cases h
  · exact ⟨"(", by decide, List.prefix_append ['('] _, rfl⟩
  · exact ⟨")", by decide, List.prefix_append [')'] _, rfl⟩
  · exact ⟨">=", by decide, List.prefix_append ['>', '='] _, rfl⟩
  · exact ⟨">", by decide, List.prefix_append ['>'] _, rfl⟩
  · exact ⟨"<=", by decide, List.prefix_append ['<', '='] _, rfl⟩
  · exact ⟨"<", by decide, List.prefix_append ['<'] _, rfl⟩
  · exact ⟨"!=", by decide, List.prefix_append ['!', '='] _, rfl⟩
  · exact ⟨"==", by decide, List.prefix_append ['=', '='] _, rfl⟩
  · exact ⟨"=", by decide, List.prefix_append ['='] _, rfl⟩

theorem symbol_append_listed {s : String} {t : Token} (h : (s, t) ∈ Token.ofSymbol) (rest : List Char) :
    ∃ u n, Token.symbol (s.toList ++ rest) = some (u, n) ∧ s.toList.length ≤ n := by
  have next : (∃ tail, rest = '=' :: tail) ∨ ∀ tail, rest = '=' :: tail → False := by
    by_cases equal : ∃ tail, rest = '=' :: tail
    · exact .inl equal
    · exact .inr fun tail same => equal ⟨tail, same⟩
  simp only [Token.ofSymbol, List.mem_cons, Prod.mk.injEq, List.not_mem_nil, or_false] at h
  rcases h with h | h | h | h | h | h | h | h | h <;> obtain ⟨rfl, rfl⟩ := h
  · exact ⟨_, 1, rfl, Nat.le_refl 1⟩
  · exact ⟨_, 1, rfl, Nat.le_refl 1⟩
  · exact ⟨_, 2, rfl, Nat.le_refl 2⟩
  · rcases next with ⟨tail, rfl⟩ | other
    · exact ⟨_, 2, rfl, Nat.le_succ 1⟩
    · exact ⟨_, 1, Token.symbol.eq_4 rest other, Nat.le_refl 1⟩
  · exact ⟨_, 2, rfl, Nat.le_refl 2⟩
  · rcases next with ⟨tail, rfl⟩ | other
    · exact ⟨_, 2, rfl, Nat.le_succ 1⟩
    · exact ⟨_, 1, Token.symbol.eq_6 rest other, Nat.le_refl 1⟩
  · exact ⟨_, 2, rfl, Nat.le_refl 2⟩
  · exact ⟨_, 2, rfl, Nat.le_refl 2⟩
  · rcases next with ⟨tail, rfl⟩ | other
    · exact ⟨_, 2, rfl, Nat.le_succ 1⟩
    · exact ⟨_, 1, Token.symbol.eq_9 rest other, Nat.le_refl 1⟩

theorem lexeme_symbol_iff {w : List Char} {r : Except LexFault Token} :
    Lexeme .symbol w r ↔ ∃ t, Token.symbol w = some (t, w.length) ∧ r = .ok t := by
  constructor
  · intro h
    cases h with
    | symbol listed =>
      obtain ⟨-, -, -, -, -, found⟩ := ofSymbol_spelled _ listed
      exact ⟨_, found, rfl⟩
  · rintro ⟨t, found, rfl⟩
    obtain ⟨s, listed, taken, length⟩ := symbol_listed found
    rw [← taken.eq_of_length length]
    exact .symbol listed

namespace Lexeme

variable {k j : LexemeClass} {w : List Char} {r q : Except LexFault Token}

theorem first (h : Lexeme k w r) : ∃ c tail, w = c :: tail ∧ k = .ofFirst c ∧ isBlank c = false := by
  cases k with
  | word =>
    obtain ⟨c, tail, spelled, start, -⟩ := lexeme_word_iff.mp h
    exact ⟨c, tail, spelled, (LexemeClass.ofFirst_word start).symm, wordStart_visible start⟩
  | number =>
    obtain ⟨n, shaped, rfl, -⟩ := lexeme_number_iff.mp h
    obtain ⟨c, tail, spelled, start⟩ := shaped.first
    exact ⟨c, tail, spelled, (LexemeClass.ofFirst_number start).symm, numberStart_visible start⟩
  | string =>
    obtain ⟨quote, body, delimits, -, rfl, -⟩ := lexeme_string_iff.mp h
    rcases delimits with rfl | rfl <;> exact ⟨_, _, rfl, rfl, rfl⟩
  | symbol =>
    cases h with
    | symbol listed =>
      obtain ⟨c, tail, spelled, class_eq, visible, -⟩ := ofSymbol_spelled _ listed
      exact ⟨c, tail, spelled, class_eq.symm, visible⟩

theorem unique (h : Lexeme k w r) (h' : Lexeme j w q) : r = q := by
  have same : k = j := by
    obtain ⟨c, tail, rfl, class₁, -⟩ := h.first
    obtain ⟨d, _, spelled, class₂, -⟩ := h'.first
    cases spelled
    rw [class₁, class₂]
  subst same
  cases k with
  | word =>
    obtain ⟨_, _, -, -, -, rfl⟩ := lexeme_word_iff.mp h
    obtain ⟨_, _, -, -, -, rfl⟩ := lexeme_word_iff.mp h'
    rfl
  | number =>
    obtain ⟨n, shaped, rfl, rfl⟩ := lexeme_number_iff.mp h
    obtain ⟨m, shaped', spelled, rfl⟩ := lexeme_number_iff.mp h'
    have scanned := Numeral.scan_shaped shaped
    rw [spelled, Numeral.scan_shaped shaped'] at scanned
    cases scanned
    rfl
  | string =>
    obtain ⟨quote, body, delimits, escaped, rfl, rfl⟩ := lexeme_string_iff.mp h
    obtain ⟨quote', body', -, escaped', spelled, rfl⟩ := lexeme_string_iff.mp h'
    obtain ⟨rfl, rest⟩ := List.cons.inj spelled
    have scanned := Quoted.split_body (quote_ne_backslash delimits) escaped []
    rw [rest, Quoted.split_body (quote_ne_backslash delimits) escaped'] at scanned
    cases scanned
    rfl
  | symbol =>
    obtain ⟨t, found, rfl⟩ := lexeme_symbol_iff.mp h
    obtain ⟨u, found', rfl⟩ := lexeme_symbol_iff.mp h'
    rw [found] at found'
    cases found'
    rfl

end Lexeme

end Rulebook
