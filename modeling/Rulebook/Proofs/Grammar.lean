import Rulebook.Combination

namespace Rulebook

inductive Rank
  | disjunction
  | conjunction
  | operand

/-- A chain is its beginning joined with its last member, so chains fold to the left. -/
inductive Phrase : Rank → List Token → Condition → Prop
  | compare (f : String) (o : Operator) (v : Value) :
    Phrase .operand [.ident f, .op o, .literal v] (.compare f o v)
  | group {ts : List Token} {c : Condition} :
    Phrase .disjunction ts c → Phrase .operand (.leftParen :: (ts ++ [.rightParen])) c
  | single {ts : List Token} {c : Condition} :
    Phrase .operand ts c → Phrase .conjunction ts c
  | and {ts us : List Token} {a b : Condition} :
    Phrase .conjunction ts a → Phrase .operand us b → Phrase .conjunction (ts ++ .and :: us) (.and a b)
  | alone {ts : List Token} {c : Condition} :
    Phrase .conjunction ts c → Phrase .disjunction ts c
  | or {ts us : List Token} {a b : Condition} :
    Phrase .disjunction ts a → Phrase .conjunction us b → Phrase .disjunction (ts ++ .or :: us) (.or a b)

namespace Tokens

def plain (ts : Tokens) : List Token := ts.toList.map Prod.snd

def ofPlain (ts : List Token) : Tokens := ts.foldr (next 0) (done 0)

theorem plain_ofPlain (ts : List Token) : (ofPlain ts).plain = ts := by
  induction ts with
  | nil => rfl
  | cons t ts ih => exact congrArg (t :: ·) ih

theorem error?_ofPlain (ts : List Token) : (ofPlain ts).error? = none := by
  induction ts with
  | nil => rfl
  | cons t ts ih => exact ih

end Tokens

def tokenNesting (ts : List Token) : Nat := deepest 0 (ts.filterMap Token.bracket?)

theorem parenNesting_eq (text : String) : parenNesting text = tokenNesting (Tokens.ofString text).plain := by
  rw [parenNesting, tokenNesting, Tokens.plain, List.filterMap_map]
  rfl

def Bounds.Admits (b : Bounds) (c : Condition) : Prop := c.depth ≤ b.tree ∨ c.isLeaf = true

theorem Condition.depth_of_isLeaf {c : Condition} (h : c.isLeaf = true) : c.depth = 1 := by
  cases c with
  | compare f o v => rfl
  | and a b => cases h
  | or a b => cases h

theorem Bounds.Admits.of_lt {b : Bounds} {c d : Condition} (h : b.Admits d) (hd : d.isLeaf = false)
    (hc : c.depth < d.depth) : b.Admits c := by
  rcases h with h | h
  · exact .inl (by omega)
  · rw [hd] at h
    cases h

namespace Bounds.Admits

theorem left_and {b : Bounds} {c d : Condition} (h : b.Admits (.and c d)) : b.Admits c :=
  h.of_lt rfl (by rw [Condition.depth]; omega)

theorem right_and {b : Bounds} {c d : Condition} (h : b.Admits (.and c d)) : b.Admits d :=
  h.of_lt rfl (by rw [Condition.depth]; omega)

theorem left_or {b : Bounds} {c d : Condition} (h : b.Admits (.or c d)) : b.Admits c :=
  h.of_lt rfl (by rw [Condition.depth]; omega)

theorem right_or {b : Bounds} {c d : Condition} (h : b.Admits (.or c d)) : b.Admits d :=
  h.of_lt rfl (by rw [Condition.depth]; omega)

end Bounds.Admits

theorem deepest_ge (depth : Nat) (bs : List Bracket) : depth ≤ deepest depth bs := by
  cases bs with
  | nil => exact Nat.le_refl _
  | cons x bs => cases x <;> exact Nat.le_max_left _ _

def Balanced (bs : List Bracket) : Prop :=
  ∀ depth rest, deepest depth (bs ++ rest) = max (depth + deepest 0 bs) (deepest depth rest)

namespace Balanced

theorem nil : Balanced [] := by
  intro depth rest
  have h := deepest_ge depth rest
  simp only [List.nil_append, deepest]
  omega

theorem deepest_append {xs : List Bracket} (hx : Balanced xs) (ys : List Bracket) :
    deepest 0 (xs ++ ys) = max (deepest 0 xs) (deepest 0 ys) := by
  rw [hx 0 ys, Nat.zero_add]

theorem append {xs ys : List Bracket} (hx : Balanced xs) (hy : Balanced ys) : Balanced (xs ++ ys) := by
  intro depth rest
  rw [List.append_assoc, hx, hy, deepest_append hx]
  omega

theorem deepest_wrap {xs : List Bracket} (hx : Balanced xs) :
    deepest 0 (.opening :: (xs ++ [.closing])) = deepest 0 xs + 1 := by
  simp only [deepest, hx 1]
  omega

theorem wrap {xs : List Bracket} (hx : Balanced xs) : Balanced (.opening :: (xs ++ [.closing])) := by
  intro depth rest
  have h := deepest_ge depth rest
  rw [deepest_wrap hx, List.cons_append, List.append_assoc]
  simp only [deepest, hx (depth + 1), List.cons_append, List.nil_append, Nat.add_sub_cancel]
  omega

end Balanced

theorem tokenNesting_group {ts : List Token} (h : Balanced (ts.filterMap Token.bracket?)) :
    tokenNesting (.leftParen :: (ts ++ [.rightParen])) = tokenNesting ts + 1 := by
  simpa only [tokenNesting, List.filterMap_cons, List.filterMap_append, List.filterMap_nil,
    Token.bracket?] using h.deepest_wrap

theorem tokenNesting_join {ts us : List Token} (h : Balanced (ts.filterMap Token.bracket?)) (t : Token)
    (ht : t.bracket? = none) : tokenNesting (ts ++ t :: us) = max (tokenNesting ts) (tokenNesting us) := by
  simpa only [tokenNesting, List.filterMap_append, List.filterMap_cons, ht] using h.deepest_append _

theorem Phrase.balanced {r : Rank} {ts : List Token} {c : Condition} (h : Phrase r ts c) :
    Balanced (ts.filterMap Token.bracket?) := by
  induction h with
  | compare f o v => exact Balanced.nil
  | group h ih =>
    simpa only [List.filterMap_cons, List.filterMap_append, List.filterMap_nil, Token.bracket?] using ih.wrap
  | single h ih => exact ih
  | and ha hb iha ihb =>
    simpa only [List.filterMap_append, List.filterMap_cons, Token.bracket?] using iha.append ihb
  | alone h ih => exact ih
  | or ha hb iha ihb =>
    simpa only [List.filterMap_append, List.filterMap_cons, Token.bracket?] using iha.append ihb

end Rulebook
