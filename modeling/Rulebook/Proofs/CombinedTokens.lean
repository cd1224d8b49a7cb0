import Rulebook.Proofs.CombinationLimits
import Rulebook.Proofs.PlacedTokens

namespace Rulebook

variable {p : Nat} {us : List (Nat × Token)} {s text : String}

namespace Combination

def further : List String → String
  | [] => ""
  | s :: rest => " AND " ++ wrapped s ++ further rest

def ahead : List String → String
  | [] => ""
  | first :: rest => source first rest ++ " AND "

def wrappedTokens (p : Nat) (s : String) : List (Nat × Token) :=
  (p, .leftParen) :: (tokensFrom (p + 1) s ++ [(p + 1 + s.utf8ByteSize, .rightParen)])

def furtherTokens (p : Nat) : List String → List (Nat × Token)
  | [] => []
  | s :: rest => (p + 1, .and) :: (wrappedTokens (p + 5) s ++ furtherTokens (p + 5 + (wrapped s).utf8ByteSize) rest)

def sourceTokens (first : String) (rest : List String) : List (Nat × Token) :=
  wrappedTokens 0 first ++ furtherTokens (wrapped first).utf8ByteSize rest

theorem wrapped_toList (s : String) : (wrapped s).toList = '(' :: (s.toList ++ [')']) := by
  simp [wrapped]

theorem wrapped_size (s : String) : (wrapped s).utf8ByteSize = s.utf8ByteSize + 2 := by
  simp only [wrapped, String.utf8ByteSize_append]
  change 1 + s.utf8ByteSize + 1 = _
  omega

theorem foldl_eq_append (text : String) (rest : List String) :
    rest.foldl (fun text s => text ++ " AND (" ++ s ++ ")") text = text ++ further rest := by
  induction rest generalizing text with
  | nil => simp [further]
  | cons s rest ih =>
    have joint : " AND (" = " AND " ++ "(" := rfl
    rw [List.foldl_cons, ih, further, wrapped, joint]
    simp only [String.append_assoc]

theorem source_eq_append (first : String) (rest : List String) : source first rest = wrapped first ++ further rest :=
  foldl_eq_append _ rest

theorem cutAt_wrapped (clean : (Tokens.ofString s).error? = none)
    (h : CutAt (p + (wrapped s).utf8ByteSize) text.toList us) :
    CutAt p (wrapped s ++ text).toList (wrappedTokens p s ++ us) := by
  have spelled : (wrapped s ++ text).toList = '(' :: (s.toList ++ ')' :: text.toList) := by
    simp [wrapped]
  have behind : p + (wrapped s).utf8ByteSize = p + 1 + byteSize s.toList + 1 := by
    rw [wrapped_size, utf8ByteSize_eq]
    omega
  rw [behind] at h
  rw [spelled, wrappedTokens, List.cons_append, List.append_assoc]
  -- A parenthesis is a token whatever stands behind it, so only the end of the part has to be guarded.
  apply CutAt.token (n := 0) rfl rfl
  apply (cutAt_tokensFrom clean (p + 1)).append (stops_cons stop_rightParen text.toList)
  rw [utf8ByteSize_eq]
  apply CutAt.token (n := 0) rfl rfl
  exact h

theorem cutAt_further {rest : List String} (clean : ∀ s ∈ rest, (Tokens.ofString s).error? = none) (p : Nat) :
    CutAt p (further rest).toList (furtherTokens p rest) := by
  induction rest generalizing p with
  | nil => exact CutAt.nil p
  | cons s rest ih =>
    obtain ⟨here, later⟩ := List.forall_mem_cons.mp clean
    rw [further, String.append_assoc, String.toList_append]
    apply CutAt.conjoin
    apply cutAt_wrapped here
    exact ih later _

theorem cutAt_source {first : String} {rest : List String}
    (clean : ∀ s ∈ first :: rest, (Tokens.ofString s).error? = none) :
    CutAt 0 (source first rest).toList (sourceTokens first rest) := by
  obtain ⟨here, later⟩ := List.forall_mem_cons.mp clean
  rw [source_eq_append]
  apply cutAt_wrapped here
  rw [Nat.zero_add]
  exact cutAt_further later _

theorem source_split {first s : String} {rest before after : List String} (h : first :: rest = before ++ s :: after) :
    source first rest = ahead before ++ "(" ++ s ++ (")" ++ further after) := by
  cases before with
  | nil =>
    cases h
    rw [source_eq_append, wrapped, ahead, String.empty_append, String.append_assoc]
  | cons b before =>
    rw [List.cons_append, List.cons.injEq] at h
    obtain ⟨rfl, rfl⟩ := h
    rw [source, List.foldl_append, ← source, foldl_eq_append, further, wrapped, ahead]
    simp only [String.append_assoc]

theorem cutAt_ahead {before : List String} (clean : ∀ s ∈ before, (Tokens.ofString s).error? = none) :
    ∃ ts, CutAt 0 (ahead before).toList ts := by
  cases before with
  | nil => exact ⟨[], CutAt.nil 0⟩
  | cons first rest =>
    have tail {p : Nat} := (CutAt.nil (p + 5)).conjoin
    simp only [List.append_nil] at tail
    have stop : Stops " AND ".toList := stops_cons stop_space _
    exact ⟨_, (cutAt_source clean).join stop tail⟩

theorem filter_within {ts ms us : List (Nat × Token)} {a b : Nat} (before : ∀ t ∈ ts, t.1 < a)
    (inside : ∀ t ∈ ms, a ≤ t.1 ∧ t.1 < b) (behind : ∀ t ∈ us, b ≤ t.1) :
    (ts ++ (ms ++ us)).filter (fun t => a ≤ t.1 ∧ t.1 < b) = ms := by
  have left : ts.filter (fun t => a ≤ t.1 ∧ t.1 < b) = [] := by
    simp only [List.filter_eq_nil_iff, decide_eq_true_eq]
    intro t ht
    have := before t ht
    omega
  have middle : ms.filter (fun t => a ≤ t.1 ∧ t.1 < b) = ms := by
    simpa only [List.filter_eq_self, decide_eq_true_eq] using inside
  have right : us.filter (fun t => a ≤ t.1 ∧ t.1 < b) = [] := by
    simp only [List.filter_eq_nil_iff, decide_eq_true_eq]
    intro t ht
    have := behind t ht
    omega
  rw [List.filter_append, List.filter_append, left, middle, right, List.nil_append, List.append_nil]

theorem filter_wrapped {ts us : List (Nat × Token)} (clean : (Tokens.ofString s).error? = none)
    (before : ∀ t ∈ ts, t.1 < p) (behind : ∀ t ∈ us, p + (wrapped s).utf8ByteSize ≤ t.1) :
    (ts ++ (wrappedTokens p s ++ us)).filter (fun t => p + 1 ≤ t.1 ∧ t.1 < p + 1 + s.utf8ByteSize) =
      tokensFrom (p + 1) s := by
  have regrouped : ts ++ (wrappedTokens p s ++ us) =
      (ts ++ [(p, .leftParen)]) ++
        (tokensFrom (p + 1) s ++ (p + 1 + s.utf8ByteSize, .rightParen) :: us) := by
    simp [wrappedTokens]
  rw [regrouped]
  apply filter_within
  · simp only [List.forall_mem_append, List.forall_mem_singleton]
    constructor
    · intro t ht
      exact Nat.lt_succ_of_lt (before t ht)
    · exact Nat.lt_succ_self p
  · rw [utf8ByteSize_eq]
    exact (cutAt_tokensFrom clean _).range
  · rw [wrapped_size] at behind
    simp only [List.forall_mem_cons, Nat.le_refl, true_and]
    intro t ht
    have := behind t ht
    omega

theorem tokens_within {before after : List String}
    (clean : ∀ r ∈ before ++ s :: after, (Tokens.ofString r).error? = none) :
    let start := (ahead before ++ "(").utf8ByteSize
    (Tokens.ofString (ahead before ++ "(" ++ s ++ (")" ++ further after))).toList.filter
      (fun t => start ≤ t.1 ∧ t.1 < start + s.utf8ByteSize) = tokensFrom start s := by
  intro start
  obtain ⟨cleanBefore, cleanRest⟩ := List.forall_mem_append.mp clean
  obtain ⟨here, cleanAfter⟩ := List.forall_mem_cons.mp cleanRest
  obtain ⟨ts, first⟩ := cutAt_ahead cleanBefore
  have last := cutAt_further cleanAfter ((ahead before).utf8ByteSize + (wrapped s).utf8ByteSize)
  have stop : Stops (wrapped s ++ further after).toList := by
    rw [String.toList_append, wrapped_toList]
    exact stops_cons stop_leftParen _
  have group := cutAt_wrapped here last
  rw [← Nat.zero_add (ahead before).utf8ByteSize] at group
  have whole := (first.join stop group).toList_eq
  rw [Nat.zero_add] at whole
  have spelled : ahead before ++ "(" ++ s ++ (")" ++ further after) = ahead before ++ (wrapped s ++ further after) := by
    simp only [wrapped, String.append_assoc]
  have start_eq : start = (ahead before).utf8ByteSize + 1 := String.utf8ByteSize_append
  rw [start_eq, spelled, Tokens.ofString, whole]
  apply filter_wrapped here
  · intro t ht
    have inside := (first.range t ht).2
    rw [Nat.zero_add, ← utf8ByteSize_eq] at inside
    exact inside
  · intro t ht
    exact (last.range t ht).1

/-- The text of a combination is cut into the tokens of its parts, each moved by the bytes that stand before its part,
with parentheses and AND between the parts, and it has no fault. No part gains or loses a token at its ends. -/
theorem source_tokens {first : String} {rest : List String}
    (clean : ∀ s ∈ first :: rest, (Tokens.ofString s).error? = none) :
    let text := source first rest
    text = " AND ".intercalate ((first :: rest).map fun s => "(" ++ s ++ ")") ∧
      Tokens.ofString text = .prepend (sourceTokens first rest) (.done text.utf8ByteSize) ∧
        ∀ before s after, first :: rest = before ++ s :: after →
          let start := (ahead before ++ "(").utf8ByteSize
          text = ahead before ++ "(" ++ s ++ (")" ++ further after) ∧
            (Tokens.ofString text).toList.filter (fun t => start ≤ t.1 ∧ t.1 < start + s.utf8ByteSize) =
              tokensFrom start s := by
  intro text
  refine ⟨source_eq_intercalate first rest, ?_, ?_⟩
  · have cut := cutAt_source clean
    rw [CutAt, Nat.zero_add, ← utf8ByteSize_eq] at cut
    exact cut
  · intro before s after split start
    have spelled : text = _ := source_split split
    rw [spelled]
    rw [split] at clean
    exact ⟨rfl, tokens_within clean⟩

theorem source_tokens_sample :
    let rest := ["", "b>", "c='é) AND (\\''"]
    let text := source "a=-1" rest
    (∀ s ∈ "a=-1" :: rest, (Tokens.ofString s).error? = none) ∧ text = "(a=-1) AND () AND (b>) AND (c='é) AND (\\'')" ∧
      Tokens.ofString text = .prepend
        [(0, .leftParen), (1, .ident "a"), (2, .op .eq), (3, .literal (.int (-1))), (5, .rightParen), (7, .and),
          (11, .leftParen), (12, .rightParen), (14, .and), (18, .leftParen), (19, .ident "b"), (20, .op .gt),
          (21, .rightParen), (23, .and), (27, .leftParen), (28, .ident "c"), (29, .op .eq),
          (30, .literal (.str "é) AND ('")), (43, .rightParen)] (.done 44) ∧
        (Tokens.ofString text).toList.filter (fun t => 19 ≤ t.1 ∧ t.1 < 21) = [(19, .ident "b"), (20, .op .gt)] := by
  intro rest text
  have clean : ∀ s ∈ "a=-1" :: rest, (Tokens.ofString s).error? = none := by decide +kernel
  obtain ⟨-, cut, within⟩ := source_tokens clean
  obtain ⟨-, inside⟩ := within ["a=-1", ""] "b>" ["c='é) AND (\\''"] rfl
  have start : (ahead ["a=-1", ""] ++ "(").utf8ByteSize = 19 := by decide +kernel
  rw [start] at inside
  refine ⟨clean, rfl, cut.trans ?_, inside.trans ?_⟩
  · decide +kernel
  · decide +kernel

end Combination

end Rulebook
