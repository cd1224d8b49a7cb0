import Rulebook.Proofs.TallTrees

namespace Rulebook.Condition

open Results

variable {n m t : Nat}

theorem step_of_nesting (h : n ≤ m) (s : State) (p : Nat) (u : Token) :
    step ⟨n, t⟩ s p u = step ⟨m, t⟩ s p u ∨ step ⟨n, t⟩ s p u = .error ⟨p, .tooDeep n⟩ := by
  obtain ⟨outer, l, phase⟩ := s
  cases phase with
  | operand =>
    cases u with
    | leftParen =>
      by_cases low : outer.length < n
      · have wide : outer.length < m := Nat.lt_of_lt_of_le low h
        left
        simp only [step, low, wide, ↓reduceIte]
      · right
        simp only [step, low, ↓reduceIte]
    | _ => exact .inl rfl
  | _ => exact .inl rfl

theorem run_of_nesting (h : n ≤ m) (s : State) (ts : Tokens) :
    run ⟨n, t⟩ s ts = run ⟨m, t⟩ s ts ∨ ∃ p, run ⟨n, t⟩ s ts = .error (.parse ⟨p, .tooDeep n⟩) := by
  induction ts generalizing s with
  | done p => exact .inl rfl
  | fault e => exact .inl rfl
  | next p u rest ih =>
    rw [run, run]
    rcases step_of_nesting h s p u with same | stopped
    · rw [same]
      cases step ⟨m, t⟩ s p u with
      | error e => exact .inl rfl
      | ok s' => exact ih s'
    · rw [stopped]
      exact .inr ⟨p, rfl⟩

theorem parse_of_nesting (h : n ≤ m) (text : String) :
    parse ⟨n, t⟩ text = parse ⟨m, t⟩ text ∨ ∃ p, parse ⟨n, t⟩ text = .error (.parse ⟨p, .tooDeep n⟩) := by
  rw [parse, parse]
  cases Tokens.ofString text with
  | done p => exact .inl rfl
  | fault e => exact .inl rfl
  | next p u rest =>
    rcases run_of_nesting (t := t) h .start (.next p u rest) with same | ⟨q, stopped⟩
    · exact .inl (congrArg _ same)
    · exact .inr ⟨q, congrArg (Except.map Node.condition) stopped⟩

theorem parenNesting_least {b : Bounds} {text : String} {c : Condition} (h : parse b text = .ok c)
    (high : c.depth ≤ t) :
    (parenNesting text ≤ n → parse ⟨n, t⟩ text = .ok c) ∧
      (n < parenNesting text → ∃ p, parse ⟨n, t⟩ text = .error (.parse ⟨p, .tooDeep n⟩)) := by
  have denotes := (parse_ok_iff.mp h).1
  have passes {k : Nat} (deep : parenNesting text ≤ k) : parse ⟨k, t⟩ text = .ok c :=
    parse_ok_iff.mpr ⟨denotes, deep, .inl high⟩
  refine ⟨passes, ?_⟩
  intro shallow
  rcases parse_of_nesting (Nat.le_of_lt shallow) text with same | stopped
  · have accepted := same.trans (passes (Nat.le_refl _))
    exact absurd (parse_ok_iff.mp accepted).2.1 (Nat.not_le.mpr shallow)
  · exact stopped

theorem parenNesting_least_sample :
    let text := "((a = ')((') OR b = 2) AND c = 3"
    let c : Condition :=
      .and (.or (.compare "a" .eq (.str ")((")) (.compare "b" .eq (.int 2))) (.compare "c" .eq (.int 3))
    parse ⟨9, 9⟩ text = .ok c ∧ c.depth ≤ 3 ∧ parse ⟨2, 3⟩ text = .ok c ∧
      ∃ p, parse ⟨1, 3⟩ text = .error (.parse ⟨p, .tooDeep 1⟩) := by
  intro text c
  have parsed : parse ⟨9, 9⟩ text = .ok c := by
    apply toOption_eq_some_iff.mp
    decide +kernel
  have nesting : parenNesting text = 2 := by decide +kernel
  have high : c.depth ≤ 3 := by decide
  refine ⟨parsed, high, ?_, ?_⟩
  · exact (parenNesting_least parsed high).1 (Nat.le_of_eq nesting)
  · apply (parenNesting_least parsed high).2
    rw [nesting]
    decide

theorem leafCount_le_size {b : Bounds} {text : String} {c : Condition} (h : parse b text = .ok c) :
    6 * c.leafCount ≤ text.utf8ByteSize + 3 := by
  have leaves := (parse_ok_iff.mp h).1.2.leafCount_le
  have gap := blank_le_one (Tokens.ofString text).plain
  have size := leastSize_plain text
  omega

theorem leafCount_crowdedTree (k : Nat) : (crowdedTree k).leafCount = k + 1 := by
  induction k with
  | zero => rfl
  | succ k ih => rw [crowdedTree, leafCount, ih, leafCount]

theorem exists_crowded_text (k : Nat) :
    ∃ text c, parse ⟨0, k + 1⟩ text = .ok c ∧ c.leafCount = k + 1 ∧ 6 * c.leafCount = text.utf8ByteSize + 3 := by
  refine ⟨_, _, parse_crowded (Nat.lt_succ_self k), leafCount_crowdedTree k, ?_⟩
  rw [leafCount_crowdedTree, size_crowded]
  omega

/-- A comparison takes three bytes and every further one six, so a limit on trees in that proportion to the size of
a text refuses no rule, nor any other text. -/
theorem size_bounds_tree (text : String) :
    (∀ b c, parse b text = .ok c →
        6 * c.leafCount ≤ text.utf8ByteSize + 3 ∧ 6 * c.depth ≤ text.utf8ByteSize + 3) ∧
      ∀ n t, text.utf8ByteSize ≤ n → n ≤ 6 * t + 2 →
        (∀ d u c, parse ⟨d, u⟩ text = .ok c → parse ⟨d, t⟩ text = .ok c) ∧
          ∀ d p k, parse ⟨d, t⟩ text ≠ .error (.parse ⟨p, .treeTooDeep k⟩) := by
  have depth {b : Bounds} {c : Condition} (h : parse b text = .ok c) : 6 * c.depth ≤ text.utf8ByteSize + 3 := by
    have leaves := leafCount_le_size h
    have levels := c.depth_le_leafCount
    omega
  refine ⟨fun b c h => ⟨leafCount_le_size h, depth h⟩, ?_⟩
  intro n t fits short
  constructor
  · intro d u c h
    obtain ⟨denotes, nesting, -⟩ := parse_ok_iff.mp h
    have low : c.depth ≤ t := by
      have levels := depth h
      omega
    exact parse_ok_iff.mpr ⟨denotes, nesting, .inl low⟩
  · intro d p k stopped
    have tall : 6 * max t 1 + 3 ≤ leastSize (Tokens.ofString text).plain := (tall_of_parse stopped).size
    have size := leastSize_plain text
    omega

theorem size_bounds_tree_sample :
    let text := "a=1or b=2and(c=3)"
    let c : Condition :=
      .or (.compare "a" .eq (.int 1)) (.and (.compare "b" .eq (.int 2)) (.compare "c" .eq (.int 3)))
    parse ⟨1, 9⟩ text = .ok c ∧ 6 * c.leafCount ≤ text.utf8ByteSize + 3 ∧ 6 * c.depth ≤ text.utf8ByteSize + 3 ∧
      text.utf8ByteSize ≤ 17 ∧ parse ⟨1, 3⟩ text = .ok c := by
  intro text c
  have parsed : parse ⟨1, 9⟩ text = .ok c := by
    apply toOption_eq_some_iff.mp
    decide +kernel
  obtain ⟨bounds, enough⟩ := size_bounds_tree text
  obtain ⟨leaves, levels⟩ := bounds _ _ parsed
  have size : text.utf8ByteSize ≤ 17 := by decide
  exact ⟨parsed, leaves, levels, size, (enough 17 3 size (by decide)).1 1 9 c parsed⟩

end Rulebook.Condition
