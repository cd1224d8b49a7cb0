import Rulebook.Engine
import Rulebook.Proofs.FlatScan
import Rulebook.Proofs.ParserStops
import Rulebook.Proofs.TextSize

/-!
Trees that are too tall. Where the parser refuses a text for the height of a tree, some of its tokens make up such
a tree, so the text has the bytes that they need. A chain of short comparisons has no more, and it shows which
limits on lengths make the limit on trees needless.
-/

namespace Rulebook

open Condition Results

variable {b : Bounds} {n : Node} {l : Level} {e : ParseError} {ts us vs ws : List Token}

theorem Bounds.not_admits_iff {c : Condition} : ¬b.Admits c ↔ b.tree < c.depth ∧ c.isLeaf = false := by
  rw [Admits, not_or, Nat.not_le, Bool.not_eq_true]

def Tall (b : Bounds) (ts : List Token) : Prop := ∃ r us c, us <:+: ts ∧ Phrase r us c ∧ ¬b.Admits c

theorem Tall.mono (h : Tall b ts) (part : ts <:+: us) : Tall b us := by
  obtain ⟨r, vs, c, inner, phrase, high⟩ := h
  exact ⟨r, vs, c, inner.trans part, phrase, high⟩

theorem Tall.after (h : Tall b ts) (us : List Token) : Tall b (us ++ ts) := h.mono (List.suffix_append us ts).isInfix

theorem Tall.before (h : Tall b ts) (us : List Token) : Tall b (ts ++ us) := h.mono (List.prefix_append ts us).isInfix

theorem Tall.size (h : Tall b ts) : 6 * max b.tree 1 + 3 ≤ leastSize ts := by
  obtain ⟨r, us, c, part, phrase, high⟩ := h
  obtain ⟨deep, inner⟩ := Bounds.not_admits_iff.mp high
  have joined := two_le_depth inner
  have leaves := c.depth_le_leafCount
  have size := phrase.leafCount_le
  have gap := blank_le_one us
  have whole := leastSize_mono part
  omega

namespace Condition

theorem checkHeight_not_admits {p : Nat} (inner : n.condition.isLeaf = false) (h : checkHeight b p n = .error e) :
    ¬b.Admits n.condition := by
  unfold checkHeight at h
  split at h
  · cases h
  · next high =>
    rw [n.height_eq] at high
    exact Bounds.not_admits_iff.mpr ⟨Nat.not_le.mp high, inner⟩

theorem conjoin_tall (hv : Before .conjunction .and l.conjunction vs) (hw : Phrase .operand ws n.condition)
    (h : l.conjoin b n = .error e) : Tall b (vs ++ ws) := by
  unfold Level.conjoin at h
  split at h
  · cases h
  · next w waiting =>
    rw [waiting] at hv
    obtain ⟨us, rfl, hu⟩ := hv
    rw [List.append_assoc]
    exact ⟨_, _, _, List.infix_refl _, .and hu hw, checkHeight_not_admits rfl h⟩

theorem disjoin_tall (hu : Before .disjunction .or l.disjunction us) (hw : Phrase .conjunction ws n.condition)
    (h : l.disjoin b n = .error e) : Tall b (us ++ ws) := by
  unfold Level.disjoin at h
  split at h
  · cases h
  · next w waiting =>
    rw [waiting] at hu
    obtain ⟨vs, rfl, hv⟩ := hu
    rw [List.append_assoc]
    exact ⟨_, _, _, List.infix_refl _, .or hv hw, checkHeight_not_admits rfl h⟩

theorem close_tall (hl : l.Spells ts) (hw : Phrase .operand ws n.condition) (h : l.close b n = .error e) :
    Tall b (ts ++ ws) := by
  obtain ⟨us, vs, rfl, hu, hv⟩ := hl
  rw [List.append_assoc]
  rcases bind_error_iff.mp h with unjoined | ⟨k, joined, undisjoined⟩
  · exact (conjoin_tall hv hw unjoined).after us
  · exact disjoin_tall hu (conjoin_phrase hv hw joined) undisjoined

theorem Refusal.tall_tokens {s : State} {p q k : Nat} {found : Option Token} (h : Refusal b s p found ⟨q, .treeTooDeep k⟩)
    (spells : s.Spells ts) : Tall b ts := by
  obtain ⟨us, vs, ws, rfl, -, level, phase⟩ := spells
  cases h with
  | tall outer p found high =>
    rw [List.append_assoc]
    exact (close_tall level phase high).after us

theorem tall_of_parse {text : String} {q k : Nat} (h : parse b text = .error (.parse ⟨q, .treeTooDeep k⟩)) :
    Tall b (Tokens.ofString text).plain := by
  rcases parse_halts h with ⟨p, -, same⟩ | ⟨seen, rest, s, tokens, advanced, halts⟩
  · cases same
  · have spells := advance_spells advanced
    have tall : Tall b (seen.map Prod.snd) := by
      cases halts with
      | refused rest refusal => exact refusal.tall_tokens spells
      | unfinished refusal => exact refusal.tall_tokens spells
    rw [tokens, Tokens.plain, Tokens.toList_prepend, List.map_append]
    exact tall.before _

theorem parse_taller {text : String} {c : Condition} (h : Denotes text c) (nesting : parenNesting text ≤ b.nesting)
    (high : ¬b.Admits c) : ∃ p, parse b text = .error (.parse ⟨p, .treeTooDeep b.tree⟩) := by
  -- Bounds that let the tree pass show that the scan finds no fault.
  let d : Bounds := ⟨b.nesting, c.depth⟩
  have passes : parse d text = .ok c := parse_ok_iff.mpr ⟨h, nesting, .inl (Nat.le_refl _)⟩
  have clean : FlatScan.start.scan b.nesting (.ofString text) = .ok () := by
    rcases ofTokens_eq_scan d (.ofString text) with ⟨e, stopped, -⟩ | same
    · rw [parse, stopped] at passes
      cases passes
    · rw [parse_ok_iff_tokens.mp passes] at same
      exact same.symm
  rcases ofTokens_eq_scan b (.ofString text) with ⟨⟨p, fault⟩, stopped, rfl⟩ | same
  · refine ⟨p, ?_⟩
    rw [parse, stopped]
    rfl
  · rw [clean] at same
    obtain ⟨n, built, -⟩ := map_ok_iff.mp same
    have parsed : parse b text = .ok n.condition := by
      rw [parse, built]
      rfl
    obtain ⟨denotes, -, admits⟩ := parse_ok_iff.mp parsed
    rw [h.2.unique denotes.2] at high
    exact absurd admits high

def crowded : Nat → List Char
  | 0 => ['a', '=', '1']
  | n + 1 => ['a', '=', '1', 'o', 'r', ' '] ++ crowded n

def crowdedTokens : Nat → List Token
  | 0 => [.ident "a", .op .eq, .literal (.int 1)]
  | n + 1 => [.ident "a", .op .eq, .literal (.int 1), .or] ++ crowdedTokens n

def crowdedTree : Nat → Condition
  | 0 => .compare "a" .eq (.int 1)
  | n + 1 => .or (crowdedTree n) (.compare "a" .eq (.int 1))

theorem byteSize_crowded (n : Nat) : byteSize (crowded n) = 6 * n + 3 := by
  induction n with
  | zero => rfl
  | succ n ih =>
    rw [crowded, byteSize_append, ih]
    change 6 + _ = _
    omega

theorem size_crowded (n : Nat) : (String.ofList (crowded n)).utf8ByteSize = 6 * n + 3 := by
  rw [utf8ByteSize_ofList, byteSize_crowded]

theorem depth_crowdedTree (n : Nat) : (crowdedTree n).depth = n + 1 := by
  induction n with
  | zero => rfl
  | succ n ih =>
    rw [crowdedTree, depth, ih, depth]
    omega

theorem lexes_comparison {rest : List Char} (h : Lexes rest ts)
    (number : Token.scan '1' rest = .ok (.literal (.int 1), 0)) :
    Lexes (['a', '=', '1'] ++ rest) ([.ident "a", .op .eq, .literal (.int 1)] ++ ts) := by
  apply Lexes.token (n := 0) rfl rfl
  apply Lexes.token (n := 0) rfl rfl
  exact .token rfl number h

theorem lexes_crowded (n : Nat) : Lexes (crowded n) (crowdedTokens n) := by
  induction n with
  | zero => exact lexes_comparison .nil rfl
  | succ n ih =>
    have rest : Lexes (['o', 'r', ' '] ++ crowded n) (.or :: crowdedTokens n) := by
      apply Lexes.token (n := 1) rfl rfl
      exact ih.blank rfl
    exact lexes_comparison rest rfl

theorem crowdedTokens_last (n : Nat) :
    crowdedTokens (n + 1) = crowdedTokens n ++ .or :: [.ident "a", .op .eq, .literal (.int 1)] := by
  induction n with
  | zero => rfl
  | succ n ih => exact congrArg ([.ident "a", .op .eq, .literal (.int 1), .or] ++ ·) ih

theorem phrase_crowded (n : Nat) : Phrase .disjunction (crowdedTokens n) (crowdedTree n) := by
  have leaf := Phrase.single (.compare "a" .eq (.int 1))
  induction n with
  | zero => exact .alone leaf
  | succ n ih =>
    rw [crowdedTokens_last]
    exact .or ih leaf

theorem tokenNesting_crowded (n : Nat) : tokenNesting (crowdedTokens n) = 0 := by
  induction n with
  | zero => rfl
  | succ n ih => exact ih

theorem lexes_ofList_crowded (n : Nat) : Lexes (String.ofList (crowded n)).toList (crowdedTokens n) := by
  rw [String.toList_ofList]
  exact lexes_crowded n

theorem denotes_crowded (n : Nat) : Denotes (.ofList (crowded n)) (crowdedTree n) :=
  denotes_of_lexes (lexes_ofList_crowded n) (phrase_crowded n)

theorem parenNesting_crowded (n : Nat) : parenNesting (.ofList (crowded n)) = 0 := by
  have plain : (Tokens.ofString (.ofList (crowded n))).plain = crowdedTokens n := (lexes_ofList_crowded n).plain 0
  rw [parenNesting_eq, plain, tokenNesting_crowded]

theorem parse_crowded {n : Nat} (high : n < b.tree) : parse b (.ofList (crowded n)) = .ok (crowdedTree n) := by
  apply parse_ok_iff.mpr
  rw [parenNesting_crowded, Bounds.Admits, depth_crowdedTree]
  exact ⟨denotes_crowded n, Nat.zero_le _, .inl high⟩

theorem parse_crowded_taller {n : Nat} (joined : 1 ≤ n) (low : b.tree ≤ n) :
    ∃ p, parse b (.ofList (crowded n)) = .error (.parse ⟨p, .treeTooDeep b.tree⟩) := by
  apply parse_taller (denotes_crowded n)
  · rw [parenNesting_crowded]
    exact Nat.zero_le _
  · cases n with
    | zero => cases joined
    | succ n =>
      apply Bounds.not_admits_iff.mpr
      rw [depth_crowdedTree]
      exact ⟨Nat.lt_succ_of_le low, rfl⟩

end Condition

namespace Engine

theorem parse_text_error_iff {l : Limits} {text : String} {e : TextError} :
    parse l text = .error (.text e) ↔
      text.utf8ByteSize ≤ l.ruleLength ∧ Condition.parse l.toBounds text = .error e := by
  unfold parse
  split
  · next long => simp [Nat.not_le.mpr long]
  · next short =>
    rw [mapError_error_iff]
    simp [Nat.not_lt.mp short]

theorem create_text_error_iff {e : Engine} {text : String} {f : TextError} :
    e.create text = .error (.text f) ↔ parse e.limits text = .error (.text f) := by
  rw [create, bind_error_iff]
  constructor
  · rintro (unparsed | ⟨c, -, returned⟩)
    · exact unparsed
    · cases returned
  · exact .inl

theorem modify_text_error_iff {e : Engine} {i : RuleId} {text : String} {f : TextError} :
    e.modify i text = .error (.text f) ↔ parse e.limits text = .error (.text f) := by
  rw [modify, bind_error_iff]
  constructor
  · rintro (unparsed | ⟨c, -, later⟩)
    · exact unparsed
    · rcases bind_error_iff.mp later with unreplaced | ⟨s, -, returned⟩
      · obtain ⟨d, -, same⟩ := mapError_error_iff.mp unreplaced
        cases d <;> cases same
      · cases returned
  · exact .inl

theorem create_crowded (e : Engine) {n : Nat} (joined : 1 ≤ n) (low : e.limits.tree ≤ n)
    (fits : 6 * n + 3 ≤ e.limits.ruleLength) :
    ∃ p, e.create (.ofList (crowded n)) = .error (.text (.parse ⟨p, .treeTooDeep e.limits.tree⟩)) := by
  obtain ⟨p, stopped⟩ := parse_crowded_taller (b := e.limits.toBounds) joined low
  rw [← size_crowded] at fits
  exact ⟨p, create_text_error_iff.mpr (parse_text_error_iff.mpr ⟨fits, stopped⟩)⟩

/-- The limit on trees is enough for every text within the limit on lengths exactly if the latter allows no more
bytes than this: the first comparison takes three bytes and every further one takes six. -/
theorem tree_limit_suffices_iff (e : Engine) :
    (∀ text p n, e.create text ≠ .error (.text (.parse ⟨p, .treeTooDeep n⟩)) ∧
      ∀ i, e.modify i text ≠ .error (.text (.parse ⟨p, .treeTooDeep n⟩))) ↔
        e.limits.ruleLength ≤ 6 * max e.limits.tree 1 + 2 := by
  constructor
  · intro enough
    by_contra long
    obtain ⟨p, stopped⟩ := create_crowded e (Nat.le_max_right _ 1) (Nat.le_max_left _ 1) (by omega)
    exact (enough _ p _).1 stopped
  · intro short text p n
    have parses : parse e.limits text ≠ .error (.text (.parse ⟨p, .treeTooDeep n⟩)) := by
      intro refused
      obtain ⟨fits, stopped⟩ := parse_text_error_iff.mp refused
      have size := (tall_of_parse stopped).size
      have least := leastSize_plain text
      omega
    exact ⟨mt create_text_error_iff.mp parses, fun i => mt modify_text_error_iff.mp parses⟩

theorem standard_tree_limit_falls_short :
    let text := String.ofList (crowded 512)
    text.utf8ByteSize ≤ ({} : Limits).ruleLength ∧
      Condition.parse { tree := 513 } text = .ok (crowdedTree 512) ∧
        ∃ p, (new {}).create text = .error (.text (.parse ⟨p, .treeTooDeep 512⟩)) := by
  intro text
  have size : text.utf8ByteSize = 6 * 512 + 3 := size_crowded 512
  refine ⟨?_, parse_crowded (by decide), create_crowded (new {}) (by decide) (by decide) (by decide)⟩
  rw [size]
  decide

end Engine

end Rulebook
