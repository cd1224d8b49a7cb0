import Rulebook.Proofs.ParserStops
import Rulebook.Proofs.TallTrees
import Rulebook.Proofs.TiledTexts

/-!
The parser blames no text before the point where it goes wrong. What stands before that point has tokens that led to a
state, and every state can be completed: by the rest of a comparison, and by the parentheses that are still open.
-/

namespace Rulebook

open Results

def Tokens.position : Tokens → Nat
  | done n => n
  | fault e => e.position
  | next n _ _ => n

theorem Tiles.cut {p : Nat} {cs : List Char} {seen : List (Nat × Token)} {rest : Tokens}
    (h : Tiles p cs (.prepend seen rest)) :
    ∃ before after, cs = before ++ after ∧ rest.position = p + byteSize before ∧
      Tiles p before (.prepend seen (.done rest.position)) := by
  induction seen generalizing p cs with
  | nil =>
    change Tiles p cs rest at h
    cases h with
    | done _ _ all => exact ⟨cs, [], (List.append_nil cs).symm, rfl, .done p cs all⟩
    | fault _ gap all visible faulty => exact ⟨gap, _, rfl, rfl, .done p gap all⟩
    | next _ gap all longest later => exact ⟨gap, _, rfl, rfl, .done p gap all⟩
  | cons t seen ih =>
    obtain ⟨n, t⟩ := t
    change Tiles p cs (.next n t (.prepend seen rest)) at h
    cases h with
    | @next _ gap w cs _ _ all longest later =>
      obtain ⟨before, after, rfl, stands, tiles⟩ := ih later
      refine ⟨gap ++ (w ++ before), after, by simp only [List.append_assoc], ?_, ?_⟩
      · rw [stands, byteSize_append, byteSize_append, ← Nat.add_assoc, ← Nat.add_assoc]
      · -- The lexeme is whole before the cut, so it is the longest there as well.
        apply Tiles.next p gap all _ tiles
        apply longest.of_prefix (List.prefix_append w before)
        rw [← List.append_assoc]
        exact List.prefix_append _ after

theorem exists_firstBytes {text : String} {seen : List (Nat × Token)} {rest : Tokens}
    (h : Tokens.ofString text = .prepend seen rest) :
    ∃ before, FirstBytes text rest.position before ∧ Tokens.ofString before = .prepend seen (.done rest.position) := by
  have tiles := tiles_scan 0 text.toList
  change Tiles 0 text.toList (.ofString text) at tiles
  rw [h] at tiles
  obtain ⟨before, after, cut, stands, tiles⟩ := tiles.cut
  refine ⟨.ofList before, ?_, ?_⟩
  · rw [stands, Nat.zero_add]
    exact firstBytes_of_cut cut
  · rw [Tokens.ofString, String.toList_ofList]
    exact scan_of_tiles tiles

theorem deepest_closing (depth k : Nat) : deepest depth (List.replicate k .closing) = depth := by
  induction k generalizing depth with
  | zero => rfl
  | succ k ih =>
    rw [List.replicate_succ, deepest, ih]
    omega

namespace Condition

variable {b : Bounds} {s s' : State} {ts us vs ws : List Token} {c : Condition}

def Phase.lacks : Phase → List Token
  | operand => [.ident "a", .op .eq, .literal (.int 1)]
  | operator _ => [.op .eq, .literal (.int 1)]
  | value _ _ => [.literal (.int 1)]
  | connective _ => []

def Phase.lackingText : Phase → List Char
  | operand => "a = 1".toList
  | operator _ => "= 1".toList
  | value _ _ => "1".toList
  | connective _ => []

def State.lacks (s : State) : List Token := s.phase.lacks ++ List.replicate s.outer.length .rightParen

def State.lackingText (s : State) : List Char := s.phase.lackingText ++ List.replicate s.outer.length ')'

theorem Phase.Spells.complete {phase : Phase} (h : phase.Spells ws) : ∃ c, Phrase .operand (ws ++ phase.lacks) c := by
  cases phase with
  | operand =>
    cases h
    exact ⟨_, .compare "a" .eq (.int 1)⟩
  | operator f =>
    cases h
    exact ⟨_, .compare f .eq (.int 1)⟩
  | value f o =>
    cases h
    exact ⟨_, .compare f o (.int 1)⟩
  | connective n =>
    rw [lacks, List.append_nil]
    exact ⟨_, h⟩

theorem Before.conjoin {x : Option Waiting} (h : Before .conjunction .and x vs) (hw : Phrase .operand ws c) :
    ∃ d, Phrase .conjunction (vs ++ ws) d := by
  cases x with
  | none =>
    cases h
    exact ⟨c, .single hw⟩
  | some w =>
    obtain ⟨us, rfl, left⟩ := h
    rw [List.append_assoc]
    exact ⟨_, .and left hw⟩

theorem Before.disjoin {x : Option Waiting} (h : Before .disjunction .or x us) (hw : Phrase .conjunction ws c) :
    ∃ d, Phrase .disjunction (us ++ ws) d := by
  cases x with
  | none =>
    cases h
    exact ⟨c, .alone hw⟩
  | some w =>
    obtain ⟨vs, rfl, left⟩ := h
    rw [List.append_assoc]
    exact ⟨_, .or left hw⟩

theorem Level.Spells.complete {l : Level} (h : l.Spells vs) (hw : Phrase .operand ws c) :
    ∃ d, Phrase .disjunction (vs ++ ws) d := by
  obtain ⟨us, vs, rfl, disjunction, conjunction⟩ := h
  obtain ⟨d, joined⟩ := conjunction.conjoin hw
  rw [List.append_assoc]
  exact disjunction.disjoin joined

theorem Surroundings.complete {outer : List (Nat × Level)} (h : Surroundings outer us)
    (hw : Phrase .disjunction ws c) :
    ∃ d, Phrase .disjunction (us ++ (ws ++ List.replicate outer.length .rightParen)) d := by
  induction outer generalizing us ws c with
  | nil =>
    cases h
    exact ⟨c, by rwa [List.nil_append, List.length_nil, List.replicate_zero, List.append_nil]⟩
  | cons x outer ih =>
    obtain ⟨us, vs, rfl, surroundings, level⟩ := h
    -- In its parentheses the rule is an operand of the level around it.
    obtain ⟨d, closed⟩ := level.complete (.group hw)
    obtain ⟨e, whole⟩ := ih surroundings closed
    refine ⟨e, ?_⟩
    simpa [List.replicate_succ] using whole

theorem State.Spells.complete (h : s.Spells ts) : ∃ c, Phrase .disjunction (ts ++ s.lacks) c := by
  obtain ⟨us, vs, ws, rfl, surroundings, level, phase⟩ := h
  obtain ⟨c, operand⟩ := phase.complete
  obtain ⟨d, closed⟩ := level.complete operand
  obtain ⟨e, whole⟩ := surroundings.complete closed
  refine ⟨e, ?_⟩
  simpa [State.lacks] using whole

theorem bracket_lacks (s : State) :
    s.lacks.filterMap Token.bracket? = List.replicate s.outer.length .closing := by
  have phase : s.phase.lacks.filterMap Token.bracket? = [] := by
    cases s.phase <;> rfl
  rw [State.lacks, List.filterMap_append, phase, List.nil_append]
  exact List.filterMap_replicate_of_some rfl

theorem tokenNesting_complete {seen : List (Nat × Token)} (h : advance b .start seen = .ok s) :
    tokenNesting (seen.map Prod.snd ++ s.lacks) ≤ b.nesting := by
  apply advance_nesting h (State.start_within b)
  rw [bracket_lacks, deepest_closing]
  exact (advance_within h).nesting

theorem stops_closing (k : Nat) : Stops (List.replicate k ')') := by
  cases k with
  | zero => exact fun _ h => nomatch h
  | succ k => exact stops_cons stop_rightParen _

theorem lexes_closing (k : Nat) : Lexes (List.replicate k ')') (List.replicate k .rightParen) := by
  induction k with
  | zero => exact .nil
  | succ k ih =>
    rw [List.replicate_succ, List.replicate_succ]
    exact .token (n := 0) rfl rfl ih

theorem Phase.lexes_lacking (phase : Phase) : Lexes phase.lackingText phase.lacks := by
  have one : Lexes "1".toList [.literal (.int 1)] := lexes_int 1
  have name : Lexes "a".toList [.ident "a"] := lexes_word rfl rfl
  have equal : Lexes "= 1".toList [.op .eq, .literal (.int 1)] := (lexes_operator .eq).spaced one
  cases phase with
  | operand => exact name.spaced equal
  | operator f => exact equal
  | value f o => exact one
  | connective n => exact .nil

theorem State.lexes_lacking (s : State) : Lexes s.lackingText s.lacks :=
  s.phase.lexes_lacking.append (stops_closing _) (lexes_closing _)

theorem lexes_seen {text : String} {seen : List (Nat × Token)} {p : Nat}
    (h : Tokens.ofString text = .prepend seen (.done p)) : Lexes text.toList (seen.map Prod.snd) := by
  have clean : (Tokens.ofString text).error? = none := by
    rw [h, Tokens.error?_prepend]
    rfl
  have lexes : Lexes text.toList (Tokens.ofString text).plain := lexes_of_scan clean
  rw [h, Tokens.plain, Tokens.toList_prepend] at lexes
  simpa [Tokens.toList] using lexes

theorem denotes_complete {text : String} {seen : List (Nat × Token)} (h : advance b .start seen = .ok s)
    (lexes : Lexes text.toList (seen.map Prod.snd ++ s.lacks)) :
    ∃ c, Denotes text c ∧ parenNesting text ≤ b.nesting := by
  obtain ⟨c, phrase⟩ := (advance_spells h).complete
  refine ⟨c, denotes_of_lexes lexes phrase, ?_⟩
  have plain : (Tokens.ofString text).plain = _ := lexes.plain 0
  rw [parenNesting_eq, plain]
  exact tokenNesting_complete h

def Viable (b : Bounds) (before : String) : Prop := ∃ after tree c, parse ⟨b.nesting, tree⟩ (before ++ after) = .ok c

theorem viable_of_advance {before : String} {seen : List (Nat × Token)} {p : Nat}
    (tokens : Tokens.ofString before = .prepend seen (.done p)) (h : advance b .start seen = .ok s) :
    Viable b before := by
  let after := String.ofList (' ' :: s.lackingText)
  have lexes : Lexes (before ++ after).toList (seen.map Prod.snd ++ s.lacks) := by
    rw [String.toList_append, String.toList_ofList]
    apply (lexes_seen tokens).append (stops_cons stop_space _)
    exact s.lexes_lacking.blank rfl
  obtain ⟨c, denotes, nesting⟩ := denotes_complete h lexes
  exact ⟨after, c.depth, c, parse_ok_iff.mpr ⟨denotes, nesting, .inl (Nat.le_refl _)⟩⟩

theorem parse_of_advance {before : String} {seen : List (Nat × Token)} {p : Nat} {l : Level} {n m : Node}
    (tokens : Tokens.ofString before = .prepend seen (.done p)) (h : advance b .start seen = .ok ⟨[], l, .connective n⟩)
    (closed : l.close b n = .ok m) : parse b before = .ok m.condition := by
  apply parse_ok_iff_tokens.mpr
  rw [← Node.eq_node rfl, ofTokens_ok_iff, tokens]
  apply run_eq_ok_of_advance
  · rw [Tokens.error?_prepend]
    rfl
  · rw [Tokens.toList_prepend, Tokens.toList, List.append_nil]
    exact h
  · intro p
    exact finish_ok_iff.mpr ⟨l, n, rfl, closed⟩

theorem parse_closed {text : String} {seen : List (Nat × Token)} {p : Nat} {outer : List (Nat × Level)} {l : Level}
    {n : Node} (tokens : Tokens.ofString text = .prepend seen (.done p))
    (h : advance b .start seen = .ok ⟨outer, l, .connective n⟩) :
    let closed := text ++ .ofList (List.replicate outer.length ')')
    (∃ c, parse b closed = .ok c) ∨ ∃ q, parse b closed = .error (.parse ⟨q, .treeTooDeep b.tree⟩) := by
  intro closed
  have lexes : Lexes closed.toList (seen.map Prod.snd ++ State.lacks ⟨outer, l, .connective n⟩) := by
    rw [String.toList_append, String.toList_ofList]
    exact (lexes_seen tokens).append (stops_closing _) (lexes_closing _)
  obtain ⟨c, denotes, nesting⟩ := denotes_complete h lexes
  by_cases admits : b.Admits c
  · exact .inl ⟨c, parse_ok_iff.mpr ⟨denotes, nesting, admits⟩⟩
  · exact .inr (parse_taller denotes nesting admits)

inductive StopsAt (text : String) : TextError → Nat → Prop
  | lexeme (e : LexError) : StopsAt text (.lex e) e.position
  | token {e : ParseError} : e.fault ≠ .unclosedParen → StopsAt text (.parse e) e.position
  | unclosed {e : ParseError} : e.fault = .unclosedParen → StopsAt text (.parse e) text.utf8ByteSize
  | empty {e : ParseError} : e.fault = .emptyInput → StopsAt text (.parse e) text.utf8ByteSize

theorem Refusal.position_eq {p : Nat} {found : Option Token} {e : ParseError} (h : Refusal b s p found e)
    (low : e.fault ≠ .treeTooDeep b.tree) (matching : e.fault ≠ .unclosedParen) : e.position = p := by
  cases h with
  | tall outer p found high => exact absurd (close_fault high) low
  | unclosed q k outer p closed => exact absurd rfl matching
  | _ => rfl

theorem Refusal.fault_ne_empty {p : Nat} {found : Option Token} {e : ParseError} (h : Refusal b s p found e) :
    e.fault ≠ .emptyInput := by
  intro empty
  cases h with
  | tall outer p found high => cases (close_fault high).symm.trans empty
  | _ => cases empty

theorem Refusal.of_unclosed {p : Nat} {found : Option Token} {e : ParseError} (h : Refusal b s p found e)
    (unclosed : e.fault = .unclosedParen) : found = none ∧ ∃ n, s.phase = .connective n := by
  cases h with
  | tall outer p found high => cases (close_fault high).symm.trans unclosed
  | unclosed q k outer p closed => exact ⟨rfl, _, rfl⟩
  | _ => cases unclosed

theorem Refusal.of_rule {p q : Nat} {found : Option Token} {f : ParseFault} (h : Refusal b s p found ⟨q, f⟩)
    (whole : (∃ t, f = .trailingInput t) ∨ f = .unmatchedCloseParen) :
    q = p ∧ ∃ l n m, s = ⟨[], l, .connective n⟩ ∧ l.close b n = .ok m := by
  cases h with
  | tall outer p found high =>
    have limit := close_fault high
    subst limit
    rcases whole with ⟨t, fault⟩ | fault <;> cases fault
  | unmatched p closed => exact ⟨rfl, _, _, _, rfl, closed⟩
  | trailing p t closed => exact ⟨rfl, _, _, _, rfl, closed⟩
  | _ => rcases whole with ⟨t, fault⟩ | fault <;> cases fault

theorem Halts.stops {rest : Tokens} {text : String} {e : TextError} {p : Nat} (h : Halts b s rest e)
    (stops : StopsAt text e p) (low : ∀ q n, e ≠ .parse ⟨q, .treeTooDeep n⟩) :
    p = rest.position ∨ p = text.utf8ByteSize ∧ ∃ q, rest = .done q := by
  cases h with
  | unread e =>
    cases stops
    exact .inl rfl
  | @refused q t rest e refusal =>
    have lower : e.fault ≠ .treeTooDeep b.tree := fun high => low e.position b.tree (by rw [← high])
    cases stops with
    | token matching => exact .inl (refusal.position_eq lower matching)
    | unclosed fault => cases (refusal.of_unclosed fault).1
    | empty fault => exact absurd fault refusal.fault_ne_empty
  | @unfinished q e refusal =>
    have lower : e.fault ≠ .treeTooDeep b.tree := fun high => low e.position b.tree (by rw [← high])
    cases stops with
    | token matching => exact .inl (refusal.position_eq lower matching)
    | unclosed fault => exact .inr ⟨rfl, q, rfl⟩
    | empty fault => exact .inr ⟨rfl, q, rfl⟩

theorem viable_of_stop {text : String} {e : TextError} {p : Nat} (h : parse b text = .error e) (stops : StopsAt text e p)
    (low : ∀ q n, e ≠ .parse ⟨q, .treeTooDeep n⟩) : ∃ before, FirstBytes text p before ∧ Viable b before := by
  rcases parse_halts h with ⟨q, tokens, rfl⟩ | ⟨seen, rest, s, tokens, advanced, halts⟩
  · cases stops with
    | token matching =>
      have empty : Tokens.ofString "" = .prepend [] (.done 0) := Tokens.scan_nil 0
      exact ⟨"", ⟨text, String.empty_append.symm, rfl⟩, viable_of_advance empty (advance_nil b .start)⟩
    | unclosed fault => cases fault
    | empty fault =>
      have none : Tokens.ofString text = .prepend [] (.done q) := tokens
      exact ⟨text, .whole text, viable_of_advance none (advance_nil b .start)⟩
  · rcases halts.stops stops low with rfl | ⟨rfl, q, rfl⟩
    · obtain ⟨before, first, cut⟩ := exists_firstBytes tokens
      exact ⟨before, first, viable_of_advance cut advanced⟩
    · exact ⟨text, .whole text, viable_of_advance tokens advanced⟩

theorem rule_before {text : String} {p : Nat} {f : ParseFault} (h : parse b text = .error (.parse ⟨p, f⟩))
    (whole : (∃ t, f = .trailingInput t) ∨ f = .unmatchedCloseParen) :
    ∃ before c, FirstBytes text p before ∧ parse b before = .ok c := by
  rcases parse_halts h with ⟨q, tokens, same⟩ | ⟨seen, rest, s, tokens, advanced, halts⟩
  · cases same
    rcases whole with ⟨t, fault⟩ | fault <;> cases fault
  · obtain ⟨before, first, cut⟩ := exists_firstBytes tokens
    have reached : p = rest.position ∧ ∃ l n m, s = ⟨[], l, .connective n⟩ ∧ l.close b n = .ok m := by
      cases halts with
      | refused rest refusal => exact refusal.of_rule whole
      | unfinished refusal => exact refusal.of_rule whole
    obtain ⟨rfl, l, n, m, rfl, closed⟩ := reached
    exact ⟨before, m.condition, first, parse_of_advance cut advanced closed⟩

theorem closed_after {text : String} {p : Nat} (h : parse b text = .error (.parse ⟨p, .unclosedParen⟩)) :
    let closed := text ++ .ofList (List.replicate (unclosed (Tokens.ofString text).plain) ')')
    (∃ c, parse b closed = .ok c) ∨ ∃ q, parse b closed = .error (.parse ⟨q, .treeTooDeep b.tree⟩) := by
  rcases parse_halts h with ⟨q, tokens, same⟩ | ⟨seen, rest, ⟨outer, l, phase⟩, tokens, advanced, halts⟩
  · cases same
  · cases halts with
    | refused rest refusal => cases (refusal.of_unclosed rfl).1
    | unfinished refusal =>
      obtain ⟨-, n, reached⟩ := refusal.of_unclosed rfl
      cases reached
      have plain : (Tokens.ofString text).plain = seen.map Prod.snd := (lexes_seen tokens).plain 0
      have opened : outer.length = unclosed (seen.map Prod.snd) := advance_unclosed advanced
      rw [plain, ← opened]
      exact parse_closed tokens advanced

/-- A text that is no rule can go on to one from where the parser stopped, unless that is the height of a tree. Before
input that is left over it is a rule already, and at its end the open parentheses are all that it lacks. -/
theorem parse_stops_late {text : String} {e : TextError} (h : parse b text = .error e) :
    (∀ p, StopsAt text e p → (∀ q n, e ≠ .parse ⟨q, .treeTooDeep n⟩) →
      ∃ before, FirstBytes text p before ∧ Viable b before) ∧
      (∀ p f, e = .parse ⟨p, f⟩ → (∃ t, f = .trailingInput t) ∨ f = .unmatchedCloseParen →
        ∃ before c, FirstBytes text p before ∧ parse b before = .ok c) ∧
      ∀ p, e = .parse ⟨p, .unclosedParen⟩ →
        let closed := text ++ .ofList (List.replicate (unclosed (Tokens.ofString text).plain) ')')
        (∃ c, parse b closed = .ok c) ∨ ∃ q, parse b closed = .error (.parse ⟨q, .treeTooDeep b.tree⟩) := by
  refine ⟨fun p stops low => viable_of_stop h stops low, ?_, ?_⟩
  · rintro p f rfl whole
    exact rule_before h whole
  · rintro p rfl
    exact closed_after h

theorem parse_stops_late_samples :
    let b : Bounds := ⟨1, 2⟩
    let broken := "a = 1 AND &b"
    let trailing := "a = 1 b"
    let opened := "(a = 1"
    parse b broken = .error (.lex ⟨10, .unexpectedChar '&'⟩) ∧
      (∃ before, FirstBytes broken 10 before ∧ ∃ after tree c, parse ⟨1, tree⟩ (before ++ after) = .ok c) ∧
      parse b trailing = .error (.parse ⟨6, .trailingInput (.ident "b")⟩) ∧
      (∃ before c, FirstBytes trailing 6 before ∧ parse b before = .ok c) ∧
      parse b opened = .error (.parse ⟨0, .unclosedParen⟩) ∧
      ((∃ c, parse b (opened ++ ")") = .ok c) ∨ ∃ q, parse b (opened ++ ")") = .error (.parse ⟨q, .treeTooDeep 2⟩)) := by
  intro b broken trailing opened
  have lexical : parse b broken = .error (.lex ⟨10, .unexpectedChar '&'⟩) := by
    apply error?_eq_some_iff.mp
    decide +kernel
  have leftOver : parse b trailing = .error (.parse ⟨6, .trailingInput (.ident "b")⟩) := by
    apply error?_eq_some_iff.mp
    decide +kernel
  have unfinished : parse b opened = .error (.parse ⟨0, .unclosedParen⟩) := by
    apply error?_eq_some_iff.mp
    decide +kernel
  have one : unclosed (Tokens.ofString opened).plain = 1 := by decide +kernel
  refine ⟨lexical, ?_, leftOver, ?_, unfinished, ?_⟩
  · exact (parse_stops_late lexical).1 10 (.lexeme _) fun q n same => nomatch same
  · exact (parse_stops_late leftOver).2.1 6 _ rfl (.inl ⟨_, rfl⟩)
  · have closed := (parse_stops_late unfinished).2.2 0 rfl
    rw [one] at closed
    exact closed

end Condition

end Rulebook
