import Rulebook.Proofs.ParserSoundness

namespace Rulebook

open Results

def Token.openAfter (opened : Nat) : Token → Nat
  | leftParen => opened + 1
  | rightParen => opened - 1
  | _ => opened

def unclosed (ts : List Token) : Nat := ts.foldl Token.openAfter 0

theorem unclosed_concat (ts : List Token) (t : Token) : unclosed (ts ++ [t]) = t.openAfter (unclosed ts) := by
  rw [unclosed, List.foldl_append]
  rfl

def Tokens.prepend (ts : List (Nat × Token)) (rest : Tokens) : Tokens := ts.foldr (fun t => next t.1 t.2) rest

theorem Tokens.toList_prepend (ts : List (Nat × Token)) (rest : Tokens) :
    (prepend ts rest).toList = ts ++ rest.toList := by
  induction ts with
  | nil => rfl
  | cons t ts ih => exact congrArg (t :: ·) ih

theorem Tokens.error?_prepend (ts : List (Nat × Token)) (rest : Tokens) : (prepend ts rest).error? = rest.error? := by
  induction ts with
  | nil => rfl
  | cons t ts ih => exact ih

namespace Condition

variable {b : Bounds} {s s' : State} {ts : List (Nat × Token)}

inductive Refusal (b : Bounds) : State → Nat → Option Token → ParseError → Prop
  | operand (outer : List (Nat × Level)) (l : Level) (p : Nat) (found : Option Token) :
    Refusal b ⟨outer, l, .operand⟩ p found ⟨p, .expectedOperand found⟩
  | deep {outer : List (Nat × Level)} (l : Level) (p : Nat) :
    b.nesting ≤ outer.length → Refusal b ⟨outer, l, .operand⟩ p (some .leftParen) ⟨p, .tooDeep b.nesting⟩
  | operator (outer : List (Nat × Level)) (l : Level) (p : Nat) (f : String) (found : Option Token) :
    Refusal b ⟨outer, l, .operator f⟩ p found ⟨p, .missingOperator f found⟩
  | value (outer : List (Nat × Level)) (l : Level) (p : Nat) (f : String) (o : Operator) (found : Option Token) :
    Refusal b ⟨outer, l, .value f o⟩ p found ⟨p, .missingValue f o found⟩
  | tall (outer : List (Nat × Level)) {l : Level} {n : Node} (p : Nat) (found : Option Token) {e : ParseError} :
    l.close b n = .error e → Refusal b ⟨outer, l, .connective n⟩ p found e
  | unmatched {l : Level} {n m : Node} (p : Nat) :
    l.close b n = .ok m → Refusal b ⟨[], l, .connective n⟩ p (some .rightParen) ⟨p, .unmatchedCloseParen⟩
  | trailing {l : Level} {n m : Node} (p : Nat) (t : Token) :
    l.close b n = .ok m → Refusal b ⟨[], l, .connective n⟩ p (some t) ⟨p, .trailingInput t⟩
  | inner (x : Nat × Level) (outer : List (Nat × Level)) {l : Level} {n m : Node} (p : Nat) (t : Token) :
    l.close b n = .ok m → Refusal b ⟨x :: outer, l, .connective n⟩ p (some t) ⟨p, .expectedConnective (some t)⟩
  | unclosed (q : Nat) (k : Level) (outer : List (Nat × Level)) {l : Level} {n m : Node} (p : Nat) :
    l.close b n = .ok m → Refusal b ⟨(q, k) :: outer, l, .connective n⟩ p none ⟨q, .unclosedParen⟩

theorem close_error_of_conjoin {l : Level} {n : Node} {e : ParseError} (h : l.conjoin b n = .error e) :
    l.close b n = .error e := bind_error_iff.mpr (.inl h)

theorem afterOperand_refusal {outer : List (Nat × Level)} {l : Level} {n : Node} {p : Nat} {t : Token} {e : ParseError}
    (h : afterOperand b ⟨outer, l, .connective n⟩ n p t = .error e) :
    Refusal b ⟨outer, l, .connective n⟩ p (some t) e := by
  cases t with
  | and =>
    rcases bind_error_iff.mp h with unjoined | ⟨m, -, returned⟩
    · exact .tall outer p _ (close_error_of_conjoin unjoined)
    · cases returned
  | or =>
    rcases bind_error_iff.mp h with unclosed | ⟨m, -, returned⟩
    · exact .tall outer p _ unclosed
    · cases returned
  | rightParen =>
    rcases bind_error_iff.mp h with unclosed | ⟨m, closed, returned⟩
    · exact .tall outer p _ unclosed
    · cases outer <;> cases returned
      exact .unmatched p closed
  | _ =>
    rcases bind_error_iff.mp h with unclosed | ⟨m, closed, returned⟩
    · exact .tall outer p _ unclosed
    · cases outer <;> cases returned
      · exact .trailing p _ closed
      · exact .inner _ _ p _ closed

theorem step_refusal {p : Nat} {t : Token} {e : ParseError} (h : step b s p t = .error e) :
    Refusal b s p (some t) e := by
  obtain ⟨outer, l, phase⟩ := s
  cases phase with
  | operand =>
    cases t with
    | ident f => cases h
    | leftParen =>
      simp only [step] at h
      split at h
      · cases h
      · next deep =>
        cases h
        exact .deep l p (Nat.not_lt.mp deep)
    | _ =>
      cases h
      exact .operand outer l p _
  | operator f =>
    cases t with
    | op o => cases h
    | _ =>
      cases h
      exact .operator outer l p f _
  | value f o =>
    cases t with
    | literal v => cases h
    | _ =>
      cases h
      exact .value outer l p f o _
  | connective n => exact afterOperand_refusal h

theorem finish_refusal {p : Nat} {e : ParseError} (h : finish b s p = .error e) : Refusal b s p none e := by
  obtain ⟨outer, l, phase⟩ := s
  cases phase with
  | operand =>
    cases h
    exact .operand outer l p _
  | operator f =>
    cases h
    exact .operator outer l p f _
  | value f o =>
    cases h
    exact .value outer l p f o _
  | connective n =>
    rcases bind_error_iff.mp h with unclosed | ⟨m, closed, returned⟩
    · exact .tall outer p _ unclosed
    · cases outer with
      | nil => cases returned
      | cons x outer =>
        cases returned
        exact .unclosed x.1 x.2 outer p closed

inductive Halts (b : Bounds) (s : State) : Tokens → TextError → Prop
  | unread (e : LexError) : Halts b s (.fault e) (.lex e)
  | refused {p : Nat} {t : Token} (rest : Tokens) {e : ParseError} :
    Refusal b s p (some t) e → Halts b s (.next p t rest) (.parse e)
  | unfinished {p : Nat} {e : ParseError} : Refusal b s p none e → Halts b s (.done p) (.parse e)

theorem exists_halt {ts : Tokens} {e : TextError} (h : run b s ts = .error e) :
    ∃ seen rest s', ts = .prepend seen rest ∧ advance b s seen = .ok s' ∧ Halts b s' rest e := by
  induction ts generalizing s with
  | done p =>
    obtain ⟨f, unfinished, rfl⟩ := mapError_error_iff.mp h
    exact ⟨[], _, s, rfl, rfl, .unfinished (finish_refusal unfinished)⟩
  | fault f =>
    cases h
    exact ⟨[], _, s, rfl, rfl, .unread f⟩
  | next p t rest ih =>
    simp only [run] at h
    split at h
    · next m moved =>
      obtain ⟨seen, left, s', rfl, advanced, halts⟩ := ih h
      refine ⟨(p, t) :: seen, left, s', rfl, ?_, halts⟩
      rw [advance_cons (step_move moved)]
      exact advanced
    · next f refused =>
      cases h
      exact ⟨[], _, s, rfl, rfl, .refused rest (step_refusal refused)⟩

theorem parse_halts {text : String} {e : TextError} (h : parse b text = .error e) :
    (∃ p, Tokens.ofString text = .done p ∧ e = .parse ⟨0, .emptyInput⟩) ∨
      ∃ seen rest s, Tokens.ofString text = .prepend seen rest ∧ advance b .start seen = .ok s ∧ Halts b s rest e := by
  have stopped : ofTokens b (.ofString text) = .error e := by
    rw [parse] at h
    generalize ofTokens b (.ofString text) = result at h ⊢
    cases result <;> cases h
    rfl
  generalize Tokens.ofString text = ts at stopped ⊢
  cases ts with
  | done p =>
    cases stopped
    exact .inl ⟨p, rfl, rfl⟩
  | fault f => exact .inr (exists_halt (s := .start) stopped)
  | next p t rest => exact .inr (exists_halt (s := .start) stopped)

theorem Move.openAfter {p : Nat} {t : Token} (h : Move b s p t s') :
    s'.outer.length = t.openAfter s.outer.length := by
  cases h <;> rfl

theorem advance_unclosed (h : advance b .start ts = .ok s) : s.outer.length = unclosed (ts.map Prod.snd) := by
  apply advance_keeps (fun seen s => s.outer.length = unclosed (seen.map Prod.snd)) [] rfl _ h
  intro seen s p t s' opened moved
  rw [List.map_append, List.map_singleton, unclosed_concat, ← opened]
  exact moved.openAfter

end Condition

end Rulebook
