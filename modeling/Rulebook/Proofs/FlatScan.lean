import Rulebook.Proofs.ParserGrammar

/-!
The faults of the parser are those of a flat scan. The scan builds no tree: it keeps the last token, the field
named last and where the open parentheses stand, and it stops at the first token that cannot follow.
-/

namespace Rulebook

structure FlatScan where
  previous : Option Token
  field : String
  opened : List Nat

namespace FlatScan

def start : FlatScan := ⟨none, "", []⟩

def push (s : FlatScan) (offset : Nat) (t : Token) : FlatScan :=
  match t with
  | .ident f => ⟨some t, f, s.opened⟩
  | .leftParen => ⟨some t, s.field, offset :: s.opened⟩
  | .rightParen => ⟨some t, s.field, s.opened.tail⟩
  | _ => ⟨some t, s.field, s.opened⟩

def operandFault? (limit : Nat) (s : FlatScan) (offset : Nat) : Option Token → Option ParseError
  | some (.ident _) => none
  | some .leftParen => if s.opened.length < limit then none else some ⟨offset, .tooDeep limit⟩
  | found => some ⟨offset, .expectedOperand found⟩

def connectiveFault? (s : FlatScan) (offset : Nat) (found : Option Token) : Option ParseError :=
  match found, s.opened with
  | some .and, _ => none
  | some .or, _ => none
  | some .rightParen, _ :: _ => none
  | some .rightParen, [] => some ⟨offset, .unmatchedCloseParen⟩
  | some t, _ :: _ => some ⟨offset, .expectedConnective (some t)⟩
  | some t, [] => some ⟨offset, .trailingInput t⟩
  | none, p :: _ => some ⟨p, .unclosedParen⟩
  | none, [] => none

def fault? (limit : Nat) (s : FlatScan) (offset : Nat) (found : Option Token) : Option ParseError :=
  match s.previous, found with
  | none, none => some ⟨0, .emptyInput⟩
  | some (.ident _), some (.op _) => none
  | some (.ident f), _ => some ⟨offset, .missingOperator f found⟩
  | some (.op _), some (.literal _) => none
  | some (.op o), _ => some ⟨offset, .missingValue s.field o found⟩
  | some (.literal _), _ => s.connectiveFault? offset found
  | some .rightParen, _ => s.connectiveFault? offset found
  | _, _ => s.operandFault? limit offset found

def scan (limit : Nat) (s : FlatScan) : Tokens → Except TextError Unit
  | .done n =>
    match s.fault? limit n none with
    | some e => .error (.parse e)
    | none => .ok ()
  | .fault e => .error (.lex e)
  | .next n t rest =>
    match s.fault? limit n (some t) with
    | some e => .error (.parse e)
    | none => (s.push n t).scan limit rest

end FlatScan

namespace Condition

open FlatScan Results

variable {b : Bounds}

theorem checkHeight_fault {p : Nat} {n : Node} {e : ParseError} (h : checkHeight b p n = .error e) :
    e.fault = .treeTooDeep b.tree := by
  unfold checkHeight at h
  split at h
  · cases h
  · cases h
    rfl

theorem conjoin_fault {l : Level} {n : Node} {e : ParseError} (h : l.conjoin b n = .error e) :
    e.fault = .treeTooDeep b.tree := by
  unfold Level.conjoin at h
  split at h
  · cases h
  · exact checkHeight_fault h

theorem disjoin_fault {l : Level} {n : Node} {e : ParseError} (h : l.disjoin b n = .error e) :
    e.fault = .treeTooDeep b.tree := by
  unfold Level.disjoin at h
  split at h
  · cases h
  · exact checkHeight_fault h

theorem close_fault {l : Level} {n : Node} {e : ParseError} (h : l.close b n = .error e) :
    e.fault = .treeTooDeep b.tree := by
  unfold Level.close at h
  cases joined : l.conjoin b n with
  | error d =>
    rw [joined] at h
    cases h
    exact conjoin_fault joined
  | ok m =>
    rw [joined] at h
    exact disjoin_fault h

def Opens (previous : Option Token) : Prop := previous ∈ [none, some .leftParen, some .and, some .or]

def Ends (previous : Option Token) : Prop := previous = some .rightParen ∨ ∃ v, previous = some (.literal v)

inductive Follows : FlatScan → State → Prop
  | operand {previous : Option Token} (f : String) (outer : List (Nat × Level)) (l : Level) :
    Opens previous → Follows ⟨previous, f, outer.map Prod.fst⟩ ⟨outer, l, .operand⟩
  | operator (f : String) (outer : List (Nat × Level)) (l : Level) :
    Follows ⟨some (.ident f), f, outer.map Prod.fst⟩ ⟨outer, l, .operator f⟩
  | value (f : String) (o : Operator) (outer : List (Nat × Level)) (l : Level) :
    Follows ⟨some (.op o), f, outer.map Prod.fst⟩ ⟨outer, l, .value f o⟩
  | connective {previous : Option Token} (f : String) (outer : List (Nat × Level)) (l : Level) (n : Node) :
    Ends previous → Follows ⟨previous, f, outer.map Prod.fst⟩ ⟨outer, l, .connective n⟩

theorem start_follows : Follows .start .start := .operand "" [] .fresh List.mem_cons_self

theorem fault?_operand {s : FlatScan} (h : Opens s.previous) (limit offset : Nat) {found : Option Token}
    (begun : s.previous = none → found ≠ none) : s.fault? limit offset found = s.operandFault? limit offset found := by
  simp only [Opens, List.mem_cons, List.not_mem_nil, or_false] at h
  unfold fault?
  rcases h with h | h | h | h
  · cases found with
    | none => exact absurd rfl (begun h)
    | some t => rw [h]
  · rw [h]
  · rw [h]
  · rw [h]

theorem fault?_connective {s : FlatScan} (h : Ends s.previous) (limit offset : Nat) (found : Option Token) :
    s.fault? limit offset found = s.connectiveFault? offset found := by
  unfold fault?
  rcases h with h | ⟨v, h⟩ <;> rw [h]

inductive Agrees (b : Bounds) (s : FlatScan) : Except ParseError State → Option ParseError → Prop
  | tall {e : ParseError} (verdict : Option ParseError) :
    e.fault = .treeTooDeep b.tree → Agrees b s (.error e) verdict
  | stop (e : ParseError) : Agrees b s (.error e) (some e)
  | go {t : State} : Follows s t → Agrees b s (.ok t) none

theorem agrees_connective (previous : Option Token) (f : String) (outer : List (Nat × Level)) (l : Level) (n : Node)
    (p : Nat) (u : Token) :
    Agrees b (push ⟨previous, f, outer.map Prod.fst⟩ p u) (afterOperand b ⟨outer, l, .connective n⟩ n p u)
      (connectiveFault? ⟨previous, f, outer.map Prod.fst⟩ p (some u)) := by
  have conjunction : Opens (some .and) := by simp [Opens]
  have disjunction : Opens (some .or) := by simp [Opens]
  cases u with
  | and =>
    simp only [afterOperand]
    cases joined : l.conjoin b n with
    | error e => exact .tall _ (conjoin_fault joined)
    | ok m => exact .go (.operand f outer _ conjunction)
  | or =>
    simp only [afterOperand]
    cases closed : l.close b n with
    | error e => exact .tall _ (close_fault closed)
    | ok m => exact .go (.operand f outer _ disjunction)
  | rightParen =>
    simp only [afterOperand]
    cases closed : l.close b n with
    | error e => exact .tall _ (close_fault closed)
    | ok m =>
      cases outer with
      | nil => exact .stop _
      | cons x outer => exact .go (.connective f outer x.2 m (.inl rfl))
  | _ =>
    simp only [afterOperand]
    cases closed : l.close b n with
    | error e => exact .tall _ (close_fault closed)
    | ok m => cases outer <;> exact .stop _

theorem Follows.step {s : FlatScan} {t : State} (h : Follows s t) (p : Nat) (u : Token) :
    Agrees b (s.push p u) (step b t p u) (s.fault? b.nesting p (some u)) := by
  cases h with
  | operand f outer l opens =>
    rw [fault?_operand opens _ _ fun _ => Option.some_ne_none u]
    cases u with
    | ident g => exact .go (.operator g outer l)
    | leftParen =>
      have parenthesis : Opens (some .leftParen) := by simp [Opens]
      simp only [Condition.step, operandFault?, List.length_map]
      split
      · exact .go (.operand f ((p, l) :: outer) .fresh parenthesis)
      · exact .stop _
    | _ => exact .stop _
  | operator f outer l =>
    cases u with
    | op o => exact .go (.value f o outer l)
    | _ => exact .stop _
  | value f o outer l =>
    cases u with
    | literal v => exact .go (.connective f outer l (.leaf f o v) (.inr ⟨v, rfl⟩))
    | _ => exact .stop _
  | connective f outer l n ends =>
    rw [fault?_connective ends]
    exact agrees_connective _ f outer l n p u

def outcome : Option ParseError → Except ParseError Unit
  | some e => .error e
  | none => .ok ()

theorem Follows.finish {s : FlatScan} {t : State} (h : Follows s t) (begun : s.previous ≠ none) (p : Nat) :
    (∃ e, finish b t p = .error e ∧ e.fault = .treeTooDeep b.tree) ∨
      (finish b t p).map (fun _ => ()) = outcome (s.fault? b.nesting p none) := by
  cases h with
  | operand f outer l opens =>
    rw [fault?_operand opens _ _ fun start => absurd start begun]
    exact .inr rfl
  | operator f outer l => exact .inr rfl
  | value f o outer l => exact .inr rfl
  | connective f outer l n ends =>
    rw [fault?_connective ends]
    simp only [Condition.finish]
    cases closed : l.close b n with
    | error e => exact .inl ⟨e, rfl, close_fault closed⟩
    | ok m => cases outer <;> exact .inr rfl

theorem push_previous (s : FlatScan) (p : Nat) (u : Token) : (s.push p u).previous = some u := by
  cases u <;> rfl

theorem Follows.run {s : FlatScan} {t : State} (h : Follows s t) {ts : Tokens}
    (begun : s.previous = none → ∀ p, ts ≠ .done p) :
    (∃ e, run b t ts = .error (.parse e) ∧ e.fault = .treeTooDeep b.tree) ∨
      (run b t ts).map (fun _ => ()) = s.scan b.nesting ts := by
  induction ts generalizing s t with
  | done p =>
    rw [Condition.run, FlatScan.scan]
    rcases h.finish (b := b) (fun start => begun start p rfl) p with ⟨e, he, tall⟩ | same
    · exact .inl ⟨e, by rw [he]; rfl, tall⟩
    · right
      generalize Condition.finish b t p = result at same ⊢
      generalize s.fault? b.nesting p none = verdict at same ⊢
      cases verdict <;> cases result <;> cases same <;> rfl
  | fault e => exact .inr rfl
  | next p u rest ih =>
    have later : (s.push p u).previous = none → ∀ p, rest ≠ .done p := by
      intro start
      rw [push_previous] at start
      cases start
    have agrees := h.step (b := b) p u
    rw [Condition.run, FlatScan.scan]
    generalize Condition.step b t p u = result at agrees ⊢
    generalize s.fault? b.nesting p (some u) = verdict at agrees ⊢
    cases agrees with
    | tall verdict high => exact .inl ⟨_, rfl, high⟩
    | stop e => exact .inr rfl
    | go follows => exact ih follows later

theorem ofTokens_eq_scan (b : Bounds) (ts : Tokens) :
    (∃ e, ofTokens b ts = .error (.parse e) ∧ e.fault = .treeTooDeep b.tree) ∨
      (ofTokens b ts).map (fun _ => ()) = FlatScan.start.scan b.nesting ts := by
  cases ts with
  | done p => exact .inr rfl
  | fault e => exact .inr rfl
  | next p u rest => exact start_follows.run fun _ _ => nofun

theorem parse_eq_scan {b : Bounds} {text : String}
    (low : ∀ e, parse b text = .error (.parse e) → e.fault ≠ .treeTooDeep b.tree) :
    (parse b text).map (fun _ => ()) = FlatScan.start.scan b.nesting (.ofString text) ∧
      ∀ found,
        (ParseFault.expectedOperand found).message = "expected a comparison or '(', found " ++ foundText found ∧
          (ParseFault.expectedConnective found).message =
            "expected 'AND', 'OR' or ')', found " ++ foundText found := by
  refine ⟨?_, fun found => ⟨rfl, rfl⟩⟩
  rcases ofTokens_eq_scan b (.ofString text) with ⟨e, stopped, tall⟩ | same
  · exact absurd tall (low e (by rw [parse, stopped]; rfl))
  · rw [← same, parse]
    cases ofTokens b (.ofString text) <;> rfl

theorem parse_eq_scan_sample :
    let b : Bounds := ⟨2, 2⟩
    let unclosed := "((a = 1) OR (b = 2"
    let broken := "a = 1 AND b 'x"
    (∀ e, parse b unclosed = .error (.parse e) → e.fault ≠ .treeTooDeep 2) ∧
      (∀ e, parse b broken = .error (.parse e) → e.fault ≠ .treeTooDeep 2) ∧
      FlatScan.start.scan 2 (.ofString unclosed) = .error (.parse ⟨12, .unclosedParen⟩) ∧
      FlatScan.start.scan 2 (.ofString broken) = .error (.lex ⟨12, .unterminatedString⟩) := by
  intro b unclosed broken
  have first : parse b unclosed = .error (.parse ⟨12, .unclosedParen⟩) := by
    apply error?_eq_some_iff.mp
    decide +kernel
  have second : parse b broken = .error (.lex ⟨12, .unterminatedString⟩) := by
    apply error?_eq_some_iff.mp
    decide +kernel
  have lowFirst : ∀ e, parse b unclosed = .error (.parse e) → e.fault ≠ .treeTooDeep 2 := by
    intro e stopped
    cases first.symm.trans stopped
    exact nofun
  have lowSecond : ∀ e, parse b broken = .error (.parse e) → e.fault ≠ .treeTooDeep 2 := by
    intro e stopped
    cases second.symm.trans stopped
  refine ⟨lowFirst, lowSecond, ?_, ?_⟩
  · rw [← (parse_eq_scan lowFirst).1, first]
    rfl
  · rw [← (parse_eq_scan lowSecond).1, second]
    rfl

end Condition

end Rulebook
