import Rulebook.Proofs.FlatScan
import Rulebook.Proofs.ParserStops
import Rulebook.Proofs.RaisedLimits

/-!
Where the limits stop the parser. The limit on nesting stops it at the first parenthesis before which as many are
open, and the limit on trees at a connective; apart from these stops, raising the limits changes no outcome.
-/

namespace Rulebook

open Results

def OpensFirst (n : Nat) (ts : List (Nat × Token)) (p : Nat) : Prop :=
  ∃ before after, ts = before ++ (p, .leftParen) :: after ∧ unclosed (before.map Prod.snd) = n ∧
    ∀ earlier q later, ts = earlier ++ (q, .leftParen) :: later → unclosed (earlier.map Prod.snd) = n →
      before.length ≤ earlier.length

namespace Condition

variable {b d : Bounds} {s s' : State} {seen ts : List (Nat × Token)}

def Waiting.Connects (seen : List (Nat × Token)) (w : Waiting) : Prop :=
  (w.offset, .and) ∈ seen ∨ (w.offset, .or) ∈ seen

def Level.Connects (seen : List (Nat × Token)) (l : Level) : Prop :=
  (∀ w ∈ l.disjunction, w.Connects seen) ∧ ∀ w ∈ l.conjunction, w.Connects seen

def State.Connects (seen : List (Nat × Token)) (s : State) : Prop :=
  s.level.Connects seen ∧ ∀ x ∈ s.outer, x.2.Connects seen

theorem Waiting.Connects.append {w : Waiting} (h : w.Connects seen) (ts : List (Nat × Token)) :
    w.Connects (seen ++ ts) :=
  h.imp (List.mem_append_left ts) (List.mem_append_left ts)

theorem Level.Connects.append {l : Level} (h : l.Connects seen) (ts : List (Nat × Token)) : l.Connects (seen ++ ts) :=
  ⟨fun w hw => (h.1 w hw).append ts, fun w hw => (h.2 w hw).append ts⟩

theorem State.Connects.append (h : s.Connects seen) (ts : List (Nat × Token)) : s.Connects (seen ++ ts) :=
  ⟨h.1.append ts, fun x hx => (h.2 x hx).append ts⟩

theorem Level.fresh_connects (seen : List (Nat × Token)) : Level.fresh.Connects seen := by
  constructor <;> intro w waiting <;> cases waiting

theorem Move.connects {p : Nat} {t : Token} (h : Move b s p t s') (before : s.Connects seen) :
    s'.Connects (seen ++ [(p, t)]) := by
  have last : (p, t) ∈ seen ++ [(p, t)] := List.mem_append_right seen List.mem_cons_self
  obtain ⟨level, outer⟩ := before.append [(p, t)]
  cases h with
  | opening l p deep =>
    refine ⟨Level.fresh_connects _, ?_⟩
    intro x hx
    rcases List.mem_cons.mp hx with rfl | hx
    · exact level
    · exact outer x hx
  | and others p joined =>
    refine ⟨⟨level.1, ?_⟩, outer⟩
    intro w waiting
    cases waiting
    exact .inl last
  | or others p closed =>
    refine ⟨⟨?_, ?_⟩, outer⟩
    · intro w waiting
      cases waiting
      exact .inr last
    · intro w waiting
      cases waiting
  | closing others k q p closed =>
    exact ⟨outer (q, k) List.mem_cons_self, fun x hx => outer x (List.mem_cons_of_mem _ hx)⟩
  | _ => exact ⟨level, outer⟩

theorem advance_connects (h : advance b .start ts = .ok s) : s.Connects ts := by
  have first : State.start.Connects [] := ⟨Level.fresh_connects [], fun x hx => nomatch hx⟩
  apply advance_keeps (fun seen s => s.Connects seen) [] first _ h
  intro seen s p t s' before moved
  exact moved.connects before

theorem checkHeight_position {p : Nat} {n : Node} {e : ParseError} (h : checkHeight b p n = .error e) :
    e.position = p := by
  unfold checkHeight at h
  split at h <;> cases h
  rfl

theorem close_position {l : Level} {n : Node} {e : ParseError} (h : l.close b n = .error e)
    (connects : l.Connects seen) : (e.position, .and) ∈ seen ∨ (e.position, .or) ∈ seen := by
  rcases bind_error_iff.mp h with unjoined | ⟨m, -, undisjoined⟩
  · unfold Level.conjoin at unjoined
    split at unjoined
    · cases unjoined
    · next w waiting =>
      rw [checkHeight_position unjoined]
      exact connects.2 w waiting
  · unfold Level.disjoin at undisjoined
    split at undisjoined
    · cases undisjoined
    · next w waiting =>
      rw [checkHeight_position undisjoined]
      exact connects.1 w waiting

theorem Refusal.of_tooDeep {p q k : Nat} {found : Option Token} (h : Refusal b s p found ⟨q, .tooDeep k⟩) :
    q = p ∧ k = b.nesting ∧ found = some .leftParen ∧ b.nesting ≤ s.outer.length := by
  cases h with
  | deep l p deep => exact ⟨rfl, rfl, rfl, deep⟩
  | tall outer p found high => cases close_fault high

theorem Refusal.of_treeTooDeep {p q k : Nat} {found : Option Token} (h : Refusal b s p found ⟨q, .treeTooDeep k⟩)
    (connects : s.Connects seen) : k = b.tree ∧ ((q, .and) ∈ seen ∨ (q, .or) ∈ seen) := by
  cases h with
  | tall outer p found high =>
    have limit := close_fault high
    cases limit
    exact ⟨rfl, close_position high connects.1⟩

theorem Halts.of_tooDeep {rest : Tokens} {p k : Nat} (h : Halts b s rest (.parse ⟨p, .tooDeep k⟩)) :
    k = b.nesting ∧ b.nesting ≤ s.outer.length ∧ ∃ after, rest = .next p .leftParen after := by
  cases h with
  | refused after refusal =>
    obtain ⟨rfl, rfl, found, deep⟩ := refusal.of_tooDeep
    cases found
    exact ⟨rfl, deep, after, rfl⟩
  | unfinished refusal =>
    obtain ⟨-, -, found, -⟩ := refusal.of_tooDeep
    cases found

theorem advance_append_ok (h : advance b s (seen ++ ts) = .ok s') :
    ∃ m, advance b s seen = .ok m ∧ advance b m ts = .ok s' :=
  bind_ok_iff.mp (List.foldlM_append.symm.trans h)

theorem unclosed_lt_of_advance {earlier mid : List (Nat × Token)} {q : Nat}
    (h : advance b .start (earlier ++ (q, .leftParen) :: mid) = .ok s) :
    unclosed (earlier.map Prod.snd) < b.nesting := by
  obtain ⟨m, reached, later⟩ := advance_append_ok h
  obtain ⟨m', moved, -⟩ := advance_move later
  rw [← advance_unclosed reached]
  cases moved with
  | opening l p few => exact few

theorem opensFirst_of_advance {p : Nat} {after : List (Nat × Token)} (h : advance b .start seen = .ok s)
    (deep : b.nesting ≤ s.outer.length) : OpensFirst b.nesting (seen ++ (p, .leftParen) :: after) p := by
  have opened : unclosed (seen.map Prod.snd) = b.nesting := by
    rw [← advance_unclosed h]
    exact Nat.le_antisymm (advance_within h).nesting deep
  refine ⟨seen, after, rfl, opened, ?_⟩
  intro earlier q later same full
  by_contra shorter
  -- An earlier such parenthesis was read, so fewer were open before it.
  have inside : earlier ++ [(q, .leftParen)] <+: seen := by
    have whole : earlier ++ [(q, .leftParen)] <+: seen ++ (p, .leftParen) :: after := by
      rw [same]
      exact ⟨later, (List.append_cons _ _ _).symm⟩
    apply List.prefix_of_prefix_length_le whole (List.prefix_append _ _)
    simp only [List.length_append, List.length_singleton]
    omega
  obtain ⟨mid, rfl⟩ := inside
  rw [List.append_assoc] at h
  have few := unclosed_lt_of_advance h
  omega

theorem parse_under_wider_bounds (h : b ≤ d) (text : String) :
    (parse b text = parse d text ∨ (∃ p, parse b text = .error (.parse ⟨p, .tooDeep b.nesting⟩)) ∨
        ∃ p, parse b text = .error (.parse ⟨p, .treeTooDeep b.tree⟩)) ∧
      (∀ p n, parse b text = .error (.parse ⟨p, .tooDeep n⟩) →
        n = b.nesting ∧ OpensFirst n (Tokens.ofString text).toList p) ∧
      ∀ p n, parse b text = .error (.parse ⟨p, .treeTooDeep n⟩) →
        n = b.tree ∧ ((p, .and) ∈ (Tokens.ofString text).toList ∨ (p, .or) ∈ (Tokens.ofString text).toList) := by
  refine ⟨?_, ?_, ?_⟩
  · rcases parse_inStep h text with same | ⟨⟨p, fault⟩, stopped, rfl | rfl⟩
    · exact .inl same
    · exact .inr (.inl ⟨p, stopped⟩)
    · exact .inr (.inr ⟨p, stopped⟩)
  · intro p n stopped
    rcases parse_halts stopped with ⟨q, -, same⟩ | ⟨seen, rest, s, tokens, advanced, halts⟩
    · cases same
    · obtain ⟨rfl, deep, after, rfl⟩ := halts.of_tooDeep
      refine ⟨rfl, ?_⟩
      rw [tokens, Tokens.toList_prepend]
      exact opensFirst_of_advance advanced deep
  · intro p n stopped
    rcases parse_halts stopped with ⟨q, -, same⟩ | ⟨seen, rest, s, tokens, advanced, halts⟩
    · cases same
    · have connects := advance_connects advanced
      rw [tokens, Tokens.toList_prepend]
      have found : n = b.tree ∧ ((p, .and) ∈ seen ∨ (p, .or) ∈ seen) := by
        cases halts with
        | refused after refusal => exact refusal.of_treeTooDeep connects
        | unfinished refusal => exact refusal.of_treeTooDeep connects
      exact found.imp_right (Or.imp (List.mem_append_left _) (List.mem_append_left _))

theorem parse_under_wider_bounds_samples :
    let b : Bounds := ⟨1, 2⟩
    let d : Bounds := ⟨2, 3⟩
    let nested := "(a = 1) OR ((b = 2))"
    let chained := "a = 1 AND b = 2 OR c = 3"
    let broken := "(a = 1) b"
    b ≤ d ∧
      parse b nested = .error (.parse ⟨12, .tooDeep 1⟩) ∧ OpensFirst 1 (Tokens.ofString nested).toList 12 ∧
      parse b chained = .error (.parse ⟨16, .treeTooDeep 2⟩) ∧
      ((16, .and) ∈ (Tokens.ofString chained).toList ∨ (16, .or) ∈ (Tokens.ofString chained).toList) ∧
      parse d broken = .error (.parse ⟨8, .trailingInput (.ident "b")⟩) := by
  intro b d nested chained broken
  have wider : b ≤ d := by
    constructor <;> decide
  have deep : parse b nested = .error (.parse ⟨12, .tooDeep 1⟩) := by
    apply error?_eq_some_iff.mp
    decide +kernel
  have tall : parse b chained = .error (.parse ⟨16, .treeTooDeep 2⟩) := by
    apply error?_eq_some_iff.mp
    decide +kernel
  have trailing : parse b broken = .error (.parse ⟨8, .trailingInput (.ident "b")⟩) := by
    apply error?_eq_some_iff.mp
    decide +kernel
  refine ⟨wider, deep, ?_, tall, ?_, ?_⟩
  · exact ((parse_under_wider_bounds wider nested).2.1 12 1 deep).2
  · exact ((parse_under_wider_bounds wider chained).2.2 16 2 tall).2
  · rcases (parse_under_wider_bounds wider broken).1 with same | ⟨p, stopped⟩ | ⟨p, stopped⟩
    · exact same.symm.trans trailing
    · cases trailing.symm.trans stopped
    · cases trailing.symm.trans stopped

end Condition

end Rulebook
