import Rulebook.Proofs.Grammar
import Rulebook.Proofs.Results

namespace Rulebook.Condition

open Results

inductive Move (b : Bounds) : State → Nat → Token → State → Prop
  | field (outer : List (Nat × Level)) (l : Level) (p : Nat) (f : String) :
    Move b ⟨outer, l, .operand⟩ p (.ident f) ⟨outer, l, .operator f⟩
  | opening {outer : List (Nat × Level)} (l : Level) (p : Nat) (h : outer.length < b.nesting) :
    Move b ⟨outer, l, .operand⟩ p .leftParen ⟨(p, l) :: outer, .fresh, .operand⟩
  | operator (outer : List (Nat × Level)) (l : Level) (p : Nat) (f : String) (o : Operator) :
    Move b ⟨outer, l, .operator f⟩ p (.op o) ⟨outer, l, .value f o⟩
  | literal (outer : List (Nat × Level)) (l : Level) (p : Nat) (f : String) (o : Operator) (v : Value) :
    Move b ⟨outer, l, .value f o⟩ p (.literal v) ⟨outer, l, .connective (.leaf f o v)⟩
  | and (outer : List (Nat × Level)) {l : Level} (p : Nat) {n m : Node} (h : l.conjoin b n = .ok m) :
    Move b ⟨outer, l, .connective n⟩ p .and ⟨outer, ⟨l.disjunction, some ⟨m, p⟩⟩, .operand⟩
  | or (outer : List (Nat × Level)) {l : Level} (p : Nat) {n m : Node} (h : l.close b n = .ok m) :
    Move b ⟨outer, l, .connective n⟩ p .or ⟨outer, ⟨some ⟨m, p⟩, none⟩, .operand⟩
  | closing (outer : List (Nat × Level)) {l : Level} (k : Level) (q p : Nat) {n m : Node}
    (h : l.close b n = .ok m) :
    Move b ⟨(q, k) :: outer, l, .connective n⟩ p .rightParen ⟨outer, k, .connective m⟩

theorem Move.step_eq {b : Bounds} {s s' : State} {p : Nat} {t : Token} (h : Move b s p t s') :
    step b s p t = .ok s' := by
  cases h with
  | field outer l p f => rfl
  | opening l p h => simp only [step, h, ↓reduceIte]
  | operator outer l p f o => rfl
  | literal outer l p f o v => rfl
  | and outer p h => simp only [step, afterOperand, h]; rfl
  | or outer p h => simp only [step, afterOperand, h]; rfl
  | closing outer k q p h => simp only [step, afterOperand, h]; rfl

theorem afterOperand_move {b : Bounds} {outer : List (Nat × Level)} {l : Level} {n : Node} {s' : State}
    {p : Nat} {t : Token} (h : afterOperand b ⟨outer, l, .connective n⟩ n p t = .ok s') :
    Move b ⟨outer, l, .connective n⟩ p t s' := by
  cases t with
  | and =>
    obtain ⟨m, hm, he⟩ := bind_ok_iff.mp h
    cases he
    exact .and outer p hm
  | or =>
    obtain ⟨m, hm, he⟩ := bind_ok_iff.mp h
    cases he
    exact .or outer p hm
  | rightParen =>
    obtain ⟨m, hm, he⟩ := bind_ok_iff.mp h
    cases outer with
    | nil => cases he
    | cons x outer =>
      cases he
      exact .closing outer x.2 x.1 p hm
  | _ =>
    obtain ⟨m, hm, he⟩ := bind_ok_iff.mp h
    cases outer <;> cases he

theorem step_move {b : Bounds} {s s' : State} {p : Nat} {t : Token} (h : step b s p t = .ok s') :
    Move b s p t s' := by
  obtain ⟨outer, l, phase⟩ := s
  cases phase with
  | operand =>
    cases t with
    | ident f => cases h; exact .field outer l p f
    | leftParen =>
      simp only [step] at h
      split at h
      · next hd => cases h; exact .opening l p hd
      · cases h
    | _ => cases h
  | operator f =>
    cases t with
    | op o => cases h; exact .operator outer l p f o
    | _ => cases h
  | value f o =>
    cases t with
    | literal v => cases h; exact .literal outer l p f o v
    | _ => cases h
  | connective n => exact afterOperand_move h

theorem finish_ok_iff {b : Bounds} {s : State} {p : Nat} {n : Node} :
    finish b s p = .ok n ↔ ∃ l m, s = ⟨[], l, .connective m⟩ ∧ l.close b m = .ok n := by
  constructor
  · intro h
    obtain ⟨outer, l, phase⟩ := s
    cases phase with
    | connective m =>
      obtain ⟨k, hk, he⟩ := bind_ok_iff.mp h
      cases outer with
      | nil => cases he; exact ⟨l, m, rfl, hk⟩
      | cons x outer => cases he
    | _ => cases h
  · rintro ⟨l, m, rfl, hm⟩
    exact bind_ok_iff.mpr ⟨n, hm, rfl⟩

def advance (b : Bounds) (s : State) (ts : List (Nat × Token)) : Except ParseError State :=
  ts.foldlM (fun s t => step b s t.1 t.2) s

theorem advance_nil (b : Bounds) (s : State) : advance b s [] = .ok s := rfl

theorem advance_cons {b : Bounds} {s s' : State} {p : Nat} {t : Token} (h : Move b s p t s')
    (ts : List (Nat × Token)) : advance b s ((p, t) :: ts) = advance b s' ts := by
  rw [advance, List.foldlM_cons, h.step_eq]
  rfl

theorem advance_append {b : Bounds} {s s' : State} {ts : List (Nat × Token)}
    (h : advance b s ts = .ok s') (us : List (Nat × Token)) : advance b s (ts ++ us) = advance b s' us := by
  rw [advance, List.foldlM_append]
  change advance b s ts >>= _ = _
  rw [h]
  rfl

theorem advance_move {b : Bounds} {s s' : State} {p : Nat} {t : Token} {ts : List (Nat × Token)}
    (h : advance b s ((p, t) :: ts) = .ok s') : ∃ m, Move b s p t m ∧ advance b m ts = .ok s' := by
  obtain ⟨m, moved, rest⟩ := bind_ok_iff.mp (List.foldlM_cons.symm.trans h)
  exact ⟨m, step_move moved, rest⟩

theorem advance_keeps {b : Bounds} {s s' : State} {ts : List (Nat × Token)} (P : List (Nat × Token) → State → Prop)
    (seen : List (Nat × Token)) (first : P seen s)
    (move : ∀ seen s p t s', P seen s → Move b s p t s' → P (seen ++ [(p, t)]) s') (h : advance b s ts = .ok s') :
    P (seen ++ ts) s' := by
  induction ts generalizing seen s with
  | nil =>
    cases h
    rw [List.append_nil]
    exact first
  | cons t ts ih =>
    obtain ⟨m, moved, rest⟩ := advance_move h
    have later := ih _ (move seen s t.1 t.2 m first moved) rest
    rw [List.append_assoc] at later
    exact later

theorem run_eq_ok_of_advance {ts : Tokens} (hts : ts.error? = none) {b : Bounds} {s s' : State} {n : Node}
    (h : advance b s ts.toList = .ok s') (hn : ∀ p, finish b s' p = .ok n) : run b s ts = .ok n := by
  induction ts generalizing s with
  | done p =>
    cases h
    rw [run, hn]
    rfl
  | fault e => cases hts
  | next p t rest ih =>
    obtain ⟨m, moved, later⟩ := advance_move h
    simp only [run, moved.step_eq]
    exact ih hts later

theorem advance_of_run {ts : Tokens} {b : Bounds} {s : State} {n : Node} (h : run b s ts = .ok n) :
    ts.error? = none ∧ ∃ l m, advance b s ts.toList = .ok ⟨[], l, .connective m⟩ ∧ l.close b m = .ok n := by
  induction ts generalizing s with
  | done p =>
    obtain ⟨l, m, rfl, closed⟩ := finish_ok_iff.mp (mapError_ok_iff.mp h)
    exact ⟨rfl, l, m, rfl, closed⟩
  | fault e => cases h
  | next p t rest ih =>
    simp only [run] at h
    split at h
    · next s' moved =>
      obtain ⟨clean, l, m, advanced, closed⟩ := ih h
      refine ⟨clean, l, m, ?_, closed⟩
      rw [Tokens.toList, advance_cons (step_move moved)]
      exact advanced
    · cases h

end Rulebook.Condition
