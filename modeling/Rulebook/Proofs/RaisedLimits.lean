import Rulebook.Proofs.ParserGrammar

namespace Rulebook

instance : LE Bounds := ⟨fun b d => b.nesting ≤ d.nesting ∧ b.tree ≤ d.tree⟩

def ParseFault.IsLimit (b : Bounds) (f : ParseFault) : Prop :=
  f = .tooDeep b.nesting ∨ f = .treeTooDeep b.tree

namespace Condition

def InStep (b : Bounds) {α : Type} (x y : Except ParseError α) : Prop :=
  x = y ∨ ∃ e, x = .error e ∧ e.fault.IsLimit b

variable {b d : Bounds}

theorem InStep.bind {α β : Type} {x y : Except ParseError α} {f g : α → Except ParseError β}
    (h : InStep b x y) (hf : ∀ a, InStep b (f a) (g a)) : InStep b (x >>= f) (y >>= g) := by
  rcases h with rfl | ⟨e, rfl, he⟩
  · cases x with
    | error e => exact .inl rfl
    | ok a => exact hf a
  · exact .inr ⟨e, rfl, he⟩

theorem checkHeight_inStep (h : b ≤ d) (p : Nat) (n : Node) :
    InStep b (checkHeight b p n) (checkHeight d p n) := by
  unfold checkHeight
  by_cases hn : n.height ≤ b.tree
  · rw [if_pos hn, if_pos (Nat.le_trans hn h.2)]
    exact .inl rfl
  · rw [if_neg hn]
    exact .inr ⟨_, rfl, .inr rfl⟩

theorem conjoin_inStep (h : b ≤ d) (l : Level) (n : Node) : InStep b (l.conjoin b n) (l.conjoin d n) := by
  unfold Level.conjoin
  cases l.conjunction with
  | none => exact .inl rfl
  | some w => exact checkHeight_inStep h _ _

theorem disjoin_inStep (h : b ≤ d) (l : Level) (n : Node) : InStep b (l.disjoin b n) (l.disjoin d n) := by
  unfold Level.disjoin
  cases l.disjunction with
  | none => exact .inl rfl
  | some w => exact checkHeight_inStep h _ _

theorem close_inStep (h : b ≤ d) (l : Level) (n : Node) : InStep b (l.close b n) (l.close d n) :=
  (conjoin_inStep h l n).bind (disjoin_inStep h l)

theorem afterOperand_inStep (h : b ≤ d) (s : State) (n : Node) (p : Nat) (t : Token) :
    InStep b (afterOperand b s n p t) (afterOperand d s n p t) := by
  cases t with
  | and => exact (conjoin_inStep h s.level n).bind fun _ => .inl rfl
  | _ => exact (close_inStep h s.level n).bind fun _ => .inl rfl

theorem step_inStep (h : b ≤ d) (s : State) (p : Nat) (t : Token) :
    InStep b (step b s p t) (step d s p t) := by
  unfold step
  cases s.phase with
  | operand =>
    cases t with
    | leftParen =>
      by_cases hs : s.outer.length < b.nesting
      · simp only [hs, Nat.lt_of_lt_of_le hs h.1, ↓reduceIte]
        exact .inl rfl
      · simp only [hs, ↓reduceIte]
        exact .inr ⟨_, rfl, .inl rfl⟩
    | _ => exact .inl rfl
  | connective n => exact afterOperand_inStep h s n p t
  | _ => exact .inl rfl

theorem finish_inStep (h : b ≤ d) (s : State) (p : Nat) : InStep b (finish b s p) (finish d s p) := by
  unfold finish
  cases s.phase with
  | connective n => exact (close_inStep h s.level n).bind fun _ => .inl rfl
  | _ => exact .inl rfl

theorem run_inStep (h : b ≤ d) (s : State) (ts : Tokens) :
    run b s ts = run d s ts ∨ ∃ e, run b s ts = .error (.parse e) ∧ e.fault.IsLimit b := by
  induction ts generalizing s with
  | done p =>
    rw [run, run]
    rcases finish_inStep h s p with hf | ⟨e, hf, he⟩
    · exact .inl (congrArg _ hf)
    · exact .inr ⟨e, by rw [hf]; rfl, he⟩
  | fault e => exact .inl rfl
  | next p t rest ih =>
    rw [run, run]
    rcases step_inStep h s p t with hs | ⟨e, hs, he⟩
    · rw [hs]
      cases step d s p t with
      | error e => exact .inl rfl
      | ok s' => exact ih s'
    · exact .inr ⟨e, by rw [hs], he⟩

theorem parse_inStep (h : b ≤ d) (text : String) :
    parse b text = parse d text ∨ ∃ e, parse b text = .error (.parse e) ∧ e.fault.IsLimit b := by
  have hr : ofTokens b (.ofString text) = ofTokens d (.ofString text) ∨
      ∃ e, ofTokens b (.ofString text) = .error (.parse e) ∧ e.fault.IsLimit b := by
    cases Tokens.ofString text with
    | done p => exact .inl rfl
    | fault e => exact .inl rfl
    | next p t rest => exact run_inStep h .start (.next p t rest)
  rcases hr with hr | ⟨e, hr, he⟩
  · exact .inl (congrArg _ hr)
  · exact .inr ⟨e, by rw [parse, hr]; rfl, he⟩

theorem parse_limited {text : String} {c : Condition} (h : Denotes text c) (b : Bounds) :
    parse b text = .ok c ∨ ∃ e, parse b text = .error (.parse e) ∧ e.fault.IsLimit b := by
  -- Bounds raised to what the tree needs let the text pass.
  let d : Bounds := ⟨max b.nesting (parenNesting text), max b.tree c.depth⟩
  have hd : parse d text = .ok c :=
    parse_ok_iff.mpr ⟨h, Nat.le_max_right _ _, .inl (Nat.le_max_right _ _)⟩
  rw [← hd]
  exact parse_inStep ⟨Nat.le_max_left _ _, Nat.le_max_left _ _⟩ text

end Condition

end Rulebook
