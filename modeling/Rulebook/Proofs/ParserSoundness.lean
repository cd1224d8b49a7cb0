import Rulebook.Proofs.ParserRun

/-!
Soundness of the parser. What it keeps tells which tokens it has read: the waiting left sides are
phrases before their connective, level by level, and so a tree it returns is spelled by all tokens.
-/

namespace Rulebook.Condition

open Results

theorem checkHeight_ok_iff {b : Bounds} {p : Nat} {n m : Node} :
    checkHeight b p n = .ok m ↔ n.height ≤ b.tree ∧ n = m := by
  unfold checkHeight
  by_cases h : n.height ≤ b.tree <;> simp [h]

def Before (r : Rank) (t : Token) : Option Waiting → List Token → Prop
  | none, ts => ts = []
  | some w, ts => ∃ us, ts = us ++ [t] ∧ Phrase r us w.left.condition

def Level.Spells (l : Level) (ts : List Token) : Prop :=
  ∃ us vs, ts = us ++ vs ∧ Before .disjunction .or l.disjunction us ∧
    Before .conjunction .and l.conjunction vs

def Surroundings : List (Nat × Level) → List Token → Prop
  | [], ts => ts = []
  | (_, l) :: outer, ts => ∃ us vs, ts = us ++ vs ++ [.leftParen] ∧ Surroundings outer us ∧ l.Spells vs

def Phase.Spells : Phase → List Token → Prop
  | .operand, ts => ts = []
  | .operator f, ts => ts = [.ident f]
  | .value f o, ts => ts = [.ident f, .op o]
  | .connective n, ts => Phrase .operand ts n.condition

def State.Spells (s : State) (ts : List Token) : Prop :=
  ∃ us vs ws, ts = us ++ vs ++ ws ∧ Surroundings s.outer us ∧ s.level.Spells vs ∧ s.phase.Spells ws

theorem Level.fresh_spells : Level.fresh.Spells [] := ⟨[], [], rfl, rfl, rfl⟩

theorem State.start_spells : State.start.Spells [] :=
  ⟨[], [], [], rfl, rfl, Level.fresh_spells, rfl⟩

theorem conjoin_phrase {b : Bounds} {l : Level} {n m : Node} {vs ws : List Token}
    (hv : Before .conjunction .and l.conjunction vs) (hw : Phrase .operand ws n.condition)
    (h : l.conjoin b n = .ok m) : Phrase .conjunction (vs ++ ws) m.condition := by
  unfold Level.conjoin at h
  cases hc : l.conjunction with
  | none =>
    rw [hc] at h hv
    cases h
    cases hv
    exact .single hw
  | some w =>
    rw [hc] at h hv
    obtain ⟨us, rfl, hu⟩ := hv
    obtain ⟨-, rfl⟩ := checkHeight_ok_iff.mp h
    rw [List.append_assoc]
    exact .and hu hw

theorem disjoin_phrase {b : Bounds} {l : Level} {n m : Node} {us ws : List Token}
    (hu : Before .disjunction .or l.disjunction us) (hw : Phrase .conjunction ws n.condition)
    (h : l.disjoin b n = .ok m) : Phrase .disjunction (us ++ ws) m.condition := by
  unfold Level.disjoin at h
  cases hc : l.disjunction with
  | none =>
    rw [hc] at h hu
    cases h
    cases hu
    exact .alone hw
  | some w =>
    rw [hc] at h hu
    obtain ⟨ts, rfl, ht⟩ := hu
    obtain ⟨-, rfl⟩ := checkHeight_ok_iff.mp h
    rw [List.append_assoc]
    exact .or ht hw

theorem close_phrase {b : Bounds} {l : Level} {n m : Node} {ts ws : List Token}
    (hl : l.Spells ts) (hw : Phrase .operand ws n.condition) (h : l.close b n = .ok m) :
    Phrase .disjunction (ts ++ ws) m.condition := by
  obtain ⟨us, vs, rfl, hu, hv⟩ := hl
  obtain ⟨k, hk, hm⟩ := bind_ok_iff.mp h
  rw [List.append_assoc]
  exact disjoin_phrase hu (conjoin_phrase hv hw hk) hm

theorem Move.spells {b : Bounds} {s s' : State} {p : Nat} {t : Token} {ts : List Token}
    (h : Move b s p t s') (hs : s.Spells ts) : s'.Spells (ts ++ [t]) := by
  obtain ⟨us, vs, ws, rfl, hu, hv, hw⟩ := hs
  cases h with
  | field outer l p f =>
    cases hw
    exact ⟨us, vs, [.ident f], by simp, hu, hv, rfl⟩
  | opening l p h =>
    cases hw
    exact ⟨us ++ vs ++ [.leftParen], [], [], by simp, ⟨us, vs, rfl, hu, hv⟩, Level.fresh_spells, rfl⟩
  | operator outer l p f o =>
    cases hw
    exact ⟨us, vs, [.ident f, .op o], by simp, hu, hv, rfl⟩
  | literal outer l p f o v =>
    cases hw
    exact ⟨us, vs, [.ident f, .op o, .literal v], by simp, hu, hv, .compare f o v⟩
  | and outer p h =>
    obtain ⟨ds, cs, rfl, hd, hc⟩ := hv
    refine ⟨us, ds ++ (cs ++ ws ++ [.and]), [], by simp, hu, ⟨ds, _, rfl, hd, ?_⟩, rfl⟩
    exact ⟨cs ++ ws, rfl, conjoin_phrase hc hw h⟩
  | or outer p h =>
    refine ⟨us, vs ++ ws ++ [.or], [], by simp, hu, ⟨vs ++ ws ++ [.or], [], by simp, ?_, rfl⟩, rfl⟩
    exact ⟨vs ++ ws, rfl, close_phrase hv hw h⟩
  | closing outer k q p h =>
    obtain ⟨as, bs, rfl, ha, hb⟩ := hu
    refine ⟨as, bs, .leftParen :: (vs ++ ws ++ [.rightParen]), by simp, ha, hb, ?_⟩
    exact .group (close_phrase hv hw h)

theorem advance_spells {b : Bounds} {s : State} {ts : List (Nat × Token)} (h : advance b .start ts = .ok s) :
    s.Spells (ts.map Prod.snd) := by
  apply advance_keeps (fun seen s => s.Spells (seen.map Prod.snd)) [] State.start_spells _ h
  intro seen s p t s' spells moved
  rw [List.map_append]
  exact moved.spells spells

theorem run_phrase {b : Bounds} {ts : Tokens} {n : Node} (h : run b .start ts = .ok n) :
    ts.error? = none ∧ Phrase .disjunction ts.plain n.condition := by
  obtain ⟨clean, l, m, advanced, closed⟩ := advance_of_run h
  obtain ⟨us, vs, ws, spelled, hu, hv, hw⟩ := advance_spells advanced
  cases hu
  refine ⟨clean, ?_⟩
  rw [Tokens.plain, spelled]
  exact close_phrase hv hw closed

structure State.Within (b : Bounds) (s : State) : Prop where
  nesting : s.outer.length ≤ b.nesting
  admits : ∀ n, s.phase = .connective n → b.Admits n.condition

theorem State.start_within (b : Bounds) : State.start.Within b :=
  ⟨Nat.zero_le _, fun _ h => nomatch h⟩

theorem checkHeight_admits {b : Bounds} {p : Nat} {n m : Node} (h : checkHeight b p n = .ok m) :
    b.Admits m.condition := by
  obtain ⟨hn, rfl⟩ := checkHeight_ok_iff.mp h
  exact .inl (n.height_eq ▸ hn)

theorem close_admits {b : Bounds} {l : Level} {n m : Node} (hn : b.Admits n.condition)
    (h : l.close b n = .ok m) : b.Admits m.condition := by
  obtain ⟨k, hk, hm⟩ := bind_ok_iff.mp h
  have admits : b.Admits k.condition := by
    unfold Level.conjoin at hk
    split at hk
    · cases hk
      exact hn
    · exact checkHeight_admits hk
  unfold Level.disjoin at hm
  split at hm
  · cases hm
    exact admits
  · exact checkHeight_admits hm

theorem Move.within {b : Bounds} {s s' : State} {p : Nat} {t : Token} (h : Move b s p t s')
    (hs : s.Within b) : s'.Within b := by
  obtain ⟨hn, ha⟩ := hs
  cases h with
  | opening l p h => exact ⟨h, fun _ h => nomatch h⟩
  | literal outer l p f o v =>
    refine ⟨hn, ?_⟩
    intro n he
    cases he
    exact .inr rfl
  | closing outer k q p h =>
    refine ⟨Nat.le_of_succ_le hn, ?_⟩
    intro n he
    cases he
    exact close_admits (ha _ rfl) h
  | _ => exact ⟨hn, fun _ h => nomatch h⟩

theorem Move.nesting {b : Bounds} {s s' : State} {p : Nat} {t : Token} (h : Move b s p t s')
    (hs : s.Within b) {ts : List Token}
    (ht : deepest s'.outer.length (ts.filterMap Token.bracket?) ≤ b.nesting) :
    deepest s.outer.length ((t :: ts).filterMap Token.bracket?) ≤ b.nesting := by
  have hn := hs.nesting
  cases h with
  | opening l p h => exact Nat.max_le.mpr ⟨hn, ht⟩
  | closing outer k q p h => exact Nat.max_le.mpr ⟨hn, ht⟩
  | _ => exact ht

theorem advance_within {b : Bounds} {s : State} {ts : List (Nat × Token)} (h : advance b .start ts = .ok s) :
    s.Within b := by
  apply advance_keeps (fun _ s => s.Within b) [] (State.start_within b) _ h
  intro seen s p t s' within moved
  exact moved.within within

theorem advance_nesting {b : Bounds} {s s' : State} {seen : List (Nat × Token)} {ts : List Token}
    (h : advance b s seen = .ok s') (within : s.Within b)
    (rest : deepest s'.outer.length (ts.filterMap Token.bracket?) ≤ b.nesting) :
    deepest s.outer.length ((seen.map Prod.snd ++ ts).filterMap Token.bracket?) ≤ b.nesting := by
  induction seen generalizing s with
  | nil =>
    cases h
    exact rest
  | cons t seen ih =>
    obtain ⟨m, moved, later⟩ := advance_move h
    exact moved.nesting within (ih later (moved.within within))

theorem run_within {b : Bounds} {ts : Tokens} {n : Node} (h : run b .start ts = .ok n) :
    tokenNesting ts.plain ≤ b.nesting ∧ b.Admits n.condition := by
  obtain ⟨-, l, m, advanced, closed⟩ := advance_of_run h
  have rest : deepest 0 (([] : List Token).filterMap Token.bracket?) ≤ b.nesting := Nat.zero_le _
  have nesting := advance_nesting advanced (State.start_within b) rest
  rw [List.append_nil] at nesting
  exact ⟨nesting, close_admits ((advance_within advanced).admits m rfl) closed⟩

end Rulebook.Condition
