import Rulebook.Proofs.ParserSoundness

namespace Rulebook

namespace Condition

open Results

def node (c : Condition) : Node := ⟨c, c.depth, rfl⟩

theorem Node.eq_node {n : Node} {c : Condition} (h : n.condition = c) : n = c.node := by
  obtain ⟨d, height, he⟩ := n
  cases h
  cases he
  rfl

theorem checkHeight_node {b : Bounds} {c : Condition} (h : b.Admits c) (hc : c.isLeaf = false) (p : Nat) :
    checkHeight b p c.node = .ok c.node := by
  rcases h with h | h
  · exact checkHeight_ok_iff.mpr ⟨h, rfl⟩
  · rw [hc] at h
    cases h

theorem conjoin_node {b : Bounds} {a c : Condition} (h : b.Admits (.and a c)) (d : Option Waiting) (p : Nat) :
    Level.conjoin b ⟨d, some ⟨a.node, p⟩⟩ c.node = .ok (Condition.and a c).node :=
  checkHeight_node h rfl p

theorem close_node {b : Bounds} {l : Level} {n : Node} {c : Condition} (hd : l.disjunction = none)
    (h : l.conjoin b n = .ok c.node) : l.close b n = .ok c.node := by
  rw [Level.close, h]
  change l.disjoin b c.node = _
  rw [Level.disjoin, hd]

theorem close_or_node {b : Bounds} {l : Level} {n : Node} {a c : Condition} {p : Nat}
    (h : b.Admits (.or a c)) (hd : l.disjunction = some ⟨a.node, p⟩) (hn : l.conjoin b n = .ok c.node) :
    l.close b n = .ok (Condition.or a c).node := by
  rw [Level.close, hn]
  change l.disjoin b c.node = _
  rw [Level.disjoin, hd]
  exact checkHeight_node h rfl p

def Leads (b : Bounds) (ts : List (Nat × Token)) (c : Condition) (outer : List (Nat × Level)) :
    Rank → Prop
  | .operand => ∀ l, advance b ⟨outer, l, .operand⟩ ts = .ok ⟨outer, l, .connective c.node⟩
  | .conjunction => ∀ d, ∃ w n, advance b ⟨outer, ⟨d, none⟩, .operand⟩ ts =
      .ok ⟨outer, ⟨d, w⟩, .connective n⟩ ∧ Level.conjoin b ⟨d, w⟩ n = .ok c.node
  | .disjunction => ∃ l n, advance b ⟨outer, .fresh, .operand⟩ ts = .ok ⟨outer, l, .connective n⟩ ∧
      l.close b n = .ok c.node

theorem Leads.compare (b : Bounds) (outer : List (Nat × Level)) (p q r : Nat) (f : String) (o : Operator)
    (v : Value) : Leads b [(p, .ident f), (q, .op o), (r, .literal v)] (.compare f o v) outer .operand := by
  intro l
  rw [advance_cons (.field outer l p f), advance_cons (.operator outer l q f o),
    advance_cons (.literal outer l r f o v), advance_nil]
  rfl

theorem Leads.group {b : Bounds} {ts : List (Nat × Token)} {c : Condition} {outer : List (Nat × Level)}
    (p q : Nat) (ho : outer.length < b.nesting)
    (h : ∀ l, Leads b ts c ((p, l) :: outer) .disjunction) :
    Leads b ((p, .leftParen) :: (ts ++ [(q, .rightParen)])) c outer .operand := by
  intro l
  obtain ⟨k, n, hk, hc⟩ := h l
  rw [advance_cons (.opening l p ho), advance_append hk, advance_cons (.closing outer l p q hc), advance_nil]

theorem Leads.single {b : Bounds} {ts : List (Nat × Token)} {c : Condition} {outer : List (Nat × Level)}
    (h : Leads b ts c outer .operand) : Leads b ts c outer .conjunction := by
  intro d
  exact ⟨none, c.node, h _, rfl⟩

theorem Leads.and {b : Bounds} {ts us : List (Nat × Token)} {a c : Condition} {outer : List (Nat × Level)}
    (p : Nat) (hb : b.Admits (.and a c)) (ha : Leads b ts a outer .conjunction)
    (hc : Leads b us c outer .operand) :
    Leads b (ts ++ (p, .and) :: us) (.and a c) outer .conjunction := by
  intro d
  obtain ⟨w, n, hw, hn⟩ := ha d
  refine ⟨some ⟨a.node, p⟩, c.node, ?_, conjoin_node hb d p⟩
  rw [advance_append hw, advance_cons (.and outer p hn)]
  exact hc _

theorem Leads.alone {b : Bounds} {ts : List (Nat × Token)} {c : Condition} {outer : List (Nat × Level)}
    (h : Leads b ts c outer .conjunction) : Leads b ts c outer .disjunction := by
  obtain ⟨w, n, hw, hn⟩ := h none
  exact ⟨_, n, hw, close_node rfl hn⟩

theorem Leads.or {b : Bounds} {ts us : List (Nat × Token)} {a c : Condition} {outer : List (Nat × Level)}
    (p : Nat) (hb : b.Admits (.or a c)) (ha : Leads b ts a outer .disjunction)
    (hc : Leads b us c outer .conjunction) :
    Leads b (ts ++ (p, .or) :: us) (.or a c) outer .disjunction := by
  obtain ⟨l, n, hl, hn⟩ := ha
  obtain ⟨w, m, hw, hm⟩ := hc (some ⟨a.node, p⟩)
  refine ⟨_, m, ?_, close_or_node hb rfl hm⟩
  rw [advance_append hl, advance_cons (.or outer p hn)]
  exact hw

end Condition

namespace Phrase

open Condition

theorem leads {b : Bounds} {r : Rank} {ts : List Token} {c : Condition} (h : Phrase r ts c)
    {its : List (Nat × Token)} (hi : its.map Prod.snd = ts) (outer : List (Nat × Level))
    (ho : outer.length + tokenNesting ts ≤ b.nesting) (hc : b.Admits c) : Leads b its c outer r := by
  -- The offsets do not matter, so the tokens are split where the derivation splits them.
  induction h generalizing its outer with
  | compare f o v =>
    obtain ⟨⟨p, _⟩, its₁, rfl, rfl, h₁⟩ := List.map_eq_cons_iff.mp hi
    obtain ⟨⟨q, _⟩, its₂, rfl, rfl, h₂⟩ := List.map_eq_cons_iff.mp h₁
    obtain ⟨⟨r, _⟩, its₃, rfl, rfl, h₃⟩ := List.map_eq_cons_iff.mp h₂
    cases List.map_eq_nil_iff.mp h₃
    exact .compare b outer p q r f o v
  | group h ih =>
    obtain ⟨⟨p, _⟩, tail, rfl, rfl, ht⟩ := List.map_eq_cons_iff.mp hi
    obtain ⟨inner, last, rfl, hs, hl⟩ := List.map_eq_append_iff.mp ht
    obtain ⟨⟨q, _⟩, others, rfl, rfl, he⟩ := List.map_eq_cons_iff.mp hl
    cases List.map_eq_nil_iff.mp he
    rw [tokenNesting_group h.balanced] at ho
    refine .group p q (by omega) ?_
    intro l
    exact ih hs _ (by rw [List.length_cons]; omega) hc
  | single h ih => exact (ih hi outer ho hc).single
  | and ha hb iha ihb =>
    obtain ⟨left, tail, rfl, hl, ht⟩ := List.map_eq_append_iff.mp hi
    obtain ⟨⟨p, _⟩, right, rfl, rfl, hr⟩ := List.map_eq_cons_iff.mp ht
    rw [tokenNesting_join ha.balanced _ rfl] at ho
    exact .and p hc (iha hl outer (by omega) hc.left_and) (ihb hr outer (by omega) hc.right_and)
  | alone h ih => exact (ih hi outer ho hc).alone
  | or ha hb iha ihb =>
    obtain ⟨left, tail, rfl, hl, ht⟩ := List.map_eq_append_iff.mp hi
    obtain ⟨⟨p, _⟩, right, rfl, rfl, hr⟩ := List.map_eq_cons_iff.mp ht
    rw [tokenNesting_join ha.balanced _ rfl] at ho
    exact .or p hc (iha hl outer (by omega) hc.left_or) (ihb hr outer (by omega) hc.right_or)

theorem run_eq {b : Bounds} {ts : Tokens} {c : Condition} (h : Phrase .disjunction ts.plain c)
    (he : ts.error? = none) (hn : tokenNesting ts.plain ≤ b.nesting) (hc : b.Admits c) :
    run b .start ts = .ok c.node := by
  obtain ⟨l, n, hl, hm⟩ := h.leads rfl [] (by rw [List.length_nil]; omega) hc
  refine run_eq_ok_of_advance he hl ?_
  intro p
  exact finish_ok_iff.mpr ⟨l, n, rfl, hm⟩

theorem unique {ts : List Token} {c d : Condition} (hc : Phrase .disjunction ts c)
    (hd : Phrase .disjunction ts d) : c = d := by
  -- Within bounds that let both pass, both are what the one run gives.
  let b : Bounds := ⟨tokenNesting ts, max c.depth d.depth⟩
  rw [← Tokens.plain_ofPlain ts] at hc hd
  have hn : tokenNesting (Tokens.ofPlain ts).plain ≤ b.nesting :=
    Nat.le_of_eq (congrArg tokenNesting (Tokens.plain_ofPlain ts))
  have h₁ := hc.run_eq (Tokens.error?_ofPlain ts) hn (.inl (Nat.le_max_left _ _))
  have h₂ := hd.run_eq (Tokens.error?_ofPlain ts) hn (.inl (Nat.le_max_right _ _))
  exact congrArg Node.condition (Except.ok.inj (h₁.symm.trans h₂))

end Phrase

end Rulebook
