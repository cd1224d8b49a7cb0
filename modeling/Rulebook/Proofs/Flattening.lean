import Rulebook.Snapshot.Tree

namespace Rulebook.Snapshot.Tree

theorem toConditions?_append {ts us : List Tree} {cs ds : List Condition} (ht : toConditions? ts = some cs)
    (hu : toConditions? us = some ds) : toConditions? (ts ++ us) = some (cs ++ ds) := by
  induction ts generalizing cs with
  | nil =>
    rw [toConditions?] at ht
    cases ht
    exact hu
  | cons t ts ih =>
    simp only [toConditions?, Option.bind_eq_bind, Option.bind_eq_some_iff, Option.pure_def,
      Option.some.injEq] at ht
    obtain ⟨c, hc, cs', hcs, rfl⟩ := ht
    simp [toConditions?, hc, ih hcs]

theorem toConditions?_singleton {t : Tree} {c : Condition} (h : toCondition? t = some c) :
    toConditions? [t] = some [c] := by
  simp [toConditions?, h]

theorem chain_concat {join : Condition → Condition → Condition} {cs : List Condition} {a : Condition}
    (h : chain join cs = some a) (b : Condition) : chain join (cs ++ [b]) = some (join a b) := by
  cases cs with
  | nil => cases h
  | cons c cs =>
    cases h
    simp [chain]

section Groups

variable {join : Condition → Condition → Condition} {s t : Tree} {ts : List Tree} {a b : Condition}

theorem group_concat (hs : (toConditions? ts >>= chain join) = some a) (ht : toCondition? t = some b) :
    (toConditions? (ts ++ [t]) >>= chain join) = some (join a b) := by
  obtain ⟨cs, hcs, hc⟩ := Option.bind_eq_some_iff.mp hs
  have parts := toConditions?_append hcs (toConditions?_singleton ht)
  rw [parts]
  exact chain_concat hc b

theorem group_pair (hs : toCondition? s = some a) (ht : toCondition? t = some b) :
    (toConditions? [s, t] >>= chain join) = some (join a b) := by
  have parts := toConditions?_append (toConditions?_singleton hs) (toConditions?_singleton ht)
  rw [List.singleton_append] at parts
  rw [parts]
  rfl

theorem toCondition?_joinAnd (hs : toCondition? s = some a) (ht : toCondition? t = some b) :
    toCondition? (joinAnd s t) = some (.and a b) := by
  unfold joinAnd
  split
  · rw [toCondition?] at hs ⊢
    exact group_concat hs ht
  · rw [toCondition?]
    exact group_pair hs ht

theorem toCondition?_joinOr (hs : toCondition? s = some a) (ht : toCondition? t = some b) :
    toCondition? (joinOr s t) = some (.or a b) := by
  unfold joinOr
  split
  · rw [toCondition?] at hs ⊢
    exact group_concat hs ht
  · rw [toCondition?]
    exact group_pair hs ht

end Groups

theorem toCondition?_ofCondition (c : Condition) : toCondition? (ofCondition c) = some c := by
  induction c with
  | compare f o v => rw [ofCondition, toCondition?]
  | and a b iha ihb => exact toCondition?_joinAnd iha ihb
  | or a b iha ihb => exact toCondition?_joinOr iha ihb

theorem toConditions?_isEmpty {ts : List Tree} {cs : List Condition} (h : toConditions? ts = some cs) :
    ts.isEmpty = cs.isEmpty := by
  cases ts with
  | nil =>
    rw [toConditions?] at h
    cases h
    rfl
  | cons t ts =>
    simp only [toConditions?, Option.bind_eq_bind, Option.bind_eq_some_iff, Option.pure_def,
      Option.some.injEq] at h
    obtain ⟨c, -, cs', -, rfl⟩ := h
    rfl

theorem isSome_chain (join : Condition → Condition → Condition) (cs : List Condition) :
    (chain join cs).isSome = !cs.isEmpty := by
  cases cs <;> rfl

theorem isSome_group (join : Condition → Condition → Condition) (ts : List Tree) :
    (toConditions? ts >>= chain join).isSome = (!ts.isEmpty && (toConditions? ts).isSome) := by
  cases h : toConditions? ts with
  | none => simp
  | some cs => simp [isSome_chain, toConditions?_isEmpty h]

mutual

theorem isFilled_eq_isSome : (t : Tree) → t.isFilled = t.toCondition?.isSome
  | leaf f o v => by rw [isFilled, toCondition?]; rfl
  | and ts => by
    have parts := areFilled_eq_isSome ts
    rw [isFilled, toCondition?, parts]
    exact (isSome_group .and ts).symm
  | or ts => by
    have parts := areFilled_eq_isSome ts
    rw [isFilled, toCondition?, parts]
    exact (isSome_group .or ts).symm

theorem areFilled_eq_isSome : (ts : List Tree) → areFilled ts = (toConditions? ts).isSome
  | [] => by rw [areFilled, toConditions?]; rfl
  | t :: ts => by
    have first := isFilled_eq_isSome t
    have others := areFilled_eq_isSome ts
    rw [areFilled, toConditions?, first, others]
    cases toCondition? t with
    | none => rfl
    | some c => cases toConditions? ts <;> rfl

end

theorem isFilled_ofCondition (c : Condition) : (ofCondition c).isFilled = true := by
  rw [isFilled_eq_isSome, toCondition?_ofCondition]
  rfl

end Rulebook.Snapshot.Tree
