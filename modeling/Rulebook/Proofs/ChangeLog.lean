import Mathlib.Algebra.Group.Nat.Defs
import Rulebook.Proofs.KeyedStores

/-!
A store as the log of its changes. A change adds a rule under the next id or puts one in the place of the
rule that has its id, and a store answers for an id with the last change to it.
-/

namespace Rulebook

inductive Change
  | append (r : Rule)
  | overwrite (r : Rule)

namespace Change

def rule : Change → Rule
  | append r => r
  | overwrite r => r

def appended? : Change → Option RuleId
  | append r => some r.id
  | overwrite _ => none

def overwritten? : Change → Option RuleId
  | append _ => none
  | overwrite r => some r.id

end Change

def appended (cs : List Change) : List RuleId := cs.filterMap Change.appended?

def overwritten (cs : List Change) : List RuleId := cs.filterMap Change.overwritten?

@[simp] theorem appended_append (r : Rule) (cs : List Change) :
    appended (.append r :: cs) = r.id :: appended cs := rfl

def latest? (i : RuleId) (cs : List Change) : Option Rule := (cs.map Change.rule).reverse.find? fun r => r.id = i

theorem latest?_cons (i : RuleId) (c : Change) (cs : List Change) :
    latest? i (c :: cs) = (latest? i cs).or (if c.rule.id = i then some c.rule else none) := by
  simp only [latest?, List.map_cons, List.reverse_cons, List.find?_append, List.find?_singleton, decide_eq_true_eq]

namespace Store

def apply (s : Store) : Change → Store
  | .append r => ⟨s.rules.insert r.id r, ⟨s.nextId.value + 1⟩⟩
  | .overwrite r => ⟨s.rules.insert r.id r, s.nextId⟩

def Allows (s : Store) : Change → Prop
  | .append r => r.id = s.nextId
  | .overwrite r => ∃ old, s.get r.id = .ok old

inductive Leads : Store → List Change → Store → Prop
  | still (s : Store) : Leads s [] s
  | change {s t : Store} {c : Change} {cs : List Change} :
    s.Allows c → Leads (s.apply c) cs t → Leads s (c :: cs) t

theorem Leads.one {s : Store} {c : Change} (h : s.Allows c) : Leads s [c] (s.apply c) := .change h (.still _)

theorem Leads.trans {s t u : Store} {cs ds : List Change} (h : Leads s cs t) (g : Leads t ds u) :
    Leads s (cs ++ ds) u := by
  induction h with
  | still s => exact g
  | change allowed _ ih => exact .change allowed (ih g)

theorem get_eq_ok_iff {s : Store} {i : RuleId} {r : Rule} : s.get i = .ok r ↔ s.rules.get? i = some r := by
  unfold get
  cases s.rules.get? i <;> simp

theorem get_insert (s : Store) (r : Rule) (next i : RuleId) :
    (Store.mk (s.rules.insert r.id r) next).get i = if r.id = i then .ok r else s.get i := by
  simp only [get, Table.get?_insert, Std.LawfulEqOrd.compare_eq_iff_eq, eq_comm (a := i)]
  by_cases h : r.id = i <;> simp [h]

theorem get_apply (s : Store) (c : Change) (i : RuleId) :
    (s.apply c).get i = if c.rule.id = i then .ok c.rule else s.get i := by
  cases c with
  | append r => exact get_insert s r _ i
  | overwrite r => exact get_insert s r _ i

theorem get_apply_self (s : Store) (c : Change) : (s.apply c).get c.rule.id = .ok c.rule := by
  rw [get_apply, if_pos rfl]

theorem get_apply_other {s : Store} {c : Change} {i : RuleId} (h : c.rule.id ≠ i) : (s.apply c).get i = s.get i := by
  rw [get_apply, if_neg h]

variable {s t : Store} {cs : List Change}

theorem Leads.get_eq (h : Leads s cs t) (i : RuleId) :
    t.get i =
      match latest? i cs with
      | some r => .ok r
      | none => s.get i := by
  induction h with
  | still s => rfl
  | @change s t c cs _ _ ih =>
    rw [ih, latest?_cons]
    cases latest? i cs with
    | some r => rfl
    | none =>
      rw [get_apply]
      by_cases hi : c.rule.id = i <;> simp [hi]

theorem Leads.keyed (h : Leads s cs t) (hs : s.Keyed) : t.Keyed := by
  induction h with
  | still s => exact hs
  | @change s t c cs _ _ ih =>
    apply ih
    cases c with
    | append r => exact hs.insert rfl
    | overwrite r => exact hs.insert rfl

theorem Leads.nextId_value (h : Leads s cs t) :
    t.nextId.value = s.nextId.value + UInt64.ofNat (appended cs).length := by
  induction h with
  | still s => exact (UInt64.add_zero _).symm
  | @change s t c cs _ _ ih =>
    rw [ih]
    cases c with
    | append r =>
      rw [appended_append, List.length_cons, UInt64.ofNat_add, UInt64.add_comm (UInt64.ofNat _), ← UInt64.add_assoc]
      rfl
    | overwrite r => rfl

theorem Leads.appended_eq (h : Leads s cs t) :
    appended cs = (List.range (appended cs).length).map fun n => ⟨s.nextId.value + UInt64.ofNat n⟩ := by
  induction h with
  | still s => rfl
  | @change s t c cs allowed _ ih =>
    cases c with
    | append r =>
      have first : r.id = s.nextId := allowed
      have later : ∀ n, s.nextId.value + UInt64.ofNat (n + 1) = (s.apply (.append r)).nextId.value + UInt64.ofNat n := by
        intro n
        rw [UInt64.ofNat_add, UInt64.add_comm (UInt64.ofNat n), ← UInt64.add_assoc]
        rfl
      rw [appended_append, List.length_cons, List.range_succ_eq_map, List.map_cons, List.map_map]
      simp only [Function.comp_def, Nat.succ_eq_add_one, later, ← ih, first]
      simp
    | overwrite r => exact ih

def Room (s : Store) (cs : List Change) : Prop := s.nextId.value.toNat + (appended cs).length < 2 ^ 64

theorem toNat_add_ofNat {w : UInt64} {n : Nat} (h : w.toNat + n < 2 ^ 64) :
    (w + UInt64.ofNat n).toNat = w.toNat + n := by
  rw [UInt64.toNat_add, UInt64.toNat_ofNat', Nat.add_mod_mod]
  exact Nat.mod_eq_of_lt h

theorem Room.first {r : Rule} (h : s.Room (.append r :: cs)) : s.nextId.value.toNat + 1 < 2 ^ 64 := by
  rw [Room, appended_append, List.length_cons] at h
  omega

theorem Room.rest {r : Rule} (h : s.Room (.append r :: cs)) : (s.apply (.append r)).Room cs := by
  have next : (s.apply (.append r)).nextId.value.toNat = s.nextId.value.toNat + 1 := toNat_add_ofNat h.first
  rw [Room, appended_append, List.length_cons] at h
  rw [Room, next]
  omega

theorem Numbered.range_of_get (h : s.Numbered) {i : RuleId} {r : Rule} (stored : s.get i = .ok r) :
    1 ≤ i.value ∧ i.value < s.nextId.value :=
  h.range (i, r) (Table.mem_of_get? (get_eq_ok_iff.mp stored))

theorem Numbered.get_nextId (h : s.Numbered) : s.get s.nextId = .error (.notFound s.nextId) := by
  cases found : s.get s.nextId with
  | ok r =>
    obtain ⟨-, below⟩ := h.range_of_get found
    exact absurd below (UInt64.lt_irrefl _)
  | error err =>
    simp only [get] at found
    split at found
    · cases found
    · exact found.symm

theorem Numbered.append {r : Rule} (h : s.Numbered) (id : r.id = s.nextId)
    (room : s.nextId.value.toNat + 1 < 2 ^ 64) : (s.apply (.append r)).Numbered := by
  have next : (s.nextId.value + 1).toNat = s.nextId.value.toNat + 1 := toNat_add_ofNat room
  refine ⟨h.keyed.insert rfl, ?_, ?_⟩
  · apply UInt64.le_iff_toNat_le.mpr
    change 1 ≤ (s.nextId.value + 1).toNat
    omega
  · intro e he
    change 1 ≤ e.1.value ∧ e.1.value < s.nextId.value + 1
    rw [UInt64.lt_iff_toNat_lt, next]
    rcases Table.mem_place he with rfl | he
    · rw [id]
      exact ⟨h.next, Nat.lt_succ_self _⟩
    · obtain ⟨low, high⟩ := h.range e he
      exact ⟨low, Nat.lt_succ_of_lt (UInt64.lt_iff_toNat_lt.mp high)⟩

theorem Numbered.overwrite {r old : Rule} (h : s.Numbered) (stored : s.get r.id = .ok old) :
    (s.apply (.overwrite r)).Numbered := by
  refine ⟨h.keyed.insert rfl, h.next, ?_⟩
  intro e he
  rcases Table.mem_place he with rfl | he
  · exact h.range_of_get stored
  · exact h.range e he

theorem Numbered.keys_append {r : Rule} (h : s.Numbered) (id : r.id = s.nextId) :
    (s.apply (.append r)).rules.keys = s.rules.keys ++ [r.id] := by
  apply Table.keys_insert_last
  intro e he
  rw [id]
  have below : compare e.1.value s.nextId.value = .lt := Std.compare_eq_lt.mpr (h.range e he).2
  exact below

theorem Leads.numbered (h : Leads s cs t) (hs : s.Numbered) (room : s.Room cs) : t.Numbered := by
  induction h with
  | still s => exact hs
  | @change s t c cs allowed _ ih =>
    cases c with
    | append r => exact ih (hs.append allowed room.first) room.rest
    | overwrite r =>
      obtain ⟨old, stored⟩ := allowed
      exact ih (hs.overwrite stored) room

theorem Leads.keys (h : Leads s cs t) (hs : s.Numbered) (room : s.Room cs) :
    t.rules.keys = s.rules.keys ++ appended cs := by
  induction h with
  | still s => exact (List.append_nil _).symm
  | @change s t c cs allowed _ ih =>
    cases c with
    | append r =>
      rw [ih (hs.append allowed room.first) room.rest, hs.keys_append allowed, List.append_assoc]
      rfl
    | overwrite r =>
      obtain ⟨old, stored⟩ := allowed
      have same : (s.rules.insert r.id r).keys = s.rules.keys :=
        Table.keys_insert_of_get? (get_eq_ok_iff.mp stored)
      rw [ih (hs.overwrite stored) room]
      exact congrArg (· ++ appended cs) same

theorem Leads.nextId_toNat (h : Leads s cs t) (room : s.Room cs) :
    t.nextId.value.toNat = s.nextId.value.toNat + (appended cs).length := by
  rw [h.nextId_value]
  exact toNat_add_ofNat room

theorem Leads.appended_toNat (h : Leads s cs t) (room : s.Room cs) :
    (appended cs).map (fun i => i.value.toNat) = List.range' s.nextId.value.toNat (appended cs).length := by
  have number : ∀ n ∈ List.range (appended cs).length,
      (s.nextId.value + UInt64.ofNat n).toNat = s.nextId.value.toNat + n := by
    intro n hn
    have below := List.mem_range.mp hn
    apply toNat_add_ofNat
    rw [Room] at room
    omega
  conv => lhs; rw [h.appended_eq]
  rw [List.map_map, List.range'_eq_map_range]
  exact List.map_congr_left number

end Store

end Rulebook
