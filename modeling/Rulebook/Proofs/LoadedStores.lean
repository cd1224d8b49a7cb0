import Rulebook.Proofs.RestoredRules

namespace Rulebook

open Results

namespace Snapshot

variable {bs : List UInt8} {s : Store}

theorem read_ok_iff : read bs = .ok s ↔ ∃ p, held bs = .ok p ∧ p.check = .ok () ∧ p.toStore? = some s := by
  simp only [read_eq_held, bind_ok_iff, mapError_ok_iff, Payload.toStore_ok_iff]

theorem numbered_of_restored {p : Payload} {rs : List Rule} (checked : p.check = .ok ())
    (restored : List.Forall₂ Entry.Restores p.entries rs) :
    Store.Numbered ⟨.ofList (rs.map fun r => (r.id, r)), p.nextId⟩ := by
  obtain ⟨nonzero, -, entries, -⟩ := Payload.check_ok_iff.mp checked
  have fromRule : ∀ e ∈ (Table.ofList (rs.map fun r => (r.id, r))).entries, ∃ r ∈ rs, (r.id, r) = e := by
    intro e he
    exact List.mem_map.mp ((Payload.entries_perm checked restored).mem_iff.mp he)
  refine ⟨?_, one_le_iff.mpr nonzero, ?_⟩
  · intro e he
    obtain ⟨r, -, rfl⟩ := fromRule e he
    rfl
  · intro e he
    obtain ⟨r, hr, rfl⟩ := fromRule e he
    have listed : r.id ∈ p.entries.map Entry.id := by
      rw [← map_id_of_restores restored]
      exact List.mem_map_of_mem hr
    obtain ⟨d, hd, same⟩ := List.mem_map.mp listed
    obtain ⟨low, high, -⟩ := entries d hd
    rw [same] at low high
    exact ⟨one_le_iff.mpr low, high⟩

theorem numbered_of_read (h : read bs = .ok s) : s.Numbered := by
  obtain ⟨p, -, checked, stored⟩ := read_ok_iff.mp h
  obtain ⟨rs, restored, rfl⟩ := Payload.toStore?_eq_some_iff.mp stored
  exact numbered_of_restored checked restored

theorem held_ne_validation (fault : ValidationFault) : held bs ≠ .error (.validation fault) := by
  intro h
  rcases bind_error_iff.mp h with unopened | ⟨payload, -, undecoded⟩
  · grind [unframe]
  · rcases bind_error_iff.mp undecoded with undecoded | ⟨_, -, returned⟩
    · obtain ⟨e, -, same⟩ := mapError_error_iff.mp undecoded
      cases same
    · cases returned

theorem check_of_read_error {fault : ValidationFault} (h : read bs = .error (.validation fault)) :
    ∃ p, held bs = .ok p ∧ p.check = .error fault := by
  rw [read_eq_held] at h
  cases opened : held bs with
  | error e =>
    rw [opened] at h
    cases h
    exact absurd opened (held_ne_validation fault)
  | ok p =>
    rw [opened] at h
    obtain ⟨_, failed, same⟩ := mapError_error_iff.mp h
    cases same
    exact ⟨p, rfl, Payload.toStore_error_iff.mp failed⟩

/-- Reading gives a store with the rules of the payload, one for each, under ids that are in order. Where
the check passes every tree is converted, so the faults that are reported are those of the check. -/
theorem read_restores (bs : List UInt8) :
    (∀ s, read bs = .ok s →
      s.Numbered ∧ s.nextId.value < 0xFFFFFFFFFFFFFFFF ∧
        ∃ p, held bs = .ok p ∧ s.nextId = p.nextId ∧ s.rules.size = p.entries.length ∧
          ∃ rs, List.Forall₂ Entry.Restores p.entries rs ∧ s.rules.entries.Perm (rs.map fun r => (r.id, r))) ∧
      (∀ p, held bs = .ok p → p.check = .ok () → ∃ s, p.toStore? = some s ∧ read bs = .ok s) ∧
      ∀ fault, read bs = .error (.validation fault) → ∃ p, held bs = .ok p ∧ p.check = .error fault := by
  refine ⟨?_, ?_, fun _ failed => check_of_read_error failed⟩
  · intro s h
    obtain ⟨p, opened, checked, stored⟩ := read_ok_iff.mp h
    obtain ⟨rs, restored, rfl⟩ := Payload.toStore?_eq_some_iff.mp stored
    obtain ⟨-, notLast, -⟩ := Payload.check_ok_iff.mp checked
    have perm := Payload.entries_perm checked restored
    refine ⟨numbered_of_restored checked restored, by grind, p, opened, rfl, ?_, rs, restored, perm⟩
    rw [restored.length_eq, ← List.length_map (fun r : Rule => (r.id, r))]
    exact perm.length_eq
  · intro p opened checked
    obtain ⟨s, stored⟩ := Payload.exists_toStore? checked
    exact ⟨s, stored, read_ok_iff.mpr ⟨p, opened, checked, stored⟩⟩

def gathered : Payload :=
  let inner : Tree := .or [.leaf "b" .eq (.int 2), .leaf "c" .ne (.int 3)]
  ⟨⟨9⟩, [⟨⟨7⟩, "later", .or [.and [.leaf "a" .eq (.int 1)]]⟩,
    ⟨⟨2⟩, "earlier", .and [.leaf "a" .eq (.int 1), inner, .and [.leaf "d" .lt (.int 4)]]⟩]⟩

def hollow : Payload := ⟨⟨9⟩, [⟨⟨1⟩, "none", .and [.leaf "a" .eq (.int 1), .or []]⟩]⟩

theorem read_restores_gathered :
    (∃ bs s, held bs = .ok gathered ∧ read bs = .ok s ∧ s.Numbered ∧ s.rules.size = 2 ∧
      s.get ⟨7⟩ = .ok ⟨⟨7⟩, .compare "a" .eq (.int 1), "later"⟩ ∧
      s.get ⟨2⟩ = .ok ⟨⟨2⟩, .and (.and (.compare "a" .eq (.int 1))
        (.or (.compare "b" .eq (.int 2)) (.compare "c" .ne (.int 3)))) (.compare "d" .lt (.int 4)), "earlier"⟩) ∧
      ∃ bs, read bs = .error (.validation .emptyGroup) ∧ ∃ p, held bs = .ok p ∧ p.check = .error .emptyGroup := by
  constructor
  · -- One byte stands after the payload.
    have opened : held (frame (Encode.payload gathered ++ [0])) = .ok gathered := held_frame (by decide)
    obtain ⟨restores, converts, -⟩ := read_restores (frame (Encode.payload gathered ++ [0]))
    obtain ⟨s, stored, reads⟩ := converts gathered opened rfl
    obtain ⟨numbered, -, p, opened', -, size, -⟩ := restores s reads
    rw [opened] at opened'
    cases opened'
    cases stored
    exact ⟨_, _, opened, reads, numbered, size, rfl, rfl⟩
  · have opened : held (frame (Encode.payload hollow ++ [])) = .ok hollow := held_frame (by decide)
    have refused : read (frame (Encode.payload hollow ++ [])) = .error (.validation .emptyGroup) := by
      rw [read_eq_held, opened]
      rfl
    exact ⟨_, refused, (read_restores _).2.2 _ refused⟩

end Snapshot

inductive Store.Initial : Store → Prop
  | empty : Initial .empty
  | loaded {bs : List UInt8} {s : Store} : Snapshot.read bs = .ok s → Initial s

theorem Store.Initial.numbered {s : Store} (h : s.Initial) : s.Numbered := by
  cases h with
  | empty => exact ⟨keyed_empty, by decide, fun _ h => nomatch h⟩
  | loaded read => exact Snapshot.numbered_of_read read

end Rulebook
