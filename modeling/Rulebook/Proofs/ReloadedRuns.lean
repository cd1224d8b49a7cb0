import Rulebook.Proofs.EngineRuns

namespace Rulebook

open Snapshot

def Store.Fits (s : Store) : Prop := (Encode.payload (.ofStore s)).length < 0x100000000

instance (s : Store) : Decidable s.Fits := inferInstanceAs (Decidable (_ < _))

theorem Store.Fits.write {s : Store} (h : s.Fits) : Snapshot.write s = .ok (frame (Encode.payload (.ofStore s))) := by
  rw [Snapshot.write]
  exact if_pos h

theorem Store.Numbered.initial {s : Store} (h : s.Numbered) (fits : s.Fits)
    (below : s.nextId.value ≠ 0xFFFFFFFFFFFFFFFF) : s.Initial := by
  have loaded := read_back h fits.write
  rw [if_neg below] at loaded
  exact .loaded loaded

namespace Engine

variable {e : Engine} {vs : List Event}

theorem load_of_save {bs : List UInt8} (h : e.store.Numbered) (saved : e.save = .ok bs) :
    e.load bs =
      if e.store.nextId.value = 0xFFFFFFFFFFFFFFFF then .error (.validation (.nextIdOutOfRange e.store.nextId))
      else .ok e := by
  rw [load, read_back h saved]
  split <;> rfl

theorem numbered_through (initial : e.store.Initial) (room : e.HasRoom vs) : (e.through vs).store.Numbered :=
  (leads_through initial.numbered.keyed vs).numbered initial.numbered room.store

theorem load_saved_through (e : Engine) (initial : e.store.Initial) (vs : List Event) (room : e.HasRoom vs)
    (fits : (e.through vs).store.Fits) :
    ∃ bs, (e.through vs).save = .ok bs ∧
      (e.through vs).load bs =
        if (e.through vs).store.nextId.value = 0xFFFFFFFFFFFFFFFF then
          .error (.validation (.nextIdOutOfRange ⟨0xFFFFFFFFFFFFFFFF⟩))
        else .ok (e.through vs) := by
  have loaded := load_of_save (numbered_through initial room) fits.write
  refine ⟨_, fits.write, ?_⟩
  rw [loaded]
  split
  · next last => rw [← last]
  · rfl

def startingAt (next : UInt64) : Engine := ⟨⟨.empty, ⟨next⟩⟩, {}⟩

theorem startingAt_initial {next : UInt64} (positive : 1 ≤ next) (below : next ≠ 0xFFFFFFFFFFFFFFFF)
    (fits : (startingAt next).store.Fits) : (startingAt next).store.Initial := by
  have numbered : (startingAt next).store.Numbered := by
    refine ⟨?_, positive, ?_⟩
    · intro e he
      cases he
    · intro e he
      cases he
  exact numbered.initial fits below

theorem load_saved_through_sample :
    let e := startingAt 0xFFFFFFFFFFFFFFFC
    let vs : List Event := [.request (.create "a = 1"), .request (.modify ⟨0xFFFFFFFFFFFFFFFC⟩ "b = 2 OR c = 3"),
      .request (.combine [⟨0xFFFFFFFFFFFFFFFC⟩, ⟨0xFFFFFFFFFFFFFFFC⟩])]
    e.store.Initial ∧ e.HasRoom vs ∧ (e.through vs).store.Fits ∧
      (e.through vs).store.rules.keys = [⟨0xFFFFFFFFFFFFFFFC⟩, ⟨0xFFFFFFFFFFFFFFFD⟩] ∧
      ∃ bs, (e.through vs).save = .ok bs ∧ (e.through vs).load bs = .ok (e.through vs) := by
  intro e vs
  have initial : e.store.Initial := startingAt_initial (by decide) (by decide) (by decide)
  have room : e.HasRoom vs := by decide +kernel
  have fits : (e.through vs).store.Fits := by decide +kernel
  have below : (e.through vs).store.nextId.value ≠ 0xFFFFFFFFFFFFFFFF := by decide +kernel
  have loaded := load_saved_through e initial vs room fits
  rw [if_neg below] at loaded
  exact ⟨initial, room, fits, by decide +kernel, loaded⟩

/-- A loaded engine may hand out one id without wrapping and then not be loaded again. -/
theorem load_saved_exhausted :
    let e := startingAt 0xFFFFFFFFFFFFFFFE
    let vs : List Event := [.request (.create "a = 1")]
    e.store.Initial ∧ e.HasRoom vs ∧ (e.through vs).store.Fits ∧
      ∃ bs, (e.through vs).save = .ok bs ∧
        (e.through vs).load bs = .error (.validation (.nextIdOutOfRange ⟨0xFFFFFFFFFFFFFFFF⟩)) := by
  intro e vs
  have initial : e.store.Initial := startingAt_initial (by decide) (by decide) (by decide)
  have room : e.HasRoom vs := by decide +kernel
  have fits : (e.through vs).store.Fits := by decide +kernel
  have last : (e.through vs).store.nextId = ⟨0xFFFFFFFFFFFFFFFF⟩ := by decide +kernel
  refine ⟨initial, room, fits, _, fits.write, ?_⟩
  rw [load_of_save (numbered_through initial room) fits.write, last]
  rfl

end Engine

end Rulebook
