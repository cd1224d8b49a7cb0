import Rulebook.Json

namespace Rulebook.Json

inductive Sound : Json → Prop
  | null : Sound null
  | bool (b : Bool) : Sound (bool b)
  | number {n : Numeral} (range : inRange n) : Sound (number n)
  | str (s : String) : Sound (str (some s))
  | array {items : List Json} (each : ∀ v ∈ items, Sound v) : Sound (array items)
  | object {ms : Members} (named : ∀ m ∈ ms, m.1.isSome) (each : ∀ m ∈ ms, Sound m.2) : Sound (object ms)

structure Members.Sound (ms : Members) : Prop where
  named : ∀ m ∈ ms, m.1.isSome
  each : ∀ m ∈ ms, m.2.Sound

def Frame.Sound : Frame → Prop
  | array items => ∀ v ∈ items, v.Sound
  | object ms key => Members.Sound ms ∧ key.isSome

def Phase.Sound : Phase → Prop
  | key ms => Members.Sound ms
  | colon ms k => Members.Sound ms ∧ k.isSome
  | complete v => v.Sound
  | _ => True

structure State.Sound (s : State) : Prop where
  frames : ∀ f ∈ s.frames, f.Sound
  phase : s.phase.Sound

theorem Members.Sound.cons {ms : Members} {key : Option String} {v : Json} (h : Members.Sound ms)
    (named : key.isSome) (sound : v.Sound) : Members.Sound ((key, v) :: ms) :=
  ⟨List.forall_mem_cons.mpr ⟨named, h.named⟩, List.forall_mem_cons.mpr ⟨sound, h.each⟩⟩

theorem Members.Sound.reversed {ms : Members} (h : Members.Sound ms) : (object ms.reverse).Sound := by
  apply Json.Sound.object
  · intro m inside
    exact h.named m (List.mem_reverse.mp inside)
  · intro m inside
    exact h.each m (List.mem_reverse.mp inside)

theorem begin_sound {frames : List Frame} {s : State} {t : Token} (sound : t.isSound)
    (opened : ∀ f ∈ frames, f.Sound) (h : begin frames t = some s) : s.Sound := by
  cases t with
  | null =>
    cases h
    exact ⟨opened, Json.Sound.null⟩
  | bool b =>
    cases h
    exact ⟨opened, Json.Sound.bool b⟩
  | number n =>
    cases h
    exact ⟨opened, Json.Sound.number sound⟩
  | str k =>
    cases h
    obtain ⟨k, rfl⟩ := Option.isSome_iff_exists.mp sound
    exact ⟨opened, Json.Sound.str k⟩
  | leftBracket =>
    cases h
    exact ⟨opened, trivial⟩
  | leftBrace =>
    cases h
    exact ⟨opened, trivial⟩
  | _ => cases h

theorem complete_sound {frames : List Frame} {v : Json} {s : State} {t : Token}
    (opened : ∀ f ∈ frames, f.Sound) (sound : v.Sound) (h : step ⟨frames, .complete v⟩ t = some s) : s.Sound := by
  cases frames with
  | nil => cases h
  | cons f frames =>
    obtain ⟨first, others⟩ := List.forall_mem_cons.mp opened
    cases f with
    | array items =>
      have each : ∀ w ∈ v :: items, w.Sound := List.forall_mem_cons.mpr ⟨sound, first⟩
      cases t with
      | comma =>
        cases h
        exact ⟨List.forall_mem_cons.mpr ⟨each, others⟩, trivial⟩
      | rightBracket =>
        cases h
        exact ⟨others, Json.Sound.array fun w inside => each w (List.mem_reverse.mp inside)⟩
      | _ => cases h
    | object ms key =>
      have more : Members.Sound ((key, v) :: ms) := first.1.cons first.2 sound
      cases t with
      | comma =>
        cases h
        exact ⟨others, more⟩
      | rightBrace =>
        cases h
        exact ⟨others, more.reversed⟩
      | _ => cases h

theorem step_sound {s s' : State} {t : Token} (sound : t.isSound) (before : s.Sound) (h : step s t = some s') :
    s'.Sound := by
  obtain ⟨frames, phase⟩ := s
  obtain ⟨opened, inside⟩ := before
  cases phase with
  | value => exact begin_sound sound opened h
  | firstItem =>
    have started : ∀ f ∈ Frame.array [] :: frames, f.Sound :=
      List.forall_mem_cons.mpr ⟨List.forall_mem_nil _, opened⟩
    cases t with
    | rightBracket =>
      cases h
      exact ⟨opened, Json.Sound.array (List.forall_mem_nil _)⟩
    | _ => exact begin_sound sound started h
  | firstKey =>
    have empty : Members.Sound [] := ⟨List.forall_mem_nil _, List.forall_mem_nil _⟩
    cases t with
    | rightBrace =>
      cases h
      exact ⟨opened, empty.reversed⟩
    | str k =>
      cases h
      exact ⟨opened, empty, sound⟩
    | _ => cases h
  | key ms =>
    cases t with
    | str k =>
      cases h
      exact ⟨opened, inside, sound⟩
    | _ => cases h
  | colon ms key =>
    cases t with
    | colon =>
      cases h
      exact ⟨List.forall_mem_cons.mpr ⟨inside, opened⟩, trivial⟩
    | _ => cases h
  | complete v => exact complete_sound opened inside h

theorem run_sound {s s' : State} {ts : List Token} (sound : ∀ t ∈ ts, t.isSound) (before : s.Sound)
    (h : ts.foldlM step s = some s') : s'.Sound := by
  induction ts generalizing s with
  | nil =>
    cases h
    exact before
  | cons t ts ih =>
    obtain ⟨first, others⟩ := List.forall_mem_cons.mp sound
    rw [List.foldlM_cons] at h
    obtain ⟨next, taken, rest⟩ := Option.bind_eq_some_iff.mp h
    exact ih others (step_sound first before taken) rest

theorem ofTokens_sound {ts : List Token} {v : Json} (sound : ∀ t ∈ ts, t.isSound) (h : ofTokens ts = some v) :
    v.Sound := by
  obtain ⟨s, run, last⟩ := Option.bind_eq_some_iff.mp h
  have start : State.Sound ⟨[], .value⟩ := ⟨List.forall_mem_nil _, trivial⟩
  have ending := run_sound sound start run
  split at last
  · cases last
    exact ending.phase
  · cases last

theorem parseData_eq_some_iff {text : String} {v : Json} :
    parseData text = some v ↔ ∃ ts, tokens text.toList = some ts ∧
      (ts.all Token.isSound && deepest 0 (ts.filterMap Token.bracket?) ≤ maxNesting) = true ∧
        ofTokens ts = some v := by
  rw [parseData, Option.bind_eq_bind, Option.bind_eq_some_iff]
  apply exists_congr
  intro ts
  apply and_congr_right
  intro _
  split
  · next admitted => simp only [admitted, true_and]
  · next refused => simp only [refused, reduceCtorEq, false_and]

theorem parseData_sound {text : String} {v : Json} (h : parseData text = some v) : v.Sound := by
  obtain ⟨ts, -, admitted, built⟩ := parseData_eq_some_iff.mp h
  exact ofTokens_sound (List.all_eq_true.mp (Bool.and_eq_true_iff.mp admitted).1) built

end Rulebook.Json
