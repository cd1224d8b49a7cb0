import Rulebook.Proofs.FinalValues

namespace Rulebook.Json

open Results

variable {ms ns : Members} {k : String} {v : Json} {r : Record} {e : RecordError}

theorem fieldOf_ok_iff {m : String × Json} {f : String × Value} :
    fieldOf m = .ok f ↔ f.1 = m.1 ∧ m.2.toValue? = some f.2 := by
  obtain ⟨k, x⟩ := f
  rw [fieldOf]
  cases m.2.toValue? with
  | none => simp
  | some y => simp [eq_comm]

theorem fieldOf_error_iff {m : String × Json} :
    fieldOf m = .error e ↔ m.2.toValue? = none ∧ e = .unsupportedValue m.1 m.2.shape := by
  rw [fieldOf]
  cases m.2.toValue? with
  | none => simp [eq_comm]
  | some y => simp

theorem toRecord_object (ms : Members) :
    toRecord (object ms) = (memberTable ms).entries.mapM fieldOf >>= fun fs => .ok (.ofList fs) :=
  rfl

theorem toRecord_gives (sound : (object ms).Sound) (h : toRecord (object ms) = .ok r) (k : String) :
    Option.Rel Gives (finalValue? ms k) (r.get? k) := by
  rw [toRecord_object] at h
  obtain ⟨fs, fields, same⟩ := bind_ok_iff.mp h
  cases same
  have taken := (mapM_ok_iff.mp fields).imp fun _ _ => fieldOf_ok_iff.mp
  have found := Table.get?_ofList_related (fun (v : Json) x => v.toValue? = some x) taken k
  rw [get?_memberTable] at found
  apply rel_imp found
  intro v x final value
  exact (final_sound sound final).gives_iff.mpr value

theorem toRecord_least (sound : (object ms).Sound) (h : toRecord (object ms) = .error e) :
    ∃ k v, LeastUnsuited ms k v ∧ e = .unsupportedValue k v.shape := by
  rw [toRecord_object] at h
  rcases bind_error_iff.mp h with failed | ⟨_, _, none⟩
  · obtain ⟨before, ⟨k, v⟩, after, split, passed, failed⟩ := mapM_error_iff.mp failed
    obtain ⟨refused, same⟩ := fieldOf_error_iff.mp failed
    have final : finalValue? ms k = some v := by
      rw [← mem_entries_iff, split]
      exact List.mem_append_right _ List.mem_cons_self
    refine ⟨k, v, ⟨final, (final_sound sound final).toValue?_eq_none_iff.mp refused, ?_⟩, same⟩
    intro k' v' final' unsuited
    rw [← (final_sound sound final').toValue?_eq_none_iff] at unsuited
    rw [toUTF8_le_iff]
    have ascending := (memberTable ms).ascending
    rw [← mem_entries_iff, split] at final'
    rw [split] at ascending
    rcases List.mem_append.mp final' with earlier | later
    · obtain ⟨f, taken⟩ := passed _ earlier
      have given := (fieldOf_ok_iff.mp taken).2
      rw [unsuited] at given
      cases given
    · rcases List.mem_cons.mp later with here | later
      · cases here
        exact le_refl k
      · have below := (List.pairwise_cons.mp (List.pairwise_append.mp ascending).2.1).1 _ later
        exact le_of_lt (compare_lt_iff_lt.mp below)
  · cases none

theorem toRecord_suited (sound : (object ms).Sound) (h : toRecord (object ms) = .ok r)
    (final : finalValue? ms k = some v) : v.shape.isScalar := by
  have given := toRecord_gives sound h k
  rw [final, rel_some_iff] at given
  obtain ⟨x, -, given⟩ := given
  exact given.scalar

theorem toRecord_ok_iff (sound : (object ms).Sound) :
    toRecord (object ms) = .ok r ↔ ∀ k, Option.Rel Gives (finalValue? ms k) (r.get? k) := by
  refine ⟨toRecord_gives sound, ?_⟩
  intro h
  cases result : toRecord (object ms) with
  | ok r' =>
    have same : r' = r := by
      apply Table.ext_get?
      intro k
      apply rel_unique (toRecord_gives sound result k) (h k)
      intro v x y final first second
      have sound := final_sound sound final
      rw [sound.gives_iff] at first second
      exact Option.some.inj (first.symm.trans second)
    rw [same]
  | error e =>
    obtain ⟨k, v, refused, -⟩ := toRecord_least sound result
    have given := h k
    rw [refused.final, rel_some_iff] at given
    obtain ⟨x, -, given⟩ := given
    exact absurd given.scalar refused.unsuited

theorem toRecord_error_iff (sound : (object ms).Sound) :
    toRecord (object ms) = .error e ↔ ∃ k v, LeastUnsuited ms k v ∧ e = .unsupportedValue k v.shape := by
  refine ⟨toRecord_least sound, ?_⟩
  rintro ⟨k, v, refused, rfl⟩
  cases result : toRecord (object ms) with
  | ok r => exact absurd (toRecord_suited sound result refused.final) refused.unsuited
  | error e =>
    obtain ⟨k', v', refused', rfl⟩ := toRecord_least sound result
    obtain ⟨rfl, rfl⟩ := refused.unique refused'
    rfl

theorem SameFinals.toRecord_eq (h : SameFinals ms ns) (sound : (object ms).Sound) (sound' : (object ns).Sound) :
    toRecord (object ms) = toRecord (object ns) := by
  symm
  cases result : toRecord (object ms) with
  | ok r =>
    apply (toRecord_ok_iff sound').mpr
    intro k
    apply rel_through (h k) (toRecord_gives sound result k)
    intro v w x final final' alike given
    rw [(final_sound sound final).gives_iff, alike.toValue?_eq] at given
    exact (final_sound sound' final').gives_iff.mpr given
  | error e =>
    obtain ⟨k, v, refused, rfl⟩ := toRecord_least sound result
    obtain ⟨w, refused', same⟩ := h.least refused
    rw [same]
    exact (toRecord_error_iff sound').mpr ⟨k, w, refused', rfl⟩

theorem record_of_text {text : String} {ms : Members} (read : parseData text = some (object ms)) :
    (∀ m ∈ ms, m.1.isSome) ∧
      (∀ text' ms', parseData text' = some (object ms') → SameFinals ms ms' →
        toRecord (object ms') = toRecord (object ms)) ∧
      ((∃ r, toRecord (object ms) = .ok r) ↔ ∀ k v, finalValue? ms k = some v → v.shape.isScalar) ∧
      (∀ r, toRecord (object ms) = .ok r ↔ ∀ k, Option.Rel Gives (finalValue? ms k) (r.get? k)) ∧
      (∀ e, toRecord (object ms) = .error e ↔ ∃ k v, LeastUnsuited ms k v ∧ e = .unsupportedValue k v.shape) ∧
      ∀ k, toRecord (object ms) ≠ .error (.unsupportedValue k .number) := by
  have sound := parseData_sound read
  refine ⟨?_, ?_, ⟨?_, ?_⟩, fun r => toRecord_ok_iff sound, fun e => toRecord_error_iff sound, ?_⟩
  · cases sound with
    | object named _ => exact named
  · intro text' ms' read' same
    exact (same.toRecord_eq sound (parseData_sound read')).symm
  · rintro ⟨r, taken⟩ k v final
    exact toRecord_suited sound taken final
  · intro suited
    cases result : toRecord (object ms) with
    | ok r => exact ⟨r, rfl⟩
    | error e =>
      obtain ⟨k, v, refused, -⟩ := toRecord_least sound result
      exact absurd (suited k v refused.final) refused.unsuited
  · intro k failed
    obtain ⟨_, v, refused, same⟩ := toRecord_least sound failed
    obtain ⟨-, shape⟩ := RecordError.unsupportedValue.inj same
    apply refused.unsuited
    rw [← shape]
    rfl

def repeatedMembers : Members :=
  [(some "b", null), (some "a", number ⟨false, ['1'], none, none⟩),
    (some "b", number ⟨false, ['2'], some ['5'], none⟩)]

def fewerMembers : Members :=
  [(some "b", number ⟨false, ['2', '5'], none, some ⟨'e', some '-', ['1']⟩⟩),
    (some "a", number ⟨false, ['1'], none, none⟩)]

def unsuitedMembers : Members := [(some "b", array []), (some "a", object []), (some "Z", bool true)]

theorem record_of_text_samples :
    (parseData "\x7b\"b\": null, \"a\": 1, \"b\": 2.5\x7d" = some (object repeatedMembers) ∧
      parseData "\x7b\"b\": 25e-1, \"a\": 1\x7d" = some (object fewerMembers) ∧
        toRecord (object fewerMembers) = toRecord (object repeatedMembers)) ∧
      parseData "\x7b\"b\": [], \"a\": \x7b\x7d, \"Z\": true\x7d" = some (object unsuitedMembers) ∧
        toRecord (object unsuitedMembers) = .error (.unsupportedValue "a" .object) := by
  have repeated : parseData "\x7b\"b\": null, \"a\": 1, \"b\": 2.5\x7d" = some (object repeatedMembers) :=
    parseData_eq_some_iff.mpr
      ⟨[.leftBrace, .str (some "b"), .colon, .null, .comma, .str (some "a"), .colon, .number ⟨false, ['1'], none, none⟩,
        .comma, .str (some "b"), .colon, .number ⟨false, ['2'], some ['5'], none⟩, .rightBrace],
        by decide +kernel, by decide +kernel, rfl⟩
  have fewer : parseData "\x7b\"b\": 25e-1, \"a\": 1\x7d" = some (object fewerMembers) :=
    parseData_eq_some_iff.mpr
      ⟨[.leftBrace, .str (some "b"), .colon, .number ⟨false, ['2', '5'], none, some ⟨'e', some '-', ['1']⟩⟩, .comma,
        .str (some "a"), .colon, .number ⟨false, ['1'], none, none⟩, .rightBrace],
        by decide +kernel, by decide +kernel, rfl⟩
  have unsuited :
      parseData "\x7b\"b\": [], \"a\": \x7b\x7d, \"Z\": true\x7d" = some (object unsuitedMembers) :=
    parseData_eq_some_iff.mpr
      ⟨[.leftBrace, .str (some "b"), .colon, .leftBracket, .rightBracket, .comma, .str (some "a"), .colon, .leftBrace,
        .rightBrace, .comma, .str (some "Z"), .colon, .bool true, .rightBrace],
        by decide +kernel, by decide +kernel, rfl⟩
  have same : SameFinals repeatedMembers fewerMembers := by
    let one : Option String × Json := (some "a", number ⟨false, ['1'], none, none⟩)
    let last : Option String × Json := (some "b", number ⟨false, ['2'], some ['5'], none⟩)
    have omitted : SameFinals ([] ++ (some "b", null) :: [one, last]) ([] ++ [one, last]) :=
      .omitted ⟨last, List.mem_cons_of_mem one (List.mem_singleton_self last), rfl⟩
    have swapped : SameFinals ([] ++ one :: last :: []) ([] ++ last :: one :: []) := .swapped (by decide)
    have respelled : SameFinals ([] ++ last :: [one]) fewerMembers := .respelled (.number rfl)
    exact (omitted.trans swapped).trans respelled
  have least : LeastUnsuited unsuitedMembers "a" (object []) := by
    refine ⟨rfl, by decide, ?_⟩
    intro k v final bad
    by_cases b : "b" = k
    · subst b
      decide
    · by_cases a : "a" = k
      · subst a
        decide
      · by_cases z : "Z" = k
        · subst z
          cases final
          exact absurd rfl bad
        · simp [finalValue?, unsuitedMembers, a, b, z] at final
  exact ⟨⟨repeated, fewer, (record_of_text repeated).2.1 _ _ fewer same⟩, unsuited,
    ((record_of_text unsuited).2.2.2.2.1 _).mpr ⟨_, _, least, rfl⟩⟩

end Rulebook.Json
