import Rulebook.Record.Json
import Rulebook.Proofs.ByteOrder
import Rulebook.Proofs.LexemeClasses
import Rulebook.Proofs.SoundDocuments
import Rulebook.Proofs.TableLookups

namespace Rulebook

open Results

def Numeral.WritesInteger (n : Numeral) (i : Int64) : Prop :=
  n.isInteger ∧ ¬(n.negative ∧ n.toInt = 0) ∧ i.toInt = n.toInt

namespace Json

def Shape.isScalar : Shape → Bool
  | boolean => true
  | number => true
  | string => true
  | _ => false

inductive Gives : Json → Value → Prop
  | bool (b : Bool) : Gives (bool b) (.bool b)
  | str (s : String) : Gives (str (some s)) (.str s)
  | int {n : Numeral} {i : Int64} (written : n.WritesInteger i) : Gives (number n) (.int i)
  | float {n : Numeral} (other : ∀ i, ¬n.WritesInteger i) (finite : (toBinary64 n).isFinite) :
      Gives (number n) (.float (toBinary64 n))

def finalValue? (ms : Members) (k : String) : Option Json := (ms.reverse.find? fun m => m.1 = some k).map Prod.snd

/-- Values that a record takes alike: numbers count by their value, arrays and objects are all the same. -/
inductive Alike : Json → Json → Prop
  | null : Alike null null
  | bool (b : Bool) : Alike (bool b) (bool b)
  | number {m n : Numeral} (same : numberValue m = numberValue n) : Alike (number m) (number n)
  | str (s : Option String) : Alike (str s) (str s)
  | array (items others : List Json) : Alike (array items) (array others)
  | object (ms ns : Members) : Alike (object ms) (object ns)

def SameFinals (ms ns : Members) : Prop := ∀ k, Option.Rel Alike (finalValue? ms k) (finalValue? ns k)

structure LeastUnsuited (ms : Members) (k : String) (v : Json) : Prop where
  final : finalValue? ms k = some v
  unsuited : ¬v.shape.isScalar
  least : ∀ k' v', finalValue? ms k' = some v' → ¬v'.shape.isScalar →
    k.toUTF8.data.toList ≤ k'.toUTF8.data.toList

variable {v w : Json} {x : Value}

theorem numberValue_eq_int_iff {n : Numeral} {i : Int64} : numberValue n = .int i ↔ n.WritesInteger i := by
  rw [Numeral.WritesInteger, ← Numeral.toInt64?_eq_some_iff, numberValue]
  by_cases integral : (n.isInteger && !(n.negative && n.toInt = 0)) = true
  · have plain : n.isInteger ∧ ¬(n.negative ∧ n.toInt = 0) := by grind
    rw [if_pos integral]
    cases n.toInt64? <;> simp [plain]
  · have other : ¬(n.isInteger ∧ ¬(n.negative ∧ n.toInt = 0)) := by grind
    rw [if_neg integral, ← and_assoc]
    simp only [reduceCtorEq, other, false_and]

theorem numberValue_form (n : Numeral) :
    (∃ i, numberValue n = .int i) ∨ numberValue n = .float (toBinary64 n) := by
  unfold numberValue
  split
  · split
    · next i _ => exact .inl ⟨i, rfl⟩
    · exact .inr rfl
  · exact .inr rfl

theorem gives_number_iff {n : Numeral} (range : inRange n) : Gives (number n) x ↔ numberValue n = x := by
  constructor
  · intro h
    cases h with
    | int written => exact numberValue_eq_int_iff.mpr written
    | float other =>
      rcases numberValue_form n with ⟨i, integer⟩ | float
      · exact absurd (numberValue_eq_int_iff.mp integer) (other i)
      · exact float
  · rintro rfl
    rcases numberValue_form n with ⟨i, integer⟩ | float
    · rw [integer]
      exact .int (numberValue_eq_int_iff.mp integer)
    · rw [inRange, float] at range
      rw [float]
      refine .float (fun i written => ?_) range
      rw [numberValue_eq_int_iff.mpr written] at float
      cases float

theorem Sound.gives_iff (h : v.Sound) : Gives v x ↔ v.toValue? = some x := by
  cases h with
  | number range => simp [toValue?, gives_number_iff range]
  | _ =>
    constructor
    · intro given
      cases given <;> rfl
    · intro value
      cases value <;> constructor

theorem Gives.scalar (h : Gives v x) : v.shape.isScalar := by
  cases h <;> rfl

theorem Sound.toValue?_eq_none_iff (h : v.Sound) : v.toValue? = none ↔ ¬v.shape.isScalar := by
  cases h <;> simp [toValue?, shape, Shape.isScalar]

variable {ms ns : Members} {k : String}

theorem get?_memberTable (ms : Members) (k : String) : (memberTable ms).get? k = finalValue? ms k := by
  rw [memberTable, Table.get?_ofList, ← List.filterMap_reverse, finalValue?]
  induction ms.reverse with
  | nil => rfl
  | cons m ms ih =>
    obtain ⟨key, v⟩ := m
    cases key with
    | none => simpa using ih
    | some key =>
      by_cases same : key = k
      · simp [same]
      · simpa [same] using ih

theorem finalValue?_append (ms ns : Members) (k : String) :
    finalValue? (ms ++ ns) k = (finalValue? ns k).or (finalValue? ms k) := by
  rw [finalValue?, List.reverse_append, List.find?_append, finalValue?, finalValue?]
  cases ns.reverse.find? fun m => m.1 = some k <;> rfl

theorem finalValue?_cons (m : Option String × Json) (ms : Members) (k : String) :
    finalValue? (m :: ms) k = (finalValue? ms k).or (if m.1 = some k then some m.2 else none) := by
  rw [← List.singleton_append, finalValue?_append]
  congr 1
  by_cases same : m.1 = some k <;> simp [finalValue?, same]

theorem finalValue?_isSome_iff : (finalValue? ms k).isSome ↔ ∃ m ∈ ms, m.1 = some k := by
  simp [finalValue?]

theorem mem_entries_iff : (k, v) ∈ (memberTable ms).entries ↔ finalValue? ms k = some v := by
  rw [← Table.get?_eq_some_iff, get?_memberTable]

theorem final_sound (sound : (object ms).Sound) (h : finalValue? ms k = some v) : v.Sound := by
  obtain ⟨m, found, rfl⟩ := Option.map_eq_some_iff.mp h
  cases sound with
  | object _ each => exact each m (List.mem_reverse.mp (List.mem_of_find?_eq_some found))

theorem LeastUnsuited.unique {k' : String} {v' : Json} (h : LeastUnsuited ms k v) (h' : LeastUnsuited ms k' v') :
    k = k' ∧ v = v' := by
  have up := toUTF8_le_iff.mp (h.least k' v' h'.final h'.unsuited)
  have down := toUTF8_le_iff.mp (h'.least k v h.final h.unsuited)
  obtain rfl := le_antisymm up down
  exact ⟨rfl, Option.some.inj (h.final.symm.trans h'.final)⟩

theorem Alike.shape_eq (h : Alike v w) : v.shape = w.shape := by
  cases h <;> rfl

theorem Alike.toValue?_eq (h : Alike v w) : v.toValue? = w.toValue? := by
  cases h with
  | number same => simp [toValue?, same]
  | _ => rfl

theorem Alike.refl (v : Json) : Alike v v := by
  cases v <;> constructor
  rfl

theorem Alike.symm (h : Alike v w) : Alike w v := by
  cases h with
  | number same => exact .number same.symm
  | _ => constructor

theorem Alike.trans {u : Json} (h : Alike u v) (g : Alike v w) : Alike u w := by
  cases h with
  | number same =>
    cases g with
    | number same' => exact .number (same.trans same')
  | _ =>
    cases g
    constructor

namespace SameFinals

theorem symm (h : SameFinals ms ns) : SameFinals ns ms := by
  intro k
  apply rel_imp (rel_flip (h k))
  intro w v _ alike
  exact alike.symm

theorem trans {ls : Members} (h : SameFinals ls ms) (g : SameFinals ms ns) : SameFinals ls ns := by
  intro k
  apply rel_through (h.symm k) (g k)
  intro v u w _ _ before after
  exact before.symm.trans after

theorem final (h : SameFinals ms ns) (found : finalValue? ms k = some v) :
    ∃ w, finalValue? ns k = some w ∧ Alike v w := by
  have related := h k
  rwa [found, rel_some_iff] at related

theorem least (h : SameFinals ms ns) (refused : LeastUnsuited ms k v) :
    ∃ w, LeastUnsuited ns k w ∧ v.shape = w.shape := by
  obtain ⟨w, found, alike⟩ := h.final refused.final
  refine ⟨w, ⟨found, ?_, ?_⟩, alike.shape_eq⟩
  · rw [← alike.shape_eq]
    exact refused.unsuited
  · intro k' w' found' unsuited
    obtain ⟨v', final, alike⟩ := h.symm.final found'
    rw [alike.shape_eq] at unsuited
    exact refused.least k' v' final unsuited

theorem refl (ms : Members) : SameFinals ms ms := by
  intro k
  cases finalValue? ms k with
  | none => exact .none
  | some v => exact .some (.refl v)

theorem of_eq (h : ∀ k, finalValue? ms k = finalValue? ns k) : SameFinals ms ns := by
  intro k
  rw [h]
  exact SameFinals.refl ns k

theorem swapped {m n : Option String × Json} (apart : m.1 ≠ n.1) :
    SameFinals (ms ++ m :: n :: ns) (ms ++ n :: m :: ns) := by
  apply of_eq
  intro k
  rw [finalValue?_append, finalValue?_append, finalValue?_cons, finalValue?_cons, finalValue?_cons, finalValue?_cons]
  by_cases first : m.1 = some k
  · have second : n.1 ≠ some k := first ▸ apart.symm
    simp [first, second]
  · simp [first]

theorem omitted {m : Option String × Json} (again : ∃ n ∈ ns, n.1 = m.1) : SameFinals (ms ++ m :: ns) (ms ++ ns) := by
  apply of_eq
  intro k
  rw [finalValue?_append, finalValue?_append, finalValue?_cons]
  by_cases own : m.1 = some k
  · rw [own, ← finalValue?_isSome_iff] at again
    obtain ⟨v, last⟩ := Option.isSome_iff_exists.mp again
    simp [last]
  · simp [own]

theorem respelled {key : Option String} (alike : Alike v w) :
    SameFinals (ms ++ (key, v) :: ns) (ms ++ (key, w) :: ns) := by
  intro k
  rw [finalValue?_append, finalValue?_append, finalValue?_cons, finalValue?_cons]
  cases finalValue? ns k with
  | some x => exact .some (.refl x)
  | none =>
    by_cases own : key = some k
    · simp only [own, ↓reduceIte, Option.none_or, Option.some_or]
      exact .some alike
    · simp only [own, ↓reduceIte, Option.none_or]
      exact SameFinals.refl ms k

end SameFinals

end Json

end Rulebook
