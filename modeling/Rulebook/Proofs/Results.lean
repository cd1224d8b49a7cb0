import Mathlib.Data.List.Forall2

namespace Rulebook.Results

variable {ε δ α β : Type}

theorem bind_ok_iff {x : Except ε α} {f : α → Except ε β} {y : β} :
    x >>= f = .ok y ↔ ∃ a, x = .ok a ∧ f a = .ok y := by
  constructor
  · intro h
    cases x with
    | error e => cases h
    | ok a => exact ⟨a, rfl, h⟩
  · rintro ⟨a, rfl, h⟩
    exact h

theorem bind_error_iff {x : Except ε α} {f : α → Except ε β} {e : ε} :
    x >>= f = .error e ↔ x = .error e ∨ ∃ a, x = .ok a ∧ f a = .error e := by
  cases x with
  | error d =>
    change Except.error d = .error e ↔ _
    simp
  | ok a =>
    change f a = .error e ↔ _
    simp

theorem map_ok_iff {x : Except ε α} {f : α → β} {y : β} : x.map f = .ok y ↔ ∃ a, x = .ok a ∧ f a = y := by
  cases x <;> simp [Except.map]

theorem mapError_ok_iff {x : Except ε α} {f : ε → δ} {y : α} : x.mapError f = .ok y ↔ x = .ok y := by
  cases x with
  | error e =>
    constructor <;> intro h <;> cases h
  | ok a =>
    constructor <;> intro h <;> cases h <;> rfl

theorem mapError_error_iff {x : Except ε α} {f : ε → δ} {d : δ} :
    x.mapError f = .error d ↔ ∃ e, x = .error e ∧ f e = d := by
  cases x <;> simp [Except.mapError]

theorem toOption_eq_some_iff {x : Except ε α} {y : α} : x.toOption = some y ↔ x = .ok y := by
  cases x <;> simp [Except.toOption]

def error? : Except ε α → Option ε
  | .error e => some e
  | .ok _ => none

theorem error?_eq_some_iff {x : Except ε α} {e : ε} : error? x = some e ↔ x = .error e := by
  cases x <;> simp [error?]

theorem mapM_ok_iff {f : α → Except ε β} {xs : List α} {ys : List β} :
    xs.mapM f = .ok ys ↔ List.Forall₂ (fun x y => f x = .ok y) xs ys := by
  induction xs generalizing ys with
  | nil =>
    rw [List.forall₂_nil_left_iff]
    constructor <;> intro h <;> cases h <;> rfl
  | cons x xs ih =>
    rw [List.mapM_cons, List.forall₂_cons_left_iff]
    constructor
    · intro h
      obtain ⟨y, first, others⟩ := bind_ok_iff.mp h
      obtain ⟨zs, rest, same⟩ := bind_ok_iff.mp others
      cases same
      exact ⟨y, zs, first, ih.mp rest, rfl⟩
    · rintro ⟨y, zs, first, rest, rfl⟩
      exact bind_ok_iff.mpr ⟨y, first, bind_ok_iff.mpr ⟨zs, ih.mpr rest, rfl⟩⟩

theorem exists_of_mem_mapM {f : α → Except ε β} {xs : List α} {ys : List β} (h : xs.mapM f = .ok ys) :
    ∀ y ∈ ys, ∃ x ∈ xs, f x = .ok y := by
  have found := mapM_ok_iff.mp h
  clear h
  induction found with
  | nil => exact fun _ hy => nomatch hy
  | @cons x z xs zs first others ih =>
    intro y hy
    rcases List.mem_cons.mp hy with rfl | hy
    · exact ⟨x, List.mem_cons_self, first⟩
    · obtain ⟨w, hw, found⟩ := ih y hy
      exact ⟨w, List.mem_cons_of_mem x hw, found⟩

theorem mapM_error_iff {f : α → Except ε β} {xs : List α} {e : ε} :
    xs.mapM f = .error e ↔
      ∃ before x after, xs = before ++ x :: after ∧ (∀ w ∈ before, ∃ y, f w = .ok y) ∧ f x = .error e := by
  induction xs with
  | nil =>
    constructor
    · intro h
      cases h
    · rintro ⟨before, x, after, same, -⟩
      cases before <;> cases same
  | cons x xs ih =>
    rw [List.mapM_cons]
    constructor
    · intro h
      rcases bind_error_iff.mp h with failed | ⟨y, first, others⟩
      · exact ⟨[], x, xs, rfl, fun _ hw => (nomatch hw), failed⟩
      · rcases bind_error_iff.mp others with later | ⟨ys, -, same⟩
        · obtain ⟨before, z, after, rfl, passed, failed⟩ := ih.mp later
          refine ⟨x :: before, z, after, rfl, ?_, failed⟩
          exact List.forall_mem_cons.mpr ⟨⟨y, first⟩, passed⟩
        · cases same
    · rintro ⟨before, z, after, same, passed, failed⟩
      cases before with
      | nil =>
        cases same
        exact bind_error_iff.mpr (.inl failed)
      | cons w before =>
        cases same
        obtain ⟨⟨y, first⟩, later⟩ := List.forall_mem_cons.mp passed
        have rest := ih.mpr ⟨before, z, after, rfl, later, failed⟩
        exact bind_error_iff.mpr (.inr ⟨y, first, bind_error_iff.mpr (.inl rest)⟩)

theorem mapM_eq_some_iff {f : α → Option β} {xs : List α} {ys : List β} :
    xs.mapM f = some ys ↔ List.Forall₂ (fun x y => f x = some y) xs ys := by
  induction xs generalizing ys with
  | nil => simp [eq_comm]
  | cons x xs ih =>
    simp only [List.mapM_cons, Option.bind_eq_bind, Option.bind_eq_some_iff, Option.pure_def, Option.some.injEq,
      List.forall₂_cons_left_iff, ← ih]
    grind

section Related

variable {α β γ : Type} {R S : α → β → Prop} {T : α → γ → Prop} {U : β → γ → Prop} {x : α}
  {o : Option α} {p q : Option β} {g : Option γ}

theorem rel_some_iff : Option.Rel R (some x) q ↔ ∃ y, q = some y ∧ R x y := by
  constructor
  · intro h
    cases h with
    | some related => exact ⟨_, rfl, related⟩
  · rintro ⟨y, rfl, related⟩
    exact .some related

theorem rel_flip (h : Option.Rel R o q) : Option.Rel (fun y x => R x y) q o := by
  cases h with
  | none => exact .none
  | some related => exact .some related

theorem rel_imp (h : Option.Rel R o q) (imp : ∀ x y, o = some x → R x y → S x y) : Option.Rel S o q := by
  cases h with
  | none => exact .none
  | some related => exact .some (imp _ _ rfl related)

theorem rel_unique (h : Option.Rel R o p) (h' : Option.Rel R o q)
    (unique : ∀ x y z, o = some x → R x y → R x z → y = z) : p = q := by
  cases h with
  | none =>
    cases h'
    rfl
  | some first =>
    cases h' with
    | some second => rw [unique _ _ _ rfl first second]

theorem rel_through (h : Option.Rel R o q) (h' : Option.Rel T o g)
    (imp : ∀ x y z, o = some x → q = some y → R x y → T x z → U y z) : Option.Rel U q g := by
  cases h with
  | none =>
    cases h'
    exact .none
  | some first =>
    cases h' with
    | some second => exact .some (imp _ _ _ rfl rfl first second)

end Related

end Rulebook.Results
