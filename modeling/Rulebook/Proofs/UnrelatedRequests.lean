import Rulebook.Proofs.CombinedRules
import Rulebook.Proofs.RequestFootprints

/-!
Requests on unrelated rules. Two requests of which neither changes what the other looks at get the same answers in
either order and leave the same engine, so clients whose requests are unrelated cannot tell how they were interleaved.
-/

namespace Rulebook

namespace Engine

structure Commute (e : Engine) (p q : Request) : Prop where
  first : (e.after q).answer p = e.answer p
  second : (e.after p).answer q = e.answer q
  state : (e.after p).after q = (e.after q).after p

structure Spares (e : Engine) (p q : Request) : Prop where
  overwritten : ∀ i ∈ q.reads, p.subject? ≠ some i
  appended : p.appends = true → q.appends = false ∧ ∀ i ∈ q.reads, i ≠ e.store.nextId

variable {e : Engine} {p q : Request}

theorem Spares.change_apart (h : e.Spares p q) {c : Change} (changed : e.change? (.request p) = some c) {i : RuleId}
    (read : i ∈ q.reads) : c.rule.id ≠ i := by
  rintro rfl
  rcases change_target changed with ⟨r, rfl, id, appends⟩ | ⟨r, rfl, subject⟩
  · exact (h.appended appends).2 _ read id
  · exact h.overwritten _ read subject

theorem Spares.alike (h : e.Spares p q) : Alike e (e.after p) q := by
  rw [after_eq]
  cases changed : e.change? (.request p) with
  | none => exact ⟨rfl, fun _ _ => rfl, fun _ => rfl⟩
  | some c =>
    refine ⟨rfl, fun i read => Store.get_apply_other (h.change_apart changed read), ?_⟩
    intro appends
    rcases change_target changed with ⟨r, rfl, -, appended⟩ | ⟨r, rfl, -⟩
    · rw [(h.appended appended).1] at appends
      cases appends
    · rfl

theorem Spares.targets_apart (h : e.Spares p q) (g : e.Spares q p) {c d : Change}
    (first : e.change? (.request p) = some c) (second : e.change? (.request q) = some d) : c.rule.id ≠ d.rule.id := by
  rcases change_target second with ⟨r, rfl, -, appends⟩ | ⟨r, rfl, subject⟩
  · rcases change_target first with ⟨s, rfl, -, appended⟩ | ⟨s, rfl, subject⟩
    · rw [(h.appended appended).1] at appends
      cases appends
    · exact (g.change_apart second (Request.subject_read subject)).symm
  · exact h.change_apart first (Request.subject_read subject)

theorem Spares.commute (h : e.Spares p q) (g : e.Spares q p) : e.Commute p q := by
  refine ⟨g.alike.answer_eq, h.alike.answer_eq, ?_⟩
  have apart : ∀ c ∈ e.change? (.request p), ∀ d ∈ e.change? (.request q), c.rule.id ≠ d.rule.id :=
    fun c first d second => h.targets_apart g first second
  rw [after_eq (e.after p), after_eq (e.after q), h.alike.change_eq, g.alike.change_eq, after_eq, after_eq]
  exact congrArg (Engine.mk · e.limits) (Store.applied_comm apart e.store)

abbrev Schedule (κ : Type) := List (κ × Request)

variable {κ : Type}

def serve (e : Engine) (xs : Schedule κ) : Engine := e.run (xs.map Prod.snd)

def heard [DecidableEq κ] (k : κ) (e : Engine) : Schedule κ → List (Except EngineError Reply)
  | [] => []
  | (j, q) :: xs => (if j = k then [e.answer q] else []) ++ heard k (e.after q) xs

/-- No client overwrites what another one looks at, and only one adds rules; the others then look at rules that are
stored already. -/
def Unrelated (e : Engine) (xs : Schedule κ) : Prop :=
  ∀ x ∈ xs, ∀ y ∈ xs, x.1 ≠ y.1 →
    (∀ i ∈ y.2.reads, x.2.subject? ≠ some i) ∧
      (x.2.appends = true → y.2.appends = false ∧ ∀ i ∈ y.2.reads, ∃ r, e.store.get i = .ok r)

structure Ready (e : Engine) (xs : Schedule κ) : Prop where
  numbered : e.store.Numbered
  room : e.store.nextId.value.toNat + xs.countP (fun x => x.2.appends) < 2 ^ 64

theorem ne_nextId (h : e.store.Numbered) {i : RuleId} {r : Rule} (stored : e.store.get i = .ok r) :
    i ≠ e.store.nextId := by
  rintro rfl
  exact free_nextId h r stored

theorem Unrelated.commute {xs : Schedule κ} (h : e.Unrelated xs) (numbered : e.store.Numbered) {x y : κ × Request}
    (hx : x ∈ xs) (hy : y ∈ xs) (apart : x.1 ≠ y.1) : e.Commute x.2 y.2 := by
  have spares {x y : κ × Request} (hx : x ∈ xs) (hy : y ∈ xs) (apart : x.1 ≠ y.1) : e.Spares x.2 y.2 := by
    obtain ⟨overwritten, appended⟩ := h x hx y hy apart
    refine ⟨overwritten, fun appends => ⟨(appended appends).1, ?_⟩⟩
    intro i read
    obtain ⟨r, stored⟩ := (appended appends).2 i read
    exact ne_nextId numbered stored
  exact (spares hx hy apart).commute (spares hy hx apart.symm)

theorem stored_after (q : Request) {i : RuleId} {r : Rule} (h : e.store.get i = .ok r) :
    ∃ r, (e.after q).store.get i = .ok r := by
  rw [after_eq]
  cases e.change? (.request q) with
  | none => exact ⟨r, h⟩
  | some c =>
    change ∃ r, (e.store.apply c).get i = .ok r
    rw [Store.get_apply]
    split
    · exact ⟨_, rfl⟩
    · exact ⟨r, h⟩

theorem Unrelated.after {xs ys : Schedule κ} (h : e.Unrelated xs) (part : ys ⊆ xs) (q : Request) :
    (e.after q).Unrelated ys := by
  intro x hx y hy apart
  obtain ⟨overwritten, appended⟩ := h x (part hx) y (part hy) apart
  refine ⟨overwritten, fun appends => ⟨(appended appends).1, ?_⟩⟩
  intro i read
  obtain ⟨r, stored⟩ := (appended appends).2 i read
  exact stored_after q stored

theorem length_appended_le (e : Engine) (q : Request) :
    (appended (e.change? (.request q)).toList).length ≤ if q.appends = true then 1 else 0 := by
  cases changed : e.change? (.request q) with
  | none => exact Nat.zero_le _
  | some c =>
    rcases change_target changed with ⟨r, rfl, -, appends⟩ | ⟨r, rfl, -⟩
    · rw [if_pos appends]
      exact Nat.le_refl 1
    · exact Nat.zero_le _

theorem Ready.after {xs : Schedule κ} {x : κ × Request} (h : e.Ready (x :: xs)) : (e.after x.2).Ready xs := by
  obtain ⟨numbered, room⟩ := h
  have leads := (request_logged e x.2).2.2
  have few := length_appended_le e x.2
  rw [List.countP_cons] at room
  have first : e.store.Room (e.change? (.request x.2)).toList := by
    rw [Store.Room]
    omega
  refine ⟨leads.numbered numbered first, ?_⟩
  rw [leads.nextId_toNat first]
  omega

variable [DecidableEq κ] {xs ys zs : Schedule κ}

def SameRequests (xs ys : Schedule κ) : Prop := ∀ k, xs.filter (·.1 = k) = ys.filter (·.1 = k)

theorem SameRequests.exists_first {x : κ × Request} (h : SameRequests (x :: xs) ys) :
    ∃ before after, ys = before ++ x :: after ∧ (∀ y ∈ before, y.1 ≠ x.1) ∧ SameRequests xs (before ++ after) := by
  have own := h x.1
  rw [List.filter_cons, if_pos (decide_eq_true rfl)] at own
  obtain ⟨before, after, rfl, others, -, rest⟩ := List.filter_eq_cons_iff.mp own.symm
  have apart : ∀ y ∈ before, y.1 ≠ x.1 := by
    intro y hy
    simpa using others y hy
  refine ⟨before, after, rfl, apart, ?_⟩
  intro k
  have all := h k
  rw [List.filter_append] at all ⊢
  by_cases same : x.1 = k
  · rw [List.filter_cons, List.filter_cons, if_pos (decide_eq_true same), if_pos (decide_eq_true same)] at all
    have none : before.filter (·.1 = k) = [] := by
      apply List.filter_eq_nil_iff.mpr
      intro y hy
      rw [← same, decide_eq_true_eq]
      exact apart y hy
    rw [none] at all ⊢
    exact (List.cons.inj all).2
  · have other : ¬decide (x.1 = k) = true := by rwa [decide_eq_true_eq]
    rw [List.filter_cons, List.filter_cons, if_neg other, if_neg other] at all
    exact all

theorem SameRequests.eq_nil (h : SameRequests [] ys) : ys = [] := by
  cases ys with
  | nil => rfl
  | cons y ys =>
    have own := h y.1
    rw [List.filter_cons, if_pos (decide_eq_true rfl)] at own
    cases own

theorem SameRequests.perm (h : SameRequests xs ys) : xs.Perm ys := by
  induction xs generalizing ys with
  | nil =>
    rw [h.eq_nil]
  | cons x xs ih =>
    obtain ⟨before, after, rfl, -, rest⟩ := h.exists_first
    exact ((ih rest).cons x).trans List.perm_middle.symm

structure Indistinct (e : Engine) (xs ys : Schedule κ) : Prop where
  state : e.serve xs = e.serve ys
  answers : ∀ k, heard k e xs = heard k e ys

theorem Indistinct.symm (h : e.Indistinct xs ys) : e.Indistinct ys xs := ⟨h.state.symm, fun k => (h.answers k).symm⟩

theorem Indistinct.trans (h : e.Indistinct xs ys) (g : e.Indistinct ys zs) : e.Indistinct xs zs :=
  ⟨h.state.trans g.state, fun k => (h.answers k).trans (g.answers k)⟩

theorem Indistinct.cons {x : κ × Request} (h : (e.after x.2).Indistinct xs ys) :
    e.Indistinct (x :: xs) (x :: ys) :=
  ⟨h.state, fun k => congrArg (_ ++ ·) (h.answers k)⟩

theorem Commute.swap {x y : κ × Request} (h : e.Commute x.2 y.2) (apart : x.1 ≠ y.1) (xs : Schedule κ) :
    e.Indistinct (x :: y :: xs) (y :: x :: xs) := by
  constructor
  · exact congrArg (run · (xs.map Prod.snd)) h.state
  · intro k
    simp only [heard, h.first, h.second, h.state]
    by_cases first : x.1 = k
    · have second : y.1 ≠ k := first ▸ apart.symm
      simp only [second, ↓reduceIte, List.nil_append]
    · simp only [first, ↓reduceIte, List.nil_append]

theorem Unrelated.move {x : κ × Request} {before after : Schedule κ} (h : e.Unrelated (before ++ x :: after))
    (ready : e.Ready (before ++ x :: after)) (apart : ∀ y ∈ before, y.1 ≠ x.1) :
    e.Indistinct (before ++ x :: after) (x :: (before ++ after)) := by
  induction before generalizing e with
  | nil => exact ⟨rfl, fun _ => rfl⟩
  | cons y before ih =>
    have others : ∀ z ∈ before, z.1 ≠ x.1 := fun z hz => apart z (List.mem_cons_of_mem y hz)
    have later := ih (h.after (List.subset_cons_self y _) y.2) ready.after others
    have member : x ∈ y :: before ++ x :: after := List.mem_append_right _ List.mem_cons_self
    have commute := h.commute ready.numbered List.mem_cons_self member (apart y List.mem_cons_self)
    exact later.cons.trans (commute.swap (apart y List.mem_cons_self) (before ++ after))

end Engine

end Rulebook
