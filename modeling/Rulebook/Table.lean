/-!
Finite maps with keys in ascending order. The entries are strictly ascending, so a table is
determined by what it answers to `get?`, and listing it needs no sorting.
-/

namespace Rulebook

variable {κ ν : Type}

structure Table (κ ν : Type) [Ord κ] where
  entries : List (κ × ν)
  ascending : entries.Pairwise fun a b => compare a.1 b.1 = .lt

namespace Table

variable [Ord κ]

def place (k : κ) (v : ν) : List (κ × ν) → List (κ × ν)
  | [] => [(k, v)]
  | (k', v') :: rest =>
    match compare k k' with
    | .lt => (k, v) :: (k', v') :: rest
    | .eq => (k, v) :: rest
    | .gt => (k', v') :: place k v rest

def look (k : κ) : List (κ × ν) → Option ν
  | [] => none
  | (k', v) :: rest => if compare k k' = .eq then some v else look k rest

theorem mem_place {k : κ} {v : ν} {e : κ × ν} {l : List (κ × ν)} (h : e ∈ place k v l) :
    e = (k, v) ∨ e ∈ l := by
  induction l with
  | nil => simpa [place] using h
  | cons d rest ih =>
    obtain ⟨k', v'⟩ := d
    simp only [place] at h
    split at h
    · simpa using h
    · rcases List.mem_cons.1 h with h | h
      · exact .inl h
      · exact .inr (List.mem_cons_of_mem _ h)
    · rcases List.mem_cons.1 h with h | h
      · exact .inr (h ▸ List.mem_cons_self)
      · exact (ih h).imp id (List.mem_cons_of_mem _)

theorem place_ascending [Std.TransOrd κ] (k : κ) (v : ν) {l : List (κ × ν)}
    (h : l.Pairwise fun a b => compare a.1 b.1 = .lt) :
    (place k v l).Pairwise fun a b => compare a.1 b.1 = .lt := by
  induction l with
  | nil => exact List.pairwise_singleton _ _
  | cons d rest ih =>
    obtain ⟨k', v'⟩ := d
    obtain ⟨hd, hr⟩ := List.pairwise_cons.1 h
    simp only [place]
    split
    · next hk =>
      refine List.pairwise_cons.2 ⟨fun e he => ?_, h⟩
      rcases List.mem_cons.1 he with rfl | he
      · exact hk
      · exact Std.TransCmp.lt_trans hk (hd e he)
    · next hk =>
      exact List.pairwise_cons.2
        ⟨fun e he => (Std.TransCmp.congr_left hk).trans (hd e he), hr⟩
    · next hk =>
      refine List.pairwise_cons.2 ⟨fun e he => ?_, ih hr⟩
      rcases mem_place he with rfl | he
      · exact Std.OrientedCmp.gt_iff_lt.1 hk
      · exact hd e he

theorem look_place [Std.TransOrd κ] (k i : κ) (v : ν) (l : List (κ × ν)) :
    look i (place k v l) = if compare i k = .eq then some v else look i l := by
  induction l with
  | nil => rfl
  | cons d rest ih =>
    obtain ⟨k', v'⟩ := d
    simp only [place]
    split
    · rfl
    · next hk =>
      simp only [look, Std.TransCmp.congr_right hk]
      split <;> rfl
    · next hk =>
      simp only [look, ih]
      split
      · next hi =>
        rw [if_neg]
        intro h
        rw [Std.TransCmp.congr_left h, hk] at hi
        cases hi
      · rfl

def empty : Table κ ν := ⟨[], .nil⟩

instance : Inhabited (Table κ ν) := ⟨empty⟩

def insert [Std.TransOrd κ] (t : Table κ ν) (k : κ) (v : ν) : Table κ ν :=
  ⟨place k v t.entries, place_ascending k v t.ascending⟩

def get? (t : Table κ ν) (k : κ) : Option ν := look k t.entries

theorem get?_empty (k : κ) : (empty : Table κ ν).get? k = none := rfl

theorem get?_insert [Std.TransOrd κ] (t : Table κ ν) (k i : κ) (v : ν) :
    (t.insert k v).get? i = if compare i k = .eq then some v else t.get? i :=
  look_place k i v t.entries

def ofList [Std.TransOrd κ] (l : List (κ × ν)) : Table κ ν :=
  l.foldl (fun t e => t.insert e.1 e.2) empty

def keys (t : Table κ ν) : List κ := t.entries.map Prod.fst

def values (t : Table κ ν) : List ν := t.entries.map Prod.snd

def size (t : Table κ ν) : Nat := t.entries.length

def isEmpty (t : Table κ ν) : Bool := t.entries.isEmpty

end Table

end Rulebook
