import Rulebook.Proofs.ParserStops
import Rulebook.Proofs.TiledTexts

namespace Rulebook

variable {p n : Nat} {c : Char} {cs ds : List Char} {t : Token} {ts us : List (Nat × Token)} {s : String}

namespace Tokens

theorem prepend_append (ts us : List (Nat × Token)) (rest : Tokens) :
    prepend (ts ++ us) rest = prepend ts (prepend us rest) := by
  simp only [prepend, List.foldr_append]

theorem andThen_prepend (ts : List (Nat × Token)) (n : Nat) (k : Nat → Tokens) :
    (prepend ts (done n)).andThen k = prepend ts (k n) := by
  induction ts with
  | nil => rfl
  | cons t ts ih => exact congrArg (next t.1 t.2) ih

theorem shift_prepend (k : Nat) (ts : List (Nat × Token)) (rest : Tokens) :
    (prepend ts rest).shift k = prepend (ts.map fun t => (k + t.1, t.2)) (rest.shift k) := by
  induction ts with
  | nil => rfl
  | cons t ts ih =>
    have moved := Nat.add_comm t.1 k
    exact congrArg₂ (fun n rest => next n t.2 rest) moved ih

end Tokens

namespace Tiles

theorem range {ts : Tokens} (h : Tiles p cs ts) : ∀ t ∈ ts.toList, p ≤ t.1 ∧ t.1 < p + byteSize cs := by
  induction h with
  | done _ _ _ => simp [Tokens.toList]
  | fault _ _ _ _ _ => simp [Tokens.toList]
  | next offset gap _ longest _ ih =>
    have pos := longest.byteSize_pos
    simp only [Tokens.toList, List.forall_mem_cons, byteSize_append]
    constructor
    · omega
    · intro t later
      have within := ih t later
      omega

theorem eq_prepend {ts : Tokens} (h : Tiles p cs ts) (clean : ts.error? = none) :
    ts = .prepend ts.toList (.done (p + byteSize cs)) := by
  induction h with
  | done _ _ _ => rfl
  | fault _ _ _ _ _ => cases clean
  | next offset gap _ _ _ ih =>
    simp only [byteSize_append, ← Nat.add_assoc]
    exact congrArg (Tokens.next _ _) (ih clean)

end Tiles

def CutAt (p : Nat) (cs : List Char) (ts : List (Nat × Token)) : Prop :=
  Tokens.scan p cs = .prepend ts (.done (p + byteSize cs))

def tokensFrom (p : Nat) (s : String) : List (Nat × Token) :=
  (Tokens.ofString s).toList.map fun t => (p + t.1, t.2)

theorem cutAt_tokensFrom (clean : (Tokens.ofString s).error? = none) (p : Nat) :
    CutAt p s.toList (tokensFrom p s) := by
  have here : Tokens.scan 0 s.toList = _ := (tiles_scan 0 s.toList).eq_prepend clean
  have moved := Tokens.scan_shift p 0 s.toList
  rw [here, Tokens.shift_prepend, Tokens.shift, Nat.zero_add, Nat.zero_add, Nat.add_comm _ p] at moved
  exact moved

namespace CutAt

theorem toList_eq (h : CutAt p cs ts) : (Tokens.scan p cs).toList = ts := by
  rw [h, Tokens.toList_prepend]
  exact List.append_nil ts

theorem range (h : CutAt p cs ts) : ∀ t ∈ ts, p ≤ t.1 ∧ t.1 < p + byteSize cs := by
  have within := (tiles_scan p cs).range
  rw [h.toList_eq] at within
  exact within

theorem nil (p : Nat) : CutAt p [] [] := Tokens.scan_nil p

theorem blank (hb : isBlank c = true) (h : CutAt (p + c.utf8Size) cs ts) : CutAt p (c :: cs) ts := by
  rw [CutAt, Tokens.scan_blank hb, h, byteSize, Nat.add_assoc]

theorem token (hb : isBlank c = false) (ht : Token.scan c cs = .ok (t, n))
    (h : CutAt (p + c.utf8Size + byteSize (cs.take n)) (cs.drop n) ts) : CutAt p (c :: cs) ((p, t) :: ts) := by
  have cut := byteSize_append (cs.take n) (cs.drop n)
  rw [List.take_append_drop] at cut
  rw [CutAt, Tokens.scan_token hb ht, h, byteSize, cut, Nat.add_assoc, Nat.add_assoc]
  rfl

theorem append (h : CutAt p cs ts) (stops : Stops ds) (h' : CutAt (p + byteSize cs) ds us) :
    CutAt p (cs ++ ds) (ts ++ us) := by
  have clean : (Tokens.scan p cs).error? = none := by
    rw [h, Tokens.error?_prepend]
    rfl
  rw [CutAt, Tokens.scan_append stops clean, h, Tokens.andThen_prepend, h', Tokens.prepend_append, byteSize_append,
    Nat.add_assoc]

theorem join {a b : String} (h : CutAt p a.toList ts) (stops : Stops b.toList)
    (h' : CutAt (p + a.utf8ByteSize) b.toList us) : CutAt p (a ++ b).toList (ts ++ us) := by
  rw [utf8ByteSize_eq] at h'
  rw [String.toList_append]
  exact h.append stops h'

theorem conjoin (h : CutAt (p + 5) cs ts) : CutAt p (" AND ".toList ++ cs) ((p + 1, .and) :: ts) := by
  apply blank rfl
  apply token (n := 2) rfl rfl
  apply blank rfl
  exact h

end CutAt

end Rulebook
