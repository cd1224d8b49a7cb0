import Rulebook.Proofs.LongestLexemes
import Rulebook.Proofs.TextSize

namespace Rulebook

variable {p : Nat} {c : Char} {cs gap : List Char} {ts : Tokens}

inductive Tiles : Nat → List Char → Tokens → Prop
  | done (offset : Nat) (gap : List Char) : gap.all isBlank = true → Tiles offset gap (.done (offset + byteSize gap))
  | fault (offset : Nat) (gap : List Char) {c : Char} {cs : List Char} {f : LexFault} :
    gap.all isBlank = true → isBlank c = false → Faulty (c :: cs) f →
      Tiles offset (gap ++ c :: cs) (.fault ⟨offset + byteSize gap, f⟩)
  | next (offset : Nat) (gap : List Char) {w cs : List Char} {t : Token} {ts : Tokens} :
    gap.all isBlank = true → Longest (w ++ cs) w (.ok t) → Tiles (offset + byteSize gap + byteSize w) cs ts →
      Tiles offset (gap ++ (w ++ cs)) (.next (offset + byteSize gap) t ts)

theorem Tiles.blank (hb : isBlank c = true) (h : Tiles (p + c.utf8Size) cs ts) : Tiles p (c :: cs) ts := by
  have longer {gap : List Char} (all : gap.all isBlank = true) : (c :: gap).all isBlank = true := by
    rw [List.all_cons, hb, all]
    rfl
  cases h with
  | done _ _ all =>
    rw [Nat.add_assoc]
    exact .done p (c :: cs) (longer all)
  | fault _ gap all visible faulty =>
    rw [Nat.add_assoc]
    exact .fault p (c :: gap) (longer all) visible faulty
  | next _ gap all longest rest =>
    rw [Nat.add_assoc p] at rest ⊢
    exact .next p (c :: gap) (longer all) longest rest

theorem tiles_scan (offset : Nat) (cs : List Char) : Tiles offset cs (.scan offset cs) := by
  fun_induction Tokens.scan offset cs with
  | case1 offset => exact .done offset [] rfl
  | case2 offset c cs isBlank ih => exact ih.blank isBlank
  | case3 offset c cs notBlank f fault =>
    exact .fault offset [] rfl (Bool.eq_false_iff.mpr notBlank) (scan_error_iff.mp fault)
  | case4 offset c cs notBlank t n lexeme ih =>
    obtain ⟨w, longest, length⟩ := scan_ok_iff.mp lexeme
    have taken := longest.take length
    subst taken
    have whole : c :: cs = (c :: cs.take n) ++ cs.drop n := by rw [List.cons_append, List.take_append_drop]
    rw [whole] at longest ⊢
    rw [Nat.add_assoc] at ih ⊢
    exact .next offset [] rfl longest ih

theorem scan_gap (all : gap.all isBlank = true) (offset : Nat) (cs : List Char) :
    Tokens.scan offset (gap ++ cs) = .scan (offset + byteSize gap) cs := by
  induction gap generalizing offset with
  | nil => rfl
  | cons c gap ih =>
    obtain ⟨first, rest⟩ := List.all_cons.symm.trans all |> Bool.and_eq_true_iff.mp
    rw [List.cons_append, Tokens.scan_blank first, ih rest, byteSize, Nat.add_assoc]

theorem scan_of_tiles (h : Tiles p cs ts) : Tokens.scan p cs = ts := by
  induction h with
  | done offset gap all =>
    have blanks := scan_gap all offset []
    rw [List.append_nil, Tokens.scan_nil] at blanks
    exact blanks
  | fault offset gap all visible faulty =>
    rw [scan_gap all, Tokens.scan_fault visible (scan_error_iff.mpr faulty)]
  | @next offset gap w cs t ts all longest rest ih =>
    obtain ⟨k, lexeme⟩ := longest.lexeme
    obtain ⟨c, tail, rfl, -, visible⟩ := lexeme.first
    have taken : Token.scan c (tail ++ cs) = .ok (t, tail.length) :=
      scan_ok_iff.mpr ⟨c :: tail, longest, List.length_cons⟩
    rw [scan_gap all, List.cons_append, Tokens.scan_token visible taken, List.take_left, List.drop_left,
      Nat.add_assoc _ c.utf8Size]
    exact congrArg _ ih

inductive Item
  | token (offset : Nat) (t : Token)
  | fault (e : LexError)
  | eof (offset : Nat)
deriving DecidableEq

def Item.position : Item → Nat
  | token n _ => n
  | fault e => e.position
  | eof n => n

def Item.last (size : Nat) : Option LexError → Item
  | some e => fault e
  | none => eof size

def Tokens.items : Tokens → List Item
  | done n => [.eof n]
  | fault e => [.fault e]
  | next n t rest => .token n t :: rest.items

theorem Longest.byteSize_pos {w : List Char} {r : Except LexFault Token} (h : Longest cs w r) : 0 < byteSize w := by
  obtain ⟨k, lexeme⟩ := h.lexeme
  obtain ⟨c, tail, rfl, -⟩ := lexeme.first
  exact Nat.add_pos_left c.utf8Size_pos _

namespace Tiles

theorem length_le (h : Tiles p cs ts) : ts.items.length ≤ byteSize cs + 1 := by
  induction h with
  | done offset gap all => exact Nat.le_add_left 1 _
  | fault offset gap all visible faulty => exact Nat.le_add_left 1 _
  | @next offset gap w cs t ts all longest rest ih =>
    have pos := longest.byteSize_pos
    rw [Tokens.items, List.length_cons, byteSize_append, byteSize_append]
    omega

end Tiles

structure Cursor where
  source : List Char
  rest : List Char
  finished : Bool

namespace Cursor

def start (text : String) : Cursor := ⟨text.toList, text.toList, false⟩

def position (s : Cursor) : Nat := byteSize s.source - byteSize s.rest

def skip (s : Cursor) : Cursor := { s with rest := s.rest.dropWhile isBlank }

def next (s : Cursor) : Option Item × Cursor :=
  if s.finished then (none, s)
  else
    match s.skip.rest with
    | [] => (some (.eof s.skip.position), { s.skip with finished := true })
    | c :: cs =>
      match Token.scan c cs with
      | .ok (t, n) => (some (.token s.skip.position t), { s.skip with rest := cs.drop n })
      | .error f => (some (.fault ⟨s.skip.position, f⟩), { s.skip with finished := true })

theorem position_eq {source : List Char} (size : byteSize source = p + byteSize cs) (finished : Bool) :
    position ⟨source, cs, finished⟩ = p := by
  rw [position, size, Nat.add_sub_cancel]

end Cursor

def FirstBytes (text : String) (p : Nat) (before : String) : Prop :=
  ∃ after, text = before ++ after ∧ before.utf8ByteSize = p

theorem FirstBytes.whole (text : String) : FirstBytes text text.utf8ByteSize text :=
  ⟨"", String.append_empty.symm, rfl⟩

theorem firstBytes_of_cut {text : String} {before after : List Char} (h : text.toList = before ++ after) :
    FirstBytes text (byteSize before) (.ofList before) := by
  refine ⟨.ofList after, ?_, utf8ByteSize_ofList before⟩
  rw [← String.ofList_append, ← h, String.ofList_toList]

end Rulebook
