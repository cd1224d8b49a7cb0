import Rulebook.Proofs.Grammar
import Rulebook.Proofs.LexemeEnds

namespace Rulebook

namespace Tokens

theorem scan_nil (offset : Nat) : scan offset [] = done offset := by
  rw [scan]

theorem scan_blank {c : Char} (h : isBlank c = true) (offset : Nat) (cs : List Char) :
    scan offset (c :: cs) = scan (offset + c.utf8Size) cs := by
  rw [scan, if_pos h]

theorem scan_token {c : Char} {cs : List Char} {t : Token} {n : Nat} (hb : isBlank c = false)
    (h : Token.scan c cs = .ok (t, n)) (offset : Nat) :
    scan offset (c :: cs) =
      next offset t (scan (offset + c.utf8Size + byteSize (cs.take n)) (cs.drop n)) := by
  rw [scan, hb, h]
  rfl

theorem scan_fault {c : Char} {cs : List Char} {f : LexFault} (hb : isBlank c = false)
    (h : Token.scan c cs = .error f) (offset : Nat) : scan offset (c :: cs) = fault ⟨offset, f⟩ := by
  rw [scan, hb, h]
  rfl

def shift (k : Nat) : Tokens → Tokens
  | done n => done (n + k)
  | fault e => fault ⟨e.position + k, e.fault⟩
  | next n t rest => next (n + k) t (rest.shift k)

theorem scan_shift (k offset : Nat) (cs : List Char) : scan (offset + k) cs = (scan offset cs).shift k := by
  fun_induction scan offset cs with
  | case1 offset => rw [scan_nil, shift]
  | case2 offset c cs hb ih => rw [scan_blank hb, ← ih, Nat.add_right_comm]
  | case3 offset c cs hb f hf => rw [scan_fault (by simpa using hb) hf, shift]
  | case4 offset c cs hb t n ht ih =>
    rw [scan_token (by simpa using hb) ht, shift, ← ih]
    congr 2
    omega

theorem plain_shift (k : Nat) (ts : Tokens) : (ts.shift k).plain = ts.plain := by
  induction ts with
  | done n => rfl
  | fault e => rfl
  | next n t rest ih => exact congrArg (t :: ·) ih

theorem error?_shift (k : Nat) (ts : Tokens) :
    (ts.shift k).error? = ts.error?.map fun e => ⟨e.position + k, e.fault⟩ := by
  induction ts with
  | done n => rfl
  | fault e => rfl
  | next n t rest ih => exact ih

def andThen : Tokens → (Nat → Tokens) → Tokens
  | done n, k => k n
  | fault e, _ => fault e
  | next n t rest, k => next n t (rest.andThen k)

theorem plain_andThen {ts : Tokens} {k : Nat → Tokens} {us : List Token} (h : ts.error? = none)
    (hk : ∀ n, (k n).plain = us) : (ts.andThen k).plain = ts.plain ++ us := by
  induction ts with
  | done n => exact hk n
  | fault e => cases h
  | next n t rest ih => exact congrArg (t :: ·) (ih h)

theorem error?_andThen {ts : Tokens} {k : Nat → Tokens} (h : ts.error? = none)
    (hk : ∀ n, (k n).error? = none) : (ts.andThen k).error? = none := by
  induction ts with
  | done n => exact hk n
  | fault e => cases h
  | next n t rest ih => exact ih h

theorem scan_append {rest : List Char} (hr : Stops rest) {offset : Nat} {cs : List Char}
    (h : (scan offset cs).error? = none) :
    scan offset (cs ++ rest) = (scan offset cs).andThen fun n => scan n rest := by
  fun_induction scan offset cs with
  | case1 offset => rfl
  | case2 offset c cs hb ih => rw [List.cons_append, scan_blank hb, ih h]
  | case3 offset c cs hb f hf => cases h
  | case4 offset c cs hb t n ht ih =>
    have hn := Token.scan_length ht
    rw [List.cons_append, scan_token (by simpa using hb) (Token.scan_append hr ht),
      List.take_append_of_le_length hn, List.drop_append_of_le_length hn, ih h, andThen]

end Tokens

structure Lexes (cs : List Char) (ts : List Token) : Prop where
  clean : ∀ offset, (Tokens.scan offset cs).error? = none
  plain : ∀ offset, (Tokens.scan offset cs).plain = ts

theorem lexes_of_scan {offset : Nat} {cs : List Char} (h : (Tokens.scan offset cs).error? = none) :
    Lexes cs (Tokens.scan offset cs).plain := by
  have base : ∀ k, Tokens.scan (0 + k) cs = (Tokens.scan 0 cs).shift k := fun k => Tokens.scan_shift k 0 cs
  simp only [Nat.zero_add] at base
  have clean : (Tokens.scan 0 cs).error? = none := by
    rw [base, Tokens.error?_shift, Option.map_eq_none_iff] at h
    exact h
  constructor
  · intro k
    rw [base, Tokens.error?_shift, clean]
    rfl
  · intro k
    rw [base, base offset, Tokens.plain_shift, Tokens.plain_shift]

namespace Lexes

theorem nil : Lexes [] [] := by
  constructor <;> intro offset <;> rw [Tokens.scan_nil] <;> rfl

theorem blank {c : Char} (hc : isBlank c = true) {cs : List Char} {ts : List Token} (h : Lexes cs ts) :
    Lexes (c :: cs) ts := by
  constructor <;> intro offset <;> rw [Tokens.scan_blank hc]
  · exact h.clean _
  · exact h.plain _

theorem token {c : Char} {cs : List Char} {t : Token} {n : Nat} (hb : isBlank c = false)
    (ht : Token.scan c cs = .ok (t, n)) {ts : List Token} (h : Lexes (cs.drop n) ts) :
    Lexes (c :: cs) (t :: ts) := by
  constructor <;> intro offset <;> rw [Tokens.scan_token hb ht]
  · exact h.clean _
  · exact congrArg (t :: ·) (h.plain _)

theorem single {c : Char} {cs : List Char} {t : Token} (hb : isBlank c = false)
    (ht : Token.scan c cs = .ok (t, cs.length)) : Lexes (c :: cs) [t] := by
  refine token hb ht ?_
  rw [List.drop_length]
  exact nil

theorem append {cs rest : List Char} {ts us : List Token} (h : Lexes cs ts) (hr : Stops rest)
    (hu : Lexes rest us) : Lexes (cs ++ rest) (ts ++ us) := by
  constructor <;> intro offset <;> rw [Tokens.scan_append hr (h.clean offset)]
  · exact Tokens.error?_andThen (h.clean offset) fun n => hu.clean n
  · rw [Tokens.plain_andThen (h.clean offset) fun n => hu.plain n, h.plain]

end Lexes

end Rulebook
