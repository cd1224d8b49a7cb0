import Rulebook.Proofs.Frames
import Rulebook.Proofs.LoadedStores

namespace Rulebook.Snapshot

variable {α β : Type}

inductive Continues (extra : List UInt8) :
    Except DecodeError (α × List UInt8) → Except DecodeError (α × List UInt8) → Prop
  | ended (later : Except DecodeError (α × List UInt8)) : Continues extra (.error .unexpectedEnd) later
  | refused (e : DecodeError) : Continues extra (.error e) (.error e)
  | decoded (x : α) (rest : List UInt8) : Continues extra (.ok (x, rest)) (.ok (x, rest ++ extra))

def Extends (d e : Decoder α) : Prop := ∀ bs extra, Continues extra (d bs) (e (bs ++ extra))

namespace Extends

theorem pure (x : α) : Extends (Pure.pure x) (Pure.pure x) := fun bs _ => .decoded x bs

theorem throw (e : DecodeError) : Extends (α := α) (MonadExcept.throw e) (MonadExcept.throw e) :=
  fun _ _ => .refused e

theorem bind {d e : Decoder α} {f g : α → Decoder β} (first : Extends d e) (later : ∀ x, Extends (f x) (g x)) :
    Extends (d >>= f) (e >>= g) := by
  intro bs extra
  change Continues extra (d bs >>= fun p => f p.1 p.2) (e (bs ++ extra) >>= fun p => g p.1 p.2)
  have step := first bs extra
  generalize d bs = before, e (bs ++ extra) = after at step
  cases step with
  | ended => exact .ended _
  | refused fault => exact .refused fault
  | decoded x rest => exact later x rest extra

theorem takeBytes (n : Nat) : Extends (takeBytes n) (Snapshot.takeBytes n) := by
  intro bs extra
  unfold Snapshot.takeBytes
  split
  · next enough =>
    rw [if_pos, List.take_append_of_le_length enough, List.drop_append_of_le_length enough]
    · exact .decoded _ _
    · rw [List.length_append]
      omega
  · exact .ended _

theorem varint (w : Varint.Width) : Extends (Varint.decode w) (Varint.decode w) := by
  intro bs extra
  cases bs with
  | nil => exact .ended _
  | cons mark bs =>
    simp only [List.cons_append, Varint.decode]
    split
    · exact .refused _
    · exact .decoded _ _
    · next count _ _ =>
      have step := takeBytes count bs extra
      generalize Snapshot.takeBytes count bs = before, Snapshot.takeBytes count (bs ++ extra) = after at step
      cases step with
      | ended => exact .ended _
      | refused fault => exact .refused fault
      | decoded us rest => exact .decoded _ _

theorem sized {f : Nat → Decoder α} (h : ∀ {m n : Nat}, m ≤ n → Extends (f m) (f n)) :
    Extends (do f (← get).length) (do f (← get).length) := by
  intro bs extra
  change Continues extra (f bs.length bs) (f (bs ++ extra).length (bs ++ extra))
  apply h
  rw [List.length_append]
  omega

theorem cut {d : Decoder α} {bs part : List UInt8} {x : α} (h : Extends d d) (whole : d bs = .ok (x, []))
    (start : part <+: bs) (shorter : part ≠ bs) : d part = .error .unexpectedEnd := by
  obtain ⟨extra, rfl⟩ := start
  have step := h part extra
  rw [whole] at step
  generalize d part = before, complete : Except.ok (x, []) = after at step
  cases step with
  | ended => rfl
  | refused => cases complete
  | decoded y rest =>
    obtain ⟨-, empty⟩ := Prod.mk.inj (Except.ok.inj complete)
    obtain ⟨-, rfl⟩ := List.append_eq_nil_iff.mp empty.symm
    exact absurd (List.append_nil part).symm shorter

end Extends

theorem string_extends : Extends Decode.string Decode.string := by
  apply (Extends.varint .word64).bind
  intro size
  apply (Extends.takeBytes size).bind
  intro us
  split
  · exact .pure _
  · exact .throw _

theorem operator_extends : Extends Decode.operator Decode.operator := by
  apply (Extends.varint .word32).bind
  intro index
  split
  · exact .pure _
  · exact .throw _

theorem bool_extends : Extends Decode.bool Decode.bool := by
  apply (Extends.takeBytes 1).bind
  intro us
  split
  · exact .pure _
  · exact .pure _
  · exact .throw _

theorem value_extends : Extends Decode.value Decode.value := by
  apply (Extends.varint .word32).bind
  intro tag
  split
  · exact (Extends.varint .word64).bind fun _ => .pure _
  · exact (Extends.takeBytes 8).bind fun _ => .pure _
  · exact bool_extends.bind fun _ => .pure _
  · exact string_extends.bind fun _ => .pure _
  · exact .throw _

theorem items_extends {d e : Decoder α} (h : Extends d e) (count : Nat) :
    Extends (Decode.items d count) (Decode.items e count) := by
  induction count with
  | zero => exact .pure []
  | succ count ih =>
    apply h.bind
    intro x
    exact ih.bind fun _ => .pure _

theorem group_extends (join : List Tree → Tree) {d e : Decoder Tree} (h : Extends d e) :
    Extends (do return join (← Decode.items d (← Decode.word64))) (do return join (← Decode.items e (← Decode.word64))) := by
  apply (Extends.varint .word64).bind
  intro count
  exact (items_extends h count).bind fun _ => .pure _

theorem tree_extends {m n : Nat} (h : m ≤ n) : Extends (Decode.tree m) (Decode.tree n) := by
  induction m generalizing n with
  | zero => exact fun _ _ => .ended _
  | succ m ih =>
    cases n with
    | zero => exact absurd h (Nat.not_succ_le_zero m)
    | succ n =>
      have parts := ih (Nat.le_of_succ_le_succ h)
      rw [Decode.tree, Decode.tree]
      apply (Extends.varint .word32).bind
      intro tag
      split
      · apply string_extends.bind
        intro f
        apply operator_extends.bind
        intro o
        exact value_extends.bind fun _ => .pure _
      · exact group_extends .and parts
      · exact group_extends .or parts
      · exact .throw _

theorem ruleId_extends : Extends Decode.ruleId Decode.ruleId := (Extends.varint .word64).bind fun _ => .pure _

theorem entry_extends : Extends Decode.entry Decode.entry := by
  apply ruleId_extends.bind
  intro i
  apply string_extends.bind
  intro source
  let shaped (n : Nat) : Decoder Entry := do return ⟨i, source, ← Decode.tree n⟩
  apply Extends.sized (f := shaped)
  intro m n more
  exact (tree_extends more).bind fun _ => .pure _

theorem payload_extends : Extends Decode.payload Decode.payload := by
  apply ruleId_extends.bind
  intro next
  apply (Extends.varint .word64).bind
  intro count
  exact (items_extends entry_extends count).bind fun _ => .pure _

variable {bs : List UInt8} {s : Store}

theorem read_eq_of_framed (h : Framed bs) : read bs = read (frame (bs.drop headerSize)) := by
  have opened : unframe bs = .ok (bs.drop headerSize) := unframe_ok_iff.mpr ⟨h, rfl⟩
  rw [read, read, opened, unframe_frame h.size_lt]

theorem read_delimited (written : write s = .ok bs) (loaded : read bs = .ok s) :
    (∀ extra, (Encode.payload (.ofStore s) ++ extra).length < 0x100000000 →
      read (frame (Encode.payload (.ofStore s) ++ extra)) = .ok s) ∧
      (∀ part, part <+: Encode.payload (.ofStore s) → part ≠ Encode.payload (.ofStore s) →
        read (frame part) = .error (.decode .unexpectedEnd)) ∧
        ∀ cs, Framed cs → read cs = read (frame (cs.drop headerSize)) := by
  obtain ⟨size, rfl⟩ := write_ok_iff.mp written
  have decoded := payload_decodes (p := .ofStore s) (by omega) []
  rw [List.append_nil] at decoded
  refine ⟨?_, ?_, fun cs framed => read_eq_of_framed framed⟩
  · intro extra fits
    have alone : (Encode.payload (.ofStore s) ++ []).length < 0x100000000 := by rwa [List.append_nil]
    have whole := held_frame alone
    rw [List.append_nil] at whole
    rw [read_eq_held, whole] at loaded
    rw [read_eq_held, held_frame fits]
    exact loaded
  · intro part start shorter
    have fits := start.length_le
    rw [read, unframe_frame (by omega)]
    change (Decode.payload part).mapError LoadError.decode >>= _ = _
    rw [payload_extends.cut decoded start shorter]
    rfl

theorem read_delimited_odd :
    read (frame (Encode.payload (.ofStore (odd ⟨8⟩)) ++ [255, 0])) = .ok (odd ⟨8⟩) ∧
      ∀ n < 51, read (frame ((Encode.payload (.ofStore (odd ⟨8⟩))).take n)) = .error (.decode .unexpectedEnd) := by
  obtain ⟨bs, written, loaded⟩ := odd_saved
  obtain ⟨longer, shorter, -⟩ := read_delimited written loaded
  constructor
  · have fits : (Encode.payload (.ofStore (odd ⟨8⟩)) ++ [255, 0]).length < 0x100000000 := by
      rw [List.length_append, odd_length]
      decide
    exact longer [255, 0] fits
  · intro n below
    apply shorter _ (List.take_prefix n _)
    intro same
    have taken := congrArg List.length same
    rw [List.length_take, odd_length] at taken
    omega

end Rulebook.Snapshot
