namespace Rulebook

def blankRanges : List (Nat × Nat) :=
  [(0x09, 0x0D), (0x20, 0x20), (0x85, 0x85), (0xA0, 0xA0), (0x1680, 0x1680), (0x2000, 0x200A),
    (0x2028, 0x2029), (0x202F, 0x202F), (0x205F, 0x205F), (0x3000, 0x3000)]

def isBlank (c : Char) : Bool := blankRanges.any fun r => r.1 ≤ c.toNat && c.toNat ≤ r.2

namespace Digits

def write (n : Nat) : List Char := Nat.toDigits 10 n

def read (ds : List Char) : Nat := ds.foldl (fun n c => 10 * n + (c.toNat - '0'.toNat)) 0

theorem read_concat (ds : List Char) (c : Char) :
    read (ds ++ [c]) = 10 * read ds + (c.toNat - '0'.toNat) := by
  simp only [read, List.foldl_append, List.foldl_cons, List.foldl_nil]

theorem digitChar_toNat (d : Nat) (h : d < 10) : (Nat.digitChar d).toNat - '0'.toNat = d := by
  have all : ∀ i : Fin 10, (Nat.digitChar i.val).toNat - '0'.toNat = i.val := by decide
  exact all ⟨d, h⟩

theorem write_eq (n : Nat) :
    write n = (if n < 10 then [] else write (n / 10)) ++ [Nat.digitChar (n % 10)] := by
  unfold write
  rw [Nat.toDigits_eq_if (by omega)]
  split
  · next h => rw [List.nil_append, Nat.mod_eq_of_lt h]
  · rfl

theorem read_write (n : Nat) : read (write n) = n := by
  induction n using Nat.strongRecOn with
  | ind n ih =>
    rw [write_eq, read_concat, digitChar_toNat _ (Nat.mod_lt n (by omega))]
    split
    · next h =>
      change 10 * 0 + n % 10 = n
      omega
    · next h =>
      rw [ih (n / 10) (by omega)]
      omega

end Digits

namespace Quoted

def singleQuote : Char := '\x27'

def doubleQuote : Char := '\x22'

def unescape (c : Char) : List Char :=
  if c = singleQuote || c = doubleQuote || c = '\\' then [c]
  else if c = 'n' then ['\n']
  else if c = 't' then ['\t']
  else ['\\', c]

def decode : List Char → List Char
  | [] => []
  | '\\' :: c :: rest => unescape c ++ decode rest
  | c :: rest => c :: decode rest

def split (quote : Char) : List Char → Option (List Char × List Char)
  | [] => none
  | '\\' :: c :: rest => (split quote rest).map fun p => ('\\' :: c :: p.1, p.2)
  | c :: rest =>
    if c = quote then some ([], rest) else (split quote rest).map fun p => (c :: p.1, p.2)

def escape (c : Char) : List Char :=
  if c = singleQuote || c = '\\' then ['\\', c]
  else if c = '\n' then ['\\', 'n']
  else if c = '\t' then ['\\', 't']
  else [c]

def encode (cs : List Char) : List Char := cs.flatMap escape

def write (cs : List Char) : List Char := singleQuote :: (encode cs ++ [singleQuote])

end Quoted

inductive Bracket
  | opening
  | closing
deriving DecidableEq

/-- The most brackets that are open at once, `depth` being open at the start. A closing bracket with
none open is passed over. -/
def deepest (depth : Nat) : List Bracket → Nat
  | [] => depth
  | .opening :: rest => max depth (deepest (depth + 1) rest)
  | .closing :: rest => max depth (deepest (depth - 1) rest)

end Rulebook
