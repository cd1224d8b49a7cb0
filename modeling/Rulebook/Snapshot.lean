import Rulebook.Blake3
import Rulebook.Snapshot.Payload
import Rulebook.Store

/-!
Stores as bytes. A header of 32 bytes holds a magic word, the version of the format, the version of
the writer, flags, the length of the payload and half of its hash; the payload follows.
-/

namespace Rulebook.Snapshot

def magic : List UInt8 := [0x52, 0x54, 0x52, 0x45]

def formatVersion : Nat := 1

def writerVersion : Nat := 1

def headerSize : Nat := 32

def checksum (payload : List UInt8) : List UInt8 := (Blake3.hash payload).take 16

inductive SaveError
  | tooLarge (size : Nat)
deriving DecidableEq

def SaveError.message : SaveError → String
  | tooLarge n =>
    "snapshot payload of " ++ toString n ++ " bytes exceeds the 4 GiB format limit"

def frame (payload : List UInt8) : List UInt8 :=
  magic ++ Bytes.write 2 formatVersion ++ Bytes.write 2 writerVersion ++ Bytes.write 4 0 ++
    Bytes.write 4 payload.length ++ checksum payload ++ payload

def Entry.ofRule (r : Rule) : Entry := ⟨r.id, r.source, .ofCondition r.condition⟩

def Payload.ofStore (s : Store) : Payload := ⟨s.nextId, s.rules.values.map .ofRule⟩

def write (s : Store) : Except SaveError (List UInt8) :=
  let payload := Encode.payload (.ofStore s)
  if payload.length < 0x100000000 then .ok (frame payload) else .error (.tooLarge payload.length)

inductive ValidationFault
  | nextIdOutOfRange (next : RuleId)
  | reservedId
  | idNotBelowNext (id next : RuleId)
  | repeatedId (id : RuleId)
  | emptyGroup
deriving DecidableEq

def ValidationFault.message : ValidationFault → String
  | nextIdOutOfRange next => "next id " ++ next.text ++ " is out of range"
  | reservedId => "rule id 0 is reserved"
  | idNotBelowNext i next => "rule id " ++ i.text ++ " is not below next id " ++ next.text
  | repeatedId i => "rule id " ++ i.text ++ " appears more than once"
  | emptyGroup => "empty And/Or group"

inductive LoadError
  | badMagic
  | incompatibleVersion (found : Nat)
  | checksumMismatch
  | lengthMismatch (expected actual : Nat)
  | decode (e : DecodeError)
  | validation (fault : ValidationFault)
deriving DecidableEq

def LoadError.message? : LoadError → Option String
  | badMagic => some "not a ruletree snapshot: invalid magic bytes"
  | incompatibleVersion n =>
    some ("incompatible format version: snapshot is v" ++ toString n ++ ", engine supports v" ++
      toString formatVersion)
  | checksumMismatch => some "integrity check failed: BLAKE3 checksum mismatch"
  | lengthMismatch expected actual =>
    some ("payload length mismatch: expected " ++ toString expected ++ " bytes, got " ++
      toString actual)
  | decode _ => none
  | validation f => some ("validation failed: " ++ f.message)

def checkEntry (next : RuleId) (seen : List RuleId) (e : Entry) : Except ValidationFault Unit :=
  if e.id.value = 0 then .error .reservedId
  else if next.value ≤ e.id.value then .error (.idNotBelowNext e.id next)
  else if e.id ∈ seen then .error (.repeatedId e.id)
  else if e.tree.isFilled then .ok ()
  else .error .emptyGroup

def checkEntries (next : RuleId) (seen : List RuleId) : List Entry → Except ValidationFault Unit
  | [] => .ok ()
  | e :: es => do
    checkEntry next seen e
    checkEntries next (e.id :: seen) es

/-- The greatest id is left free, so that there is always a next one. -/
def Payload.check (p : Payload) : Except ValidationFault Unit :=
  if p.nextId.value = 0 ∨ p.nextId.value = 0xFFFFFFFFFFFFFFFF then
    .error (.nextIdOutOfRange p.nextId)
  else checkEntries p.nextId [] p.entries

def Entry.toRule? (e : Entry) : Option Rule := do return ⟨e.id, ← e.tree.toCondition?, e.source⟩

def Payload.toStore? (p : Payload) : Option Store := do
  let rules ← p.entries.mapM Entry.toRule?
  return ⟨.ofList (rules.map fun r => (r.id, r)), p.nextId⟩

def Payload.toStore (p : Payload) : Except ValidationFault Store := do
  p.check
  match p.toStore? with
  | some s => return s
  | none => .error .emptyGroup

def slice (start count : Nat) (bs : List UInt8) : List UInt8 := (bs.drop start).take count

def unframe (bs : List UInt8) : Except LoadError (List UInt8) :=
  let payload := bs.drop headerSize
  let version := Bytes.read (slice 4 2 bs)
  let size := Bytes.read (slice 12 4 bs)
  if bs.length < headerSize then .error (.lengthMismatch headerSize bs.length)
  else if slice 0 4 bs ≠ magic then .error .badMagic
  else if version ≠ formatVersion then .error (.incompatibleVersion version)
  else if payload.length ≠ size then .error (.lengthMismatch size payload.length)
  else if checksum payload ≠ slice 16 16 bs then .error .checksumMismatch
  else .ok payload

def read (bs : List UInt8) : Except LoadError Store := do
  let payload ← unframe bs
  let (p, _) ← (Decode.payload payload).mapError .decode
  p.toStore.mapError .validation

end Rulebook.Snapshot
