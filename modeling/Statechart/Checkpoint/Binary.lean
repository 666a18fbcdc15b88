import Statechart.Checkpoint.Basic

/-!
Checkpoints as bytes. Numbers are little-endian, of 32 bits for the version and for the places of
names in an enumeration, of 64 bits for lengths; texts and lists are preceded by their length, and
an optional part by a byte that tells whether it is there. Whatever follows a checkpoint is not
looked at.
-/
namespace Statechart

namespace Binary

abbrev Bytes := List UInt8

/-- Takes a value off the front of the bytes. -/
abbrev Reader (α : Type) := Bytes → Option (α × Bytes)

/-- The low bytes of a number, lowest first. -/
def littleEndian : Nat → Nat → Bytes
  | 0, _ => []
  | width + 1, n => UInt8.ofNat (n % 256) :: littleEndian width (n / 256)

def readLittleEndian : Nat → Reader Nat
  | 0, bs => some (0, bs)
  | _ + 1, [] => none
  | width + 1, b :: bs =>
    (readLittleEndian width bs).map (fun (n, rest) => (b.toNat + 256 * n, rest))

def lengthLimit : Nat := Nat.pow 2 64

def writeLength (n : Nat) : Bytes := littleEndian 8 n

def readLength : Reader Nat := readLittleEndian 8

def writeBlock (bs : Bytes) : Bytes := writeLength bs.length ++ bs

def readBlock : Reader Bytes := fun bs => do
  let (n, bs) ← readLength bs
  if n ≤ bs.length then some (bs.splitAt n) else none

def textBytes (s : String) : Bytes := s.toByteArray.toList

def textOfBytes? (bs : Bytes) : Option String := String.fromUTF8? bs.toByteArray

def writeText (s : String) : Bytes := writeBlock (textBytes s)

def readText : Reader String := fun bs => do
  let (block, bs) ← readBlock bs
  some (← textOfBytes? block, bs)

def writeList {α : Type} (write : α → Bytes) (xs : List α) : Bytes :=
  writeLength xs.length ++ xs.flatMap write

def readMany {α : Type} (read : Reader α) : Nat → Reader (List α)
  | 0, bs => some ([], bs)
  | n + 1, bs =>
    match read bs with
    | none => none
    | some (x, bs) => (readMany read n bs).map (fun (xs, rest) => (x :: xs, rest))

def readList {α : Type} (read : Reader α) : Reader (List α) := fun bs => do
  let (n, bs) ← readLength bs
  readMany read n bs

def writeOption {α : Type} (write : α → Bytes) : Option α → Bytes
  | none => [0]
  | some x => 1 :: write x

def readOption {α : Type} (read : Reader α) : Reader (Option α)
  | 0 :: bs => some (none, bs)
  | 1 :: bs => (read bs).map (fun (x, rest) => (some x, rest))
  | _ => none

/-- A name is written as its place. -/
def writePlace (n : Nat) : Bytes := littleEndian 4 n

def readPlace {α : Type} (names : List α) : Reader α := fun bs => do
  let (n, bs) ← readLittleEndian 4 bs
  some (← names[n]?, bs)

def writeUuid (u : Uuid) : Bytes := writeBlock u.bytes

def readUuid : Reader Uuid := fun bs => do
  let (block, bs) ← readBlock bs
  some (← Uuid.ofBytes? block, bs)

def readTimestamp : Reader Timestamp := fun bs => do
  let (s, bs) ← readText bs
  some (← Timestamp.ofString? s, bs)

def statuses : List Status := [.idle, .stabilizing, .awaitingExternal, .final]

def origins : List Origin := [.internal, .external]

def writeEvent (e : SavedEvent) : Bytes :=
  writeText e.name ++ writePlace (origins.idxOf e.origin) ++ writeOption writeText e.payload

def readEvent : Reader SavedEvent := fun bs => do
  let (name, bs) ← readText bs
  let (origin, bs) ← readPlace origins bs
  let (payload, bs) ← readOption readText bs
  some (⟨name, origin, payload⟩, bs)

def writeRecord (r : String × List String) : Bytes := writeText r.1 ++ writeList writeText r.2

def readRecord : Reader (String × List String) := fun bs => do
  let (name, bs) ← readText bs
  let (states, bs) ← readList readText bs
  some ((name, states), bs)

end Binary

namespace Checkpoint

open Binary

/-- Whether every length can be written. -/
def fits (c : Checkpoint) : Bool :=
  let text (s : String) : Bool := (textBytes s).length < lengthLimit
  let list {α : Type} (item : α → Bool) (xs : List α) : Bool :=
    xs.length < lengthLimit && xs.all item
  let event (e : SavedEvent) : Bool := text e.name && e.payload.all text
  text c.timestamp.toString && text c.chart && list text c.active &&
    list (fun r => text r.1 && list text r.2) c.history.entries &&
    list event c.internal && list event c.external

def encode (c : Checkpoint) : Bytes :=
  littleEndian 4 c.version.toNat ++ writeUuid c.id ++ writeText c.timestamp.toString ++
    writeText c.chart ++ writeUuid c.session ++ writePlace (statuses.idxOf c.status) ++
    writeList writeText c.active ++ writeList writeRecord c.history.entries ++
    writeList writeEvent c.internal ++ writeList writeEvent c.external

def decode : Reader Checkpoint := fun bs => do
  let (version, bs) ← readLittleEndian 4 bs
  let (id, bs) ← readUuid bs
  let (timestamp, bs) ← readTimestamp bs
  let (chart, bs) ← readText bs
  let (session, bs) ← readUuid bs
  let (status, bs) ← readPlace statuses bs
  let (active, bs) ← readList readText bs
  let (records, bs) ← readList readRecord bs
  let (internal, bs) ← readList readEvent bs
  let (external, bs) ← readList readEvent bs
  some ({
    version := UInt32.ofNat version
    id, timestamp, chart, session, status, active, internal, external
    history := OrderedMap.ofWrites records }, bs)

def toBinary (c : Checkpoint) : Except CheckpointError Bytes :=
  if c.fits then .ok c.encode else .error .serializationFailed

def fromBinary (bs : Bytes) : Except CheckpointError Checkpoint :=
  match decode bs with
  | some (c, _) => c.checkVersion
  | none => .error .deserializationFailed

end Checkpoint

end Statechart
