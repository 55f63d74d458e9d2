import CipherFlow.Scheme.Context

/-!
# Fields

Values are sent as bytes, lowest byte first. Each kind of field has a writer,
which gives its bytes, and a reader, which takes them off the front of a list
and leaves the rest.
-/

namespace CipherFlow.Wire

/-- A sequence of bytes. -/
abbrev Bytes := List UInt8

/-- What bytes can be refused for. -/
inductive Error where
  | endOfData
  | unknownLevelId (id : LevelId)
  | nttForm (flag : Nat)
  | invalidComponentCount (count : Nat)
  | degreeMismatch (expected actual : Nat)
  | chainLengthMismatch (expected actual : Nat)
  | invalidScale (scale : Float)
  | coefficientOutOfRange (value modulus : Nat)
  | trailingBytes (count : Nat)
  | ring (e : Ring.Error)
  | key (e : Key.Error)
  | scheme (e : Scheme.Error)
deriving Repr

/-- The wording for data that ends within a field. -/
def endOfDataText : String :=
  "I/O error: failed to fill whole buffer"

/-- The wording of an error. -/
def Error.message : Error → String
  | .endOfData => endOfDataText
  | .unknownLevelId id => s!"Parameter id {id.text} does not belong to the active context"
  | .nttForm flag => s!"Unsupported NTT-form flag {flag}"
  | .invalidComponentCount count => s!"Invalid component count {count}"
  | .degreeMismatch expected actual => s!"Ring degree mismatch: expected {expected}, got {actual}"
  | .chainLengthMismatch expected actual =>
    s!"Modulus chain length mismatch: expected {expected}, got {actual}"
  | .invalidScale scale => s!"Invalid scale {Decimal.shortest scale}"
  | .coefficientOutOfRange value modulus => s!"Coefficient {value} not below modulus {modulus}"
  | .trailingBytes count => s!"{count} trailing bytes after payload"
  | .ring e => e.message
  | .key e => e.message
  | .scheme e => e.message

instance : ToString Error := ⟨Error.message⟩

/-- A reader takes bytes off the front of a list. -/
abbrev Reader := StateT Bytes (Except Error)

instance (priority := 1300) : MonadLift (Except Ring.Error) (Except Error) :=
  ⟨fun r => r.mapError .ring⟩

instance (priority := 1200) : MonadLift (Except Key.Error) (Except Error) :=
  ⟨fun r => r.mapError .key⟩

instance : MonadLift (Except Scheme.Error) (Except Error) := ⟨fun r => r.mapError .scheme⟩

/-! ## Whole numbers -/

/-- The lowest bytes of a number, lowest first. -/
def natBytes : (width n : Nat) → Bytes
  | 0, _ => []
  | width + 1, n => (n % 256).toUInt8 :: natBytes width (n / 256)

/-- The number with given bytes, lowest first. -/
def natOfBytes : Bytes → Nat
  | [] => 0
  | b :: rest => b.toNat + 256 * natOfBytes rest

/-- Takes a number of bytes, if there are so many. -/
def takeBytes : (count : Nat) → Reader Bytes
  | 0 => return []
  | count + 1 => fun bytes =>
    match bytes with
    | [] => .error .endOfData
    | b :: rest => do
      let (taken, rest) ← takeBytes count rest
      return (b :: taken, rest)

/-- Reads a number of the given width. -/
def readNat (width : Nat) : Reader Nat := do
  let bytes ← takeBytes width
  return natOfBytes bytes

/-- Reads one byte. -/
def readByte : Reader Nat :=
  readNat 1

/-- Eight bytes of a number. -/
def wordBytes (n : Nat) : Bytes :=
  natBytes 8 n

/-- Reads eight bytes as a number. -/
def readWord : Reader Nat :=
  readNat 8

/-! ## Floating-point numbers and lists -/

/-- The eight bytes of a floating-point number. -/
def floatBytes (x : Binary64) : Bytes :=
  wordBytes x.bits.toNat

/-- Reads a floating-point number. -/
def readFloat : Reader Binary64 := do
  let bits ← readWord
  return ⟨bits.toUInt64⟩

/-- Reads a number of values, one after the other. -/
def readMany (read : Reader α) : (count : Nat) → Reader (List α)
  | 0 => return []
  | count + 1 => do
    let x ← read
    let rest ← readMany read count
    return x :: rest

/-- Requires that nothing is left. -/
def checkConsumed (rest : Bytes) : Except Error Unit :=
  if rest.isEmpty then .ok () else .error (.trailingBytes rest.length)

/-! ## Level identifiers -/

/-- The thirty-two bytes of a level identifier. -/
def levelIdBytes (id : LevelId) : Bytes :=
  id.words.flatMap fun w => wordBytes w.toNat

/-- Reads a level identifier. -/
def readLevelId : Reader LevelId := do
  let a ← readWord
  let b ← readWord
  let c ← readWord
  let d ← readWord
  return ⟨a.toUInt64, b.toUInt64, c.toUInt64, d.toUInt64⟩

end CipherFlow.Wire
