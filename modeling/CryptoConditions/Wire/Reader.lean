import CryptoConditions.Wire.Encoding
import CryptoConditions.Wire.Error

/-! Reading encoded values off the front of a byte string. A read that fails
still says what is left, so that reading may go on behind a bad value. Only
the shortest forms are accepted. -/

namespace CryptoConditions.Wire

/-- Takes a value off the front of a byte string. -/
def Reader (α : Type) : Type :=
  Bytes → Except CodecError α × Bytes

namespace Reader

def fail {α : Type} (error : CodecError) : Reader α :=
  fun bytes => (.error error, bytes)

instance : Monad Reader where
  pure a := fun bytes => (.ok a, bytes)
  bind read next := fun bytes =>
    match read bytes with
    | (.ok a, rest) => next a rest
    | (.error e, rest) => (.error e, rest)

def exact (count : Nat) : Reader Bytes := fun bytes =>
  if bytes.length < count then (.error (.truncated (count - bytes.length)), bytes)
  else (.ok (bytes.take count), bytes.drop count)

/-- A big-endian number of `width` bytes. -/
def fixed (width : Nat) : Reader Nat := do
  return ofBigEndian (← exact width)

def length : Reader Nat := do
  let first ← fixed 1
  if first < 128 then return first
  let width := first - 128
  if width = 0 ∨ maxLengthBytes < width then fail (.lengthTooWide width) else
  let raw ← exact width
  if raw.head? = some 0 ∨ ofBigEndian raw < 128 then fail .nonMinimal else
  return ofBigEndian raw

def octets : Reader Bytes := do
  exact (← length)

/-- An unsigned integer of at most 64 bits. -/
def uint : Reader Nat := do
  let raw ← octets
  if raw.isEmpty then fail .nonMinimal else
  if 8 < raw.length then fail (.overflow 64) else
  if 1 < raw.length ∧ raw.head? = some 0 then fail .nonMinimal else
  return ofBigEndian raw

/-- Succeeds only at the end. -/
def finish : Reader Unit := fun bytes =>
  if bytes.isEmpty then (.ok (), bytes) else (.error (.trailingBytes bytes.length), bytes)

/-- The read as a step over the remaining bytes that stops at the first error. -/
def orThrow {ε α : Type} (wrap : CodecError → ε) (read : Reader α) : StateT Bytes (Except ε) α :=
  fun bytes =>
    match read bytes with
    | (.ok a, rest) => .ok (a, rest)
    | (.error e, _) => .error (wrap e)

end Reader

inductive Kind where
  | fixed (width : Nat)
  | length
  | uint
  | octets
deriving DecidableEq

/-- A value to be written, with its kind. -/
inductive Item where
  | fixed (width n : Nat)
  | length (n : Nat)
  | uint (n : Nat)
  | octets (bytes : Bytes)
deriving DecidableEq

def Item.kind : Item → Kind
  | fixed width _ => .fixed width
  | length _ => .length
  | uint _ => .uint
  | octets _ => .octets

def Item.encode : Item → Bytes
  | fixed width n => bigEndian width n
  | length n => Wire.length n
  | uint n => Wire.uint n
  | octets bytes => Wire.octets bytes

def Kind.read : Kind → Reader Item
  | fixed width => Item.fixed width <$> Reader.fixed width
  | length => Item.length <$> Reader.length
  | uint => Item.uint <$> Reader.uint
  | octets => Item.octets <$> Reader.octets

end CryptoConditions.Wire
