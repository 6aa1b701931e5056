import CryptoConditions.Json.Value
import CryptoConditions.Json.Written

/-! What written JSON means: texts, values and the fields of records. A value may
not be nested in more than a given number of arrays and objects. What nobody
asks for is never looked at: it may hold anything that can be written. -/

namespace CryptoConditions.Json

/-- Arrays and objects that may be nested in one another. -/
def maxDepth : Nat := 127

def isHighSurrogate (n : Nat) : Bool := 0xd800 ≤ n && n < 0xdc00

def isLowSurrogate (n : Nat) : Bool := 0xdc00 ≤ n && n < 0xe000

/-- The characters of a string; code units of half a character come in pairs. -/
def resolve : List Piece → Option (List Char)
  | [] => some []
  | .char c :: rest => do return c :: (← resolve rest)
  | .unit high :: .unit low :: rest =>
    if isHighSurrogate high then
      if isLowSurrogate low then do
        let c := Char.ofNat (0x10000 + (high - 0xd800) * 0x400 + (low - 0xdc00))
        return c :: (← resolve rest)
      else none
    else if isLowSurrogate high then none
    else do return Char.ofNat high :: (← resolve (.unit low :: rest))
  | .unit n :: rest =>
    if isHighSurrogate n || isLowSurrogate n then none
    else do return Char.ofNat n :: (← resolve rest)

def text? (pieces : List Piece) : Option String :=
  (resolve pieces).map String.ofList

/-- A field put in its place by name; it replaces one of the same name. -/
def insertField (name : String) (value : Json) :
    List (String × Json) → List (String × Json)
  | [] => [(name, value)]
  | (other, known) :: fields =>
    if name < other then (name, value) :: (other, known) :: fields
    else if name = other then (name, value) :: fields
    else (other, known) :: insertField name value fields

mutual

/-- The value of what is written, with the fields of objects in the order of their names. Of
fields with one name the last counts. -/
def meaning? : (room : Nat) → Written → Option Json
  | _, .null => some .null
  | _, .bool value => some (.bool value)
  | _, .number literal => literal.value?.map .number
  | _, .string pieces => (text? pieces).map .string
  | 0, .array _ => none
  | room + 1, .array items => (itemsMeaning? room items).map .array
  | 0, .object _ => none
  | room + 1, .object fields => (fieldsMeaning? room fields []).map .object

def itemsMeaning? : (room : Nat) → List Written → Option (List Json)
  | _, [] => some []
  | room, item :: items => do
    let value ← meaning? room item
    let values ← itemsMeaning? room items
    return value :: values

/-- Fields put among those that are known already. -/
def fieldsMeaning? : (room : Nat) → List (List Piece × Written) → List (String × Json) →
    Option (List (String × Json))
  | _, [], known => some known
  | room, (name, field) :: fields, known => do
    let name ← text? name
    let value ← meaning? room field
    fieldsMeaning? room fields (insertField name value known)

end

def parse? (text : String) : Option Json := do
  meaning? maxDepth (← Written.ofText? text)

end CryptoConditions.Json
