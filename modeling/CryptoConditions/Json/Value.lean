import CryptoConditions.Json.Number

/-! JSON values and their two written forms. The fields of an object are written
in the order in which they stand. -/

namespace CryptoConditions

inductive Json where
  | null
  | bool (value : Bool)
  | number (n : Number)
  | string (text : String)
  | array (items : List Json)
  | object (fields : List (String × Json))

namespace Json

mutual

def decEq : (a b : Json) → Decidable (a = b)
  | null, null => isTrue rfl
  | bool a, bool b => decidable_of_iff (a = b) (by simp)
  | number a, number b => decidable_of_iff (a = b) (by simp)
  | string a, string b => decidable_of_iff (a = b) (by simp)
  | array a, array b =>
    match decEqItems a b with
    | isTrue h => isTrue (by rw [h])
    | isFalse h => isFalse (by simp [h])
  | object a, object b =>
    match decEqFields a b with
    | isTrue h => isTrue (by rw [h])
    | isFalse h => isFalse (by simp [h])
  | null, bool _ | null, number _ | null, string _ | null, array _ | null, object _
  | bool _, null | bool _, number _ | bool _, string _ | bool _, array _ | bool _, object _
  | number _, null | number _, bool _ | number _, string _ | number _, array _
  | number _, object _ | string _, null | string _, bool _ | string _, number _
  | string _, array _ | string _, object _ | array _, null | array _, bool _
  | array _, number _ | array _, string _ | array _, object _ | object _, null
  | object _, bool _ | object _, number _ | object _, string _ | object _, array _ =>
    isFalse (by simp)

def decEqItems : (a b : List Json) → Decidable (a = b)
  | [], [] => isTrue rfl
  | a :: as, b :: bs =>
    match decEq a b, decEqItems as bs with
    | isTrue h, isTrue t => isTrue (by rw [h, t])
    | isFalse h, _ => isFalse (by simp [h])
    | _, isFalse t => isFalse (by simp [t])
  | [], _ :: _ | _ :: _, [] => isFalse (by simp)

def decEqFields : (a b : List (String × Json)) → Decidable (a = b)
  | [], [] => isTrue rfl
  | (k, a) :: as, (l, b) :: bs =>
    if name : k = l then
      match decEq a b, decEqFields as bs with
      | isTrue h, isTrue t => isTrue (by rw [name, h, t])
      | isFalse h, _ => isFalse (by simp [h])
      | _, isFalse t => isFalse (by simp [t])
    else isFalse (by simp [name])
  | [], _ :: _ | _ :: _, [] => isFalse (by simp)

end

instance : DecidableEq Json := decEq

def ofUInt64 (n : UInt64) : Json := number (.ofUInt64 n)

def ofUInt32 (n : UInt32) : Json := ofUInt64 n.toUInt64

def ofOption {α : Type} (f : α → Json) : Option α → Json
  | none => null
  | some a => f a

/-- A control character has a short escape or a numbered one. -/
def controlEscape (c : Char) : List Char :=
  if c = '\n' then ['n']
  else if c = '\r' then ['r']
  else if c = '\t' then ['t']
  else if c = Char.ofNat 8 then ['b']
  else if c = Char.ofNat 12 then ['f']
  else 'u' :: '0' :: '0' :: Numeral.digitChar (c.toNat / 16) :: [Numeral.digitChar (c.toNat % 16)]

/-- Quotes, backslashes and control characters are escaped, nothing else. -/
def quotedChar (c : Char) : List Char :=
  if c = '"' ∨ c = '\\' then ['\\', c]
  else if c.toNat < 32 then '\\' :: controlEscape c
  else [c]

def quoted (text : String) : List Char :=
  '"' :: text.toList.flatMap quotedChar ++ ['"']

/-- What a line starts with at a depth. -/
def lineBreak (depth : Nat) : List Char :=
  '\n' :: List.replicate (2 * depth) ' '

/-- Line breaks and blanks of a written form: none, or each item on a line of its own. -/
inductive Layout where
  | compact
  | indented
deriving DecidableEq

namespace Layout

def newline (depth : Nat) : Layout → List Char
  | compact => []
  | indented => lineBreak depth

def colon : Layout → List Char
  | compact => [':']
  | indented => [':', ' ']

end Layout

mutual

/-- The text of a value whose first line starts elsewhere. -/
def chars (layout : Layout) (depth : Nat) : Json → List Char
  | null => ['n', 'u', 'l', 'l']
  | bool true => ['t', 'r', 'u', 'e']
  | bool false => ['f', 'a', 'l', 's', 'e']
  | number n => n.chars
  | string text => quoted text
  | array [] => ['[', ']']
  | array (item :: items) =>
    '[' :: layout.newline (depth + 1) ++ chars layout (depth + 1) item ++
      restItems layout depth items
  | object [] => ['{', '}']
  | object ((name, value) :: fields) =>
    '{' :: layout.newline (depth + 1) ++ quoted name ++ layout.colon ++
      chars layout (depth + 1) value ++ restFields layout depth fields

def restItems (layout : Layout) (depth : Nat) : List Json → List Char
  | [] => layout.newline depth ++ [']']
  | item :: items =>
    ',' :: layout.newline (depth + 1) ++ chars layout (depth + 1) item ++
      restItems layout depth items

def restFields (layout : Layout) (depth : Nat) : List (String × Json) → List Char
  | [] => layout.newline depth ++ ['}']
  | (name, value) :: fields =>
    ',' :: layout.newline (depth + 1) ++ quoted name ++ layout.colon ++
      chars layout (depth + 1) value ++ restFields layout depth fields

end

def compact (value : Json) : String :=
  String.ofList (chars .compact 0 value)

def pretty (value : Json) : String :=
  String.ofList (chars .indented 0 value)

end Json

end CryptoConditions
