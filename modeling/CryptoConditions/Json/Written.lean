import CryptoConditions.Json.Token

/-! JSON texts as trees of what is written. The tokens are taken one by one, with
the arrays and objects that are still open on a stack. -/

namespace CryptoConditions.Json

inductive Written where
  | null
  | bool (value : Bool)
  | number (literal : Literal)
  | string (pieces : List Piece)
  | array (items : List Written)
  | object (fields : List (List Piece × Written))

namespace Written

/-- An array or object that is still open, with what it holds so far, the last first. -/
inductive Open where
  | array (items : List Written)
  | object (fields : List (List Piece × Written)) (name : List Piece)

/-- What may come next, and what is still open around it. -/
inductive State where
  | value (outer : List Open)
  | firstItem (outer : List Open)
  | firstName (outer : List Open)
  | name (fields : List (List Piece × Written)) (outer : List Open)
  | colon (fields : List (List Piece × Written)) (name : List Piece) (outer : List Open)
  | complete (value : Written) (outer : List Open)

/-- The state after the first token of a value. -/
def start (outer : List Open) : Token → Option State
  | .null => some (.complete .null outer)
  | .bool value => some (.complete (.bool value) outer)
  | .number literal => some (.complete (.number literal) outer)
  | .string pieces => some (.complete (.string pieces) outer)
  | .openArray => some (.firstItem outer)
  | .openObject => some (.firstName outer)
  | _ => none

/-- The state after a token behind a value. -/
def continue? (value : Written) : List Open → Token → Option State
  | .array items :: outer, .comma => some (.value (.array (value :: items) :: outer))
  | .array items :: outer, .closeArray =>
    some (.complete (.array (value :: items).reverse) outer)
  | .object fields name :: outer, .comma => some (.name ((name, value) :: fields) outer)
  | .object fields name :: outer, .closeObject =>
    some (.complete (.object ((name, value) :: fields).reverse) outer)
  | _, _ => none

def step : State → Token → Option State
  | .value outer, token => start outer token
  | .firstItem outer, .closeArray => some (.complete (.array []) outer)
  | .firstItem outer, token => start (.array [] :: outer) token
  | .firstName outer, .closeObject => some (.complete (.object []) outer)
  | .firstName outer, .string name => some (.colon [] name outer)
  | .name fields outer, .string name => some (.colon fields name outer)
  | .colon fields name outer, .colon => some (.value (.object fields name :: outer))
  | .complete value outer, token => continue? value outer token
  | _, _ => none

/-- The tree of a list of tokens that is one value. -/
def ofTokens? (tokens : List Token) : Option Written :=
  match tokens.foldlM step (.value []) with
  | some (.complete value []) => some value
  | _ => none

def ofText? (text : String) : Option Written := do
  ofTokens? (← tokens text.toList)

end Written

end CryptoConditions.Json
