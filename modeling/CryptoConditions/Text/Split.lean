/-! The parts of a text between separators. -/

namespace CryptoConditions.Text

/-- The parts between separators; there is always one. -/
def split (separator : Char) : List Char → List (List Char)
  | [] => [[]]
  | c :: rest =>
    if c = separator then [] :: split separator rest
    else match split separator rest with
      | field :: fields => (c :: field) :: fields
      | [] => [[c]]

end CryptoConditions.Text
