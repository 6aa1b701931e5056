import CryptoConditions.Text.Invisible
import CryptoConditions.Text.Numeral

/-! Texts between quotation marks, with marks put before what a reader could
mistake. -/

namespace CryptoConditions.Quoted

def escape (c : Char) : String :=
  if c = '\x00' then "\\0"
  else if c = '\t' then "\\t"
  else if c = '\r' then "\\r"
  else if c = '\n' then "\\n"
  else if c = '\\' ∨ c = '"' then String.ofList ['\\', c]
  else if Text.isInvisible c then "\\u\x7b" ++ Numeral.hex c.toNat ++ "\x7d"
  else c.toString

def encode (text : String) : String :=
  "\"" ++ String.join (text.toList.map escape) ++ "\""

end CryptoConditions.Quoted
