import WireServer.Text.Numeral
import WireServer.Text.Unseen

/-! Quoted text for messages: quotes, backslashes and characters that do not show are escaped. -/

namespace WireServer.Quoted

/-- One character between the quotes. -/
def escape (c : Char) : String :=
  if c = '\x00' then "\\0"
  else if c = '\t' then "\\t"
  else if c = '\r' then "\\r"
  else if c = '\n' then "\\n"
  else if c = '\\' then "\\\\"
  else if c = '"' then "\\\""
  else if Unseen.isUnseen c then "\\u\x7b" ++ Numeral.hex c.toNat ++ "\x7d"
  else c.toString

def quote (s : String) : String := "\"" ++ String.join (s.toList.map escape) ++ "\""

end WireServer.Quoted
