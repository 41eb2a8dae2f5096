import AssetServer.Text.Printable

/-!
# Quoted text

How messages show a path: between double quotes, with a backslash escape for what would not be
readable as it is.
-/

namespace AssetServer.Text

/-- A number in base 16, in small letters and without leading zeros. -/
def hex (n : Nat) : String :=
  String.ofList (Nat.toDigits 16 n)

/-- How a character stands between the quotes. A single quote is not escaped; a character that
    attaches to the one before it is, since it would attach to the quote. -/
def quotedChar (c : Char) : String :=
  if c = '\x00' then "\\0"
  else if c = '\t' then "\\t"
  else if c = '\r' then "\\r"
  else if c = '\n' then "\\n"
  else if c = '"' then "\\\""
  else if c = '\\' then "\\\\"
  else if isCombining c || !isPrintable c then "\\u\x7b" ++ hex c.toNat ++ "\x7d"
  else c.toString

/-- Text between double quotes. -/
def quoted (text : String) : String :=
  "\"" ++ String.join (text.toList.map quotedChar) ++ "\""

end AssetServer.Text
