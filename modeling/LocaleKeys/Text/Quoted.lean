import LocaleKeys.Text.Hidden

/-! Texts quoted for a reader of messages. Quotes, backslashes and the common
controls have short escapes, and hidden characters are written by their code. -/
namespace LocaleKeys.Text

/-- A character inside a quoted text. -/
def spell (c : Char) : List Char :=
  if c = '"' then ['\\', '"']
  else if c = '\\' then ['\\', '\\']
  else if c = '\x00' then ['\\', '0']
  else if c = '\t' then ['\\', 't']
  else if c = '\n' then ['\\', 'n']
  else if c = '\r' then ['\\', 'r']
  else if isHidden c then '\\' :: 'u' :: '\x7b' :: (Nat.toDigits 16 c.toNat ++ ['\x7d'])
  else [c]

def quoted (text : String) : String :=
  String.ofList ('"' :: (text.toList.flatMap spell ++ ['"']))

end LocaleKeys.Text
