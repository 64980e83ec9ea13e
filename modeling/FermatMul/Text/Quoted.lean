import FermatMul.Text.Combining
import FermatMul.Text.Digits
import FermatMul.Text.Unprintable

namespace FermatMul.Text.Quoted

def codePoint (c : Char) : List Char :=
  "\\u\x7b".toList ++ Digits.ofNat .hexadecimal c.toNat ++ "\x7d".toList

/-- A character as it stands between the quotes. -/
def encodeChar (c : Char) : List Char :=
  if c = '"' then ['\\', '"']
  else if c = '\\' then ['\\', '\\']
  else if c = '\t' then ['\\', 't']
  else if c = '\n' then ['\\', 'n']
  else if c = '\r' then ['\\', 'r']
  else if c.toNat = 0 then ['\\', '0']
  else if Combining.isCombining c || Unprintable.isUnprintable c then codePoint c
  else [c]

/-- A text in double quotes, in which every character is visible: quotes, backslashes and the usual
controls have short escapes, and what does not print by itself is given by its code point. -/
def encode (text : String) : String :=
  String.ofList ('"' :: text.toList.flatMap encodeChar ++ ['"'])

end FermatMul.Text.Quoted
