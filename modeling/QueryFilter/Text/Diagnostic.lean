import QueryFilter.Text.Printable

/-!
# Texts in messages

A message shows a text between double quotes, in such a way that the text can
be told apart from the message around it and from every other text.
-/

namespace QueryFilter.Text

/-- A code point in the notation with braces. -/
def braced (n : Nat) : List Char :=
  "\\u\x7b".toList ++ Nat.toDigits 16 n ++ "\x7d".toList

/-- A character as a message shows it. -/
def shown (c : Char) : List Char :=
  if c = '\x00' then "\\0".toList
  else if c = '\t' then "\\t".toList
  else if c = '\n' then "\\n".toList
  else if c = '\r' then "\\r".toList
  else if c = '\x22' || c = '\\' then ['\\', c]
  else if isPrintable c then [c]
  else braced c.toNat

/-- A text as a message shows it. -/
def diagnostic (s : List Char) : List Char :=
  "\"".toList ++ s.flatMap shown ++ "\"".toList

end QueryFilter.Text
