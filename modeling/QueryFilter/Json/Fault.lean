import QueryFilter.Decimal
import QueryFilter.Text.Diagnostic

/-!
# What can be wrong with a JSON text

A text is read from left to right, and the first problem met is the one
reported.  The text may be cut off, it may be malformed, or a value in it may
not fit the place where it stands.

A text is malformed where a character stands that may not stand there.  It is
malformed as well where it opens more brackets one inside another than are
read, although such a text may be JSON: how deep a text may go is a limit of
the reader, and going too deep is a problem of the text as a whole and of no
value in it.

Of a text that is cut off or malformed only this is kept.  At which line and
column the problem was met, and what was expected there, is left out.  A misfit
is kept with all that its message names.
-/

namespace QueryFilter.Json

/-- A value of another kind than the one wanted, as it was met. -/
inductive Met where
  | null
  | boolean (b : Bool)
  | integer (n : Int)
  | decimal (d : Decimal)
  | text (s : List Char)
  | sequence
  | map
deriving DecidableEq, Repr

/-- Why a value does not fit its place. -/
inductive Misfit where
  /-- The value is of another kind. -/
  | wrongKind (met : Met) (wanted : String)
  /-- The name is none of the known ones. -/
  | unknownChoice (given : List Char) (known : List String)
  /-- A second key names a field that was given before. -/
  | duplicateField (name : String)
  /-- No key names a field that must be given. -/
  | missingField (name : String)
  /-- The list form ends before a field that must be given. -/
  | tooShort (length : Nat) (title : String) (size : Nat)
deriving DecidableEq, Repr

/-- The first problem met in a text. -/
inductive Fault where
  /-- The text ends where more is needed. -/
  | cutOff
  /-- A character stands where it may not, or opens one bracket more than may be open at
  once.  In the second case the text may be JSON, nested too deep. -/
  | malformed
  /-- A value does not fit its place. -/
  | misfit (why : Misfit)
deriving DecidableEq, Repr

/-- A name between backticks. -/
def ticked (s : String) : String := "`" ++ s ++ "`"

/-- A value as a message names it. -/
def Met.describe : Met → String
  | null => "null"
  | boolean b => "boolean " ++ ticked (if b then "true" else "false")
  | integer n => "integer " ++ ticked (toString n)
  | decimal d => "floating point " ++ ticked (String.ofList d.text)
  | text s => "string " ++ String.ofList (Text.diagnostic s)
  | sequence => "sequence"
  | map => "map"

/-- Why a value does not fit, in words. -/
def Misfit.message : Misfit → String
  | wrongKind met wanted => "invalid type: " ++ met.describe ++ ", expected " ++ wanted
  | unknownChoice given known =>
      "unknown variant " ++ ticked (String.ofList given) ++ ", expected " ++
        " or ".intercalate (known.map ticked)
  | duplicateField name => "duplicate field " ++ ticked name
  | missingField name => "missing field " ++ ticked name
  | tooShort length title size =>
      "invalid length " ++ toString length ++ ", expected struct " ++ title ++ " with " ++
        toString size ++ " elements"

/-- A fault in words.  Of a text that is cut off or malformed no more than this is told. -/
def Fault.message : Fault → String
  | cutOff => "unexpected end of text"
  | malformed => "malformed text"
  | misfit why => why.message

end QueryFilter.Json
