import Equational.Text.GraphemeExtend
import Equational.Text.Unprintable

/-!
# Quoted text

A quoted text stands between double quotes.  The quote, the backslash and four
control characters have short escapes; a character that would not be seen, or
that would join the one before it, is written by its code point; everything
else is written as it is.
-/

namespace Equational
namespace Text

/-- A code point in braces, in lowercase hexadecimal without padding. -/
def codePointEscape (c : Char) : List Char :=
  ['\\', 'u', '{'] ++ Nat.toDigits 16 c.toNat ++ ['}']

def quotedChar (c : Char) : List Char :=
  match c with
  | '"' => ['\\', '"']
  | '\\' => ['\\', '\\']
  | '\n' => ['\\', 'n']
  | '\r' => ['\\', 'r']
  | '\t' => ['\\', 't']
  | '\x00' => ['\\', '0']
  | _ =>
    if ' ' ≤ c ∧ c ≤ '~' then [c]
    else if isGraphemeExtend c || isUnprintable c then codePointEscape c
    else [c]

def quoted (s : String) : String :=
  String.ofList ('"' :: s.toList.flatMap quotedChar ++ ['"'])

end Text
end Equational
