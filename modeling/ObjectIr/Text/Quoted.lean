import ObjectIr.Text.Invisible

/-!
# Quoted strings

`quoted` writes a string between double quotes. The quote and the backslash are escaped, five
controls have a letter or digit of their own (`named?`), and an invisible character is written as
its code point in hexadecimal.
-/

namespace ObjectIr.Text

/-- The character that follows the backslash, for characters with an escape of their own. -/
def named? : Char → Option Char
  | '"' => some '"'
  | '\\' => some '\\'
  | '\n' => some 'n'
  | '\r' => some 'r'
  | '\t' => some 't'
  | '\x00' => some '0'
  | _ => none

/-- Lower-case hexadecimal digits, without leading zeros. -/
def hexadecimal (n : Nat) : List Char := Nat.toDigits 16 n

def escaped (c : Char) : List Char :=
  match named? c with
  | some d => ['\\', d]
  | none =>
    if isInvisible c then ['\\', 'u', '\x7b'] ++ hexadecimal c.toNat ++ ['\x7d'] else [c]

def quoted (s : String) : String :=
  String.ofList (['"'] ++ s.toList.flatMap escaped ++ ['"'])

end ObjectIr.Text
