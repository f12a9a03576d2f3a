import Mustache.Text.Blank

/-!
# Quoted Text

A text between quotes, in which some characters are written as escapes. Two
forms are in use: the strings of JSON, and the quoted texts by which data is
inspected, where every character that cannot be seen is written as its code
point.

## Main definitions

* `hexDigits`: A number in base sixteen.
* `escapeJson`: A character inside a JSON string.
* `isUnseen`: A character leaves no visible mark of its own.
* `escapeInspected`: A character inside a text shown for inspection.
* `quoteJson`, `quoteInspected`: The two quoted forms.
-/

namespace Mustache

namespace Text

/-- A number in lower-case hexadecimal digits, at least `width` of them. -/
def hexDigits (width : Nat) (n : Nat) : List Char :=
  let digits := Nat.toDigits 16 n
  List.replicate (width - digits.length) '0' ++ digits

/-- A character inside a JSON string: quotes, backslashes and control
    characters are escaped, the common ones by a letter. -/
def escapeJson (c : Char) : List Char :=
  match c with
  | '"' => ['\\', '"']
  | '\\' => ['\\', '\\']
  | '\n' => ['\\', 'n']
  | '\r' => ['\\', 'r']
  | '\t' => ['\\', 't']
  | c =>
    if c.toNat = 0x08 then ['\\', 'b']
    else if c.toNat = 0x0C then ['\\', 'f']
    else if c.toNat < 0x20 then '\\' :: 'u' :: hexDigits 4 c.toNat
    else [c]

/-- The code points of characters that leave no mark of their own: controls,
    marks that combine with the character before them, formatting characters
    and private ones, as ranges with both ends included. -/
def unseenRanges : List (Nat × Nat) :=
  [(0x00, 0x1F), (0x7F, 0x9F), (0xAD, 0xAD), (0x0300, 0x036F), (0x0483, 0x0489),
   (0x0591, 0x05BD), (0x0600, 0x0605), (0x0610, 0x061A), (0x061C, 0x061C), (0x064B, 0x065F),
   (0x06DD, 0x06DD), (0x070F, 0x070F), (0x180E, 0x180E), (0x1AB0, 0x1ACE), (0x1DC0, 0x1DFF),
   (0x200B, 0x200F), (0x202A, 0x202E), (0x2060, 0x206F), (0x20D0, 0x20F0), (0x302A, 0x302F),
   (0x3099, 0x309A), (0xE000, 0xF8FF), (0xFE00, 0xFE0F), (0xFE20, 0xFE2F), (0xFEFF, 0xFEFF),
   (0xFFF0, 0xFFFB), (0xFFFE, 0xFFFF), (0xE0000, 0x10FFFF)]

/-- The character leaves no mark of its own. Blanks do not either, with the
    exception of the space. -/
def isUnseen (c : Char) : Bool :=
  (isBlank c && c != ' ') ||
    unseenRanges.any fun range => range.1 ≤ c.toNat && c.toNat ≤ range.2

/-- A character inside a text shown for inspection. -/
def escapeInspected (c : Char) : List Char :=
  match c with
  | '"' => ['\\', '"']
  | '\\' => ['\\', '\\']
  | '\n' => ['\\', 'n']
  | '\r' => ['\\', 'r']
  | '\t' => ['\\', 't']
  | c =>
    if c.toNat = 0 then ['\\', '0']
    else if isUnseen c then ['\\', 'u', '{'] ++ hexDigits 1 c.toNat ++ ['}']
    else [c]

/-- A text between quotes, each character written by `write`. -/
def quote (write : Char → List Char) (text : String) : String :=
  String.ofList ('"' :: (text.toList.flatMap write ++ ['"']))

/-- The JSON string of a text. -/
def quoteJson (text : String) : String :=
  quote escapeJson text

/-- A text as it is shown for inspection. -/
def quoteInspected (text : String) : String :=
  quote escapeInspected text

end Text

end Mustache
