/-!
# Indentation

The template behind a reference on a standalone line is indented like that
line: the blanks before the tag go before every line of its text. Whether a
piece of text begins a line depends on what was shown before it, so that is a
parameter.

## Main definitions

* `indentLines`: Indents every line that begins in a text.
* `indentFirst`: Indents a text that may begin a line, but no further line.
* `endsLine`: What follows a text begins a line.
-/

namespace Mustache

namespace Text

/-- The lines of a text with `indent` before each. The first line counts when
    `newLine` says that it begins in the text, and nothing is put after a last
    line end. -/
def indentChars (indent : List Char) : (newLine : Bool) → List Char → List Char
  | _, [] => []
  | newLine, c :: text =>
    (if newLine then indent else []) ++ c :: indentChars indent (c == '\n') text

/-- The lines of a text, each after the indent. -/
def indentLines (indent : String) (newLine : Bool) (text : String) : String :=
  String.ofList (indentChars indent.toList newLine text.toList)

/-- The text of data is indented once where it begins a line; its own line ends
    do not begin lines of the template. -/
def indentFirst (indent : String) (newLine : Bool) (text : String) : String :=
  if newLine then indent ++ text else text

/-- The text ends with a line end. -/
def endsLine (text : String) : Bool :=
  text.toList.getLast? == some '\n'

end Text

end Mustache
