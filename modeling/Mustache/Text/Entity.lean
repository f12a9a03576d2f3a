/-!
# Entities

Values are escaped for HTML by writing eight characters as entities. The
replacements are made one after the other over the whole text; the ampersand
comes first, so that the ampersands of the entities themselves stay.

## Main definitions

* `entities`: The characters that are escaped, in order, with their entities.
* `replaceChar`: A text with every occurrence of a character replaced.
* `escape`: A text with the eight characters escaped.
-/

namespace Mustache

namespace Text

/-- The characters that are written as entities, in the order of their
    replacement. -/
def entities : List (Char × String) :=
  [('&', "&amp;"), ('<', "&lt;"), ('>', "&gt;"), ('"', "&quot;"), ('\'', "&#39;"),
   ('/', "&#47;"), ('=', "&#61;"), ('`', "&#96;")]

/-- The text with `new` in place of every `old`. -/
def replaceChar (old : Char) (new : List Char) (text : List Char) : List Char :=
  text.flatMap fun c => if c = old then new else [c]

/-- The text with all replacements made, one after the other. -/
def escapeChars (text : List Char) : List Char :=
  entities.foldl (fun text entity => replaceChar entity.1 entity.2.toList text) text

/-- The text of a value as it is shown in HTML. -/
def escape (text : String) : String :=
  String.ofList (escapeChars text.toList)

end Text

end Mustache
