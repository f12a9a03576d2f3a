import Mustache.Segment
import Mustache.Text.Bytes

/-!
# Printing Segments

The text of a tree of segments in the standard delimiters. Where a segment
stands in the text decides the span of a section, so printing is told the byte
offset it starts at. A value that is not escaped can be written in two ways,
and a style picks one of them at each offset.

Not every tree can be printed and read again. A name may hold nothing that ends
a tag or is trimmed, and its first character may not be taken for a sigil. Two
texts in a row would be read as one. Nor may a text hold a brace, or begin or
end with a blank, since a line of tags and blanks is trimmed to the tags.

## Main definitions

* `Segment.print`, `Segment.printAll`: The text of segments.
* `Segment.placed`, `Segment.placedAll`: The same segments as reading that text
  makes them.
* `Segment.Printable`, `Segment.PrintableAll`: Segments that can be read again.
-/

namespace Mustache

open Text

/-- The tag with the given sigil and name. -/
def tagText (sigil : List Char) (name : String) : List Char :=
  ['{', '{'] ++ sigil ++ name.toList ++ ['}', '}']

/-- The mark of a dynamic reference. -/
def Reference.mark (reference : Reference) : List Char :=
  if reference.isDynamic then ['*'] else []

/-- The reference as it is read where nothing stands before it on a line. -/
def Reference.placed (reference : Reference) : Reference :=
  { reference with indent := "" }

mutual

/-- The text of a segment that starts at the byte offset `start`. -/
def Segment.print (style : Nat → Bool) (start : Nat) : Segment → List Char
  | .text content => content.toList
  | .value name true => tagText [] name
  | .value name false =>
    if style start then tagText ['{'] name ++ ['}'] else tagText ['&'] name
  | .sect head children =>
    tagText ['#'] head.name ++
      Segment.printAll style (start + byteLength (tagText ['#'] head.name)) children ++
      tagText ['/'] head.name
  | .inverted name children =>
    tagText ['^'] name ++
      Segment.printAll style (start + byteLength (tagText ['^'] name)) children ++
      tagText ['/'] name
  | .block block => Block.print style start block
  | .reference reference => tagText ('>' :: reference.mark) reference.name
  | .parent reference parameters =>
    tagText ('<' :: reference.mark) reference.name ++
      Block.printAll style
        (start + byteLength (tagText ('<' :: reference.mark) reference.name)) parameters ++
      tagText ['/'] reference.name

/-- The text of a block. -/
def Block.print (style : Nat → Bool) (start : Nat) : Block → List Char
  | .mk name children =>
    tagText ['$'] name ++
      Segment.printAll style (start + byteLength (tagText ['$'] name)) children ++
      tagText ['/'] name

/-- The text of segments in a row. -/
def Segment.printAll (style : Nat → Bool) (start : Nat) : List Segment → List Char
  | [] => []
  | segment :: segments =>
    Segment.print style start segment ++
      Segment.printAll style (start + byteLength (Segment.print style start segment)) segments

/-- The text of blocks in a row. -/
def Block.printAll (style : Nat → Bool) (start : Nat) : List Block → List Char
  | [] => []
  | block :: blocks =>
    Block.print style start block ++
      Block.printAll style (start + byteLength (Block.print style start block)) blocks

end

mutual

/-- The segment as it is read from its text at the byte offset `start`: a
    section has the span and the text of its children there, and no reference
    is indented. -/
def Segment.placed (options : Options) (style : Nat → Bool) (start : Nat) : Segment → Segment
  | .text content => .text content
  | .value name isEscaped => .value name isEscaped
  | .sect head children =>
    let inner := start + byteLength (tagText ['#'] head.name)
    let body := Segment.printAll style inner children
    .sect { name := head.name, isIterationCheck := options.iterationCheck,
            delimiters := .standard, span := ⟨inner, inner + byteLength body⟩,
            body := String.ofList body }
      (Segment.placedAll options style inner children)
  | .inverted name children =>
    .inverted name
      (Segment.placedAll options style (start + byteLength (tagText ['^'] name)) children)
  | .block block => .block (Block.placed options style start block)
  | .reference reference => .reference reference.placed
  | .parent reference parameters =>
    .parent reference.placed
      (Block.placedAll options style
        (start + byteLength (tagText ('<' :: reference.mark) reference.name)) parameters)

/-- The block as it is read from its text. -/
def Block.placed (options : Options) (style : Nat → Bool) (start : Nat) : Block → Block
  | .mk name children =>
    .mk name (Segment.placedAll options style (start + byteLength (tagText ['$'] name)) children)

/-- The segments as they are read from their text. -/
def Segment.placedAll (options : Options) (style : Nat → Bool) (start : Nat) :
    List Segment → List Segment
  | [] => []
  | segment :: segments =>
    Segment.placed options style start segment ::
      Segment.placedAll options style (start + byteLength (Segment.print style start segment))
        segments

/-- The blocks as they are read from their text. -/
def Block.placedAll (options : Options) (style : Nat → Bool) (start : Nat) :
    List Block → List Block
  | [] => []
  | block :: blocks =>
    Block.placed options style start block ::
      Block.placedAll options style (start + byteLength (Block.print style start block)) blocks

end

/-- A name that can stand between standard delimiters. -/
def IsName (name : String) : Prop :=
  name.toList ≠ [] ∧ ∀ c ∈ name.toList, isBlank c = false ∧ c ≠ '{' ∧ c ≠ '}'

instance (name : String) : Decidable (IsName name) :=
  @instDecidableAnd _ _ _ (List.decidableBAll _ _)

/-- A text that no trimming touches. -/
def IsPlainText (text : List Char) : Prop :=
  text ≠ [] ∧ (∀ c ∈ text, c ≠ '{' ∧ c ≠ '}') ∧
    (∀ c ∈ text.head?, isBlank c = false) ∧ ∀ c ∈ text.getLast?, isBlank c = false

instance (text : List Char) : Decidable (IsPlainText text) :=
  @instDecidableAnd _ _ _ (@instDecidableAnd _ _ (List.decidableBAll _ _)
    (@instDecidableAnd _ _ (Option.decidableForallMem _) (Option.decidableForallMem _)))

/-- The characters that a tag is not an escaped value after. -/
def sigils : List Char :=
  ['/', '!', '=', '#', '^', '$', '>', '*', '<', '{', '&']

/-- A name whose first character is not taken for a sigil. -/
def IsUnmarked (name : String) : Prop :=
  ∀ c ∈ name.toList.head?, c ∉ sigils

instance (name : String) : Decidable (IsUnmarked name) :=
  Option.decidableForallMem _

/-- A reference whose name is not taken for a dynamic one. -/
def Reference.Printable (reference : Reference) : Prop :=
  IsName reference.name ∧
    (reference.isDynamic = false → reference.name.toList.head? ≠ some '*')

instance (reference : Reference) : Decidable reference.Printable :=
  inferInstanceAs (Decidable (_ ∧ _))

/-- The segment is a text. -/
def Segment.isText : Segment → Bool
  | .text _ => true
  | _ => false

mutual

/-- The segment can be printed and read again. -/
def Segment.Printable : Segment → Prop
  | .text content => IsPlainText content.toList
  | .value name isEscaped =>
    IsName name ∧ (isEscaped = true → IsUnmarked name)
  | .sect head children => IsName head.name ∧ Segment.PrintableAll children
  | .inverted name children => IsName name ∧ Segment.PrintableAll children
  | .block block => Block.Printable block
  | .reference reference => reference.Printable
  | .parent reference parameters => reference.Printable ∧ Block.PrintableAll parameters

/-- The block can be printed and read again. -/
def Block.Printable : Block → Prop
  | .mk name children => IsName name ∧ Segment.PrintableAll children

/-- The segments can be printed and read again: each of them can, and no two
    texts stand next to each other. -/
def Segment.PrintableAll : List Segment → Prop
  | [] => True
  | segment :: segments =>
    Segment.Printable segment ∧
      (segment.isText = true → ∀ next ∈ segments.head?, next.isText = false) ∧
      Segment.PrintableAll segments

/-- The blocks can be printed and read again. -/
def Block.PrintableAll : List Block → Prop
  | [] => True
  | block :: blocks => Block.Printable block ∧ Block.PrintableAll blocks

end

end Mustache
