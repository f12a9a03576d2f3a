import Mustache.Delimiters

/-!
# Segments

What a template is made of once it is read: a tree whose leaves are texts,
values and references to other templates.

A reference in the form of a section is a *parent*: it stands for another
template in which it replaces blocks by its own. Of the segments inside a
parent only the blocks at the top matter, so nothing else is kept.

## Main definitions

* `Reference`: A tag that stands for another template.
* `Span`: A range of bytes.
* `SectionHead`: All that is known of a section but its children.
* `Segment`, `Block`: The tree.
* `Segment.blocks`: The blocks among segments.
-/

namespace Mustache

/-- How a template is compiled. -/
structure Options where
  /-- Sections render only for the items of a list that is not empty. -/
  iterationCheck : Bool := false
deriving DecidableEq, Repr

/-- A tag that stands for another template. -/
structure Reference where
  /-- The name of the template or, if the reference is dynamic, the name of the
      data that holds it. -/
  name : String
  isDynamic : Bool
  /-- The blanks before the tag on a standalone line, which go before every
      line of the template. -/
  indent : String
deriving DecidableEq, Repr

/-- The bytes from the offset `start` up to the offset `stop`. -/
structure Span where
  start : Nat
  stop : Nat
deriving DecidableEq, Repr

/-- A section without its children. -/
structure SectionHead where
  name : String
  /-- The section renders only for the items of a list that is not empty. -/
  isIterationCheck : Bool
  /-- The delimiters in force after the opening tag. -/
  delimiters : Delimiters
  /-- Where the body lies in the text of the template. -/
  span : Span
  /-- The text of the body, which is what a callable is given. -/
  body : String
deriving DecidableEq

mutual

/-- A part of a template. -/
inductive Segment
  /-- Text that is shown as it is. -/
  | text (content : String)
  /-- The text of a piece of data. -/
  | value (name : String) (isEscaped : Bool)
  /-- Segments for each item of a list, or for data that is not falsy. -/
  | sect (head : SectionHead) (children : List Segment)
  /-- Segments for missing or falsy data. -/
  | inverted (name : String) (children : List Segment)
  /-- Segments that a parent may replace. -/
  | block (block : Block)
  /-- Another template. -/
  | reference (reference : Reference)
  /-- Another template with some of its blocks replaced. -/
  | parent (reference : Reference) (parameters : List Block)

/-- Segments under a name by which a parent may replace them. -/
inductive Block
  | mk (name : String) (children : List Segment)

end

namespace Block

/-- The name of the block. -/
def name : Block → String
  | mk name _ => name

/-- The segments of the block. -/
def children : Block → List Segment
  | mk _ children => children

end Block

namespace Segment

/-- The blocks among segments, in order. -/
def blocks (segments : List Segment) : List Block :=
  segments.filterMap fun
    | block b => some b
    | _ => none

end Segment

end Mustache
