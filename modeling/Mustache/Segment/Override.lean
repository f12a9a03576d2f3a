import Mustache.Segment

/-!
# Replacing Blocks

A parent shows another template with its own blocks in place of the blocks of
the same names. Blocks are replaced wherever they stand, with one exception: a
parent inside the template is not rewritten itself, but takes the blocks along
to where it leads, in front of its own blocks of the same names.

## Main definitions

* `Block.find?`: The block with a name.
* `Block.merge`: Blocks, with others that take precedence.
* `Segment.override`, `Segment.overrideAll`: Segments with blocks replaced.
-/

namespace Mustache

namespace Block

/-- The first block with the given name. -/
def find? (name : String) (blocks : List Block) : Option Block :=
  blocks.find? fun block => block.name == name

/-- The blocks `own` whose names do not occur in `blocks`, and then those. -/
def merge (own blocks : List Block) : List Block :=
  own.filter (fun block => (find? block.name blocks).isNone) ++ blocks

end Block

namespace Segment

mutual

/-- The segment with the given blocks in place of its own. -/
def override (blocks : List Block) : Segment → Segment
  | text content => text content
  | value name isEscaped => value name isEscaped
  | sect head children => sect head (overrideAll blocks children)
  | inverted name children => inverted name (overrideAll blocks children)
  | block (.mk name children) =>
    match Block.find? name blocks with
    | some other => block other
    | none => block (.mk name (overrideAll blocks children))
  | reference r => reference r
  | parent r parameters => parent r (Block.merge parameters blocks)

/-- The segments with the given blocks in place of their own. -/
def overrideAll (blocks : List Block) : List Segment → List Segment
  | [] => []
  | segment :: segments => override blocks segment :: overrideAll blocks segments

end

end Segment

end Mustache
