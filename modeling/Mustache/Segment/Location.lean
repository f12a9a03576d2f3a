import Mustache.Template

/-!
# Locating Sections

Where the body of a section lies in the text of its template. A section is
named by a path: the names of the sections from the outermost one to it, with
points between them. Names may hold points themselves, so a path can be cut in
several ways; the first section in the order of the text that fits is meant.

## Main definitions

* `dropPrefix?`: What follows a given beginning of a text.
* `Segment.locate`, `Segment.locateAll`: The span of the section with a path.
* `Template.sectionSpan?`: The same for a whole template.
-/

namespace Mustache

/-- What follows `front` in a text that begins with it. -/
def dropPrefix? : (front text : List Char) → Option (List Char)
  | [], text => some text
  | _ :: _, [] => none
  | a :: front, c :: text => if a = c then dropPrefix? front text else none

/-- What is left of a path below the section with the given name. -/
def pathBelow? (name path : String) : Option String :=
  (dropPrefix? (name.toList ++ ['.']) path.toList).map String.ofList

namespace Segment

mutual

/-- The span of the section with the given path that is this segment or lies
    below it. -/
def locate (path : String) : Segment → Option Span
  | sect head children =>
    if head.name = path then some head.span
    else
      match pathBelow? head.name path with
      | some rest => locateAll rest children
      | none => none
  | _ => none

/-- The span of the first section with the given path. -/
def locateAll (path : String) : List Segment → Option Span
  | [] => none
  | segment :: segments =>
    match locate path segment with
    | some span => some span
    | none => locateAll path segments

end

end Segment

namespace Template

/-- The span of the body of the section with the given path. -/
def sectionSpan? (template : Template) (path : String) : Option Span :=
  Segment.locateAll path template.segments

end Template

end Mustache
