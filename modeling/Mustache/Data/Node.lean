import Mustache.Data.Yaml
import Mustache.Data.Tree

/-!
# Data of a Template

A template sees all data in the same way, whatever form it comes in: data may
be falsy, may have items, may have members, has a text, and may be the text of
a template to be rendered in its place.

A *script* is text that a callable made. It is the only data besides callables
that is rendered as a template.

## Main definitions

* `Node`: Data of any form.
* `Node.isFalsy`, `Node.items?`, `Node.value`: What can be said without calling
  into the host.
* `Node.member`: The member with a name.
* `Node.lambda?`: The text to be rendered in place of the data.
* `Node.ofResult`: The data that a callable made.
* `Node.ofConverted`: Data that had to be converted to JSON first.
-/

namespace Mustache

/-- Data of any form. -/
inductive Node (σ : Type)
  | json (data : Json)
  | yaml (data : Yaml)
  | tree (data : Tree σ)
  /-- Text that a callable made, which is rendered as a template. -/
  | script (text : String)

namespace Node

variable {σ : Type}

/-- The data counts as absent where a section asks for it. -/
def isFalsy : Node σ → Bool
  | json data => data.isFalsy
  | yaml data => data.isFalsy
  | tree data => data.isFalsy
  | script _ => false

/-- The items of a list. -/
def items? : Node σ → Option (List (Node σ))
  | json data => data.items?.map (·.map json)
  | yaml data => data.items?.map (·.map yaml)
  | tree data => data.items?.map (·.map tree)
  | script _ => none

/-- The text that stands for the data. -/
def value : Node σ → String
  | json data => data.value
  | yaml data => data.value
  | tree data => data.value
  | script text => text

/-- The data that a callable made. Text is a script, all else is plain data. -/
def ofResult : Tree σ → Node σ
  | .text s => script s
  | data => tree data

/-- The member of a host's map with the given name. A callable without argument
    is called, and one with an argument is called when there is a section body
    to give it. -/
def treeMember (name : String) (body : Option String) : Tree σ → Calling σ (Option (Node σ))
  | .map members =>
    match members.lookup name, body with
    | none, _ => return none
    | some (.callable0 label run), _ => return some (ofResult (← Calling.call ⟨label, none⟩ run))
    | some (.callable1 label run), some body =>
      return some (ofResult (← Calling.call ⟨label, some body⟩ (run body)))
    | some data, _ => return some (tree data)
  | _ => return none

/-- The member with the given name. The body is given when the member is looked
    up for a section. -/
def member (name : String) (body : Option String) : Node σ → Calling σ (Option (Node σ))
  | json data => return (data.member? name).map json
  | yaml data => return (data.member? name).map yaml
  | tree data => treeMember name body data
  | script _ => return none

/-- The text to be rendered in place of the data, if there is any. -/
def lambda? : Node σ → Calling σ (Option String)
  | tree data => data.lambda?
  | script text => return some text
  | _ => return none

/-- Data that had to be converted to JSON first. Where that is not possible
    there is no data, and null stands for it. -/
def ofConverted (data : Option Json) : Node σ :=
  json (data.getD .null)

end Node

end Mustache
