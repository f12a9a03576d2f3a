import Mustache.Template

/-!
# Stores of Partials

Where the templates come from that other templates refer to by name. A store
answers a name with a template or with nothing. It may have a state, such as a
cache, that an answer changes. A lookup that compiles a text may also break
off, and so does whoever asked for it.

## Main definitions

* `Store`: A source of templates by name.
* `Store.ofFunction`: The store of a function.
* `Store.empty`: The store in which every template is empty.
* `Partials`: Compiled templates by name.
* `Partials.compile`: The templates of named texts.
-/

namespace Mustache

/-- A source of templates by name, with a state `ρ`, which is there also after a
    lookup that broke off. -/
abbrev Store (ρ : Type) := String → StateM ρ (Except Panic (Option Template))

namespace Store

/-- The store that answers as a function does. -/
def ofFunction (find : String → Option Template) : Store Unit :=
  fun name => return .ok (find name)

/-- The store in which every name stands for an empty template. -/
def empty : Store Unit :=
  ofFunction fun _ => some Template.empty

end Store

/-- Compiled templates by name. -/
structure Partials where
  entries : List (String × Template) := []

namespace Partials

/-- The template with a name. -/
def find? (partials : Partials) (name : String) : Option Template :=
  partials.entries.lookup name

/-- The templates with one more, which replaces a template of the same name. -/
def insert (partials : Partials) (name : String) (template : Template) : Partials :=
  ⟨(name, template) :: partials.entries.filter fun entry => entry.1 != name⟩

/-- The templates of named texts that are added to others in order. It fails at
    the first text that gives no template. -/
def extend (options : Options) (partials : Partials) :
    List (String × String) → Except Failure Partials
  | [] => .ok partials
  | (name, source) :: sources =>
    match Template.compile source options with
    | .error failure => .error failure
    | .ok template => extend options (partials.insert name template) sources

/-- The templates of named texts. Of texts with the same name the last one
    counts. -/
def compile (sources : List (String × String)) (options : Options := {}) :
    Except Failure Partials :=
  extend options {} sources

/-- The store that holds these templates and no others. -/
def store (partials : Partials) : Store Unit :=
  Store.ofFunction partials.find?

end Partials

end Mustache
