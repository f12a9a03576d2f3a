import Mustache.Data.Node
import Mustache.Text.Search

/-!
# Scopes

The data a name can refer to at some place of a template: the data entered
last, and around it the data entered before, out to the data of the whole
template.

A name may have several parts with points between them. The first part is
looked for from the inside out, and the others are members of what was found,
without another try further out. Only the last part is looked up on behalf of
the tag, so only there the body of a section is given.

## Main definitions

* `nameParts`: The parts of a name.
* `Scope`: The data entered, innermost first.
* `Scope.enter`: A scope inside another one.
* `Scope.resolve`: The data that a name refers to.
-/

namespace Mustache

/-- The parts of a name between its points: the first one and the others. -/
def nameParts (name : String) : String × List String :=
  let (first, others) := Text.fields '.' name.toList
  (String.ofList first, others.map String.ofList)

/-- The data that names can refer to. -/
structure Scope (σ : Type) where
  /-- The data entered last. -/
  current : Node σ
  /-- The data around it, from the inside out. -/
  outer : List (Node σ) := []

namespace Scope

variable {σ : Type}

/-- The scope inside which `data` was entered. -/
def enter (scope : Scope σ) (data : Node σ) : Scope σ :=
  ⟨data, scope.current :: scope.outer⟩

/-- All data entered, from the inside out. -/
def frames (scope : Scope σ) : List (Node σ) :=
  scope.current :: scope.outer

/-- The member with the given name of the first data that has one. Data after it
    is not asked. -/
def lookup (name : String) (body : Option String) : List (Node σ) → Calling σ (Option (Node σ))
  | [] => return none
  | data :: frames => do
    match ← data.member name body with
    | some found => return some found
    | none => lookup name body frames

/-- What is reached from `data` by going from member to member. -/
def descend (body : Option String) : List String → Node σ → Calling σ (Option (Node σ))
  | [], data => return some data
  | name :: names, data => do
    match ← data.member name (if names.isEmpty then body else none) with
    | some found => descend body names found
    | none => return none

/-- The data that a name refers to. A single point is the data entered last. -/
def resolve (scope : Scope σ) (name : String) (body : Option String) :
    Calling σ (Option (Node σ)) :=
  if name = "." then return some scope.current
  else do
    let (first, others) := nameParts name
    match ← lookup first (if others.isEmpty then body else none) scope.frames with
    | some found => descend body others found
    | none => return none

end Scope

end Mustache
