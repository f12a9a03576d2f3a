import Mustache.Render

/-!
# Pages

A template together with the store its partials come from, ready to be
rendered with data of any form.

## Main definitions

* `Page`: A template and a store.
* `Page.ofTemplate`, `Page.withPartials`: A page without and with partials.
* `Page.render`: The text of a page.
* `Page.renderConverted`: The text of a page for data that is converted to JSON
  first.
-/

namespace Mustache

/-- A template and the store of its partials. -/
structure Page (ρ : Type) where
  template : Template
  partials : Store ρ

namespace Page

variable {σ ρ : Type}

/-- The page of a template whose partials are all empty. -/
def ofTemplate (template : Template) : Page Unit :=
  ⟨template, .empty⟩

/-- The page with partials from another store. -/
def withPartials {ρ' : Type} (page : Page ρ) (partials : Store ρ') : Page ρ' :=
  ⟨page.template, partials⟩

/-- The page of a text. -/
def compile (source : String) : Except Failure (Page Unit) :=
  (Template.compile source).map ofTemplate

/-- The text of a page. -/
def render (page : Page ρ) (data : Node σ) : Rendering σ ρ String :=
  page.template.render data page.partials

/-- The text of a page for data that was converted to JSON, or for null when it
    could not be. -/
def renderConverted (page : Page ρ) (data : Option Json) : Rendering σ ρ String :=
  page.render (Node.ofConverted data)

end Page

end Mustache
