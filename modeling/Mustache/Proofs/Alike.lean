import Mustache.Proofs.Looks
import Mustache.Proofs.Shown

/-!
# Scopes That Look Alike

Rendering sees of the data what it asks for: what a name refers to, whether that
is falsy, its text and its items. So two scopes make the same text if every name
refers in one of them to something that looks like what it refers to in the
other. The two may differ in all else. Here one is the scope of data without
callables, and the other is related to it by any relation that lasts when data
is entered on both sides. What a name refers to on the other side is the image
of the data under a map, which keeps all that rendering asks for.

Names may be left out: the scopes need only be alike for the names that the
segments use. References lead to segments that are not known, so for these the
rendering of other templates must be alike as well.

## Main definitions

* `IsLikeness`: Related scopes look alike.
* `Segment.Asks`: The names that a segment looks up.
* `Environment.SeesAlike`: Other templates show the same in related scopes.
* `Segment.IsAlike`: A segment that shows the same in related scopes.

## Theorems

* `IsLikeness.renderSection_eq`: A section shows the same for data and its image.
* `IsLikeness.renderSegment_eq`, `IsLikeness.renderSegments_eq`: Segments show
  the same in related scopes.
-/

namespace Mustache

open Text

variable {σ ρ : Type}

/-- Related scopes look alike to tags with the names `known`: what a name refers
    to in the second scope is the image of what it refers to in the first one,
    and looks like it. The scopes are related also when such data is entered. -/
structure IsLikeness (image : Node σ → Node σ) (known : String → Prop)
    (related : Scope σ → Scope σ → Prop) : Prop where
  inert : ∀ {scope other}, related scope other → scope.IsInert
  resolve : ∀ {scope other}, related scope other → ∀ name, known name → ∀ body,
    other.resolve name body = pure ((scope.resolve? name).map image)
  enter : ∀ {scope other}, related scope other → ∀ {data : Node σ}, data.IsInert →
    related (scope.enter data) (other.enter (image data))
  isFalsy : ∀ data, (image data).isFalsy = data.isFalsy
  value : ∀ data, (image data).value = data.value
  items? : ∀ data, (image data).items? = data.items?.map (List.map image)
  lambda? : ∀ {data : Node σ}, data.IsInert → (image data).lambda? = pure none

/-- All names that the segment looks up are names `known`. -/
def Segment.Asks (known : String → Prop) (segment : Segment) : Prop :=
  ∀ question, segment.question? = some question → known question.name

/-- The segments of other templates show the same in related scopes. -/
def Environment.SeesAlike (related : Scope σ → Scope σ → Prop) (env : Environment σ ρ) : Prop :=
  ∀ segments place other, related place.scope other →
    env.renderInner segments { place with scope := other } = env.renderInner segments place

/-- The segment uses only names that are known, and if it refers to another
    template, other templates show the same in related scopes. -/
def Segment.IsAlike (known : String → Prop) (related : Scope σ → Scope σ → Prop)
    (env : Environment σ ρ) (segment : Segment) : Prop :=
  segment.Asks known ∧ (segment.isReference = true → env.SeesAlike related)

/-- Items are shown one by one, and each shows what its image shows. -/
theorem renderItems_map {image : Node σ → Node σ} {render render' : Place σ → Rendering σ ρ String}
    {other : Scope σ} (items : List (Node σ)) (place : Place σ)
    (h : ∀ item ∈ items, ∀ newLine,
      render' { place with scope := other.enter (image item), newLine := newLine } =
        render { place with scope := place.scope.enter item, newLine := newLine }) :
    renderItems render' { place with scope := other } (items.map image) =
      renderItems render place items := by
  induction items generalizing place with
  | nil => rfl
  | cons item items ih =>
      have hitem : render' (Place.enter { place with scope := other } (image item)) =
          render (place.enter item) := h item List.mem_cons_self place.newLine
      have hitems : ∀ newLine,
          renderItems render' { place with scope := other, newLine := newLine } (items.map image) =
            renderItems render { place with newLine := newLine } items := by
        intro newLine
        exact ih { place with newLine := newLine } fun next hnext newLine =>
          h next (List.mem_cons_of_mem _ hnext) newLine
      rw [List.map_cons, renderItems, renderItems, hitem]
      refine bind_congr fun text => ?_
      -- An item that shows nothing leaves the line as it is.
      by_cases hempty : text.isEmpty = true
      · rw [if_pos hempty, if_pos hempty]
        exact congrArg (· >>= _) (hitems place.newLine)
      · rw [if_neg hempty, if_neg hempty]
        exact congrArg (· >>= _) (hitems (endsLine text))

namespace IsLikeness

variable {image : Node σ → Node σ} {known : String → Prop} {related : Scope σ → Scope σ → Prop}
  {env : Environment σ ρ} {place : Place σ} {other : Scope σ}

section

variable (likeness : IsLikeness image known related)

include likeness

/-- A name refers in the other scope to the image of what it refers to. -/
theorem resolve_eq (h : related place.scope other) {name : String} (hname : known name)
    (body : Option String) :
    (Place.resolve { place with scope := other } name body : Rendering σ ρ _) =
      pure ((place.scope.resolve? name).map image) := by
  rw [Place.resolve, likeness.resolve h name hname body]
  rfl

/-- A value shows the text of the image, which is the text of the data. -/
theorem renderValue_eq (h : related place.scope other) {name : String} (hname : known name) :
    renderValue env name { place with scope := other } = renderValue env name place := by
  rw [renderValue_of_isInert env name (likeness.inert h), renderValue,
    likeness.resolve_eq h hname, pure_bind, Scope.textOf]
  cases hdata : place.scope.resolve? name with
  | none => rfl
  | some data =>
      have hinert := Scope.isInert_of_resolve? (likeness.inert h) hdata
      simp only [Option.map_some, likeness.lambda? hinert, likeness.value data]
      rfl

/-- A section shows the same for data and its image, if its children do in all
    scopes that are related. -/
theorem renderSection_eq (h : related place.scope other) (head : SectionHead)
    {render : Place σ → Rendering σ ρ String}
    (hrender : ∀ place other, related place.scope other →
      render { place with scope := other } = render place)
    {data : Node σ} (hdata : data.IsInert) :
    renderSection env head render { place with scope := other } (image data) =
      renderSection env head render place data := by
  -- Each item is entered on both sides, so the scopes stay related.
  have hlist : ∀ items : List (Node σ), (∀ item ∈ items, item.IsInert) →
      renderItems render { place with scope := other } (items.map image) =
        renderItems render place items := by
    intro items hitems
    refine renderItems_map items place fun item hitem newLine => ?_
    exact hrender { place with scope := place.scope.enter item, newLine := newLine } _
      (likeness.enter h (hitems item hitem))
  -- Neither the data nor its image is a template to render.
  have hnone : ∀ next : Option String → Rendering σ ρ (Option String),
      (Rendering.ofCalling (pure none) >>= next) = next none := fun _ => rfl
  rw [renderSection, renderSection, likeness.items? data, likeness.isFalsy data,
    likeness.lambda? hdata, Node.lambda?_of_isInert hdata, hnone, hnone]
  cases hitems : data.items? with
  | some items =>
      simp only [Option.map_some, Option.getD_some,
        hlist items (Node.isInert_of_items? hdata hitems)]
  | none =>
      have hchildren : render (Place.enter { place with scope := other } (image data)) =
          render (place.enter data) :=
        hrender (place.enter data) _ (likeness.enter h hdata)
      simp only [Option.map_none, hchildren]
      rfl

/-- A reference comes to the same name in both scopes. -/
theorem referenceName_eq (h : related place.scope other) {reference : Reference}
    (hname : reference.isDynamic = true → known reference.name) :
    (referenceName reference { place with scope := other } : Rendering σ ρ String) =
      referenceName reference place := by
  rw [referenceName, referenceName]
  by_cases hdynamic : reference.isDynamic = true
  · rw [if_pos hdynamic, if_pos hdynamic, likeness.resolve_eq h (hname hdynamic),
      Place.resolve_of_isInert (likeness.inert h), pure_bind, pure_bind]
    cases place.scope.resolve? reference.name with
    | none => rfl
    | some data =>
        simp only [Option.map_some, likeness.value data]
  · rw [if_neg hdynamic, if_neg hdynamic]

/-- And so to the same template, which shows the same. -/
theorem renderReference_eq (h : related place.scope other) {reference : Reference}
    (hname : reference.isDynamic = true → known reference.name) (henv : env.SeesAlike related)
    (change : List Segment → List Segment) :
    renderReference env reference change { place with scope := other } =
      renderReference env reference change place := by
  rw [renderReference, renderReference, likeness.referenceName_eq h hname]
  -- The name is the same, and so is the template that the store has for it.
  refine bind_congr fun name => bind_congr fun template? => ?_
  cases template? with
  | none => rfl
  | some template =>
      exact henv (change template.segments) (place.indented reference.indent) other h

end

theorem known_of_dynamic {reference : Reference} {segment : Segment}
    (hquestion : segment.question? =
      if reference.isDynamic then some ⟨reference.name, none, false⟩ else none)
    (hsegment : segment.Asks known) (hdynamic : reference.isDynamic = true) :
    known reference.name :=
  hsegment ⟨reference.name, none, false⟩ (hquestion.trans (if_pos hdynamic))

-- The induction is on the segments. Data that is entered is entered on both sides,
-- so the children are rendered in related scopes again.
mutual

/-- A segment shows the same in related scopes. -/
theorem renderSegment_eq (likeness : IsLikeness image known related) :
    ∀ (segment : Segment) (place : Place σ) (other : Scope σ),
      segment.Everywhere (Segment.IsAlike known related env) → related place.scope other →
        renderSegment env segment { place with scope := other } = renderSegment env segment place
  | .text content, place, other, _, _ => by
      rw [renderSegment, renderSegment]
  | .value name isEscaped, place, other, hsegment, h => by
      rw [Segment.Everywhere] at hsegment
      rw [renderSegment, renderSegment, likeness.renderValue_eq h (hsegment.1 _ rfl)]
  | .sect head children, place, other, hsegment, h => by
      rw [Segment.Everywhere] at hsegment
      rw [renderSegment, renderSegment, likeness.resolve_eq h (hsegment.1.1 _ rfl),
        Place.resolve_of_isInert (likeness.inert h), pure_bind, pure_bind]
      cases hdata : place.scope.resolve? head.name with
      | none => rfl
      | some data =>
          exact likeness.renderSection_eq h head
            (fun place other => renderSegments_eq likeness children place other hsegment.2)
            (Scope.isInert_of_resolve? (likeness.inert h) hdata)
  | .inverted name children, place, other, hsegment, h => by
      rw [Segment.Everywhere] at hsegment
      rw [renderSegment, renderSegment, likeness.resolve_eq h (hsegment.1.1 _ rfl),
        Place.resolve_of_isInert (likeness.inert h), pure_bind, pure_bind,
        renderSegments_eq likeness children place other hsegment.2 h]
      cases place.scope.resolve? name with
      | none => rfl
      | some data => simp only [Option.map_some, likeness.isFalsy data]
  | .block (.mk name children), place, other, hsegment, h => by
      rw [Segment.Everywhere, Block.Everywhere] at hsegment
      rw [renderSegment, renderSegment,
        renderSegments_eq likeness children place other hsegment.2 h]
  | .reference r, place, other, hsegment, h => by
      rw [Segment.Everywhere] at hsegment
      rw [renderSegment, renderSegment, likeness.renderReference_eq h
        (known_of_dynamic rfl hsegment.1) (hsegment.2 rfl)]
  | .parent r parameters, place, other, hsegment, h => by
      rw [Segment.Everywhere] at hsegment
      rw [renderSegment, renderSegment, likeness.renderReference_eq h
        (known_of_dynamic rfl hsegment.1.1) (hsegment.1.2 rfl)]

/-- Segments show the same in related scopes. -/
theorem renderSegments_eq (likeness : IsLikeness image known related) :
    ∀ (segments : List Segment) (place : Place σ) (other : Scope σ),
      Segment.EverywhereAll (Segment.IsAlike known related env) segments →
        related place.scope other →
        renderSegments env segments { place with scope := other } =
          renderSegments env segments place
  | [], place, other, _, _ => by
      rw [renderSegments, renderSegments]
  | segment :: segments, place, other, hsegments, h => by
      rw [Segment.EverywhereAll] at hsegments
      rw [renderSegments, renderSegments, renderSegment_eq likeness segment place other
        hsegments.1 h]
      refine bind_congr fun shown => ?_
      cases shown with
      | none => exact renderSegments_eq likeness segments place other hsegments.2 h
      | some text =>
          have hmore := renderSegments_eq likeness segments (place.after text) other hsegments.2 h
          exact congrArg (· >>= _) hmore

end

end IsLikeness

end Mustache
