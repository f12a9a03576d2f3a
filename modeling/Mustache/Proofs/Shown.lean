import Mustache.Proofs.Everywhere
import Mustache.Proofs.Inert
import Mustache.Render

/-!
# Rendering Inert Data

The text of segments as a function. Rendering is a computation because data may
call into the host and references ask the store. Segments that hold no
reference, rendered for inert data, do neither: what they show depends on the
scope, the indent and the place in the line alone.

## Main definitions

* `Scope.entered?`: The data that a section shows its children for.
* `Segment.shown`, `Segment.shownAll`: The text of segments.

## Theorems

* `renderSegment_eq_shown`, `renderSegments_eq_shownAll`: Rendering makes no
  call and shows this text.
-/

namespace Mustache

open Text

variable {σ ρ : Type}

/-- The data for which a section shows its children one time each, or `none` if
    it is suppressed. -/
def Scope.entered? (scope : Scope σ) (head : SectionHead) : Option (List (Node σ)) :=
  (scope.resolve? head.name).bind fun data =>
    if head.isIterationCheck then some (data.items?.getD [])
    else
      match data.items? with
      | some items => some items
      | none => if data.isFalsy then none else some [data]

/-- The data that an inverted section is about is missing or falsy. -/
def Scope.lacks (scope : Scope σ) (name : String) : Bool :=
  match scope.resolve? name with
  | none => true
  | some data => data.isFalsy

/-- What a name in a value stands for. -/
def Scope.textOf (scope : Scope σ) (name : String) : String :=
  match scope.resolve? name with
  | none => ""
  | some data => data.value

/-- Whether the next text begins a line after some text that may be empty. -/
def beginsAfter (newLine : Bool) (text : String) : Bool :=
  if text.isEmpty then newLine else endsLine text

/-- The text of something for each item of a list. -/
def shownItems (shown : Node σ → Bool → String) (newLine : Bool) : List (Node σ) → String
  | [] => ""
  | item :: items =>
    shown item newLine ++ shownItems shown (beginsAfter newLine (shown item newLine)) items

mutual

/-- The text of a segment that is no reference, or `none` if it is
    suppressed. -/
def Segment.shown (scope : Scope σ) (indent : String) (newLine : Bool) : Segment → Option String
  | .text content => some (indentLines indent newLine content)
  | .value name isEscaped =>
    let text := indentFirst indent newLine (scope.textOf name)
    some (if isEscaped then escape text else text)
  | .sect head children =>
    (scope.entered? head).map fun items =>
      shownItems (fun item newLine => Segment.shownAll (scope.enter item) indent newLine children)
        newLine items
  | .inverted name children =>
    if scope.lacks name then some (Segment.shownAll scope indent newLine children) else none
  | .block (.mk _ children) => some (Segment.shownAll scope indent newLine children)
  | .reference _ => none
  | .parent _ _ => none

/-- The text of segments in a row. -/
def Segment.shownAll (scope : Scope σ) (indent : String) (newLine : Bool) : List Segment → String
  | [] => ""
  | segment :: segments =>
    match Segment.shown scope indent newLine segment with
    | none => Segment.shownAll scope indent newLine segments
    | some shown => shown ++ Segment.shownAll scope indent (endsLine shown) segments

end

/-- The segment refers to another template. -/
def Segment.isReference : Segment → Bool
  | .reference _ => true
  | .parent _ _ => true
  | _ => false

/-- Items that are shown without a call are shown one by one, each where the one
    before it has left the line. -/
theorem renderItems_eq_shownItems {render : Place σ → Rendering σ ρ String}
    {shown : Node σ → Bool → String} (place : Place σ) (items : List (Node σ))
    (h : ∀ item ∈ items, ∀ newLine,
      render { place with scope := place.scope.enter item, newLine := newLine } =
        pure (shown item newLine)) :
    renderItems render place items = pure (shownItems shown place.newLine items) := by
  -- An item that shows nothing leaves the place as it is, so the flag after it is the
  -- one before it.
  induction items generalizing place with
  | nil => rfl
  | cons item items ih =>
      have hitem : render (place.enter item) = pure (shown item place.newLine) :=
        h item List.mem_cons_self place.newLine
      -- The rest of the items is rendered at another place, in the same scope.
      have hplace : ∀ after : Place σ, after.scope = place.scope → after.indent = place.indent →
          renderItems render after items = pure (shownItems shown after.newLine items) := by
        rintro ⟨scope, indent, newLine⟩ rfl rfl
        exact ih ⟨place.scope, place.indent, newLine⟩ fun next hnext =>
          h next (List.mem_cons_of_mem _ hnext)
      rw [renderItems, hitem, pure_bind, shownItems, beginsAfter]
      by_cases hempty : (shown item place.newLine).isEmpty = true
      · rw [if_pos hempty, if_pos hempty, hplace place rfl rfl, pure_bind]
      · rw [if_neg hempty, if_neg hempty, hplace (place.after _) rfl rfl, pure_bind]
        rfl

section

variable (env : Environment σ ρ) {place : Place σ}

theorem Place.resolve_of_isInert (h : place.scope.IsInert) (name : String) (body : Option String) :
    (place.resolve name body : Rendering σ ρ (Option (Node σ))) =
      pure (place.scope.resolve? name) := by
  rw [resolve, Scope.resolve_of_isInert h]
  rfl

/-- A value is the text of its data. -/
theorem renderValue_of_isInert (name : String) (h : place.scope.IsInert) :
    renderValue env name place =
      pure (indentFirst place.indent place.newLine (place.scope.textOf name)) := by
  rw [renderValue, Place.resolve_of_isInert h, pure_bind, Scope.textOf]
  cases hdata : place.scope.resolve? name with
  | none => rfl
  | some data =>
      -- Inert data is no template, so its text is shown as it is.
      simp only [Node.lambda?_of_isInert (Scope.isInert_of_resolve? h hdata)]
      rfl

/-- A section asks whether inert data is a list before it asks whether it is
    falsy. -/
theorem renderSection_of_isIterationCheck_eq_false {head : SectionHead} {data : Node σ}
    (hmode : head.isIterationCheck = false) (hdata : data.IsInert)
    (render : Place σ → Rendering σ ρ String) :
    renderSection env head render place data =
      match data.items? with
      | some items => some <$> renderItems render place items
      | none => if data.isFalsy then pure none else some <$> render (place.enter data) := by
  simp only [renderSection, hmode, Node.lambda?_of_isInert hdata]
  cases data.items? with
  | some items => rfl
  | none => rfl

theorem renderSegment_inverted_of_isInert (h : place.scope.IsInert) (name : String)
    (children : List Segment) :
    renderSegment env (.inverted name children) place =
      if place.scope.lacks name then some <$> renderSegments env children place else pure none := by
  rw [renderSegment, Place.resolve_of_isInert h, pure_bind, Scope.lacks]
  cases place.scope.resolve? name with
  | none => rfl
  | some data => rfl

/-- A section shows its children for the data it enters. -/
theorem renderSection_of_isInert {head : SectionHead}
    {render : Place σ → Rendering σ ρ String} {shown : Node σ → Bool → String}
    (h : place.scope.IsInert)
    (hrender : ∀ item : Node σ, item.IsInert → ∀ newLine,
      render { place with scope := place.scope.enter item, newLine := newLine } =
        pure (shown item newLine)) :
    (do
      match ← place.resolve head.name (some head.body) with
      | none => return none
      | some data => renderSection env head render place data) =
      (pure ((place.scope.entered? head).map (shownItems shown place.newLine)) :
        Rendering σ ρ (Option String)) := by
  rw [Place.resolve_of_isInert h, pure_bind, Scope.entered?]
  cases hdata : place.scope.resolve? head.name with
  | none => rfl
  | some data =>
      have hinert := Scope.isInert_of_resolve? h hdata
      -- However the items are found, they are inert and shown one by one.
      have hitems : ∀ items : List (Node σ), (∀ item ∈ items, item.IsInert) →
          renderItems render place items = pure (shownItems shown place.newLine items) :=
        fun items hall => renderItems_eq_shownItems place items fun item hitem =>
          hrender item (hall item hitem)
      simp only [Option.bind_some]
      by_cases hcheck : head.isIterationCheck = true
      · rw [renderSection, if_pos hcheck, if_pos hcheck, Option.map_some]
        cases hlist : data.items? with
        | none => rfl
        | some items =>
            rw [Option.getD_some, hitems items (Node.isInert_of_items? hinert hlist)]
            rfl
      · simp only [if_neg hcheck, renderSection_of_isIterationCheck_eq_false env
          (Bool.eq_false_iff.mpr hcheck) hinert]
        cases hlist : data.items? with
        | some items =>
            simp only [hitems items (Node.isInert_of_items? hinert hlist)]
            rfl
        | none =>
            -- Data that is no list suppresses the section, or is entered once.
            by_cases hfalsy : data.isFalsy = true
            · simp only [if_pos hfalsy]
              rfl
            · have hsingle := hrender data hinert place.newLine
              simp only [if_neg hfalsy, Option.map_some, shownItems, String.append_empty]
              rw [show (place.enter data : Place σ) = { place with
                scope := place.scope.enter data, newLine := place.newLine } from rfl, hsingle]
              rfl

-- The induction is on the segments. The children of a section are rendered once
-- for each item, in a scope that is inert again.
mutual

/-- Segments that refer to no other template are shown without a call, a lookup,
    or a halt. -/
theorem renderSegment_eq_shown : ∀ (segment : Segment) (place : Place σ),
    segment.Everywhere (fun segment => segment.isReference = false) → place.scope.IsInert →
      renderSegment env segment place =
        pure (segment.shown place.scope place.indent place.newLine)
  | .text content, place, _, _ => by
      rw [renderSegment, Segment.shown]
  | .value name isEscaped, place, _, h => by
      rw [renderSegment, renderValue_of_isInert env name h, pure_bind, Segment.shown]
  | .sect head children, place, hsegments, h => by
      rw [Segment.Everywhere] at hsegments
      rw [renderSegment, Segment.shown]
      refine renderSection_of_isInert env h fun item hitem newLine => ?_
      exact renderSegments_eq_shownAll children _ hsegments.2 (Scope.isInert_enter h hitem)
  | .inverted name children, place, hsegments, h => by
      rw [Segment.Everywhere] at hsegments
      rw [renderSegment_inverted_of_isInert env h,
        renderSegments_eq_shownAll children place hsegments.2 h, Segment.shown]
      split
      · rfl
      · rfl
  | .block (.mk name children), place, hsegments, h => by
      rw [Segment.Everywhere, Block.Everywhere] at hsegments
      rw [renderSegment, renderSegments_eq_shownAll children place hsegments.2 h, pure_bind,
        Segment.shown]
  | .reference reference, place, hsegments, _ => by
      rw [Segment.Everywhere] at hsegments
      exact absurd hsegments Bool.noConfusion
  | .parent reference parameters, place, hsegments, _ => by
      rw [Segment.Everywhere] at hsegments
      exact absurd hsegments.1 Bool.noConfusion

/-- So are segments in a row. -/
theorem renderSegments_eq_shownAll : ∀ (segments : List Segment) (place : Place σ),
    Segment.EverywhereAll (fun segment => segment.isReference = false) segments →
      place.scope.IsInert →
      renderSegments env segments place =
        pure (Segment.shownAll place.scope place.indent place.newLine segments)
  | [], place, _, _ => by
      rw [renderSegments, Segment.shownAll]
  | segment :: segments, place, hsegments, h => by
      rw [Segment.EverywhereAll] at hsegments
      rw [renderSegments, renderSegment_eq_shown segment place hsegments.1 h, pure_bind,
        Segment.shownAll]
      -- Where the next segments stand depends on the text of this one.
      cases segment.shown place.scope place.indent place.newLine with
      | none => exact renderSegments_eq_shownAll segments place hsegments.2 h
      | some text =>
          simp only
          rw [renderSegments_eq_shownAll segments (place.after text) hsegments.2 h, pure_bind]
          rfl

end

end

end Mustache
