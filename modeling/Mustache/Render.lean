import Mustache.Partials.Store
import Mustache.Scope
import Mustache.Segment.Override
import Mustache.Text.Entity
import Mustache.Text.Indent

/-!
# Rendering

The text of a template for given data. Segments are rendered one after the
other, and what was shown so far decides whether the next one begins a line.
A segment may also be suppressed, which is not the same as showing an empty
text: after a suppressed segment the line goes on as before.

Templates lead to other templates, by references to partials and by callables
whose text is a template. That can go on without end, so rendering is given a
depth to which templates may lead to templates, and halts beyond it. It also
halts when compiling a text breaks off, be it a script or a text that the store
reads. What the host and the store have come to by then is kept.

Within one template rendering follows the tree of segments. The two recursions
are kept apart: segments are rendered in an environment that says how the
segments of another template are rendered, and the depth is counted there.

## Main definitions

* `Halt`: Why a rendering has no text.
* `Rendering`: A computation that may call into the host and ask the store, and
  may halt.
* `Place`: Where segments are rendered.
* `Environment`: How other templates are found and rendered.
* `renderSegment`, `renderSegments`: The text of segments in an environment.
* `renderWithin`: The text of segments up to a depth.
* `Template.render`: The text of a template.
-/

namespace Mustache

open Text

/-- Why a rendering has no text. -/
inductive Halt
  /-- Templates are nested too deeply. -/
  | tooDeep
  /-- A text was to be compiled, and that broke off. -/
  | panic (panic : Panic)
deriving DecidableEq, Repr

/-- A computation on the state of the host and the state of the store. -/
abbrev Rendering (σ ρ : Type) := ExceptT Halt (StateM (Host σ × ρ))

namespace Rendering

variable {σ ρ α : Type}

/-- A computation that only calls into the host. -/
def ofCalling (run : Calling σ α) : Rendering σ ρ α := fun (host, store) =>
  let (result, host) := run host
  (.ok result, host, store)

/-- A computation that only asks the store. It halts when the lookup broke
    off. -/
def ofStore (ask : StateM ρ (Except Panic α)) : Rendering σ ρ α := fun (host, store) =>
  let (answer, store) := ask store
  (answer.mapError .panic, host, store)

/-- A computation that halts at once. -/
def halt (halt : Halt) : Rendering σ ρ α := fun state => (.error halt, state)

section

variable {β : Type} {run : Rendering σ ρ α} {next : α → Rendering σ ρ β}
  {state after : Host σ × ρ} {halted : Halt}

theorem bind_apply (run : Rendering σ ρ α) (next : α → Rendering σ ρ β) (state : Host σ × ρ) :
    (run >>= next) state =
      match run state with
      | (.ok result, after) => next result after
      | (.error halted, after) => (.error halted, after) := by
  rcases hrun : run state with ⟨_ | result, after⟩
  all_goals
    change ExceptT.bindCont next (run state).1 (run state).2 = _
    rw [hrun]
    rfl

theorem bind_of_error (h : run state = (.error halted, after)) :
    (run >>= next) state = (.error halted, after) := by
  rw [bind_apply, h]

theorem bind_of_ok {result : α} (h : run state = (.ok result, after)) :
    (run >>= next) state = next result after := by
  rw [bind_apply, h]

/-- Either the first computation halts, or the second one follows it. -/
theorem bind_cases {final : Except Halt β} (h : (run >>= next) state = (final, after)) :
    (∃ halted, run state = (.error halted, after) ∧ final = .error halted) ∨
      ∃ result mid, run state = (.ok result, mid) ∧ next result mid = (final, after) := by
  rw [bind_apply] at h
  rcases hrun : run state with ⟨halted | result, mid⟩
  · rw [hrun] at h
    rcases Prod.mk.inj h with ⟨hfinal, rfl⟩
    exact Or.inl ⟨halted, rfl, hfinal.symm⟩
  · rw [hrun] at h
    exact Or.inr ⟨result, mid, rfl, h⟩

theorem exists_of_bind {final : β} (h : (run >>= next) state = (.ok final, after)) :
    ∃ result mid, run state = (.ok result, mid) ∧ next result mid = (.ok final, after) := by
  rcases bind_cases h with ⟨halted, -, hfinal⟩ | hboth
  · simp only [reduceCtorEq] at hfinal
  · exact hboth

theorem map_apply (run : Rendering σ ρ α) (f : α → β) (state : Host σ × ρ) :
    (run >>= fun result => pure (f result)) state = ((run state).1.map f, (run state).2) := by
  rw [bind_apply]
  rcases run state with ⟨_ | result, after⟩
  · rfl
  · rfl

theorem exists_of_map {f : α → β} {final : β}
    (h : (run >>= fun result => pure (f result)) state = (.ok final, after)) :
    ∃ result, run state = (.ok result, after) ∧ f result = final := by
  rcases exists_of_bind h with ⟨result, mid, hrun, hfinal⟩
  rcases Prod.mk.inj hfinal with ⟨hresult, rfl⟩
  exact ⟨result, hrun, Except.ok.inj hresult⟩

theorem ofStore_apply (ask : StateM ρ (Except Panic α)) (host : Host σ) (store : ρ) :
    (ofStore ask : Rendering σ ρ α) (host, store) =
      ((ask store).1.mapError .panic, host, (ask store).2) := rfl

theorem ofCalling_bind (run : Calling σ α) (next : α → Calling σ β) :
    (ofCalling (run >>= next) : Rendering σ ρ β) =
      ofCalling run >>= fun result => ofCalling (next result) := rfl

end

end Rendering

/-- Where segments are rendered. -/
structure Place (σ : Type) where
  /-- The data that names refer to. -/
  scope : Scope σ
  /-- What goes before every line. -/
  indent : String := ""
  /-- The next text begins a line. -/
  newLine : Bool := true

/-- How other templates are found and rendered. -/
structure Environment (σ ρ : Type) where
  /-- The templates that references name. -/
  partials : Store ρ
  /-- The text of the segments of another template. -/
  renderInner : List Segment → Place σ → Rendering σ ρ String

namespace Place

variable {σ : Type}

/-- The place inside data that was entered. -/
def enter (place : Place σ) (data : Node σ) : Place σ :=
  { place with scope := place.scope.enter data }

/-- The place after some text. -/
def after (place : Place σ) (text : String) : Place σ :=
  { place with newLine := endsLine text }

/-- The place inside a template that a tag with the given indent refers to. -/
def indented (place : Place σ) (indent : String) : Place σ :=
  { place with indent := place.indent ++ indent }

/-- The data a name refers to at this place. -/
def resolve {ρ : Type} (place : Place σ) (name : String) (body : Option String) :
    Rendering σ ρ (Option (Node σ)) :=
  .ofCalling (place.scope.resolve name body)

end Place

variable {σ ρ : Type}

/-- The text of a script, which is a template. If it is ill-formed, it is shown
    as it is. If compiling it breaks off, nothing is shown at all. -/
def renderScript (env : Environment σ ρ) (template : Except Failure Template) (source : String)
    (place : Place σ) : Rendering σ ρ String :=
  match template with
  | .ok template => env.renderInner template.segments place
  | .error (.illFormed _) => return indentFirst place.indent place.newLine source
  | .error (.panic panic) => .halt (.panic panic)

/-- The text of a value before it is escaped. Missing data shows nothing but is
    indented all the same. -/
def renderValue (env : Environment σ ρ) (name : String) (place : Place σ) :
    Rendering σ ρ String := do
  match ← place.resolve name none with
  | none => return indentFirst place.indent place.newLine ""
  | some data =>
    match ← .ofCalling data.lambda? with
    | some source => renderScript env (Template.compile source) source place
    | none => return indentFirst place.indent place.newLine data.value

/-- The text of a delimiter tag that puts the given delimiters in force, on a
    line of its own. -/
def delimiterLine (d : Delimiters) : String :=
  "\x7b\x7b=" ++ String.ofList d.opening ++ " " ++ String.ofList d.closing ++ "=\x7d\x7d\n"

/-- The template of a script that was made for a section. It is read with the
    delimiters in force at the section, which a delimiter tag before the script
    sees to unless they are the standard ones. -/
def sectionScript (head : SectionHead) (source : String) : Except Failure Template :=
  if head.delimiters = .standard then Template.compile source
  else Template.compile (delimiterLine head.delimiters ++ source)

/-- The text of something for each item of a list. An item that shows nothing
    leaves the line as it is. -/
def renderItems (render : Place σ → Rendering σ ρ String) (place : Place σ) :
    List (Node σ) → Rendering σ ρ String
  | [] => return ""
  | item :: items => do
    let text ← render (place.enter item)
    let more ← renderItems render (if text.isEmpty then place else place.after text) items
    return text ++ more

/-- The text of a section whose name refers to `data`, or `none` if it is
    suppressed. The children are rendered by `render`. -/
def renderSection (env : Environment σ ρ) (head : SectionHead)
    (render : Place σ → Rendering σ ρ String) (place : Place σ) (data : Node σ) :
    Rendering σ ρ (Option String) := do
  if head.isIterationCheck then
    return some (← renderItems render place (data.items?.getD []))
  else
    match ← .ofCalling data.lambda? with
    | some source => return some (← renderScript env (sectionScript head source) source place)
    | none =>
      match data.items? with
      | some items => return some (← renderItems render place items)
      | none => if data.isFalsy then return none else return some (← render (place.enter data))

/-- The name of the template that a reference leads to. -/
def referenceName (reference : Reference) (place : Place σ) : Rendering σ ρ String := do
  if reference.isDynamic then
    match ← place.resolve reference.name none with
    | some data => return data.value
    | none => return ""
  else return reference.name

/-- The text of the template that a reference leads to, after `change` was made
    to its segments. A template that is missing shows nothing. -/
def renderReference (env : Environment σ ρ) (reference : Reference)
    (change : List Segment → List Segment) (place : Place σ) : Rendering σ ρ String := do
  let name ← referenceName reference place
  match ← .ofStore (env.partials name) with
  | none => return ""
  | some template => env.renderInner (change template.segments) (place.indented reference.indent)

mutual

/-- The text of a segment, or `none` if it is suppressed. -/
def renderSegment (env : Environment σ ρ) : Segment → Place σ → Rendering σ ρ (Option String)
  | .text content, place => return some (indentLines place.indent place.newLine content)
  | .value name isEscaped, place => do
    let text ← renderValue env name place
    return some (if isEscaped then escape text else text)
  | .sect head children, place => do
    match ← place.resolve head.name (some head.body) with
    | none => return none
    | some data =>
        renderSection env head (fun place => renderSegments env children place) place data
  | .inverted name children, place => do
    match ← place.resolve name none with
    | none => return some (← renderSegments env children place)
    | some data =>
      if data.isFalsy then return some (← renderSegments env children place) else return none
  | .block (.mk _ children), place => return some (← renderSegments env children place)
  | .reference reference, place => return some (← renderReference env reference id place)
  | .parent reference parameters, place =>
    return some (← renderReference env reference (Segment.overrideAll parameters) place)

/-- The text of segments in a row. -/
def renderSegments (env : Environment σ ρ) : List Segment → Place σ → Rendering σ ρ String
  | [], _ => return ""
  | segment :: segments, place => do
    match ← renderSegment env segment place with
    | none => renderSegments env segments place
    | some text => return text ++ (← renderSegments env segments (place.after text))

end

/-- The text of segments that lead to other templates up to the given depth. -/
def renderWithin (partials : Store ρ) : (depth : Nat) → List Segment → Place σ →
    Rendering σ ρ String
  | 0 => fun _ _ => .halt .tooDeep
  | depth + 1 => renderSegments { partials := partials, renderInner := renderWithin partials depth }

namespace Template

/-- The depth to which templates lead to templates unless another one is
    asked for. -/
def defaultDepth : Nat := 10000

/-- The text of a template for given data. -/
def render (template : Template) (data : Node σ) (partials : Store ρ)
    (depth : Nat := defaultDepth) : Rendering σ ρ String :=
  renderWithin partials depth template.segments { scope := { current := data } }

end Template

end Mustache
