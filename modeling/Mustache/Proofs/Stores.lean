import Mustache.Render

/-!
# Rendering with Another Store

All that rendering knows of a store are its answers. So two stores that give the
same answers to the same names make the same text, however different their
states are inside. Here is a relation between the states of two stores which
lookups keep. It is carried through a whole rendering, with every lookup that
references make on the way.

## Main definitions

* `Store.Simulates`: Related states give the same answers, and stay related.
* `Rendering.Agrees`: Two computations have the same outcome and leave related
  states.
* `Rendering.seen`: What is seen of a computation but for the store.

## Theorems

* `Rendering.Agrees.bind`: One computation after another agrees if both do.
* `agrees_renderSegment`, `agrees_renderSegments`: Rendering agrees if the
  rendering of other templates does.
* `Store.Simulates.agrees_render`: Rendering with two such stores agrees.
-/

namespace Mustache

open Text

variable {σ ρ ρ' α β : Type}

/-- In related states both stores give the same answer to any name, and they are
    related again afterwards. -/
def Store.Simulates (related : ρ → ρ' → Prop) (partials : Store ρ) (partials' : Store ρ') : Prop :=
  ∀ name store store', related store store' →
    (partials name store).1 = (partials' name store').1 ∧
    related (partials name store).2 (partials' name store').2

/-- From the same host and from related stores both computations come to the same
    outcome, be it a result or a halt, with the same host and related stores. -/
def Rendering.Agrees (related : ρ → ρ' → Prop) (run : Rendering σ ρ α) (run' : Rendering σ ρ' α) :
    Prop :=
  ∀ host store store', related store store' →
    ∃ outcome after next next', run (host, store) = (outcome, after, next) ∧
      run' (host, store') = (outcome, after, next') ∧ related next next'

/-- What is seen of a computation but for the store: its outcome, and the host
    afterwards. -/
def Rendering.seen (run : Rendering σ ρ α) (host : Host σ) (store : ρ) : Except Halt α × Host σ :=
  ((run (host, store)).1, (run (host, store)).2.1)

namespace Rendering.Agrees

variable {related : ρ → ρ' → Prop}

/-- Nothing that is seen tells which of the two stores there was. -/
theorem seen_eq {run : Rendering σ ρ α} {run' : Rendering σ ρ' α} (hrun : Agrees related run run')
    (host : Host σ) {store : ρ} {store' : ρ'} (h : related store store') :
    run.seen host store = run'.seen host store' := by
  rcases hrun host store store' h with ⟨outcome, after, _, _, hsame, hsame', -⟩
  rw [seen, seen, hsame, hsame']

/-- What shows a result without asking any store is the same with either one. -/
theorem ofPure (result : α) :
    Agrees related (pure result : Rendering σ ρ α) (pure result : Rendering σ ρ' α) :=
  fun host store store' h => ⟨.ok result, host, store, store', rfl, rfl, h⟩

/-- So is what halts at once. -/
theorem ofHalt (halted : Halt) :
    Agrees related (halt halted : Rendering σ ρ α) (halt halted : Rendering σ ρ' α) :=
  fun host store store' h => ⟨.error halted, host, store, store', rfl, rfl, h⟩

theorem ofCalling (run : Calling σ α) :
    Agrees related (Rendering.ofCalling run : Rendering σ ρ α)
      (Rendering.ofCalling run : Rendering σ ρ' α) :=
  fun host store store' h => ⟨.ok (run host).1, (run host).2, store, store', rfl, rfl, h⟩

/-- Here the two stores are asked, and this is the only place where they are. -/
theorem askStore {partials : Store ρ} {partials' : Store ρ'}
    (h : Store.Simulates related partials partials') (name : String) :
    Agrees related (Rendering.ofStore (partials name) : Rendering σ ρ _)
      (Rendering.ofStore (partials' name) : Rendering σ ρ' _) := by
  intro host store store' hrelated
  rcases h name store store' hrelated with ⟨hanswer, hafter⟩
  refine ⟨(partials name store).1.mapError .panic, host, _, _, rfl, ?_, hafter⟩
  rw [hanswer]
  rfl

/-- One computation after another agrees if both do, the second one for every
    result that the first one may have. -/
theorem bind {run : Rendering σ ρ α} {run' : Rendering σ ρ' α} {next : α → Rendering σ ρ β}
    {next' : α → Rendering σ ρ' β} (hrun : Agrees related run run')
    (hnext : ∀ result, Agrees related (next result) (next' result)) :
    Agrees related (run >>= next) (run' >>= next') := by
  intro host store store' h
  rcases hrun host store store' h with ⟨halted | result, after, mid, mid', hsame, hsame', hmid⟩
  · -- The first one halts on both sides, and the second one is not come to.
    exact ⟨.error halted, after, mid, mid', bind_of_error hsame, bind_of_error hsame', hmid⟩
  · rw [bind_of_ok hsame, bind_of_ok hsame']
    exact hnext result after mid mid' hmid

theorem map {run : Rendering σ ρ α} {run' : Rendering σ ρ' α} (hrun : Agrees related run run')
    (f : α → β) :
    Agrees related (run >>= fun result => pure (f result))
      (run' >>= fun result => pure (f result)) :=
  hrun.bind fun result => .ofPure (f result)

theorem renderItems {render : Place σ → Rendering σ ρ String}
    {render' : Place σ → Rendering σ ρ' String}
    (hrender : ∀ place, Agrees related (render place) (render' place)) (items : List (Node σ))
    (place : Place σ) :
    Agrees related (renderItems render place items) (renderItems render' place items) := by
  induction items generalizing place with
  | nil => exact .ofPure ""
  | cons item items ih => exact (hrender (place.enter item)).bind fun text => (ih _).map _

end Rendering.Agrees

section

variable {related : ρ → ρ' → Prop} {env : Environment σ ρ} {env' : Environment σ ρ'}

/-- The stores of two environments and their rendering of other templates
    agree. -/
structure Environment.Agrees (related : ρ → ρ' → Prop) (env : Environment σ ρ)
    (env' : Environment σ ρ') : Prop where
  partials : Store.Simulates related env.partials env'.partials
  inner : ∀ segments place,
    Rendering.Agrees related (env.renderInner segments place) (env'.renderInner segments place)

/-- A script is compiled without the store, so both sides have the same template
    or fail alike. -/
theorem agrees_renderScript (h : Environment.Agrees related env env')
    (template : Except Failure Template) (source : String) (place : Place σ) :
    Rendering.Agrees related (renderScript env template source place)
      (renderScript env' template source place) := by
  rcases template with ⟨error | panic⟩ | template
  · exact .ofPure _
  · exact .ofHalt _
  · exact h.inner template.segments place

/-- A value agrees, whether it is missing, a script, or anything else. -/
theorem agrees_renderValue (h : Environment.Agrees related env env') (name : String)
    (place : Place σ) :
    Rendering.Agrees related (renderValue env name place) (renderValue env' name place) := by
  refine Rendering.Agrees.bind (.ofCalling _) fun data? => ?_
  -- Both sides have found the same data, and go on alike from here.
  cases data? with
  | none => exact .ofPure _
  | some data =>
      refine Rendering.Agrees.bind (.ofCalling _) fun script? => ?_
      cases script? with
      | none => exact .ofPure _
      | some source => exact agrees_renderScript h _ source place

/-- A section agrees if its children do. -/
theorem agrees_renderSection (h : Environment.Agrees related env env') (head : SectionHead)
    {render : Place σ → Rendering σ ρ String}
    {render' : Place σ → Rendering σ ρ' String}
    (hrender : ∀ place, Rendering.Agrees related (render place) (render' place))
    (place : Place σ) (data : Node σ) :
    Rendering.Agrees related (renderSection env head render place data)
      (renderSection env' head render' place data) := by
  have hitems := Rendering.Agrees.renderItems hrender
  unfold renderSection
  -- Which way a section goes depends on its head and its data, never on the store.
  by_cases hcheck : head.isIterationCheck = true
  · rw [if_pos hcheck, if_pos hcheck]
    exact (hitems _ place).map some
  · rw [if_neg hcheck, if_neg hcheck]
    refine Rendering.Agrees.bind (.ofCalling _) fun script? => ?_
    cases script? with
    | some source => exact (agrees_renderScript h _ source place).map some
    | none =>
        cases data.items? with
        | some items => exact (hitems items place).map some
        | none =>
            by_cases hfalsy : data.isFalsy = true
            · simp only [if_pos hfalsy]
              exact .ofPure none
            · simp only [if_neg hfalsy]
              exact (hrender (place.enter data)).map some

/-- The name of a template comes from the scope or from the tag itself. -/
theorem agrees_referenceName (reference : Reference) (place : Place σ) :
    Rendering.Agrees related (referenceName reference place : Rendering σ ρ String)
      (referenceName reference place : Rendering σ ρ' String) := by
  unfold referenceName
  by_cases hdynamic : reference.isDynamic = true
  · rw [if_pos hdynamic, if_pos hdynamic]
    refine Rendering.Agrees.bind (.ofCalling _) fun data? => ?_
    cases data? with
    | none => exact .ofPure _
    | some data => exact .ofPure _
  · rw [if_neg hdynamic, if_neg hdynamic]
    exact .ofPure _

/-- A reference asks the store once, and then renders the template that both
    have given. -/
theorem agrees_renderReference (h : Environment.Agrees related env env') (reference : Reference)
    (change : List Segment → List Segment) (place : Place σ) :
    Rendering.Agrees related (renderReference env reference change place)
      (renderReference env' reference change place) := by
  refine (agrees_referenceName reference place).bind fun name => ?_
  -- The two stores answer alike from here on.
  refine (Rendering.Agrees.askStore h.partials name).bind fun template? => ?_
  cases template? with
  | none => exact .ofPure ""
  | some template => exact h.inner (change template.segments) (place.indented reference.indent)

-- The induction is on the segments. Both sides go the same way, since only the
-- results of the steps before decide on it.
mutual

/-- A segment agrees, one case for each kind of segment. -/
theorem agrees_renderSegment (h : Environment.Agrees related env env') :
    ∀ (segment : Segment) (place : Place σ),
      Rendering.Agrees related (renderSegment env segment place) (renderSegment env' segment place)
  | .text content, place => by
      rw [renderSegment, renderSegment]
      exact .ofPure _
  | .value name isEscaped, place => by
      rw [renderSegment, renderSegment]
      exact (agrees_renderValue h name place).map _
  | .sect head children, place => by
      rw [renderSegment, renderSegment]
      refine Rendering.Agrees.bind (.ofCalling _) fun data? => ?_
      cases data? with
      | none => exact .ofPure none
      | some data => exact agrees_renderSection h head (agrees_renderSegments h children) place data
  | .inverted name children, place => by
      have hchildren := agrees_renderSegments h children place
      rw [renderSegment, renderSegment]
      refine Rendering.Agrees.bind (.ofCalling _) fun data? => ?_
      cases data? with
      | none => exact hchildren.map some
      | some data =>
          by_cases hfalsy : data.isFalsy = true
          · simp only [if_pos hfalsy]
            exact hchildren.map some
          · simp only [if_neg hfalsy]
            exact .ofPure none
  | .block (.mk name children), place => by
      rw [renderSegment, renderSegment]
      exact (agrees_renderSegments h children place).map some
  | .reference r, place => by
      rw [renderSegment, renderSegment]
      exact (agrees_renderReference h r id place).map some
  | .parent r parameters, place => by
      rw [renderSegment, renderSegment]
      exact (agrees_renderReference h r (Segment.overrideAll parameters) place).map some

/-- Segments in a row agree: where the second one is shown depends on the text of
    the first one, which is the same on both sides. -/
theorem agrees_renderSegments (h : Environment.Agrees related env env') :
    ∀ (segments : List Segment) (place : Place σ),
      Rendering.Agrees related (renderSegments env segments place)
        (renderSegments env' segments place)
  | [], place => by
      rw [renderSegments, renderSegments]
      exact .ofPure ""
  | segment :: segments, place => by
      rw [renderSegments, renderSegments]
      refine (agrees_renderSegment h segment place).bind fun shown => ?_
      cases shown with
      | none => exact agrees_renderSegments h segments place
      | some text => exact (agrees_renderSegments h segments (place.after text)).map _

end

end

namespace Store.Simulates

variable {related : ρ → ρ' → Prop} {partials : Store ρ} {partials' : Store ρ'}

/-- Rendering up to a depth agrees, and it halts on both sides when the depth is
    used up. -/
theorem agrees_renderWithin (h : Simulates related partials partials') (depth : Nat)
    (segments : List Segment) (place : Place σ) :
    Rendering.Agrees related (renderWithin partials depth segments place)
      (renderWithin partials' depth segments place) := by
  -- The induction is on the depth, which is the same on both sides.
  induction depth generalizing segments place with
  | zero => exact .ofHalt .tooDeep
  | succ depth ih =>
      have henv : Environment.Agrees related
          (⟨partials, renderWithin partials depth⟩ : Environment σ ρ)
          ⟨partials', renderWithin partials' depth⟩ := ⟨h, ih⟩
      exact agrees_renderSegments henv segments place

/-- Rendering a template agrees for two stores that give the same answers. -/
theorem agrees_render (h : Simulates related partials partials') (template : Template)
    (data : Node σ) (depth : Nat) :
    Rendering.Agrees related (template.render data partials depth)
      (template.render data partials' depth) :=
  h.agrees_renderWithin depth template.segments ⟨⟨data, []⟩, "", true⟩

end Store.Simulates

end Mustache
