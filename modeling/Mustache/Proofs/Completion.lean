import Mustache.Proofs.Overriding
import Mustache.Proofs.Shown

/-!
# Rendering That Comes to an End

Templates may lead to each other without end, so rendering is given a depth.
Here is a condition under which some depth is enough: every reference is
static, and names have ranks such that a stored template refers only to names
of lower rank than its own.

What is rendered is not always a stored template. A parent puts its own blocks
into the template it leads to, and they may refer to names of any rank, also to
the one they are put into. Neither the rank nor the size of what is rendered
goes down then. But a block is put in place as it is, and parents inside of it
do not take any other block along. So its segments come to an end on their own,
before it is known where they will be put. The rank carries the induction: for
segments that lead below a rank, rendering ends with any blocks put into them
that end by themselves.

## Main definitions

* `IsFinal`: An outcome that does not come from too little depth.
* `Settles`: A computation that comes to an end when it is given enough depth.
* `Segment.LeadsTo`: References are static and lead to certain names.
* `Store.IsRanked`: Stored templates lead to names of lower rank.
* `Segment.Ends`, `Block.EndAll`: Segments whose rendering comes to an end.
* `Store.EndsFor`: Stored templates come to an end with any blocks put into them.

## Theorems

* `Settles.bind`: One computation after another comes to an end if both do.
* `Segment.ends_overrideAll`: Segments end with blocks put into them if all end
  that they lead to.
* `Store.IsRanked.ends`: Segments end that lead below a rank.
* `Template.render_settles`: Rendering comes to an end without cycles.
-/

namespace Mustache

variable {σ ρ α β : Type}

/-- The outcome is a result or one of the given panics. -/
def IsFinal (panics : Panic → Prop) : Except Halt α → Prop
  | .ok _ => True
  | .error .tooDeep => False
  | .error (.panic panic) => panics panic

/-- Some lookup in a good state breaks off. -/
def Store.Panics (partials : Store ρ) (good : ρ → Prop) (panic : Panic) : Prop :=
  ∃ name store, good store ∧ (partials name store).1 = .error panic

/-- When it is given enough depth, the computation comes to an end with one and
    the same outcome, however much more depth there is. It makes no call, and
    the store is left in a good state. -/
def Settles (good : ρ → Prop) (panics : Panic → Prop) (run : Nat → Rendering σ ρ α) : Prop :=
  ∀ host store, good store → ∃ depth outcome store', IsFinal panics outcome ∧ good store' ∧
    ∀ deeper, depth ≤ deeper → run deeper (host, store) = (outcome, host, store')

namespace Settles

variable {good : ρ → Prop} {panics : Panic → Prop}

/-- A computation that does nothing is at its end. -/
theorem ofPure (result : α) : Settles good panics fun _ => (pure result : Rendering σ ρ α) :=
  fun _ store hgood => ⟨0, .ok result, store, trivial, hgood, fun _ _ => rfl⟩

/-- Enough depth for both computations is enough for one after the other. If the
    first one panics, the second one is not come to. -/
theorem bind {run : Nat → Rendering σ ρ α} {next : Nat → α → Rendering σ ρ β}
    (hrun : Settles good panics run)
    (hnext : ∀ result, Settles good panics fun depth => next depth result) :
    Settles good panics fun depth => run depth >>= next depth := by
  intro host store hgood
  rcases hrun host store hgood with ⟨depth, outcome, store', houtcome, hgood', hfirst⟩
  -- A panic of the first computation is the outcome of both.
  cases outcome with
  | error halted =>
      refine ⟨depth, .error halted, store', ?_, hgood', fun deeper hdeeper =>
        Rendering.bind_of_error (hfirst deeper hdeeper)⟩
      cases halted with
      | tooDeep => exact houtcome
      | panic panic => exact houtcome
  | ok result =>
      rcases hnext result host store' hgood' with
        ⟨depth', final, store'', hfinal, hgood'', hsecond⟩
      refine ⟨max depth depth', final, store'', hfinal, hgood'', fun deeper hdeeper => ?_⟩
      have hmid := hfirst deeper (Nat.le_trans (Nat.le_max_left _ _) hdeeper)
      have hlast := hsecond deeper (Nat.le_trans (Nat.le_max_right _ _) hdeeper)
      exact (Rendering.bind_of_ok hmid).trans hlast

theorem map {run : Nat → Rendering σ ρ α} (hrun : Settles good panics run) (f : α → β) :
    Settles good panics fun depth => run depth >>= fun result => pure (f result) :=
  hrun.bind fun result => .ofPure (f result)

/-- Here the next computation only has to end for an answer that the store
    gives. -/
theorem askStore {ask : StateM ρ (Except Panic α)} {next : Nat → α → Rendering σ ρ β}
    (hask : ∀ store, good store → good (ask store).2)
    (hpanics : ∀ store panic, good store → (ask store).1 = .error panic → panics panic)
    (hnext : ∀ store result, good store → (ask store).1 = .ok result →
      Settles good panics fun depth => next depth result) :
    Settles good panics fun depth => Rendering.ofStore ask >>= next depth := by
  intro host store hgood
  have hstore' := hask store hgood
  cases hanswer : (ask store).1 with
  | error panic =>
      refine ⟨0, .error (.panic panic), (ask store).2, hpanics store panic hgood hanswer, hstore',
        fun deeper _ => Rendering.bind_of_error ?_⟩
      rw [Rendering.ofStore_apply, hanswer]
      rfl
  | ok result =>
      rcases hnext store result hgood hanswer host (ask store).2 hstore' with
        ⟨depth, final, store', hfinal, hgood', hsecond⟩
      refine ⟨depth, final, store', hfinal, hgood', fun deeper hdeeper => ?_⟩
      refine (Rendering.bind_of_ok ?_).trans (hsecond deeper hdeeper)
      rw [Rendering.ofStore_apply, hanswer]
      rfl

/-- One level of templates more takes one more depth. -/
theorem deeper {run : Nat → Rendering σ ρ α}
    (hrun : Settles good panics fun depth => run (depth + 1)) : Settles good panics run := by
  intro host store hgood
  rcases hrun host store hgood with ⟨depth, outcome, store', houtcome, hgood', hsame⟩
  refine ⟨depth + 1, outcome, store', houtcome, hgood', fun deeper hdeeper => ?_⟩
  -- With that much depth there is a level of templates left.
  rcases Nat.exists_eq_add_one_of_ne_zero (by omega : deeper ≠ 0) with ⟨less, rfl⟩
  exact hsame less (Nat.le_of_succ_le_succ hdeeper)

/-- The items of a list come to an end one after the other. -/
theorem renderItems {render : Nat → Place σ → Rendering σ ρ String}
    (hrender : ∀ place : Place σ, place.scope.IsInert →
      Settles good panics fun depth => render depth place)
    (items : List (Node σ)) (hitems : ∀ item ∈ items, item.IsInert) (place : Place σ)
    (hplace : place.scope.IsInert) :
    Settles good panics fun depth => renderItems (render depth) place items := by
  induction items generalizing place with
  | nil => exact .ofPure ""
  | cons item items ih =>
      have hitem := hrender (place.enter item)
        (Scope.isInert_enter hplace (hitems item List.mem_cons_self))
      refine hitem.bind fun text => Settles.map (ih ?_ _ ?_) _
      · exact fun next hnext => hitems next (List.mem_cons_of_mem _ hnext)
      · -- The scope of the next item does not depend on what this one has shown.
        by_cases hempty : text.isEmpty = true
        · rwa [if_pos hempty]
        · rwa [if_neg hempty]

end Settles

/-- The environment of segments in which templates may lead to templates up to
    the given depth. -/
def Environment.within (partials : Store ρ) (depth : Nat) : Environment σ ρ :=
  ⟨partials, renderWithin partials depth⟩

/-- If the segment is a reference, it is static and leads to one of the names
    `known`. -/
def Segment.LeadsTo (known : String → Prop) : Segment → Prop
  | .reference r => r.isDynamic = false ∧ known r.name
  | .parent r _ => r.isDynamic = false ∧ known r.name
  | _ => True

/-- Rendering the segments comes to an end anywhere in inert data. -/
def Segment.Ends (σ : Type) (partials : Store ρ) (good : ρ → Prop) (segments : List Segment) :
    Prop :=
  ∀ place : Place σ, place.scope.IsInert →
    Settles good (partials.Panics good) fun depth =>
      renderSegments (.within partials depth) segments place

/-- Rendering the segments of any of the blocks comes to an end. -/
def Block.EndAll (σ : Type) (partials : Store ρ) (good : ρ → Prop) (blocks : List Block) : Prop :=
  ∀ block ∈ blocks, Segment.Ends σ partials good block.children

namespace Store

/-- The store gives out templates that refer only to names of lower rank than
    their own, and all references in them are static. That is so in good states,
    and the store stays in them. -/
structure IsRanked [WellFoundedRelation α] (partials : Store ρ) (good : ρ → Prop)
    (rank : String → α) : Prop where
  keeps : ∀ name store, good store → good (partials name store).2
  below : ∀ name store template, good store → (partials name store).1 = .ok (some template) →
    Segment.EverywhereAll
      (Segment.LeadsTo fun other => WellFoundedRelation.rel (rank other) (rank name))
      template.segments

/-- The store stays in good states, and the templates of the names `known` end
    with any blocks put into them that end by themselves. -/
structure EndsFor (σ : Type) (partials : Store ρ) (good : ρ → Prop) (known : String → Prop) :
    Prop where
  keeps : ∀ name store, good store → good (partials name store).2
  ends : ∀ name, known name → ∀ store template, good store →
    (partials name store).1 = .ok (some template) → ∀ blocks, Block.EndAll σ partials good blocks →
      Segment.Ends σ partials good (Segment.overrideAll blocks template.segments)

end Store

namespace Segment

variable {partials : Store ρ} {good : ρ → Prop} {known : String → Prop}

/-- A static reference comes to an end if the template that it leads to does. -/
theorem settles_renderReference (hkeeps : ∀ name store, good store → good (partials name store).2)
    {reference : Reference} {change : List Segment → List Segment} {place : Place σ}
    (hstatic : reference.isDynamic = false) (hplace : place.scope.IsInert)
    (hchange : ∀ store template, good store →
      (partials reference.name store).1 = .ok (some template) →
        Ends σ partials good (change template.segments)) :
    Settles good (partials.Panics good) fun depth =>
      renderReference (.within partials depth) reference change place := by
  simp only [renderReference, referenceName, hstatic, Bool.false_eq_true, if_false, pure_bind]
  refine Settles.askStore (hkeeps reference.name)
    (fun store panic hgood hpanic => ⟨reference.name, store, hgood, hpanic⟩)
    fun store answer hgood hanswer => ?_
  cases answer with
  | none => exact .ofPure ""
  | some template => exact Settles.deeper (hchange store template hgood hanswer _ hplace)

/-- A section comes to an end if its children do. -/
theorem settles_renderSection {head : SectionHead}
    {render : Nat → Place σ → Rendering σ ρ String}
    (hrender : ∀ place : Place σ, place.scope.IsInert →
      Settles good (partials.Panics good) fun depth => render depth place)
    {place : Place σ} (hplace : place.scope.IsInert) {data : Node σ} (hdata : data.IsInert) :
    Settles good (partials.Panics good) fun depth =>
      renderSection (.within partials depth) head (render depth) place data := by
  have hitems : ∀ items, data.items? = some items →
      Settles good (partials.Panics good) fun depth => renderItems (render depth) place items :=
    fun items hsome => Settles.renderItems hrender items (Node.isInert_of_items? hdata hsome)
      place hplace
  simp only [renderSection, Node.lambda?_of_isInert hdata]
  -- Inert data is no template to render, so only its items and its truth matter.
  by_cases hcheck : head.isIterationCheck = true
  · simp only [if_pos hcheck]
    cases hlist : data.items? with
    | none => exact .ofPure _
    | some items => exact (hitems items hlist).map some
  · simp only [if_neg hcheck]
    cases hlist : data.items? with
    | some items => exact (hitems items hlist).map some
    | none =>
        by_cases hfalsy : data.isFalsy = true
        · simp only [if_pos hfalsy]
          exact .ofPure _
        · simp only [if_neg hfalsy]
          exact (hrender _ (Scope.isInert_enter hplace hdata)).map some

-- The induction is on the segments, for any blocks. The parameters of a parent
-- are taken along as they are, so for them there is nothing to put in.
mutual

/-- A segment with blocks put into it comes to an end. -/
theorem settles_override (h : partials.EndsFor σ good known) :
    ∀ (segment : Segment) (blocks : List Block),
    segment.Everywhere (LeadsTo known) → Block.EndAll σ partials good blocks →
    ∀ place : Place σ, place.scope.IsInert →
      Settles good (partials.Panics good) fun depth =>
        renderSegment (.within partials depth) (override blocks segment) place
  | .text content, blocks, _, _, place, _ => by
      simp only [override, renderSegment]
      exact .ofPure _
  | .value name isEscaped, blocks, _, _, place, hplace => by
      simp only [override, renderSegment, renderValue_of_isInert _ name hplace, pure_bind]
      exact .ofPure _
  | .sect head children, blocks, hleads, hblocks, place, hplace => by
      rw [Everywhere] at hleads
      have hchildren := ends_overrideAll h children blocks hleads.2 hblocks
      simp only [override, renderSegment, Place.resolve_of_isInert hplace, pure_bind]
      cases hdata : place.scope.resolve? head.name with
      | none => exact .ofPure none
      | some data =>
          exact settles_renderSection hchildren hplace (Scope.isInert_of_resolve? hplace hdata)
  | .inverted name children, blocks, hleads, hblocks, place, hplace => by
      rw [Everywhere] at hleads
      have hchildren := ends_overrideAll h children blocks hleads.2 hblocks place hplace
      simp only [override, renderSegment, Place.resolve_of_isInert hplace, pure_bind]
      cases place.scope.resolve? name with
      | none => exact hchildren.map some
      | some data =>
          by_cases hfalsy : data.isFalsy = true
          · simp only [if_pos hfalsy]
            exact hchildren.map some
          · simp only [if_neg hfalsy]
            exact .ofPure none
  | .block (.mk name children), blocks, hleads, hblocks, place, hplace => by
      rw [Everywhere, Block.Everywhere] at hleads
      simp only [override]
      cases hother : Block.find? name blocks with
      | none =>
          simp only [renderSegment]
          exact (ends_overrideAll h children blocks hleads.2 hblocks place hplace).map some
      | some other =>
          -- The block is in place as it was given, and ends by itself.
          rcases other with ⟨name', body⟩
          have hbody := hblocks (.mk name' body) (List.mem_of_find?_eq_some hother) place hplace
          simp only [renderSegment]
          exact hbody.map some
  | .reference r, blocks, hleads, hblocks, place, hplace => by
      rw [Everywhere] at hleads
      simp only [override, renderSegment]
      refine Settles.map (settles_renderReference h.keeps hleads.1 hplace ?_) some
      intro store template hgood htemplate
      have hends := h.ends r.name hleads.2 store template hgood htemplate []
        fun block hblock => absurd hblock List.not_mem_nil
      rwa [overrideAll_nil] at hends
  | .parent r parameters, blocks, hleads, hblocks, place, hplace => by
      rw [Everywhere] at hleads
      have hparameters := endAll_parameters h parameters hleads.2
      simp only [override, renderSegment]
      refine Settles.map (settles_renderReference h.keeps hleads.1.1 hplace ?_) some
      intro store template hgood htemplate
      refine h.ends r.name hleads.1.2 store template hgood htemplate _ fun block hblock => ?_
      rcases List.mem_append.mp hblock with hown | hgiven
      · exact hparameters block (List.mem_filter.mp hown).1
      · exact hblocks block hgiven

/-- Segments end with blocks put into them that end by themselves, if all
    templates end that the segments lead to. -/
theorem ends_overrideAll (h : partials.EndsFor σ good known) :
    ∀ (segments : List Segment) (blocks : List Block),
    EverywhereAll (LeadsTo known) segments → Block.EndAll σ partials good blocks →
      Ends σ partials good (overrideAll blocks segments)
  | [], blocks, _, _ => by
      intro place _
      simp only [overrideAll, renderSegments]
      exact .ofPure ""
  | segment :: segments, blocks, hleads, hblocks => by
      intro place hplace
      rw [EverywhereAll] at hleads
      simp only [overrideAll, renderSegments]
      -- What the first segment has shown changes the place, not the scope.
      refine (settles_override h segment blocks hleads.1 hblocks place hplace).bind fun shown => ?_
      have hrest := ends_overrideAll h segments blocks hleads.2 hblocks
      cases shown with
      | none => exact hrest place hplace
      | some text => exact (hrest (place.after text) hplace).map (text ++ ·)

/-- The parameters of a parent come to an end by themselves. -/
theorem endAll_parameters (h : partials.EndsFor σ good known) : ∀ parameters : List Block,
    Block.EverywhereAll (LeadsTo known) parameters → Block.EndAll σ partials good parameters
  | [], _ => fun block hblock => absurd hblock List.not_mem_nil
  | .mk name children :: parameters, hleads => by
      rw [Block.EverywhereAll, Block.Everywhere] at hleads
      have hchildren := ends_overrideAll h children [] hleads.1
        fun block hblock => absurd hblock List.not_mem_nil
      rw [overrideAll_nil] at hchildren
      intro block hblock
      rcases List.mem_cons.mp hblock with rfl | hmem
      · exact hchildren
      · exact endAll_parameters h parameters hleads.2 block hmem

end

end Segment

section

variable [WellFoundedRelation α] {partials : Store ρ} {good : ρ → Prop} {rank : String → α}

/-- In a ranked store the template of any name ends with blocks put into it that
    end by themselves. The recursion is on the rank of the name. -/
theorem Store.IsRanked.ends (h : partials.IsRanked good rank) (name : String) (store : ρ)
    (template : Template) (hgood : good store)
    (htemplate : (partials name store).1 = .ok (some template))
    (blocks : List Block) (hblocks : Block.EndAll σ partials good blocks) :
    Segment.Ends σ partials good (Segment.overrideAll blocks template.segments) := by
  -- Names of lower rank end by recursion, and the template leads only to these.
  have hlower : partials.EndsFor σ good
      fun other => WellFoundedRelation.rel (rank other) (rank name) :=
    ⟨h.keeps, fun other _ => h.ends other⟩
  exact Segment.ends_overrideAll hlower template.segments blocks
    (h.below name store template hgood htemplate) hblocks
termination_by rank name
decreasing_by assumption

/-- When stored templates refer only to names of lower rank, and all references
    are static, rendering any template for inert data comes to an end. Some
    depth is enough, and beyond it more depth changes nothing. There is a text
    then, unless a lookup of the store panics. -/
theorem Template.render_settles (hstore : partials.IsRanked good rank) {template : Template}
    (htemplate : Segment.EverywhereAll (Segment.LeadsTo fun _ => True) template.segments)
    {data : Node σ} (hdata : data.IsInert) (host : Host σ) {store : ρ} (hgood : good store) :
    ∃ depth outcome store',
      (∀ deeper, depth ≤ deeper →
        template.render data partials deeper (host, store) = (outcome, host, store')) ∧
      ((∃ text, outcome = .ok text) ∨
        ∃ panic, outcome = .error (.panic panic) ∧
          ∃ name asked, good asked ∧ (partials name asked).1 = .error panic) := by
  have hends : Segment.Ends σ partials good template.segments := by
    -- All names have some rank, so the templates of all names end.
    have hall : partials.EndsFor σ good fun _ => True :=
      ⟨hstore.keeps, fun name _ => hstore.ends name⟩
    have hnone := Segment.ends_overrideAll hall
      template.segments [] htemplate fun block hblock => absurd hblock List.not_mem_nil
    rwa [Segment.overrideAll_nil] at hnone
  have hscope : (⟨data, []⟩ : Scope σ).IsInert := by
    intro frame hframe
    rwa [List.mem_singleton.mp hframe]
  have hsettles : Settles good (partials.Panics good) fun depth =>
      template.render data partials depth :=
    Settles.deeper (hends ⟨⟨data, []⟩, "", true⟩ hscope)
  rcases hsettles host store hgood with ⟨depth, outcome, store', hfinal, -, hsame⟩
  refine ⟨depth, outcome, store', hsame, ?_⟩
  rcases outcome with (_ | panic) | text
  · exact absurd hfinal id
  · exact Or.inr ⟨panic, rfl, hfinal⟩
  · exact Or.inl ⟨text, rfl⟩

/-- A page over two layouts. It leads to the lower one again, inside of a block
    that is put into it. -/
theorem Template.render_settles_of_layouts :
    ∃ depth text store', ∀ deeper, depth ≤ deeper →
      Template.render (σ := Unit)
        ⟨[.parent ⟨"upper", false, ""⟩ [.mk "a" [.parent ⟨"lower", false, ""⟩ []]]]⟩ (.json .null)
        (Store.ofFunction fun name =>
          if name = "lower" then some ⟨[.block (.mk "a" [])]⟩
          else some ⟨[.parent ⟨"lower", false, ""⟩ [.mk "b" [.reference ⟨"lower", false, ""⟩]]]⟩)
        deeper (⟨(), []⟩, ()) = (.ok text, ⟨(), []⟩, store') := by
  have hstore : Store.IsRanked
      (Store.ofFunction fun name =>
        if name = "lower" then some ⟨[.block (.mk "a" [])]⟩
        else some ⟨[.parent ⟨"lower", false, ""⟩ [.mk "b" [.reference ⟨"lower", false, ""⟩]]]⟩)
      (fun _ => True) fun name => if name = "lower" then 0 else 1 := by
    refine ⟨fun _ _ _ => trivial, fun name store template _ htemplate => ?_⟩
    have hanswer : (if name = "lower" then _ else _) = some template :=
      Except.ok.inj htemplate
    by_cases hlower : name = "lower"
    · rw [if_pos hlower, Option.some.injEq] at hanswer
      rw [← hanswer]
      simp only [Segment.EverywhereAll, Segment.Everywhere, Block.Everywhere, Segment.LeadsTo,
        and_self]
    · rw [if_neg hlower, Option.some.injEq] at hanswer
      have hrank : WellFoundedRelation.rel (if "lower" = "lower" then 0 else 1)
          (if name = "lower" then 0 else 1) := by
        rw [if_neg hlower]
        exact Nat.zero_lt_one
      rw [← hanswer]
      exact ⟨⟨⟨rfl, hrank⟩, ⟨⟨rfl, hrank⟩, trivial⟩, trivial⟩, trivial⟩
  have hdata : Node.IsInert (σ := Unit) (.json .null) := trivial
  have hleads : Segment.EverywhereAll (Segment.LeadsTo fun _ => True)
      [.parent ⟨"upper", false, ""⟩ [.mk "a" [.parent ⟨"lower", false, ""⟩ []]]] := by
    simp only [Segment.EverywhereAll, Segment.Everywhere, Block.EverywhereAll, Block.Everywhere,
      Segment.LeadsTo, and_self]
  have hsettles := @Template.render_settles Unit Unit Nat _ _ _ _ hstore
    ⟨[.parent ⟨"upper", false, ""⟩ [.mk "a" [.parent ⟨"lower", false, ""⟩ []]]]⟩ hleads _ hdata
    ⟨(), []⟩ () trivial
  rcases hsettles with
    ⟨depth, outcome, store', hsame, ⟨text, rfl⟩ | ⟨panic, -, name, asked, -, hpanic⟩⟩
  · exact ⟨depth, text, store', hsame⟩
  · exact absurd hpanic nofun

end

end Mustache
