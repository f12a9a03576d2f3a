import Mustache.Proofs.Looks
import Mustache.Render

/-!
# Which Tags Are Visited

The order in which rendering comes to the tags, told without the text it makes.
There is a list of tasks, each of them segments to visit in a scope. The first
segment is taken off the list. If it is a tag with a question, it asks it, and
the answer tells what is visited inside of it: its own segments, once or for
each item of a list, the segments of a script that stands for the data, or the
segments of another template. These tasks come before all others. The way ends
where a text is to be compiled and that breaks off.

Nothing else of rendering reaches the host. So the calls of a whole rendering
are those of its looks, one after the other, and each look is disciplined. This
also holds of a rendering that panics or goes on without end, as far as it has
come.

## Main definitions

* `Task`: Segments to visit.
* `Segment.inside`: What is visited inside of a segment.
* `Visits`: From a list of tasks to what is left of it, with the looks on the
  way.
* `Leaves`: What the outcome of a rendering tells of the tasks that are left.
* `Follows`: A computation that visits tasks.
* `AsksFirst`: A computation that asks the question of a segment and then visits
  what is inside of it.

## Theorems

* `Visits.calls_eq`: All calls are made by looks.
* `asksFirst_renderSegment`, `visitsAll_renderSegments`: Rendering visits
  segments.
* `visitsAll_renderWithin`: Rendering to any depth does.
* `Template.disciplined_calls`: The calls of a rendering.
-/

namespace Mustache

open Text

variable {σ ρ α β : Type}

/-- Segments to visit, and the data entered around them. -/
structure Task (σ : Type) where
  segments : List Segment
  scope : Scope σ

namespace Segment

/-- The task of a script. There is none if the script is no template. -/
def scriptTasks (scope : Scope σ) : Except Failure Template → Except Panic (List (Task σ))
  | .ok template => .ok [⟨template.segments, scope⟩]
  | .error (.illFormed _) => .ok []
  | .error (.panic panic) => .error panic

/-- The tasks of a section whose name refers to the given data. -/
def sectionTasks (scope : Scope σ) (head : SectionHead) (children : List Segment) (data : Node σ)
    (script? : Option String) : Except Panic (List (Task σ)) :=
  if head.isIterationCheck then
    .ok ((data.items?.getD []).map fun item => ⟨children, scope.enter item⟩)
  else
    match script? with
    | some source => scriptTasks scope (sectionScript head source)
    | none =>
      match data.items? with
      | some items => .ok (items.map fun item => ⟨children, scope.enter item⟩)
      | none => .ok (if data.isFalsy then [] else [⟨children, scope.enter data⟩])

/-- The name of the template that a reference leads to. A dynamic one has asked
    for the data that holds it. -/
def leadingName (reference : Reference) (answer : Answer σ) : String :=
  if reference.isDynamic then (answer.map fun known => known.1.value).getD "" else reference.name

/-- The task of the template that a reference leads to. -/
def referenceTasks (partials : Store ρ) (scope : Scope σ) (reference : Reference)
    (change : List Segment → List Segment) (answer : Answer σ) :
    StateM ρ (Except Panic (List (Task σ))) := do
  match ← partials (leadingName reference answer) with
  | .ok none => return .ok []
  | .ok (some template) => return .ok [⟨change template.segments, scope⟩]
  | .error panic => return .error panic

/-- The tasks inside of a segment that has got its answer, unless a text is to be
    compiled there and that breaks off. -/
def inside (partials : Store ρ) (scope : Scope σ) (answer : Answer σ) :
    Segment → StateM ρ (Except Panic (List (Task σ)))
  | .text _ => return .ok []
  | .value _ _ =>
    match answer with
    | some (_, some source) => return scriptTasks scope (Template.compile source)
    | _ => return .ok []
  | .sect head children =>
    match answer with
    | some (data, script?) => return sectionTasks scope head children data script?
    | none => return .ok []
  | .inverted _ children =>
    match answer with
    | some (data, _) => return .ok (if data.isFalsy then [⟨children, scope⟩] else [])
    | none => return .ok [⟨children, scope⟩]
  | .block (.mk _ children) => return .ok [⟨children, scope⟩]
  | .reference r => referenceTasks partials scope r id answer
  | .parent r parameters => referenceTasks partials scope r (overrideAll parameters) answer

end Segment

/-- From a list of tasks to the tasks that are left, by visiting segments, with
    the looks of the tags on the way. The state is that of the host and of the
    store. Instead of tasks there may be a panic in the end. -/
inductive Visits (partials : Store ρ) : List (Task σ) → Host σ × ρ → List (Look σ) →
    Except Panic (List (Task σ)) → Host σ × ρ → Prop
  | rest (todo : List (Task σ)) (state : Host σ × ρ) :
      Visits partials todo state [] (.ok todo) state
  | done {scope : Scope σ} {todo : List (Task σ)} {left : Except Panic (List (Task σ))}
      {state state' : Host σ × ρ} {looks : List (Look σ)} :
      Visits partials todo state looks left state' →
      Visits partials (⟨[], scope⟩ :: todo) state looks left state'
  | next {segment : Segment} {segments : List Segment} {scope : Scope σ}
      {todo : List (Task σ)} {left : Except Panic (List (Task σ))} {host host' : Host σ}
      {store store' : ρ} {answer : Answer σ} {tasks : List (Task σ)} {looks : List (Look σ)}
      {state : Host σ × ρ} :
      segment.ask scope host = (answer, host') →
      segment.inside partials scope answer store = (.ok tasks, store') →
      Visits partials (tasks ++ ⟨segments, scope⟩ :: todo) (host', store') looks left state →
      Visits partials (⟨segment :: segments, scope⟩ :: todo) (host, store)
        (⟨segment, scope, host⟩ :: looks) left state
  | broken {segment : Segment} {segments : List Segment} {scope : Scope σ}
      {todo : List (Task σ)} {host host' : Host σ} {store store' : ρ} {answer : Answer σ}
      {panic : Panic} :
      segment.ask scope host = (answer, host') →
      segment.inside partials scope answer store = (.error panic, store') →
      Visits partials (⟨segment :: segments, scope⟩ :: todo) (host, store)
        [⟨segment, scope, host⟩] (.error panic) (host', store')

namespace Visits

variable {partials : Store ρ} {todo todo' : List (Task σ)}
  {left : Except Panic (List (Task σ))} {state state' state'' : Host σ × ρ}
  {looks looks' : List (Look σ)}

/-- A way that goes on from the tasks that another one has left. -/
theorem trans (h : Visits partials todo state looks (.ok todo') state')
    (h' : Visits partials todo' state' looks' left state'') :
    Visits partials todo state (looks ++ looks') left state'' := by
  -- The induction is on the first way, which must end with tasks.
  generalize hmid : (Except.ok todo' : Except Panic (List (Task σ))) = mid at h
  induction h with
  | rest todo state =>
      rw [Except.ok.inj hmid] at h'
      exact h'
  | done _ ih => exact .done (ih h' hmid)
  | next hask hinside _ ih => exact .next hask hinside (ih h' hmid)
  | broken _ _ => simp only [reduceCtorEq] at hmid

/-- Tasks that come later do not matter. -/
theorem append (h : Visits partials todo state looks left state') (more : List (Task σ)) :
    Visits partials (todo ++ more) state looks (left.map (· ++ more)) state' := by
  induction h with
  | rest todo state => exact .rest _ _
  | done _ ih => exact .done ih
  | next hask hinside _ ih =>
      refine .next hask hinside ?_
      rwa [List.append_assoc] at ih
  | broken hask hinside => exact .broken hask hinside

/-- All calls are made by looks, in their order. -/
theorem calls_eq (h : Visits partials todo state looks left state') :
    state'.1.calls = state.1.calls ++ looks.flatMap Look.calls := by
  induction h with
  | rest todo state => exact (List.append_nil _).symm
  | done _ ih => exact ih
  | @next segment _ scope _ _ host _ _ _ _ _ looks _ hask _ _ ih =>
      -- The look of this tag has made the calls up to its answer.
      have hcalls := Look.calls_after ⟨segment, scope, host⟩
      rw [Look.after, hask] at hcalls
      rw [ih, hcalls, List.flatMap_cons, List.append_assoc]
  | @broken segment _ scope _ host _ _ _ _ _ hask _ =>
      have hcalls := Look.calls_after ⟨segment, scope, host⟩
      rw [Look.after, hask] at hcalls
      rw [hcalls, List.flatMap_singleton]

end Visits

/-- What the outcome of a rendering tells of the tasks that are left: `rest`
    after a result, and a panic after a panic. -/
def Leaves (rest : List (Task σ)) : Except Halt α → Except Panic (List (Task σ)) → Prop
  | .ok _, left => left = .ok rest
  | .error .tooDeep, left => ∃ todo, left = .ok todo
  | .error (.panic panic), left => left = .error panic

/-- What is made of the result does not matter to what is left. -/
theorem Leaves.map {rest : List (Task σ)} {outcome : Except Halt α}
    {left : Except Panic (List (Task σ))} (h : Leaves rest outcome left) (f : α → β) :
    Leaves rest (outcome.map f) left := by
  rcases outcome with (_ | panic) | result
  · exact h
  · exact h
  · exact h

/-- Tasks that come later are left as well. -/
theorem Leaves.append {rest : List (Task σ)} {outcome : Except Halt α}
    {left : Except Panic (List (Task σ))} (h : Leaves rest outcome left) (more : List (Task σ)) :
    Leaves (rest ++ more) outcome (left.map (· ++ more)) := by
  rcases outcome with (_ | panic) | result
  · rcases h with ⟨todo, rfl⟩
    exact ⟨todo ++ more, rfl⟩
  · rw [show left = .error panic from h]
    rfl
  · rw [show left = .ok rest from h]
    rfl

theorem Leaves.of_error {rest rest' : List (Task σ)} {halted : Halt}
    {left : Except Panic (List (Task σ))}
    (h : Leaves rest (.error halted : Except Halt α) left) :
    Leaves rest' (.error halted : Except Halt β) left := by
  cases halted with
  | tooDeep => exact h
  | panic panic => exact h

/-- The outcome and the state are those of visiting all tasks that were found, or
    of the panic that was found instead. -/
def Goes (partials : Store ρ) (host : Host σ) :
    Except Panic (List (Task σ)) × ρ → Except Halt α × (Host σ × ρ) → Prop
  | (.ok todo, store), (outcome, state) =>
    ∃ looks left, Visits partials todo (host, store) looks left state ∧ Leaves [] outcome left
  | (.error panic, store), (outcome, state) =>
    outcome = .error (.panic panic) ∧ state = (host, store)

/-- Nor does it matter to what was visited. -/
theorem Goes.map {partials : Store ρ} {host : Host σ} {found : Except Panic (List (Task σ)) × ρ}
    {final : Except Halt α × (Host σ × ρ)} (h : Goes partials host found final) (f : α → β) :
    Goes partials host found (final.1.map f, final.2) := by
  rcases found with ⟨panic | todo, store⟩
  · rcases h with ⟨houtcome, hstate⟩
    rw [houtcome, hstate]
    exact ⟨rfl, rfl⟩
  · rcases h with ⟨looks, left, hvisits, hleaves⟩
    exact ⟨looks, left, hvisits, hleaves.map f⟩

/-- The computation visits the tasks that the store gives for it. -/
def Follows (partials : Store ρ) (tasks : StateM ρ (Except Panic (List (Task σ))))
    (run : Rendering σ ρ α) : Prop :=
  ∀ host store, Goes partials host (tasks store) (run (host, store))

namespace Follows

variable {partials : Store ρ}

theorem ofPure (result : α) :
    Follows partials (pure (.ok []) : StateM ρ (Except Panic (List (Task σ)))) (pure result) :=
  fun host store => ⟨[], .ok [], .rest [] (host, store), rfl⟩

theorem ofPanic (panic : Panic) :
    Follows partials (pure (.error panic) : StateM ρ (Except Panic (List (Task σ))))
      (Rendering.halt (.panic panic) : Rendering σ ρ α) :=
  fun _ _ => ⟨rfl, rfl⟩

/-- If the first computation halts, the tasks of the second one are left as
    well. -/
theorem bind {todo todo' : List (Task σ)} {run : Rendering σ ρ α} {next : α → Rendering σ ρ β}
    (hrun : Follows partials (pure (.ok todo)) run)
    (hnext : ∀ result, Follows partials (pure (.ok todo')) (next result)) :
    Follows partials (pure (.ok (todo ++ todo'))) (run >>= next) := by
  intro host store
  rcases hrun host store with ⟨looks, left, hvisits, hleaves⟩
  have hmore := hvisits.append todo'
  have hrest := hleaves.append todo'
  rw [Rendering.bind_apply]
  -- If the first computation halts, the tasks of the second one are still left.
  rcases hsame : run (host, store) with ⟨halted | result, mid⟩
  · rw [hsame] at hmore hrest
    exact ⟨looks, _, hmore, hrest.of_error⟩
  · rw [hsame] at hmore hrest
    rw [show left.map (· ++ todo') = .ok todo' from hrest] at hmore
    rcases hnext result mid.1 mid.2 with ⟨looks', left', hvisits', hleaves'⟩
    exact ⟨looks ++ looks', left', hmore.trans hvisits', hleaves'⟩

/-- Making something of the result visits nothing more. -/
theorem map {tasks : StateM ρ (Except Panic (List (Task σ)))} {run : Rendering σ ρ α}
    (hrun : Follows partials tasks run) (f : α → β) :
    Follows partials tasks (run >>= fun result => pure (f result)) := by
  intro host store
  rw [Rendering.map_apply]
  exact (hrun host store).map f

/-- What the store answers decides what is visited. -/
theorem askStore {ask : StateM ρ (Except Panic α)}
    {tasks : Except Panic α → StateM ρ (Except Panic (List (Task σ)))}
    {next : α → Rendering σ ρ β} (h : ∀ result, Follows partials (tasks (.ok result)) (next result))
    (hpanic : ∀ panic, tasks (.error panic) = pure (.error panic)) :
    Follows partials (ask >>= tasks) (Rendering.ofStore ask >>= next) := by
  intro host store
  have htasks : (ask >>= tasks) store = tasks (ask store).1 (ask store).2 := rfl
  rw [htasks, Rendering.bind_apply, Rendering.ofStore_apply]
  -- The store may panic, and then nothing is visited at all.
  cases hanswer : (ask store).1 with
  | ok result => exact h result host (ask store).2
  | error panic =>
      rw [hpanic]
      exact ⟨rfl, rfl⟩

/-- The children are visited once for each item, in the order of the items. -/
theorem renderItems {children : List Segment} {render : Place σ → Rendering σ ρ String}
    (hrender : ∀ place : Place σ,
      Follows partials (pure (.ok [⟨children, place.scope⟩])) (render place))
    (items : List (Node σ)) (place : Place σ) :
    Follows partials (pure (.ok (items.map fun item => ⟨children, place.scope.enter item⟩)))
      (renderItems render place items) := by
  induction items generalizing place with
  | nil => exact .ofPure ""
  | cons item items ih =>
      refine (hrender (place.enter item)).bind fun text => ?_
      -- Whatever the item has shown, the others are visited in the same scope.
      have hscope : (if text.isEmpty then place else place.after text).scope = place.scope := by
        by_cases hempty : text.isEmpty = true
        · rw [if_pos hempty]
        · rw [if_neg hempty]
          rfl
      have hitems := ih (if text.isEmpty then place else place.after text)
      rw [hscope] at hitems
      exact hitems.map _

end Follows

/-- The computation asks the question of the segment and then visits what is
    inside of it. -/
def AsksFirst (partials : Store ρ) (segment : Segment) (scope : Scope σ) (run : Rendering σ ρ α) :
    Prop :=
  ∀ host store, Goes partials (segment.ask scope host).2
    (segment.inside partials scope (segment.ask scope host).1 store) (run (host, store))

namespace AsksFirst

variable {partials : Store ρ} {segment : Segment} {scope : Scope σ}

theorem ofAsk {question : Question} {rest : Answer σ → Rendering σ ρ α}
    (hasks : segment.question? = some question)
    (hrest : ∀ answer, Follows partials (segment.inside partials scope answer) (rest answer)) :
    AsksFirst partials segment scope (Rendering.ofCalling (question.ask scope) >>= rest) := by
  intro host store
  rw [Segment.ask, hasks]
  exact hrest (question.ask scope host).1 (question.ask scope host).2 store

/-- A segment without a question comes to what is inside at once. -/
theorem ofFollows {run : Rendering σ ρ α} (hasks : segment.question? = none)
    (hrun : Follows partials (segment.inside partials scope none) run) :
    AsksFirst partials segment scope run := by
  intro host store
  rw [Segment.ask, hasks]
  exact hrun host store

/-- Making something of the result asks nothing more. -/
theorem map {run : Rendering σ ρ α} (h : AsksFirst partials segment scope run) (f : α → β) :
    AsksFirst partials segment scope (run >>= fun result => pure (f result)) := by
  intro host store
  rw [Rendering.map_apply]
  exact (h host store).map f

/-- The segment is taken off the list, and what is inside of it is visited. -/
theorem visits {run : Rendering σ ρ α} (h : AsksFirst partials segment scope run) (host : Host σ)
    (store : ρ) (segments : List Segment) :
    ∃ looks left, Visits partials [⟨segment :: segments, scope⟩] (host, store) looks left
      (run (host, store)).2 ∧ Leaves [⟨segments, scope⟩] (run (host, store)).1 left := by
  have hgoes := h host store
  -- The tag may break off while it is asked what is inside of it.
  rcases hinside : segment.inside partials scope (segment.ask scope host).1 store with
    ⟨panic | todo, store'⟩
  · rw [hinside] at hgoes
    rcases hgoes with ⟨houtcome, hstate⟩
    rw [houtcome, hstate]
    exact ⟨_, _, .broken rfl hinside, rfl⟩
  · rw [hinside] at hgoes
    rcases hgoes with ⟨looks, left, hvisits, hleaves⟩
    exact ⟨_, _, .next rfl hinside (hvisits.append _), hleaves.append _⟩

end AsksFirst

/-- The text of a section that has got its answer. -/
def showSection (env : Environment σ ρ) (head : SectionHead)
    (render : Place σ → Rendering σ ρ String) (place : Place σ) (data : Node σ)
    (script? : Option String) : Rendering σ ρ (Option String) :=
  if head.isIterationCheck then
    renderItems render place (data.items?.getD []) >>= fun text => pure (some text)
  else
    match script? with
    | some source =>
      renderScript env (sectionScript head source) source place >>= fun text => pure (some text)
    | none =>
      match data.items? with
      | some items => renderItems render place items >>= fun text => pure (some text)
      | none =>
        if data.isFalsy then pure none
        else render (place.enter data) >>= fun text => pure (some text)

/-- Rendering segments in the environment visits them. -/
def Environment.VisitsAll (env : Environment σ ρ) (segments : List Segment)
    (render : Place σ → Rendering σ ρ String) : Prop :=
  ∀ place, Follows env.partials (pure (.ok [⟨segments, place.scope⟩])) (render place)

section

variable {env : Environment σ ρ}

/-- A script visits the segments of its template, or panics as its compilation
    does. -/
theorem follows_renderScript
    (hinner : ∀ segments, env.VisitsAll segments (env.renderInner segments))
    (template : Except Failure Template) (source : String) (place : Place σ) :
    Follows env.partials (pure (Segment.scriptTasks place.scope template))
      (renderScript env template source place) := by
  rcases template with ⟨error | panic⟩ | template
  · exact .ofPure _
  · exact .ofPanic panic
  · exact hinner template.segments place

/-- A value asks for the data of its name, and visits the script that may stand
    for it. -/
theorem asksFirst_value
    (hinner : ∀ segments, env.VisitsAll segments (env.renderInner segments)) (name : String)
    (isEscaped : Bool) (place : Place σ) :
    AsksFirst env.partials (.value name isEscaped) place.scope (renderValue env name place) := by
  have hask : renderValue env name place =
      Rendering.ofCalling (Question.ask ⟨name, none, true⟩ place.scope) >>= fun answer =>
        match answer with
        | none => pure (indentFirst place.indent place.newLine "")
        | some (_, some source) => renderScript env (Template.compile source) source place
        | some (data, none) => pure (indentFirst place.indent place.newLine data.value) := by
    simp only [renderValue, Question.ask, Rendering.ofCalling_bind, bind_assoc]
    refine bind_congr fun data? => ?_
    cases data? with
    | none => rfl
    | some data =>
        simp only [if_true, Rendering.ofCalling_bind, bind_assoc]
        refine bind_congr fun script? => ?_
        cases script? with
        | none => rfl
        | some source => rfl
  rw [hask]
  refine .ofAsk rfl fun answer => ?_
  -- Only a script has something inside.
  rcases answer with _ | ⟨data, _ | source⟩
  · exact .ofPure _
  · exact .ofPure _
  · exact follows_renderScript hinner _ source place

/-- A section first asks its question. -/
theorem renderSection_eq_ask (head : SectionHead) (children : List Segment) (place : Place σ) :
    renderSegment env (.sect head children) place =
      Rendering.ofCalling
          (Question.ask ⟨head.name, some head.body, !head.isIterationCheck⟩ place.scope) >>=
        fun answer =>
          match answer with
          | none => pure none
          | some (data, script?) =>
            showSection env head (renderSegments env children) place data script? := by
  simp only [renderSegment, Question.ask, Rendering.ofCalling_bind, bind_assoc]
  refine bind_congr fun data? => ?_
  cases data? with
  | none => rfl
  | some data =>
      by_cases hcheck : head.isIterationCheck = true
      · simp only [renderSection, showSection, hcheck, Bool.not_true, Bool.false_eq_true, if_false,
          if_true]
        rfl
      · simp only [renderSection, showSection, hcheck, Bool.not_false, Bool.false_eq_true, if_false,
          if_true, Rendering.ofCalling_bind, bind_assoc]
        refine bind_congr fun script? => ?_
        cases script? with
        | none => rfl
        | some source => rfl

/-- A section that has got its answer visits its children, or the script that
    stands for its data. -/
theorem follows_showSection
    (hinner : ∀ segments, env.VisitsAll segments (env.renderInner segments)) (head : SectionHead)
    {children : List Segment} (hchildren : env.VisitsAll children (renderSegments env children))
    (place : Place σ) (data : Node σ) (script? : Option String) :
    Follows env.partials (pure (Segment.sectionTasks place.scope head children data script?))
      (showSection env head (renderSegments env children) place data script?) := by
  have hitems := Follows.renderItems hchildren
  unfold Segment.sectionTasks showSection
  by_cases hcheck : head.isIterationCheck = true
  · rw [if_pos hcheck, if_pos hcheck]
    exact (hitems _ place).map some
  · rw [if_neg hcheck, if_neg hcheck]
    cases script? with
    | some source => exact (follows_renderScript hinner _ source place).map some
    | none =>
        cases hlist : data.items? with
        | some items => exact (hitems items place).map some
        | none =>
            by_cases hfalsy : data.isFalsy = true
            · simp only [if_pos hfalsy]
              exact .ofPure none
            · simp only [if_neg hfalsy]
              exact (hchildren (place.enter data)).map some

/-- A section asks for the data of its name, and then does what follows from it. -/
theorem asksFirst_sect
    (hinner : ∀ segments, env.VisitsAll segments (env.renderInner segments)) (head : SectionHead)
    {children : List Segment} (hchildren : env.VisitsAll children (renderSegments env children))
    (place : Place σ) :
    AsksFirst env.partials (.sect head children) place.scope
      (renderSegment env (.sect head children) place) := by
  rw [renderSection_eq_ask]
  refine .ofAsk rfl fun answer => ?_
  rcases answer with _ | ⟨data, script?⟩
  · exact .ofPure none
  · exact follows_showSection hinner head hchildren place data script?

/-- An inverted section visits its children unless the data is there and truthy. -/
theorem asksFirst_inverted (name : String) {children : List Segment}
    (hchildren : env.VisitsAll children (renderSegments env children)) (place : Place σ) :
    AsksFirst env.partials (.inverted name children) place.scope
      (renderSegment env (.inverted name children) place) := by
  have hask : renderSegment env (.inverted name children) place =
      Rendering.ofCalling (Question.ask ⟨name, none, false⟩ place.scope) >>= fun answer =>
        match answer with
        | none => renderSegments env children place >>= fun text => pure (some text)
        | some (data, _) =>
          if data.isFalsy then renderSegments env children place >>= fun text => pure (some text)
          else pure none := by
    simp only [renderSegment, Question.ask, Rendering.ofCalling_bind, bind_assoc]
    refine bind_congr fun data? => ?_
    cases data? with
    | none => rfl
    | some data => rfl
  rw [hask]
  refine .ofAsk rfl fun answer => ?_
  rcases answer with _ | ⟨data, script?⟩
  · exact (hchildren place).map some
  · rw [Segment.inside]
    by_cases hfalsy : data.isFalsy = true
    · simp only [if_pos hfalsy]
      exact (hchildren place).map some
    · simp only [if_neg hfalsy]
      exact .ofPure none

/-- What is shown of the template with a name, after `change` was made to it. -/
def showNamed (env : Environment σ ρ) (change : List Segment → List Segment) (place : Place σ)
    (name : String) : Rendering σ ρ String := do
  match ← .ofStore (env.partials name) with
  | none => return ""
  | some template => env.renderInner (change template.segments) place

/-- A template that is looked up by its name is visited. -/
theorem follows_showNamed
    (hinner : ∀ segments, env.VisitsAll segments (env.renderInner segments))
    (reference : Reference) (change : List Segment → List Segment) (place : Place σ)
    (answer : Option (Node σ × Option String)) :
    Follows env.partials
      (Segment.referenceTasks env.partials place.scope reference change answer)
      (showNamed env change (place.indented reference.indent)
        (Segment.leadingName reference answer)) := by
  rw [Segment.referenceTasks]
  refine Follows.askStore (fun template? => ?_) fun panic => rfl
  cases template? with
  | none => exact .ofPure ""
  | some template => exact hinner (change template.segments) (place.indented reference.indent)

/-- A dynamic reference gets its name by a question, with no script to answer
    it. -/
theorem renderReference_eq_ask {reference : Reference} (hdynamic : reference.isDynamic = true)
    (change : List Segment → List Segment) (place : Place σ) :
    renderReference env reference change place =
      Rendering.ofCalling (Question.ask ⟨reference.name, none, false⟩ place.scope) >>=
        fun answer => showNamed env change (place.indented reference.indent)
          (Segment.leadingName reference answer) := by
  simp only [renderReference, referenceName, if_pos hdynamic, Question.ask,
    Rendering.ofCalling_bind, bind_assoc, Segment.leadingName]
  refine bind_congr fun data? => ?_
  cases data? with
  | none => rfl
  | some data => rfl

/-- A reference comes to the name of a template, by its question if it is
    dynamic, and then visits the template. -/
theorem asksFirst_reference
    (hinner : ∀ segments, env.VisitsAll segments (env.renderInner segments)) {segment : Segment}
    {reference : Reference} {change : List Segment → List Segment} {place : Place σ}
    (hasks : segment.question? =
      if reference.isDynamic then some ⟨reference.name, none, false⟩ else none)
    (hinside : ∀ answer, segment.inside env.partials place.scope answer =
      Segment.referenceTasks env.partials place.scope reference change answer) :
    AsksFirst env.partials segment place.scope (renderReference env reference change place) := by
  have hnamed := follows_showNamed hinner reference change place
  by_cases hdynamic : reference.isDynamic = true
  · rw [renderReference_eq_ask hdynamic]
    refine .ofAsk (hasks.trans (if_pos hdynamic)) fun answer => ?_
    rw [hinside]
    exact hnamed answer
  · have hstatic := hnamed none
    rw [← hinside, Segment.leadingName, if_neg hdynamic] at hstatic
    simp only [renderReference, referenceName, if_neg hdynamic, pure_bind]
    exact .ofFollows (hasks.trans (if_neg hdynamic)) hstatic

-- The induction is on the segments. What is inside of a segment is visited
-- before the segments after it.
mutual

/-- Rendering a segment asks its question and visits what is inside of it. -/
theorem asksFirst_renderSegment
    (hinner : ∀ segments, env.VisitsAll segments (env.renderInner segments)) :
    ∀ (segment : Segment) (place : Place σ),
      AsksFirst env.partials segment place.scope (renderSegment env segment place)
  | .text content, place => by
      rw [renderSegment]
      exact .ofFollows rfl (.ofPure _)
  | .value name isEscaped, place => by
      rw [renderSegment]
      exact (asksFirst_value hinner name isEscaped place).map _
  | .sect head children, place =>
      asksFirst_sect hinner head (visitsAll_renderSegments hinner children) place
  | .inverted name children, place =>
      asksFirst_inverted name (visitsAll_renderSegments hinner children) place
  | .block (.mk name children), place => by
      rw [renderSegment]
      exact .ofFollows rfl ((visitsAll_renderSegments hinner children place).map some)
  | .reference r, place => by
      rw [renderSegment]
      exact (asksFirst_reference hinner rfl fun _ => rfl).map some
  | .parent r parameters, place => by
      rw [renderSegment]
      exact (asksFirst_reference hinner rfl fun _ => rfl).map some

/-- Rendering segments visits them, if rendering the segments of other templates
    does. -/
theorem visitsAll_renderSegments
    (hinner : ∀ segments, env.VisitsAll segments (env.renderInner segments)) :
    ∀ segments : List Segment, env.VisitsAll segments (renderSegments env segments)
  | [] => by
      intro place host store
      rw [renderSegments]
      exact ⟨[], .ok [], .done (.rest [] (host, store)), rfl⟩
  | segment :: segments => by
      intro place host store
      rw [renderSegments, Rendering.bind_apply]
      rcases (asksFirst_renderSegment hinner segment place).visits host store segments with
        ⟨looks, left, hvisits, hleaves⟩
      rcases hsame : renderSegment env segment place (host, store) with ⟨halted | shown, mid⟩
      · rw [hsame] at hvisits hleaves
        exact ⟨looks, left, hvisits, hleaves.of_error⟩
      · rw [hsame] at hvisits hleaves
        have hrest : Follows env.partials (pure (.ok [⟨segments, place.scope⟩]))
            (match shown with
              | none => renderSegments env segments place
              | some text =>
                renderSegments env segments (place.after text) >>=
                  fun more => pure (text ++ more)) := by
          cases shown with
          | none => exact visitsAll_renderSegments hinner segments place
          | some text => exact (visitsAll_renderSegments hinner segments (place.after text)).map _
        rw [show left = .ok [⟨segments, place.scope⟩] from hleaves] at hvisits
        rcases hrest mid.1 mid.2 with ⟨looks', left', hvisits', hleaves'⟩
        exact ⟨looks ++ looks', left', hvisits.trans hvisits', hleaves'⟩

end

end

/-- Rendering to any depth visits the segments. -/
theorem visitsAll_renderWithin (partials : Store ρ) (depth : Nat) (segments : List Segment)
    (place : Place σ) :
    Follows partials (pure (.ok [⟨segments, place.scope⟩]))
      (renderWithin partials depth segments place) := by
  -- The induction is on the depth. At the end of it, everything is left to visit.
  induction depth generalizing segments place with
  | zero => exact fun host store => ⟨[], .ok _, .rest _ (host, store), _, rfl⟩
  | succ depth ih =>
      have hinner : ∀ segments, Environment.VisitsAll
          (⟨partials, renderWithin partials depth⟩ : Environment σ ρ) segments
          (renderWithin partials depth segments) := fun segments place => ih segments place
      exact visitsAll_renderSegments hinner segments place

/-- On the way through a template all calls are made by looks that are
    disciplined, wherever the way stops. Every rendering has gone such a way:
    there is nothing left to visit if it has come to a text, and it panics where
    the way does. -/
theorem Template.disciplined_calls (template : Template) (data : Node σ) (partials : Store ρ)
    (host : Host σ) (store : ρ) :
    (∀ looks left host' store',
      Visits partials [⟨template.segments, ⟨data, []⟩⟩] (host, store) looks left (host', store') →
        host'.calls = host.calls ++ looks.flatMap Look.calls ∧
        ∀ look ∈ looks, look.IsDisciplined) ∧
    ∀ depth outcome host' store',
      template.render data partials depth (host, store) = (outcome, host', store') →
        ∃ looks left, Visits partials [⟨template.segments, ⟨data, []⟩⟩] (host, store) looks left
          (host', store') ∧ Leaves [] outcome left := by
  constructor
  · intro looks left host' store' hvisits
    exact ⟨hvisits.calls_eq, fun look _ => look.isDisciplined⟩
  · intro depth outcome host' store' hrender
    have hvisits := visitsAll_renderWithin partials depth template.segments ⟨⟨data, []⟩, "", true⟩
      host store
    rw [render] at hrender
    rw [hrender] at hvisits
    exact hvisits

/-- A section whose name is a callable. It is called one time, with the body. -/
theorem Template.disciplined_calls_of_section :
    ∃ looks,
      Visits Store.empty
        [⟨[.sect ⟨"f", false, .standard, ⟨6, 7⟩, "x"⟩ [.text "x"]],
          ⟨.tree (.map [("f", .callable1 "f" fun _ count => (.bool true, count + 1))]), []⟩⟩]
        (⟨0, []⟩, ()) looks (.ok []) (⟨1, [⟨"f", some "x"⟩]⟩, ()) ∧
      looks.flatMap Look.calls = [⟨"f", some "x"⟩] ∧ ∀ look ∈ looks, look.IsDisciplined := by
  have hcalls := Template.disciplined_calls
    ⟨[.sect ⟨"f", false, .standard, ⟨6, 7⟩, "x"⟩ [.text "x"]]⟩
    (.tree (.map [("f", .callable1 "f" fun _ count => (.bool true, count + 1))])) Store.empty
    ⟨0, []⟩ ()
  rcases hcalls.2 1 (.ok "x") ⟨1, [⟨"f", some "x"⟩]⟩ () rfl with ⟨looks, left, hvisits, rfl⟩
  have hlog := hcalls.1 looks _ _ _ hvisits
  exact ⟨looks, hvisits, hlog.1.symm, hlog.2⟩

end Mustache
