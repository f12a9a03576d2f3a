import Mustache.Proofs.Inert
import Mustache.Segment

/-!
# What a Tag Asks of the Data

Looking at data built by the host makes calls. Here is said which calls a single
tag makes on its own behalf, whatever the data and whatever the callables do.

The first part of the name selects the innermost data that has such a member,
and every further part selects a member of what was found. Each part makes one
call at most, of the member that it selects: a callable without argument is
called, and one with an argument is called with the body of a section, which
only a section has and gives for the last part only. What the whole name leads
to may again be a callable without argument, namely one that a call has made or
that is an item of a list. Values and sections call it one time, to see whether
it makes a script.

## Main definitions

* `Question`, `Segment.question?`: What a tag wants to know.
* `Question.ask`, `Segment.ask`: The question is asked of a scope.
* `Look`: A segment that looks at the data.
* `Step`, `Fetches`, `Walk`: How a name is followed from data to data.
* `Resolves`: How a name is followed in a scope.
* `Look.IsDisciplined`: All calls of a look come from following its name.

## Theorems

* `Resolves.arguments`: A body is given at the last part of a name only.
* `Scope.resolves`: Looking up a name follows it.
* `Look.isDisciplined`: Every look is disciplined.
-/

namespace Mustache

variable {σ : Type}

/-- What a tag wants to know of the data. -/
structure Question where
  /-- The name to follow. -/
  name : String
  /-- The body to give to a callable. -/
  body : Option String
  /-- Whether the data is also asked for a script that stands for it. -/
  wantsScript : Bool

/-- What a tag came to know: the data its name refers to, if there is any, and
    the script that stands for the data, if there is one. -/
abbrev Answer (σ : Type) := Option (Node σ × Option String)

/-- The question of a segment. Texts, blocks and static references do not ask
    anything. -/
def Segment.question? : Segment → Option Question
  | .text _ => none
  | .value name _ => some ⟨name, none, true⟩
  | .sect head _ => some ⟨head.name, some head.body, !head.isIterationCheck⟩
  | .inverted name _ => some ⟨name, none, false⟩
  | .block _ => none
  | .reference r => if r.isDynamic then some ⟨r.name, none, false⟩ else none
  | .parent r _ => if r.isDynamic then some ⟨r.name, none, false⟩ else none

/-- The answer to a question in a scope. -/
def Question.ask (question : Question) (scope : Scope σ) : Calling σ (Answer σ) := do
  match ← scope.resolve question.name question.body with
  | none => return none
  | some data =>
    if question.wantsScript then return some (data, ← data.lambda?) else return some (data, none)

/-- The answer that a segment has for its question. It is empty if the segment
    asks nothing. -/
def Segment.ask (segment : Segment) (scope : Scope σ) : Calling σ (Answer σ) :=
  match segment.question? with
  | none => return none
  | some question => question.ask scope

/-- A segment that looks at the data. -/
structure Look (σ : Type) where
  segment : Segment
  scope : Scope σ
  /-- The host when the segment is reached. -/
  host : Host σ

namespace Look

/-- The host after the segment has its answer. -/
def after (look : Look σ) : Host σ :=
  (look.segment.ask look.scope look.host).2

/-- The calls made for the answer. -/
def calls (look : Look σ) : List Call :=
  look.after.calls.drop look.host.calls.length

end Look

/-- One part of a name is followed. -/
structure Step (σ : Type) where
  /-- The data whose member is looked up. -/
  holder : Node σ
  /-- The name of the member. -/
  part : String
  /-- The call that was made, if any. -/
  call? : Option Call
  /-- The data that is found. -/
  found : Node σ

/-- How a member is taken: as it is, or by a call if it is a callable. -/
inductive Fetches (body : Option String) : Node σ → Option Call → Node σ → Prop
  | plain (member : Node σ) : Fetches body member none member
  | callable0 (label : String) (run : σ → Tree σ × σ) (state : σ) :
      Fetches body (.tree (.callable0 label run)) (some ⟨label, none⟩) (.ofResult (run state).1)
  | callable1 (label : String) (run : String → σ → Tree σ × σ) (state : σ) (text : String) :
      body = some text →
      Fetches body (.tree (.callable1 label run)) (some ⟨label, some text⟩)
        (.ofResult (run text state).1)

/-- The parts of a name are followed from one piece of data, one step a part, to
    where they lead, or to the first part that is missing. The body is there for
    the last part only. -/
inductive Walk (body : Option String) :
    List String → Node σ → List (Step σ) → Option (Node σ) → Prop
  | arrived (data : Node σ) : Walk body [] data [] (some data)
  | missing {part : String} {parts : List String} {data : Node σ} :
      data.member? part = none → Walk body (part :: parts) data [] none
  | step {part : String} {parts : List String} {data member found : Node σ} {call? : Option Call}
      {steps : List (Step σ)} {result : Option (Node σ)} :
      data.member? part = some member →
      Fetches (if parts = [] then body else none) member call? found →
      Walk body parts found steps result →
      Walk body (part :: parts) data (⟨data, part, call?, found⟩ :: steps) result

/-- A name is followed in a scope: it is a point, or nobody has its first part,
    or it is followed from the first data that has it. -/
inductive Resolves (scope : Scope σ) (name : String) (body : Option String) :
    List (Step σ) → Option (Node σ) → Prop
  | point : name = "." → Resolves scope name body [] (some scope.current)
  | missing : name ≠ "." → (∀ frame ∈ scope.frames, frame.member? (nameParts name).1 = none) →
      Resolves scope name body [] none
  | walk {nearer farther : List (Node σ)} {frame member : Node σ} {steps : List (Step σ)}
      {result : Option (Node σ)} :
      name ≠ "." → scope.frames = nearer ++ frame :: farther →
      (∀ other ∈ nearer, other.member? (nameParts name).1 = none) →
      frame.member? (nameParts name).1 = some member →
      Walk body ((nameParts name).1 :: (nameParts name).2) frame steps result →
      Resolves scope name body steps result

/-- All calls of a look come from following its name, one at most for each part,
    except for one of what the name leads to. Only a section gives its body to a
    callable, and only at the last part of its name. -/
def Look.IsDisciplined (look : Look σ) : Prop :=
  match look.segment.question? with
  | none => look.calls = []
  | some question =>
    ∃ (steps : List (Step σ)) (result : Option (Node σ)) (further : Option Call),
      look.calls = steps.filterMap Step.call? ++ further.toList ∧
      Resolves look.scope question.name question.body steps result ∧
      steps.length ≤ (nameParts question.name).2.length + 1 ∧
      (∀ step ∈ steps, ∀ call, step.call? = some call → ∀ text, call.argument = some text →
        steps.getLast? = some step ∧
        steps.length = (nameParts question.name).2.length + 1 ∧
        ∃ head children, look.segment = .sect head children ∧ text = head.body) ∧
      ∀ call, further = some call → ∃ label run,
        result = some (.tree (.callable0 label run)) ∧ call = ⟨label, none⟩

namespace Fetches

/-- A call with an argument is given the body. -/
theorem argument_eq {body : Option String} {member found : Node σ} {call : Call} {text : String}
    (h : Fetches body member (some call) found) (htext : call.argument = some text) :
    body = some text := by
  cases h with
  | callable0 label run state => exact absurd htext (Option.some_ne_none text).symm
  | callable1 label run state given hbody => rwa [hbody]

end Fetches

namespace Walk

variable {body : Option String} {parts : List String} {data : Node σ} {steps : List (Step σ)}
  {result : Option (Node σ)}

theorem length_le (h : Walk body parts data steps result) : steps.length ≤ parts.length := by
  induction h with
  | arrived data => exact Nat.le_refl _
  | missing _ => exact Nat.zero_le _
  | step _ _ _ ih => exact Nat.succ_le_succ ih

/-- A body is given to a callable only where all parts but the last one are
    followed already. -/
theorem argument_eq (h : Walk body parts data steps result) :
    ∀ step ∈ steps, ∀ call, step.call? = some call → ∀ text, call.argument = some text →
      steps.getLast? = some step ∧ steps.length = parts.length ∧ body = some text := by
  induction h with
  | arrived data => exact fun step hstep => absurd hstep List.not_mem_nil
  | missing _ => exact fun step hstep => absurd hstep List.not_mem_nil
  | @step part parts data member found call? steps result _ hfetch hwalk ih =>
      intro step hstep call hcall text htext
      -- The call belongs to the first part or to a later one.
      rcases List.mem_cons.mp hstep with rfl | hmem
      · -- With parts to come there would be no body to give.
        rw [show call? = some call from hcall] at hfetch
        have hbody := hfetch.argument_eq htext
        by_cases hlast : parts = []
        · rw [if_pos hlast] at hbody
          rw [hlast] at hwalk
          cases hwalk with
          | arrived found => exact ⟨rfl, by rw [hlast]; rfl, hbody⟩
        · rw [if_neg hlast] at hbody
          exact absurd hbody (Option.some_ne_none text).symm
      · rcases ih step hmem call hcall text htext with ⟨hlast, hlength, hbody⟩
        refine ⟨?_, congrArg Nat.succ hlength, hbody⟩
        rw [List.getLast?_cons, hlast, Option.getD_some]

end Walk

namespace Resolves

variable {scope : Scope σ} {name : String} {body : Option String} {steps : List (Step σ)}
  {result : Option (Node σ)}

theorem length_le (h : Resolves scope name body steps result) :
    steps.length ≤ (nameParts name).2.length + 1 := by
  cases h with
  | point _ => exact Nat.zero_le _
  | missing _ _ => exact Nat.zero_le _
  | walk _ _ _ _ hwalk => exact hwalk.length_le

/-- A body is given at the last part of a name only. -/
theorem arguments (h : Resolves scope name body steps result) :
    ∀ step ∈ steps, ∀ call, step.call? = some call → ∀ text, call.argument = some text →
      steps.getLast? = some step ∧ steps.length = (nameParts name).2.length + 1 ∧
        body = some text := by
  cases h with
  | point _ => exact fun step hstep => absurd hstep List.not_mem_nil
  | missing _ _ => exact fun step hstep => absurd hstep List.not_mem_nil
  | walk _ _ _ _ hwalk => exact hwalk.argument_eq

end Resolves

namespace Node

/-- Takes a member of data, by a call if it is a callable that can be called. -/
def take (body : Option String) : Node σ → Calling σ (Node σ)
  | tree (.callable0 label run) => return ofResult (← Calling.call ⟨label, none⟩ run)
  | tree (.callable1 label run) =>
    match body with
    | some text => return ofResult (← Calling.call ⟨label, some text⟩ (run text))
    | none => return tree (.callable1 label run)
  | member => return member

/-- Looking up a member is finding it in the data and then taking it. -/
theorem member_eq_take (data : Node σ) (name : String) (body : Option String) :
    data.member name body =
      match data.member? name with
      | none => pure none
      | some member => some <$> take body member := by
  cases data with
  | json data =>
      rw [member, member?]
      cases data.member? name with
      | none => rfl
      | some found => rfl
  | yaml data =>
      rw [member, member?]
      cases data.member? name with
      | none => rfl
      | some found => rfl
  | script text => rfl
  | tree data =>
      cases data with
      | map members =>
          simp only [member, treeMember, member?]
          cases members.lookup name with
          | none => rfl
          | some found =>
              cases found with
              | callable1 label run =>
                  cases body with
                  | none => rfl
                  | some text => rfl
              | _ => rfl
      | _ => rfl

/-- Taking a member fetches it, with one call at most. -/
theorem fetches_of_take (body : Option String) (member : Node σ) (host : Host σ) :
    ∃ call? found state, Fetches body member call? found ∧
      take body member host = (found, ⟨state, host.calls ++ call?.toList⟩) := by
  -- Most members are taken as they are.
  have hplain : take body member host = (member, host) → ∃ call? found state,
      Fetches body member call? found ∧
        take body member host = (found, ⟨state, host.calls ++ call?.toList⟩) := by
    intro htake
    refine ⟨none, member, host.state, .plain member, ?_⟩
    rw [htake, Option.toList_none, List.append_nil]
  cases member with
  | tree data =>
      cases data with
      | callable0 label run =>
          exact ⟨_, _, (run host.state).2, .callable0 label run host.state, rfl⟩
      | callable1 label run =>
          cases body with
          | none => exact hplain rfl
          | some text =>
              exact ⟨_, _, (run text host.state).2, .callable1 label run host.state text rfl, rfl⟩
      | _ => exact hplain rfl
  | _ => exact hplain rfl

end Node

namespace Scope

theorem filterMap_step (step : Step σ) (steps : List (Step σ)) :
    (step :: steps).filterMap Step.call? = step.call?.toList ++ steps.filterMap Step.call? := by
  cases h : step.call? with
  | none => rw [List.filterMap_cons_none h, Option.toList_none, List.nil_append]
  | some call => rw [List.filterMap_cons_some h, Option.toList_some, List.singleton_append]

/-- Going from member to member follows the parts of a name. -/
theorem walk_of_descend (body : Option String) (parts : List String) (data : Node σ)
    (host : Host σ) : ∃ steps result state,
      Walk body parts data steps result ∧
      descend body parts data host =
        (result, ⟨state, host.calls ++ steps.filterMap Step.call?⟩) := by
  induction parts generalizing data host with
  | nil =>
      refine ⟨[], some data, host.state, .arrived data, ?_⟩
      rw [List.filterMap_nil, List.append_nil]
      rfl
  | cons part parts ih =>
      have hbody : (if parts.isEmpty then body else none) = if parts = [] then body else none := by
        cases parts with
        | nil => rfl
        | cons next parts => rfl
      rw [descend, hbody, Node.member_eq_take]
      -- The walk ends at a part that is missing.
      cases hmember : data.member? part with
      | none =>
          refine ⟨[], none, host.state, .missing hmember, ?_⟩
          rw [List.filterMap_nil, List.append_nil]
          rfl
      | some member =>
          rcases Node.fetches_of_take (if parts = [] then body else none) member host with
            ⟨call?, found, state, hfetch, htake⟩
          rcases ih found ⟨state, host.calls ++ call?.toList⟩ with
            ⟨steps, result, state', hwalk, hdescend⟩
          refine ⟨_, result, state', .step hmember hfetch hwalk, ?_⟩
          rw [filterMap_step, ← List.append_assoc]
          simp only [bind, StateT.bind, Functor.map, StateT.map, htake]
          exact hdescend

/-- The search ends at the first data that has the member, and it alone is
    asked. -/
theorem lookup_cases (name : String) (body : Option String) (frames : List (Node σ)) :
    ((∀ frame ∈ frames, frame.member? name = none) ∧ lookup name body frames = pure none) ∨
    ∃ nearer frame farther member, frames = nearer ++ frame :: farther ∧
      (∀ other ∈ nearer, other.member? name = none) ∧ frame.member? name = some member ∧
      lookup name body frames = frame.member name body := by
  induction frames with
  | nil => exact Or.inl ⟨fun frame hframe => absurd hframe List.not_mem_nil, rfl⟩
  | cons frame frames ih =>
      cases hmember : frame.member? name with
      | some member =>
          refine Or.inr ⟨[], frame, frames, member, rfl, ?_, hmember, ?_⟩
          · exact fun other hother => absurd hother List.not_mem_nil
          · rw [lookup, Node.member_eq_take, hmember, bind_map_left]
            exact (map_eq_pure_bind some _).symm
      | none =>
          have hlookup : lookup name body (frame :: frames) = lookup name body frames := by
            rw [lookup, Node.member_eq_take, hmember]
            rfl
          rcases ih with ⟨hall, hnone⟩ | ⟨nearer, holder, farther, member, hframes, hnearer, hsome⟩
          · refine Or.inl ⟨?_, hlookup.trans hnone⟩
            exact List.forall_mem_cons.mpr ⟨hmember, hall⟩
          · refine Or.inr ⟨frame :: nearer, holder, farther, member, ?_, ?_, hsome.1, ?_⟩
            · rw [hframes, List.cons_append]
            · exact List.forall_mem_cons.mpr ⟨hmember, hnearer⟩
            · exact hlookup.trans hsome.2

/-- Looking up a name follows it, and makes the calls of its steps. -/
theorem resolves (scope : Scope σ) (name : String) (body : Option String) (host : Host σ) :
    ∃ steps result state, Resolves scope name body steps result ∧
      scope.resolve name body host =
        (result, ⟨state, host.calls ++ steps.filterMap Step.call?⟩) := by
  by_cases hpoint : name = "."
  · refine ⟨[], some scope.current, host.state, .point hpoint, ?_⟩
    rw [resolve, if_pos hpoint, List.filterMap_nil, List.append_nil]
    rfl
  · rcases lookup_cases (nameParts name).1
        (if (nameParts name).2.isEmpty then body else none) scope.frames with
      ⟨hall, hlookup⟩ | ⟨nearer, frame, farther, member, hframes, hnearer, hmember, hlookup⟩
    · refine ⟨[], none, host.state, .missing hpoint hall, ?_⟩
      rw [resolve, if_neg hpoint, List.filterMap_nil, List.append_nil]
      simp only [hlookup, pure_bind]
      rfl
    · -- From the first data that has the first part on, all parts are followed alike.
      have hresolve : scope.resolve name body =
          descend body ((nameParts name).1 :: (nameParts name).2) frame := by
        rw [resolve, if_neg hpoint, descend]
        simp only [hlookup]
      rcases walk_of_descend body ((nameParts name).1 :: (nameParts name).2) frame host with
        ⟨steps, result, state, hwalk, hdescend⟩
      exact ⟨steps, result, state, .walk hpoint hframes hnearer hmember hwalk, hresolve ▸ hdescend⟩

end Scope

/-- Only a callable without argument is called to see whether it makes a script. -/
theorem Node.calls_lambda? (data : Node σ) (host : Host σ) : ∃ further,
    (data.lambda? host).2.calls = host.calls ++ Option.toList further ∧
    ∀ call, further = some call →
      ∃ label run, data = .tree (.callable0 label run) ∧ call = ⟨label, none⟩ := by
  -- Most data is not called at all.
  have hnone : (data.lambda? host).2 = host → ∃ further,
      (data.lambda? host).2.calls = host.calls ++ Option.toList further ∧
      ∀ call, further = some call →
        ∃ label run, data = .tree (.callable0 label run) ∧ call = ⟨label, none⟩ := by
    intro hsame
    refine ⟨none, ?_, fun call hcall => absurd hcall (Option.some_ne_none call).symm⟩
    rw [hsame, Option.toList_none, List.append_nil]
  cases data with
  | tree data =>
      cases data with
      | callable0 label run =>
          refine ⟨some ⟨label, none⟩, ?_, fun call hcall =>
            ⟨label, run, rfl, (Option.some.inj hcall).symm⟩⟩
          simp only [lambda?, Tree.lambda?, bind, StateT.bind, Calling.call]
          cases (run host.state).1 with
          | text s => rfl
          | _ => rfl
      | _ => exact hnone rfl
  | _ => exact hnone rfl

/-- Among all tags only a section has a body to give. -/
theorem Segment.eq_sect_of_question? {segment : Segment} {question : Question} {text : String}
    (h : segment.question? = some question) (hbody : question.body = some text) :
    ∃ head children, segment = .sect head children ∧ text = head.body := by
  have hother : ∀ name wantsScript, (⟨name, none, wantsScript⟩ : Question) ≠ question := by
    rintro name wantsScript rfl
    exact absurd hbody (Option.some_ne_none text).symm
  cases segment with
  | text content => exact absurd h (Option.some_ne_none question).symm
  | value name isEscaped => exact absurd (Option.some.inj h) (hother _ _)
  | sect head children =>
      rw [← Option.some.inj h] at hbody
      exact ⟨head, children, rfl, (Option.some.inj hbody).symm⟩
  | inverted name children => exact absurd (Option.some.inj h) (hother _ _)
  | block b => exact absurd h (Option.some_ne_none question).symm
  | reference r =>
      rw [question?] at h
      split at h
      · exact absurd (Option.some.inj h) (hother _ _)
      · exact absurd h (Option.some_ne_none question).symm
  | parent r parameters =>
      rw [question?] at h
      split at h
      · exact absurd (Option.some.inj h) (hother _ _)
      · exact absurd h (Option.some_ne_none question).symm

namespace Question

/-- The calls for an answer are those of following the name, and one more at
    most. -/
theorem calls_ask (question : Question) (scope : Scope σ) (host : Host σ) :
    ∃ steps result further, Resolves scope question.name question.body steps result ∧
      (question.ask scope host).2.calls =
        host.calls ++ (steps.filterMap Step.call? ++ Option.toList further) ∧
      ∀ call, further = some call → ∃ label run,
        result = some (.tree (.callable0 label run)) ∧ call = ⟨label, none⟩ := by
  rcases scope.resolves question.name question.body host with
    ⟨steps, result, state, hresolves, hresolve⟩
  -- When nothing is asked of the data, there is no further call.
  have hnone : (question.ask scope host).2 = ⟨state, host.calls ++ steps.filterMap Step.call?⟩ →
      ∃ steps result further, Resolves scope question.name question.body steps result ∧
        (question.ask scope host).2.calls =
          host.calls ++ (steps.filterMap Step.call? ++ Option.toList further) ∧
        ∀ call, further = some call → ∃ label run,
          result = some (.tree (.callable0 label run)) ∧ call = ⟨label, none⟩ := by
    intro hafter
    refine ⟨steps, result, none, hresolves, ?_, fun call hcall =>
      absurd hcall (Option.some_ne_none call).symm⟩
    rw [hafter, Option.toList_none, List.append_nil]
  cases result with
  | none =>
      refine hnone ?_
      simp only [ask, bind, StateT.bind, hresolve]
      rfl
  | some data =>
      by_cases hwants : question.wantsScript = true
      · rcases data.calls_lambda? ⟨state, host.calls ++ steps.filterMap Step.call?⟩ with
          ⟨further, hlambda, hfurther⟩
        refine ⟨steps, some data, further, hresolves, ?_, ?_⟩
        · rw [← List.append_assoc, ← hlambda]
          simp only [ask, bind, StateT.bind, hresolve, if_pos hwants]
          rfl
        · intro call hcall
          rcases hfurther call hcall with ⟨label, run, hdata, heq⟩
          exact ⟨label, run, congrArg some hdata, heq⟩
      · refine hnone ?_
        simp only [ask, bind, StateT.bind, hresolve, if_neg hwants]
        rfl

end Question

namespace Look

/-- A look adds its calls to those that were made before. -/
theorem calls_after (look : Look σ) : look.after.calls = look.host.calls ++ look.calls := by
  rw [calls, after, Segment.ask]
  cases look.segment.question? with
  | none => exact (List.append_nil _).symm.trans (congrArg _ List.drop_length.symm)
  | some question =>
      rcases question.calls_ask look.scope look.host with ⟨steps, result, further, _, hcalls, _⟩
      rw [hcalls, List.drop_left]

/-- Every look is disciplined. -/
theorem isDisciplined (look : Look σ) : look.IsDisciplined := by
  rw [IsDisciplined, calls, after, Segment.ask]
  -- A segment without a question makes no call.
  cases hasks : look.segment.question? with
  | none => exact List.drop_length
  | some question =>
      rcases question.calls_ask look.scope look.host with
        ⟨steps, result, further, hresolves, hcalls, hfurther⟩
      refine ⟨steps, result, further, ?_, hresolves, hresolves.length_le, ?_, hfurther⟩
      · rw [hcalls, List.drop_left]
      · intro step hstep call hcall text htext
        rcases hresolves.arguments step hstep call hcall text htext with ⟨hlast, hlength, hbody⟩
        exact ⟨hlast, hlength, Segment.eq_sect_of_question? hasks hbody⟩

end Look

end Mustache
