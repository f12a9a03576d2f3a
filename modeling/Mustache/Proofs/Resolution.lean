import Mustache.Scope

/-!
# How a Name is Resolved

Looking up a member may call into the host, so it matters who is asked for which
member, in which order and on whose behalf, and not only what is found. What is
asked depends on nothing but the answers: neither on what the data is, nor on
what its members are. So here the data is of any type and members are looked up
in any way, and a resolution is described by the queries that it makes.

A query asks a piece of data for one part of the name. The parts are what stands
between the points, so they may be empty. The first one is asked for from the
inside out up to the first data that has it, and each further one of what was
found last. The body of a section goes along with the last part alone.

## Main definitions

* `lookupWith`, `descendWith`, `resolveWith`: Resolution with any way to look up
  a member.
* `Query`: One member is asked for, with the answer.
* `Answered`: Queries get their answers one after the other.
* `Descends`, `Finds`: The queries that resolve a name.

## Theorems

* `cons_nameParts`: The parts of a name are what stands between its points.
* `descendWith_eq_iff`, `lookupWith_eq_iff`: Either half of a resolution makes
  its queries.
* `Scope.resolve_eq_iff_finds`: So does a resolution.
-/

namespace Mustache

/-- The fields of a text are what stands between its marks. -/
theorem Text.cons_fields (mark : Char) (text : List Char) :
    (fields mark text).1 :: (fields mark text).2 = text.splitOn mark := by
  induction text with
  | nil => rfl
  | cons ch text ih =>
      rw [List.splitOn_eq_splitOnP] at ih
      rw [List.splitOn_eq_splitOnP, List.splitOnP_cons_eq_if_modifyHead, ← ih, fields]
      rcases fields mark text with ⟨first, others⟩
      dsimp only
      -- A mark ends an empty field, and any other character belongs to the first one.
      by_cases hmark : ch = mark
      · rw [if_pos hmark, if_pos (beq_iff_eq.mpr hmark)]
      · rw [if_neg hmark, if_neg (fun h => hmark (beq_iff_eq.mp h))]
        rfl

/-- The parts of a name are what stands between its points. -/
theorem cons_nameParts (name : String) :
    (nameParts name).1 :: (nameParts name).2 = (name.toList.splitOn '.').map String.ofList := by
  rw [← Text.cons_fields, List.map_cons]
  rfl

section

variable {α τ : Type}

/-- One member is asked for. -/
structure Query (α : Type) where
  /-- The data that is asked. -/
  holder : α
  /-- The name of the member. -/
  part : String
  /-- The body that goes along. -/
  body : Option String
  /-- The member, if there is one. -/
  answer : Option α

variable (child : α → String → Option String → StateM τ (Option α))

/-- The member of the first data that has it. -/
def lookupWith (part : String) (body : Option String) : List α → StateM τ (Option α)
  | [] => return none
  | data :: frames => do
    match ← child data part body with
    | some found => return some found
    | none => lookupWith part body frames

/-- What is reached from `data` by going from member to member. -/
def descendWith (body : Option String) : List String → α → StateM τ (Option α)
  | [], data => return some data
  | part :: parts, data => do
    match ← child data part (if parts.isEmpty then body else none) with
    | some found => descendWith body parts found
    | none => return none

/-- The data that a name refers to inside of `current`, around which there is the
    data `outer`, from the inside out. -/
def resolveWith (current : α) (outer : List α) (name : String) (body : Option String) :
    StateM τ (Option α) :=
  if name = "." then return some current
  else do
    let (first, others) := nameParts name
    match ← lookupWith child first (if others.isEmpty then body else none) (current :: outer) with
    | some found => descendWith child body others found
    | none => return none

/-- The queries get their answers one after the other, and lead from one state to
    another. -/
inductive Answered : List (Query α) → τ → τ → Prop
  | nil (state : τ) : Answered [] state state
  | cons {query : Query α} {queries : List (Query α)} {state next last : τ}
      (hfirst : child query.holder query.part query.body state = (query.answer, next))
      (hrest : Answered queries next last) : Answered (query :: queries) state last

/-- The parts are followed from one piece of data, each one asked of what was found
    before, to where they lead, or to the first one that is missing. The body goes
    along with the last part. -/
inductive Descends (body : Option String) : List String → α → List (Query α) → Option α → Prop
  | arrived (data : α) : Descends body [] data [] (some data)
  | missing (part : String) (parts : List String) (data : α) :
      Descends body (part :: parts) data
        [⟨data, part, if parts = [] then body else none, none⟩] none
  | step {part : String} {parts : List String} {data found : α} {queries : List (Query α)}
      {result : Option α} (h : Descends body parts found queries result) :
      Descends body (part :: parts) data
        (⟨data, part, if parts = [] then body else none, some found⟩ :: queries) result

/-- The queries that resolve a name. A point asks nobody. The first part of any
    other name is asked of the frames from the inside out. If all of them lack it,
    there is no result. Otherwise no frame is asked after the first one that has
    it, and the other parts are followed from there. -/
inductive Finds (current : α) (outer : List α) (name : String) (body : Option String) :
    List (Query α) → Option α → Prop
  | point (h : name = ".") : Finds current outer name body [] (some current)
  | missing {first : String} {others : List String} (h : name ≠ ".")
      (hparts : nameParts name = (first, others)) :
      Finds current outer name body
        ((current :: outer).map fun frame =>
          ⟨frame, first, if others = [] then body else none, none⟩) none
  | found {first : String} {others : List String} {nearer farther : List α} {frame member : α}
      {queries : List (Query α)} {result : Option α} (h : name ≠ ".")
      (hparts : nameParts name = (first, others))
      (hframes : current :: outer = nearer ++ frame :: farther)
      (hdescends : Descends body others member queries result) :
      Finds current outer name body
        ((nearer.map fun frame => ⟨frame, first, if others = [] then body else none, none⟩) ++
          ⟨frame, first, if others = [] then body else none, some member⟩ :: queries) result

variable {child}

/-- Without a query the state stays as it is. -/
theorem answered_nil_iff {state last : τ} : Answered child [] state last ↔ last = state := by
  constructor
  · intro h
    cases h with
    | nil => rfl
  · rintro rfl
    exact .nil last

/-- The first query gets its answer, and the others get theirs after it. -/
theorem answered_cons_iff {query : Query α} {queries : List (Query α)} {state last : τ} :
    Answered child (query :: queries) state last ↔
      ∃ next, child query.holder query.part query.body state = (query.answer, next) ∧
        Answered child queries next last := by
  constructor
  · intro h
    cases h with
    | cons hfirst hrest => exact ⟨_, hfirst, hrest⟩
  · rintro ⟨next, hfirst, hrest⟩
    exact .cons hfirst hrest

/-- Queries in a row may be answered in two parts. -/
theorem answered_append_iff {front back : List (Query α)} {state last : τ} :
    Answered child (front ++ back) state last ↔
      ∃ next, Answered child front state next ∧ Answered child back next last := by
  induction front generalizing state with
  | nil =>
      constructor
      · intro h
        exact ⟨state, .nil state, h⟩
      · rintro ⟨next, hfront, hback⟩
        rwa [List.nil_append, ← answered_nil_iff.mp hfront]
  | cons query front ih =>
      constructor
      · intro h
        rcases answered_cons_iff.mp h with ⟨mid, hfirst, hrest⟩
        rcases ih.mp hrest with ⟨next, hfront, hback⟩
        exact ⟨next, .cons hfirst hfront, hback⟩
      · rintro ⟨next, hfront, hback⟩
        rcases answered_cons_iff.mp hfront with ⟨mid, hfirst, hrest⟩
        exact .cons hfirst (ih.mpr ⟨next, hrest, hback⟩)

theorem isEmpty_body (parts : List String) (body : Option String) :
    (if parts.isEmpty then body else none) = if parts = [] then body else none := by
  cases parts with
  | nil => rfl
  | cons part parts => rfl

/-- The innermost frame is asked first, and the others only if it lacks the
    member. -/
theorem lookupWith_cons {part : String} {body : Option String} {data : α} {frames : List α}
    {state : τ} :
    lookupWith child part body (data :: frames) state =
      match child data part body state with
      | (some found, next) => (some found, next)
      | (none, next) => lookupWith child part body frames next := by
  rw [lookupWith]
  simp only [bind, StateT.bind]
  rcases child data part body state with ⟨_ | found, next⟩
  · rfl
  · rfl

/-- The first part leads to where the others are followed from, or nowhere. -/
theorem descendWith_cons {part : String} {parts : List String} {body : Option String} {data : α}
    {state : τ} :
    descendWith child body (part :: parts) data state =
      match child data part (if parts = [] then body else none) state with
      | (some found, next) => descendWith child body parts found next
      | (none, next) => (none, next) := by
  rw [← isEmpty_body, descendWith]
  simp only [bind, StateT.bind]
  rcases child data part (if parts.isEmpty then body else none) state with ⟨_ | found, next⟩
  · rfl
  · rfl

/-- A name that is no point is looked up by its first part and followed by the
    others. -/
theorem resolveWith_of_ne {current : α} {outer : List α} {name first : String}
    {others : List String} {body : Option String} {state : τ} (hname : name ≠ ".")
    (hparts : nameParts name = (first, others)) :
    resolveWith child current outer name body state =
      match lookupWith child first (if others = [] then body else none) (current :: outer)
        state with
      | (some found, next) => descendWith child body others found next
      | (none, next) => (none, next) := by
  rw [resolveWith, if_neg hname, hparts, ← isEmpty_body]
  simp only [bind, StateT.bind]
  rcases lookupWith child first (if others.isEmpty then body else none) (current :: outer) state
    with ⟨_ | found, next⟩
  · rfl
  · rfl

/-- The search asks the frames from the inside out. Either all of them lack the
    member, or the first one that has it is the last one that is asked. -/
theorem lookupWith_eq_iff {part : String} {body : Option String} {frames : List α} {state last : τ}
    {result : Option α} :
    lookupWith child part body frames state = (result, last) ↔
      (result = none ∧
        Answered child (frames.map fun frame => ⟨frame, part, body, none⟩) state last) ∨
      ∃ nearer frame farther member, result = some member ∧ frames = nearer ++ frame :: farther ∧
        Answered child ((nearer.map fun frame => ⟨frame, part, body, none⟩) ++
          [⟨frame, part, body, some member⟩]) state last := by
  -- Frame by frame, from the inside out; each query leads to the state the next one is
  -- made in.
  induction frames generalizing state with
  | nil =>
      have hnone : lookupWith child part body [] state = (none, state) := rfl
      rw [hnone, Prod.mk.injEq]
      constructor
      · rintro ⟨rfl, rfl⟩
        exact Or.inl ⟨rfl, .nil state⟩
      · rintro (⟨rfl, hanswered⟩ | ⟨nearer, frame, farther, member, _, hframes, _⟩)
        · exact ⟨rfl, (answered_nil_iff.mp hanswered).symm⟩
        · exact absurd hframes.symm (List.append_ne_nil_of_right_ne_nil _ (List.cons_ne_nil _ _))
  | cons data frames ih =>
      rw [lookupWith_cons]
      constructor
      · intro h
        rcases hfirst : child data part body state with ⟨answer, next⟩
        rw [hfirst] at h
        -- A frame that lacks the member is one more of the nearer ones, and the first
        -- that has it ends the search.
        cases answer with
        | none =>
            rcases ih.mp h with ⟨hnone, hanswered⟩ |
              ⟨nearer, frame, farther, member, hsome, hframes, hanswered⟩
            · exact Or.inl ⟨hnone, .cons hfirst hanswered⟩
            · exact Or.inr ⟨data :: nearer, frame, farther, member, hsome,
                congrArg (data :: ·) hframes, .cons hfirst hanswered⟩
        | some found =>
            rw [Prod.mk.injEq] at h
            rw [← h.1, ← h.2]
            exact Or.inr ⟨[], data, frames, found, rfl, rfl, .cons hfirst (.nil next)⟩
      · rintro (⟨rfl, hanswered⟩ | ⟨nearer, frame, farther, member, rfl, hframes, hanswered⟩)
        · rcases answered_cons_iff.mp hanswered with ⟨next, hfirst, hmore⟩
          rw [hfirst]
          exact ih.mpr (Or.inl ⟨rfl, hmore⟩)
        · -- The frame at hand is the one that has the member if there are no nearer
          -- ones.
          cases nearer with
          | nil =>
              rw [List.nil_append, List.cons.injEq] at hframes
              rcases answered_cons_iff.mp hanswered with ⟨next, hfirst, hnil⟩
              rw [hframes.1, hfirst, answered_nil_iff.mp hnil]
          | cons nearest nearer =>
              rw [List.cons_append, List.cons.injEq] at hframes
              rcases answered_cons_iff.mp hanswered with ⟨next, hfirst, hmore⟩
              rw [hframes.1, hfirst]
              exact ih.mpr (Or.inr ⟨nearer, frame, farther, member, rfl, hframes.2, hmore⟩)

/-- Following the parts of a name makes the queries of a descent. -/
theorem descendWith_eq_iff {body : Option String} {parts : List String} {data : α} {state last : τ}
    {result : Option α} :
    descendWith child body parts data state = (result, last) ↔
      ∃ queries, Descends body parts data queries result ∧ Answered child queries state last := by
  -- Part by part, each one asked of what was found before.
  induction parts generalizing data state with
  | nil =>
      constructor
      · intro h
        have heq : (some data, state) = (result, last) := h
        rw [Prod.mk.injEq] at heq
        rw [← heq.1, ← heq.2]
        exact ⟨[], .arrived data, .nil state⟩
      · rintro ⟨queries, hdescends, hanswered⟩
        cases hdescends with
        | arrived data =>
            rw [answered_nil_iff.mp hanswered]
            rfl
  | cons part parts ih =>
      rw [descendWith_cons]
      constructor
      · intro h
        cases hfirst : child data part (if parts = [] then body else none) state with
        | mk answer next =>
            rw [hfirst] at h
            -- A missing member ends the descent, and a member is where it goes on.
            cases answer with
            | none =>
                rw [Prod.mk.injEq] at h
                rw [← h.1, ← h.2]
                exact ⟨_, .missing part parts data, .cons hfirst (.nil next)⟩
            | some found =>
                rcases ih.mp h with ⟨queries, hdescends, hanswered⟩
                exact ⟨_, .step hdescends, .cons hfirst hanswered⟩
      · rintro ⟨queries, hdescends, hanswered⟩
        -- The first query is the one the descent starts with, so its answer tells the
        -- case.
        rcases hdescends with _ | _ | hrest
        · rcases answered_cons_iff.mp hanswered with ⟨next, hfirst, hnil⟩
          rw [hfirst, answered_nil_iff.mp hnil]
        · rcases answered_cons_iff.mp hanswered with ⟨next, hfirst, hmore⟩
          rw [hfirst]
          exact ih.mpr ⟨_, hrest, hmore⟩

/-- Resolving a name makes the queries that find what it refers to. -/
theorem resolveWith_eq_iff {current : α} {outer : List α} {name : String} {body : Option String}
    {state last : τ} {result : Option α} :
    resolveWith child current outer name body state = (result, last) ↔
      ∃ queries, Finds current outer name body queries result ∧
        Answered child queries state last := by
  by_cases hpoint : name = "."
  · -- A point asks nobody and refers to the data entered last.
    have hcurrent : resolveWith child current outer name body state = (some current, state) := by
      rw [resolveWith, if_pos hpoint]
      rfl
    rw [hcurrent, Prod.mk.injEq]
    constructor
    · rintro ⟨rfl, rfl⟩
      exact ⟨[], .point hpoint, .nil state⟩
    · rintro ⟨queries, hfinds, hanswered⟩
      cases hfinds with
      | point _ => exact ⟨rfl, (answered_nil_iff.mp hanswered).symm⟩
      | missing h _ => exact absurd hpoint h
      | found h _ _ _ => exact absurd hpoint h
  · -- Any other name is looked up by its first part and followed by the others.
    rcases hparts : nameParts name with ⟨first, others⟩
    rw [resolveWith_of_ne hpoint hparts]
    constructor
    · intro h
      rcases hlookup : lookupWith child first (if others = [] then body else none)
        (current :: outer) state with ⟨answer, next⟩
      rw [hlookup] at h
      -- Either no frame has the first part, or the first one that has it is where the
      -- descent starts.
      rcases lookupWith_eq_iff.mp hlookup with ⟨rfl, hanswered⟩ |
        ⟨nearer, frame, farther, member, rfl, hframes, hanswered⟩
      · rw [Prod.mk.injEq] at h
        rw [← h.1, ← h.2]
        exact ⟨_, .missing hpoint hparts, hanswered⟩
      · -- The queries of the descent come after those of the search, in the state these
        -- led to.
        rcases descendWith_eq_iff.mp h with ⟨queries, hdescends, hmore⟩
        refine ⟨_, .found hpoint hparts hframes hdescends, ?_⟩
        rw [List.append_cons]
        exact answered_append_iff.mpr ⟨next, hanswered, hmore⟩
    · rintro ⟨queries, hfinds, hanswered⟩
      cases hfinds with
      | point h => exact absurd h hpoint
      -- The parts are determined by the name, so the queries are those of its first
      -- part.
      | missing _ hparts' =>
          rw [hparts, Prod.mk.injEq] at hparts'
          rcases hparts' with ⟨rfl, rfl⟩
          rw [lookupWith_eq_iff.mpr (Or.inl ⟨rfl, hanswered⟩)]
      -- The queries are cut where the search ends and the descent starts.
      | found _ hparts' hframes hdescends =>
          rw [hparts, Prod.mk.injEq] at hparts'
          rcases hparts' with ⟨rfl, rfl⟩
          rw [List.append_cons] at hanswered
          rcases answered_append_iff.mp hanswered with ⟨next, hlookup, hmore⟩
          rw [lookupWith_eq_iff.mpr (Or.inr ⟨_, _, _, _, rfl, hframes, hlookup⟩)]
          exact descendWith_eq_iff.mpr ⟨_, hdescends, hmore⟩

end

namespace Scope

variable {σ : Type}

/-- Looking up a member in data is the search with the members of data. -/
theorem lookup_eq_lookupWith (name : String) (body : Option String) (frames : List (Node σ)) :
    lookup name body frames =
      lookupWith (fun data part body => data.member part body) name body frames := by
  induction frames with
  | nil => rfl
  | cons data frames ih =>
      rw [lookup, lookupWith]
      congr 1
      funext answer
      cases answer with
      | none => exact ih
      | some found => rfl

/-- Going from member to member in data is the descent with the members of data. -/
theorem descend_eq_descendWith (body : Option String) (parts : List String) (data : Node σ) :
    descend body parts data =
      descendWith (fun data part body => data.member part body) body parts data := by
  induction parts generalizing data with
  | nil => rfl
  | cons part parts ih =>
      rw [descend, descendWith]
      congr 1
      funext answer
      cases answer with
      | none => rfl
      | some found => exact ih found

/-- A name is resolved by its parts, which are what stands between its points. A
    point is the data entered last. The first part of any other name is asked of
    the frames from the inside out, up to the first one that has it, and each
    further part of what was found last, up to one that is missing, and the body
    goes along with the last part alone. No other queries are made, whatever the
    data is and whatever asking does. -/
theorem resolve_eq_iff_finds (scope : Scope σ) (name : String) (body : Option String) :
    (nameParts name).1 :: (nameParts name).2 = (name.toList.splitOn '.').map String.ofList ∧
      scope.resolve name body = resolveWith (fun data part body => data.member part body)
        scope.current scope.outer name body ∧
      ∀ {α τ : Type} (child : α → String → Option String → StateM τ (Option α)) (current : α)
        (outer : List α) (state last : τ) (result : Option α),
        resolveWith child current outer name body state = (result, last) ↔
          ∃ queries, Finds current outer name body queries result ∧
            Answered child queries state last := by
  refine ⟨cons_nameParts name, ?_, fun _ _ _ _ _ _ => resolveWith_eq_iff⟩
  rw [resolve, resolveWith]
  by_cases hpoint : name = "."
  · rw [if_pos hpoint, if_pos hpoint]
  · rw [if_neg hpoint, if_neg hpoint]
    rcases nameParts name with ⟨first, others⟩
    dsimp only
    rw [lookup_eq_lookupWith, frames]
    congr 1
    funext answer
    cases answer with
    | none => rfl
    | some found => exact descend_eq_descendWith body _ found

-- The inner frame has the first part, so the outer one is not asked, although it
-- has both.
example : ((⟨.json (.object [("a", .object [])]),
    [.json (.object [("a", .object [("b", .text "x")])])]⟩ : Scope Unit).resolve "a.b" none
      ⟨(), []⟩).1.isNone = true := by decide

end Scope

end Mustache
