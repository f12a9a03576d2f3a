import Mustache.Partials.Folder
import Mustache.Proofs.Stores

/-!
# What a Folder Remembers

A folder reads a file when its name is first asked for, and remembers the
template until it is cleared. Between lookups files may be written or removed,
and lookups are also made in the middle of a rendering, by every reference in
it. Here the folder is watched: all lookups are written down with the files
there were, and so is every clearing. What a lookup gives is the template of
the file at the time of the first lookup of that name since the folder was last
cleared.

There is one exception. A lookup that breaks off, since compiling the text of
the file did, gives nothing and leaves nothing behind. It does not count as the
first lookup, and the next one reads the file again. A run goes on after it, as
it does after a rendering that halts.

So for a single rendering the folder is as good as a function that gives what
the folder remembers, and what it would read now for any other name.

## Main definitions

* `Folder.IsTemplateOf`: What comes of reading what a file holds.
* `Folder.Lookup`, `Folder.Event`, `Folder.Watched`: A folder with a record.
* `Folder.firstKept?`: The first lookup of a name since the last clearing that
  did not break off.
* `Folder.Operation`: What is done with a folder, watched or not.
* `Folder.current`, `Folder.currentStore`: What a folder gives for a name, and
  the store of that.
* `Folder.Lookup.IsRight`: The lookup gave the template of the file at the time
  of the first lookup.
* `Folder.Watched.IsFaithful`: The record explains what is remembered.

## Theorems

* `Folder.Watched.IsFaithful.ask`: A record stays faithful when a name is looked
  up.
* `Folder.Operation.mapM_watch`: Watching changes nothing, and the record is
  faithful after any run.
* `Folder.simulates_currentStore`: The folder answers as a function does.
* `Folder.snapshots_of_run`: All lookups and renderings of a run.
-/

namespace Mustache

namespace Folder

variable {σ : Type}

/-- What comes of reading what a file holds. The template is empty when there is
    no file, or one that is not text or not a template. There is none when
    compiling the text breaks off. -/
inductive IsTemplateOf (options : Options) : Option ByteArray → Except Panic Template → Prop
  | compiled {content : ByteArray} {source : String} {template : Template} :
      String.fromUTF8? content = some source → Template.compile source options = .ok template →
      IsTemplateOf options (some content) (.ok template)
  | missing : IsTemplateOf options none (.ok .empty)
  | notText {content : ByteArray} : String.fromUTF8? content = none →
      IsTemplateOf options (some content) (.ok .empty)
  | illFormed {content : ByteArray} {source : String} {error : ParseError} :
      String.fromUTF8? content = some source →
      Template.compile source options = .error (.illFormed error) →
      IsTemplateOf options (some content) (.ok .empty)
  | brokenOff {content : ByteArray} {source : String} {panic : Panic} :
      String.fromUTF8? content = some source →
      Template.compile source options = .error (.panic panic) →
      IsTemplateOf options (some content) (.error panic)

/-- Reading a file gives what comes of what it holds. -/
theorem isTemplateOf_read (folder : Folder) (name : String) :
    IsTemplateOf folder.options (folder.tree.read? folder.location (folder.pathOf name))
      (folder.read name) := by
  -- The cases are those that the definition of `read` goes through in turn.
  rw [read]
  cases folder.tree.read? folder.location (folder.pathOf name) with
  | none => exact .missing
  | some content =>
      simp only
      cases htext : String.fromUTF8? content with
      | none => exact .notText htext
      | some source =>
          simp only
          rcases hcompile : Template.compile source folder.options with ⟨error | panic⟩ | template
          · exact .illFormed htext hcompile
          · exact .brokenOff htext hcompile
          · exact .compiled htext hcompile

/-- A lookup of a name, with the files there were and what it gave. -/
structure Lookup where
  name : String
  files : FileTree
  answer : Except Panic Template

/-- What happens to the memory of a folder. -/
inductive Event
  | cleared
  | asked (lookup : Lookup)

/-- The lookups since the last clearing, or since the beginning. -/
def sinceCleared (events : List Event) : List Lookup :=
  events.foldl (fun lookups event =>
    match event with
    | .cleared => []
    | .asked lookup => lookups ++ [lookup]) []

/-- The first lookup of a name since the last clearing that gave a template. -/
def firstKept? (name : String) (events : List Event) : Option Lookup :=
  (sinceCleared events).find? fun lookup => lookup.name == name && lookup.answer.isOk

/-- A folder, with a record of its lookups and clearings. -/
structure Watched where
  folder : Folder
  events : List Event := []

/-- The watched folder as a store. -/
def Watched.store : Store Watched := fun name watched =>
  let (answer, folder) := watched.folder.get name
  (answer.map some,
    ⟨folder, watched.events ++ [.asked ⟨name, watched.folder.tree, answer⟩]⟩)

/-- What is done with a folder. -/
inductive Operation (σ : Type)
  /-- The files change, by being written or removed. -/
  | files (change : FileTree → FileTree)
  /-- The folder is cleared. -/
  | clear
  /-- A name is looked up. -/
  | get (name : String)
  /-- A template is rendered with the folder as its store. -/
  | render (template : Template) (data : Node σ) (depth : Nat)

/-- What comes of an operation. A lookup may break off and a rendering may halt,
    and then the next operation finds the folder as it was left. -/
inductive Outcome
  | done
  | template (answer : Except Panic (Option Template))
  | text (shown : Except Halt String)

namespace Operation

/-- Does something with a folder. -/
def run : Operation σ → StateM (Host σ × Folder) Outcome
  | .files change => fun (host, folder) =>
    (.done, host, { folder with tree := change folder.tree })
  | .clear => fun (host, folder) => (.done, host, folder.clear)
  | .get name => fun (host, folder) =>
    let (answer, folder) := Folder.store name folder
    (.template answer, host, folder)
  | .render template data depth => fun state =>
    let (shown, after) := template.render data Folder.store depth state
    (.text shown, after)

/-- Does something with a folder and writes it down. -/
def watch : Operation σ → StateM (Host σ × Watched) Outcome
  | .files change => fun (host, watched) =>
    (.done, host, { watched with folder.tree := change watched.folder.tree })
  | .clear => fun (host, watched) =>
    (.done, host, ⟨watched.folder.clear, watched.events ++ [.cleared]⟩)
  | .get name => fun (host, watched) =>
    let (answer, watched) := Watched.store name watched
    (.template answer, host, watched)
  | .render template data depth => fun state =>
    let (shown, after) := template.render data Watched.store depth state
    (.text shown, after)

end Operation

/-- What the folder gives for a name: what it remembers, or else what comes of
    reading the file at present. -/
def current (folder : Folder) (name : String) : Except Panic Template :=
  if isPlainName name then
    match folder.cache.lookup name with
    | some template => .ok template
    | none => folder.read name
  else .ok .empty

/-- The store that gives at all times what the folder gives at present. -/
def currentStore (folder : Folder) : Store Unit :=
  fun name => return (folder.current name).map some

/-- What a lookup should give, after the events in the past: the template of the
    file at the time of the first such lookup, which is the lookup itself when
    no earlier one was kept. Names that are not plain have an empty template. -/
def Lookup.IsRight (folder : Folder) (past : List Event) (lookup : Lookup) : Prop :=
  if isPlainName lookup.name then
    IsTemplateOf folder.options
      (((firstKept? lookup.name past).getD lookup).files.read? folder.location
        (folder.pathOf lookup.name)) lookup.answer
  else lookup.answer = .ok .empty

theorem sinceCleared_asked (events : List Event) (lookup : Lookup) :
    sinceCleared (events ++ [.asked lookup]) = sinceCleared events ++ [lookup] := by
  rw [sinceCleared, List.foldl_append]
  rfl

theorem firstKept?_cleared (name : String) (events : List Event) :
    firstKept? name (events ++ [.cleared]) = none := by
  rw [firstKept?, sinceCleared, List.foldl_append]
  rfl

/-- A lookup is the first one that is kept if there was none before it and it
    gave a template. -/
theorem firstKept?_asked (name : String) (events : List Event) (lookup : Lookup) :
    firstKept? name (events ++ [.asked lookup]) =
      (firstKept? name events).or
        (if lookup.name = name ∧ lookup.answer.isOk = true then some lookup else none) := by
  rw [firstKept?, sinceCleared_asked, List.find?_append, List.find?_singleton]
  simp only [beq_iff_eq, Bool.and_eq_true]
  rfl

/-- The record of a folder that was watched from the beginning on. It says what is
    remembered for a plain name, and all its lookups are right. -/
structure Watched.IsFaithful (start : Folder) (watched : Watched) : Prop where
  location_eq : watched.folder.location = start.location
  extension_eq : watched.folder.extension = start.extension
  options_eq : watched.folder.options = start.options
  lookup_cache : ∀ name, isPlainName name = true →
    (watched.folder.cache.lookup name).map .ok =
      (firstKept? name watched.events).map fun first =>
        { start with tree := first.files }.read name
  isRight : ∀ past lookup future, watched.events = past ++ .asked lookup :: future →
    lookup.IsRight start past

namespace Watched.IsFaithful

variable {start : Folder} {watched : Watched}

theorem ofNew (hnew : start.cache = []) : IsFaithful start ⟨start, []⟩ := by
  refine ⟨rfl, rfl, rfl, fun name _ => ?_, fun past lookup future h => ?_⟩
  · rw [hnew]
    rfl
  · exact absurd h.symm (List.append_ne_nil_of_right_ne_nil past (List.cons_ne_nil _ future))

/-- What is read at present is what the folder would have read in the beginning,
    had it had the files. -/
theorem read_eq (h : IsFaithful start watched) (name : String) :
    watched.folder.read name = { start with tree := watched.folder.tree }.read name := by
  -- What is read depends on the files alone, for the folder stays what it is.
  simp only [read, pathOf, h.location_eq, h.extension_eq, h.options_eq]

/-- All lookups are right with one more event, if the last one is. -/
theorem isRight_concat (h : IsFaithful start watched) {event : Event}
    (hlast : ∀ lookup, event = .asked lookup → lookup.IsRight start watched.events) :
    ∀ past lookup future, watched.events ++ [event] = past ++ .asked lookup :: future →
      lookup.IsRight start past := by
  -- A record with one more event: only the last one has to be looked at.
  intro past lookup future heq
  rcases List.eq_nil_or_concat future with rfl | ⟨front, last, rfl⟩
  · rcases List.append_inj' heq rfl with ⟨hpast, hevent⟩
    rw [← hpast]
    exact hlast lookup (List.singleton_inj.mp hevent)
  · rw [List.concat_eq_append, ← List.cons_append, ← List.append_assoc] at heq
    exact h.isRight past lookup front (List.append_inj' heq rfl).1

/-- The record says nothing of the files there are now. -/
theorem files (h : IsFaithful start watched) (change : FileTree → FileTree) :
    IsFaithful start { watched with folder.tree := change watched.folder.tree } :=
  ⟨h.location_eq, h.extension_eq, h.options_eq, h.lookup_cache, h.isRight⟩

/-- After a clearing nothing is remembered, and no lookup is kept. -/
theorem clear (h : IsFaithful start watched) :
    IsFaithful start ⟨watched.folder.clear, watched.events ++ [.cleared]⟩ := by
  refine ⟨h.location_eq, h.extension_eq, h.options_eq, fun name _ => ?_, ?_⟩
  · rw [firstKept?_cleared]
    rfl
  · exact h.isRight_concat fun lookup heq => absurd heq Event.noConfusion

/-- After a lookup, what is remembered has to agree with the record, and the
    answer has to be right. -/
theorem asked (h : IsFaithful start watched) {lookup : Lookup} {cache : List (String × Template)}
    (hcache : ∀ name, isPlainName name = true → (cache.lookup name).map .ok =
      (firstKept? name (watched.events ++ [.asked lookup])).map fun first =>
        { start with tree := first.files }.read name)
    (hright : lookup.IsRight start watched.events) :
    IsFaithful start ⟨{ watched.folder with cache }, watched.events ++ [.asked lookup]⟩ := by
  refine ⟨h.location_eq, h.extension_eq, h.options_eq, hcache, h.isRight_concat fun other heq => ?_⟩
  rw [← Event.asked.inj heq]
  exact hright

/-- What is remembered stays the same when the record has the name already, or
    the lookup is none to be kept for any plain name. -/
theorem asked_of_same (h : IsFaithful start watched) {lookup : Lookup}
    (hsame : ∀ name, isPlainName name = true →
      firstKept? name (watched.events ++ [.asked lookup]) = firstKept? name watched.events)
    (hright : lookup.IsRight start watched.events) :
    IsFaithful start ⟨watched.folder, watched.events ++ [.asked lookup]⟩ := by
  refine h.asked (fun name hname => ?_) hright
  rw [hsame name hname]
  exact h.lookup_cache name hname

/-- A lookup of a name that is remembered is right. -/
theorem hit (h : IsFaithful start watched) {name : String} (hplain : isPlainName name = true)
    {template : Template} (hfound : watched.folder.cache.lookup name = some template) :
    IsFaithful start
      ⟨watched.folder, watched.events ++ [.asked ⟨name, watched.folder.tree, .ok template⟩]⟩ := by
  -- The name was looked up before, and keeps its first lookup.
  have hmemory := h.lookup_cache name hplain
  rw [hfound] at hmemory
  rcases Option.map_eq_some_iff.mp hmemory.symm with ⟨first, hfirst, hread⟩
  refine h.asked_of_same (fun other _ => ?_) ?_
  · rw [firstKept?_asked]
    by_cases heq : name = other
    · rw [← heq, hfirst, Option.some_or]
    · rw [if_neg fun hboth => heq hboth.1, Option.or_none]
  · rw [Lookup.IsRight, if_pos hplain, hfirst, ← hread]
    exact isTemplateOf_read { start with tree := first.files } name

/-- The name was not looked up before, or every lookup of it broke off. -/
theorem firstKept?_eq_none (h : IsFaithful start watched) {name : String}
    (hplain : isPlainName name = true) (hfound : watched.folder.cache.lookup name = none) :
    firstKept? name watched.events = none := by
  have hmemory := h.lookup_cache name hplain
  rw [hfound] at hmemory
  exact Option.map_eq_none_iff.mp hmemory.symm

/-- A lookup that reads the file is right. -/
theorem isRight_read (h : IsFaithful start watched) {name : String}
    (hplain : isPlainName name = true) (hfound : watched.folder.cache.lookup name = none) :
    Lookup.IsRight start watched.events
      ⟨name, watched.folder.tree, watched.folder.read name⟩ := by
  -- Nothing is remembered for the name, so it is right to read the file.
  rw [Lookup.IsRight, if_pos hplain, h.firstKept?_eq_none hplain hfound, h.read_eq name]
  exact isTemplateOf_read { start with tree := watched.folder.tree } name

/-- So it may be remembered what the file gave. -/
theorem miss (h : IsFaithful start watched) {name : String} (hplain : isPlainName name = true)
    (hfound : watched.folder.cache.lookup name = none) {template : Template}
    (hread : watched.folder.read name = .ok template) :
    IsFaithful start
      ⟨{ watched.folder with cache := (name, template) :: watched.folder.cache },
        watched.events ++ [.asked ⟨name, watched.folder.tree, .ok template⟩]⟩ := by
  -- This is the first lookup of the name that is kept.
  refine h.asked (fun other hother => ?_) (hread ▸ h.isRight_read hplain hfound)
  rw [firstKept?_asked, List.lookup_cons]
  by_cases heq : name = other
  · subst heq
    rw [h.firstKept?_eq_none hplain hfound, if_pos ⟨rfl, rfl⟩, beq_self_eq_true]
    exact congrArg some (hread.symm.trans (h.read_eq name))
  · rw [beq_false_of_ne (Ne.symm heq), if_neg fun hboth => heq hboth.1, Option.or_none]
    exact h.lookup_cache other hother

/-- A lookup that breaks off is right, and leaves nothing to remember. -/
theorem brokenOff (h : IsFaithful start watched) {name : String} (hplain : isPlainName name = true)
    (hfound : watched.folder.cache.lookup name = none) {panic : Panic}
    (hread : watched.folder.read name = .error panic) :
    IsFaithful start
      ⟨watched.folder, watched.events ++ [.asked ⟨name, watched.folder.tree, .error panic⟩]⟩ := by
  -- Compiling the text of the file broke off, and the lookup is not kept.
  refine h.asked_of_same (fun other _ => ?_) (hread ▸ h.isRight_read hplain hfound)
  rw [firstKept?_asked, if_neg fun hboth => Bool.false_ne_true hboth.2, Option.or_none]

/-- So is one of a name that is not plain. -/
theorem refused (h : IsFaithful start watched) {name : String} (hplain : ¬isPlainName name = true) :
    IsFaithful start
      ⟨watched.folder, watched.events ++ [.asked ⟨name, watched.folder.tree, .ok .empty⟩]⟩ := by
  -- A name that is not plain is not the name of any first lookup that counts.
  refine h.asked_of_same (fun other hother => ?_) ?_
  · have hne : ¬name = other := fun heq => hplain (heq ▸ hother)
    rw [firstKept?_asked, if_neg fun hboth => hne hboth.1, Option.or_none]
  · rw [Lookup.IsRight, if_neg hplain]

/-- The record explains what is remembered, and still does so after a lookup. -/
theorem ask (h : IsFaithful start watched) (name : String) :
    IsFaithful start (Watched.store name watched).2 := by
  simp only [Watched.store, Folder.get]
  -- A plain name is remembered, or its file gives a template, or compiling it breaks
  -- off.
  by_cases hplain : isPlainName name = true
  · rw [if_pos hplain]
    cases hfound : watched.folder.cache.lookup name with
    | some template => exact h.hit hplain hfound
    | none =>
        cases hread : watched.folder.read name with
        | ok template => exact h.miss hplain hfound hread
        | error panic => exact h.brokenOff hplain hfound hread
  · rw [if_neg hplain]
    exact h.refused hplain

end Watched.IsFaithful

/-- A watched folder and the same folder unwatched. It was new in the beginning. -/
def Watched.Watches (start : Folder) (watched : Watched) (folder : Folder) : Prop :=
  watched.folder = folder ∧ watched.IsFaithful start

/-- Each lookup of the watched folder is one of the folder itself. -/
theorem Watched.simulates_store (start : Folder) :
    Store.Simulates (Watches start) Watched.store Folder.store := by
  rintro name watched _ ⟨rfl, h⟩
  exact ⟨rfl, rfl, h.ask name⟩

namespace Operation

theorem mapM_cons_apply {α β τ : Type} {act : α → StateM τ β} {a : α} {others : List α}
    {state mid last : τ} {result : β} {results : List β} (hfirst : act a state = (result, mid))
    (hrest : others.mapM act mid = (results, last)) :
    (a :: others).mapM act state = (result :: results, last) := by
  simp only [List.mapM_cons, bind, StateT.bind, hfirst, hrest]
  rfl

/-- What is done with the watched folder is done with the folder itself. Of a
    rendering this is known from the lookups in it. -/
theorem watch_eq_run {start : Folder} {watched : Watched} (h : watched.IsFaithful start)
    (operation : Operation σ) (host : Host σ) :
    ∃ outcome host' watched', operation.watch (host, watched) = (outcome, host', watched') ∧
      operation.run (host, watched.folder) = (outcome, host', watched'.folder) ∧
      watched'.IsFaithful start := by
  cases operation with
  | files change => exact ⟨.done, host, _, rfl, rfl, h.files change⟩
  | clear => exact ⟨.done, host, _, rfl, rfl, h.clear⟩
  | get name =>
      exact ⟨.template (Folder.store name watched.folder).1, host, _, rfl, rfl, h.ask name⟩
  | render template data depth =>
      -- The lookups of a rendering are made one after the other, and each keeps the
      -- record faithful.
      rcases (Watched.simulates_store start).agrees_render template data depth host watched _
        ⟨rfl, h⟩ with ⟨shown, host', watched', _, hwatch, hrun, rfl, h'⟩
      refine ⟨.text shown, host', watched', ?_, ?_, h'⟩
      · simp only [watch, hwatch]
      · simp only [run, hrun]

/-- Watching a run changes nothing, and its record is faithful. -/
theorem mapM_watch {start : Folder} {watched : Watched} (h : watched.IsFaithful start)
    (operations : List (Operation σ)) (host : Host σ) :
    ∃ outcomes host' watched',
      operations.mapM watch (host, watched) = (outcomes, host', watched') ∧
      operations.mapM run (host, watched.folder) = (outcomes, host', watched'.folder) ∧
      watched'.IsFaithful start := by
  -- The induction is on the operations, each of which keeps the record faithful.
  induction operations generalizing watched host with
  | nil => exact ⟨[], host, watched, rfl, rfl, h⟩
  | cons operation operations ih =>
      rcases watch_eq_run h operation host with ⟨outcome, mid, between, hwatch, hrun, hmid⟩
      rcases ih hmid mid with ⟨outcomes, host', watched', hwatches, hruns, hlast⟩
      exact ⟨outcome :: outcomes, host', watched', mapM_cons_apply hwatch hwatches,
        mapM_cons_apply hrun hruns, hlast⟩

end Operation

/-- A lookup gives what the folder gives at present. -/
theorem get_eq_current (folder : Folder) (name : String) :
    (folder.get name).1 = folder.current name := by
  rw [get, current]
  -- Both ask the memory first and read the file after that.
  by_cases hplain : isPlainName name = true
  · rw [if_pos hplain, if_pos hplain]
    cases folder.cache.lookup name with
    | some template => rfl
    | none =>
        cases folder.read name with
        | ok template => rfl
        | error panic => rfl
  · rw [if_neg hplain, if_neg hplain]

/-- A lookup does not change what the folder gives. -/
theorem current_get (folder : Folder) (name : String) :
    (folder.get name).2.current = folder.current := by
  -- A file that is read is only remembered as what it gives anyway.
  rw [get]
  by_cases hplain : isPlainName name = true
  · rw [if_pos hplain]
    cases hfound : folder.cache.lookup name with
    | some template => rfl
    | none =>
        cases hread : folder.read name with
        | error panic => rfl
        | ok template =>
            funext other
            -- Only the name that was looked up is remembered now.
            by_cases heq : other = name
            · subst heq
              simp only [current, List.lookup_cons, beq_self_eq_true, hfound, hread]
            · simp only [current, List.lookup_cons, beq_false_of_ne heq]
              rfl
  · rw [if_neg hplain]

/-- The folder answers as a function does. -/
theorem simulates_currentStore (folder : Folder) :
    Store.Simulates (fun later _ => later.current = folder.current) Folder.store
      folder.currentStore := by
  intro name later _ h
  refine ⟨congrArg (·.map some) ((later.get_eq_current name).trans (congrFun h name)), ?_⟩
  exact (later.current_get name).trans h

theorem get_of_not_isPlainName (folder : Folder) {name : String} (h : isPlainName name = false) :
    folder.get name = (.ok .empty, folder) := by
  rw [get, h]
  rfl

/-- A lookup that breaks off leaves the folder as it is. -/
theorem get_of_error {folder : Folder} {name : String} {panic : Panic}
    (h : (folder.get name).1 = .error panic) : (folder.get name).2 = folder := by
  -- Only a file that was read to the end is remembered.
  rw [get] at h ⊢
  by_cases hplain : isPlainName name = true
  · rw [if_pos hplain] at h ⊢
    cases hfound : folder.cache.lookup name with
    | some template => rfl
    | none =>
        rw [hfound] at h
        cases hread : folder.read name with
        | error panic => rfl
        | ok template =>
            simp only [hread, reduceCtorEq] at h
  · rw [if_neg hplain]

/-- After any run of operations on a new folder, all lookups have given what the
    file held at the first of them that did not break off, or at the lookup
    itself if all of them before did. A lookup that breaks off leaves the folder
    as it is. Names that are not plain have an empty template whatever files
    there are, and nothing is remembered of them. A rendering that comes next
    does the same as with the function of what the folder gives at that time. As
    the beginning of a run is a run, this is about each rendering of a run. -/
theorem snapshots_of_run {folder after : Folder} {operations : List (Operation σ)}
    {host host' : Host σ} {outcomes : List Outcome} (hnew : folder.cache = [])
    (hrun : operations.mapM Operation.run (host, folder) = (outcomes, host', after)) :
    (∃ events,
      operations.mapM Operation.watch (host, ⟨folder, []⟩) =
        (outcomes, host', ⟨after, events⟩) ∧
      ∀ past lookup future, events = past ++ .asked lookup :: future →
        lookup.IsRight folder past) ∧
    (∀ name panic, (after.get name).1 = .error panic → (after.get name).2 = after) ∧
    (∀ name files, isPlainName name = false →
      { after with tree := files }.get name = (.ok .empty, { after with tree := files })) ∧
    ∀ (template : Template) (data : Node σ) (depth : Nat),
      (template.render data Folder.store depth).seen host' after =
        (template.render data after.currentStore depth).seen host' () := by
  refine ⟨?_, fun name panic => get_of_error, fun name files => get_of_not_isPlainName _,
    fun template data depth =>
      ((simulates_currentStore after).agrees_render template data depth).seen_eq host' rfl⟩
  -- Watched from the beginning, the run does the same.
  rcases Operation.mapM_watch (Watched.IsFaithful.ofNew hnew) operations host with
    ⟨results, left, watched, hwatch, hsame, hfaithful⟩
  cases hrun.symm.trans hsame
  exact ⟨watched.events, hwatch, hfaithful.isRight⟩

/-- A file that is written after its first lookup is not seen before the folder
    is cleared. -/
theorem snapshots_of_run_of_late_file :
    ∃ events,
      [Operation.get (σ := Unit) "a",
          .files fun tree => { tree with files := [(["a.mustache", "pages"], "x".toUTF8)] },
          .render ⟨[.text "1", .reference ⟨"a", false, ""⟩]⟩ (.json .null) 2,
          .clear,
          .render ⟨[.text "1", .reference ⟨"a", false, ""⟩]⟩ (.json .null) 2].mapM
        Operation.watch (⟨(), []⟩, ⟨{ tree := ⟨[["pages"]], []⟩, location := ["pages"] }, []⟩) =
        ([.template (.ok (some .empty)), .done, .text (.ok "1"), .done, .text (.ok "1x")],
          ⟨(), []⟩,
          ⟨{ tree := ⟨[["pages"]], [(["a.mustache", "pages"], "x".toUTF8)]⟩
             location := ["pages"]
             cache := [("a", ⟨[.text "x"]⟩)] }, events⟩) ∧
      ∀ past lookup future, events = past ++ .asked lookup :: future →
        lookup.IsRight { tree := ⟨[["pages"]], []⟩, location := ["pages"] } past := by
  have hget : Operation.run (σ := Unit) (.get "a")
      (⟨(), []⟩, { tree := ⟨[["pages"]], []⟩, location := ["pages"] }) =
      (.template (.ok (some .empty)), ⟨(), []⟩,
        { tree := ⟨[["pages"]], []⟩, location := ["pages"], cache := [("a", .empty)] }) := by
    with_unfolding_all rfl
  have hwrite : Operation.run (σ := Unit)
      (.files fun tree => { tree with files := [(["a.mustache", "pages"], "x".toUTF8)] })
      (⟨(), []⟩,
        { tree := ⟨[["pages"]], []⟩, location := ["pages"], cache := [("a", .empty)] }) =
      (.done, ⟨(), []⟩,
        { tree := ⟨[["pages"]], [(["a.mustache", "pages"], "x".toUTF8)]⟩
          location := ["pages"]
          cache := [("a", .empty)] }) := rfl
  -- What is remembered is rendered whatever files there are.
  have hremembered (tree : FileTree) :
      Operation.run (σ := Unit) (.render ⟨[.text "1", .reference ⟨"a", false, ""⟩]⟩ (.json .null) 2)
        (⟨(), []⟩, { tree := tree, location := ["pages"], cache := [("a", .empty)] }) =
      (.text (.ok "1"), ⟨(), []⟩,
        { tree := tree, location := ["pages"], cache := [("a", .empty)] }) := by
    with_unfolding_all rfl
  have hclear (folder : Folder) : Operation.run (σ := Unit) .clear (⟨(), []⟩, folder) =
      (.done, ⟨(), []⟩, folder.clear) := rfl
  have hread :
      Operation.run (σ := Unit) (.render ⟨[.text "1", .reference ⟨"a", false, ""⟩]⟩ (.json .null) 2)
        (⟨(), []⟩,
          { tree := ⟨[["pages"]], [(["a.mustache", "pages"], "x".toUTF8)]⟩
            location := ["pages"] }) =
      (.text (.ok "1x"), ⟨(), []⟩,
        { tree := ⟨[["pages"]], [(["a.mustache", "pages"], "x".toUTF8)]⟩
          location := ["pages"]
          cache := [("a", ⟨[.text "x"]⟩)] }) := by
    with_unfolding_all rfl
  exact (snapshots_of_run rfl <|
    Operation.mapM_cons_apply hget <| Operation.mapM_cons_apply hwrite <|
    Operation.mapM_cons_apply (hremembered _) <| Operation.mapM_cons_apply (hclear _) <|
    Operation.mapM_cons_apply hread rfl).1

end Folder

end Mustache
