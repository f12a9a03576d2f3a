import Mustache.Proofs.Nesting

/-!
# The First Offence

What keeps a stream of tokens from being a template. A closing tag may be out
of place, the text may end inside a section, and a tag may be unreadable in the
first place. Of several offences the first one counts, and the sections inside
of which it stands make no difference to how it is reported.

A text without offence need not be a template for all that. The byte offset at
which the body of a section stops is computed from the length of the opening
delimiter of its closing tag, and it can lie inside a character. Such a body
cannot be cut out, and there compiling breaks off: it reports no error, neither
this one nor any that would have come later.

## Main definitions

* `openNames`: The names of the sections that tokens leave open.
* `Stream.IsSplit`: A body that would be cut inside a character.
* `Stream.Offence`: The first offence of a stream.

## Theorems

* `Nesting.openNames_run`: A run keeps track of the open names.
* `Nesting.run_error_cases`: A run fails at a closing tag.
* `Stream.assemble_eq_illFormed_iff`: The error of a stream is its first offence.
* `Stream.assemble_eq_panic_iff`: Running a stream breaks off at a split body.
* `Stream.exists_assemble_eq_ok_iff`: A stream without either is well nested.
* `Template.compile_refines_stack_machine`: Compiling a text is running its
  tokens.
-/

namespace Mustache

open Text

/-- The names of the sections that are open after tokens, innermost first, if
    every closing tag repeats the name of the innermost open section. -/
def openNames (names : List String) : List Token → Option (List String)
  | [] => some names
  | .opening _ name _ _ :: tokens => openNames (name :: names) tokens
  | .closing name _ _ :: tokens =>
    if names.head? = some name then openNames names.tail tokens else none
  | .text _ :: tokens => openNames names tokens
  | .value _ _ :: tokens => openNames names tokens
  | .reference _ :: tokens => openNames names tokens

/-- Tokens in a row open and close names one after the other. -/
theorem openNames_append (names : List String) (front back : List Token) :
    openNames names (front ++ back) =
      (openNames names front).bind fun names => openNames names back := by
  induction front generalizing names with
  | nil => rfl
  | cons token front ih =>
      cases token with
      | text content => exact ih names
      | value name isEscaped => exact ih names
      | reference r => exact ih names
      | opening kind name start delimiters => exact ih (name :: names)
      | closing name stop offset =>
          rw [List.cons_append, openNames, openNames]
          by_cases hname : names.head? = some name
          · rw [if_pos hname, if_pos hname]
            exact ih names.tail
          · rw [if_neg hname, if_neg hname, Option.bind_none]

/-- The names of the open sections, innermost first. -/
def Nesting.names (nesting : Nesting) : List String :=
  nesting.frames.map Frame.name

section

variable {source : List Char} {options : Options}

/-- A closing tag fails because of its name, or because of the body it ends. -/
theorem Nesting.close_error_cases {nesting : Nesting} {name : String} {stop offset : Nat}
    {failure : Failure} (h : nesting.close source options name stop offset = .error failure) :
    (nesting.enclosing ≠ some name ∧
      failure = .illFormed ⟨.unexpectedEndOfSection name, offset⟩) ∨
    (∃ frame frames, nesting.frames = frame :: frames ∧ frame.name = name ∧
      frame.close? source options nesting.segments stop = none ∧
      failure = .panic .splitCharacter) := by
  -- The name is looked at first, and the body is only cut out if it is right.
  by_cases hname : nesting.enclosing = some name
  · rcases nesting with ⟨_ | ⟨frame, frames⟩, segments⟩
    · simp only [enclosing, List.head?_nil, Option.map_none, reduceCtorEq] at hname
    · simp only [enclosing, List.head?_cons, Option.map_some, Option.some.injEq] at hname
      simp only [close, if_pos hname] at h
      cases hclose : frame.close? source options segments stop with
      | none =>
          rw [hclose] at h
          exact Or.inr ⟨frame, frames, rfl, hname, hclose, (Except.error.inj h).symm⟩
      | some segment =>
          rw [hclose] at h
          simp only [reduceCtorEq] at h
  · rw [close_of_ne stop offset hname] at h
    exact Or.inl ⟨hname, (Except.error.inj h).symm⟩

/-- A closing tag that is taken ends the innermost section. -/
theorem Nesting.close_eq_ok {nesting next : Nesting} {name : String} {stop offset : Nat}
    (h : nesting.close source options name stop offset = .ok next) :
    ∃ frame frames segment, nesting.frames = frame :: frames ∧ frame.name = name ∧
      frame.close? source options nesting.segments stop = some segment ∧
      next = ⟨frames, frame.outer ++ [segment]⟩ := by
  rcases nesting with ⟨_ | ⟨frame, frames⟩, segments⟩
  · simp only [close, reduceCtorEq] at h
  · simp only [close] at h
    by_cases hname : frame.name = name
    · rw [if_pos hname] at h
      cases hclose : frame.close? source options segments stop with
      | none =>
          rw [hclose] at h
          simp only [reduceCtorEq] at h
      | some segment =>
          rw [hclose] at h
          exact ⟨frame, frames, segment, rfl, hname, hclose, (Except.ok.inj h).symm⟩
    · rw [if_neg hname] at h
      simp only [reduceCtorEq] at h

/-- A run that does not fail has a first step that does not. -/
theorem Nesting.run_cons_eq_ok {nesting last : Nesting} {token : Token} {tokens : List Token}
    (h : nesting.run source options (token :: tokens) = .ok last) :
    ∃ next, nesting.step source options token = .ok next ∧
      next.run source options tokens = .ok last := by
  rw [run] at h
  cases hstep : nesting.step source options token with
  | error failure =>
      rw [hstep] at h
      simp only [reduceCtorEq] at h
  | ok next =>
      rw [hstep] at h
      exact ⟨next, rfl, h⟩

theorem Nesting.names_of_close {nesting next : Nesting} {name : String} {stop offset : Nat}
    (h : nesting.close source options name stop offset = .ok next) :
    nesting.names = name :: next.names := by
  rcases close_eq_ok h with ⟨frame, frames, segment, hframes, hname, _, hnext⟩
  rw [names, hframes, List.map_cons, hname, hnext]
  rfl

/-- A run keeps track of the open names. -/
theorem Nesting.openNames_run {nesting last : Nesting} {tokens : List Token}
    (h : nesting.run source options tokens = .ok last) :
    openNames nesting.names tokens = some last.names := by
  induction tokens generalizing nesting with
  | nil =>
      rw [run, Except.ok.injEq] at h
      rw [openNames, h]
  | cons token tokens ih =>
      rcases run_cons_eq_ok h with ⟨next, hstep, hrun⟩
      have hnext := ih hrun
      -- Only the tags around a section change what is open.
      cases token with
      | text content =>
          rw [← Except.ok.inj hstep] at hnext
          exact hnext
      | value name isEscaped =>
          rw [← Except.ok.inj hstep] at hnext
          exact hnext
      | reference r =>
          rw [← Except.ok.inj hstep] at hnext
          exact hnext
      | opening kind name start delimiters =>
          rw [← Except.ok.inj hstep] at hnext
          exact hnext
      | closing name stop offset =>
          rw [names_of_close hstep, openNames, List.head?_cons, if_pos rfl]
          exact hnext

/-- A run that fails does so at a closing tag, with the failure of that tag. -/
theorem Nesting.run_error_cases {nesting : Nesting} {tokens : List Token} {failure : Failure}
    (h : nesting.run source options tokens = .error failure) :
    ∃ front name stop offset back last,
      tokens = front ++ .closing name stop offset :: back ∧
      nesting.run source options front = .ok last ∧
      last.close source options name stop offset = .error failure := by
  -- The first token fails, or a later one does after it.
  induction tokens generalizing nesting with
  | nil => simp only [run, reduceCtorEq] at h
  | cons token tokens ih =>
      simp only [run] at h
      cases hstep : nesting.step source options token with
      | error failure' =>
          rw [hstep, Except.error.injEq] at h
          -- No other token has a step that fails.
          cases token with
          | closing name stop offset =>
              refine ⟨[], name, stop, offset, tokens, nesting, rfl, rfl, ?_⟩
              rw [← h]
              exact hstep
          | text content => simp only [step, reduceCtorEq] at hstep
          | value name isEscaped => simp only [step, reduceCtorEq] at hstep
          | reference r => simp only [step, reduceCtorEq] at hstep
          | opening kind name start delimiters => simp only [step, reduceCtorEq] at hstep
      | ok next =>
          rw [hstep] at h
          rcases ih h with ⟨front, name, stop, offset, back, last, heq, hrun, hclose⟩
          refine ⟨token :: front, name, stop, offset, back, last, by rw [heq]; rfl, ?_, hclose⟩
          simp only [run, hstep, hrun]

/-- A closing tag that fails after a run that does not makes the whole run
    fail. -/
theorem Nesting.run_eq_error {nesting last : Nesting} {front back : List Token} {name : String}
    {stop offset : Nat} {failure : Failure}
    (hrun : nesting.run source options front = .ok last)
    (hclose : last.close source options name stop offset = .error failure) :
    nesting.run source options (front ++ .closing name stop offset :: back) = .error failure := by
  simp only [run_append, hrun, run, step, hclose]

end

namespace Cursor

/-- A tag with content is made of the content. -/
theorem contentTag_eq_ok {c after : Cursor} {mark : List Char} {make : List Char → Cursor → Tag}
    {tag : Tag} (h : c.contentTag mark make = .ok (tag, after)) :
    ∃ content, c.content mark = .ok (content, after) ∧ tag = make content after := by
  simp only [contentTag] at h
  cases hcontent : c.content mark with
  | error error => simp only [hcontent, reduceCtorEq] at h
  | ok result =>
      simp only [hcontent, Except.ok.injEq, Prod.mk.injEq] at h
      exact ⟨result.1, by rw [← h.2], by rw [← h.1, h.2]⟩

/-- A comment opens nothing. -/
theorem commentTag_ne_opening {c after : Cursor} {kind : Opening} {name : String} :
    c.commentTag ≠ .ok (.opening kind name, after) := by
  intro h
  unfold commentTag at h
  dsimp only at h
  split at h
  · simp only [Except.ok.injEq, Prod.mk.injEq, reduceCtorEq, false_and] at h
  · simp only [reduceCtorEq] at h

/-- Nor does a delimiter tag. -/
theorem delimitersTag_ne_opening {c after : Cursor} {kind : Opening} {name : String} :
    c.delimitersTag ≠ .ok (.opening kind name, after) := by
  intro h
  unfold delimitersTag at h
  split at h
  · simp only [reduceCtorEq] at h
  · split at h
    · simp only [reduceCtorEq] at h
    · simp only [Except.ok.injEq, Prod.mk.injEq, reduceCtorEq, false_and] at h

/-- The closing tag of a parent has to repeat the name of its reference. -/
theorem name_eq_of_tag {c after : Cursor} {reference : Reference} {name : String}
    (h : c.tag = .ok (.opening (.parent reference) name, after)) :
    ∃ content indent, reference = .ofContent content indent ∧ name = reference.name := by
  unfold Cursor.tag at h
  dsimp only at h
  split at h
  case h_1 => simp only [reduceCtorEq] at h
  case h_2 sigil inner hnext =>
    split at h
    case h_2 => exact absurd h commentTag_ne_opening
    case h_3 => exact absurd h delimitersTag_ne_opening
    case h_9 =>
      rcases contentTag_eq_ok h with ⟨content, _, htag⟩
      simp only [Tag.opening.injEq, Opening.parent.injEq] at htag
      exact ⟨content, after.lead, htag.1, by rw [htag.1, htag.2]⟩
    -- The other tags open no parent.
    all_goals
      rcases contentTag_eq_ok h with ⟨content, _, htag⟩
      simp only [Tag.opening.injEq, reduceCtorEq, false_and] at htag

/-- So the token of a parent has the name of its reference. -/
theorem name_eq_of_mem_stream {c : Cursor} {reference : Reference} {name : String} {start : Nat}
    {delimiters : Delimiters}
    (h : .opening (.parent reference) name start delimiters ∈ c.stream.tokens) :
    ∃ content indent, reference = .ofContent content indent ∧ name = reference.name := by
  rcases mem_stream h with ⟨content, hcontent⟩ | ⟨opened, tag, after, _, htag, hmem⟩
  · simp only [reduceCtorEq] at hcontent
  · rcases tag with (_ | _ | _ | _) | ⟨kind, name'⟩ | name'
    case opening =>
      simp only [Tag.tokens, List.mem_singleton, Token.opening.injEq] at hmem
      rw [← hmem.1, ← hmem.2.1] at htag
      exact name_eq_of_tag htag
    all_goals
      simp only [Tag.tokens, List.mem_singleton, List.not_mem_nil, reduceCtorEq] at hmem

end Cursor

namespace Stream

/-- In turn a closing tag closes a section whose body cannot be cut out of the
    text. -/
def IsSplit (source : List Char) (options : Options) (stream : Stream) : Prop :=
  ∃ front name stop offset back frame frames segments,
    stream.tokens = front ++ .closing name stop offset :: back ∧
    Nesting.empty.run source options front = .ok ⟨frame :: frames, segments⟩ ∧
    frame.name = name ∧ frame.close? source options segments stop = none

/-- The first offence of a stream and the error it is reported with. Whatever
    comes before it is in order. -/
inductive Offence (source : List Char) (options : Options) (stream : Stream) : ParseError → Prop
  /-- A tag cannot be read. -/
  | unreadable {last : Nesting} {error : ParseError}
      (hrun : Nesting.empty.run source options stream.tokens = .ok last)
      (hend : stream.ending = .failure error) : Offence source options stream error
  /-- The text ends inside a section. -/
  | unclosed {last : Nesting} {offset : Nat}
      (hrun : Nesting.empty.run source options stream.tokens = .ok last)
      (hend : stream.ending = .endOfText offset) (hopen : last.names ≠ []) :
      Offence source options stream ⟨.unexpectedEndOfInput, offset⟩
  /-- A closing tag names another section than the innermost one, or there is
      none to close. -/
  | unmatched {front back : List Token} {name : String} {stop offset : Nat} {last : Nesting}
      (htokens : stream.tokens = front ++ .closing name stop offset :: back)
      (hrun : Nesting.empty.run source options front = .ok last)
      (hname : last.names.head? ≠ some name) :
      Offence source options stream ⟨.unexpectedEndOfSection name, offset⟩

variable {source : List Char} {options : Options} {stream : Stream}

theorem assemble_of_run_error {failure : Failure}
    (h : Nesting.empty.run source options stream.tokens = .error failure) :
    stream.assemble source options .empty = .error failure := by
  rw [assemble, h]

theorem assemble_of_run_ok {last : Nesting}
    (h : Nesting.empty.run source options stream.tokens = .ok last) :
    stream.assemble source options .empty = last.finish stream.ending := by
  rw [assemble, h]

/-- A stream that stands for no segments has an offence or a split body. -/
theorem assemble_error_cases {failure : Failure}
    (h : stream.assemble source options .empty = .error failure) :
    (∃ error, failure = .illFormed error ∧ stream.Offence source options error) ∨
      (failure = .panic .splitCharacter ∧ stream.IsSplit source options) := by
  -- Either a closing tag stops the run, or the run ends and the stream does so badly.
  cases hrun : Nesting.empty.run source options stream.tokens with
  | error failure' =>
      rw [assemble_of_run_error hrun, Except.error.injEq] at h
      rw [h] at hrun
      rcases Nesting.run_error_cases hrun with
        ⟨front, name, stop, offset, back, last, htokens, hfront, hclose⟩
      rcases Nesting.close_error_cases hclose with
        ⟨hname, rfl⟩ | ⟨frame, frames, hframes, hname, hnone, rfl⟩
      · refine Or.inl ⟨_, rfl, .unmatched htokens hfront ?_⟩
        rw [Nesting.names, List.head?_map]
        exact hname
      · rcases last with ⟨lastFrames, segments⟩
        rw [show lastFrames = frame :: frames from hframes] at hfront
        exact Or.inr ⟨rfl, front, name, stop, offset, back, frame, frames, segments, htokens,
          hfront, hname, hnone⟩
  | ok last =>
      rw [assemble_of_run_ok hrun] at h
      cases hend : stream.ending with
      | failure error =>
          rw [hend, Nesting.finish, Except.error.injEq] at h
          exact Or.inl ⟨error, h.symm, .unreadable hrun hend⟩
      | endOfText offset =>
          rw [hend, Nesting.finish] at h
          by_cases hopen : last.frames = []
          · rw [if_pos hopen] at h
            simp only [reduceCtorEq] at h
          · rw [if_neg hopen, Except.error.injEq] at h
            -- Frames are left exactly if names are.
            refine Or.inl ⟨_, h.symm, .unclosed hrun hend ?_⟩
            rw [Nesting.names, ne_eq, List.map_eq_nil_iff]
            exact hopen

/-- A stream with an offence is reported with it. -/
theorem Offence.assemble_eq {error : ParseError} (h : stream.Offence source options error) :
    stream.assemble source options .empty = .error (.illFormed error) := by
  -- In each case the run up to the offence is known.
  cases h with
  | unreadable hrun hend => rw [assemble_of_run_ok hrun, hend, Nesting.finish]
  | unclosed hrun hend hopen =>
      rw [Nesting.names, ne_eq, List.map_eq_nil_iff] at hopen
      rw [assemble_of_run_ok hrun, hend, Nesting.finish, if_neg hopen]
  | unmatched htokens hrun hname =>
      refine assemble_of_run_error ?_
      rw [htokens]
      refine Nesting.run_eq_error hrun (Nesting.close_of_ne _ _ ?_)
      rw [Nesting.enclosing, ← List.head?_map]
      exact hname

/-- A stream with a body that cannot be cut out breaks off. -/
theorem IsSplit.assemble_eq (h : stream.IsSplit source options) :
    stream.assemble source options .empty = .error (.panic .splitCharacter) := by
  rcases h with ⟨front, name, stop, offset, back, frame, frames, segments, htokens, hrun, hname,
    hnone⟩
  refine assemble_of_run_error ?_
  rw [htokens]
  exact Nesting.run_eq_error hrun (by simp only [Nesting.close, if_pos hname, hnone])

/-- The error of a stream is that of its first offence. -/
theorem assemble_eq_illFormed_iff (error : ParseError) :
    stream.assemble source options .empty = .error (.illFormed error) ↔
      stream.Offence source options error := by
  refine ⟨fun h => ?_, Offence.assemble_eq⟩
  rcases assemble_error_cases h with ⟨error', heq, hoffence⟩ | ⟨heq, -⟩
  · rw [Failure.illFormed.inj heq]
    exact hoffence
  · simp only [reduceCtorEq] at heq

/-- Running a stream breaks off exactly at a body that cannot be cut out. -/
theorem assemble_eq_panic_iff (panic : Panic) :
    stream.assemble source options .empty = .error (.panic panic) ↔
      stream.IsSplit source options := by
  refine ⟨fun h => ?_, fun h => h.assemble_eq⟩
  rcases assemble_error_cases h with ⟨error, heq, -⟩ | ⟨-, hsplit⟩
  · simp only [reduceCtorEq] at heq
  · exact hsplit

/-- A stream stands for segments exactly when it ends with the text, its tags
    are well nested, and no body is cut inside a character. -/
theorem exists_assemble_eq_ok_iff :
    (∃ segments, stream.assemble source options .empty = .ok segments) ↔
      (∃ offset, stream.ending = .endOfText offset) ∧ openNames [] stream.tokens = some [] ∧
        ¬ stream.IsSplit source options := by
  constructor
  · rintro ⟨segments, h⟩
    have hsplit : ¬ stream.IsSplit source options := by
      intro hsplit
      rw [hsplit.assemble_eq] at h
      simp only [reduceCtorEq] at h
    -- Of the ways to end, all others contradict that there are segments.
    cases hrun : Nesting.empty.run source options stream.tokens with
    | error failure =>
        rw [assemble_of_run_error hrun] at h
        simp only [reduceCtorEq] at h
    | ok last =>
        rw [assemble_of_run_ok hrun] at h
        cases hend : stream.ending with
        | failure error =>
            rw [hend, Nesting.finish] at h
            simp only [reduceCtorEq] at h
        | endOfText offset =>
            rw [hend, Nesting.finish] at h
            by_cases hopen : last.frames = []
            · refine ⟨⟨offset, rfl⟩, ?_, hsplit⟩
              have hnames := Nesting.openNames_run hrun
              rw [show last.names = [] by rw [Nesting.names, hopen, List.map_nil]] at hnames
              exact hnames
            · rw [if_neg hopen] at h
              simp only [reduceCtorEq] at h
  · rintro ⟨⟨offset, hend⟩, hnames, hsplit⟩
    cases h : stream.assemble source options .empty with
    | ok segments => exact ⟨segments, rfl⟩
    | error failure =>
        exfalso
        rcases assemble_error_cases h with ⟨error, -, hoffence⟩ | ⟨-, hsplit'⟩
        · -- Every kind of offence contradicts one of the first two conditions.
          cases hoffence with
          | unreadable hrun hend' =>
              rw [hend] at hend'
              simp only [reduceCtorEq] at hend'
          | unclosed hrun hend' hopen =>
              -- The run left the names open that the tokens are said to close.
              have hlast := Nesting.openNames_run hrun
              rw [show Nesting.empty.names = [] from rfl, hnames, Option.some.injEq] at hlast
              exact hopen hlast.symm
          | unmatched htokens hrun hname =>
              -- The names after the tokens before it do not start with its own.
              have hfront := Nesting.openNames_run hrun
              rw [show Nesting.empty.names = [] from rfl] at hfront
              rw [htokens, openNames_append, hfront, Option.bind_some, openNames,
                if_neg hname] at hnames
              simp only [reduceCtorEq] at hnames
        · exact hsplit hsplit'

end Stream

namespace Template

/-- The tokens of a text. -/
def stream (source : String) : Stream :=
  (Cursor.ofText .standard source.toList).stream

/-- A text stands for what is made of its tokens, under any delimiters. -/
theorem compileWith_eq_assemble (d : Delimiters) (source : String) (options : Options) :
    compileWith d options source =
      ((Cursor.ofText d source.toList).stream.assemble source.toList options .empty).map
        Template.mk := by
  rw [Cursor.assemble_stream none _ _ rfl, compileWith]
  cases (Cursor.ofText d source.toList).segments source.toList options none with
  | error failure => rfl
  | ok content => rfl

/-- A text stands for what is made of its tokens. -/
theorem compile_eq_assemble (source : String) (options : Options) :
    compile source options =
      ((stream source).assemble source.toList options .empty).map Template.mk :=
  compileWith_eq_assemble .standard source options

/-- Compiling a text reports the first offence of its tokens. -/
theorem compile_eq_illFormed_iff (source : String) (options : Options) (error : ParseError) :
    compile source options = .error (.illFormed error) ↔
      (stream source).Offence source.toList options error := by
  rw [← Stream.assemble_eq_illFormed_iff, compile_eq_assemble]
  cases (stream source).assemble source.toList options .empty with
  | error failure => simp only [Except.map, Except.error.injEq]
  | ok segments => simp only [Except.map, reduceCtorEq]

/-- Compiling a text breaks off exactly at a body that cannot be cut out. -/
theorem compile_eq_panic_iff (source : String) (options : Options) (panic : Panic) :
    compile source options = .error (.panic panic) ↔
      (stream source).IsSplit source.toList options := by
  rw [← Stream.assemble_eq_panic_iff panic, compile_eq_assemble]
  cases (stream source).assemble source.toList options .empty with
  | error failure => simp only [Except.map, Except.error.injEq]
  | ok segments => simp only [Except.map, reduceCtorEq]

/-- A text that compiles has a stream that ends with it, and the tokens leave no
    section open. -/
theorem run_of_compileWith {d : Delimiters} {source : String} {options : Options}
    {template : Template} (h : compileWith d options source = .ok template) :
    (∃ offset, (Cursor.ofText d source.toList).stream.ending = .endOfText offset) ∧
      Nesting.empty.run source.toList options (Cursor.ofText d source.toList).stream.tokens =
        .ok ⟨[], template.segments⟩ := by
  rw [compileWith_eq_assemble, Stream.assemble] at h
  generalize (Cursor.ofText d source.toList).stream = stream at h
  rcases stream with ⟨tokens, ending⟩
  dsimp only at h
  cases hrun : Nesting.empty.run source.toList options tokens with
  | error failure =>
      rw [hrun] at h
      simp only [Except.map, reduceCtorEq] at h
  | ok last =>
      rw [hrun] at h
      -- No frame may be left at the end, and the stream has to end with the text.
      rcases last with ⟨_ | ⟨frame, frames⟩, segments⟩
      · cases ending with
        | failure error => simp only [Nesting.finish, Except.map, reduceCtorEq] at h
        | endOfText offset =>
            simp only [Nesting.finish, if_true, Except.map, Except.ok.injEq] at h
            rw [← h]
            exact ⟨⟨offset, rfl⟩, rfl⟩
      · cases ending with
        | failure error => simp only [Nesting.finish, Except.map, reduceCtorEq] at h
        | endOfText offset =>
            simp only [Nesting.finish, List.cons_ne_nil, if_false, Except.map, reduceCtorEq] at h

/-- Compiling a text is running a stack machine on its tokens. It succeeds
    exactly when all tags can be read, the closing tags repeat the names of the
    sections they close, no section stays open, and no body is cut inside a
    character. It reports the first offence, unless such a body comes before
    it: there compiling breaks off. The closing tag of a parent has to repeat
    the name of its reference, which is the content of its tag without the `*`
    of a dynamic one and the blanks after that. -/
theorem compile_refines_stack_machine (source : String) (options : Options) :
    compile source options =
        ((stream source).assemble source.toList options .empty).map Template.mk ∧
      ((∃ template, compile source options = .ok template) ↔
        (∃ offset, (stream source).ending = .endOfText offset) ∧
          openNames [] (stream source).tokens = some [] ∧
          ¬ (stream source).IsSplit source.toList options) ∧
      (∀ error, compile source options = .error (.illFormed error) ↔
        (stream source).Offence source.toList options error) ∧
      (∀ panic, compile source options = .error (.panic panic) ↔
        (stream source).IsSplit source.toList options) ∧
      ∀ reference name start delimiters,
        .opening (.parent reference) name start delimiters ∈ (stream source).tokens →
          ∃ content indent, reference = .ofContent content indent ∧ name = reference.name := by
  refine ⟨compile_eq_assemble source options, ?_, compile_eq_illFormed_iff source options,
    compile_eq_panic_iff source options, ?_⟩
  · rw [← Stream.exists_assemble_eq_ok_iff, compile_eq_assemble]
    cases (stream source).assemble source.toList options .empty with
    | error failure => simp only [Except.map, reduceCtorEq, exists_false]
    | ok segments => exact ⟨fun _ => ⟨segments, rfl⟩, fun _ => ⟨⟨segments⟩, rfl⟩⟩
  · intro reference name start delimiters hmem
    exact Cursor.name_eq_of_mem_stream hmem

end Template

end Mustache
