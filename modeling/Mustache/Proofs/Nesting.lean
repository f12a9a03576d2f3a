import Mustache.Proofs.Stream

/-!
# Nesting of Sections

The tree of a template built from its stream of tokens, with a stack in place
of recursion. An opening tag puts aside what was read so far and a closing tag
takes it back, so the stack holds one frame for each section that is open.

## Main definitions

* `Frame`: A section that is open.
* `Nesting`: The open sections and the segments of the innermost one.
* `Nesting.step`, `Nesting.run`: What tokens do to a nesting.
* `Nesting.finish`: What the end of a stream makes of a nesting.
* `Stream.assemble`: The segments that a stream stands for.

## Theorems

* `Cursor.assemble_stream`: Reading a section is running its tokens.
-/

namespace Mustache

open Text

/-- A section that is open. -/
structure Frame where
  kind : Opening
  /-- The name that the closing tag has to repeat. -/
  name : String
  /-- The byte offset at which the body starts. -/
  start : Nat
  /-- The delimiters in force at the start of the body. -/
  delimiters : Delimiters
  /-- The segments that were read before the section in the one around it. -/
  outer : List Segment

/-- The sections that are open, innermost first, and the segments that were read
    in the innermost one. -/
structure Nesting where
  frames : List Frame
  segments : List Segment

/-- The segment of a section with the given children whose body stops at the
    byte offset `stop`, unless the body of a section proper would begin or end
    inside a character. Of the children of a parent only the blocks are kept. -/
def Frame.close? (source : List Char) (options : Options) (frame : Frame)
    (children : List Segment) (stop : Nat) : Option Segment :=
  match frame.kind with
  | .sect =>
    let span : Span := ⟨frame.start, max frame.start stop⟩
    (slice? span.start span.stop source).map fun body =>
      .sect { name := frame.name, isIterationCheck := options.iterationCheck,
              delimiters := frame.delimiters, span := span, body := String.ofList body } children
  | .inverted => some (.inverted frame.name children)
  | .block => some (.block (.mk frame.name children))
  | .parent reference => some (.parent reference (Segment.blocks children))

namespace Nesting

/-- Nothing was read and no section is open. -/
def empty : Nesting := ⟨[], []⟩

/-- The nesting after more segments of the innermost section. -/
def add (nesting : Nesting) (segments : List Segment) : Nesting :=
  { nesting with segments := nesting.segments ++ segments }

/-- The name of the innermost section, if one is open. -/
def enclosing (nesting : Nesting) : Option String :=
  nesting.frames.head?.map Frame.name

/-- The nesting after a closing tag, which has to repeat the name of the
    innermost section. Running breaks off if the section has no body. -/
def close (source : List Char) (options : Options) (nesting : Nesting) (name : String)
    (stop offset : Nat) : Except Failure Nesting :=
  match nesting.frames with
  | [] => .error (.illFormed ⟨.unexpectedEndOfSection name, offset⟩)
  | frame :: frames =>
    if frame.name = name then
      match frame.close? source options nesting.segments stop with
      | none => .error (.panic .splitCharacter)
      | some segment => .ok ⟨frames, frame.outer ++ [segment]⟩
    else .error (.illFormed ⟨.unexpectedEndOfSection name, offset⟩)

/-- The nesting after one token. -/
def step (source : List Char) (options : Options) (nesting : Nesting) :
    Token → Except Failure Nesting
  | .text content => .ok (nesting.add [.text content])
  | .value name isEscaped => .ok (nesting.add [.value name isEscaped])
  | .reference r => .ok (nesting.add [.reference r])
  | .opening kind name start delimiters =>
    .ok ⟨⟨kind, name, start, delimiters, nesting.segments⟩ :: nesting.frames, []⟩
  | .closing name stop offset => nesting.close source options name stop offset

/-- The nesting after tokens, up to the first one that is out of place. -/
def run (source : List Char) (options : Options) (nesting : Nesting) :
    List Token → Except Failure Nesting
  | [] => .ok nesting
  | token :: tokens =>
    match nesting.step source options token with
    | .error failure => .error failure
    | .ok next => run source options next tokens

/-- The segments at the end of a stream, where no section may be open. -/
def finish (nesting : Nesting) : Ending → Except Failure (List Segment)
  | .failure error => .error (.illFormed error)
  | .endOfText offset =>
    if nesting.frames = [] then .ok nesting.segments
    else .error (.illFormed ⟨.unexpectedEndOfInput, offset⟩)

end Nesting

/-- The segments that a stream stands for, read inside a nesting. -/
def Stream.assemble (source : List Char) (options : Options) (nesting : Nesting)
    (stream : Stream) : Except Failure (List Segment) :=
  match nesting.run source options stream.tokens with
  | .error failure => .error failure
  | .ok last => last.finish stream.ending

section

variable {source : List Char} {options : Options}

/-- Tokens in a row are run one part after the other. -/
theorem Nesting.run_append (nesting : Nesting) (front back : List Token) :
    nesting.run source options (front ++ back) =
      match nesting.run source options front with
      | .error failure => .error failure
      | .ok next => next.run source options back := by
  induction front generalizing nesting with
  | nil => rfl
  | cons token front ih =>
      simp only [List.cons_append, Nesting.run]
      cases nesting.step source options token with
      | error failure => rfl
      | ok next => exact ih next

/-- A text adds its segment. -/
theorem Nesting.run_textTokens (nesting : Nesting) (text : List Char) :
    nesting.run source options (textTokens text) = .ok (nesting.add (textSegments text)) := by
  cases text with
  | nil => simp only [textTokens, textSegments, Nesting.run, Nesting.add, List.append_nil]
  | cons c text => rfl

/-- A single tag adds its segment, if it has one. -/
theorem Nesting.run_single (nesting : Nesting) (opened after : Cursor) (tag : Single) :
    nesting.run source options ((Tag.single tag).tokens opened after) =
      .ok (nesting.add tag.segments) := by
  cases tag with
  | comment => simp only [Tag.tokens, Single.segments, Nesting.run, Nesting.add, List.append_nil]
  | delimiters new =>
      simp only [Tag.tokens, Single.segments, Nesting.run, Nesting.add, List.append_nil]
  | value name isEscaped => rfl
  | reference r => rfl

/-- Tokens in front of a stream are run first. -/
theorem Stream.assemble_prepend (nesting : Nesting) (tokens : List Token) (stream : Stream) :
    (stream.prepend tokens).assemble source options nesting =
      match nesting.run source options tokens with
      | .error failure => .error failure
      | .ok next => stream.assemble source options next := by
  simp only [Stream.assemble, Stream.prepend, Nesting.run_append]
  cases nesting.run source options tokens with
  | error failure => rfl
  | ok next => rfl

/-- Text before a stream is added to the nesting first. -/
theorem Stream.assemble_prepend_text (nesting : Nesting) (text : List Char) (tokens : List Token)
    (stream : Stream) :
    (stream.prepend (textTokens text ++ tokens)).assemble source options nesting =
      (stream.prepend tokens).assemble source options (nesting.add (textSegments text)) := by
  simp only [Stream.assemble_prepend, Nesting.run_append, Nesting.run_textTokens]

@[simp] theorem Nesting.enclosing_add (nesting : Nesting) (segments : List Segment) :
    (nesting.add segments).enclosing = nesting.enclosing := rfl

@[simp] theorem Nesting.add_add (nesting : Nesting) (front back : List Segment) :
    (nesting.add front).add back = nesting.add (front ++ back) := by
  simp only [Nesting.add, List.append_assoc]

/-- The segment of an opening tag depends on its frame alone. -/
theorem Cursor.openedSegment?_eq (after : Cursor) (kind : Opening) (name : String)
    (content : Content after) (outer : List Segment) :
    after.openedSegment? source options kind name content =
      Frame.close? source options ⟨kind, name, after.bodyStart, after.delimiters, outer⟩
        content.segments content.bodyEnd := by
  -- Only a section proper has a body that may be missing.
  cases kind with
  | sect =>
      simp only [Cursor.openedSegment?, Cursor.sectionHead?, Frame.close?, Option.map_map]
      rfl
  | inverted => rfl
  | block => rfl
  | parent reference => rfl

/-- What is left to do when the segments of the innermost section were read. -/
def Nesting.resume (source : List Char) (options : Options) (nesting : Nesting) {c : Cursor}
    (content : Content c) : Except Failure (List Segment) :=
  match nesting.frames with
  | [] => .ok (nesting.segments ++ content.segments)
  | frame :: frames =>
    match frame.close? source options (nesting.segments ++ content.segments) content.bodyEnd with
    | none => .error (.panic .splitCharacter)
    | some segment =>
      content.rest.stream.assemble source options ⟨frames, frame.outer ++ [segment]⟩

/-- A tag that was read is run after the text before it. -/
theorem Cursor.assemble_stream_of_tag {c after : Cursor} {tag : Tag} (nesting : Nesting)
    (found : (c.readUntil c.delimiters.opening).found = true)
    (h : (c.readUntil c.delimiters.opening).rest.tag = .ok (tag, after)) :
    c.stream.assemble source options nesting =
      (after.stream.prepend (tag.tokens (c.readUntil c.delimiters.opening).rest after)).assemble
        source options (nesting.add (textSegments (c.readUntil c.delimiters.opening).text)) := by
  rw [stream_of_tag found h, Stream.assemble_prepend_text]

theorem Stream.assemble_single (nesting : Nesting) (opened after : Cursor) (tag : Single) :
    (after.stream.prepend ((Tag.single tag).tokens opened after)).assemble source options nesting =
      after.stream.assemble source options (nesting.add tag.segments) := by
  rw [Stream.assemble_prepend, Nesting.run_single]

/-- An opening tag sets aside what is read so far. -/
theorem Stream.assemble_opening (nesting : Nesting) (opened after : Cursor) (kind : Opening)
    (name : String) :
    (after.stream.prepend ((Tag.opening kind name).tokens opened after)).assemble
        source options nesting =
      after.stream.assemble source options
        ⟨⟨kind, name, after.bodyStart, after.delimiters, nesting.segments⟩ ::
        nesting.frames, []⟩ := by
  rw [Stream.assemble_prepend]
  rfl

/-- A closing tag ends the innermost section, or the run. -/
theorem Stream.assemble_closing (nesting : Nesting) (opened after : Cursor) (name : String) :
    (after.stream.prepend ((Tag.closing name).tokens opened after)).assemble
        source options nesting =
      match nesting.close source options name (after.bodyEnd opened.tagStart) after.pos with
      | .error failure => .error failure
      | .ok next => after.stream.assemble source options next := by
  rw [Stream.assemble_prepend]
  simp only [Tag.tokens, Nesting.run, Nesting.step]
  cases nesting.close source options name (after.bodyEnd opened.tagStart) after.pos with
  | error failure => rfl
  | ok next => rfl

/-- A closing tag that does not name the innermost section is out of place. -/
theorem Nesting.close_of_ne {nesting : Nesting} {name : String} (stop offset : Nat)
    (h : nesting.enclosing ≠ some name) :
    nesting.close source options name stop offset =
      .error (.illFormed ⟨.unexpectedEndOfSection name, offset⟩) := by
  rcases nesting with ⟨_ | ⟨frame, frames⟩, segments⟩
  · rfl
  · have hname : frame.name ≠ name := by
      intro heq
      exact h (congrArg some heq)
    simp only [Nesting.close, if_neg hname]

/-- When the segments of a section that was just opened were read, its segment
    is added to the section around it. -/
theorem Nesting.resume_opening (nesting : Nesting) {after : Cursor} (kind : Opening)
    (name : String) (content : Content after) :
    (⟨⟨kind, name, after.bodyStart, after.delimiters, nesting.segments⟩ :: nesting.frames, []⟩ :
        Nesting).resume source options content =
      match after.openedSegment? source options kind name content with
      | none => .error (.panic .splitCharacter)
      | some segment => content.rest.stream.assemble source options (nesting.add [segment]) := by
  rw [after.openedSegment?_eq kind name content nesting.segments]
  rfl

/-- Segments that were read are part of the content of the innermost section. -/
theorem Nesting.resume_add (nesting : Nesting) {c c' : Cursor} (front : List Segment)
    (content : Content c) (all : Content c') (hsegments : all.segments = front ++ content.segments)
    (hstop : all.bodyEnd = content.bodyEnd) (hrest : all.rest = content.rest) :
    (nesting.add front).resume source options content = nesting.resume source options all := by
  simp only [Nesting.resume, Nesting.add, hsegments, hstop, hrest, List.append_assoc]

/-- Reading the segments of a section and going on after its closing tag is the
    same as running its tokens, whatever sections are open around it. -/
theorem Cursor.assemble_stream (enclosing : Option String) (c : Cursor) (nesting : Nesting)
    (h : nesting.enclosing = enclosing) :
    c.stream.assemble source options nesting =
      match c.segments source options enclosing with
      | .error failure => .error failure
      | .ok content => nesting.resume source options content := by
  -- The induction is on the reading of the segments. It holds of every nesting,
  -- since a section is read in a nesting with one more frame.
  fun_induction Cursor.segments source options enclosing c generalizing nesting with
  | case1 enclosing c reading found error htag =>
      -- The tag cannot be read, so both stop.
      rw [stream_of_error found htag, Stream.assemble, Nesting.run_textTokens]
      rfl
  | case2 c reading found name after htag =>
      rw [assemble_stream_of_tag nesting found htag, Stream.assemble_closing]
      -- The name is the one to close, so there is a section to close.
      rcases nesting with ⟨_ | ⟨frame, frames⟩, segments⟩
      · simp only [Nesting.enclosing, List.head?_nil, Option.map_none, reduceCtorEq] at h
      · simp only [Nesting.enclosing, List.head?_cons, Option.map_some, Option.some.injEq] at h
        simp only [Nesting.close, Nesting.add, if_pos h, Nesting.resume]
        cases frame.close? source options (segments ++ textSegments reading.text)
            (after.bodyEnd reading.rest.tagStart) with
        | none => rfl
        | some segment => rfl
  | case3 enclosing c reading found name after htag hname =>
      -- A closing tag with another name is out of place in both.
      rw [assemble_stream_of_tag nesting found htag, Stream.assemble_closing,
        Nesting.close_of_ne _ _ (by rw [Nesting.enclosing_add, h]; exact hname)]
  | case4 enclosing c reading found tag after htag hafter failure hmore ih =>
      -- A tag without a section, before a failure and before more segments.
      rw [assemble_stream_of_tag nesting found htag, Stream.assemble_single, Nesting.add_add,
        ih (nesting.add _) h, hmore]
  | case5 enclosing c reading found tag after htag hafter more hmore ih =>
      rw [assemble_stream_of_tag nesting found htag, Stream.assemble_single, Nesting.add_add,
        ih (nesting.add _) h, hmore]
      exact Nesting.resume_add nesting _ more _ (List.append_assoc ..).symm rfl rfl
  | case6 enclosing c reading found kind name after htag hafter failure hcontent ih =>
      -- An opening tag, whose section is read in a nesting of its own. Reading
      -- fails inside the section, at its end or after it, or not at all.
      rw [assemble_stream_of_tag nesting found htag, Stream.assemble_opening, ih _ rfl, hcontent]
  | case7 enclosing c reading found kind name after htag hafter content hcontent hrest
    hsegment ih =>
      rw [assemble_stream_of_tag nesting found htag, Stream.assemble_opening, ih _ rfl, hcontent]
      simp only [Nesting.resume_opening, hsegment]
  | case8 enclosing c reading found kind name after htag hafter content hcontent hrest segment
      hsegment failure hmore ih ihrest =>
      rw [assemble_stream_of_tag nesting found htag, Stream.assemble_opening, ih _ rfl, hcontent]
      simp only [Nesting.resume_opening, hsegment]
      rw [Nesting.add_add, ihrest (nesting.add _) h, hmore]
  | case9 enclosing c reading found kind name after htag hafter content hcontent hrest segment
      hsegment more hmore ih ihrest =>
      rw [assemble_stream_of_tag nesting found htag, Stream.assemble_opening, ih _ rfl, hcontent]
      simp only [Nesting.resume_opening, hsegment]
      rw [Nesting.add_add, ihrest (nesting.add _) h, hmore]
      exact Nesting.resume_add nesting _ more _ (List.append_cons ..) rfl rfl
  | case10 c reading found =>
      -- The text ends, which it may do only where no section is open.
      rw [stream_of_not_found (by simpa only [Bool.not_eq_true] using found), Stream.assemble,
        Nesting.run_textTokens]
      rcases nesting with ⟨_ | ⟨frame, frames⟩, segments⟩
      · rfl
      · simp only [Nesting.enclosing, List.head?_cons, Option.map_some, reduceCtorEq] at h
  | case11 c reading found name =>
      rw [stream_of_not_found (by simpa only [Bool.not_eq_true] using found), Stream.assemble,
        Nesting.run_textTokens]
      rcases nesting with ⟨_ | ⟨frame, frames⟩, segments⟩
      · simp only [Nesting.enclosing, List.head?_nil, Option.map_none, reduceCtorEq] at h
      · rfl

end

end Mustache
