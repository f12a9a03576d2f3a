import Mustache.Tag

/-!
# Templates

The tree of segments that a text stands for. Reading goes from tag to tag: the
text before a tag and the tag itself are segments of the section that is open,
and a tag that opens something reads the segments up to its closing tag before
it goes on. The delimiters belong to the cursor, so a change inside a section
stays in force after it.

A text that is no template is told by an error. Where the body of a section
cannot be cut out of the text, compiling breaks off instead.

## Main definitions

* `Content`: The segments up to the closing tag, and the place after it.
* `Cursor.segments`: Reads the segments of a section, or of a whole text.
* `Template`: A compiled text.
* `Template.compile`: The template of a text.

## Theorems

* `Cursor.remaining_tag_of_found`: Every tag leaves less to read.
* `Cursor.segments_of_not_found`, `Cursor.segments_of_error`,
  `Cursor.segments_of_closing`, `Cursor.segments_of_single`,
  `Cursor.segments_of_opening`: What reading does with what it finds next.
-/

namespace Mustache

open Text

/-- The segments read from the place `c` up to the closing tag of a section, or
    up to the end of the text. -/
structure Content (c : Cursor) where
  segments : List Segment
  /-- The byte offset at which the body made of these segments ends. -/
  bodyEnd : Nat
  /-- The place after the closing tag. -/
  rest : Cursor
  rest_le : rest.remaining ≤ c.remaining

/-- The segment of a text, if there is any text. -/
def textSegments : List Char → List Segment
  | [] => []
  | c :: text => [.text (String.ofList (c :: text))]

/-- The segment of a single tag, if it makes one. -/
def Single.segments : Single → List Segment
  | comment => []
  | delimiters _ => []
  | value name isEscaped => [.value name isEscaped]
  | reference r => [.reference r]

namespace Cursor

/-- When a tag was opened and read, there is less to read. -/
theorem remaining_tag_of_found {c after : Cursor} {word : List Char} {tag : Tag}
    (found : (c.readUntil word).found = true)
    (h : (c.readUntil word).rest.tag = .ok (tag, after)) : after.remaining < c.remaining :=
  Nat.lt_of_le_of_lt (remaining_tag h) (remaining_readUntil_of_found found)

/-- The section whose opening tag ends at the cursor and whose content ends at
    the byte offset `stop` of the text `source`. -/
def sectionHead? (c : Cursor) (source : List Char) (options : Options) (name : String)
    (stop : Nat) : Option SectionHead :=
  let span : Span := ⟨c.bodyStart, max c.bodyStart stop⟩
  (slice? span.start span.stop source).map fun body =>
    { name := name, isIterationCheck := options.iterationCheck, delimiters := c.delimiters,
      span := span, body := String.ofList body }

/-- The segment that a tag opened, given the content up to its closing tag. The
    opening tag ends at the cursor. -/
def openedSegment? (c : Cursor) (source : List Char) (options : Options) (kind : Opening)
    (name : String) (content : Content c) : Option Segment :=
  match kind with
  | .sect => (c.sectionHead? source options name content.bodyEnd).map (.sect · content.segments)
  | .inverted => some (.inverted name content.segments)
  | .block => some (.block (.mk name content.segments))
  | .parent reference => some (.parent reference (Segment.blocks content.segments))

/-- The segments from the cursor up to the closing tag of the section
    `enclosing`, or up to the end of the text when no section is open. The
    whole text is `source`. -/
def segments (source : List Char) (options : Options) (enclosing : Option String) (c : Cursor) :
    Except Failure (Content c) :=
  let reading := c.readUntil c.delimiters.opening
  if found : reading.found = true then
    match htag : reading.rest.tag with
    | .error error => .error (.illFormed error)
    | .ok (.closing name, after) =>
      if enclosing = some name then
        .ok ⟨textSegments reading.text, after.bodyEnd reading.rest.tagStart, after,
          Nat.le_of_lt (remaining_tag_of_found found htag)⟩
      else .error (.illFormed ⟨.unexpectedEndOfSection name, after.pos⟩)
    | .ok (.single tag, after) =>
      have hafter := remaining_tag_of_found found htag
      match segments source options enclosing after with
      | .error failure => .error failure
      | .ok more =>
        .ok ⟨textSegments reading.text ++ (tag.segments ++ more.segments), more.bodyEnd, more.rest,
          Nat.le_trans more.rest_le (Nat.le_of_lt hafter)⟩
    | .ok (.opening kind name, after) =>
      have hafter := remaining_tag_of_found found htag
      match segments source options (some name) after with
      | .error failure => .error failure
      | .ok content =>
        have hcontent := Nat.lt_of_le_of_lt content.rest_le hafter
        match after.openedSegment? source options kind name content with
        | none => .error (.panic .splitCharacter)
        | some segment =>
          match segments source options enclosing content.rest with
          | .error failure => .error failure
          | .ok more =>
            .ok ⟨textSegments reading.text ++ (segment :: more.segments), more.bodyEnd, more.rest,
              Nat.le_trans more.rest_le (Nat.le_of_lt hcontent)⟩
  else
    match enclosing with
    | none =>
      .ok ⟨textSegments reading.text, reading.rest.pos, reading.rest, remaining_readUntil _ c⟩
    | some _ => .error (.illFormed ⟨.unexpectedEndOfInput, reading.rest.pos⟩)
termination_by c.remaining
decreasing_by all_goals assumption

section

variable {source : List Char} {options : Options} {enclosing : Option String} {c after : Cursor}

/-- The text ends without another tag, which is in order when no section is
    open. -/
theorem segments_of_not_found (found : ¬(c.readUntil c.delimiters.opening).found = true) :
    c.segments source options enclosing =
      match enclosing with
      | none => .ok ⟨textSegments (c.readUntil c.delimiters.opening).text,
          (c.readUntil c.delimiters.opening).rest.pos, (c.readUntil c.delimiters.opening).rest,
          remaining_readUntil _ c⟩
      | some _ =>
        .error (.illFormed
          ⟨.unexpectedEndOfInput, (c.readUntil c.delimiters.opening).rest.pos⟩) := by
  rw [segments.eq_def]
  exact dif_neg found

theorem segments_of_error {error : ParseError}
    (found : (c.readUntil c.delimiters.opening).found = true)
    (htag : (c.readUntil c.delimiters.opening).rest.tag = .error error) :
    c.segments source options enclosing = .error (.illFormed error) := by
  rw [segments.eq_def]
  dsimp only
  rw [dif_pos found]
  split
  all_goals cases htag.symm.trans ‹_ = _›
  rfl

theorem segments_of_closing {name : String}
    (found : (c.readUntil c.delimiters.opening).found = true)
    (htag : (c.readUntil c.delimiters.opening).rest.tag = .ok (.closing name, after)) :
    c.segments source options enclosing =
      if enclosing = some name then
        .ok ⟨textSegments (c.readUntil c.delimiters.opening).text,
          after.bodyEnd (c.readUntil c.delimiters.opening).rest.tagStart, after,
          Nat.le_of_lt (remaining_tag_of_found found htag)⟩
      else .error (.illFormed ⟨.unexpectedEndOfSection name, after.pos⟩) := by
  rw [segments.eq_def]
  dsimp only
  rw [dif_pos found]
  split
  all_goals cases htag.symm.trans ‹_ = _›
  rfl

theorem segments_of_single {tag : Single}
    (found : (c.readUntil c.delimiters.opening).found = true)
    (htag : (c.readUntil c.delimiters.opening).rest.tag = .ok (.single tag, after)) :
    c.segments source options enclosing =
      match after.segments source options enclosing with
      | .error failure => .error failure
      | .ok more =>
        .ok ⟨textSegments (c.readUntil c.delimiters.opening).text ++
            (tag.segments ++ more.segments), more.bodyEnd, more.rest,
          Nat.le_trans more.rest_le (Nat.le_of_lt (remaining_tag_of_found found htag))⟩ := by
  rw [segments.eq_def]
  dsimp only
  rw [dif_pos found]
  split
  all_goals cases htag.symm.trans ‹_ = _›
  rfl

/-- After an opening tag the section is read first, then its body is cut out of
    the text, and then the section around it goes on. -/
theorem segments_of_opening {kind : Opening} {name : String}
    (found : (c.readUntil c.delimiters.opening).found = true)
    (htag : (c.readUntil c.delimiters.opening).rest.tag = .ok (.opening kind name, after)) :
    c.segments source options enclosing =
      match after.segments source options (some name) with
      | .error failure => .error failure
      | .ok content =>
        match after.openedSegment? source options kind name content with
        | none => .error (.panic .splitCharacter)
        | some segment =>
          match content.rest.segments source options enclosing with
          | .error failure => .error failure
          | .ok more =>
            .ok ⟨textSegments (c.readUntil c.delimiters.opening).text ++
                (segment :: more.segments), more.bodyEnd, more.rest,
              Nat.le_trans more.rest_le (Nat.le_of_lt (Nat.lt_of_le_of_lt content.rest_le
                (remaining_tag_of_found found htag)))⟩ := by
  rw [segments.eq_def]
  dsimp only
  rw [dif_pos found]
  split
  all_goals cases htag.symm.trans ‹_ = _›
  rfl

end

end Cursor

/-- A compiled text. -/
structure Template where
  segments : List Segment

namespace Template

/-- The template that renders as nothing. -/
def empty : Template := ⟨[]⟩

/-- The template of a text in which tags are enclosed by `delimiters` at
    first. -/
def compileWith (delimiters : Delimiters) (options : Options) (source : String) :
    Except Failure Template :=
  let text := source.toList
  match (Cursor.ofText delimiters text).segments text options none with
  | .error failure => .error failure
  | .ok content => .ok ⟨content.segments⟩

/-- The template of a text. -/
def compile (source : String) (options : Options := {}) : Except Failure Template :=
  compileWith .standard options source

end Template

end Mustache
