import Mustache.Cursor
import Mustache.Error
import Mustache.Segment

/-!
# Tags

What stands between two delimiters. The first character that is not blank is
the sigil and tells the kind of the tag; without one of the known sigils the
tag is an escaped value.

Tags are read one at a time and without regard to the sections around them. A
tag is either single, such as a value or a comment, or opens something that a
later tag closes.

## Main definitions

* `Single`: A tag that needs no closing tag.
* `Opening`: What a tag opens.
* `Tag`: A tag of a template.
* `Cursor.tag`: The tag that starts at the cursor.

## Theorems

* `Cursor.remaining_tag`: Reading a tag leaves no more to read than before.
-/

namespace Mustache

open Text

/-- A tag that needs no closing tag. -/
inductive Single
  | comment
  /-- The delimiters change from here on. -/
  | delimiters (new : Delimiters)
  | value (name : String) (isEscaped : Bool)
  | reference (reference : Reference)

/-- What a tag opens. -/
inductive Opening
  | sect
  | inverted
  | block
  | parent (reference : Reference)

/-- A tag of a template. -/
inductive Tag
  | single (tag : Single)
  /-- The closing tag has to repeat `name`. -/
  | opening (kind : Opening) (name : String)
  | closing (name : String)

namespace Reference

/-- The reference that the content of a tag makes, on a line with the given
    indent. A leading `*` makes it dynamic. -/
def ofContent (content indent : List Char) : Reference :=
  match content with
  | '*' :: name => ⟨String.ofList (trimStart name), true, String.ofList indent⟩
  | name => ⟨String.ofList name, false, String.ofList indent⟩

end Reference

namespace Cursor

/-- The content of a tag up to the closing delimiter, with the text `mark`
    before it, and without blanks at its ends. -/
def content (c : Cursor) (mark : List Char) : Except ParseError (List Char × Cursor) :=
  let reading := c.readUntil (mark ++ c.delimiters.closing)
  if reading.found then
    match trim reading.text with
    | [] => .error ⟨.missingTag, reading.rest.pos⟩
    | content => .ok (content, reading.rest)
  else .error ⟨.missingDelimiter, reading.rest.pos⟩

/-- A tag made from its content and the place after it. -/
def contentTag (c : Cursor) (mark : List Char) (make : List Char → Cursor → Tag) :
    Except ParseError (Tag × Cursor) :=
  match c.content mark with
  | .error error => .error error
  | .ok (content, after) => .ok (make content after, after)

/-- A comment, which may be empty. -/
def commentTag (c : Cursor) : Except ParseError (Tag × Cursor) :=
  let reading := c.readUntil c.delimiters.closing
  if reading.found then .ok (.single .comment, reading.rest)
  else .error ⟨.missingDelimiter, reading.rest.pos⟩

/-- A delimiter tag, after which the delimiters are the ones it names. -/
def delimitersTag (c : Cursor) : Except ParseError (Tag × Cursor) :=
  match c.content ['='] with
  | .error error => .error error
  | .ok (body, after) =>
    match Delimiters.ofBody? body with
    | none => .error ⟨.invalidDelimiters (String.ofList body), after.pos⟩
    | some new => .ok (.single (.delimiters new), after.changeDelimiters new)

/-- The tag whose opening delimiter was just read, and the place after its
    closing delimiter. -/
def tag (c : Cursor) : Except ParseError (Tag × Cursor) :=
  let start := c.skipBlanks
  match start.next? with
  | none => .error ⟨.unexpectedEndOfInput, start.pos⟩
  | some (sigil, inner) =>
    match sigil with
    | '/' => inner.contentTag [] fun name _ => .closing (String.ofList name)
    | '!' => inner.commentTag
    | '=' => inner.delimitersTag
    | '#' => inner.contentTag [] fun name _ => .opening .sect (String.ofList name)
    | '^' => inner.contentTag [] fun name _ => .opening .inverted (String.ofList name)
    | '$' => inner.contentTag [] fun name _ => .opening .block (String.ofList name)
    | '>' => inner.contentTag [] fun content after =>
        .single (.reference (Reference.ofContent content after.lead))
    | '*' => start.contentTag [] fun content after =>
        .single (.reference (Reference.ofContent content after.lead))
    | '<' => inner.contentTag [] fun content after =>
        let reference := Reference.ofContent content after.lead
        .opening (.parent reference) reference.name
    | '{' => inner.contentTag ['}'] fun name _ => .single (.value (String.ofList name) false)
    | '&' => inner.contentTag [] fun name _ => .single (.value (String.ofList name) false)
    | _ => start.contentTag [] fun name _ => .single (.value (String.ofList name) true)

/-- The content of a tag is read with its closing delimiter. -/
theorem remaining_content {c after : Cursor} {mark content : List Char}
    (h : c.content mark = .ok (content, after)) : after.remaining ≤ c.remaining := by
  simp only [Cursor.content] at h
  split at h
  case isFalse => simp only [reduceCtorEq] at h
  case isTrue =>
    split at h
    case h_1 => simp only [reduceCtorEq] at h
    case h_2 =>
      simp only [Except.ok.injEq, Prod.mk.injEq] at h
      rw [← h.2]
      exact remaining_readUntil _ c

/-- What is made of the content does not change the place after it. -/
theorem remaining_contentTag {c after : Cursor} {mark : List Char}
    {make : List Char → Cursor → Tag} {tag : Tag}
    (h : c.contentTag mark make = .ok (tag, after)) : after.remaining ≤ c.remaining := by
  simp only [contentTag] at h
  split at h
  case h_1 => simp only [reduceCtorEq] at h
  case h_2 content after' hcontent =>
    simp only [Except.ok.injEq, Prod.mk.injEq] at h
    rw [← h.2]
    exact remaining_content hcontent

/-- A comment is passed over. -/
theorem remaining_commentTag {c after : Cursor} {tag : Tag}
    (h : c.commentTag = .ok (tag, after)) : after.remaining ≤ c.remaining := by
  simp only [commentTag] at h
  split at h
  case isFalse => simp only [reduceCtorEq] at h
  case isTrue =>
    simp only [Except.ok.injEq, Prod.mk.injEq] at h
    rw [← h.2]
    exact remaining_readUntil _ c

/-- A delimiter tag is read like any other, and the change that it makes leaves no
    more to read. -/
theorem remaining_delimitersTag {c after : Cursor} {tag : Tag}
    (h : c.delimitersTag = .ok (tag, after)) : after.remaining ≤ c.remaining := by
  simp only [delimitersTag] at h
  split at h
  case h_1 => simp only [reduceCtorEq] at h
  case h_2 body after' hbody =>
    split at h
    case h_1 => simp only [reduceCtorEq] at h
    case h_2 =>
      simp only [Except.ok.injEq, Prod.mk.injEq] at h
      rw [← h.2]
      exact Nat.le_trans (remaining_changeDelimiters _ _) (remaining_content hbody)

/-- Reading a tag leaves no more to read than before. -/
theorem remaining_tag {c after : Cursor} {tag : Tag} (h : c.tag = .ok (tag, after)) :
    after.remaining ≤ c.remaining := by
  have hskip := remaining_skipBlanks c
  simp only [Cursor.tag] at h
  split at h
  case h_1 => simp only [reduceCtorEq] at h
  case h_2 sigil inner hnext =>
    have hinner := remaining_next? hnext
    -- Comments and delimiter tags are read in their own way, all others by their
    -- content.
    split at h
    case h_2 =>
      have hcomment := remaining_commentTag h
      omega
    case h_3 =>
      have hdelimiters := remaining_delimitersTag h
      omega
    all_goals
      have hcontent := remaining_contentTag h
      omega

end Cursor

end Mustache
