import Mustache.Line
import Mustache.Text.Bytes

/-!
# Reading a Template

A cursor is a place in the text of a template together with the delimiters in
force there. It holds the whole text, cut at the places that matter: the lines
before the current one, the current line in its trimmed form with the part
that was read and the part that is ahead, and the lines beyond. Reading hands
out the characters of the trimmed lines and passes over what trimming took
away.

A line is taken and trimmed when reading comes to it, with the delimiters of
that moment. When a delimiter tag changes them, the rest of the current line
is taken anew.

Every read makes `remaining` smaller, which is why reading ends.

## Main definitions

* `Cursor`: A place in a text.
* `Cursor.pos`: Its byte offset.
* `Cursor.next?`: The next character and the place after it.
* `Cursor.readUntil`: The text up to a word.
* `Cursor.skipBlanks`: The place before the next character that is not blank.
* `Cursor.changeDelimiters`: The same place under other delimiters.
* `Cursor.bodyStart`, `Cursor.bodyEnd`: Where the body of a section lies.

## Theorems

* `Cursor.toText_nextLine`, `Cursor.toText_next?`: Reading keeps the text.
* `Cursor.remaining_next?`: A character read is a character less to read.
* `Cursor.remaining_readUntil`: So is every word found.
-/

namespace Mustache

open Text

/-- A place in the text of a template. The lists `before` and `read` hold the
    nearest character first. -/
structure Cursor where
  /-- The delimiters in force. -/
  delimiters : Delimiters
  /-- The lines before the current one. -/
  before : List Char
  /-- The blanks that trimming took away at the start of the current line. -/
  lead : List Char
  /-- What was read of the current line. -/
  read : List Char
  /-- What is still to be read of the current line. -/
  ahead : List Char
  /-- What trimming took away at the end of the current line. -/
  trail : List Char
  /-- The lines after the current one. -/
  beyond : List Char

/-- What was read up to a word: the text before the word if it was found, and
    otherwise all that was left. -/
structure Reading where
  text : List Char
  found : Bool
  rest : Cursor

namespace Cursor

/-- The place before the first character of a text. -/
def ofText (delimiters : Delimiters) (text : List Char) : Cursor where
  delimiters := delimiters
  before := []
  lead := []
  read := []
  ahead := []
  trail := []
  beyond := text

/-- The text before the cursor, nearest character first. -/
def behind (c : Cursor) : List Char :=
  c.read ++ c.lead.reverse ++ c.before

/-- The whole text. -/
def toText (c : Cursor) : List Char :=
  c.behind.reverse ++ c.ahead ++ c.trail ++ c.beyond

/-- The byte offset of the cursor. -/
def pos (c : Cursor) : Nat :=
  byteLength c.behind

/-- The byte offset at which the current line starts. -/
def lineStart (c : Cursor) : Nat :=
  byteLength c.before

/-- The byte offset at which the current line starts once it is trimmed. -/
def textStart (c : Cursor) : Nat :=
  c.lineStart + byteLength c.lead

/-- The number of characters that may still be read. -/
def remaining (c : Cursor) : Nat :=
  c.ahead.length + c.beyond.length

/-- The start of the line after the current one, which is left as it is read so
    far. -/
def nextLine (c : Cursor) : Cursor :=
  let behind := c.trail.reverse ++ c.behind
  let taken := takeLine c.delimiters false behind c.beyond
  let line := Line.ofText c.delimiters taken.1
  { c with
    before := behind, lead := line.lead, read := [], ahead := line.text, trail := line.trail,
    beyond := taken.2 }

/-- The cursor on a line that has something left to read, if there is one. -/
def atLine (c : Cursor) : Cursor :=
  if c.ahead.isEmpty && !c.beyond.isEmpty then c.nextLine else c

/-- The next character and the place after it, or `none` at the end of the
    text. -/
def next? (c : Cursor) : Option (Char × Cursor) :=
  match c.atLine.ahead with
  | [] => none
  | ch :: ahead => some (ch, { c.atLine with read := ch :: c.atLine.read, ahead := ahead })

/-- Going on to the next line moves the end of the current one behind the
    cursor. -/
theorem toText_nextLine (c : Cursor) (h : c.ahead = []) : c.nextLine.toText = c.toText := by
  have hline := Line.toText_ofText c.delimiters
    (takeLine c.delimiters false (c.trail.reverse ++ c.behind) c.beyond).1
  have htake := takeLine_append c.delimiters false (c.trail.reverse ++ c.behind) c.beyond
  simp only [toText, h, List.append_nil]
  rw [← htake, ← hline]
  simp only [nextLine, behind, Line.toText, List.reverse_append, List.reverse_reverse,
    List.nil_append, List.append_assoc]

/-- Coming to a line keeps the text. -/
theorem toText_atLine (c : Cursor) : c.atLine.toText = c.toText := by
  simp only [atLine]
  split
  case isTrue h =>
    simp only [Bool.and_eq_true, List.isEmpty_iff] at h
    exact toText_nextLine c h.1
  case isFalse => rfl

/-- Reading a character changes the place, not the text. -/
theorem toText_next? {c after : Cursor} {ch : Char} (h : c.next? = some (ch, after)) :
    after.toText = c.toText := by
  rw [← toText_atLine c]
  simp only [next?] at h
  split at h
  case h_1 => simp only [reduceCtorEq] at h
  case h_2 ch' ahead hahead =>
    simp only [Option.some.injEq, Prod.mk.injEq] at h
    -- The character was the first one ahead and is now the last one behind.
    simp only [← h.2, toText, behind, hahead, List.cons_append, List.reverse_cons,
      List.append_assoc, List.nil_append]

/-- A line is no longer than what it was taken from. -/
theorem remaining_nextLine (c : Cursor) : c.nextLine.remaining ≤ c.beyond.length := by
  have hline := congrArg List.length (Line.toText_ofText c.delimiters
    (takeLine c.delimiters false (c.trail.reverse ++ c.behind) c.beyond).1)
  have htake := congrArg List.length
    (takeLine_append c.delimiters false (c.trail.reverse ++ c.behind) c.beyond)
  simp only [Line.toText, List.length_append] at hline htake
  simp only [remaining, nextLine]
  omega

/-- Coming to a line leaves no more to read than before. -/
theorem remaining_atLine (c : Cursor) : c.atLine.remaining ≤ c.remaining := by
  simp only [atLine]
  split
  · have hline := remaining_nextLine c
    simp only [remaining] at hline ⊢
    omega
  · exact Nat.le_refl _

/-- A character read is a character less to read. -/
theorem remaining_next? {c after : Cursor} {ch : Char} (h : c.next? = some (ch, after)) :
    after.remaining < c.remaining := by
  have hline := remaining_atLine c
  simp only [next?] at h
  split at h
  case h_1 => simp only [reduceCtorEq] at h
  case h_2 ch' ahead hahead =>
    simp only [Option.some.injEq, Prod.mk.injEq] at h
    simp only [← h.2, remaining, hahead, List.length_cons] at hline ⊢
    omega

/-- Reads on until what was read ends with `word`. The characters read so far
    are in `buffer`, last one first. -/
def readFrom (word buffer : List Char) (c : Cursor) : Reading :=
  match _ : c.next? with
  | none => ⟨buffer.reverse, false, c⟩
  | some (ch, after) =>
    if justRead word (ch :: buffer) then ⟨((ch :: buffer).drop word.length).reverse, true, after⟩
    else readFrom word (ch :: buffer) after
termination_by c.remaining
decreasing_by exact remaining_next? ‹_›

/-- The text up to the next occurrence of `word`, which is read as well. -/
def readUntil (word : List Char) (c : Cursor) : Reading :=
  readFrom word [] c

theorem remaining_readFrom (word buffer : List Char) (c : Cursor) :
    (readFrom word buffer c).rest.remaining ≤ c.remaining := by
  fun_induction readFrom word buffer c with
  | case1 => exact Nat.le_refl _
  | case2 buffer c ch after h => exact Nat.le_of_lt (remaining_next? h)
  | case3 buffer c ch after h _ ih => exact Nat.le_trans ih (Nat.le_of_lt (remaining_next? h))

theorem remaining_readFrom_of_found {word buffer : List Char} {c : Cursor}
    (found : (readFrom word buffer c).found = true) :
    (readFrom word buffer c).rest.remaining < c.remaining := by
  fun_induction readFrom word buffer c with
  | case1 => exact absurd found Bool.false_ne_true
  | case2 buffer c ch after h => exact remaining_next? h
  | case3 buffer c ch after h _ ih => exact Nat.lt_trans (ih found) (remaining_next? h)

/-- Reading up to a word leaves no more to read than before. -/
theorem remaining_readUntil (word : List Char) (c : Cursor) :
    (c.readUntil word).rest.remaining ≤ c.remaining :=
  remaining_readFrom word [] c

/-- A word found is read, so there is less to read after it. -/
theorem remaining_readUntil_of_found {word : List Char} {c : Cursor}
    (found : (c.readUntil word).found = true) :
    (c.readUntil word).rest.remaining < c.remaining :=
  remaining_readFrom_of_found found

/-- The place before the next character that is not blank, or the end of the
    text. -/
def skipBlanks (c : Cursor) : Cursor :=
  match _ : c.next? with
  | none => c
  | some (ch, after) => if isBlank ch then skipBlanks after else c
termination_by c.remaining
decreasing_by exact remaining_next? ‹_›

theorem remaining_skipBlanks (c : Cursor) : c.skipBlanks.remaining ≤ c.remaining := by
  fun_induction skipBlanks c with
  | case1 => exact Nat.le_refl _
  | case2 c ch after h _ ih => exact Nat.le_trans ih (Nat.le_of_lt (remaining_next? h))
  | case3 => exact Nat.le_refl _

/-- The text read so far on the current line is a row of tags under the
    delimiters in force, each directly followed by the next. -/
def onTags (c : Cursor) : Bool :=
  match pieces c.delimiters.opening c.delimiters.opening_ne_nil
      (trimStart (c.lead ++ c.read.reverse)) with
  | [] => true
  | front :: tags => front.isEmpty && tags.all (endsWith c.delimiters.closing)

/-- The same place under other delimiters. Unless the end of the current line
    was trimmed, the line is taken anew from here on: comments are recognised
    by the new delimiters, and the line is trimmed if it held only tags so far
    and holds only tags from here. -/
def changeDelimiters (new : Delimiters) (c : Cursor) : Cursor :=
  if c.trail.isEmpty then
    let taken := takeLine new false c.behind (c.ahead ++ c.beyond)
    match if c.onTags then onlyTags? new taken.1 else none with
    | some (tags, trail) =>
      { c with delimiters := new, ahead := tags, trail := trail, beyond := taken.2 }
    | none => { c with delimiters := new, ahead := taken.1, beyond := taken.2 }
  else { c with delimiters := new }

/-- Taking a line anew moves characters between the line and what is beyond it, and
    those that trimming takes away are not read. -/
theorem remaining_changeDelimiters (new : Delimiters) (c : Cursor) :
    (c.changeDelimiters new).remaining ≤ c.remaining := by
  have htake := congrArg List.length (takeLine_append new false c.behind (c.ahead ++ c.beyond))
  simp only [List.length_append] at htake
  simp only [changeDelimiters]
  split
  case isFalse => exact Nat.le_refl _
  case isTrue =>
    split
    case h_2 =>
      simp only [remaining]
      omega
    case h_1 tags trail h =>
      split at h
      case isFalse => simp only [reduceCtorEq] at h
      case isTrue =>
        have htags := congrArg List.length (onlyTags?_append h)
        simp only [List.length_append] at htags
        simp only [remaining]
        omega

/-- The byte offset of the tag that was just opened: one opening delimiter
    back. -/
def tagStart (c : Cursor) : Nat :=
  c.pos - byteLength c.delimiters.opening

/-- The byte offset at which the body of a section starts whose opening tag was
    just read. What trimming took away after the tag is no part of the body. -/
def bodyStart (c : Cursor) : Nat :=
  if c.ahead.isEmpty then c.pos + byteLength c.trail else c.pos

/-- The byte offset at which the body of a section ends whose closing tag,
    opened at `start`, was just read. What trimming took away before the tag is
    no part of the body. -/
def bodyEnd (c : Cursor) (start : Nat) : Nat :=
  if start = c.textStart && !c.lead.isEmpty then c.lineStart else start

end Cursor

end Mustache
