import Mustache.Proofs.Boundary
import Mustache.Proofs.Passage

/-!
# Windows at Byte Offsets

The reader as it works on the bytes of a text. A cursor holds the text in
pieces, so it has no slices to take. A window holds nothing but byte offsets
into one text: of the next character, of the current line, and of what
trimming leaves of that line. Whatever it looks at is a slice of the text
between two offsets, and each of these slices may fail.

## Main definitions

* `Window`: The byte offsets of a reader.
* `Window.lineStop?`: Where the line ends that starts at an offset.
* `Window.standalone?`: Where the tags end that a standalone line consists of.
* `Window.next?`: The next character and the window after it.
* `Window.changeDelimiters?`: The same place under other delimiters.
* `Window.indent?`: The blanks that trimming took away before the tags.
-/

namespace Mustache

open Text

/-- The byte offsets of a reader in the text of a template. -/
structure Window where
  delimiters : Delimiters
  /-- Where the next character starts. -/
  pos : Nat
  /-- Where the current line starts and stops. -/
  line : Span
  /-- Where the line starts and stops once it is trimmed. -/
  text : Span
deriving DecidableEq

namespace Window

section

variable (source : List Char) (d : Delimiters)

/-- The text from a byte offset on. -/
def rest? (start : Nat) : Option (List Char) :=
  Span.slice? source ⟨start, byteLength source⟩

/-- The text before the byte offset `stop` ends with `word`. -/
def endsAt? (word : List Char) (stop : Nat) : Option Bool :=
  (Span.slice? source ⟨0, stop⟩).map (endsWith word)

/-- Whether a comment is open after the character `c`, which ends at the byte
    offset `stop`. The text before is looked at after an exclamation mark and
    inside of a comment only. -/
def inComment? (inComment : Bool) (c : Char) (stop : Nat) : Option Bool :=
  (if !inComment && c == '!' then endsAt? source (d.opening ++ ['!']) stop
    else some inComment).bind fun opened =>
    if opened then (endsAt? source d.closing stop).map (!·) else some false

/-- The byte offset at which the line ends whose rest is a text that starts at
    the byte offset `start`. -/
def lineStopFrom? (inComment : Bool) (start : Nat) : List Char → Option Nat
  | [] => some start
  | c :: text =>
    (inComment? source d inComment c (start + c.utf8Size)).bind fun inComment =>
      if !inComment && c == '\n' then some (start + c.utf8Size)
      else lineStopFrom? inComment (start + c.utf8Size) text

/-- The byte offset at which the line ends that starts at a byte offset. -/
def lineStop? (start : Nat) : Option Nat :=
  (rest? source start).bind (lineStopFrom? source d false start)

/-- The byte offset of the first character from `start` on that is not blank,
    or `stop` if there is none before it. -/
def skipBlanks? (start stop : Nat) : Option Nat :=
  if stop ≤ start then some start
  else (Span.slice? source ⟨start, stop⟩).map fun text =>
    start + byteLength (text.takeWhile isBlank)

/-- The line that ends at the byte offset `stop` has at the byte offset `start`
    an opening delimiter and, blanks aside, one of the silent sigils. -/
def startsTag? (start stop : Nat) : Option Bool :=
  if stop ≤ start + byteLength d.opening then some false
  else
    (rest? source start).bind fun text =>
      if d.opening.isPrefixOf text then
        (Span.slice? source ⟨start + byteLength d.opening, stop⟩).map fun content =>
          match trimStart content with
          | [] => false
          | sigil :: _ => silentSigils.contains sigil
      else some false

theorem length_of_rest? {source text : List Char} {start : Nat}
    (h : rest? source start = some text) : start + byteLength text = byteLength source := by
  rcases Span.slice?_eq_some_iff.mp h with ⟨front, back, _, hstart, hstop⟩
  rw [byteLength_append] at hstop
  simp only at hstart hstop
  omega

/-- The byte offset at which the tags end of a run of silent tags whose first
    one was opened before the byte offset `start`, if only blanks follow them on
    the line that ends at the byte offset `stop`. -/
def tagsStop? (stop start : Nat) : Option (Option Nat) :=
  match _ : rest? source start with
  | none => none
  | some text =>
    match _ : cut? d.closing text with
    | none => some none
    | some (content, _) =>
      let next := start + byteLength (content ++ d.closing)
      (startsTag? source d next stop).bind fun isTag =>
        if isTag then tagsStop? stop next
        else (skipBlanks? source next stop).map fun last => if last = stop then some next else none
termination_by byteLength source - start
decreasing_by
  have hlength := length_of_rest? ‹rest? source start = some text›
  have hcut := congrArg byteLength (eq_of_cut? ‹_›)
  have hclosing : 0 < byteLength d.closing :=
    Nat.pos_of_ne_zero fun hzero => d.closing_ne_nil (byteLength_eq_zero hzero)
  simp only [byteLength_append] at hcut ⊢
  omega

/-- The byte offset at which the tags end that the line from `start` to `stop`
    consists of, if there is nothing else but blanks after them. -/
def standalone? (start stop : Nat) : Option (Option Nat) :=
  (startsTag? source d start stop).bind fun isTag =>
    if isTag then tagsStop? source d stop (start + byteLength d.opening) else some none

end

section

variable (source : List Char) (w : Window)

/-- The window on the next line. -/
def nextLine? : Option Window := do
  let stop ← lineStop? source w.delimiters w.line.stop
  let start ← skipBlanks? source w.line.stop stop
  let tags ← standalone? source w.delimiters start stop
  match tags with
  | some last => some ⟨w.delimiters, start, ⟨w.line.stop, stop⟩, ⟨start, last⟩⟩
  | none => some ⟨w.delimiters, w.line.stop, ⟨w.line.stop, stop⟩, ⟨w.line.stop, stop⟩⟩

/-- The character at the window and the window after it. -/
def char? : Option (Option (Char × Window)) :=
  (rest? source w.pos).map fun
    | [] => none
    | c :: _ => some (c, { w with pos := w.pos + c.utf8Size })

/-- The next character and the window after it, where there is none at the end
    of the text. -/
def next? : Option (Option (Char × Window)) :=
  if w.pos = w.text.stop then
    if w.line.stop < byteLength source then (w.nextLine? source).bind (char? source)
    else some none
  else w.char? source

/-- The text of a line up to a delimiter tag is a row of tags. -/
def onTags (d : Delimiters) (behind : List Char) : Bool :=
  match pieces d.opening d.opening_ne_nil (trimStart behind) with
  | [] => true
  | front :: tags => front.isEmpty && tags.all (endsWith d.closing)

/-- The same place under other delimiters. -/
def changeDelimiters? (new : Delimiters) : Option Window :=
  if w.text.stop = w.line.stop then
    (lineStop? source new w.pos).bind fun stop =>
      (Span.slice? source ⟨w.line.start, w.pos⟩).bind fun behind =>
        (if onTags w.delimiters behind then standalone? source new w.pos stop
          else some none).map fun tags =>
          ⟨new, w.pos, ⟨w.line.start, stop⟩, ⟨w.text.start, tags.getD stop⟩⟩
  else some { w with delimiters := new }

/-- The blanks that trimming took away before the tags of the line. -/
def indent? : Option (List Char) :=
  Span.slice? source ⟨w.line.start, w.text.start⟩

end

end Window

/-- The byte offsets of a cursor. -/
def Cursor.window (c : Cursor) : Window where
  delimiters := c.delimiters
  pos := c.pos
  line := ⟨c.lineStart, c.pos + byteLength (c.ahead ++ c.trail)⟩
  text := ⟨c.textStart, c.pos + byteLength c.ahead⟩

end Mustache
