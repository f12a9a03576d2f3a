import Mustache.Proofs.Indentation
import Mustache.Proofs.Offence
import Mustache.Proofs.Slices
import Mustache.Proofs.Taking

/-!
# Reading Without Loss

A reader of bytes can lose text in many places: at the ends of a trimmed line,
where one line ends and the next is taken, and where a delimiter tag moves the
end of a line that is half read. Here the reader is followed through all that
it can do, in any order: it takes a character, gives it back, or changes its
delimiters. Its offsets stay in order and between characters, the blanks that
it passes over are the only characters that it does not hand out, and a text
without an opening delimiter is handed out whole.

A window is what such a reader knows, and a cursor stands for every window that
a reader comes to. So the order of the offsets is read off the pieces that the
cursor holds, and there is one invariant to carry along: the pieces that were
trimmed away are blank.

## Main definitions

* `Text.OmitsBlanks`: A text with some of its blanks left out.
* `Window.IsSound`: The offsets of a window are in order, between characters,
  and there are only blanks between the line and its text.
* `Window.back`: A window that gives back the character it read.
* `Window.Reached`: The windows of a reader, with the characters handed out.
* `Cursor.SetsAsideBlanks`: What a cursor passes over is blank.

## Theorems

* `Cursor.isSound_window`: The window of a cursor is sound.
* `Window.Reached.exists_cursor`: A reader is always at the window of a cursor.
* `Template.reading_is_lossless`: Reading loses nothing but blanks.
-/

namespace Mustache

open Text

namespace Text

/-- The second text is the first one without some of its blanks. -/
inductive OmitsBlanks : List Char → List Char → Prop
  | nil : OmitsBlanks [] []
  | keep {text kept : List Char} (ch : Char) (h : OmitsBlanks text kept) :
      OmitsBlanks (ch :: text) (ch :: kept)
  | leave {text kept : List Char} {ch : Char} (hblank : isBlank ch = true)
      (h : OmitsBlanks text kept) : OmitsBlanks (ch :: text) kept

namespace OmitsBlanks

variable {text kept text' kept' : List Char}

/-- Texts in a row leave out what each of them does. -/
theorem append (h : OmitsBlanks text kept) (h' : OmitsBlanks text' kept') :
    OmitsBlanks (text ++ text') (kept ++ kept') := by
  induction h with
  | nil => exact h'
  | keep ch _ ih => exact .keep ch ih
  | leave hblank _ ih => exact .leave hblank ih

/-- All blanks may be left out. -/
theorem of_all_isBlank (h : text.all isBlank = true) : OmitsBlanks text [] := by
  induction text with
  | nil => exact .nil
  | cons ch text ih =>
      rw [List.all_cons, Bool.and_eq_true] at h
      exact .leave h.1 (ih h.2)

theorem append_blanks (h : OmitsBlanks text kept) (hblank : text'.all isBlank = true) :
    OmitsBlanks (text ++ text') kept := by
  have happend := h.append (of_all_isBlank hblank)
  rwa [List.append_nil] at happend

end OmitsBlanks

end Text

namespace Window

/-- The offsets of the window are in order and between characters. Trimming took
    away blanks, and no line end before the text. -/
structure IsSound (source : List Char) (w : Window) : Prop where
  lineStart_le : w.line.start ≤ w.text.start
  textStart_le : w.text.start ≤ w.pos
  pos_le : w.pos ≤ w.text.stop
  textStop_le : w.text.stop ≤ w.line.stop
  lineStop_le : w.line.stop ≤ byteLength source
  isBoundary : ∀ offset ∈ [w.line.start, w.text.start, w.pos, w.text.stop, w.line.stop],
    IsBoundary source offset
  lead : ∃ blanks, Span.slice? source ⟨w.line.start, w.text.start⟩ = some blanks ∧
    blanks.all isBlank = true ∧ '\n' ∉ blanks
  trail : ∃ blanks, Span.slice? source ⟨w.text.stop, w.line.stop⟩ = some blanks ∧
    blanks.all isBlank = true

/-- The window before the character that was just read, on the line that it was
    read from. -/
def back (w : Window) (ch : Char) : Window :=
  { w with pos := w.pos - ch.utf8Size }

/-- The windows that a reader comes to that starts with the delimiters `d`, and
    the characters that it has handed out by then. A character that is given back
    does not count until it is read again. -/
inductive Reached (d : Delimiters) (source : List Char) : List Char → Window → Prop
  | start : Reached d source [] ⟨d, 0, ⟨0, 0⟩, ⟨0, 0⟩⟩
  | next {text : List Char} {w after : Window} {ch : Char} (h : Reached d source text w)
      (hnext : w.next? source = some (some (ch, after))) :
      Reached d source (text ++ [ch]) after
  | back {text : List Char} {w after : Window} {ch : Char} (h : Reached d source text w)
      (hnext : w.next? source = some (some (ch, after))) :
      Reached d source text (after.back ch)
  | change {text : List Char} {w after : Window} {new : Delimiters} (h : Reached d source text w)
      (hchange : w.changeDelimiters? source new = some after) :
      Reached d source text after

end Window

namespace Cursor

/-- The characters that the cursor passes over on its line are blanks, and no
    line end is among those at the start. -/
structure SetsAsideBlanks (c : Cursor) : Prop where
  lead : c.lead.all isBlank = true
  trail : c.trail.all isBlank = true
  not_mem_lead : '\n' ∉ c.lead

variable {source : List Char} {c after : Cursor} {ch : Char}

theorem setsAsideBlanks_ofText (d : Delimiters) (text : List Char) :
    (ofText d text).SetsAsideBlanks :=
  ⟨rfl, rfl, List.not_mem_nil⟩

theorem setsAsideBlanks_nextLine (c : Cursor) : c.nextLine.SetsAsideBlanks := by
  have hblank := Line.isBlank_ofText c.delimiters
    (takeLine c.delimiters false (c.trail.reverse ++ c.behind) c.beyond).1
  exact ⟨hblank.1, hblank.2, Line.not_mem_lead_ofText (isLine_takeLine rfl).1⟩

theorem SetsAsideBlanks.atLine (h : c.SetsAsideBlanks) : c.atLine.SetsAsideBlanks := by
  rw [Cursor.atLine]
  split
  case isTrue => exact setsAsideBlanks_nextLine c
  case isFalse => exact h

/-- New delimiters trim the rest of the line again, and take away blanks alone. -/
theorem SetsAsideBlanks.changeDelimiters (h : c.SetsAsideBlanks) (new : Delimiters) :
    (c.changeDelimiters new).SetsAsideBlanks := by
  rcases changeDelimiters_cases new c with ⟨_, hsame⟩ | ⟨_, ahead, trail, _, hblank, hchange⟩
  · rw [hsame]
    exact ⟨h.lead, h.trail, h.not_mem_lead⟩
  · rw [hchange]
    exact ⟨h.lead, hblank, h.not_mem_lead⟩

/-- A character is read from the line that the cursor is on then. -/
theorem eq_of_next? (h : c.next? = some (ch, after)) :
    c.atLine.ahead = ch :: after.ahead ∧
      after = { c.atLine with read := ch :: c.atLine.read, ahead := after.ahead } := by
  unfold next? at h
  split at h
  case h_1 => simp only [reduceCtorEq] at h
  case h_2 first ahead hahead =>
    rw [Option.some.injEq, Prod.mk.injEq] at h
    rw [← h.1, ← h.2]
    exact ⟨hahead, rfl⟩

/-- Reading a character passes over nothing but blanks. -/
theorem SetsAsideBlanks.next (h : c.SetsAsideBlanks) (hnext : c.next? = some (ch, after)) :
    after.SetsAsideBlanks := by
  have hline := h.atLine
  rw [(eq_of_next? hnext).2]
  exact ⟨hline.lead, hline.trail, hline.not_mem_lead⟩

/-- The window that gives back a character is the one before it, on the line
    that the character was read from. -/
theorem window_back (hnext : c.next? = some (ch, after)) :
    after.window.back ch = c.atLine.window := by
  rcases eq_of_next? hnext with ⟨hahead, hafter⟩
  rw [hafter]
  -- The character belonged to what was ahead, and now belongs to what was read.
  simp only [Window.back, window, pos, lineStart, textStart, behind, hahead, List.cons_append,
    byteLength, byteLength_append, Window.mk.injEq, Span.mk.injEq, true_and]
  omega

theorem behind_changeDelimiters (new : Delimiters) (c : Cursor) :
    (c.changeDelimiters new).behind = c.behind := by
  rcases changeDelimiters_kept new c with ⟨hbefore, hlead, hread⟩
  rw [behind, hbefore, hlead, hread, behind]

theorem pos_changeDelimiters (new : Delimiters) (c : Cursor) :
    (c.changeDelimiters new).pos = c.pos := by
  rw [pos, behind_changeDelimiters, pos]

theorem delimiters_changeDelimiters (new : Delimiters) (c : Cursor) :
    (c.changeDelimiters new).delimiters = new := by
  rcases changeDelimiters_cases new c with ⟨_, heq⟩ | ⟨_, ahead, trail, _, _, heq⟩ <;> rw [heq]

theorem window_of_changeDelimiters (new : Delimiters) (c : Cursor) :
    (c.changeDelimiters new).window.pos = c.window.pos ∧
      (c.changeDelimiters new).window.line.start = c.window.line.start ∧
      (c.changeDelimiters new).window.text.start = c.window.text.start := by
  rcases changeDelimiters_kept new c with ⟨hbefore, hlead, _⟩
  simp only [window, pos_changeDelimiters, lineStart, textStart, hbefore, hlead, and_self]

/-- Going on to the next line passes over the blanks that were trimmed. -/
theorem SetsAsideBlanks.omitsBlanks_atLine {text : List Char} (h : c.SetsAsideBlanks)
    (htext : OmitsBlanks c.behind.reverse text) : OmitsBlanks c.atLine.behind.reverse text := by
  have hline := h.atLine
  rw [Cursor.atLine] at hline ⊢
  split
  case isFalse => exact htext
  case isTrue hend =>
    rw [if_pos hend] at hline
    have hbehind : c.nextLine.behind.reverse = c.behind.reverse ++ c.trail ++ c.nextLine.lead := by
      simp only [nextLine, behind, List.nil_append, List.reverse_append, List.reverse_reverse]
    -- The end of the old line and the start of the new one are passed over.
    rw [hbehind]
    exact (htext.append_blanks h.trail).append_blanks hline.lead

/-- The character that is read is handed out. -/
theorem SetsAsideBlanks.omitsBlanks_next {text : List Char} (h : c.SetsAsideBlanks)
    (htext : OmitsBlanks c.behind.reverse text) (hnext : c.next? = some (ch, after)) :
    OmitsBlanks after.behind.reverse (text ++ [ch]) := by
  have hbehind : after.behind = ch :: c.atLine.behind := by
    rw [(eq_of_next? hnext).2]
    rfl
  rw [hbehind, List.reverse_cons]
  exact (h.omitsBlanks_atLine htext).append (.keep ch .nil)

/-- A window reads a character where the cursor does. -/
theorem exists_of_window_next {w : Window} (h : c.toText = source)
    (hnext : c.window.next? source = some (some (ch, w))) :
    ∃ after, c.next? = some (ch, after) ∧ after.window = w := by
  rw [window_next h, Option.some.injEq, Option.map_eq_some_iff] at hnext
  rcases hnext with ⟨⟨first, after⟩, hread, heq⟩
  rw [Prod.mk.injEq] at heq
  exact ⟨after, by rw [hread, ← heq.1], heq.2⟩

/-- The line stays the same until it is read to its end, and the next one starts
    where it ended. -/
theorem window_of_next? (hnext : c.next? = some (ch, after)) :
    (after.window.line = c.window.line ∧ after.window.text = c.window.text) ∨
      (c.window.pos = c.window.text.stop ∧ after.window.line.start = c.window.line.stop) := by
  -- The character is the next one of the line, or the first one of the next line.
  rcases next?_cases hnext with ⟨hahead, hafter⟩ | ⟨hnil, _, _, hafter⟩
  · left
    rw [hafter]
    simp only [window, pos, lineStart, textStart, behind, hahead, List.cons_append, byteLength,
      byteLength_append, Span.mk.injEq, true_and]
    omega
  · right
    rw [hafter]
    simp only [window, pos, lineStart, nextLine, hnil, byteLength, byteLength_append,
      byteLength_reverse]
    omega

/-- The character that is read is the one between the two places. -/
theorem slice?_of_next? (h : c.toText = source) (hnext : c.next? = some (ch, after)) :
    Span.slice? source ⟨(after.window.back ch).pos, after.window.pos⟩ = some [ch] := by
  have htext : c.atLine.behind.reverse ++ [ch] ++ (after.ahead ++ after.trail ++ after.beyond) =
      source := by
    rw [← h, ← toText_atLine c, toText, (eq_of_next? hnext).1, (eq_of_next? hnext).2]
    simp only [List.append_assoc, List.cons_append, List.nil_append]
  refine Span.slice?_eq_some_iff.mpr ⟨_, _, htext, ?_, ?_⟩
  · rw [window_back hnext, byteLength_reverse]
    rfl
  · rw [(eq_of_next? hnext).2]
    simp only [window, pos, behind, List.cons_append, byteLength, byteLength_append,
      byteLength_reverse]
    omega

/-- What is left at the end of the text are the blanks that trimming took away at
    the end of the last line. -/
theorem SetsAsideBlanks.omitsBlanks_of_end {text : List Char} (h : c.SetsAsideBlanks)
    (htext : c.toText = source) (homits : OmitsBlanks c.behind.reverse text)
    (hend : c.next? = none) : OmitsBlanks source text := by
  have hsource : source = c.behind.reverse ++ c.trail := by
    rw [← htext, toText, (nil_of_next? hend).1, (nil_of_next? hend).2, List.append_nil,
      List.append_nil]
  rw [hsource]
  exact homits.append_blanks h.trail

theorem slice?_behind (h : c.toText = source) :
    Span.slice? source ⟨0, c.window.pos⟩ = some c.behind.reverse :=
  Span.slice?_eq_some_iff.mpr ⟨[], _, c.behind_append h, rfl, byteLength_reverse _⟩

/-- What trimming took away at the end of a line is the slice behind its text. -/
theorem slice?_trail (h : c.toText = source) :
    Span.slice? source ⟨c.window.text.stop, c.window.line.stop⟩ = some c.trail := by
  refine Span.slice?_eq_some_iff.mpr ⟨c.behind.reverse ++ c.ahead, c.beyond, h, ?_, ?_⟩
  · rw [byteLength_append, byteLength_reverse]
    rfl
  · simp only [window, pos, byteLength_append, byteLength_reverse]
    omega

/-- The offsets of a cursor measure the pieces that it holds. -/
theorem SetsAsideBlanks.isSound_window (h : c.SetsAsideBlanks) (htext : c.toText = source) :
    c.window.IsSound source := by
  have hlead : Span.slice? source ⟨c.window.line.start, c.window.text.start⟩ = some c.lead :=
    window_indent htext
  have htrail := slice?_trail htext
  -- A slice lies between boundaries that are in order.
  rcases Span.cuts_iff_exists_slice?.mpr ⟨_, hlead⟩ with ⟨hstart, _, hlineStart, htextStart⟩
  rcases Span.cuts_iff_exists_slice?.mpr ⟨_, slice?_behind htext⟩ with ⟨_, _, _, hpos⟩
  rcases Span.cuts_iff_exists_slice?.mpr ⟨_, htrail⟩ with ⟨hstop, hlength, htextStop, hlineStop⟩
  refine ⟨hstart, ?_, ?_, hstop, hlength, ?_, ⟨_, hlead, h.lead, h.not_mem_lead⟩,
    ⟨_, htrail, h.trail⟩⟩
  · simp only [window, pos, textStart, lineStart, behind, byteLength_append, byteLength_reverse]
    omega
  · exact Nat.le_add_right _ _
  · simp only [List.forall_mem_cons, List.not_mem_nil, false_imp_iff, implies_true, and_true]
    exact ⟨hlineStart, htextStart, hpos, htextStop, hlineStop⟩

end Cursor

namespace Window

variable {d : Delimiters} {source text : List Char} {w : Window}

/-- A reader is always at the window of a cursor, which has passed over nothing
    but blanks. -/
theorem Reached.exists_cursor (h : Reached d source text w) :
    ∃ c : Cursor, c.window = w ∧ c.toText = source ∧ c.SetsAsideBlanks ∧
      OmitsBlanks c.behind.reverse text := by
  -- A cursor follows each step of the reader. Giving back a character leads to the line
  -- it was read from.
  induction h with
  | start =>
      exact ⟨.ofText d source, rfl, Cursor.toText_ofText d source,
        Cursor.setsAsideBlanks_ofText d source, .nil⟩
  | next _ hnext ih =>
      rcases ih with ⟨c, rfl, htext, hblanks, homits⟩
      rcases Cursor.exists_of_window_next htext hnext with ⟨place, hplace, rfl⟩
      exact ⟨place, rfl, by rw [Cursor.toText_next? hplace, htext], hblanks.next hplace,
        hblanks.omitsBlanks_next homits hplace⟩
  | back _ hnext ih =>
      rcases ih with ⟨c, rfl, htext, hblanks, homits⟩
      rcases Cursor.exists_of_window_next htext hnext with ⟨place, hplace, rfl⟩
      exact ⟨c.atLine, (Cursor.window_back hplace).symm, by rw [Cursor.toText_atLine, htext],
        hblanks.atLine, hblanks.omitsBlanks_atLine homits⟩
  | @change text w after new _ hchange ih =>
      rcases ih with ⟨c, rfl, htext, hblanks, homits⟩
      rw [Cursor.window_changeDelimiters htext, Option.some.injEq] at hchange
      refine ⟨c.changeDelimiters new, hchange, by rw [Cursor.toText_changeDelimiters, htext],
        hblanks.changeDelimiters new, ?_⟩
      rw [Cursor.behind_changeDelimiters]
      exact homits

end Window

/-- The byte offset at which a stream ends. -/
def Ending.offset : Ending → Nat
  | endOfText offset => offset
  | failure error => error.offset

/-- A cursor is between two characters. -/
theorem Cursor.isBoundary_pos {source : List Char} {c : Cursor} (h : c.toText = source) :
    IsBoundary source c.pos :=
  ⟨c.behind.reverse, _, c.behind_append h, byteLength_reverse _⟩

/-- A content that is no tag is reported where the tag ends. -/
theorem Cursor.complete_error {after : Cursor} {sigil : Char} {text : List Char}
    {error : ParseError} (h : after.complete sigil text = .error error) :
    error.offset = after.pos := by
  unfold Cursor.complete at h
  split at h
  case isTrue => simp only [reduceCtorEq] at h
  case isFalse =>
    split at h
    case h_1 => rw [← Except.error.inj h]
    case h_2 =>
      split at h
      case isFalse => simp only [reduceCtorEq] at h
      case isTrue =>
        split at h
        case h_1 => rw [← Except.error.inj h]
        case h_2 => simp only [reduceCtorEq] at h

/-- A tag fails at the character that completes its closing delimiter. -/
theorem contentStep_error {start : Nat} {sigil ch : Char} {buffer : List Char} {after : Cursor}
    {error : ParseError} (h : contentStep start sigil buffer ch after = .error error) :
    error.offset = after.pos := by
  simp only [contentStep] at h
  split at h
  case isFalse => simp only [reduceCtorEq] at h
  case isTrue =>
    split at h
    case h_2 => simp only [reduceCtorEq] at h
    case h_1 error' hcomplete =>
      rw [← Except.error.inj h]
      exact Cursor.complete_error hcomplete

/-- A tag fails at the character that ends it. -/
theorem Mode.step_error {mode : Mode} {ch : Char} {after : Cursor} {error : ParseError}
    (h : mode.step ch after = .error error) : error.offset = after.pos := by
  -- Text never fails, and in a tag only its content does.
  cases mode with
  | text buffer =>
      simp only [step] at h
      split at h
      all_goals simp only [reduceCtorEq] at h
  | opened start =>
      simp only [step] at h
      split at h
      case isTrue => simp only [reduceCtorEq] at h
      case isFalse =>
        split at h
        case isTrue => simp only [reduceCtorEq] at h
        case isFalse => exact contentStep_error h
  | content start sigil buffer => exact contentStep_error h

/-- A closing tag has the offset of its end. -/
theorem Tag.offset_of_tokensFrom {tag : Tag} {name : String} {start stop offset : Nat}
    {after : Cursor} (h : tag.tokensFrom start after = [.closing name stop offset]) :
    offset = after.pos := by
  rcases tag with (_ | _ | _ | _) | ⟨_, _⟩ | _
  case closing =>
    simp only [tokensFrom, List.cons.injEq, Token.closing.injEq, and_true] at h
    exact h.2.2.symm
  all_goals simp only [tokensFrom, List.cons.injEq, reduceCtorEq, false_and] at h

theorem Mode.offset_finish (mode : Mode) (c : Cursor) : (mode.finish c).ending.offset = c.pos := by
  cases mode with
  | text buffer => rfl
  | opened start => rfl
  | content start sigil buffer => rfl

namespace Reader

variable {d : Delimiters} {source text : List Char} {r next last : Reader} {event : Event}
  {tokens : List Token}

/-- A stream ends at a place that its reader came to. -/
theorem isBoundary_ending (h : r.place.toText = source) :
    IsBoundary source r.run.ending.offset := by
  fun_induction run r with
  | case1 r hnext =>
      rw [Mode.offset_finish]
      exact Cursor.isBoundary_pos h
  | case2 r ch after hnext error hstep =>
      -- The stream ends at the error of a tag.
      rw [Ending.offset, Mode.step_error hstep]
      exact Cursor.isBoundary_pos (by rw [Cursor.toText_next? hnext, h])
  | case3 r ch after hnext event next hstep ih =>
      exact ih (by rw [toText_of_moves ⟨ch, after, hnext, hstep⟩, h])

/-- So does every closing tag. -/
theorem isBoundary_of_closing {name : String} {stop offset : Nat} (h : r.place.toText = source)
    (hmem : .closing name stop offset ∈ r.run.tokens) : IsBoundary source offset := by
  rcases List.append_of_mem hmem with ⟨front, back, htokens⟩
  have htext : ∀ content, Token.closing name stop offset ≠ .text content := by
    intro content heq
    simp only [reduceCtorEq] at heq
  rcases exists_path_of_tokens htokens htext with ⟨middle, tag, start, next, hpath, hmoves, htag, _⟩
  rw [Tag.offset_of_tokensFrom htag]
  exact Cursor.isBoundary_pos (by rw [toText_of_moves hmoves, toText_of_path hpath, h])

/-- Reading a text is one way to use a reader. -/
theorem reached_of_moves (hmoves : r.Moves event next) (hsource : r.place.toText = source)
    (h : Window.Reached d source text r.place.window) :
    ∃ ch, Window.Reached d source (text ++ [ch]) next.place.window := by
  rcases hmoves with ⟨ch, after, hnext, hstep⟩
  have hread := Cursor.window_next hsource
  rw [hnext] at hread
  have hafter := h.next hread
  -- Only a delimiter tag does more than reading its last character.
  rcases (Mode.steps_of_step hstep).place_cases with hplace | ⟨new, start, _, hplace⟩
  · rw [hplace]
    exact ⟨ch, hafter⟩
  · rw [hplace]
    have htext : after.toText = source := by rw [Cursor.toText_next? hnext, hsource]
    exact ⟨ch, hafter.change (Cursor.window_changeDelimiters htext new)⟩

/-- So is going on to read, any number of characters. -/
theorem reached_of_path (hpath : r.Path tokens last) (hsource : r.place.toText = source)
    (h : Window.Reached d source text r.place.window) :
    ∃ more, Window.Reached d source more last.place.window := by
  induction hpath generalizing text with
  | refl r => exact ⟨text, h⟩
  | step hmoves _ ih =>
      rcases reached_of_moves hmoves hsource h with ⟨ch, hnext⟩
      exact ih (by rw [toText_of_moves hmoves, hsource]) hnext

end Reader

/-- An offence is reported between two characters of the text. -/
theorem Stream.Offence.isBoundary {d : Delimiters} {source : List Char} {options : Options}
    {error : ParseError}
    (h : (Cursor.ofText d source).stream.Offence source options error) :
    IsBoundary source error.offset := by
  have hsource : (Cursor.ofText d source).toText = source := Cursor.toText_ofText d source
  rw [← Cursor.run_eq_stream] at h
  have hending := Reader.isBoundary_ending (r := ⟨.text [], .ofText d source⟩) hsource
  -- An error that names a section stands at its closing tag.
  have hclosing : ∀ {front back : List Token} {name : String} {stop offset : Nat},
      (Reader.mk (.text []) (.ofText d source)).run.tokens =
        front ++ .closing name stop offset :: back → IsBoundary source offset := by
    intro front back name stop offset htokens
    have hmem : .closing name stop offset ∈
        (Reader.mk (.text []) (.ofText d source)).run.tokens := by
      rw [htokens]
      exact List.mem_append_right _ List.mem_cons_self
    exact Reader.isBoundary_of_closing (r := ⟨.text [], .ofText d source⟩) hsource hmem
  -- The other two are where the stream ends.
  cases h with
  | unreadable hrun hend => rwa [hend] at hending
  | unclosed hrun hend hopen => rwa [hend] at hending
  | unmatched htokens hrun hname => exact hclosing htokens

section

variable {d : Delimiters}

/-- No tag starts where there is no opening delimiter. -/
theorem startsTag_of_absent {text : List Char} (h : ¬ d.opening <:+: text) :
    startsTag d text = false := by
  rw [startsTag, Bool.and_eq_false_iff]
  left
  rw [Bool.eq_false_iff]
  intro hprefix
  exact h (List.isPrefixOf_iff_prefix.mp hprefix).isInfix

/-- A line without an opening delimiter is not trimmed. -/
theorem Line.ofText_of_absent {text : List Char} (h : ¬ d.opening <:+: text) :
    Line.ofText d text = ⟨[], text, []⟩ := by
  -- A line of tags would start with the delimiter.
  have hnone : onlyTags? d (trimStart text) = none := by
    have htrim : ¬ d.opening <:+: trimStart text :=
      fun hwithin => h (hwithin.trans (List.dropWhile_suffix _).isInfix)
    rw [onlyTags?, startsTag_of_absent htrim, if_neg Bool.false_ne_true]
  rw [Line.ofText, hnone]

namespace Cursor

variable {c after : Cursor} {ch : Char}

/-- Reading goes on with the next character of the text, if no line on the way
    has an opening delimiter. -/
theorem ahead_of_absent (htrail : c.trail = [])
    (h : ¬ c.delimiters.opening <:+: c.ahead ++ c.beyond) (hnext : c.next? = some (ch, after)) :
    after.trail = [] ∧ c.ahead ++ c.beyond = ch :: (after.ahead ++ after.beyond) := by
  -- On the next line nothing is trimmed, so it is read from its start.
  rcases next?_cases hnext with ⟨hahead, hafter⟩ | ⟨hnil, hbeyond, hahead, hafter⟩
  · rw [hafter, hahead]
    exact ⟨htrail, rfl⟩
  · have htake := takeLine_append c.delimiters false (c.trail.reverse ++ c.behind) c.beyond
    have hline : Line.ofText c.delimiters c.nextLine.line = ⟨[], c.nextLine.line, []⟩ := by
      refine Line.ofText_of_absent fun hwithin => h (hwithin.trans ?_)
      rw [hnil, List.nil_append, line_nextLine]
      exact List.IsPrefix.isInfix ⟨_, htake⟩
    rw [trimmed_nextLine, Line.mk.injEq] at hline
    rw [hafter, hnil]
    refine ⟨hline.2.2, ?_⟩
    have hcons : c.nextLine.ahead = c.nextLine.line := hline.2.1
    rw [List.nil_append, ← List.cons_append, ← hahead, hcons, line_nextLine]
    exact htake.symm

/-- Without an opening delimiter the rest of the text is read as it stands. -/
theorem readFrom_of_absent {buffer : List Char} (htrail : c.trail = [])
    (h : ¬ c.delimiters.opening <:+: buffer.reverse ++ (c.ahead ++ c.beyond)) :
    ∃ rest, readFrom c.delimiters.opening buffer c =
      ⟨buffer.reverse ++ (c.ahead ++ c.beyond), false, rest⟩ := by
  -- The induction is on the reading, for the word that is looked for.
  generalize hword : c.delimiters.opening = word at h ⊢
  fun_induction readFrom word buffer c with
  | case1 buffer c hnext =>
      rw [(nil_of_next? hnext).1, (nil_of_next? hnext).2, List.append_nil, List.append_nil]
      exact ⟨c, rfl⟩
  | case2 buffer c ch after hnext hjust =>
      -- The delimiter would end with this character.
      rw [justRead, List.isPrefixOf_iff_prefix] at hjust
      rw [← hword] at h hjust
      have hahead := (ahead_of_absent htrail
        (fun hwithin => h (hwithin.trans (List.suffix_append _ _).isInfix)) hnext).2
      rw [hahead, List.append_cons, ← List.reverse_cons] at h
      refine absurd ?_ h
      have hsuffix := List.reverse_suffix.mpr hjust
      rw [List.reverse_reverse] at hsuffix
      exact hsuffix.isInfix.trans (List.prefix_append _ _).isInfix
  | case3 buffer c ch after hnext hjust ih =>
      rw [← hword] at h
      have habsent : ¬ c.delimiters.opening <:+: c.ahead ++ c.beyond := fun hwithin =>
        h (hwithin.trans (List.suffix_append _ _).isInfix)
      rcases ahead_of_absent htrail habsent hnext with ⟨hnil, hahead⟩
      have heq : (ch :: buffer).reverse ++ (after.ahead ++ after.beyond) =
          buffer.reverse ++ (c.ahead ++ c.beyond) := by
        rw [hahead, List.reverse_cons, List.append_assoc, List.singleton_append]
      rw [← heq] at h ⊢
      exact ih hnil (by rw [delimiters_next? hnext, hword]) (hword ▸ h)

end Cursor

end

/-- A text as the only segment of a template renders as itself. -/
theorem renderSegments_textSegments {σ ρ : Type} (env : Environment σ ρ) (text : List Char)
    {place : Place σ} (h : place.indent = "") :
    renderSegments env (textSegments text) place = pure (String.ofList text) := by
  cases text with
  | nil => rw [textSegments, renderSegments]
  | cons ch text =>
      simp only [textSegments, renderSegments, renderSegment, h, indentLines_empty, pure_bind,
        String.append_empty]

namespace Template

/-- A text without an opening delimiter compiles to itself. -/
theorem compileWith_of_absent {d : Delimiters} {source : String} (options : Options)
    (h : ¬ d.opening <:+: source.toList) :
    compileWith d options source = .ok ⟨textSegments source.toList⟩ := by
  have hread : ∃ rest, (Cursor.ofText d source.toList).readUntil d.opening =
      ⟨source.toList, false, rest⟩ :=
    Cursor.readFrom_of_absent (c := .ofText d source.toList) rfl h
  rcases hread with ⟨rest, hread⟩
  have hfound : ((Cursor.ofText d source.toList).readUntil d.opening).found = false := by rw [hread]
  rw [compileWith_eq_assemble, Cursor.stream_of_not_found hfound, Stream.assemble,
    Nesting.run_textTokens, show (Cursor.ofText d source.toList).delimiters = d from rfl, hread]
  rfl

/-- Whatever a reader does from the start of a text, it never cuts inside of a
    character, its offsets stay in order, and the text up to the place where it is
    holds nothing but the characters that it handed out and blanks. It goes on on
    the same line, or from the end of this line to the next. What compiling a text
    reads is part of this, so an error is reported between two characters, and a
    text without an opening delimiter is read as it stands and renders as
    itself. -/
theorem reading_is_lossless (d : Delimiters) (options : Options) (source : String) :
    (∀ text w, Window.Reached d source.toList text w →
      w.IsSound source.toList ∧
      (∃ front, Span.slice? source.toList ⟨0, w.pos⟩ = some front ∧ OmitsBlanks front text) ∧
      (∃ next, w.next? source.toList = some next ∧
        (next = none → OmitsBlanks source.toList text) ∧
        ∀ ch after, next = some (ch, after) →
          Span.slice? source.toList ⟨(after.back ch).pos, after.pos⟩ = some [ch] ∧
          ((after.line = w.line ∧ after.text = w.text) ∨
            (w.pos = w.text.stop ∧ after.line.start = w.line.stop))) ∧
      ∀ new, ∃ after, w.changeDelimiters? source.toList new = some after ∧
        after.pos = w.pos ∧ after.line.start = w.line.start ∧ after.text.start = w.text.start) ∧
    (∀ tokens r, (Reader.mk (.text []) (.ofText d source.toList)).Path tokens r →
      ∃ text, Window.Reached d source.toList text r.place.window) ∧
    (∀ error, compileWith d options source = .error (.illFormed error) →
      IsBoundary source.toList error.offset) ∧
    (¬ d.opening <:+: source.toList →
      (∃ rest, (Cursor.ofText d source.toList).readUntil d.opening =
        ⟨source.toList, false, rest⟩) ∧
      ∃ template, compileWith d options source = .ok template ∧
        ∀ {σ ρ : Type} (data : Node σ) (partials : Store ρ) (depth : Nat),
          template.render data partials (depth + 1) = pure source) := by
  refine ⟨?_, ?_, ?_, ?_⟩
  · intro text w hreached
    rcases hreached.exists_cursor with ⟨c, rfl, htext, hblanks, homits⟩
    refine ⟨hblanks.isSound_window htext, ⟨_, Cursor.slice?_behind htext, homits⟩,
      ⟨_, Cursor.window_next htext, ?_, ?_⟩, ?_⟩
    · intro hnone
      exact hblanks.omitsBlanks_of_end htext homits (Option.map_eq_none_iff.mp hnone)
    · intro ch after hsome
      rcases Cursor.exists_of_window_next htext (by rw [Cursor.window_next htext, hsome])
        with ⟨place, hplace, rfl⟩
      exact ⟨Cursor.slice?_of_next? htext hplace, Cursor.window_of_next? hplace⟩
    · intro new
      exact ⟨_, Cursor.window_changeDelimiters htext new, c.window_of_changeDelimiters new⟩
  · intro tokens r hpath
    exact Reader.reached_of_path hpath (Cursor.toText_ofText d source.toList) .start
  · intro error herror
    rw [compileWith_eq_assemble] at herror
    cases hassemble : (Cursor.ofText d source.toList).stream.assemble source.toList options
      .empty with
    | ok segments =>
        rw [hassemble] at herror
        simp only [Except.map, reduceCtorEq] at herror
    | error failure =>
        rw [hassemble] at herror
        rw [Except.error.inj herror, Stream.assemble_eq_illFormed_iff] at hassemble
        exact hassemble.isBoundary
  · intro hwithin
    refine ⟨Cursor.readFrom_of_absent (c := .ofText d source.toList) rfl hwithin, _,
      compileWith_of_absent options hwithin, ?_⟩
    intro σ ρ data partials depth
    rw [render, renderWithin, renderSegments_textSegments _ _ rfl, String.ofList_toList]

-- The first line is trimmed to its comment, so the first character is at offset 2.
example : Window.next? "  {{!}} \nx".toList ⟨.standard, 0, ⟨0, 0⟩, ⟨0, 0⟩⟩ =
    some (some ('{', ⟨.standard, 3, ⟨0, 9⟩, ⟨2, 7⟩⟩)) := by decide +kernel

end Template

end Mustache
