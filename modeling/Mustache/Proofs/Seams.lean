import Mustache.Proofs.Recoding
import Mustache.Proofs.Regular

/-!
# Texts in a Row

A text that is read behind another one, or before another one.

Behind another text, where a line starts, reading a text is what it is at the
start: no delimiter and no comment reaches over a line end, so all that is
different are the byte offsets. This holds whatever the delimiters are, and also
when they change.

Before another text, reading a text is what it is at the end, as long as each
line that is taken ends with a line end of its own. A text that was read up to
the seam is continued by what follows it.

## Main definitions

* `Reader.under`: The same place with another text before the whole one.
* `Reader.extend`: The same place with another text after the whole one.

## Theorems

* `Reader.run_under`: Reading behind another text moves all offsets.
* `Reader.Path.extend`: Reading before another text is the same.
* `Reader.run_text_append`: A text that was begun is continued.
-/

namespace Mustache

open Text

/-- The same place with another text before the whole one, which is kept last
    character first. -/
def Cursor.under (front : List Char) (c : Cursor) : Cursor :=
  { c with before := c.before ++ front }

/-- What reading is in the middle of when a tag starts further on. -/
def Mode.shift (count : Nat) : Mode → Mode
  | text buffer => text buffer
  | opened start => opened (start + count)
  | content start sigil buffer => content (start + count) sigil buffer

/-- The event when a tag starts further on. -/
def Event.shift (count : Nat) : Event → Event
  | quiet => quiet
  | opens text => opens text
  | ends tag start => ends tag (start + count)

/-- The same reader with another text before the whole one. -/
def Reader.under (front : List Char) (r : Reader) : Reader :=
  ⟨r.mode.shift (byteLength front), r.place.under front⟩

namespace Cursor

variable {front : List Char} (c : Cursor)

/-- The other text is behind what was read. -/
theorem behind_under : (c.under front).behind = c.behind ++ front := by
  simp only [behind, under, List.append_assoc]

/-- All offsets are moved by its length: that of the cursor, -/
theorem pos_under : (c.under front).pos = c.pos + byteLength front := by
  rw [pos, behind_under, byteLength_append, pos]

/-- that of its line, -/
theorem lineStart_under : (c.under front).lineStart = c.lineStart + byteLength front := by
  simp only [lineStart, under, byteLength_append]

/-- that of the text on the line, -/
theorem textStart_under : (c.under front).textStart = c.textStart + byteLength front := by
  rw [textStart, lineStart_under, textStart]
  have hlead : (c.under front).lead = c.lead := rfl
  rw [hlead]
  omega

/-- that of a body after it, -/
theorem bodyStart_under : (c.under front).bodyStart = c.bodyStart + byteLength front := by
  have hahead : (c.under front).ahead = c.ahead := rfl
  have htrail : (c.under front).trail = c.trail := rfl
  rw [bodyStart, bodyStart, hahead, htrail, pos_under]
  by_cases hnil : c.ahead.isEmpty = true
  · rw [if_pos hnil, if_pos hnil]
    omega
  · rw [if_neg hnil, if_neg hnil]

/-- and that of a body before it. -/
theorem bodyEnd_under (start : Nat) :
    (c.under front).bodyEnd (start + byteLength front) = c.bodyEnd start + byteLength front := by
  have hlead : (c.under front).lead = c.lead := rfl
  rw [bodyEnd, bodyEnd, textStart_under, lineStart_under, hlead]
  by_cases hstart : start = c.textStart
  · rw [hstart, decide_eq_true rfl, decide_eq_true rfl, Bool.true_and]
    split
    case isTrue => rfl
    case isFalse => rfl
  · -- No two offsets are moved together.
    have hne : start + byteLength front ≠ c.textStart + byteLength front := by omega
    rw [decide_eq_false hstart, decide_eq_false hne, Bool.false_and, if_neg Bool.false_ne_true,
      if_neg Bool.false_ne_true]

variable {c}

/-- Behind the start of a line the next line is the same one. -/
theorem nextLine_under (h : StartsLine front) :
    (c.under front).nextLine = c.nextLine.under front := by
  -- No comment is open at the start of a line, so what is further behind does not
  -- matter.
  have htake : takeLine c.delimiters false (c.trail.reverse ++ (c.under front).behind) c.beyond =
      takeLine c.delimiters false (c.trail.reverse ++ c.behind) c.beyond := by
    rw [behind_under, ← List.append_assoc, takeLine_behind h]
  have hbefore : c.trail.reverse ++ (c.under front).behind =
      c.trail.reverse ++ c.behind ++ front := by
    rw [behind_under, List.append_assoc]
  rw [nextLine, nextLine]
  dsimp only [under] at htake hbefore ⊢
  rw [htake, hbefore]

/-- It is taken in the same places. -/
theorem atLine_under (h : StartsLine front) : (c.under front).atLine = c.atLine.under front := by
  have hahead : (c.under front).ahead = c.ahead := rfl
  have hbeyond : (c.under front).beyond = c.beyond := rfl
  rw [atLine, atLine, hahead, hbeyond]
  split
  case isTrue => exact nextLine_under h
  case isFalse => rfl

/-- The next character is the same one. -/
theorem next?_under (h : StartsLine front) :
    (c.under front).next? = c.next?.map fun next => (next.1, next.2.under front) := by
  have hahead : (c.atLine.under front).ahead = c.atLine.ahead := rfl
  rw [next?, next?, atLine_under h, hahead]
  cases c.atLine.ahead with
  | nil => rfl
  | cons ch ahead => rfl

/-- A change of delimiters takes the same line anew. -/
theorem changeDelimiters_under (h : StartsLine front) (new : Delimiters) :
    (c.under front).changeDelimiters new = (c.changeDelimiters new).under front := by
  have htake : takeLine new false (c.under front).behind (c.ahead ++ c.beyond) =
      takeLine new false c.behind (c.ahead ++ c.beyond) := by
    rw [behind_under, takeLine_behind h]
  have hon : (c.under front).onTags = c.onTags := rfl
  have htrail : (c.under front).trail = c.trail := rfl
  have hahead : (c.under front).ahead = c.ahead := rfl
  have hbeyond : (c.under front).beyond = c.beyond := rfl
  rw [changeDelimiters, changeDelimiters, hon, htrail, hahead, hbeyond, htake]
  by_cases hnil : c.trail.isEmpty = true
  · rw [if_pos hnil, if_pos hnil]
    dsimp only
    cases (if c.onTags then
        onlyTags? new (takeLine new false c.behind (c.ahead ++ c.beyond)).1 else none) with
    | none => rfl
    | some line => rfl
  · rw [if_neg hnil, if_neg hnil]
    rfl

/-- A tag is the same tag, and an error is the same error further on. -/
theorem complete_under (h : StartsLine front) (sigil : Char) (text : List Char) :
    (c.under front).complete sigil text =
      match c.complete sigil text with
      | .error error => .error (error.recode id (· + byteLength front))
      | .ok (tag, place) => .ok (tag, place.under front) := by
  have hlead : (c.under front).lead = c.lead := rfl
  rw [complete, complete, pos_under, hlead]
  by_cases hcomment : sigil = '!'
  · rw [if_pos hcomment, if_pos hcomment]
  · rw [if_neg hcomment, if_neg hcomment]
    cases trim text with
    | nil => rfl
    | cons ch content =>
        dsimp only
        by_cases hchange : sigil = '='
        · rw [if_pos hchange, if_pos hchange]
          cases Delimiters.ofBody? (ch :: content) with
          | none => rfl
          | some new =>
              dsimp only
              rw [changeDelimiters_under h]
        · rw [if_neg hchange, if_neg hchange]

theorem tagStart_under (h : byteLength c.delimiters.opening ≤ c.pos) :
    (c.under front).tagStart = c.tagStart + byteLength front := by
  have hdelimiters : (c.under front).delimiters = c.delimiters := rfl
  rw [tagStart, tagStart, pos_under, hdelimiters]
  omega

end Cursor

/-- What was read of a text stands before the cursor. -/
def Mode.FitsIn (c : Cursor) : Mode → Prop
  | text buffer => byteLength buffer ≤ c.pos
  | _ => True

section

variable {front : List Char}

/-- The tokens are the same ones, with moved offsets. -/
theorem tokens_under (event : Event) (after : Cursor) :
    (event.shift (byteLength front)).tokens (after.under front) =
      (event.tokens after).map (Token.recode id (· + byteLength front)) := by
  cases event with
  | quiet => rfl
  | opens text =>
      cases text with
      | nil => rfl
      | cons ch text => rfl
  | ends tag start =>
      cases tag with
      | single tag =>
          cases tag with
          | comment => rfl
          | delimiters new => rfl
          | value name isEscaped => rfl
          | reference reference => rfl
      | opening kind name =>
          simp only [Event.shift, Event.tokens, Tag.tokensFrom, List.map_cons, List.map_nil,
            Token.recode, Opening.recode_id, Cursor.bodyStart_under, id_eq]
          rfl
      | closing name =>
          simp only [Event.shift, Event.tokens, Tag.tokensFrom, List.map_cons, List.map_nil,
            Token.recode, Cursor.bodyEnd_under, Cursor.pos_under, id_eq]

/-- The content of a tag is complete at the same character. -/
theorem contentStep_under (h : StartsLine front) (start : Nat) (sigil : Char) (buffer : List Char)
    (ch : Char) (after : Cursor) :
    contentStep (start + byteLength front) sigil buffer ch (after.under front) =
      match contentStep start sigil buffer ch after with
      | .error error => .error (error.recode id (· + byteLength front))
      | .ok (event, next) => .ok (event.shift (byteLength front), next.under front) := by
  have hdelimiters : (after.under front).delimiters = after.delimiters := rfl
  rw [contentStep, contentStep, hdelimiters]
  by_cases hword : justRead (after.delimiters.word sigil) (ch :: buffer) = true
  · rw [if_pos hword, if_pos hword, Cursor.complete_under h]
    cases after.complete sigil
        ((ch :: buffer).drop (after.delimiters.word sigil).length).reverse with
    | error error => rfl
    | ok result => rfl
  · rw [if_neg hword, if_neg hword]
    rfl

/-- What a character does is the same. -/
theorem Mode.step_under (h : StartsLine front) (mode : Mode) (ch : Char) (after : Cursor)
    (hfits : ∀ buffer, mode = .text buffer → byteLength (ch :: buffer) ≤ after.pos) :
    (mode.shift (byteLength front)).step ch (after.under front) =
      match mode.step ch after with
      | .error error => .error (error.recode id (· + byteLength front))
      | .ok (event, next) => .ok (event.shift (byteLength front), next.under front) := by
  have hdelimiters : (after.under front).delimiters = after.delimiters := rfl
  cases mode with
  | text buffer =>
      simp only [shift, step, hdelimiters]
      by_cases hword : justRead after.delimiters.opening (ch :: buffer) = true
      · -- The delimiter was read from the text itself, so the start of the tag is moved
        -- with it.
        have hle := (byteLength_le_of_justRead hword).trans (hfits buffer rfl)
        rw [if_pos hword, if_pos hword, Cursor.tagStart_under hle]
        rfl
      · rw [if_neg hword, if_neg hword]
        rfl
  | opened start =>
      simp only [shift, step]
      by_cases hblank : isBlank ch = true
      · rw [if_pos hblank, if_pos hblank]
        rfl
      · rw [if_neg hblank, if_neg hblank]
        by_cases hmem : ch ∈ leadingSigils
        · rw [if_pos hmem, if_pos hmem]
          rfl
        · rw [if_neg hmem, if_neg hmem]
          exact contentStep_under h start ch [] ch after
  | content start sigil buffer => exact contentStep_under h start sigil buffer ch after

/-- So is what is left at the end. -/
theorem Mode.finish_under (mode : Mode) (c : Cursor) :
    (mode.shift (byteLength front)).finish (c.under front) =
      (mode.finish c).recode id (· + byteLength front) := by
  cases mode with
  | text buffer =>
      simp only [shift, finish, Cursor.pos_under, Stream.recode]
      cases buffer.reverse with
      | nil => rfl
      | cons ch text => rfl
  | opened start => simp only [shift, finish, Cursor.pos_under]; rfl
  | content start sigil buffer => simp only [shift, finish, Cursor.pos_under]; rfl

end

namespace Reader

variable {front : List Char} {r next : Reader} {event : Event}

/-- The next character fits in as well. -/
theorem fitsIn_next {ch : Char} {after : Cursor} (h : r.mode.FitsIn r.place)
    (hnext : r.place.next? = some (ch, after)) :
    ∀ buffer, r.mode = .text buffer → byteLength (ch :: buffer) ≤ after.pos := by
  intro buffer hmode
  have hpos := Cursor.add_pos_le_of_next? hnext
  rw [hmode] at h
  have hbuffer : byteLength buffer ≤ r.place.pos := h
  rw [byteLength]
  omega

/-- And so does what is read after any move. -/
theorem fitsIn_moves (h : r.mode.FitsIn r.place) (hmoves : r.Moves event next) :
    next.mode.FitsIn next.place := by
  rcases hmoves with ⟨ch, after, hnext, hstep⟩
  have hfits := fitsIn_next h hnext
  rcases r with ⟨mode, place⟩
  have hsteps := Mode.steps_of_step hstep
  cases hsteps with
  | @text buffer hjust => exact hfits buffer rfl
  | ends => exact Nat.zero_le _
  | _ => trivial

/-- Behind another text, at the start of a line, reading is the same, but for
    the byte offsets. -/
theorem run_under (h : StartsLine front) (hfits : r.mode.FitsIn r.place) :
    (r.under front).run = r.run.recode id (· + byteLength front) := by
  fun_induction run r with
  | case1 r hnext =>
      have hnext' : (r.under front).place.next? = none := by
        rw [under, Cursor.next?_under h, hnext]
        rfl
      rw [run_of_none hnext']
      exact Mode.finish_under r.mode r.place
  | case2 r ch after hnext error hstep =>
      have hnext' : (r.under front).place.next? = some (ch, after.under front) := by
        rw [under, Cursor.next?_under h, hnext]
        rfl
      -- The induction is on the characters of the text, and each of them does the same
      -- there.
      have hstep' := Mode.step_under h r.mode ch after (fitsIn_next hfits hnext)
      rw [hstep] at hstep'
      rw [run_of_error hnext' hstep']
      rfl
  | case3 r ch after hnext event next hstep ih =>
      have hnext' : (r.under front).place.next? = some (ch, after.under front) := by
        rw [under, Cursor.next?_under h, hnext]
        rfl
      have hstep' := Mode.step_under h r.mode ch after (fitsIn_next hfits hnext)
      rw [hstep] at hstep'
      rw [run_of_moves ⟨ch, after.under front, hnext', hstep'⟩, Stream.recode_prepend,
        ← ih (fitsIn_moves hfits ⟨ch, after, hnext, hstep⟩), ← tokens_under]
      rfl

end Reader

/-- The same place with another text after the whole one. -/
def Cursor.extend (back : List Char) (c : Cursor) : Cursor :=
  { c with beyond := c.beyond ++ back }

/-- The same reader with another text after the whole one. -/
def Reader.extend (back : List Char) (r : Reader) : Reader :=
  ⟨r.mode, r.place.extend back⟩

section

variable {back : List Char}

/-- What a tag is depends on the blanks at the start of its line alone, unless
    it changes the delimiters. -/
theorem Cursor.complete_of_lead {after after' place : Cursor} {sigil : Char} {text : List Char}
    {tag : Tag} (hlead : after'.lead = after.lead)
    (h : after.complete sigil text = .ok (tag, place))
    (hkind : ∀ new, tag ≠ .single (.delimiters new)) :
    after'.complete sigil text = .ok (tag, after') := by
  unfold Cursor.complete at h ⊢
  by_cases hcomment : sigil = '!'
  · rw [if_pos hcomment, Except.ok.injEq, Prod.mk.injEq] at h
    rw [if_pos hcomment, h.1]
  · rw [if_neg hcomment] at h ⊢
    cases htext : trim text with
    | nil =>
        rw [htext] at h
        simp only [reduceCtorEq] at h
    | cons ch content =>
        rw [htext] at h
        dsimp only at h ⊢
        by_cases hchange : sigil = '='
        · rw [if_pos hchange] at h
          cases hnew : Delimiters.ofBody? (ch :: content) with
          | none =>
              rw [hnew] at h
              simp only [reduceCtorEq] at h
          | some new =>
              rw [hnew] at h
              dsimp only at h
              rw [Except.ok.injEq, Prod.mk.injEq] at h
              exact absurd h.1.symm (hkind new)
        · rw [if_neg hchange, Except.ok.injEq, Prod.mk.injEq] at h
          rw [if_neg hchange, hlead, h.1]

/-- Of the place that a character leads to, a step looks at the delimiters, the
    offset and the blanks at the start of the line. -/
theorem Mode.Steps.congr {mode mode' : Mode} {ch : Char} {after after' : Cursor} {event : Event}
    (h : mode.Steps ch after event ⟨mode', after⟩)
    (hdelimiters : after'.delimiters = after.delimiters) (hpos : after'.pos = after.pos)
    (hlead : after'.lead = after.lead)
    (hchange : ∀ new start, event ≠ .ends (.single (.delimiters new)) start) :
    mode.Steps ch after' event ⟨mode', after'⟩ := by
  cases h with
  | text hjust =>
      rw [← hdelimiters] at hjust
      exact .text hjust
  | opens hjust =>
      have hstart : after.tagStart = after'.tagStart := by
        rw [Cursor.tagStart, Cursor.tagStart, hdelimiters, hpos]
      rw [← hdelimiters] at hjust ⊢
      rw [hstart]
      exact .opens hjust
  | blank hblank => exact .blank hblank
  | sigil hblank hmem => exact .sigil hblank hmem
  | kept hblank hmem hjust =>
      rw [← hdelimiters] at hjust
      exact .kept hblank hmem hjust
  | content hjust =>
      rw [← hdelimiters] at hjust
      exact .content hjust
  | @ends start sigil buffer tag place hjust hcomplete =>
      rw [← hdelimiters] at hjust hcomplete
      refine .ends hjust (Cursor.complete_of_lead hlead hcomplete ?_)
      intro new htag
      exact hchange new start (by rw [htag])

/-- What comes after the text does not change the tokens. -/
theorem tokens_extend (event : Event) (after : Cursor) :
    event.tokens (after.extend back) = event.tokens after := by
  cases event with
  | ends tag start =>
      cases tag with
      | single tag => cases tag <;> rfl
      | opening kind name => rfl
      | closing name => rfl
  | _ => rfl

end

namespace Cursor

variable {c after : Cursor} {ch : Char} {back : List Char}

/-- The next line is the same one, if it has a line end of its own. -/
theorem nextLine_extend (h : c.nextLine.beyond = [] →
    IsClosed c.delimiters false (c.trail.reverse ++ c.behind) c.nextLine.line) :
    (c.extend back).nextLine = c.nextLine.extend back := by
  have htake := takeLine_append c.delimiters false (c.trail.reverse ++ c.behind) c.beyond
  have hspec : IsLine c.delimiters false (c.trail.reverse ++ c.behind) c.nextLine.line ∧
      (c.nextLine.beyond ≠ [] →
        IsClosed c.delimiters false (c.trail.reverse ++ c.behind) c.nextLine.line) := by
    rw [line_nextLine]
    exact isLine_takeLine rfl
  -- A line with another one after it has a line end anyway.
  have hclosed : IsClosed c.delimiters false (c.trail.reverse ++ c.behind) c.nextLine.line := by
    by_cases hbeyond : c.nextLine.beyond = []
    · exact h hbeyond
    · exact hspec.2 hbeyond
  rw [line_nextLine] at hclosed hspec
  have hextend : takeLine (c.extend back).delimiters false
      ((c.extend back).trail.reverse ++ (c.extend back).behind) (c.extend back).beyond =
      ((takeLine c.delimiters false (c.trail.reverse ++ c.behind) c.beyond).1,
        (takeLine c.delimiters false (c.trail.reverse ++ c.behind) c.beyond).2 ++ back) := by
    rw [← takeLine_eq hspec.1 (Or.inr hclosed), ← List.append_assoc, htake]
    rfl
  rw [nextLine, nextLine, hextend]
  rfl

/-- Reading goes on as it does without the other text, as long as a line that is
    taken ends with a line end of its own. -/
theorem next?_extend (h : c.next? = some (ch, after))
    (hclosed : c.ahead = [] → after.beyond = [] →
      IsClosed c.delimiters false after.before after.line) :
    (c.extend back).next? = some (ch, after.extend back) := by
  have hahead : (c.extend back).ahead = c.ahead := rfl
  rcases next?_cases h with ⟨hcons, hafter⟩ | ⟨hnil, hbeyond, hcons, hafter⟩
  · -- The character is on the line already.
    have hat : (c.extend back).atLine = c.extend back := by
      refine atLine_of_ne_nil ?_
      rw [hahead, hcons]
      exact List.cons_ne_nil _ _
    rw [next?, hat, hahead, hcons]
    dsimp only
    rw [hafter]
    rfl
  · rcases nextLine_of_next? h hnil with ⟨_, hbefore, hline, hlast⟩
    have hextend : (c.extend back).nextLine = c.nextLine.extend back := by
      refine nextLine_extend ?_
      intro hend
      rw [← hbefore, ← hline]
      exact hclosed hnil (by rw [hlast, hend])
    have hmore : (c.extend back).beyond ≠ [] := List.append_ne_nil_of_left_ne_nil hbeyond _
    have hnil' : (c.extend back).ahead = [] := hnil
    have hcons' : (c.nextLine.extend back).ahead = ch :: after.ahead := hcons
    rw [next?, atLine_of_nil hnil' hmore, hextend, hcons']
    dsimp only
    rw [hafter]
    rfl

theorem toText_eq_line (c : Cursor) : c.toText = c.before.reverse ++ c.line ++ c.beyond := by
  simp only [toText, behind, line, List.reverse_append, List.reverse_reverse, List.append_assoc]

/-- A line that was read from is not empty. -/
theorem line_ne_nil (h : c.next? = some (ch, after)) : after.line ≠ [] := by
  have hread := Reader.head?_read_next h
  intro hnil
  rw [line, List.append_eq_nil_iff, List.append_eq_nil_iff, List.append_eq_nil_iff,
    List.reverse_eq_nil_iff] at hnil
  rw [hnil.1.2.1] at hread
  simp only [List.head?_nil, reduceCtorEq] at hread

end Cursor

namespace Reader

variable {r next last : Reader} {event : Event} {tokens : List Token} {buffer back : List Char}

/-- A step is the same before another text, unless it would be the first one on
    a line that has no end. -/
theorem Moves.extend (hkeeps : r.KeepsDelimiters) (hmoves : r.Moves event next)
    (hclosed : r.place.ahead = [] → next.place.beyond = [] →
      IsClosed r.place.delimiters false next.place.before next.place.line) :
    (r.extend back).Moves event (next.extend back) := by
  rcases hkeeps.steps hmoves with ⟨ch, hnext, hsteps⟩
  have hchange := hkeeps [] r event next (.refl r) hmoves
  have hsteps' : r.mode.Steps ch (next.place.extend back) event
      ⟨next.mode, next.place.extend back⟩ := hsteps.congr rfl rfl rfl hchange
  exact ⟨ch, next.place.extend back, Cursor.next?_extend hnext hclosed, hsteps'.step_eq⟩

/-- Reading a text that ends with a line end is the same before another text. -/
theorem Path.extend (h : r.IsRegular) (hkeeps : r.KeepsDelimiters) (hpath : r.Path tokens last)
    (hmode : last.mode = .text buffer) (hend : last.place.next? = none)
    (htext : StartsLine r.place.toText.reverse) :
    (r.extend back).Path tokens (last.extend back) := by
  induction hpath with
  | refl r => exact .refl _
  | @step r next last event tokens hmoves hpath ih =>
      rcases hkeeps.steps hmoves with ⟨ch, hnext, hsteps⟩
      have hnextKeeps := hkeeps.of_moves hmoves
      have hregular := h.moves hkeeps hmoves
      have hnextText : StartsLine next.place.toText.reverse := by
        rwa [Cursor.toText_next? hnext]
      have hpath' := ih hregular hnextKeeps hmode hend hnextText
      -- The last line leaves no comment open, so its line end is a line end.
      have hclosed : r.place.ahead = [] → next.place.beyond = [] →
          IsClosed r.place.delimiters false next.place.before next.place.line := by
        intro _ hbeyond
        have hcomment := hregular.not_inComment_of_path hnextKeeps hpath hmode hend hbeyond
        rw [Cursor.delimiters_next? hnext] at hcomment
        refine ⟨?_, hcomment⟩
        -- The line is the end of the text, so the last character of both is the same.
        rcases Option.isSome_iff_exists.mp
          (List.getLast?_isSome.mpr (Cursor.line_ne_nil hnext)) with
          ⟨ending, hending⟩
        rw [StartsLine, Cursor.toText_eq_line, hbeyond, List.append_nil, List.head?_reverse,
          List.getLast?_append_of_ne_nil _ (Cursor.line_ne_nil hnext), hending] at hnextText
        rw [hending, hnextText ending rfl]
      have hfirst : (r.extend back).Moves event (next.extend back) :=
        Moves.extend hkeeps hmoves hclosed
      have htokens : event.tokens (next.extend back).place = event.tokens next.place :=
        tokens_extend event next.place
      rw [← htokens]
      exact .step hfirst hpath'

end Reader

namespace Cursor

/-- A word is found in the same place after a text that it does not begin in. -/
theorem readFrom_append {word front : List Char} (buffer : List Char) (c : Cursor)
    (h : ∀ ch ∈ front.head?, ch ∉ word) :
    readFrom word (buffer ++ front) c =
      ⟨front.reverse ++ (readFrom word buffer c).text, (readFrom word buffer c).found,
        (readFrom word buffer c).rest⟩ := by
  fun_induction readFrom word buffer c with
  | case1 buffer c hnext => rw [readFrom_of_none word _ hnext, List.reverse_append]
  | case2 buffer c ch after hnext hjust =>
      have hjust' : justRead word (ch :: (buffer ++ front)) = true := by
        rw [← List.cons_append, justRead_append h, hjust]
      have hlength : word.length ≤ (ch :: buffer).length := by
        rw [justRead, List.isPrefixOf_iff_prefix] at hjust
        have hle := hjust.length_le
        rwa [List.length_reverse] at hle
      rw [readFrom_of_next word _ hnext, if_pos hjust', ← List.cons_append,
        List.drop_append_of_le_length hlength, List.reverse_append]
  | case3 buffer c ch after hnext hjust ih =>
      have hjust' : ¬ justRead word (ch :: (buffer ++ front)) = true := by
        rw [← List.cons_append, justRead_append h]
        exact hjust
      rw [readFrom_of_next word _ hnext, if_neg hjust', ← List.cons_append, ih]

/-- A text that was begun is continued by what follows it. -/
theorem run_text_append {c : Cursor} {front : List Char}
    (h : ∀ ch ∈ front.head?, ch ∉ c.delimiters.opening) :
    ∃ (text : List Char) (stream : Stream),
      (Reader.mk (.text []) c).run = stream.prepend (textTokens text) ∧
      (Reader.mk (.text front) c).run = stream.prepend (textTokens (front.reverse ++ text)) := by
  have hread := readFrom_append [] c h
  rw [List.nil_append] at hread
  have hrun := run_text [] c
  have hrun' := run_text front c
  dsimp only at hrun hrun'
  rw [hread] at hrun'
  generalize readFrom c.delimiters.opening [] c = reading at hrun hrun'
  dsimp only at hrun'
  by_cases hfound : reading.found = true
  · rw [if_pos hfound] at hrun hrun'
    exact ⟨_, _, hrun, hrun'⟩
  · rw [if_neg hfound] at hrun hrun'
    refine ⟨reading.text, ⟨[], .endOfText reading.rest.pos⟩, ?_, ?_⟩
    · rw [hrun, Stream.prepend, List.append_nil]
    · rw [hrun', Stream.prepend, List.append_nil]

/-- Where the current line ends, all that counts is what stands before the next. -/
theorem next?_eq_under {c : Cursor} (hahead : c.ahead = []) (hbeyond : c.beyond ≠ []) :
    c.next? = ((ofText c.delimiters c.beyond).under (c.trail.reverse ++ c.behind)).next? := by
  have hnext : c.nextLine =
      ((ofText c.delimiters c.beyond).under (c.trail.reverse ++ c.behind)).nextLine := by
    simp only [nextLine, ofText, under, behind, List.reverse_nil, List.nil_append]
  have hahead' : ((ofText c.delimiters c.beyond).under (c.trail.reverse ++ c.behind)).ahead = [] :=
    rfl
  rw [next?, next?, atLine_of_nil hahead hbeyond, atLine_of_nil hahead' hbeyond, hnext]

end Cursor

/-- Two readers go on in the same way when they have the same next character. -/
theorem Reader.run_congr {mode : Mode} {c c' : Cursor} (hnext : c.next? = c'.next?)
    (hsome : c.next? ≠ none) : (Reader.mk mode c).run = (Reader.mk mode c').run := by
  cases h : c.next? with
  | none => exact absurd h hsome
  | some next =>
      rcases next with ⟨ch, after⟩
      have h' : c'.next? = some (ch, after) := by rw [← hnext, h]
      cases hstep : mode.step ch after with
      | error error =>
          have hrun := run_of_error (r := ⟨mode, c⟩) h hstep
          have hrun' := run_of_error (r := ⟨mode, c'⟩) h' hstep
          rw [hrun, hrun']
      | ok result =>
          have hrun := run_of_moves (r := ⟨mode, c⟩) ⟨ch, after, h, hstep⟩
          have hrun' := run_of_moves (r := ⟨mode, c'⟩) ⟨ch, after, h', hstep⟩
          rw [hrun, hrun']

/-- Where a line ends, what is left is read as a text of its own behind what stands
    before it. -/
theorem Reader.run_eq_under {mode : Mode} {c : Cursor} {d : Delimiters} {front back : List Char}
    (hahead : c.ahead = []) (hbehind : c.trail.reverse ++ c.behind = front)
    (hbeyond : c.beyond = back) (hback : back ≠ []) (hdelimiters : c.delimiters = d) :
    (Reader.mk mode c).run = (Reader.mk mode ((Cursor.ofText d back).under front)).run := by
  have hnext := Cursor.next?_eq_under hahead (by rwa [hbeyond])
  rw [hbehind, hbeyond, hdelimiters] at hnext
  refine run_congr hnext fun hnone => ?_
  rw [(Cursor.nil_of_next? hnone).2] at hbeyond
  exact hback hbeyond.symm

/-- The tokens of a text are the ones its reader makes. -/
theorem Template.stream_eq_run (source : String) :
    stream source = (Reader.ofText source.toList).run :=
  (Cursor.run_eq_stream _).symm

end Mustache
