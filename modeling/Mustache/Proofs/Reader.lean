import Mustache.Proofs.Stream

/-!
# Reading Character by Character

The stream of a text, made by a machine that takes one character at a time. A
cursor reads up to a word and looks for the next tag from there, and each of
these readings is a recursion of its own. The machine keeps in its state what
they are in the middle of: a text, a tag without a sigil so far, or the content
of a tag. All that is still to come depends on this state, so a reader can be
stopped at any character and be compared there with the reader of another text.

## Main definitions

* `Mode`: What reading is in the middle of.
* `Reader`: A place in a text and what reading is in the middle of there.
* `Event`: What a character completes.
* `Mode.step`: What one character does.
* `Reader.run`: The stream from a reader on.
* `Reader.Moves`, `Reader.Path`: One character, or any number of them.
* `Reader.KeepsDelimiters`: No tag that is read is a delimiter tag.

## Theorems

* `Cursor.run_eq_stream`: The machine makes the stream of a text.
* `Reader.run_of_path`: What is read on the way stands before the rest.
* `Reader.exists_path_of_endOfText`: A stream that ends with the text stems from
  a path to its end.
* `Reader.exists_path_of_tokens`: Every token is read at some place.
-/

namespace Mustache

open Text

/-- The sigils that are no part of the content after them. -/
def leadingSigils : List Char :=
  ['/', '!', '=', '#', '^', '$', '>', '<', '{', '&']

/-- The word that ends a tag with the given sigil. -/
def Delimiters.word (d : Delimiters) (sigil : Char) : List Char :=
  if sigil = '{' then '}' :: d.closing else if sigil = '=' then '=' :: d.closing else d.closing

/-- The tag with the given sigil and content, on a line with the given indent. -/
def Tag.ofContent (sigil : Char) (content indent : List Char) : Tag :=
  match sigil with
  | '/' => .closing (String.ofList content)
  | '#' => .opening .sect (String.ofList content)
  | '^' => .opening .inverted (String.ofList content)
  | '$' => .opening .block (String.ofList content)
  | '>' => .single (.reference (.ofContent content indent))
  | '*' => .single (.reference (.ofContent content indent))
  | '<' => .opening (.parent (.ofContent content indent)) (Reference.ofContent content indent).name
  | '{' => .single (.value (String.ofList content) false)
  | '&' => .single (.value (String.ofList content) false)
  | _ => .single (.value (String.ofList content) true)

/-- The tag with the given sigil and content that ends at the cursor, and the
    place after it. -/
def Cursor.complete (after : Cursor) (sigil : Char) (text : List Char) :
    Except ParseError (Tag × Cursor) :=
  if sigil = '!' then .ok (.single .comment, after)
  else
    match trim text with
    | [] => .error ⟨.missingTag, after.pos⟩
    | content =>
      if sigil = '=' then
        match Delimiters.ofBody? content with
        | none => .error ⟨.invalidDelimiters (String.ofList content), after.pos⟩
        | some new => .ok (.single (.delimiters new), after.changeDelimiters new)
      else .ok (.ofContent sigil content after.lead, after)

/-- The token of a tag, if it has one. The tag was opened at the byte offset
    `start` and ends at the place `after`. -/
def Tag.tokensFrom (start : Nat) (after : Cursor) : Tag → List Token
  | single .comment => []
  | single (.delimiters _) => []
  | single (.value name isEscaped) => [.value name isEscaped]
  | single (.reference r) => [.reference r]
  | opening kind name => [.opening kind name after.bodyStart after.delimiters]
  | closing name => [.closing name (after.bodyEnd start) after.pos]

theorem Tag.tokens_eq (opened after : Cursor) (tag : Tag) :
    tag.tokens opened after = tag.tokensFrom opened.tagStart after := by
  cases tag with
  | single tag => cases tag <;> rfl
  | opening kind name => rfl
  | closing name => rfl

/-- What reading is in the middle of. The characters that were read are kept
    last one first. -/
inductive Mode
  /-- Text, or nothing so far. -/
  | text (buffer : List Char)
  /-- A tag whose sigil was not read yet. The tag starts at the byte offset
      `start`. -/
  | opened (start : Nat)
  /-- The content of a tag. -/
  | content (start : Nat) (sigil : Char) (buffer : List Char)

/-- A place in a text and what reading is in the middle of there. -/
structure Reader where
  mode : Mode
  place : Cursor

/-- What a character completes. -/
inductive Event
  /-- Nothing. -/
  | quiet
  /-- An opening delimiter, with the text before it. -/
  | opens (text : List Char)
  /-- A tag, which was opened at the byte offset `start`. -/
  | ends (tag : Tag) (start : Nat)

/-- The tokens that an event makes, when it leads to the place `after`. -/
def Event.tokens (after : Cursor) : Event → List Token
  | quiet => []
  | opens text => textTokens text
  | ends tag start => tag.tokensFrom start after

/-- Another character of the content of a tag, up to the place `after`. -/
def contentStep (start : Nat) (sigil : Char) (buffer : List Char) (ch : Char) (after : Cursor) :
    Except ParseError (Event × Reader) :=
  let word := after.delimiters.word sigil
  if justRead word (ch :: buffer) then
    match after.complete sigil ((ch :: buffer).drop word.length).reverse with
    | .error error => .error error
    | .ok (tag, place) => .ok (.ends tag start, ⟨.text [], place⟩)
  else .ok (.quiet, ⟨.content start sigil (ch :: buffer), after⟩)

/-- Another character, up to the place `after`. -/
def Mode.step (ch : Char) (after : Cursor) : Mode → Except ParseError (Event × Reader)
  | text buffer =>
    let word := after.delimiters.opening
    if justRead word (ch :: buffer) then
      .ok (.opens ((ch :: buffer).drop word.length).reverse, ⟨.opened after.tagStart, after⟩)
    else .ok (.quiet, ⟨.text (ch :: buffer), after⟩)
  | opened start =>
    if isBlank ch then .ok (.quiet, ⟨.opened start, after⟩)
    else if ch ∈ leadingSigils then .ok (.quiet, ⟨.content start ch [], after⟩)
    else contentStep start ch [] ch after
  | content start sigil buffer => contentStep start sigil buffer ch after

/-- The stream at the end of the text. -/
def Mode.finish (c : Cursor) : Mode → Stream
  | text buffer => ⟨textTokens buffer.reverse, .endOfText c.pos⟩
  | opened _ => ⟨[], .failure ⟨.unexpectedEndOfInput, c.pos⟩⟩
  | content _ _ _ => ⟨[], .failure ⟨.missingDelimiter, c.pos⟩⟩

/-- What a sigil and a text make, if they make a tag: a comment, a change of
    delimiters, or a tag with the text as its content, without blanks at its ends. -/
theorem Cursor.complete_eq_ok {after place : Cursor} {sigil : Char} {text : List Char} {tag : Tag}
    (h : after.complete sigil text = .ok (tag, place)) :
    (sigil = '!' ∧ tag = .single .comment ∧ place = after) ∨
    (sigil = '=' ∧ ∃ new, tag = .single (.delimiters new) ∧ place = after.changeDelimiters new) ∨
    (sigil ≠ '!' ∧ sigil ≠ '=' ∧ trim text ≠ [] ∧ tag = .ofContent sigil (trim text) after.lead ∧
      place = after) := by
  unfold Cursor.complete at h
  by_cases hcomment : sigil = '!'
  · rw [if_pos hcomment, Except.ok.injEq, Prod.mk.injEq] at h
    exact Or.inl ⟨hcomment, h.1.symm, h.2.symm⟩
  · rw [if_neg hcomment] at h
    cases htext : trim text with
    | nil =>
        rw [htext] at h
        simp only [reduceCtorEq] at h
    | cons ch content =>
        rw [htext] at h
        dsimp only at h
        by_cases hequals : sigil = '='
        · rw [if_pos hequals] at h
          split at h
          case h_1 => simp only [reduceCtorEq] at h
          case h_2 new _ =>
            rw [Except.ok.injEq, Prod.mk.injEq] at h
            exact Or.inr (Or.inl ⟨hequals, new, h.1.symm, h.2.symm⟩)
        · rw [if_neg hequals, Except.ok.injEq, Prod.mk.injEq] at h
          exact Or.inr (Or.inr ⟨hcomment, hequals, List.cons_ne_nil _ _, h.1.symm, h.2.symm⟩)

theorem Tag.ofContent_ne_delimiters (sigil : Char) (content indent : List Char)
    (new : Delimiters) : Tag.ofContent sigil content indent ≠ .single (.delimiters new) := by
  unfold Tag.ofContent
  split
  all_goals simp only [ne_eq, Tag.single.injEq, reduceCtorEq, not_false_eq_true]

theorem Cursor.complete_cases {after place : Cursor} {sigil : Char} {text : List Char} {tag : Tag}
    (h : after.complete sigil text = .ok (tag, place)) :
    place = after ∨
      ∃ new, tag = .single (.delimiters new) ∧ place = after.changeDelimiters new := by
  rcases complete_eq_ok h with ⟨_, _, hplace⟩ | ⟨_, new, htag, hplace⟩ | ⟨_, _, _, _, hplace⟩
  · exact Or.inl hplace
  · exact Or.inr ⟨new, htag, hplace⟩
  · exact Or.inl hplace

/-- Only the equals sign makes a delimiter tag. -/
theorem Cursor.complete_delimiters {after place : Cursor} {sigil : Char} {text : List Char}
    {new : Delimiters} (h : after.complete sigil text = .ok (.single (.delimiters new), place)) :
    sigil = '=' := by
  rcases complete_eq_ok h with ⟨_, htag, _⟩ | ⟨hsigil, _⟩ | ⟨_, _, _, htag, _⟩
  · simp only [Tag.single.injEq, reduceCtorEq] at htag
  · exact hsigil
  · exact absurd htag.symm (Tag.ofContent_ne_delimiters _ _ _ _)

/-- What one character can do, unless a tag cannot be read. -/
inductive Mode.Steps (ch : Char) (after : Cursor) : Mode → Event → Reader → Prop
  /-- The text goes on. -/
  | text {buffer : List Char} (h : justRead after.delimiters.opening (ch :: buffer) = false) :
      Steps ch after (.text buffer) .quiet ⟨.text (ch :: buffer), after⟩
  /-- An opening delimiter ends the text. -/
  | opens {buffer : List Char} (h : justRead after.delimiters.opening (ch :: buffer) = true) :
      Steps ch after (.text buffer)
        (.opens ((ch :: buffer).drop after.delimiters.opening.length).reverse)
        ⟨.opened after.tagStart, after⟩
  /-- A blank before the sigil is passed over. -/
  | blank {start : Nat} (h : isBlank ch = true) :
      Steps ch after (.opened start) .quiet ⟨.opened start, after⟩
  /-- A sigil stands before the content. -/
  | sigil {start : Nat} (h : isBlank ch = false) (hmem : ch ∈ leadingSigils) :
      Steps ch after (.opened start) .quiet ⟨.content start ch [], after⟩
  /-- Any other sigil is the first character of the content. -/
  | kept {start : Nat} (h : isBlank ch = false) (hmem : ch ∉ leadingSigils)
      (hword : justRead (after.delimiters.word ch) [ch] = false) :
      Steps ch after (.opened start) .quiet ⟨.content start ch [ch], after⟩
  /-- The content goes on. -/
  | content {start : Nat} {sigil : Char} {buffer : List Char}
      (h : justRead (after.delimiters.word sigil) (ch :: buffer) = false) :
      Steps ch after (.content start sigil buffer) .quiet
        ⟨.content start sigil (ch :: buffer), after⟩
  /-- A closing delimiter ends the tag. -/
  | ends {start : Nat} {sigil : Char} {buffer : List Char} {tag : Tag} {place : Cursor}
      (h : justRead (after.delimiters.word sigil) (ch :: buffer) = true)
      (hcomplete : after.complete sigil
        ((ch :: buffer).drop (after.delimiters.word sigil).length).reverse = .ok (tag, place)) :
      Steps ch after (.content start sigil buffer) (.ends tag start) ⟨.text [], place⟩

/-- The word that ends a tag is not empty. -/
theorem Delimiters.word_ne_nil (d : Delimiters) (sigil : Char) : d.word sigil ≠ [] := by
  unfold Delimiters.word
  split
  case isTrue => exact List.cons_ne_nil _ _
  case isFalse =>
    split
    case isTrue => exact List.cons_ne_nil _ _
    case isFalse => exact d.closing_ne_nil

/-- The word that ends a tag has no blanks. -/
theorem Delimiters.isBlank_of_mem_word {d : Delimiters} {sigil ch : Char} (h : ch ∈ d.word sigil) :
    isBlank ch = false := by
  have hclosing : ch ∈ d.closing → isBlank ch = false := fun hmem =>
    (d.closing_isDelimiter.2 ch hmem).1
  unfold word at h
  split at h
  case isTrue =>
    rcases List.mem_cons.mp h with rfl | hmem
    · decide
    · exact hclosing hmem
  case isFalse =>
    split at h
    case isTrue =>
      rcases List.mem_cons.mp h with rfl | hmem
      · decide
      · exact hclosing hmem
    case isFalse => exact hclosing h

/-- A tag whose content is the closing delimiter alone has no name. -/
theorem Cursor.complete_nil {after place : Cursor} {sigil : Char} {tag : Tag}
    (h : after.complete sigil [] = .ok (tag, place)) : sigil = '!' := by
  unfold Cursor.complete at h
  by_cases hsigil : sigil = '!'
  · exact hsigil
  · rw [if_neg hsigil] at h
    simp only [trim, trimStart, trimEnd, List.dropWhile_nil, List.reverse_nil, reduceCtorEq] at h

/-- The content goes on, or the tag ends. -/
theorem contentStep_cases {start : Nat} {sigil ch : Char} {buffer : List Char} {after : Cursor}
    {event : Event} {next : Reader}
    (h : contentStep start sigil buffer ch after = .ok (event, next)) :
    (justRead (after.delimiters.word sigil) (ch :: buffer) = false ∧ event = .quiet ∧
      next = ⟨.content start sigil (ch :: buffer), after⟩) ∨
    (justRead (after.delimiters.word sigil) (ch :: buffer) = true ∧
      ∃ tag place, after.complete sigil
          ((ch :: buffer).drop (after.delimiters.word sigil).length).reverse = .ok (tag, place) ∧
        event = .ends tag start ∧ next = ⟨.text [], place⟩) := by
  unfold contentStep at h
  dsimp only at h
  -- The closing delimiter may end with this character.
  by_cases hword : justRead (after.delimiters.word sigil) (ch :: buffer) = true
  · rw [if_pos hword] at h
    split at h
    case h_1 => simp only [reduceCtorEq] at h
    case h_2 tag place hcomplete =>
      rw [Except.ok.injEq, Prod.mk.injEq] at h
      exact Or.inr ⟨hword, tag, place, hcomplete, h.1.symm, h.2.symm⟩
  · rw [if_neg hword, Except.ok.injEq, Prod.mk.injEq] at h
    exact Or.inl ⟨Bool.eq_false_iff.mpr hword, h.1.symm, h.2.symm⟩

/-- A step does one of these things. -/
theorem Mode.steps_of_step {mode : Mode} {ch : Char} {after : Cursor} {event : Event}
    {next : Reader} (h : mode.step ch after = .ok (event, next)) :
    mode.Steps ch after event next := by
  cases mode with
  | text buffer =>
      simp only [Mode.step] at h
      by_cases hword : justRead after.delimiters.opening (ch :: buffer) = true
      · rw [if_pos hword, Except.ok.injEq, Prod.mk.injEq] at h
        rw [← h.1, ← h.2]
        exact .opens hword
      · rw [if_neg hword, Except.ok.injEq, Prod.mk.injEq] at h
        rw [← h.1, ← h.2]
        exact .text (Bool.eq_false_iff.mpr hword)
  | opened start =>
      simp only [Mode.step] at h
      by_cases hblank : isBlank ch = true
      · rw [if_pos hblank, Except.ok.injEq, Prod.mk.injEq] at h
        rw [← h.1, ← h.2]
        exact .blank hblank
      · rw [if_neg hblank] at h
        rw [Bool.not_eq_true] at hblank
        by_cases hmem : ch ∈ leadingSigils
        · rw [if_pos hmem, Except.ok.injEq, Prod.mk.injEq] at h
          rw [← h.1, ← h.2]
          exact .sigil hblank hmem
        · rw [if_neg hmem] at h
          rcases contentStep_cases h with ⟨hword, rfl, rfl⟩ | ⟨_, tag, place, hcomplete, _⟩
          · exact .kept hblank hmem hword
          · -- A tag that ends with its sigil has no content.
            have hlength := List.length_pos_iff.mpr (after.delimiters.word_ne_nil ch)
            rw [List.drop_eq_nil_of_le (by rw [List.length_singleton]; omega)] at hcomplete
            have hsigil := Cursor.complete_nil hcomplete
            rw [hsigil] at hmem
            exact absurd (by decide) hmem
  | content start sigil buffer =>
      rcases contentStep_cases h with ⟨hword, rfl, rfl⟩ | ⟨hword, tag, place, hcomplete, rfl, rfl⟩
      · exact .content hword
      · exact .ends hword hcomplete

/-- A step does each of these things where it can. -/
theorem Mode.Steps.step_eq {mode : Mode} {ch : Char} {after : Cursor} {event : Event}
    {next : Reader} (h : mode.Steps ch after event next) :
    mode.step ch after = .ok (event, next) := by
  cases h with
  | text hjust => simp only [Mode.step, hjust, if_neg Bool.false_ne_true]
  | opens hjust => simp only [Mode.step, if_pos hjust]
  | blank hblank => simp only [Mode.step, if_pos hblank]
  | sigil hblank hmem =>
      simp only [Mode.step, hblank, if_neg Bool.false_ne_true, if_pos hmem]
  | kept hblank hmem hjust =>
      simp only [Mode.step, hblank, if_neg Bool.false_ne_true, if_neg hmem, contentStep, hjust]
  | content hjust => simp only [Mode.step, contentStep, hjust, if_neg Bool.false_ne_true]
  | ends hjust hcomplete => simp only [Mode.step, contentStep, if_pos hjust, hcomplete]

/-- A step leads to the next place. Only a delimiter tag changes something there. -/
theorem Mode.Steps.place_cases {mode : Mode} {ch : Char} {after : Cursor} {event : Event}
    {next : Reader} (h : mode.Steps ch after event next) :
    next.place = after ∨ ∃ new start, event = .ends (.single (.delimiters new)) start ∧
      next.place = after.changeDelimiters new := by
  cases h with
  | ends hword hcomplete =>
      rcases Cursor.complete_cases hcomplete with hplace | ⟨new, rfl, hplace⟩
      · exact Or.inl hplace
      · exact Or.inr ⟨new, _, rfl, hplace⟩
  | _ => exact Or.inl rfl

theorem Mode.remaining_step {mode : Mode} {ch : Char} {after : Cursor} {event : Event}
    {next : Reader} (h : mode.step ch after = .ok (event, next)) :
    next.place.remaining ≤ after.remaining := by
  rcases (Mode.steps_of_step h).place_cases with hplace | ⟨new, _, _, hplace⟩
  · exact Nat.le_of_eq (congrArg Cursor.remaining hplace)
  · rw [hplace]
    exact Cursor.remaining_changeDelimiters new after

namespace Reader

/-- The stream from a reader on. -/
def run (r : Reader) : Stream :=
  match _ : r.place.next? with
  | none => r.mode.finish r.place
  | some (ch, after) =>
    match _ : r.mode.step ch after with
    | .error error => ⟨[], .failure error⟩
    | .ok (event, next) => next.run.prepend (event.tokens next.place)
termination_by r.place.remaining
decreasing_by
  exact Nat.lt_of_le_of_lt (Mode.remaining_step ‹_›) (Cursor.remaining_next? ‹_›)

/-- One character, and what it completes. -/
def Moves (r : Reader) (event : Event) (next : Reader) : Prop :=
  ∃ ch after, r.place.next? = some (ch, after) ∧ r.mode.step ch after = .ok (event, next)

/-- Any number of characters, and the tokens they make. -/
inductive Path : Reader → List Token → Reader → Prop
  | refl (r : Reader) : Path r [] r
  | step {r next last : Reader} {event : Event} {tokens : List Token} (h : r.Moves event next)
      (hpath : Path next tokens last) : Path r (event.tokens next.place ++ tokens) last

/-- No tag that is read from the reader on is a delimiter tag. -/
def KeepsDelimiters (r : Reader) : Prop :=
  ∀ tokens middle event next, r.Path tokens middle → middle.Moves event next →
    ∀ new start, event ≠ .ends (.single (.delimiters new)) start

variable {r next last : Reader} {event : Event} {tokens : List Token}

theorem run_of_none (h : r.place.next? = none) : r.run = r.mode.finish r.place := by
  rw [run]
  split
  case h_1 => rfl
  case h_2 h' => exact absurd (h'.symm.trans h) (Option.some_ne_none _)

/-- A tag that cannot be read ends the stream. -/
theorem run_of_error {ch : Char} {after : Cursor} {error : ParseError}
    (hnext : r.place.next? = some (ch, after)) (h : r.mode.step ch after = .error error) :
    r.run = ⟨[], .failure error⟩ := by
  rw [run]
  split
  case h_1 h' => exact absurd (h'.symm.trans hnext) (Option.some_ne_none _).symm
  case h_2 ch' after' h' =>
    rw [hnext, Option.some.injEq, Prod.mk.injEq] at h'
    split
    case h_1 error' herror =>
      rw [← h'.1, ← h'.2, h, Except.error.injEq] at herror
      rw [herror]
    case h_2 event' next' hok =>
      rw [← h'.1, ← h'.2, h] at hok
      simp only [reduceCtorEq] at hok

/-- What a step makes stands before the rest. -/
theorem run_of_moves (h : r.Moves event next) :
    r.run = next.run.prepend (event.tokens next.place) := by
  rcases h with ⟨ch, after, hnext, hstep⟩
  rw [run]
  split
  case h_1 h' => exact absurd (h'.symm.trans hnext) (Option.some_ne_none _).symm
  case h_2 ch' after' h' =>
    rw [hnext, Option.some.injEq, Prod.mk.injEq] at h'
    split
    case h_1 error' herror =>
      rw [← h'.1, ← h'.2, hstep] at herror
      simp only [reduceCtorEq] at herror
    case h_2 event' next' hok =>
      rw [← h'.1, ← h'.2, hstep, Except.ok.injEq, Prod.mk.injEq] at hok
      rw [hok.1, hok.2]

end Reader

@[simp] theorem Stream.prepend_prepend (front back : List Token) (stream : Stream) :
    (stream.prepend back).prepend front = stream.prepend (front ++ back) := by
  simp only [Stream.prepend, List.append_assoc]

namespace Cursor

theorem delimiters_atLine (c : Cursor) : c.atLine.delimiters = c.delimiters := by
  unfold atLine
  split
  case isTrue => rfl
  case isFalse => rfl

/-- Reading a character keeps the delimiters. -/
theorem delimiters_next? {c after : Cursor} {ch : Char} (h : c.next? = some (ch, after)) :
    after.delimiters = c.delimiters := by
  unfold next? at h
  split at h
  case h_1 => simp only [reduceCtorEq] at h
  case h_2 =>
    rw [Option.some.injEq, Prod.mk.injEq] at h
    rw [← h.2, ← c.delimiters_atLine]

/-- A text is read up to the next opening delimiter. -/
theorem run_text (buffer : List Char) (c : Cursor) :
    (Reader.mk (.text buffer) c).run =
      let reading := readFrom c.delimiters.opening buffer c
      if reading.found then
        (Reader.mk (.opened reading.rest.tagStart) reading.rest).run.prepend
          (textTokens reading.text)
      else ⟨textTokens reading.text, .endOfText reading.rest.pos⟩ := by
  generalize hword : c.delimiters.opening = word
  -- The recursion that reads up to the delimiter takes the same characters.
  fun_induction readFrom word buffer c with
  | case1 buffer c h =>
      rw [Reader.run_of_none h]
      rfl
  | case2 buffer c ch after h hjust =>
      have hstep : (Mode.text buffer).step ch after = .ok
          (.opens ((ch :: buffer).drop word.length).reverse, ⟨.opened after.tagStart, after⟩) := by
        simp only [Mode.step, delimiters_next? h, hword, if_pos hjust]
      rw [Reader.run_of_moves ⟨ch, after, h, hstep⟩]
      rfl
  | case3 buffer c ch after h hjust ih =>
      have hstep : (Mode.text buffer).step ch after =
          .ok (.quiet, ⟨.text (ch :: buffer), after⟩) := by
        simp only [Mode.step, delimiters_next? h, hword, if_neg hjust]
      rw [Reader.run_of_moves ⟨ch, after, h, hstep⟩, ← ih (by rw [delimiters_next? h, hword])]
      rfl

/-- The content of a tag up to its closing delimiter, where `buffer` was read
    already. -/
def contentFrom (sigil : Char) (buffer : List Char) (c : Cursor) :
    Except ParseError (Tag × Cursor) :=
  let reading := readFrom (c.delimiters.word sigil) buffer c
  if reading.found then reading.rest.complete sigil reading.text
  else .error ⟨.missingDelimiter, reading.rest.pos⟩

/-- The stream after a tag that was opened at the byte offset `start`. -/
def streamAfter (start : Nat) : Except ParseError (Tag × Cursor) → Stream
  | .error error => ⟨[], .failure error⟩
  | .ok (tag, after) => (Reader.mk (.text []) after).run.prepend (tag.tokensFrom start after)

/-- The content of a tag is read up to its closing delimiter. -/
theorem run_content (start : Nat) (sigil : Char) (buffer : List Char) (c : Cursor) :
    (Reader.mk (.content start sigil buffer) c).run =
      streamAfter start (c.contentFrom sigil buffer) := by
  unfold contentFrom
  generalize hword : c.delimiters.word sigil = word
  fun_induction readFrom word buffer c with
  | case1 buffer c h =>
      rw [Reader.run_of_none h]
      rfl
  | case2 buffer c ch after h hjust =>
      have hstep : (Mode.content start sigil buffer).step ch after =
          contentStep start sigil buffer ch after := rfl
      simp only [contentStep, delimiters_next? h, hword, if_pos hjust] at hstep
      rw [if_pos rfl]
      cases hcomplete : after.complete sigil ((ch :: buffer).drop word.length).reverse with
      | error error =>
          rw [hcomplete] at hstep
          rw [Reader.run_of_error h hstep]
          rfl
      | ok result =>
          rw [hcomplete] at hstep
          rw [Reader.run_of_moves ⟨ch, after, h, hstep⟩]
          rfl
  | case3 buffer c ch after h hjust ih =>
      have hstep : (Mode.content start sigil buffer).step ch after =
          .ok (.quiet, ⟨.content start sigil (ch :: buffer), after⟩) := by
        simp only [Mode.step, contentStep, delimiters_next? h, hword, if_neg hjust]
      rw [Reader.run_of_moves ⟨ch, after, h, hstep⟩, ← ih (by rw [delimiters_next? h, hword])]
      rfl

theorem contentFrom_comment (c : Cursor) : c.contentFrom '!' [] = c.commentTag := by
  unfold contentFrom commentTag
  have hread : c.readUntil c.delimiters.closing = readFrom (c.delimiters.word '!') [] c := rfl
  rw [hread]
  rfl

/-- After an equals sign there is a delimiter tag. -/
theorem contentFrom_delimiters (c : Cursor) : c.contentFrom '=' [] = c.delimitersTag := by
  unfold contentFrom delimitersTag content
  have hread : c.readUntil (['='] ++ c.delimiters.closing) =
      readFrom (c.delimiters.word '=') [] c := rfl
  rw [hread]
  generalize readFrom (c.delimiters.word '=') [] c = reading
  dsimp only
  by_cases hfound : reading.found = true
  · rw [if_pos hfound, if_pos hfound, complete, if_neg (by decide)]
    cases trim reading.text with
    | nil => rfl
    | cons ch text => exact if_pos rfl
  · rw [if_neg hfound, if_neg hfound]

/-- The tags that are made from their content alone. -/
theorem contentFrom_eq {c : Cursor} {sigil : Char} {mark : List Char}
    {make : List Char → Cursor → Tag} (hcomment : sigil ≠ '!') (hdelimiters : sigil ≠ '=')
    (hword : c.delimiters.word sigil = mark ++ c.delimiters.closing)
    (hmake : ∀ content after, Tag.ofContent sigil content after.lead = make content after) :
    c.contentFrom sigil [] = c.contentTag mark make := by
  unfold contentFrom contentTag content
  have hread : c.readUntil (mark ++ c.delimiters.closing) =
      readFrom (c.delimiters.word sigil) [] c := by
    rw [hword]
    rfl
  rw [hread]
  generalize readFrom (c.delimiters.word sigil) [] c = reading
  dsimp only
  by_cases hfound : reading.found = true
  · rw [if_pos hfound, if_pos hfound, complete, if_neg hcomment]
    cases trim reading.text with
    | nil => rfl
    | cons ch text => simp only [if_neg hdelimiters, hmake]
  · rw [if_neg hfound, if_neg hfound]

/-- A tag is what its sigil and its content make it. -/
theorem tag_eq (c : Cursor) :
    c.tag = match c.skipBlanks.next? with
      | none => .error ⟨.unexpectedEndOfInput, c.skipBlanks.pos⟩
      | some (sigil, inner) =>
        if sigil ∈ leadingSigils then inner.contentFrom sigil []
        else c.skipBlanks.contentFrom sigil [] := by
  unfold tag
  dsimp only
  cases hnext : c.skipBlanks.next? with
  | none => rfl
  | some next =>
      rcases next with ⟨sigil, inner⟩
      dsimp only
      -- One case for each sigil.
      split
      case h_2 => rw [if_pos (by decide), contentFrom_comment]
      case h_3 => rw [if_pos (by decide), contentFrom_delimiters]
      case h_8 =>
        rw [if_neg (by decide)]
        symm
        apply contentFrom_eq
        · decide
        · decide
        · rfl
        · intro _ _
          rfl
      case h_12 h1 h2 h3 h4 h5 h6 h7 h8 h9 h10 h11 =>
        -- None of the known sigils, so the tag is an escaped value.
        have hmem : sigil ∉ leadingSigils := by
          simp only [leadingSigils, List.mem_cons, List.not_mem_nil, or_false, not_or]
          exact ⟨h1, h2, h3, h4, h5, h6, h7, h9, h10, h11⟩
        have hword : c.skipBlanks.delimiters.word sigil =
            [] ++ c.skipBlanks.delimiters.closing := by
          unfold Delimiters.word
          rw [if_neg h10, if_neg h3]
          rfl
        rw [if_neg hmem]
        refine (contentFrom_eq h2 h3 hword fun content after => ?_).symm
        unfold Tag.ofContent
        split
        case h_10 => rfl
        all_goals contradiction
      all_goals
        rw [if_pos (by decide)]
        symm
        apply contentFrom_eq
        · decide
        · decide
        · rfl
        · intro _ _
          rfl

/-- Whether the sigil is given back or not, the content is read from there on. -/
theorem run_opened (start : Nat) (c : Cursor) :
    (Reader.mk (.opened start) c).run = streamAfter start c.tag := by
  rw [tag_eq]
  fun_induction skipBlanks c with
  | case1 c h =>
      simp only [h]
      rw [Reader.run_of_none h]
      rfl
  | case2 c ch after h hblank ih =>
      have hstep : (Mode.opened start).step ch after = .ok (.quiet, ⟨.opened start, after⟩) := by
        simp only [Mode.step, if_pos hblank]
      rw [Reader.run_of_moves ⟨ch, after, h, hstep⟩, ← ih]
      rfl
  | case3 c ch after h hblank =>
      simp only [h]
      by_cases hmem : ch ∈ leadingSigils
      · have hstep : (Mode.opened start).step ch after =
            .ok (.quiet, ⟨.content start ch [], after⟩) := by
          simp only [Mode.step, if_neg hblank, if_pos hmem]
        rw [if_pos hmem, ← run_content, Reader.run_of_moves ⟨ch, after, h, hstep⟩]
        rfl
      · -- The sigil is read once more as the first character of the content.
        have hstep : (Mode.opened start).step ch after =
            (Mode.content start ch []).step ch after := by
          simp only [Mode.step, if_neg hblank, if_neg hmem]
        rw [if_neg hmem, ← run_content]
        cases hresult : (Mode.content start ch []).step ch after with
        | error error =>
            rw [Reader.run_of_error (r := ⟨_, c⟩) h (hstep.trans hresult),
              Reader.run_of_error (r := ⟨_, c⟩) h hresult]
        | ok result =>
            rw [Reader.run_of_moves (r := ⟨_, c⟩) ⟨ch, after, h, hstep.trans hresult⟩,
              Reader.run_of_moves (r := ⟨_, c⟩) ⟨ch, after, h, hresult⟩]

/-- Between two tags, the text up to the next opening delimiter is read first. -/
theorem run_between (c : Cursor) :
    (Reader.mk (.text []) c).run =
      if (c.readUntil c.delimiters.opening).found then
        (Reader.mk (.opened (c.readUntil c.delimiters.opening).rest.tagStart)
          (c.readUntil c.delimiters.opening).rest).run.prepend
            (textTokens (c.readUntil c.delimiters.opening).text)
      else ⟨textTokens (c.readUntil c.delimiters.opening).text,
        .endOfText (c.readUntil c.delimiters.opening).rest.pos⟩ :=
  run_text [] c

/-- The machine makes the stream of a text. -/
theorem run_eq_stream (c : Cursor) : (Reader.mk (.text []) c).run = c.stream := by
  fun_induction stream c with
  | case1 c reading found error htag =>
      rw [run_between, if_pos found, run_opened, htag, streamAfter, Stream.prepend, List.append_nil]
  | case2 c reading found tag after htag ih =>
      rw [run_between, if_pos found, run_opened, htag, streamAfter, ih, Stream.prepend_prepend,
        Tag.tokens_eq]
  | case3 c reading found =>
      rw [run_between, if_neg found]

/-- The next character is one of the text. -/
theorem mem_of_next? {c after : Cursor} {ch : Char} (h : c.next? = some (ch, after)) :
    ch ∈ c.toText := by
  rw [← toText_atLine c]
  unfold next? at h
  split at h
  case h_1 => simp only [reduceCtorEq] at h
  case h_2 ch' ahead hahead =>
    rw [Option.some.injEq, Prod.mk.injEq] at h
    rw [toText, hahead, ← h.1]
    simp only [List.mem_append, List.mem_cons, true_or, or_true]

end Cursor

theorem not_mem_textTokens {token : Token} (h : ∀ content, token ≠ .text content)
    {text : List Char} : token ∉ textTokens text := by
  intro hmem
  cases text with
  | nil => exact List.not_mem_nil hmem
  | cons ch text => exact h _ (List.mem_singleton.mp hmem)

/-- An event makes one token at most. -/
theorem Event.tokens_cases (event : Event) (after : Cursor) :
    event.tokens after = [] ∨ ∃ token, event.tokens after = [token] := by
  cases event with
  | quiet => exact Or.inl rfl
  | opens text =>
      cases text with
      | nil => exact Or.inl rfl
      | cons ch text => exact Or.inr ⟨_, rfl⟩
  | ends tag start =>
      cases tag with
      | single tag =>
          cases tag with
          | comment => exact Or.inl rfl
          | delimiters new => exact Or.inl rfl
          | value name isEscaped => exact Or.inr ⟨_, rfl⟩
          | reference reference => exact Or.inr ⟨_, rfl⟩
      | opening kind name => exact Or.inr ⟨_, rfl⟩
      | closing name => exact Or.inr ⟨_, rfl⟩

/-- The reader before the first character of a text. -/
def Reader.ofText (text : List Char) : Reader :=
  ⟨.text [], .ofText .standard text⟩

namespace Reader

variable {r middle last next : Reader} {event : Event} {tokens front back : List Token}

/-- One path after another is a path. -/
theorem Path.trans (h : r.Path front middle) (h' : middle.Path back last) :
    r.Path (front ++ back) last := by
  induction h with
  | refl r => exact h'
  | step hmoves hpath ih =>
      rw [List.append_assoc]
      exact .step hmoves (ih h')

theorem Path.of_moves (h : r.Moves event next) : r.Path (event.tokens next.place) next := by
  have hpath := Path.step h (.refl next)
  rwa [List.append_nil] at hpath

/-- What is read on the way stands before the rest. -/
theorem run_of_path (h : r.Path tokens last) : r.run = last.run.prepend tokens := by
  induction h with
  | refl r => rfl
  | step hmoves hpath ih => rw [run_of_moves hmoves, ih, Stream.prepend_prepend]

/-- Reading changes the place, not the text. -/
theorem toText_of_moves (h : r.Moves event next) : next.place.toText = r.place.toText := by
  rcases h with ⟨ch, after, hnext, hstep⟩
  rcases (Mode.steps_of_step hstep).place_cases with hplace | ⟨new, _, _, hplace⟩
  · rw [hplace, Cursor.toText_next? hnext]
  · rw [hplace, Cursor.toText_changeDelimiters, Cursor.toText_next? hnext]

/-- The text is the same all along a path. -/
theorem toText_of_path (h : r.Path tokens last) : last.place.toText = r.place.toText := by
  induction h with
  | refl r => rfl
  | step hmoves _ ih => rw [ih, toText_of_moves hmoves]

/-- No delimiter tag is read after a character if none is read from there on. -/
theorem KeepsDelimiters.of_moves (hkeeps : r.KeepsDelimiters) (h : r.Moves event next) :
    next.KeepsDelimiters := by
  intro tokens middle event' next' hpath
  exact hkeeps _ middle event' next' (.step h hpath)

/-- And none is read after any number of characters. -/
theorem KeepsDelimiters.of_path (hkeeps : r.KeepsDelimiters) (h : r.Path tokens last) :
    last.KeepsDelimiters := by
  intro tokens' middle event next hpath
  exact hkeeps _ middle event next (h.trans hpath)

/-- Without delimiter tags a step leads to the place after the character. -/
theorem KeepsDelimiters.steps (hkeeps : r.KeepsDelimiters) (h : r.Moves event next) :
    ∃ ch, r.place.next? = some (ch, next.place) ∧ r.mode.Steps ch next.place event next := by
  have hchange := hkeeps _ r event next (.refl r) h
  rcases h with ⟨ch, after, hnext, hstep⟩
  have hsteps := Mode.steps_of_step hstep
  rcases hsteps.place_cases with hplace | ⟨new, start, hevent, _⟩
  · exact ⟨ch, by rw [hplace]; exact hnext, by rw [hplace]; exact hsteps⟩
  · exact absurd hevent (hchange new start)

/-- A stream that ends with the text stems from a path to its end. -/
theorem exists_path_of_endOfText {offset : Nat} (h : r.run = ⟨tokens, .endOfText offset⟩) :
    ∃ front buffer place, r.Path front ⟨.text buffer, place⟩ ∧ place.next? = none ∧
      tokens = front ++ textTokens buffer.reverse ∧ offset = place.pos := by
  -- By induction on the run. Only a text can be open at the end of the text.
  fun_induction run r generalizing tokens with
  | case1 r hnext =>
      rcases r with ⟨mode, place⟩
      cases mode with
      | text buffer =>
          rw [Mode.finish, Stream.mk.injEq, Ending.endOfText.injEq] at h
          exact ⟨[], buffer, place, .refl _, hnext, h.1.symm, h.2.symm⟩
      | opened start => simp only [Mode.finish, Stream.mk.injEq, reduceCtorEq, and_false] at h
      | content start sigil buffer =>
          simp only [Mode.finish, Stream.mk.injEq, reduceCtorEq, and_false] at h
  | case2 r ch after hnext error hstep => simp only [Stream.mk.injEq, reduceCtorEq, and_false] at h
  | case3 r ch after hnext event next hstep ih =>
      rw [Stream.prepend, Stream.mk.injEq] at h
      have hrun : next.run = ⟨next.run.tokens, .endOfText offset⟩ := by rw [← h.2]
      rcases ih hrun with ⟨front, buffer, place, hpath, hend, htokens, hoffset⟩
      refine ⟨_, buffer, place, .step ⟨ch, after, hnext, hstep⟩ hpath, hend, ?_, hoffset⟩
      rw [← h.1, htokens, List.append_assoc]

/-- Every token is read at some place, unless it is a text. -/
theorem exists_path_of_tokens {token : Token} (h : r.run.tokens = front ++ token :: back)
    (htext : ∀ content, token ≠ .text content) :
    ∃ middle tag start next, r.Path front middle ∧ middle.Moves (.ends tag start) next ∧
      tag.tokensFrom start next.place = [token] ∧ next.run.tokens = back := by
  fun_induction run r generalizing front with
  | case1 r hnext =>
      -- All that the end of the text can add is a text.
      have hmem : token ∈ (r.mode.finish r.place).tokens := by
        rw [h]
        exact List.mem_append_right _ List.mem_cons_self
      rcases r with ⟨mode, place⟩
      cases mode with
      | text buffer => exact absurd hmem (not_mem_textTokens htext)
      | opened start => exact absurd hmem List.not_mem_nil
      | content start sigil buffer => exact absurd hmem List.not_mem_nil
  | case2 r ch after hnext error hstep =>
      exact absurd h (List.append_ne_nil_of_right_ne_nil _ (List.cons_ne_nil _ _)).symm
  | case3 r ch after hnext event next hstep ih =>
      have hmoves : r.Moves event next := ⟨ch, after, hnext, hstep⟩
      simp only [Stream.prepend] at h
      -- The token may be the one that this step makes.
      rcases event.tokens_cases next.place with hnil | ⟨first, hfirst⟩
      · rw [hnil, List.nil_append] at h
        rcases ih h with ⟨middle, tag, start, last, hpath, hlast⟩
        refine ⟨middle, tag, start, last, ?_, hlast⟩
        have hpath' := Path.step hmoves hpath
        rwa [hnil, List.nil_append] at hpath'
      · rw [hfirst, List.singleton_append] at h
        cases front with
        | nil =>
            rw [List.nil_append, List.cons.injEq] at h
            rw [h.1] at hfirst
            cases event with
            | quiet => simp only [Event.tokens, List.ne_cons_self] at hfirst
            | opens text =>
                have hmem : token ∈ textTokens text := by
                  rw [show textTokens text = [token] from hfirst]
                  exact List.mem_singleton_self token
                exact absurd hmem (not_mem_textTokens htext)
            | ends tag start => exact ⟨r, tag, start, next, .refl r, hmoves, hfirst, h.2⟩
        | cons head front =>
            rw [List.cons_append, List.cons.injEq] at h
            rcases ih h.2 with ⟨middle, tag, start, last, hpath, hlast⟩
            refine ⟨middle, tag, start, last, ?_, hlast⟩
            have hpath' := Path.step hmoves hpath
            rwa [hfirst, h.1, List.singleton_append] at hpath'

/-- Without an equals sign left in the text, no delimiter tag can be begun, and
    so none can end. -/
theorem moves_of_not_mem (h : r.Moves event next) (hmem : '=' ∉ r.place.toText)
    (hmode : ∀ start buffer, r.mode ≠ .content start '=' buffer) :
    (∀ new start, event ≠ .ends (.single (.delimiters new)) start) ∧
      '=' ∉ next.place.toText ∧ ∀ start buffer, next.mode ≠ .content start '=' buffer := by
  rcases r with ⟨mode, place⟩
  rcases h with ⟨ch, after, hnext, hstep⟩
  have hafter : '=' ∉ after.toText := by rwa [Cursor.toText_next? hnext]
  have hch : ch ≠ '=' := by
    intro heq
    rw [heq] at hnext
    exact hmem (Cursor.mem_of_next? hnext)
  have hsteps := Mode.steps_of_step hstep
  -- The content of a delimiter tag is read after an equals sign only.
  cases hsteps with
  | text | opens | blank => exact ⟨nofun, hafter, nofun⟩
  | sigil | kept =>
      refine ⟨nofun, hafter, ?_⟩
      intro start buffer heq
      rw [Mode.content.injEq] at heq
      exact hch heq.2.1
  | content =>
      refine ⟨nofun, hafter, ?_⟩
      intro start buffer heq
      rw [Mode.content.injEq] at heq
      exact hmode _ _ (by rw [heq.2.1])
  | @ends start sigil buffer tag place' hword hcomplete =>
      have hkind : ∀ new, tag ≠ Tag.single (.delimiters new) := by
        intro new heq
        rw [heq] at hcomplete
        exact hmode _ _ (by rw [Cursor.complete_delimiters hcomplete])
      refine ⟨?_, ?_, nofun⟩
      · intro new start heq
        rw [Event.ends.injEq] at heq
        exact hkind new heq.1
      · rcases Cursor.complete_cases hcomplete with hplace | ⟨new, heq, _⟩
        · rwa [hplace]
        · exact absurd heq (hkind new)

/-- A text without an equals sign has no delimiter tag. -/
theorem keepsDelimiters_of_not_mem {text : List Char} (h : '=' ∉ text) :
    (ofText text).KeepsDelimiters := by
  have hplace : '=' ∉ (ofText text).place.toText := by rwa [ofText, Cursor.toText_ofText]
  have hmode : ∀ start buffer, (ofText text).mode ≠ .content start '=' buffer := nofun
  intro tokens middle event next hpath hmoves
  generalize ofText text = r at hpath hplace hmode
  -- What holds before a step holds after it, so it holds all along the path.
  induction hpath with
  | refl r => exact (moves_of_not_mem hmoves hplace hmode).1
  | step hfirst _ ih =>
      have hnext := moves_of_not_mem hfirst hplace hmode
      exact ih hmoves hnext.2.1 hnext.2.2

end Reader

/-- No tag of the template is a delimiter tag. -/
def Template.KeepsDelimiters (source : String) : Prop :=
  (Reader.ofText source.toList).KeepsDelimiters

end Mustache
