import Mustache.Proofs.CarriageReturns
import Mustache.Proofs.Concatenation

/-!
# Line Ends

Whether lines end with a line feed or with a carriage return and a line feed does
not matter to a template. The two texts are read in step: where a line feed is read
of one, a carriage return and a line feed are read of the other, and since both are
blanks, neither completes anything. All other characters do the same in both, at
places that carriage returns move further on. So the tokens are the same, with texts
that have carriage returns.

The indent of a reference has no line feed, and stays as it is.

## Main definitions

* `crlfText`: A text with carriage returns.
* `crlfOffset`: Where carriage returns move a place of a text.
* `Cursor.withReturns`, `Reader.withReturns`: The same place of the text with
  carriage returns.
* `Mode.push`: What a blank does to a mode.

## Theorems

* `recodes_crlf`: A slice is a slice with carriage returns.
* `Mode.step_withReturns`: Any character but a line feed does the same.
* `Reader.run_withReturns`: A text with carriage returns is read as the text is.
* `Template.compile_crlf`: A template with carriage returns is the same template.
-/

namespace Mustache

namespace Text

/-- The text with a carriage return before every line feed. -/
def crlfText (text : String) : String :=
  String.ofList (crlf text.toList)

@[simp] theorem crlfText_ofList (text : List Char) :
    crlfText (String.ofList text) = String.ofList (crlf text) := by
  rw [crlfText, String.toList_ofList]

/-- The byte offset of the same place once the text has carriage returns. -/
def crlfOffset : List Char → Nat → Nat
  | [], offset => offset
  | ch :: text, offset =>
    if offset < ch.utf8Size then offset
    else byteLength (lineEnding ch) + crlfOffset text (offset - ch.utf8Size)

/-- No character becomes shorter. -/
theorem utf8Size_le_lineEnding (ch : Char) : ch.utf8Size ≤ byteLength (lineEnding ch) := by
  by_cases hch : ch = '\n'
  · rw [hch]
    decide
  · rw [lineEnding_of_ne hch]
    exact Nat.le_refl _

/-- No two places are moved to the same one, and their order stays. -/
theorem strictMono_crlfOffset (text : List Char) : StrictMono (crlfOffset text) := by
  induction text with
  | nil => exact strictMono_id
  | cons ch text ih =>
      intro first second h
      have hsize := utf8Size_le_lineEnding ch
      rw [crlfOffset, crlfOffset]
      -- Each of the two places lies inside of the first character or after it.
      by_cases hfirst : first < ch.utf8Size
      · by_cases hsecond : second < ch.utf8Size
        · rwa [if_pos hfirst, if_pos hsecond]
        · rw [if_pos hfirst, if_neg hsecond]
          omega
      · have hsecond : ¬ second < ch.utf8Size := by omega
        have hrest : first - ch.utf8Size < second - ch.utf8Size := by omega
        rw [if_neg hfirst, if_neg hsecond]
        exact Nat.add_lt_add_left (ih hrest) _

/-- The beginning of a text ends where it ends once it has carriage returns. -/
theorem crlfOffset_byteLength {text front : List Char} (h : front <+: text) :
    crlfOffset text (byteLength front) = byteLength (crlf front) := by
  induction front generalizing text with
  | nil =>
      cases text with
      | nil => rfl
      | cons ch text =>
          have hpos := ch.utf8Size_pos
          rw [byteLength, crlfOffset, if_pos hpos]
          rfl
  | cons ch front ih =>
      cases text with
      | nil => exact absurd (List.prefix_nil.mp h) (List.cons_ne_nil _ _)
      | cons first text =>
          rw [List.cons_prefix_cons] at h
          rcases h with ⟨rfl, hfront⟩
          -- The place lies after the first character, which is passed over on both
          -- sides.
          have hge : ¬ ch.utf8Size + byteLength front < ch.utf8Size := by omega
          have hcrlf : crlf (ch :: front) = lineEnding ch ++ crlf front := List.flatMap_cons
          simp only [byteLength, crlfOffset, if_neg hge, Nat.add_sub_cancel_left, ih hfront, hcrlf,
            byteLength_append]

/-- No place inside of a character is moved between two characters. -/
theorem exists_crlf_of_byteLength {text front : List Char} {offset : Nat} (h : front <+: crlf text)
    (hlength : byteLength front = crlfOffset text offset) (hle : offset ≤ byteLength text) :
    ∃ before, before <+: text ∧ byteLength before = offset ∧ front = crlf before := by
  induction text generalizing front offset with
  | nil =>
      rw [crlf_nil, List.prefix_nil] at h
      exact ⟨[], List.nil_prefix, (Nat.le_zero.mp hle).symm, h⟩
  | cons ch text ih =>
      have hcrlf : crlf (ch :: text) = lineEnding ch ++ crlf text := List.flatMap_cons
      have hsize := utf8Size_le_lineEnding ch
      rw [hcrlf] at h
      rw [crlfOffset] at hlength
      by_cases hoffset : offset < ch.utf8Size
      · rw [if_pos hoffset] at hlength
        cases front with
        | nil => exact ⟨[], List.nil_prefix, hlength, rfl⟩
        | cons first front =>
            exfalso
            by_cases hch : ch = '\n'
            · -- A line feed is one byte long, so the place is before it.
              rw [hch] at hoffset
              have hone : ('\n' : Char).utf8Size = 1 := by decide
              have hpos := byteLength_cons_pos first front
              omega
            · -- The first character takes all the bytes that were to be left of it.
              rw [lineEnding_of_ne hch, List.singleton_append, List.cons_prefix_cons] at h
              rw [h.1, byteLength] at hlength
              omega
      · rw [if_neg hoffset] at hlength
        rw [byteLength] at hle
        -- The place is after the first character, with all that was put in its place.
        have hfirst : lineEnding ch <+: front :=
          prefix_of_byteLength_le (List.prefix_append _ _) h (by omega)
        rcases hfirst with ⟨rest, rfl⟩
        rw [List.prefix_append_right_inj] at h
        rw [byteLength_append] at hlength
        rcases ih h (Nat.add_left_cancel hlength) (by omega) with ⟨before, hbefore, hbytes, rfl⟩
        refine ⟨ch :: before, List.cons_prefix_cons.mpr ⟨rfl, hbefore⟩, ?_, ?_⟩
        · rw [byteLength, hbytes]
          omega
        · exact List.flatMap_cons.symm

end Text

open Text

/-- A slice of a text is a slice of the text with carriage returns. -/
theorem recodes_crlf (source : List Char) :
    Recodes crlfText (crlfOffset source) source (crlf source) where
  injective := by
    intro left right h
    have hlists := congrArg String.toList h
    rw [crlfText, crlfText, String.toList_ofList, String.toList_ofList] at hlists
    exact String.toList_injective (crlf_injective hlists)
  monotone := (strictMono_crlfOffset source).monotone
  slice := by
    intro start stop h hstop
    have hle : crlfOffset source start ≤ crlfOffset source stop :=
      (strictMono_crlfOffset source).monotone h
    refine Option.ext fun body => ?_
    rw [Option.map_eq_some_iff, Option.map_eq_some_iff]
    constructor
    · rintro ⟨content, hslice, rfl⟩
      -- The slice is cut between two characters, so it comes from a slice of the
      -- source.
      rcases (slice?_eq_some_iff hle).mp hslice with ⟨front, back, htext, hfront, hcontent⟩
      have hwhole : front ++ content <+: crlf source := ⟨back, htext⟩
      have hbegins : front <+: crlf source := (List.prefix_append front content).trans hwhole
      rcases exists_crlf_of_byteLength hbegins hfront (h.trans hstop) with
        ⟨before, hbefore, hstart, rfl⟩
      rcases exists_crlf_of_byteLength hwhole hcontent hstop with ⟨longer, hlonger, hend, hcrlf⟩
      have hshort : before <+: longer := prefix_of_byteLength_le hbefore hlonger (by omega)
      rcases hshort with ⟨body, rfl⟩
      rw [crlf_append, List.append_cancel_left_eq] at hcrlf
      rcases hlonger with ⟨after, hafter⟩
      refine ⟨body, (slice?_eq_some_iff h).mpr ⟨before, after, hafter, hstart, hend⟩, ?_⟩
      rw [crlfText_ofList, hcrlf]
    · rintro ⟨content, hslice, rfl⟩
      -- The other way round, both ends of a slice are moved with it.
      rcases (slice?_eq_some_iff h).mp hslice with ⟨front, back, htext, hfront, hcontent⟩
      have hwhole : front ++ content <+: source := ⟨back, htext⟩
      have hbegins : front <+: source := (List.prefix_append front content).trans hwhole
      refine ⟨crlf content, (slice?_eq_some_iff hle).mpr ⟨crlf front, crlf back, ?_, ?_, ?_⟩, ?_⟩
      · rw [← crlf_append, ← crlf_append, htext]
      · rw [← hfront, crlfOffset_byteLength hbegins]
      · rw [← crlf_append, ← hcontent, crlfOffset_byteLength hwhole]
      · rw [crlfText_ofList]

namespace Cursor

/-- The same place of the text with carriage returns. -/
def withReturns (c : Cursor) : Cursor where
  delimiters := c.delimiters
  before := crlfBehind c.before
  lead := crlf c.lead
  read := crlfBehind c.read
  ahead := crlf c.ahead
  trail := crlf c.trail
  beyond := crlf c.beyond

theorem behind_withReturns (c : Cursor) : c.withReturns.behind = crlfBehind c.behind := by
  rw [behind, behind, crlfBehind_append, crlfBehind_append, crlfBehind_reverse]
  rfl

/-- The next line is the same one, with carriage returns. -/
theorem nextLine_withReturns (c : Cursor) : c.withReturns.nextLine = c.nextLine.withReturns := by
  have hbehind : c.withReturns.trail.reverse ++ c.withReturns.behind =
      crlfBehind (c.trail.reverse ++ c.behind) := by
    rw [behind_withReturns, crlfBehind_append, crlfBehind_reverse]
    rfl
  -- Taking the line and trimming it go by the text behind and beyond.
  have htake := takeLine_crlf c.delimiters false (c.trail.reverse ++ c.behind) c.beyond
  unfold nextLine
  rw [hbehind]
  have htaken : takeLine c.withReturns.delimiters false (crlfBehind (c.trail.reverse ++ c.behind))
      c.withReturns.beyond = _ := htake
  simp only [htaken]
  have hline := Line.ofText_crlf c.delimiters
    (takeLine c.delimiters false (c.trail.reverse ++ c.behind) c.beyond).1
  have hdelimiters : c.withReturns.delimiters = c.delimiters := rfl
  rw [hdelimiters, hline]
  rfl

/-- The next line is taken when it is taken without carriage returns. -/
theorem atLine_withReturns (c : Cursor) : c.withReturns.atLine = c.atLine.withReturns := by
  have hahead : c.withReturns.ahead.isEmpty = c.ahead.isEmpty := isEmpty_crlf c.ahead
  have hbeyond : c.withReturns.beyond.isEmpty = c.beyond.isEmpty := isEmpty_crlf c.beyond
  unfold atLine
  rw [hahead, hbeyond, nextLine_withReturns]
  split
  case isTrue => rfl
  case isFalse => rfl

variable {c after : Cursor} {ch : Char}

/-- At the end of the one text the other one ends as well. -/
theorem next?_withReturns_of_none (h : c.next? = none) : c.withReturns.next? = none := by
  unfold next? at h ⊢
  rw [atLine_withReturns]
  split at h
  case h_2 => simp only [reduceCtorEq] at h
  case h_1 hahead =>
    have hnil : c.atLine.withReturns.ahead = [] := congrArg crlf hahead
    rw [hnil]

/-- Any character but a line feed is read in the same place. -/
theorem next?_withReturns (hch : ch ≠ '\n') (h : c.next? = some (ch, after)) :
    c.withReturns.next? = some (ch, after.withReturns) := by
  unfold next? at h ⊢
  rw [atLine_withReturns]
  split at h
  case h_1 => simp only [reduceCtorEq] at h
  case h_2 first ahead hahead =>
    rw [Option.some.injEq, Prod.mk.injEq] at h
    rcases h with ⟨rfl, rfl⟩
    have hcons : c.atLine.withReturns.ahead = first :: crlf ahead := by
      rw [withReturns, hahead, crlf_cons hch]
    rw [hcons]
    simp only [withReturns, crlfBehind_cons hch]

/-- Before a line feed a carriage return is read. -/
theorem next?_withReturns_lineFeed (h : c.next? = some ('\n', after)) :
    ∃ middle, c.withReturns.next? = some ('\r', middle) ∧
      middle.next? = some ('\n', after.withReturns) := by
  unfold next? at h
  split at h
  case h_1 => simp only [reduceCtorEq] at h
  case h_2 first ahead hahead =>
    rw [Option.some.injEq, Prod.mk.injEq] at h
    rcases h with ⟨rfl, rfl⟩
    have hcons : c.atLine.withReturns.ahead = '\r' :: '\n' :: crlf ahead := by
      rw [withReturns, hahead, crlf_lineFeed]
    -- The carriage return was read, and the line feed is ahead.
    refine ⟨{ c.atLine.withReturns with
      read := '\r' :: c.atLine.withReturns.read, ahead := '\n' :: crlf ahead }, ?_, ?_⟩
    · unfold next?
      rw [atLine_withReturns, hcons]
    · -- The line feed is on the same line.
      rfl

/-- A place that lies after the beginning `front` of the text is moved by the carriage
    returns of it. -/
theorem byteLength_crlf {source front back : List Char} (h : front ++ back = source) :
    byteLength (crlf front) = crlfOffset source (byteLength front) :=
  (crlfOffset_byteLength ⟨back, h⟩).symm

section

variable {source : List Char} (htext : c.toText = source)
include htext

/-- A place is moved by the carriage returns before it. -/
theorem pos_withReturns : c.withReturns.pos = crlfOffset source c.pos := by
  rw [toText, List.append_assoc, List.append_assoc] at htext
  have hmoved := byteLength_crlf htext
  rw [byteLength_reverse] at hmoved
  rw [pos, behind_withReturns, byteLength_crlfBehind, hmoved, pos]

/-- So is the start of its line. -/
theorem lineStart_withReturns : c.withReturns.lineStart = crlfOffset source c.lineStart := by
  have hfront : c.before.reverse ++
      (c.lead ++ c.read.reverse ++ c.ahead ++ c.trail ++ c.beyond) = source := by
    rw [← htext, toText, behind]
    simp only [List.reverse_append, List.reverse_reverse, List.append_assoc]
  have hmoved := byteLength_crlf hfront
  rw [byteLength_reverse] at hmoved
  have hbefore : c.withReturns.before = crlfBehind c.before := rfl
  rw [lineStart, hbefore, byteLength_crlfBehind, hmoved, lineStart]

/-- And the start of the text on it. -/
theorem textStart_withReturns : c.withReturns.textStart = crlfOffset source c.textStart := by
  have hfront : (c.before.reverse ++ c.lead) ++
      (c.read.reverse ++ c.ahead ++ c.trail ++ c.beyond) = source := by
    rw [← htext, toText, behind]
    simp only [List.reverse_append, List.reverse_reverse, List.append_assoc]
  have hmoved := byteLength_crlf hfront
  rw [crlf_append, byteLength_append, byteLength_append, byteLength_reverse] at hmoved
  have hstart : c.withReturns.lineStart = byteLength (crlf c.before.reverse) :=
    byteLength_crlfBehind c.before
  rw [textStart, hstart, textStart, lineStart, ← hmoved]
  rfl

/-- A body starts at the same place, with the end of the line passed over in
    both texts or in neither. -/
theorem bodyStart_withReturns : c.withReturns.bodyStart = crlfOffset source c.bodyStart := by
  have hahead : c.withReturns.ahead.isEmpty = c.ahead.isEmpty := isEmpty_crlf c.ahead
  rw [bodyStart, bodyStart, hahead, pos_withReturns htext]
  by_cases hnil : c.ahead.isEmpty = true
  · rw [if_pos hnil, if_pos hnil]
    rw [List.isEmpty_iff] at hnil
    have hpos := pos_withReturns htext
    rw [toText, hnil, List.append_nil] at htext
    have hmoved := byteLength_crlf htext
    rw [crlf_append, byteLength_append, byteLength_append, byteLength_reverse] at hmoved
    have hread : c.withReturns.pos = byteLength (crlf c.behind.reverse) := by
      rw [pos, behind_withReturns, byteLength_crlfBehind]
    rw [← hpos, hread, pos, ← hmoved]
    rfl
  · rw [if_neg hnil, if_neg hnil]

/-- It stops at the same place too, since the tag is at the start of its line in
    both texts or in neither. -/
theorem bodyEnd_withReturns (start : Nat) :
    c.withReturns.bodyEnd (crlfOffset source start) = crlfOffset source (c.bodyEnd start) := by
  have hlead : c.withReturns.lead.isEmpty = c.lead.isEmpty := isEmpty_crlf c.lead
  -- No two places are moved together, so the test has the same answer.
  have hstart : (crlfOffset source start = crlfOffset source c.textStart) ↔ start = c.textStart :=
    (strictMono_crlfOffset source).injective.eq_iff
  rw [bodyEnd, bodyEnd, textStart_withReturns htext, hlead, lineStart_withReturns htext]
  simp only [hstart]
  split
  case isTrue => rfl
  case isFalse => rfl

/-- No line feed is part of the opening delimiter that was just read. -/
theorem tagStart_withReturns {rest : List Char} (hstandard : c.delimiters = .standard)
    (hread : c.read = '{' :: '{' :: rest) :
    c.withReturns.tagStart = crlfOffset source c.tagStart := by
  have hbehind : c.behind = '{' :: '{' :: (rest ++ c.lead.reverse ++ c.before) := by
    rw [behind, hread]
    rfl
  have hfront : (rest ++ c.lead.reverse ++ c.before).reverse ++
      ('{' :: '{' :: (c.ahead ++ c.trail ++ c.beyond)) = source := by
    rw [← htext, toText, hbehind]
    simp only [List.reverse_cons, List.append_assoc, List.cons_append, List.nil_append]
  -- The tag starts two bytes back, before the braces.
  have hmoved := byteLength_crlf hfront
  have hbrace : byteLength Delimiters.standard.opening = 2 := by decide
  have hdelimiters : c.withReturns.delimiters = .standard := hstandard
  have hone : ('{' : Char).utf8Size = 1 := by decide
  rw [byteLength_reverse] at hmoved
  rw [tagStart, tagStart, hdelimiters, hstandard, hbrace, pos, pos, behind_withReturns, hbehind,
    crlfBehind_cons (by decide), crlfBehind_cons (by decide), byteLength, byteLength, byteLength,
    byteLength, hone, byteLength_crlfBehind, hmoved]
  have htwo : ∀ n : Nat, 1 + (1 + n) - 2 = n := fun n => by omega
  rw [htwo, htwo]

end

end Cursor

/-- What reading is in the middle of after one more blank. -/
def Mode.push (ch : Char) : Mode → Mode
  | text buffer => .text (ch :: buffer)
  | opened start => .opened start
  | content start sigil buffer => .content start sigil (ch :: buffer)

/-- A blank completes nothing. -/
theorem Mode.step_of_isBlank {ch : Char} (h : isBlank ch = true) (after : Cursor) (mode : Mode) :
    mode.step ch after = .ok (.quiet, ⟨mode.push ch, after⟩) := by
  cases mode with
  | text buffer =>
      have hjust : justRead after.delimiters.opening (ch :: buffer) = false :=
        justRead_of_not_mem after.delimiters.opening_ne_nil (after.delimiters.not_mem_opening h)
      exact (Mode.Steps.text hjust).step_eq
  | opened start => exact (Mode.Steps.blank h).step_eq
  | content start sigil buffer =>
      have hmem : ch ∉ after.delimiters.word sigil := by
        intro hmem
        rw [Delimiters.isBlank_of_mem_word hmem] at h
        exact Bool.false_ne_true h
      have hjust : justRead (after.delimiters.word sigil) (ch :: buffer) = false :=
        justRead_of_not_mem (after.delimiters.word_ne_nil sigil) hmem
      exact (Mode.Steps.content hjust).step_eq

/-- What reading the text with carriage returns is in the middle of. -/
def Mode.withReturns (offset : Nat → Nat) : Mode → Mode
  | text buffer => .text (crlfBehind buffer)
  | opened start => .opened (offset start)
  | content start sigil buffer => .content (offset start) sigil (crlfBehind buffer)

/-- The same place of the text with carriage returns, and what reading is in the middle
    of there. -/
def Reader.withReturns (offset : Nat → Nat) (r : Reader) : Reader :=
  ⟨r.mode.withReturns offset, r.place.withReturns⟩

/-- The tag with other texts. -/
def Tag.recode (text : String → String) : Tag → Tag
  | single (.value name isEscaped) => .single (.value (text name) isEscaped)
  | single (.reference reference) => .single (.reference (reference.recode text))
  | single tag => .single tag
  | opening kind name => .opening (kind.recode text) (text name)
  | closing name => .closing (text name)

/-- What a character completes in the text with carriage returns. -/
def Event.withReturns (offset : Nat → Nat) : Event → Event
  | quiet => .quiet
  | opens text => .opens (crlf text)
  | ends tag start => .ends (tag.recode crlfText) (offset start)

/-- What a character does in the text with carriage returns. -/
def stepWithReturns (offset : Nat → Nat) :
    Except ParseError (Event × Reader) → Except ParseError (Event × Reader)
  | .error error => .error (error.recode crlfText offset)
  | .ok (event, next) => .ok (event.withReturns offset, next.withReturns offset)

theorem Mode.push_withReturns (offset : Nat → Nat) (mode : Mode) :
    ((mode.withReturns offset).push '\r').push '\n' = (mode.push '\n').withReturns offset := by
  cases mode with
  | text buffer => rfl
  | opened start => rfl
  | content start sigil buffer => rfl

/-- A reference is dynamic in both texts or in neither, and its name has
    carriage returns. -/
theorem Reference.ofContent_crlf (content indent : List Char) :
    ofContent (crlf content) indent = (ofContent content indent).recode crlfText := by
  cases content with
  | nil => rfl
  | cons first name =>
      by_cases hstar : first = '*'
      · rw [hstar, crlf_cons (by decide)]
        simp only [ofContent, recode, trimStart_crlf, crlfText_ofList]
      · -- The name is not dynamic in either text.
        have hplain : ∀ second name, second ≠ '*' →
            ofContent (second :: name) indent =
              ⟨String.ofList (second :: name), false, String.ofList indent⟩ := by
          intro second name hsecond
          unfold ofContent
          split
          case h_1 _ heq =>
            rw [List.cons.injEq] at heq
            exact absurd heq.1 hsecond
          case h_2 => rfl
        rw [hplain first name hstar]
        by_cases hfirst : first = '\n'
        · rw [hfirst, crlf_lineFeed, hplain _ _ (by decide), recode, crlfText_ofList, crlf_lineFeed]
        · rw [crlf_cons hfirst, hplain _ _ hstar, recode, crlfText_ofList, crlf_cons hfirst]

theorem Tag.ofContent_crlf (sigil : Char) (content indent : List Char) :
    ofContent sigil (crlf content) indent = (ofContent sigil content indent).recode crlfText := by
  unfold ofContent
  split
  all_goals simp only [recode, Opening.recode, crlfText_ofList, Reference.ofContent_crlf]
  all_goals rfl

section

variable {source : List Char} {after : Cursor}

/-- A tag is the same tag. Its indent has no line feed. -/
theorem Cursor.complete_withReturns (hline : after.OnLine) (htext : after.toText = source)
    {sigil : Char} {text : List Char}
    (hkeep : ∀ new place, after.complete sigil text ≠ .ok (.single (.delimiters new), place)) :
    after.withReturns.complete sigil (crlf text) =
      match after.complete sigil text with
      | .error error => .error (error.recode crlfText (crlfOffset source))
      | .ok (tag, place) => .ok (tag.recode crlfText, place.withReturns) := by
  have hlead : after.withReturns.lead = after.lead := crlf_eq_self hline.not_mem_lead
  unfold complete at hkeep ⊢
  by_cases hcomment : sigil = '!'
  · simp only [if_pos hcomment]
    rfl
  · simp only [if_neg hcomment, trim_crlf, pos_withReturns htext] at hkeep ⊢
    cases htrim : trim text with
    | nil => rfl
    | cons first more =>
        -- What is left has a first character in both texts.
        cases hcontent : crlf (first :: more) with
        | nil => exact absurd (crlf_eq_nil_iff.mp hcontent) (List.cons_ne_nil _ _)
        | cons first' more' =>
            rw [htrim] at hkeep
            dsimp only at hkeep ⊢
            rw [← hcontent]
            by_cases hdelimiters : sigil = '='
            · simp only [if_pos hdelimiters] at hkeep ⊢
              rw [Delimiters.ofBody?_crlf]
              cases hnew : Delimiters.ofBody? (first :: more) with
              | none => simp only [ParseError.recode, ParseError.Cause.recode, crlfText_ofList]
              | some new =>
                  rw [hnew] at hkeep
                  exact absurd rfl (hkeep new _)
            · simp only [if_neg hdelimiters, hlead, Tag.ofContent_crlf]

/-- The content of a tag is complete at the same character. -/
theorem contentStep_withReturns (hline : after.OnLine) (htext : after.toText = source) {start : Nat}
    {sigil ch : Char} (hch : ch ≠ '\n') {buffer : List Char}
    (hkeep : ∀ new start' next,
      contentStep start sigil buffer ch after ≠
        .ok (.ends (.single (.delimiters new)) start', next)) :
    contentStep (crlfOffset source start) sigil (crlfBehind buffer) ch after.withReturns =
      stepWithReturns (crlfOffset source) (contentStep start sigil buffer ch after) := by
  have hplain : ∀ ch ∈ after.delimiters.word sigil, isBlank ch = false :=
    fun ch hmem => Delimiters.isBlank_of_mem_word hmem
  have hdelimiters : after.withReturns.delimiters = after.delimiters := rfl
  unfold contentStep at hkeep ⊢
  dsimp only at hkeep ⊢
  rw [hdelimiters, ← crlfBehind_cons hch, justRead_crlfBehind hplain]
  by_cases hjust : justRead (after.delimiters.word sigil) (ch :: buffer) = true
  · -- The closing word was just read, and both texts give the same tag.
    rw [if_pos hjust] at hkeep
    rw [if_pos hjust, if_pos hjust, drop_crlfBehind hplain hjust,
      Cursor.complete_withReturns hline htext]
    · cases after.complete sigil
        ((ch :: buffer).drop (after.delimiters.word sigil).length).reverse with
      | error error => rfl
      | ok result => rfl
    · intro new place hcomplete
      rw [hcomplete] at hkeep
      exact hkeep new _ _ rfl
  · rw [if_neg hjust, if_neg hjust]
    rfl

/-- Any character but a line feed does the same. -/
theorem Mode.step_withReturns {r : Reader} (hregular : r.IsRegular) {ch : Char}
    (hnext : r.place.next? = some (ch, after)) (htext : after.toText = source) (hch : ch ≠ '\n')
    (hkeep : ∀ new start next,
      r.mode.step ch after ≠ .ok (.ends (.single (.delimiters new)) start, next)) :
    (r.mode.withReturns (crlfOffset source)).step ch after.withReturns =
      stepWithReturns (crlfOffset source) (r.mode.step ch after) := by
  have hline : after.OnLine := hregular.onLine.next hnext
  have hdelimiters : after.withReturns.delimiters = after.delimiters := rfl
  rcases r with ⟨mode, place⟩
  dsimp only at hnext hkeep ⊢
  cases mode with
  | text buffer =>
      have hplain : ∀ ch ∈ after.delimiters.opening, isBlank ch = false :=
        fun ch hmem => Delimiters.isBlank_of_mem_opening hmem
      simp only [withReturns, step]
      rw [hdelimiters, ← crlfBehind_cons hch, justRead_crlfBehind hplain]
      by_cases hjust : justRead after.delimiters.opening (ch :: buffer) = true
      · -- An opening delimiter is on one line, so both braces were read there.
        rcases hregular.read_of_opens rfl hnext hjust with ⟨rest, hread⟩
        have hstandard : after.delimiters = .standard := by
          rw [Cursor.delimiters_next? hnext, hregular.delimiters]
        rw [if_pos hjust, if_pos hjust, drop_crlfBehind hplain hjust,
          Cursor.tagStart_withReturns htext hstandard hread]
        rfl
      · rw [if_neg hjust, if_neg hjust]
        rfl
  | opened start =>
      simp only [withReturns, step] at hkeep ⊢
      -- The first character that is not blank is the sigil or begins the content.
      by_cases hblank : isBlank ch = true
      · rw [if_pos hblank, if_pos hblank]
        rfl
      · rw [if_neg hblank] at hkeep
        rw [if_neg hblank, if_neg hblank]
        by_cases hmem : ch ∈ leadingSigils
        · rw [if_pos hmem, if_pos hmem]
          rfl
        · rw [if_neg hmem] at hkeep
          rw [if_neg hmem, if_neg hmem]
          have hcontent := contentStep_withReturns hline htext hch hkeep
          exact hcontent
  | content start sigil buffer => exact contentStep_withReturns hline htext hch hkeep

/-- A text that is not empty makes one token in both texts. -/
theorem textTokens_crlf (offset : Nat → Nat) (text : List Char) :
    textTokens (crlf text) = (textTokens text).map (Token.recode crlfText offset) := by
  cases text with
  | nil => rfl
  | cons first more =>
      cases hcontent : crlf (first :: more) with
      | nil => exact absurd (crlf_eq_nil_iff.mp hcontent) (List.cons_ne_nil _ _)
      | cons first' more' =>
          rw [textTokens, textTokens, List.map_singleton, Token.recode, crlfText_ofList, hcontent]

/-- What is completed makes the same tokens, with moved offsets. -/
theorem Event.tokens_withReturns (htext : after.toText = source) (event : Event) :
    (event.withReturns (crlfOffset source)).tokens after.withReturns =
      (event.tokens after).map (Token.recode crlfText (crlfOffset source)) := by
  cases event with
  | quiet => rfl
  | opens text => exact textTokens_crlf _ text
  | ends tag start =>
      cases tag with
      | single tag =>
          cases tag with
          | comment => rfl
          | delimiters new => rfl
          | value name isEscaped => rfl
          | reference reference => rfl
      | opening kind name =>
          simp only [withReturns, Tag.recode, tokens, Tag.tokensFrom, List.map_singleton,
            Token.recode, Cursor.bodyStart_withReturns htext]
          rfl
      | closing name =>
          simp only [withReturns, Tag.recode, tokens, Tag.tokensFrom, List.map_singleton,
            Token.recode, Cursor.bodyEnd_withReturns htext, Cursor.pos_withReturns htext]

/-- What is left at the end is left in both texts, or fails at the same place. -/
theorem Mode.finish_withReturns {place : Cursor} (htext : place.toText = source) (mode : Mode) :
    (mode.withReturns (crlfOffset source)).finish place.withReturns =
      (mode.finish place).recode crlfText (crlfOffset source) := by
  have hpos := Cursor.pos_withReturns htext
  cases mode with
  | text buffer =>
      have hbuffer : (crlfBehind buffer).reverse = crlf buffer.reverse := by
        rw [crlfBehind_eq, List.reverse_reverse]
      simp only [withReturns, finish, hbuffer, hpos, textTokens_crlf (crlfOffset source),
        Stream.recode, Ending.recode]
  | opened start =>
      simp only [withReturns, finish, hpos]
      rfl
  | content start sigil buffer =>
      simp only [withReturns, finish, hpos]
      rfl

namespace Reader

/-- Two blanks are read where one was. -/
theorem run_withReturns_lineFeed {r : Reader} (offset : Nat → Nat)
    (hnext : r.place.next? = some ('\n', after)) :
    (r.withReturns offset).run = ((Reader.mk (r.mode.push '\n') after).withReturns offset).run := by
  rcases Cursor.next?_withReturns_lineFeed hnext with ⟨middle, hreturn, hfeed⟩
  have hfirst : (r.withReturns offset).Moves .quiet
      ⟨(r.mode.withReturns offset).push '\r', middle⟩ :=
    ⟨'\r', middle, hreturn, Mode.step_of_isBlank (by decide) middle _⟩
  have hsecond : Moves ⟨(r.mode.withReturns offset).push '\r', middle⟩ .quiet
      ⟨((r.mode.withReturns offset).push '\r').push '\n', after.withReturns⟩ :=
    ⟨'\n', after.withReturns, hfeed, Mode.step_of_isBlank (by decide) _ _⟩
  rw [run_of_moves hfirst, run_of_moves hsecond, Mode.push_withReturns]
  rfl

/-- A text with carriage returns is read as the text is. -/
theorem run_withReturns {r : Reader} (hregular : r.IsRegular) (hkeeps : r.KeepsDelimiters)
    (htext : r.place.toText = source) :
    (r.withReturns (crlfOffset source)).run = r.run.recode crlfText (crlfOffset source) := by
  fun_induction run r with
  | case1 r hnext =>
      have hnone : (r.withReturns (crlfOffset source)).place.next? = none :=
        Cursor.next?_withReturns_of_none hnext
      rw [run_of_none hnone]
      exact Mode.finish_withReturns htext r.mode
  | case2 r ch after hnext error hstep =>
      have hafter : after.toText = source := by rw [Cursor.toText_next? hnext, htext]
      -- A line feed completes nothing, so it is not what is wrong.
      have hch : ch ≠ '\n' := by
        rintro rfl
        rw [Mode.step_of_isBlank (by decide)] at hstep
        simp only [reduceCtorEq] at hstep
      have hstep' := Mode.step_withReturns hregular hnext hafter hch
        (by rw [hstep]; exact fun _ _ _ heq => by simp only [reduceCtorEq] at heq)
      rw [hstep] at hstep'
      exact run_of_error (Cursor.next?_withReturns hch hnext) hstep'
  | case3 r ch after hnext event next hstep ih =>
      have hmoves : r.Moves event next := ⟨ch, after, hnext, hstep⟩
      have hnextText : next.place.toText = source := by rw [toText_of_moves hmoves, htext]
      have hrest := ih (hregular.moves hkeeps hmoves) (hkeeps.of_moves hmoves) hnextText
      -- The induction is on the characters of the text. A line feed takes two steps,
      -- any other character one.
      by_cases hch : ch = '\n'
      · subst hch
        rw [Mode.step_of_isBlank (by decide), Except.ok.injEq, Prod.mk.injEq] at hstep
        rcases hstep with ⟨rfl, rfl⟩
        rw [run_withReturns_lineFeed _ hnext]
        exact hrest
      · have hafter : after.toText = source := by rw [Cursor.toText_next? hnext, htext]
        have hevent : ∀ new start, event ≠ .ends (.single (.delimiters new)) start :=
          hkeeps [] r event next (.refl r) hmoves
        have hstep' := Mode.step_withReturns hregular hnext hafter hch (by
          intro new start next' heq
          rw [hstep, Except.ok.injEq, Prod.mk.injEq] at heq
          exact hevent new start heq.1)
        rw [hstep] at hstep'
        have hmoves' : (r.withReturns (crlfOffset source)).Moves
            (event.withReturns (crlfOffset source)) (next.withReturns (crlfOffset source)) :=
          ⟨ch, after.withReturns, Cursor.next?_withReturns hch hnext, hstep'⟩
        have htokens := event.tokens_withReturns hnextText
        rw [run_of_moves hmoves', hrest, Stream.recode_prepend, ← htokens]
        rfl

end Reader

end

namespace Template

/-- Line ends do not matter. A template without delimiter tags compiles if it does
    with carriage returns, and to the same tree: each text, name and body of it has
    carriage returns before its line feeds, and the spans are moved with them. The indents
    of its references stay as they are. If it does not compile, the error is the
    same, at the same place, or compiling breaks off as it does for the template
    itself. -/
theorem compile_crlf {source : String} (options : Options) (hkeeps : KeepsDelimiters source) :
    compile (crlfText source) options =
      match compile source options with
      | .error failure => .error (failure.recode crlfText (crlfOffset source.toList))
      | .ok template =>
        .ok ⟨Segment.recodeAll crlfText (crlfOffset source.toList) template.segments⟩ := by
  have htext : (Reader.ofText source.toList).place.toText = source.toList :=
    Cursor.toText_ofText _ _
  have hlist : (crlfText source).toList = crlf source.toList := String.toList_ofList
  have hstart : (Reader.ofText source.toList).withReturns (crlfOffset source.toList) =
      Reader.ofText (crlf source.toList) := rfl
  have hrun := Reader.run_withReturns (Reader.isRegular_ofText source.toList) hkeeps htext
  -- The segments are made of the tokens alike, whatever their texts are.
  have hassemble := Stream.assemble_recode options (recodes_crlf source.toList) .empty
    (Reader.ofText source.toList).run nofun fun token hmem => Reader.isWithin_of_mem_run hmem
  have hempty : Nesting.empty.recode crlfText (crlfOffset source.toList) = .empty := rfl
  rw [hstart] at hrun
  rw [hempty] at hassemble
  rw [compile_eq_assemble, stream_eq_run, hlist, hrun, hassemble, compile_eq_assemble,
    stream_eq_run]
  cases (Reader.ofText source.toList).run.assemble source.toList options .empty with
  | error failure => rfl
  | ok segments => rfl

/-- A standalone section with a reference that is indented. -/
theorem compile_crlf_section :
    KeepsDelimiters "\x7b\x7b#a\x7d\x7d\nx\n  \x7b\x7b>p\x7d\x7d\n\x7b\x7b/a\x7d\x7d\n" ∧
      compile (crlfText "\x7b\x7b#a\x7d\x7d\nx\n  \x7b\x7b>p\x7d\x7d\n\x7b\x7b/a\x7d\x7d\n") =
        .ok ⟨[.sect ⟨"a", false, .standard, ⟨8, 21⟩, "x\r\n  \x7b\x7b>p\x7d\x7d\r\n"⟩
          [.text "x\r\n", .reference ⟨"p", false, "  "⟩]]⟩ := by
  have hkeeps : KeepsDelimiters
      "\x7b\x7b#a\x7d\x7d\nx\n  \x7b\x7b>p\x7d\x7d\n\x7b\x7b/a\x7d\x7d\n" :=
    Reader.keepsDelimiters_of_not_mem (by decide)
  have hsource : compile "\x7b\x7b#a\x7d\x7d\nx\n  \x7b\x7b>p\x7d\x7d\n\x7b\x7b/a\x7d\x7d\n" =
      .ok ⟨[.sect ⟨"a", false, .standard, ⟨7, 18⟩, "x\n  \x7b\x7b>p\x7d\x7d\n"⟩
        [.text "x\n", .reference ⟨"p", false, "  "⟩]]⟩ := by
    with_unfolding_all rfl
  have hcrlf := compile_crlf {} hkeeps
  rw [hsource] at hcrlf
  exact ⟨hkeeps, hcrlf⟩

end Template

end Mustache
