import Mustache.Proofs.Reader
import Mustache.Proofs.Rows

/-!
# Standalone Lines

What is read on a line that was trimmed. Trimming is decided ahead of the tags,
when the line is taken or taken anew after a delimiter tag. The blanks it takes
away are never shown, so nothing else on the line should be shown where it
stands: all of it has to be in silent tags.

This is so as long as the line is read with the delimiters that it was trimmed
with, and no tag is open when it is taken. After a delimiter tag the decision
stays as it is when it was to trim the end of the line, and when it was not to
trim, it is made anew by looking at the text of the line so far alone. So a value
tag may stand on a trimmed line before a delimiter tag, and text after one.

## Main definitions

* `Tag.IsSilent`, `Token.IsSilent`: What shows nothing where it stands.
* `Mode.InRow`: What is left to read of the line goes on with a row of tags.
* `Mode.IsInert`: What is being read is part of a silent tag.
* `Reader.LinePath`: Some characters of a line, up to the end of a delimiter tag.

## Theorems

* `Reader.inRow_of_moves`: A character of a row leads to a place in the row.
* `Reader.silent_of_inRow`: What is read in a row is silent.
* `Reader.silent_of_trimmed`: What is read on a trimmed line is silent.
-/

namespace Mustache

open Text

/-- The tag shows nothing where it stands. -/
def Tag.IsSilent : Tag → Prop
  | single (.value _ _) => False
  | _ => True

/-- The token shows nothing where it stands. -/
def Token.IsSilent : Token → Prop
  | text _ => False
  | value _ _ => False
  | _ => True

/-- A silent sigil is next, and a row of tags goes on from there up to the blanks
    at the end of the line. Where the row was first found does not matter. -/
def Delimiters.SigilAhead (d : Delimiters) (ahead trail : List Char) : Prop :=
  ∃ front blanks sigil back run, ahead = blanks ++ sigil :: back ∧ blanks.all isBlank = true ∧
    sigil ∈ silentSigils ∧ tagRun? d (front ++ (ahead ++ trail)) = some (run, trail)

/-- What is left to read of the line, which is `ahead`, goes on with a row of tags.
    The text `pending` was read before the row. -/
inductive Mode.InRow (d : Delimiters) (ahead trail : List Char) : List Char → Mode → Prop
  /-- The row is at its end. -/
  | done (h : ahead = []) : InRow d ahead trail [] (.text [])
  /-- The opening delimiter of the next tag is being read. -/
  | opening {pending front back rest : List Char} (hword : d.opening = front ++ back)
      (hback : back ≠ []) (hahead : ahead = back ++ rest) (h : d.SigilAhead rest trail) :
      InRow d ahead trail pending (.text (front.reverse ++ pending))
  /-- The sigil of a tag is next. -/
  | opened {start : Nat} (h : d.SigilAhead ahead trail) : InRow d ahead trail [] (.opened start)
  /-- The content of a silent tag is being read. Unless it is a delimiter tag, it
      ends where the row says so, or does not end on the line. -/
  | content {start : Nat} {sigil : Char} {buffer : List Char} (hsilent : sigil ∈ silentSigils)
      (hnone : sigil ≠ '=' → cut? d.closing buffer.reverse = none)
      (h : sigil ≠ '=' →
        (∃ run, tagRun? d (buffer.reverse ++ (ahead ++ trail)) = some (run, trail)) ∨
          cut? d.closing (buffer.reverse ++ (ahead ++ trail)) = none) :
      InRow d ahead trail [] (.content start sigil buffer)

/-- What was read since the text `pending` is part of a silent tag that is being
    read. -/
def Mode.IsInert (d : Delimiters) (pending : List Char) : Mode → Prop
  | text buffer =>
    ∃ front back, d.opening = front ++ back ∧ back ≠ [] ∧ buffer = front.reverse ++ pending
  | opened _ => True
  | content _ sigil _ => sigil ∈ silentSigils

section

variable {d : Delimiters} {ahead trail pending : List Char} {mode : Mode}

/-- What is read in a row of tags is part of one of them. -/
theorem Mode.InRow.isInert (h : mode.InRow d ahead trail pending) : mode.IsInert d pending := by
  cases h with
  | done => exact ⟨[], d.opening, rfl, d.opening_ne_nil, rfl⟩
  | @opening _ front back rest hword hback => exact ⟨front, back, hword, hback, rfl⟩
  | opened => trivial
  | content hsilent => exact hsilent

/-- The blanks at the end of the line hold no sigil. -/
theorem eq_append_of_silent {front back : List Char} {sigil : Char} (hsilent : sigil ∈ silentSigils)
    (htrail : trail.all isBlank = true) (h : ahead ++ trail = front ++ sigil :: back) :
    ∃ rest, ahead = front ++ sigil :: rest ∧ back = rest ++ trail := by
  -- The sigil stands either behind the start of the blanks or before it.
  rcases List.append_eq_append_iff.mp h with ⟨more, hfront, htext⟩ | ⟨more, hahead, htext⟩
  · have hmem : sigil ∈ trail := by
      rw [htext]
      exact List.mem_append_right _ List.mem_cons_self
    have hblank := List.all_eq_true.mp htrail sigil hmem
    rw [isBlank_of_mem_silentSigils hsilent] at hblank
    exact absurd hblank Bool.false_ne_true
  · cases more with
    | nil =>
        have hmem : sigil ∈ trail := by
          rw [← List.nil_append trail, ← htext]
          exact List.mem_cons_self
        have hblank := List.all_eq_true.mp htrail sigil hmem
        rw [isBlank_of_mem_silentSigils hsilent] at hblank
        exact absurd hblank Bool.false_ne_true
    | cons first rest =>
        rw [List.cons_append, List.cons.injEq] at htext
        exact ⟨rest, by rw [hahead, htext.1], htext.2⟩

/-- Where a tag of a row starts, its opening delimiter and its sigil are next. -/
theorem inRow_of_startsTag {front run text : List Char} (htrail : trail.all isBlank = true)
    (hstart : startsTag d (ahead ++ trail) = true) (htext : ahead ++ trail = d.opening ++ text)
    (hrun : tagRun? d (front ++ text) = some (run, trail)) :
    Mode.InRow d ahead trail pending (.text pending) := by
  rw [startsTag, Bool.and_eq_true, htext, List.drop_left] at hstart
  -- The sigil comes after the delimiter and some blanks.
  cases htrim : trimStart text with
  | nil =>
      rw [htrim] at hstart
      exact absurd hstart.2 Bool.false_ne_true
  | cons sigil back =>
      rw [htrim] at hstart
      have hsilent : sigil ∈ silentSigils := List.contains_iff_mem.mp hstart.2
      have hblanks : text = text.takeWhile isBlank ++ sigil :: back := by
        rw [← htrim, takeWhile_append_trimStart]
      rw [hblanks, ← List.append_assoc] at htext
      rcases eq_append_of_silent hsilent htrail htext with ⟨rest, hahead, hback⟩
      rw [List.append_assoc] at hahead
      have hword : d.opening = [] ++ d.opening := rfl
      refine .opening hword d.opening_ne_nil hahead
        ⟨front, text.takeWhile isBlank, sigil, rest, run, rfl, ?_, hsilent, ?_⟩
      · exact List.all_eq_true.mpr fun ch hch => List.mem_takeWhile_imp hch
      · rw [List.append_assoc, List.cons_append, ← hback, ← hblanks]
        exact hrun

end

/-- A tag with a silent sigil ends at the closing delimiter, unless it is a
    delimiter tag. -/
theorem Delimiters.word_of_silent (d : Delimiters) {sigil : Char} (hsilent : sigil ∈ silentSigils)
    (hequals : sigil ≠ '=') : d.word sigil = d.closing := by
  have hbrace : sigil ≠ '{' := by
    rintro rfl
    exact absurd hsilent (by decide)
  rw [Delimiters.word, if_neg hbrace, if_neg hequals]

/-- The content of a tag with a silent sigil makes a silent tag. -/
theorem Tag.isSilent_ofContent {sigil : Char} {content indent : List Char}
    (hsilent : sigil ∈ silentSigils) (hcomment : sigil ≠ '!') (hequals : sigil ≠ '=') :
    (Tag.ofContent sigil content indent).IsSilent := by
  simp only [silentSigils, List.mem_cons, List.not_mem_nil, or_false] at hsilent
  rcases hsilent with rfl | rfl | rfl | rfl | rfl | rfl | rfl | rfl | rfl
  case inr.inr.inr.inr.inl => exact absurd rfl hequals
  case inr.inr.inr.inr.inr.inl => exact absurd rfl hcomment
  all_goals trivial

/-- A tag with a silent sigil is silent, and the equals sign makes a delimiter
    tag. -/
theorem Cursor.isSilent_of_complete {after place : Cursor} {sigil : Char} {text : List Char}
    {tag : Tag}
    (hsilent : sigil ∈ silentSigils) (h : after.complete sigil text = .ok (tag, place)) :
    tag.IsSilent ∧ (sigil = '=' → ∃ new, tag = .single (.delimiters new)) := by
  rcases complete_eq_ok h with ⟨hcomment, rfl, _⟩ | ⟨_, new, rfl, _⟩ |
    ⟨hcomment, hequals, _, rfl, _⟩
  · rw [hcomment]
    exact ⟨trivial, fun hequals => absurd hequals (by decide)⟩
  · exact ⟨trivial, fun _ => ⟨new, rfl⟩⟩
  · exact ⟨Tag.isSilent_ofContent hsilent hcomment hequals, fun heq => absurd heq hequals⟩

section

variable {d : Delimiters} {trail pending : List Char} {ch : Char} {after : Cursor} {event : Event}
  {next : Reader}

/-- Of an opening delimiter, the first part was read and one more character is. -/
theorem justRead_opening_concat {front back : List Char} (hword : d.opening = front ++ ch :: back)
    (hpending : ∀ first ∈ pending.head?, first ∉ d.opening) :
    justRead d.opening (ch :: (front.reverse ++ pending)) = decide (back = []) := by
  have hbuffer : ch :: (front.reverse ++ pending) = (front ++ [ch]).reverse ++ pending := by
    rw [List.reverse_append, List.reverse_singleton, List.singleton_append, List.cons_append]
  rw [hbuffer, justRead_append hpending, justRead, Bool.eq_iff_iff, List.isPrefixOf_iff_prefix,
    decide_eq_true_iff, List.reverse_prefix, hword]
  constructor
  · intro hsuffix
    have hlength := hsuffix.length_le
    rw [List.length_append, List.length_append, List.length_cons, List.length_singleton] at hlength
    exact List.eq_nil_of_length_eq_zero (by omega)
  · rintro rfl
    exact List.suffix_refl _

/-- A character of an opening delimiter in a row. -/
theorem inRow_of_opening {front back rest : List Char} (hword : d.opening = front ++ back)
    (hback : back ≠ []) (hahead : ch :: after.ahead = back ++ rest) (h : d.SigilAhead rest trail)
    (hpending : ∀ first ∈ pending.head?, first ∉ d.opening) (hdelimiters : after.delimiters = d)
    (hsteps : (Mode.text (front.reverse ++ pending)).Steps ch after event next) :
    (event = .quiet ∧ next.mode.InRow d after.ahead trail pending) ∨
      (event = .opens pending.reverse ∧ next.mode.InRow d after.ahead trail []) := by
  cases back with
  | nil => exact absurd rfl hback
  | cons first back =>
      rw [List.cons_append, List.cons.injEq] at hahead
      rcases hahead with ⟨rfl, hahead⟩
      have hread := justRead_opening_concat hword hpending
      -- This character may be the last one of the delimiter.
      cases hsteps with
      | text hjust =>
          rw [hdelimiters, hread, decide_eq_false_iff_not] at hjust
          have hbuffer : ch :: (front.reverse ++ pending) = (front ++ [ch]).reverse ++ pending := by
            rw [List.reverse_append, List.reverse_singleton, List.singleton_append,
              List.cons_append]
          refine Or.inl ⟨rfl, ?_⟩
          rw [hbuffer]
          exact .opening (by rw [hword, List.append_assoc, List.singleton_append]) hjust hahead h
      | opens hjust =>
          rw [hdelimiters, hread, decide_eq_true_iff] at hjust
          rw [hjust, List.nil_append] at hahead
          refine Or.inr ⟨?_, .opened (by rwa [hahead])⟩
          have hdrop : (ch :: (front.reverse ++ pending)).drop after.delimiters.opening.length =
              pending := by
            rw [hdelimiters, hword, hjust, List.length_append, List.length_singleton,
              ← List.length_reverse, List.drop_succ_cons, List.drop_left]
          rw [hdrop]

/-- A character before the content of a tag in a row. -/
theorem inRow_of_opened {start : Nat} (hclear : d.IsClear) (htrail : trail.all isBlank = true)
    (hdelimiters : after.delimiters = d) (h : d.SigilAhead (ch :: after.ahead) trail)
    (hsteps : (Mode.opened start).Steps ch after event next) :
    event = .quiet ∧ next.mode.InRow d after.ahead trail [] := by
  rcases h with ⟨front, blanks, sigil, back, run, hahead, hblank, hsilent, hrun⟩
  -- Either a blank before the sigil is read or the sigil itself is.
  cases blanks with
  | cons first blanks =>
      rw [List.cons_append, List.cons.injEq] at hahead
      rcases hahead with ⟨rfl, hahead⟩
      rw [List.all_cons, Bool.and_eq_true] at hblank
      cases hsteps with
      | blank =>
          refine ⟨rfl, .opened ⟨front ++ [ch], blanks, sigil, back, run, hahead, hblank.2,
            hsilent, ?_⟩⟩
          rw [List.append_assoc, List.singleton_append]
          exact hrun
      | sigil hnot => exact absurd (hblank.1.symm.trans hnot) Bool.false_ne_true.symm
      | kept hnot => exact absurd (hblank.1.symm.trans hnot) Bool.false_ne_true.symm
  | nil =>
      rw [List.nil_append, List.cons.injEq] at hahead
      rcases hahead with ⟨rfl, _⟩
      cases hsteps with
      | blank hnot =>
          rw [isBlank_of_mem_silentSigils hsilent] at hnot
          exact absurd hnot Bool.false_ne_true
      | sigil =>
          refine ⟨rfl, .content hsilent (fun _ => ?_) fun _ => ?_⟩
          · exact cut?_closing_of_blank rfl
          · have hsplit : front ++ (ch :: after.ahead ++ trail) =
                front ++ [ch] ++ (after.ahead ++ trail) := by
              rw [List.append_assoc, List.singleton_append, List.cons_append]
            rw [hsplit] at hrun
            exact tagRun?_append_of_sigil hclear hsilent (Or.inl List.getLast?_concat) hrun htrail
      | kept _ hmem hjust =>
          -- The sigil is part of the content.
          refine ⟨rfl, .content hsilent (fun hequals => ?_) fun _ => ?_⟩
          · rw [hdelimiters, d.word_of_silent hsilent hequals] at hjust
            have hempty : cut? d.closing [] = none := cut?_closing_of_blank rfl
            exact cut?_concat hempty hjust
          · exact tagRun?_append_of_sigil hclear hsilent (Or.inr rfl) hrun htrail

/-- A character of the content of a tag in a row. -/
theorem inRow_of_content {start : Nat} {sigil : Char} {buffer : List Char}
    (htrail : trail.all isBlank = true) (hdelimiters : after.delimiters = d)
    (hsilent : sigil ∈ silentSigils) (hnone : sigil ≠ '=' → cut? d.closing buffer.reverse = none)
    (h : sigil ≠ '=' →
      (∃ run, tagRun? d (buffer.reverse ++ (ch :: after.ahead ++ trail)) = some (run, trail)) ∨
        cut? d.closing (buffer.reverse ++ (ch :: after.ahead ++ trail)) = none)
    (hsteps : (Mode.content start sigil buffer).Steps ch after event next) :
    (event = .quiet ∧ next.mode.InRow d after.ahead trail []) ∨
      ∃ tag, event = .ends tag start ∧ tag.IsSilent ∧
        ((∃ new, tag = .single (.delimiters new)) ∨ next.mode.InRow d after.ahead trail []) := by
  have hsplit : buffer.reverse ++ (ch :: after.ahead ++ trail) =
      (ch :: buffer).reverse ++ (after.ahead ++ trail) := by
    rw [List.reverse_cons, List.append_assoc, List.singleton_append, List.cons_append]
  rw [hsplit] at h
  cases hsteps with
  | content hjust =>
      refine Or.inl ⟨rfl, .content hsilent (fun hequals => ?_) h⟩
      rw [hdelimiters, d.word_of_silent hsilent hequals] at hjust
      rw [List.reverse_cons]
      exact cut?_concat (hnone hequals) (by rwa [List.reverse_reverse])
  | @ends _ _ _ tag place hjust hcomplete =>
      rcases Cursor.isSilent_of_complete hsilent hcomplete with ⟨hsilentTag, hchange⟩
      refine Or.inr ⟨tag, rfl, hsilentTag, ?_⟩
      by_cases hequals : sigil = '='
      · exact Or.inl (hchange hequals)
      · right
        rw [hdelimiters, d.word_of_silent hsilent hequals, justRead, List.isPrefixOf_iff_prefix]
          at hjust
        rcases hjust with ⟨rest, hrest⟩
        have hread : (ch :: buffer).reverse = rest.reverse ++ d.closing := by
          rw [← hrest, List.reverse_append, List.reverse_reverse]
        -- The row has its next closing delimiter here.
        have hcut : cut? d.closing ((ch :: buffer).reverse ++ (after.ahead ++ trail)) =
            some (rest.reverse, after.ahead ++ trail) := by
          rw [hread]
          refine cut?_eq_of_leftmost d.closing_ne_nil fun more last hmore => ?_
          rw [← hread, List.reverse_cons] at hmore
          rw [← (List.append_inj' hmore rfl).1]
          exact hnone hequals
        rcases h hequals with ⟨run, hrun⟩ | hnot
        · rcases tagRun?_rest hcut hrun with ⟨hstart, found, hfound⟩ | hend
          · have hbegins := hstart
            rw [startsTag, Bool.and_eq_true, List.isPrefixOf_iff_prefix] at hbegins
            rcases hbegins.1 with ⟨text, htext⟩
            have hrow : tagRun? d (d.opening ++ text) = some (found, trail) := by rw [htext, hfound]
            exact inRow_of_startsTag htrail hstart htext.symm hrow
          · exact .done (List.append_left_eq_self.mp hend)
        · rw [hcut] at hnot
          simp only [reduceCtorEq] at hnot

end

theorem Tag.isSilent_of_mem_tokensFrom {tag : Tag} {start : Nat} {after : Cursor} {token : Token}
    (h : tag.IsSilent) (hmem : token ∈ tag.tokensFrom start after) : token.IsSilent := by
  rcases tag with (_ | _ | _ | _) | ⟨_, _⟩ | _
  case single.comment | single.delimiters => exact absurd hmem List.not_mem_nil
  case single.value => exact h.elim
  all_goals
    rw [List.mem_singleton.mp hmem]
    trivial

namespace Reader

/-- The row of tags that the line of a reader goes on with. -/
def InRow (pending : List Char) (r : Reader) : Prop :=
  r.mode.InRow r.place.delimiters r.place.ahead r.place.trail pending

/-- Some characters of the current line, and the tokens they make. A delimiter tag
    ends it, since the line may be another one after it. -/
inductive LinePath : Reader → List Token → Reader → Prop
  | refl (r : Reader) : LinePath r [] r
  | step {r next last : Reader} {event : Event} {tokens : List Token} (hahead : r.place.ahead ≠ [])
      (h : r.Moves event next)
      (hkeeps : ∀ new start, event ≠ .ends (.single (.delimiters new)) start)
      (hpath : LinePath next tokens last) : LinePath r (event.tokens next.place ++ tokens) last
  | change {r next : Reader} {new : Delimiters} {start : Nat} (hahead : r.place.ahead ≠ [])
      (h : r.Moves (.ends (.single (.delimiters new)) start) next) : LinePath r [] next

variable {r next last : Reader} {event : Event} {tokens : List Token} {pending : List Char}

theorem LinePath.cons {more : List Token} (h : r.Moves event next) (hahead : r.place.ahead ≠ [])
    (hkeeps : ∀ new start, event ≠ .ends (.single (.delimiters new)) start)
    (hpath : next.LinePath more last) (htokens : event.tokens next.place ++ more = tokens) :
    r.LinePath tokens last := by
  rw [← htokens]
  exact .step hahead h hkeeps hpath

/-- A character of a row leads to a place in the row. -/
theorem inRow_of_moves (h : r.InRow pending) (hclear : r.place.delimiters.IsClear)
    (htrail : r.place.trail.all isBlank = true)
    (hpending : ∀ first ∈ pending.head?, first ∉ r.place.delimiters.opening)
    (hahead : r.place.ahead ≠ []) (hmoves : r.Moves event next)
    (hkeeps : ∀ new start, event ≠ .ends (.single (.delimiters new)) start) :
    next.place.delimiters = r.place.delimiters ∧ next.place.trail = r.place.trail ∧
      ((event = .quiet ∧ next.InRow pending) ∨ (event = .opens pending.reverse ∧ next.InRow []) ∨
        ∃ tag start, event = .ends tag start ∧ tag.IsSilent ∧ pending = [] ∧ next.InRow []) := by
  rcases r with ⟨mode, place⟩
  rcases next with ⟨mode', place'⟩
  rcases hmoves with ⟨ch, after, hnext, hstep⟩
  dsimp only at *
  have hsteps := Mode.steps_of_step hstep
  -- The character is on the line, since something is ahead. It keeps the blanks at the
  -- end of the line.
  rcases Cursor.next?_cases hnext with ⟨hcons, hafter⟩ | ⟨hnil, _⟩
  · have hdelimiters : after.delimiters = place.delimiters := by rw [hafter]
    have hafterTrail : after.trail = place.trail := by rw [hafter]
    have hplace : place' = after := by
      rcases hsteps.place_cases with hplace | ⟨new, start, hevent, _⟩
      · exact hplace
      · exact absurd hevent (hkeeps new start)
    subst hplace
    refine ⟨hdelimiters, hafterTrail, ?_⟩
    rw [InRow] at h
    simp only [InRow, hdelimiters, hafterTrail]
    dsimp only at h
    rw [hcons] at h
    -- One case for each form of what is left of the row.
    cases h with
    | done hnil => exact absurd hnil (List.cons_ne_nil _ _)
    | opening hword hback hrest hrow =>
        rcases inRow_of_opening hword hback hrest hrow hpending hdelimiters hsteps with
          hquiet | hopens
        · exact Or.inl hquiet
        · exact Or.inr (Or.inl hopens)
    | opened hrow => exact Or.inl (inRow_of_opened hclear htrail hdelimiters hrow hsteps)
    | content hsilent hnone hrow =>
        rcases inRow_of_content htrail hdelimiters hsilent hnone hrow hsteps with
          hquiet | ⟨tag, hevent, htag, ⟨new, hnew⟩ | hin⟩
        · exact Or.inl hquiet
        · rw [hnew] at hevent
          exact absurd hevent (hkeeps _ _)
        · exact Or.inr (Or.inr ⟨tag, _, hevent, htag, rfl, hin⟩)
  · exact absurd hnil hahead

/-- What is read in a row is silent. Only the text before the row is shown, when
    the row's first tag is opened. -/
theorem silent_of_inRow (h : r.InRow pending) (hclear : r.place.delimiters.IsClear)
    (htrail : r.place.trail.all isBlank = true)
    (hpending : ∀ first ∈ pending.head?, first ∉ r.place.delimiters.opening)
    (hpath : r.LinePath tokens last) :
    (tokens = [] ∧ last.mode.IsInert r.place.delimiters pending) ∨
      ∃ silent, tokens = textTokens pending.reverse ++ silent ∧ (∀ token ∈ silent, token.IsSilent) ∧
        last.mode.IsInert r.place.delimiters [] := by
  -- The induction is on the path. The text before the row is read with the tag that is
  -- opened first, so from there on nothing is pending.
  induction hpath generalizing pending with
  | refl r => exact Or.inl ⟨rfl, h.isInert⟩
  | @step r next last event tokens hahead hmoves hkeeps hpath ih =>
      rcases inRow_of_moves h hclear htrail hpending hahead hmoves hkeeps with
        ⟨hdelimiters, hnextTrail, hcases⟩
      rw [← hdelimiters] at hclear hpending
      rw [← hnextTrail] at htrail
      rw [← hdelimiters]
      rcases hcases with ⟨rfl, hin⟩ | ⟨rfl, hin⟩ | ⟨tag, start, rfl, hsilent, rfl, hin⟩
      · exact ih hin hclear htrail hpending
      · right
        rcases ih hin hclear htrail nofun with ⟨rfl, hinert⟩ | ⟨silent, htokens, hsilent, hinert⟩
        · exact ⟨[], rfl, nofun, hinert⟩
        · exact ⟨silent, by rw [htokens]; rfl, hsilent, hinert⟩
      · right
        have htag : ∀ token ∈ tag.tokensFrom start next.place, token.IsSilent :=
          fun token hmem => Tag.isSilent_of_mem_tokensFrom hsilent hmem
        rcases ih hin hclear htrail nofun with ⟨rfl, hinert⟩ | ⟨silent, htokens, hrest, hinert⟩
        · exact ⟨tag.tokensFrom start next.place, List.append_nil _, htag, hinert⟩
        · refine ⟨tag.tokensFrom start next.place ++ silent, by rw [htokens]; rfl, ?_, hinert⟩
          intro token hmem
          rcases List.mem_append.mp hmem with hmem | hmem
          · exact htag token hmem
          · exact hrest token hmem
  | @change r next new start hahead hmoves =>
      -- The path ends with a delimiter tag, which is part of the row.
      rcases r with ⟨mode, place⟩
      rcases next with ⟨mode', place'⟩
      rcases hmoves with ⟨ch, after, hnext, hstep⟩
      have hsteps := Mode.steps_of_step hstep
      dsimp only at hsteps
      cases hsteps with
      | ends hjust hcomplete =>
          cases h with
          | content =>
              exact Or.inl ⟨rfl, [], place.delimiters.opening, rfl,
                place.delimiters.opening_ne_nil, rfl⟩

end Reader

namespace Cursor

variable {c : Cursor}

/-- What is left to read of the line is a row of silent tags, and what is not read
    after it are blanks. -/
def IsTrimmed (c : Cursor) : Prop :=
  onlyTags? c.delimiters (c.ahead ++ c.trail) = some (c.ahead, c.trail)

/-- A line that is taken with blanks at an end put aside is trimmed, and then all
    blanks it starts with are put aside. -/
theorem isTrimmed_nextLine (h : c.nextLine.lead ≠ [] ∨ c.nextLine.trail ≠ []) :
    c.nextLine.IsTrimmed ∧ c.nextLine.lead = c.nextLine.line.takeWhile isBlank := by
  rw [line_nextLine]
  unfold IsTrimmed nextLine at *
  dsimp only at *
  generalize (takeLine c.delimiters false (c.trail.reverse ++ c.behind) c.beyond).1 = line at *
  unfold Line.ofText at *
  -- A line without a row of tags is left whole, so no blanks are put aside.
  cases honly : onlyTags? c.delimiters (trimStart line) with
  | none =>
      rw [honly] at h
      rcases h with hlead | htrail
      · exact absurd rfl hlead
      · exact absurd rfl htrail
  | some found =>
      rcases found with ⟨tags, trail⟩
      dsimp only
      rw [onlyTags?_append honly]
      exact ⟨honly, rfl⟩

/-- So is a line whose end a delimiter tag made blank. -/
theorem isTrimmed_changeDelimiters {new : Delimiters} (htrail : c.trail = [])
    (h : (c.changeDelimiters new).trail ≠ []) : (c.changeDelimiters new).IsTrimmed := by
  unfold IsTrimmed
  rw [changeDelimiters, htrail, List.isEmpty_nil, if_pos rfl] at h ⊢
  dsimp only at h ⊢
  split at h
  case h_1 tags trail hfound =>
    split at hfound
    case isFalse => simp only [reduceCtorEq] at hfound
    case isTrue => rw [onlyTags?_append hfound, hfound]
  case h_2 => exact absurd rfl h

theorem IsTrimmed.ahead_ne_nil (h : c.IsTrimmed) : c.ahead ≠ [] := by
  rcases onlyTags?_eq_some h with ⟨run, _, hahead, _⟩
  rw [hahead]
  exact List.append_ne_nil_of_left_ne_nil c.delimiters.opening_ne_nil _

/-- Between two tags, a trimmed line goes on with a row. -/
theorem IsTrimmed.inRow (h : c.IsTrimmed) (pending : List Char) :
    c.trail.all isBlank = true ∧ Reader.InRow pending ⟨.text pending, c⟩ := by
  rcases onlyTags?_eq_some h with ⟨run, hrun, _, hblank⟩
  have hstart : startsTag c.delimiters (c.ahead ++ c.trail) = true := by
    rw [IsTrimmed, onlyTags?] at h
    by_contra hnot
    rw [if_neg hnot] at h
    simp only [reduceCtorEq] at h
  have hbegins := hstart
  rw [startsTag, Bool.and_eq_true, List.isPrefixOf_iff_prefix] at hbegins
  rcases hbegins.1 with ⟨text, htext⟩
  rw [← htext, List.drop_left] at hrun
  -- The row was found from its first tag on.
  have hrow : tagRun? c.delimiters ([] ++ text) = some (run, c.trail) := hrun
  exact ⟨hblank, inRow_of_startsTag hblank hstart htext.symm hrow⟩

end Cursor

namespace Reader

variable {r next last : Reader} {event : Event} {tokens : List Token} {pending : List Char}

/-- Text is read without regard to what was read before, so the line may as well
    be taken before its first character is read. -/
theorem moves_nextLine (hmoves : r.Moves event next) (hahead : r.place.ahead = []) :
    r.place.nextLine.ahead ≠ [] ∧ (Reader.mk r.mode r.place.nextLine).Moves event next := by
  rcases hmoves with ⟨ch, after, hnext, hstep⟩
  rcases Cursor.next?_cases hnext with ⟨hcons, _⟩ | ⟨_, hbeyond, hcons, _⟩
  · rw [hahead] at hcons
    simp only [reduceCtorEq] at hcons
  · have hne : r.place.nextLine.ahead ≠ [] := by
      rw [hcons]
      exact List.cons_ne_nil _ _
    refine ⟨hne, ch, after, ?_, hstep⟩
    rw [← hnext, Cursor.next?, Cursor.next?, Cursor.atLine_of_ne_nil hne,
      Cursor.atLine_of_nil hahead hbeyond]

/-- No tag ends with a character of a text. -/
theorem ne_ends_of_moves (hmode : r.mode = .text pending) (hmoves : r.Moves event next) (tag : Tag)
    (start : Nat) : event ≠ .ends tag start := by
  rcases hmoves with ⟨ch, after, _, hstep⟩
  rw [hmode] at hstep
  cases Mode.steps_of_step hstep with
  | text => exact nofun
  | opens => exact nofun

/-- The first character of a line leads to a place on the line as it was taken. -/
theorem place_of_moves (hkeeps : ∀ new start, event ≠ .ends (.single (.delimiters new)) start)
    (hmoves : r.Moves event next) (hahead : r.place.ahead = []) :
    next.place.lead = r.place.nextLine.lead ∧ next.place.trail = r.place.nextLine.trail ∧
      next.place.line = r.place.nextLine.line := by
  rcases hmoves with ⟨ch, after, hnext, hstep⟩
  have hplace : next.place = after := by
    rcases (Mode.steps_of_step hstep).place_cases with hplace | ⟨new, start, hevent, _⟩
    · exact hplace
    · exact absurd hevent (hkeeps new start)
  have hline := (Cursor.nextLine_of_next? hnext hahead).2.2.1
  rcases Cursor.next?_cases hnext with ⟨hcons, _⟩ | ⟨_, _, _, hafter⟩
  · rw [hahead] at hcons
    simp only [reduceCtorEq] at hcons
  · rw [hplace]
    exact ⟨by rw [hafter], by rw [hafter], hline⟩

/-- What is read on a trimmed line is silent. The reader is between two tags, and
    comes to a line that it trims as it takes it, or stands after a delimiter tag
    that made it trim the rest of its line. From there up to the end of the line or
    of the next delimiter tag, everything that is read is part of silent tags: no
    text and no value is read but the text that was pending before, and whatever
    is being read in between is an opening delimiter or a tag with a silent sigil.
    And a line whose end is trimmed as it is taken is trimmed at its start.

    The delimiters have to be clear, and the pending text must not end within an
    opening delimiter. -/
theorem silent_of_trimmed (hmode : r.mode = .text pending) (hclear : r.place.delimiters.IsClear)
    (hpending : ∀ first ∈ pending.head?, first ∉ r.place.delimiters.opening)
    (hmoves : r.Moves event next) (hpath : next.LinePath tokens last)
    (htrimmed : (r.place.ahead = [] ∧ (next.place.lead ≠ [] ∨ next.place.trail ≠ [])) ∨
      ∃ c new, r.place = Cursor.changeDelimiters new c ∧ c.trail = [] ∧ r.place.trail ≠ []) :
    ((event.tokens next.place ++ tokens = [] ∧ last.mode.IsInert r.place.delimiters pending) ∨
      ∃ silent, event.tokens next.place ++ tokens = textTokens pending.reverse ++ silent ∧
        (∀ token ∈ silent, token.IsSilent) ∧ last.mode.IsInert r.place.delimiters []) ∧
    (r.place.ahead = [] → next.place.trail ≠ [] →
      next.place.lead = next.place.line.takeWhile isBlank) := by
  have hkeeps : ∀ new start, event ≠ .ends (.single (.delimiters new)) start :=
    fun new start => ne_ends_of_moves hmode hmoves _ start
  -- The reader stands on the trimmed line before its first character is read.
  have hstart : ∃ place : Cursor, place.IsTrimmed ∧ place.delimiters = r.place.delimiters ∧
      place.ahead ≠ [] ∧ (Reader.mk (.text pending) place).Moves event next := by
    rw [← hmode]
    rcases htrimmed with ⟨hahead, hblanks⟩ | ⟨c, new, hplace, htrail, hblanks⟩
    · rcases moves_nextLine hmoves hahead with ⟨hne, hmoves'⟩
      rcases place_of_moves hkeeps hmoves hahead with ⟨hlead, htrail, _⟩
      rw [hlead, htrail] at hblanks
      exact ⟨r.place.nextLine, (Cursor.isTrimmed_nextLine hblanks).1, rfl, hne, hmoves'⟩
    · rw [hplace] at hblanks
      have htrimmed := Cursor.isTrimmed_changeDelimiters htrail hblanks
      rw [← hplace] at htrimmed
      exact ⟨r.place, htrimmed, rfl, htrimmed.ahead_ne_nil, hmoves⟩
  refine ⟨?_, ?_⟩
  · rcases hstart with ⟨place, hplace, hdelimiters, hahead, hmoves'⟩
    rcases hplace.inRow pending with ⟨hblank, hrow⟩
    rw [← hdelimiters] at hclear hpending ⊢
    exact silent_of_inRow hrow hclear hblank hpending (.step hahead hmoves' hkeeps hpath)
  · intro hahead hblanks
    rcases place_of_moves hkeeps hmoves hahead with ⟨hlead, htrail, hline⟩
    rw [htrail] at hblanks
    rw [hlead, hline]
    exact (Cursor.isTrimmed_nextLine (Or.inr hblanks)).2

/-- A section tag with blanks around it, on a line after a text. -/
theorem silent_of_trimmed_section :
    (Reader.mk (.text ['\n', 'a'])
        ⟨.standard, [], [], ['\n', 'a'], [], [], " \x7b\x7b#s\x7d\x7d\nb".toList⟩).Moves .quiet
      ⟨.text ['{', '\n', 'a'],
        ⟨.standard, ['\n', 'a'], [' '], ['{'], "\x7b#s\x7d\x7d".toList, ['\n'], ['b']⟩⟩ ∧
    (∃ silent, [Token.text "a\n", .opening .sect "s" 10 .standard] = .text "a\n" :: silent ∧
      ∀ token ∈ silent, token.IsSilent) ∧
    [' '] = " \x7b\x7b#s\x7d\x7d\n".toList.takeWhile isBlank := by
  have hmoves : (Reader.mk (.text ['\n', 'a'])
      ⟨.standard, [], [], ['\n', 'a'], [], [], " \x7b\x7b#s\x7d\x7d\nb".toList⟩).Moves .quiet
        ⟨.text ['{', '\n', 'a'],
          ⟨.standard, ['\n', 'a'], [' '], ['{'], "\x7b#s\x7d\x7d".toList, ['\n'], ['b']⟩⟩ :=
    ⟨_, _, by with_unfolding_all rfl, by with_unfolding_all rfl⟩
  have hpath : (Reader.mk (.text ['{', '\n', 'a'])
      ⟨.standard, ['\n', 'a'], [' '], ['{'], "\x7b#s\x7d\x7d".toList, ['\n'], ['b']⟩).LinePath
        [.text "a\n", .opening .sect "s" 10 .standard]
        ⟨.text [], ⟨.standard, ['\n', 'a'], [' '], "\x7d\x7ds#\x7b\x7b".toList, [], ['\n'],
        ['b']⟩⟩ := by
    -- One step for each character of the tag.
    refine .cons ⟨_, _, rfl, rfl⟩ (List.cons_ne_nil _ _) nofun ?_ rfl
    refine .cons ⟨_, _, rfl, rfl⟩ (List.cons_ne_nil _ _) nofun ?_ rfl
    refine .cons ⟨_, _, rfl, rfl⟩ (List.cons_ne_nil _ _) nofun ?_ rfl
    refine .cons ⟨_, _, rfl, rfl⟩ (List.cons_ne_nil _ _) nofun ?_ rfl
    exact .cons ⟨_, _, rfl, rfl⟩ (List.cons_ne_nil _ _) nofun (.refl _) rfl
  have hpending : ∀ first ∈ ['\n', 'a'].head?, first ∉ Delimiters.standard.opening := by
    intro first hfirst
    rw [← Option.some.inj hfirst]
    decide
  rcases silent_of_trimmed rfl Delimiters.isClear_standard hpending hmoves hpath
    (Or.inl ⟨rfl, Or.inl (List.cons_ne_nil _ _)⟩) with
      ⟨⟨hnil, _⟩ | ⟨silent, htokens, hsilent, _⟩, hlead⟩
  · exact absurd hnil (List.cons_ne_nil _ _)
  · exact ⟨hmoves, ⟨silent, htokens, hsilent⟩, hlead rfl (List.cons_ne_nil _ _)⟩

-- The value tag before a delimiter tag is not seen when the line is looked at
-- again, so the line end after the comment is trimmed.
example : (Cursor.changeDelimiters
    ⟨['|'], ['|'], by simp [IsDelimiter, isBlank, blankRanges],
      by simp [IsDelimiter, isBlank, blankRanges]⟩
    ⟨.standard, [], [], "\x7b\x7bx\x7d\x7d\x7b\x7b=| |=\x7d\x7d".toList.reverse, "|!c|\n".toList,
      [], []⟩).trail = ['\n'] := by
  with_unfolding_all rfl

end Reader

end Mustache
