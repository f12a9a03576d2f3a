import Mustache.Proofs.Concatenation
import Mustache.Render

/-!
# Sections of Whole Lines

A section whose body is made of whole lines. The body is given to a callable as
a text, and a callable may compile it again. If the body starts and stops where a
line starts, this makes the children of the section once more: reading the body
for itself takes the same lines as reading it in its template, so all tags and
texts are the same.

The body starts where a line starts when the opening tag is the last one of a
standalone line, since the line end after it is no part of the body. It stops
where a line starts when the closing tag is the first one of its line and either
the line is standalone, so that the blanks before the tag are no part of the
body, or there are no blanks before it.

## Main definitions

* `LineStartsAt`: A line starts at a byte offset.
* `Reader.Surrounds`: The readers before and after the body of a section.
* `Template.StandsBetweenLines`: A section whose tags are on standalone lines.

## Theorems

* `Cursor.OnLine.lineStartsAt_bodyStart`: A body after a standalone line.
* `Cursor.OnLine.lineStartsAt_bodyEnd`: A body before a standalone line.
* `Reader.Surrounds.lineStartsAt`: A body between standalone lines is made of whole
  lines.
* `Reader.run_of_extend`: A text that is cut off where a line starts.
* `Reader.Surrounds.run_eq`: A body of whole lines is read as it is in its template.
* `Template.compile_body`: The body of a section stands for its children.
* `Template.compile_body_of_standsBetweenLines`: So does any body between standalone
  lines.
-/

namespace Mustache

open Text

/-- A line starts at the byte offset: the character before it is a line end. -/
def LineStartsAt (text : List Char) (offset : Nat) : Prop :=
  ∃ front back, text = front ++ back ∧ byteLength front = offset ∧ front.getLast? = some '\n'

/-- A text has one beginning with a given number of bytes. -/
theorem append_inj_of_byteLength {front front' back back' : List Char}
    (h : front ++ back = front' ++ back') (hlength : byteLength front = byteLength front') :
    front = front' ∧ back = back' := by
  have hfront : front <+: front' ++ back' := ⟨back, h⟩
  have hfront' : front' <+: front' ++ back' := List.prefix_append _ _
  rcases prefix_of_byteLength_le hfront hfront' (by omega) with ⟨more, rfl⟩
  have hnil : more = [] := by
    rw [byteLength_append] at hlength
    exact byteLength_eq_zero (by omega)
  rw [hnil, List.append_nil] at h ⊢
  exact ⟨rfl, List.append_cancel_left h⟩

namespace Cursor

variable {c : Cursor}

/-- When nothing of a line is left to read after an opening tag, the body starts
    with the next line. -/
theorem OnLine.lineStartsAt_bodyStart (h : c.OnLine) (hahead : c.ahead = [])
    (hline : c.line ≠ []) (hbeyond : c.beyond ≠ []) : LineStartsAt c.toText c.bodyStart := by
  refine ⟨c.before.reverse ++ c.line, c.beyond, c.toText_eq_line, ?_, ?_⟩
  · have hend := c.lineEnd_eq
    rw [lineEnd, hahead, List.nil_append, lineStart] at hend
    rw [byteLength_append, byteLength_reverse, bodyStart, hahead, List.isEmpty_nil,
      if_pos rfl, hend]
  · rw [List.getLast?_append_of_ne_nil _ hline]
    exact (h.isClosed hline hbeyond).1

/-- When a closing tag is the first one of a line that is trimmed to its tags, the
    body stops where the line starts. -/
theorem OnLine.lineStartsAt_bodyEnd {start : Nat} (h : c.OnLine) (hstart : start = c.textStart)
    (hbefore : c.before ≠ []) : LineStartsAt c.toText (c.bodyEnd start) := by
  have hend : c.bodyEnd start = c.lineStart := by
    rw [bodyEnd, hstart, decide_eq_true rfl, Bool.true_and]
    -- With no blanks at the start of the line, the tag itself starts the line.
    by_cases hlead : c.lead = []
    · rw [hlead, textStart, hlead]
      rfl
    · rw [List.isEmpty_eq_false_iff.mpr hlead, Bool.not_false, if_pos rfl]
  refine ⟨c.before.reverse, c.line ++ c.beyond, ?_, ?_, ?_⟩
  · rw [toText_eq_line, List.append_assoc]
  · rw [hend, byteLength_reverse, lineStart]
  · rw [List.getLast?_reverse]
    cases hcons : c.before with
    | nil => exact absurd hcons hbefore
    | cons last before => rw [List.head?_cons, h.starts last (by rw [hcons]; rfl)]

end Cursor

namespace Reader

variable {r next last : Reader} {event : Event} {tokens : List Token} {back : List Char}

/-- A line that is taken from a text that goes on, and ends within the part before
    that, is taken from this part alone. -/
theorem isClosed_of_extend {c after after' : Cursor} {ch ch' : Char}
    (hnext : c.next? = some (ch, after)) (hnext' : (c.extend back).next? = some (ch', after'))
    (hback : back ≠ []) (hend : after'.lineEnd ≤ byteLength c.toText) :
    c.ahead = [] → after.beyond = [] → IsClosed c.delimiters false after.before after.line := by
  intro hahead hbeyond
  rcases Cursor.nextLine_of_next? hnext hahead with ⟨_, hbefore, hline, _⟩
  rcases Cursor.nextLine_of_next? hnext' hahead with ⟨_, hbefore', hline', _⟩
  have hsame : after'.before = after.before := by rw [hbefore, hbefore']; rfl
  have htake : (takeLine c.delimiters false after.before (c.beyond ++ back)).1 = after'.line := by
    rw [hline', Cursor.line_nextLine, hbefore]
    rfl
  have hbegins : after'.line <+: c.beyond ++ back := by
    rw [← htake]
    exact ⟨_, takeLine_append c.delimiters false after.before (c.beyond ++ back)⟩
  -- The line is no longer than what is left of the first text.
  have hlength : byteLength after'.line ≤ byteLength c.beyond := by
    have hlineEnd := after'.lineEnd_eq
    have htext : c.toText = after.before.reverse ++ c.beyond := by
      rw [hbefore, Cursor.toText, hahead, List.append_nil, List.reverse_append,
        List.reverse_reverse]
    rw [htext, byteLength_append, byteLength_reverse] at hend
    rw [Cursor.lineStart, hsame] at hlineEnd
    omega
  -- So it is a part of that, and it ends with a line end of its own there.
  rcases prefix_of_byteLength_le hbegins (List.prefix_append c.beyond back) hlength with
    ⟨more, hmore⟩
  rw [← hmore] at htake
  rcases takeLine_of_append htake hback with ⟨htake', hclosed⟩
  have hafter : after.line = after'.line := by
    rw [hline, Cursor.line_nextLine, ← hbefore, ← hmore, htake']
  rwa [hafter]

/-- Every step leads further on, so a path between equal offsets has none. -/
theorem eq_of_pos_eq (hkeeps : r.KeepsDelimiters) (hpath : r.Path tokens last)
    (h : last.place.pos = r.place.pos) : tokens = [] ∧ r = last := by
  cases hpath with
  | refl => exact ⟨rfl, rfl⟩
  | step hmoves hrest =>
      rcases hkeeps.steps hmoves with ⟨ch, hnext, _⟩
      have hlt := Cursor.pos_lt_of_next? hnext
      have hle := pos_le_of_path (hkeeps.of_moves hmoves) hrest
      omega

/-- Two braces in a row open a tag, and what was read before them is a text. -/
theorem text_of_steps {second : Reader} {event' : Event} {start : Nat}
    (hsteps : r.mode.Steps '{' next.place event next)
    (hsteps' : next.mode.Steps '{' second.place event' second)
    (hdelimiters : second.place.delimiters = .standard) (hmode : second.mode = .opened start) :
    ∃ buffer, r.mode = .text buffer ∧
      event.tokens next.place ++ (event'.tokens second.place ++ []) =
      textTokens buffer.reverse := by
  rcases r with ⟨mode, place⟩
  rcases next with ⟨mode', place'⟩
  rcases second with ⟨mode'', place''⟩
  dsimp only at hsteps hsteps' hmode hdelimiters ⊢
  -- Only a text ends in an opening delimiter, so both braces were read as text.
  cases hsteps' with
  | blank hblank => exact absurd hblank (by decide)
  | text | sigil | kept | content | ends => simp only [reduceCtorEq] at hmode
  | @opens buffer' hjust =>
      rw [hdelimiters] at hjust ⊢
      rw [justRead_opening] at hjust
      rcases hjust with ⟨rest, hrest⟩
      cases hsteps with
      | ends => simp only [List.cons.injEq, reduceCtorEq, and_false] at hrest
      | @text buffer hjust' => exact ⟨buffer, rfl, List.append_nil _⟩

/-- A place on the next line is on the line of the first character that is read
    of it. -/
theorem sameLine_of_lineStart {c : Cursor} {ch : Char} {next : Reader}
    (hkeeps : next.KeepsDelimiters)
    (hpath : next.Path tokens last) (hnext : c.next? = some (ch, next.place))
    (hahead : c.ahead = [])
    (hstart : last.place.lineStart = c.lineEnd) : next.place.SameLine last.place := by
  rcases sameLine_of_path hkeeps hpath with hsame | hend
  · exact hsame
  · rcases Cursor.sameLine_of_next? hnext with ⟨hne, _⟩ | ⟨_, _, hline⟩
    · exact absurd hahead hne
    · rw [Cursor.lineEnd_eq, hline, hstart] at hend
      exact absurd (byteLength_eq_zero (by omega)) (Cursor.line_ne_nil hnext)

/-- The two braces at the start of a line are read in two steps. What was read
    before them is a text, which they end. -/
theorem text_of_opensTag {start : Nat} (h : r.IsRegular) (hkeeps : r.KeepsDelimiters)
    (hpath : r.Path tokens last) (hmode : last.mode = .opened start)
    (hread : last.place.read = ['{', '{']) (hahead : r.place.ahead = [])
    (hstart : last.place.lineStart = r.place.lineEnd) :
    ∃ buffer, r.mode = .text buffer ∧ tokens = textTokens buffer.reverse := by
  cases hpath with
  | refl =>
      -- The line that was read last has an end of its own.
      rw [Cursor.lineEnd_eq, Cursor.line, hread] at hstart
      simp only [byteLength_append, List.reverse_cons, List.reverse_nil, List.nil_append,
        byteLength] at hstart
      have hsize := Char.utf8Size_pos '{'
      omega
  | @step _ next _ event more hmoves hrest =>
      rcases hkeeps.steps hmoves with ⟨first, hnext, hsteps⟩
      have hnextKeeps := hkeeps.of_moves hmoves
      -- The first step reads the first character of the next line.
      have hnextRead : next.place.read = [first] := by
        rcases Cursor.next?_cases hnext with ⟨hcons, _⟩ | ⟨_, _, _, hafter⟩
        · rw [hahead] at hcons
          simp only [reduceCtorEq] at hcons
        · rw [hafter]
      have hsame := sameLine_of_lineStart hnextKeeps hrest hnext hahead hstart
      rcases hsame.read with ⟨rest, hlastRead, hnextAhead⟩
      -- What was read of the line up to the tag is that character and a brace after it.
      have hboth : rest ++ [first] = ['{'] ++ ['{'] := by
        rw [← hnextRead, ← hlastRead, hread]
        rfl
      rcases List.append_inj' hboth rfl with ⟨rfl, hfirst⟩
      rw [List.cons.injEq] at hfirst
      rw [hfirst.1] at hnext hsteps hnextRead
      cases hrest with
      | refl =>
          rw [hread] at hnextRead
          simp only [List.cons.injEq, reduceCtorEq, and_false] at hnextRead
      | @step _ second _ event' more' hmoves' hrest =>
          rcases hnextKeeps.steps hmoves' with ⟨ch, hsecond, hsteps'⟩
          rcases Cursor.next?_cases hsecond with ⟨hcons, hafter⟩ | ⟨hnil, _⟩
          · have hch : ch = '{' := by
              rw [hnextAhead] at hcons
              exact (List.cons.inj hcons).1.symm
            -- With the second brace the place is already the last one.
            have hpos : last.place.pos = second.place.pos := by
              rw [hafter, Cursor.pos, Cursor.pos, Cursor.behind, Cursor.behind, hread, hch,
                hnextRead, hsame.lead, hsame.before]
            rcases eq_of_pos_eq (hnextKeeps.of_moves hmoves') hrest hpos with ⟨rfl, rfl⟩
            rw [hch] at hsecond hsteps'
            have hdelimiters : second.place.delimiters = .standard := by
              rw [Cursor.delimiters_next? hsecond, Cursor.delimiters_next? hnext, h.delimiters]
            exact text_of_steps hsteps hsteps' hdelimiters hmode
          · rw [hnextAhead] at hnil
            simp only [List.reverse_cons, List.reverse_nil, List.nil_append, List.cons_append,
              reduceCtorEq] at hnil

/-- A character that is read before the end of the first text stands on a line
    that starts before it. -/
theorem lineStart_lt_of_extend {c after after' : Cursor} {ch ch' : Char}
    (hnext : c.next? = some (ch, after)) (hnext' : (c.extend back).next? = some (ch', after')) :
    after'.lineStart < byteLength c.toText := by
  have hbefore : after'.before = after.before := by
    rcases Cursor.next?_cases hnext with ⟨hcons, hafter⟩ | ⟨hnil, _, _, hafter⟩
    · rcases Cursor.next?_cases hnext' with ⟨_, hafter'⟩ | ⟨hnil', _⟩
      · rw [hafter, hafter']
        rfl
      · have hnone : c.ahead = [] := hnil'
        rw [hcons] at hnone
        simp only [reduceCtorEq] at hnone
    · have hnil' : (c.extend back).ahead = [] := hnil
      rw [(Cursor.nextLine_of_next? hnext hnil).2.1, (Cursor.nextLine_of_next? hnext' hnil').2.1]
      rfl
  -- The line is not empty, so it ends behind the place where it starts.
  have hline : 0 < byteLength after.line :=
    Nat.pos_of_ne_zero fun hzero => Cursor.line_ne_nil hnext (byteLength_eq_zero hzero)
  have htext := congrArg byteLength after.toText_eq_line
  rw [Cursor.toText_next? hnext] at htext
  simp only [byteLength_append, byteLength_reverse] at htext
  rw [Cursor.lineStart, hbefore]
  omega

/-- A text that is cut off where a line starts is read to its end, if the line
    after it starts with a tag. -/
theorem run_of_extend {start : Nat} (h : (r.extend back).IsRegular)
    (hkeeps : (r.extend back).KeepsDelimiters) (hpath : (r.extend back).Path tokens last)
    (hmode : last.mode = .opened start) (hread : last.place.read = ['{', '{']) (hback : back ≠ [])
    (hline : last.place.lineStart = byteLength r.place.toText) :
    ∃ offset, r.run = ⟨tokens, .endOfText offset⟩ := by
  -- The induction is on the path of the longer text. A step is the same for both texts
  -- until the first one ends.
  generalize hlong : r.extend back = long at h hkeeps hpath
  induction hpath generalizing r with
  | refl =>
      -- The line that was read last is part of the text.
      subst hlong
      have htext := congrArg byteLength r.place.toText_eq_line
      have hplaceRead : r.place.read = ['{', '{'] := hread
      have hplaceLine : r.place.lineStart = byteLength r.place.toText := hline
      have hsize := Char.utf8Size_pos '{'
      rw [Cursor.line, hplaceRead] at htext
      simp only [byteLength_append, byteLength_reverse, List.reverse_cons, List.reverse_nil,
        List.nil_append, byteLength] at htext
      rw [Cursor.lineStart] at hplaceLine
      omega
  | @step _ next last event tokens hmoves hpath ih =>
      subst hlong
      rcases hkeeps.steps hmoves with ⟨ch', hnext', hsteps⟩
      cases hplace : r.place.next? with
      | none =>
          -- The first text is read to its end. Only the braces of the tag are left of
          -- the path.
          have hnil := Cursor.nil_of_next? hplace
          have hend : last.place.lineStart = (r.extend back).place.lineEnd := by
            have hsame : (r.extend back).place.lineEnd = r.place.lineEnd := rfl
            rw [hline, hsame, Cursor.lineEnd_eq, Cursor.toText_eq_line, hnil.2, List.append_nil,
              byteLength_append, byteLength_reverse, Cursor.lineStart]
          rcases text_of_opensTag h hkeeps (.step hmoves hpath) hmode hread hnil.1 hend with
            ⟨buffer, htext, htokens⟩
          have hbuffer : r.mode = .text buffer := htext
          rw [run_of_none hplace, hbuffer, htokens]
          exact ⟨_, rfl⟩
      | some result =>
          rcases result with ⟨ch, after⟩
          -- Another character is read, so the line that is taken ends within the first
          -- text.
          have hlt := lineStart_lt_of_extend hplace hnext'
          have hend : next.place.lineEnd ≤ byteLength r.place.toText := by
            rcases sameLine_of_path (hkeeps.of_moves hmoves) hpath with hsame | hend
            · rw [← hline, hsame.lineStart] at hlt
              exact absurd hlt (Nat.lt_irrefl _)
            · rwa [← hline]
          have hextend : (r.place.extend back).next? = some (ch, after.extend back) :=
            Cursor.next?_extend hplace (isClosed_of_extend hplace hnext' hback hend)
          have hnext : (r.place.extend back).next? = some (ch', next.place) := hnext'
          rw [hextend, Option.some.injEq, Prod.mk.injEq] at hnext
          rcases next with ⟨mode, place⟩
          rcases hnext with ⟨rfl, rfl⟩
          have hsteps' : r.mode.Steps ch after event ⟨mode, after⟩ :=
            hsteps.congr rfl rfl rfl (hkeeps [] _ event _ (.refl _) hmoves)
          have htext : last.place.lineStart = byteLength (Reader.mk mode after).place.toText := by
            rw [hline, ← Cursor.toText_next? hplace]
          rcases ih hmode hread htext rfl (h.moves hkeeps hmoves) (hkeeps.of_moves hmoves) with
            ⟨offset, hrun⟩
          refine ⟨offset, ?_⟩
          rw [run_of_moves ⟨ch, after, hplace, hsteps'.step_eq⟩, hrun]
          exact congrArg (Stream.mk · _) (congrArg (· ++ tokens) (tokens_extend event after).symm)

end Reader

/-- The token of an opening tag tells where the body starts behind the tag, and
    the delimiters there. -/
theorem Tag.of_tokensFrom_opening {start bodyStart : Nat} {after : Cursor} {tag : Tag}
    {kind : Opening} {name : String} {delimiters : Delimiters}
    (h : tag.tokensFrom start after = [.opening kind name bodyStart delimiters]) :
    bodyStart = after.bodyStart ∧ delimiters = after.delimiters := by
  rcases tag with (_ | _ | _ | _) | ⟨_, _⟩ | _
  case opening =>
    simp only [tokensFrom, List.cons.injEq, Token.opening.injEq, and_true] at h
    exact ⟨h.2.2.1.symm, h.2.2.2.symm⟩
  all_goals simp only [tokensFrom, List.cons.injEq, reduceCtorEq, false_and] at h

/-- The token of a closing tag tells where the body before the tag stops. -/
theorem Tag.of_tokensFrom_closing {start stop offset : Nat} {after : Cursor} {tag : Tag}
    {name : String} (h : tag.tokensFrom start after = [.closing name stop offset]) :
    stop = after.bodyEnd start := by
  rcases tag with (_ | _ | _ | _) | ⟨_, _⟩ | _
  case closing =>
    simp only [tokensFrom, List.cons.injEq, Token.closing.injEq, and_true] at h
    exact h.2.1.symm
  all_goals simp only [tokensFrom, List.cons.injEq, reduceCtorEq, false_and] at h

namespace Reader

variable {r next : Reader}

/-- A step that ends a tag starts inside of it and leads to its last brace. -/
theorem IsRegular.of_ends {tag : Tag} {start : Nat} (h : r.IsRegular) (hkeeps : r.KeepsDelimiters)
    (hmoves : r.Moves (.ends tag start) next) :
    r.mode.start? = some start ∧ next.mode = .text [] ∧ next.place.read.head? = some '}' := by
  rcases hkeeps.steps hmoves with ⟨ch, hnext, hsteps⟩
  rcases r with ⟨mode, place⟩
  rcases next with ⟨mode', after⟩
  dsimp only at hnext hsteps ⊢
  cases hsteps with
  | ends hjust hcomplete =>
      refine ⟨rfl, rfl, ?_⟩
      rw [head?_read_next hnext, (h.inComment_ends rfl hnext hjust).2]

/-- When the body after an opening tag starts where a line does, nothing of the
    line before it is left to read. -/
theorem ahead_nil_of_lineStartsAt {c : Cursor} (hread : c.read.head? = some '}')
    (h : LineStartsAt c.toText c.bodyStart) : c.ahead = [] := by
  by_contra hahead
  rcases h with ⟨front, back, htext, hlength, hend⟩
  have hpos : c.bodyStart = byteLength c.behind.reverse := by
    rw [Cursor.bodyStart, List.isEmpty_eq_false_iff.mpr hahead, if_neg Bool.false_ne_true,
      byteLength_reverse, Cursor.pos]
  rw [Cursor.toText, List.append_assoc, List.append_assoc] at htext
  have hfront := (append_inj_of_byteLength htext (by rw [hlength, hpos])).1
  -- Before the body there would be a brace instead of a line end.
  rw [← hfront, List.getLast?_reverse, Cursor.behind, List.append_assoc, List.head?_append, hread,
    Option.some_or, Option.some.injEq] at hend
  exact absurd hend (by decide)

/-- Between the two braces that open a tag and the start of their line there is
    no line end. -/
theorem IsRegular.read_of_lineEnd {rest : List Char} (h : r.IsRegular)
    (hcomment : r.place.inComment = false) (hread : r.place.read = '{' :: '{' :: rest)
    (hend : (rest ++ r.place.lead.reverse ++ r.place.before).head? = some '\n') :
    rest = [] ∧ r.place.lead = [] := by
  cases rest with
  | cons first rest =>
      rw [List.cons_append, List.cons_append, List.head?_cons, Option.some.injEq] at hend
      have hline : r.place.line = (r.place.lead ++ rest.reverse) ++
          '\n' :: ('{' :: '{' :: (r.place.ahead ++ r.place.trail)) := by
        simp only [Cursor.line, hread, hend, List.reverse_cons, List.append_assoc, List.cons_append,
          List.nil_append]
      -- The line goes on after this line end, so a comment is open there.
      have hopen := h.onLine.isLine _ _ hline (List.cons_ne_nil _ _)
      have hwhole : r.place.lead ++ r.place.read.reverse =
          (r.place.lead ++ rest.reverse ++ ['\n']) ++ ['{', '{'] := by
        simp only [hread, hend, List.reverse_cons, List.append_assoc, List.cons_append,
          List.nil_append]
      rw [Cursor.inComment, hwhole, commentAfter_append, hopen, h.delimiters] at hcomment
      have hstays : ∀ behind, commentAfter .standard true behind ['{', '{'] = true := fun _ => rfl
      rw [hstays] at hcomment
      exact absurd hcomment.symm Bool.false_ne_true
  | nil =>
      refine ⟨rfl, ?_⟩
      rcases List.eq_nil_or_concat r.place.lead with hnil | ⟨front, last, hlead⟩
      · exact hnil
      · have hmem := h.onLine.not_mem_lead
        rw [List.concat_eq_append] at hlead
        rw [hlead, List.nil_append, List.reverse_append, List.reverse_singleton,
          List.singleton_append, List.cons_append, List.head?_cons, Option.some.injEq] at hend
        rw [hlead, hend] at hmem
        exact absurd (List.mem_append_right front (List.mem_singleton_self _)) hmem

/-- The standard opening delimiter that was read last is left out of the start
    of the tag. -/
theorem tagStart_eq {c : Cursor} {rest : List Char} (hdelimiters : c.delimiters = .standard)
    (hread : c.read = '{' :: '{' :: rest) :
    c.tagStart = byteLength (rest ++ c.lead.reverse ++ c.before) := by
  have hbraces : byteLength Delimiters.standard.opening = '{'.utf8Size + '{'.utf8Size := rfl
  rw [Cursor.tagStart, Cursor.pos, Cursor.behind, hread, hdelimiters, hbraces]
  simp only [List.cons_append, byteLength]
  omega

/-- When the body before a closing tag stops where a line does, the tag is the
    first one of that line. The tag was opened at one reader and ends at
    another one. -/
theorem IsRegular.read_of_bodyEnd {closed : Cursor} (h : r.IsRegular) (hopens : r.OpensTag)
    (hline : r.place.SameLine closed ∨ r.place.lineEnd ≤ closed.lineStart)
    (hstop : LineStartsAt r.place.toText (closed.bodyEnd r.place.tagStart)) :
    r.place.read = ['{', '{'] ∧ closed.bodyEnd r.place.tagStart = r.place.lineStart := by
  rcases hopens with ⟨hmode, rest, hread⟩
  have hstart := tagStart_eq h.delimiters hread
  have hcomment : r.place.inComment = false := by
    have hagrees := h.agrees
    rwa [hmode] at hagrees
  simp only [byteLength_append, byteLength_reverse] at hstart
  unfold Cursor.bodyEnd at hstop ⊢
  split at hstop
  case isTrue htrimmed =>
    -- The blanks before the tag are no part of the body.
    rw [Bool.and_eq_true, decide_eq_true_eq] at htrimmed
    rw [if_pos (by rw [Bool.and_eq_true, decide_eq_true_eq]; exact htrimmed)]
    have htextStart := htrimmed.1
    rw [Cursor.textStart] at htextStart
    rcases hline with hsame | hend
    · rw [hsame.lineStart, hsame.lead, Cursor.lineStart] at htextStart
      have hnil : rest = [] := byteLength_eq_zero (by omega)
      exact ⟨by rw [hread, hnil], hsame.lineStart⟩
    · have hsize := Char.utf8Size_pos '{'
      rw [Cursor.lineEnd, Cursor.pos, Cursor.behind, hread] at hend
      simp only [List.cons_append, byteLength, byteLength_append, byteLength_reverse] at hend
      omega
  case isFalse htrimmed =>
    rw [if_neg htrimmed]
    rcases hstop with ⟨front, back, htext, hlength, hend⟩
    -- The body stops at the tag itself, so the tag is at the start of its line.
    have hwhole : (rest ++ r.place.lead.reverse ++ r.place.before).reverse ++
        ('{' :: '{' :: (r.place.ahead ++ r.place.trail ++ r.place.beyond)) = r.place.toText := by
      simp only [Cursor.toText, Cursor.behind, hread, List.reverse_append, List.reverse_cons,
        List.append_assoc, List.cons_append, List.nil_append]
    have hfront := (append_inj_of_byteLength (hwhole.trans htext) (by
      rw [hlength, tagStart_eq h.delimiters hread, byteLength_reverse])).1
    rw [← hfront, List.getLast?_reverse] at hend
    rcases h.read_of_lineEnd hcomment hread hend with ⟨rfl, hlead⟩
    refine ⟨hread, ?_⟩
    rw [hstart, hlead, Cursor.lineStart]
    simp only [byteLength, Nat.zero_add]

/-- A reader of a text that is cut off later on is regular if the reader of the
    longer text is. -/
theorem IsRegular.of_extend {back : List Char} (h : (r.extend back).IsRegular) : r.IsRegular where
  delimiters := h.delimiters
  onLine :=
    { starts := h.onLine.starts
      isLine := h.onLine.isLine
      isClosed := fun hline hbeyond =>
        h.onLine.isClosed hline (List.append_ne_nil_of_left_ne_nil hbeyond back)
      trimmed := h.onLine.trimmed }
  agrees := h.agrees

/-- Where a line ends between two tags, the lines that are left are read as they are on
    their own. -/
theorem run_of_lineEnd {tokens : List Token} {offset : Nat} (h : r.IsRegular)
    (hmode : r.mode = .text []) (hahead : r.place.ahead = [])
    (hrun : r.run = ⟨tokens, .endOfText offset⟩) :
    ∃ offset', (ofText r.place.beyond).run.recode id
      (· + byteLength (r.place.line.reverse ++ r.place.before)) = ⟨tokens, .endOfText offset'⟩ := by
  rcases r with ⟨mode, place⟩
  dsimp only at hmode hahead ⊢
  subst hmode
  -- There may be no line left, and then there is nothing to read on either side.
  by_cases hbeyond : place.beyond = []
  · rw [run_of_none (Cursor.next?_of_nil hahead hbeyond), Mode.finish, Stream.mk.injEq] at hrun
    have htokens : tokens = [] := hrun.1.symm
    have hempty : (ofText []).run = ⟨[], .endOfText 0⟩ := run_of_none rfl
    rw [hbeyond, htokens, hempty]
    exact ⟨_, rfl⟩
  · have hbehind := Cursor.line_of_ahead_nil hahead
    have hstarts : StartsLine (place.line.reverse ++ place.before) := by
      rw [← hbehind]
      exact h.onLine.startsLine hahead hbeyond
    have hunder : ((ofText place.beyond).under (place.line.reverse ++ place.before)).run =
        (ofText place.beyond).run.recode id (· + byteLength (place.line.reverse ++ place.before)) :=
      run_under hstarts (Nat.zero_le _)
    refine ⟨offset, ?_⟩
    rw [← hunder, ← hrun, run_eq_under hahead hbehind rfl hbeyond h.delimiters]
    rfl

/-- The part of a text between a tag at the end of a line and a tag at the start
    of a later one is read on its own as it is read there. -/
theorem run_body {opened : Reader} {tokens : List Token} {body back : List Char}
    (h : r.IsRegular) (hkeeps : r.KeepsDelimiters) (hmode : r.mode = .text [])
    (hahead : r.place.ahead = []) (hbeyond : r.place.beyond = body ++ back)
    (hpath : r.Path tokens opened) (hopens : opened.OpensTag)
    (hread : opened.place.read = ['{', '{'])
    (hline : opened.place.lineStart = byteLength (r.place.line.reverse ++ r.place.before ++ body)) :
    ∃ offset, (ofText body).run.recode id
      (· + byteLength (r.place.line.reverse ++ r.place.before)) = ⟨tokens, .endOfText offset⟩ := by
  rcases r with ⟨mode, place⟩
  dsimp only at hmode hahead hbeyond hline ⊢
  have hback : back ≠ [] := by
    intro hnil
    -- The delimiter of the closing tag was read, so something comes behind the body.
    have hpos := Cursor.pos_le (toText_of_path hpath)
    have hsize := Char.utf8Size_pos '{'
    have hwhole := congrArg byteLength place.toText_eq_line
    rw [hbeyond, hnil, List.append_nil] at hwhole
    rw [Cursor.pos, Cursor.behind, hread] at hpos
    rw [Cursor.lineStart] at hline
    simp only [List.cons_append, List.nil_append, byteLength, byteLength_append,
      byteLength_reverse] at hpos hline hwhole
    omega
  -- The reader of the text that is cut off before the tag.
  have hextend : (Reader.mk (.text []) { place with beyond := body }).extend back =
      ⟨mode, place⟩ := by
    rw [hmode, extend, Cursor.extend]
    dsimp only
    rw [← hbeyond]
  have htext : byteLength (Cursor.toText { place with beyond := body }) =
      byteLength (place.line.reverse ++ place.before ++ body) := by
    rw [Cursor.toText_eq_line]
    simp only [byteLength_append, byteLength_reverse, Cursor.line]
    omega
  rw [← hextend] at h hkeeps hpath
  rcases run_of_extend h hkeeps hpath hopens.1 hread hback (by rw [hline, htext]) with
    ⟨offset, hrun⟩
  exact run_of_lineEnd h.of_extend rfl hahead hrun

/-- The readers around the body of a section. The first one stands after the
    opening tag, the second one in the closing tag, right after its opening
    delimiter, and the tag ends at the third place. The tokens stand between the
    tags. -/
structure Surrounds (r opened : Reader) (closed : Cursor) (tokens : List Token) : Prop where
  regular : r.IsRegular
  keeps : r.KeepsDelimiters
  mode : r.mode = .text []
  read : r.place.read.head? = some '}'
  path : r.Path tokens opened
  opens : opened.OpensTag
  line : opened.place.SameLine closed ∨ opened.place.lineEnd ≤ closed.lineStart
  closedOnLine : closed.OnLine
  closedText : closed.toText = r.place.toText

/-- The tokens of the two tags of a section tell where its body lies. -/
theorem exists_surrounds {text : List Char} {front middle back : List Token} {kind : Opening}
    {name name' : String} {start stop offset : Nat} {delimiters : Delimiters}
    (hkeeps : (ofText text).KeepsDelimiters)
    (hrun : (ofText text).run.tokens =
      front ++ .opening kind name start delimiters ::
        (middle ++ .closing name' stop offset :: back)) :
    ∃ r opened closed, Surrounds r opened closed middle ∧ r.place.toText = text ∧
      start = r.place.bodyStart ∧ delimiters = .standard ∧
      stop = closed.bodyEnd opened.place.tagStart := by
  rcases exists_path_of_tokens hrun nofun with
    ⟨before, tag, first, r, hbefore, hopening, htag, hrest⟩
  rcases exists_path_of_tokens hrest nofun with
    ⟨inside, tag', start', closed, hinside, hclosing, htag', _⟩
  have hbeforeKeeps := hkeeps.of_path hbefore
  have hbeforeRegular := (isRegular_ofText text).path hkeeps hbefore
  have hrKeeps := hbeforeKeeps.of_moves hopening
  have hrRegular := hbeforeRegular.moves hbeforeKeeps hopening
  have hinsideKeeps := hrKeeps.of_path hinside
  have hinsideRegular := hrRegular.path hrKeeps hinside
  rcases hbeforeRegular.of_ends hbeforeKeeps hopening with ⟨_, hmode, hread⟩
  rcases hinsideRegular.of_ends hinsideKeeps hclosing with ⟨hinTag, _, _⟩
  rcases Tag.of_tokensFrom_opening htag with ⟨hstart, hdelimiters⟩
  -- On the way between the tags, the closing tag was opened, since no tag is open after
  -- the opening one.
  rcases exists_path_of_inTag hrRegular hrKeeps hinside hinTag with
    ⟨_, hnone⟩ | ⟨opened, hopened, hopens, htagStart, htoEnd⟩
  · rw [hmode] at hnone
    simp only [Mode.start?, reduceCtorEq] at hnone
  · have hopenedKeeps := hrKeeps.of_path hopened
    have hline := sameLine_of_path hopenedKeeps (htoEnd.trans (.of_moves hclosing))
    have hclosed := hinsideRegular.moves hinsideKeeps hclosing
    have hclosedText := toText_of_path (hinside.trans (.of_moves hclosing))
    refine ⟨r, opened, closed.place, ⟨hrRegular, hrKeeps, hmode, hread, hopened, hopens, hline,
      hclosed.onLine, hclosedText⟩, ?_, hstart, hdelimiters.trans hrRegular.delimiters, ?_⟩
    · have htext := toText_of_path (hbefore.trans (.of_moves hopening))
      rw [htext, ofText, Cursor.toText_ofText]
    · rw [htagStart]
      exact Tag.of_tokensFrom_closing htag'

section

variable {opened : Reader} {closed : Cursor} {tokens : List Token}

/-- The brace that was read last belongs to the opening tag, so the closing tag
    is on another line when the line of the opening tag is read to its end. -/
theorem Surrounds.lineEnd_le (h : Surrounds r opened closed tokens) (hahead : r.place.ahead = []) :
    r.place.lineEnd ≤ opened.place.lineStart := by
  rcases sameLine_of_path h.keeps h.path with hsame | hend
  · rcases hsame.read with ⟨more, hread, hnil⟩
    rw [hahead] at hnil
    have hmore := (List.append_eq_nil_iff.mp hnil.symm).1
    rw [List.reverse_eq_nil_iff] at hmore
    rcases h.opens.2 with ⟨rest, hbraces⟩
    have hlast := h.read
    rw [hmore, List.nil_append, hbraces] at hread
    rw [← hread, List.head?_cons, Option.some.injEq] at hlast
    exact absurd hlast (by decide)
  · exact hend

/-- A body never stops before the line of its closing tag. -/
theorem Surrounds.lineStart_le_bodyEnd (h : Surrounds r opened closed tokens) :
    opened.place.lineStart ≤ closed.bodyEnd opened.place.tagStart := by
  have hdelimiters := (h.regular.path h.keeps h.path).delimiters
  rcases h.opens.2 with ⟨rest, hread⟩
  rw [Cursor.bodyEnd]
  split
  case isTrue =>
    rcases h.line with hsame | hend
    · rw [hsame.lineStart]
    · rw [Cursor.lineEnd_eq] at hend
      omega
  case isFalse =>
    rw [tagStart_eq hdelimiters hread, Cursor.lineStart]
    simp only [byteLength_append]
    omega

/-- When the opening tag is the last one of a line that is trimmed to its tags, and
    the closing tag the first one of such a line, the body starts and stops where a
    line starts. -/
theorem Surrounds.lineStartsAt (h : Surrounds r opened closed tokens) (hahead : r.place.ahead = [])
    (hstart : opened.place.tagStart = closed.textStart) :
    LineStartsAt r.place.toText r.place.bodyStart ∧
      LineStartsAt r.place.toText
        (max r.place.bodyStart (closed.bodyEnd opened.place.tagStart)) := by
  have hend := h.lineEnd_le hahead
  have hline : r.place.line ≠ [] := by
    intro hnil
    have hread := h.read
    rw [Cursor.line, List.append_eq_nil_iff, List.append_eq_nil_iff, List.append_eq_nil_iff,
      List.reverse_eq_nil_iff] at hnil
    rw [hnil.1.2.1] at hread
    simp only [List.head?_nil, reduceCtorEq] at hread
  have hpositive : 0 < byteLength r.place.line :=
    Nat.pos_of_ne_zero fun hzero => hline (byteLength_eq_zero hzero)
  have hlineEnd := Cursor.lineEnd_eq r.place
  -- The closing tag is on a later line.
  have hbeyond : r.place.beyond ≠ [] := by
    intro hnil
    have htext := congrArg byteLength r.place.toText_eq_line
    have hlast := Cursor.pos_le (toText_of_path h.path)
    rcases h.opens.2 with ⟨rest, hread⟩
    have hsize := Char.utf8Size_pos '{'
    rw [hnil, List.append_nil] at htext
    rw [Cursor.pos, Cursor.behind, hread] at hlast
    rw [Cursor.lineStart] at hend hlineEnd
    simp only [List.cons_append, byteLength, byteLength_append, byteLength_reverse] at htext hlast
    omega
  have hbodyStart : r.place.bodyStart = r.place.lineEnd := by
    rw [Cursor.bodyStart, hahead, List.isEmpty_nil, if_pos rfl, Cursor.lineEnd, hahead,
      List.nil_append]
  refine ⟨h.regular.onLine.lineStartsAt_bodyStart hahead hline hbeyond, ?_⟩
  rw [hbodyStart, Nat.max_eq_right (hend.trans h.lineStart_le_bodyEnd), ← h.closedText]
  refine h.closedOnLine.lineStartsAt_bodyEnd hstart ?_
  intro hnil
  -- The closing tag would be on the first line of the text.
  have hclosed : closed.lineStart = 0 := by rw [Cursor.lineStart, hnil, byteLength]
  rcases h.line with hsame | hlater
  · rw [hsame.lineStart] at hclosed
    omega
  · rw [Cursor.lineEnd_eq] at hlater
    omega

/-- A body of whole lines is read on its own as it is read between its tags. -/
theorem Surrounds.run_eq {front body back : List Char} (h : Surrounds r opened closed tokens)
    (htext : r.place.toText = front ++ body ++ back) (hstart : byteLength front = r.place.bodyStart)
    (hstop : byteLength (front ++ body) =
      max r.place.bodyStart (closed.bodyEnd opened.place.tagStart))
    (hfront : front.getLast? = some '\n') (hbody : (front ++ body).getLast? = some '\n') :
    ∃ offset, (ofText body).run.recode id (· + byteLength front) = ⟨tokens, .endOfText offset⟩ := by
  have hopened := h.regular.path h.keeps h.path
  have hahead : r.place.ahead = [] := by
    refine ahead_nil_of_lineStartsAt h.read ⟨front, body ++ back, ?_, hstart, hfront⟩
    rw [htext, List.append_assoc]
  have hbehind := Cursor.line_of_ahead_nil hahead
  have hend : r.place.lineEnd = byteLength front := by
    rw [hstart, Cursor.bodyStart, hahead, List.isEmpty_nil, if_pos rfl, Cursor.lineEnd, hahead,
      List.nil_append]
  -- Up to the body, there are the lines up to the one with the opening tag.
  have hsplit : front = (r.place.line.reverse ++ r.place.before).reverse ∧
      body ++ back = r.place.beyond := by
    have hwhole : front ++ (body ++ back) =
        (r.place.line.reverse ++ r.place.before).reverse ++ r.place.beyond := by
      rw [← List.append_assoc, ← htext, Cursor.toText_eq_line, List.reverse_append,
        List.reverse_reverse]
    refine append_inj_of_byteLength hwhole ?_
    rw [← hend, Cursor.lineEnd_eq, Cursor.lineStart]
    simp only [byteLength_reverse, byteLength_append]
    omega
  have hlater := h.lineEnd_le hahead
  have hle := h.lineStart_le_bodyEnd
  have hlength : byteLength (front ++ body) = closed.bodyEnd opened.place.tagStart := by
    rw [hstop, ← hstart, ← hend]
    exact Nat.max_eq_right (hlater.trans hle)
  -- So the closing tag is the first one of its line, and the body is all that is
  -- between.
  have hlast : LineStartsAt opened.place.toText (closed.bodyEnd opened.place.tagStart) :=
    ⟨front ++ body, back, (toText_of_path h.path).trans htext, hlength, hbody⟩
  rcases hopened.read_of_bodyEnd h.opens h.line hlast with ⟨hread, hlineStart⟩
  have hlines : byteLength (r.place.line.reverse ++ r.place.before) = byteLength front := by
    rw [hsplit.1, byteLength_reverse]
  have hline : opened.place.lineStart =
      byteLength (r.place.line.reverse ++ r.place.before ++ body) := by
    rw [← hlineStart, ← hlength, byteLength_append, byteLength_append, hlines]
  have hrun := run_body h.regular h.keeps h.mode hahead hsplit.2.symm h.path h.opens hread hline
  rwa [hlines] at hrun

end

end Reader

namespace Template

/-- A section between standalone lines. Its opening tag is the last one of a line
    that is trimmed to its tags, so nothing of the line is left to read after it,
    and its closing tag starts where the trimmed text of such a line does. -/
def StandsBetweenLines (source : String) (head : SectionHead) : Prop :=
  ∃ front middle r opened closed, (Reader.ofText source.toList).Path front r ∧
    Reader.Surrounds r opened closed middle ∧
    head.span = ⟨r.place.bodyStart,
      max r.place.bodyStart (closed.bodyEnd opened.place.tagStart)⟩ ∧
    r.place.ahead = [] ∧ opened.place.tagStart = closed.textStart

/-- The body of a section between standalone lines is made of whole lines. -/
theorem StandsBetweenLines.lineStartsAt {source : String} {head : SectionHead}
    (h : StandsBetweenLines source head) :
    LineStartsAt source.toList head.span.start ∧ LineStartsAt source.toList head.span.stop := by
  rcases h with ⟨_, _, r, opened, closed, hpath, hsurrounds, hspan, hahead, hstart⟩
  have htext : r.place.toText = source.toList := by
    rw [Reader.toText_of_path hpath, Reader.ofText, Cursor.toText_ofText]
  rw [hspan, ← htext]
  exact hsurrounds.lineStartsAt hahead hstart

section

variable {source : String} {options : Options} {template : Template} {head : SectionHead}
  {children : List Segment}

/-- A body of whole lines has the tokens that stand between the tags of its
    section. -/
theorem exists_run_body (hcompile : compile source options = .ok template)
    (hkeeps : KeepsDelimiters source)
    (hmem : (head, children) ∈ Segment.sectionsAll template.segments)
    (hstart : LineStartsAt source.toList head.span.start)
    (hstop : LineStartsAt source.toList head.span.stop) :
    ∃ before behind tokens stop, before ++ head.body.toList ++ behind = source.toList ∧
      byteLength before = head.span.start ∧ head.delimiters = .standard ∧
      (Reader.ofText head.body.toList).run.recode id (· + byteLength before) =
        ⟨tokens, .endOfText stop⟩ ∧
      Nesting.empty.run source.toList options tokens = .ok ⟨[], children⟩ := by
  rcases run_of_compile hcompile with ⟨tokens, offset, hrun, hnesting⟩
  rcases Nesting.encloses_of_run hnesting _ hmem with
    ⟨front, middle, back, stop, last, htokens, hspan, hcut, hmiddle⟩
  dsimp only at hspan hcut hmiddle
  have hstream : (Reader.ofText source.toList).run.tokens =
      front ++ .opening .sect head.name head.span.start head.delimiters ::
        (middle ++ .closing head.name stop last :: back) := by
    rw [hrun, htokens, List.append_assoc, List.cons_append]
  rcases Reader.exists_surrounds hkeeps hstream with
    ⟨r, opened, closed, hsurrounds, htext, hbodyStart, hdelimiters, hbodyEnd⟩
  rcases Span.slice?_eq_some_iff.mp hcut with ⟨before, behind, hwhole, hbefore, hbody⟩
  rcases hstart with ⟨before', _, hwhole', hbefore', hfirst⟩
  rcases hstop with ⟨long, _, hlong, hlongLength, hlast⟩
  -- The source is cut in one way at a given offset, so the lines start at the cuts.
  have hsource : before ++ (head.body.toList ++ behind) = source.toList := by
    rw [← hwhole, List.append_assoc]
  have hbeforeEq :=
    (append_inj_of_byteLength (hsource.trans hwhole') (hbefore.trans hbefore'.symm)).1
  have hlongEq := (append_inj_of_byteLength (hwhole.trans hlong) (hbody.trans hlongLength.symm)).1
  rw [← hbeforeEq] at hfirst
  rw [← hlongEq] at hlast
  rcases hsurrounds.run_eq (htext.trans hwhole.symm) (hbefore.trans hbodyStart)
    (by rw [hbody, hspan, hbodyStart, hbodyEnd]) hfirst hlast with ⟨endOffset, hbodyRun⟩
  exact ⟨before, behind, middle, endOffset, hwhole, hbefore, hdelimiters, hbodyRun, hmiddle⟩

/-- A body that has the tokens of some segments compiles to these segments, with
    the spans counted from the start of the body. -/
theorem compile_of_run_body {before behind : List Char} {body : String} {tokens : List Token}
    {stop : Nat} (hwhole : before ++ body.toList ++ behind = source.toList)
    (hrun : (Reader.ofText body.toList).run.recode id (· + byteLength before) =
      ⟨tokens, .endOfText stop⟩)
    (htokens : Nesting.empty.run source.toList options tokens = .ok ⟨[], children⟩) :
    ∃ inner, compile body options = .ok inner ∧
      children = Segment.shiftAll (byteLength before) inner.segments := by
  have hempty : Nesting.empty.recode id (· + byteLength before) = .empty := rfl
  have hassemble := Stream.assemble_recode options (recodes_shift before body.toList behind) .empty
    (Reader.ofText body.toList).run nofun fun token hmem => Reader.isWithin_of_mem_run hmem
  -- The tokens between the tags stand for the children.
  have hchildren : (Stream.mk tokens (.endOfText stop)).assemble source.toList options .empty =
      .ok children := by
    rw [Stream.assemble, htokens]
    rfl
  rw [hrun, hempty, hwhole, hchildren] at hassemble
  rw [compile_eq_assemble, stream_eq_run]
  cases hinner : (Reader.ofText body.toList).run.assemble body.toList options .empty with
  | error error =>
      rw [hinner] at hassemble
      simp only [reduceCtorEq] at hassemble
  | ok segments =>
      rw [hinner] at hassemble
      refine ⟨⟨segments⟩, rfl, ?_⟩
      rw [Except.ok.inj hassemble]
      rfl

/-- A callable of a section that was opened with the standard delimiters has its
    text compiled as a source of its own. -/
theorem sectionScript_of_standard (h : head.delimiters = .standard) (text : String) :
    sectionScript head text = compile text := by
  rw [sectionScript, if_pos h]

/-- The body of a section between standalone lines stands for its children. -/
theorem compile_body_of_standsBetweenLines (hcompile : compile source options = .ok template)
    (hkeeps : KeepsDelimiters source)
    (hmem : (head, children) ∈ Segment.sectionsAll template.segments)
    (hlines : StandsBetweenLines source head) :
    ∃ inner, compile head.body options = .ok inner ∧
      children = Segment.shiftAll head.span.start inner.segments ∧
      sectionScript head head.body = compile head.body := by
  rcases hlines.lineStartsAt with ⟨hstart, hstop⟩
  rcases exists_run_body hcompile hkeeps hmem hstart hstop with
    ⟨before, behind, tokens, stop, hwhole, hbefore, hdelimiters, hrun, htokens⟩
  rcases compile_of_run_body hwhole hrun htokens with ⟨inner, hinner, hchildren⟩
  exact ⟨inner, hinner, hbefore ▸ hchildren, sectionScript_of_standard hdelimiters head.body⟩

end

/-- The body of a section stands for its children. When the body of a section is
    made of whole lines, compiling the body for itself gives the children, with
    the spans of the sections inside of them counted from the start of the body.
    So a callable that returns the body it is given has it rendered as the
    children would be.

    A body is made of whole lines when it starts and stops where a line starts. It
    does so when the section stands between standalone lines
    (`StandsBetweenLines.lineStartsAt`), and also when the closing tag is the first
    one of any line and no blanks stand before it. -/
theorem compile_body {source : String} {options : Options} {template : Template}
    (hcompile : compile source options = .ok template) (hkeeps : KeepsDelimiters source)
    {head : SectionHead} {children : List Segment}
    (hmem : (head, children) ∈ Segment.sectionsAll template.segments)
    (hstart : LineStartsAt source.toList head.span.start)
    (hstop : LineStartsAt source.toList head.span.stop) :
    ∃ inner, compile head.body options = .ok inner ∧
      children = Segment.shiftAll head.span.start inner.segments ∧
      sectionScript head head.body = compile head.body := by
  rcases exists_run_body hcompile hkeeps hmem hstart hstop with
    ⟨before, behind, tokens, stop, hwhole, hbefore, hdelimiters, hrun, htokens⟩
  rcases compile_of_run_body hwhole hrun htokens with ⟨inner, hinner, hchildren⟩
  exact ⟨inner, hinner, hbefore ▸ hchildren, sectionScript_of_standard hdelimiters head.body⟩

/-- A section that is made of another one, both of them between standalone
    lines. -/
theorem compile_body_nested :
    compile "\x7b\x7b#a\x7d\x7d\n\x7b\x7b#b\x7d\x7d\ny\n\x7b\x7b/b\x7d\x7d\n \x7b\x7b/a\x7d\x7d\n" =
        .ok ⟨[.sect ⟨"a", false, .standard, ⟨7, 23⟩, "\x7b\x7b#b\x7d\x7d\ny\n\x7b\x7b/b\x7d\x7d\n"⟩
          [.sect ⟨"b", false, .standard, ⟨14, 16⟩, "y\n"⟩ [.text "y\n"]]]⟩ ∧
      ∃ inner, compile "\x7b\x7b#b\x7d\x7d\ny\n\x7b\x7b/b\x7d\x7d\n" = .ok inner ∧
        [Segment.sect ⟨"b", false, .standard, ⟨14, 16⟩, "y\n"⟩ [.text "y\n"]] =
          Segment.shiftAll 7 inner.segments := by
  have hcompile : compile
      "\x7b\x7b#a\x7d\x7d\n\x7b\x7b#b\x7d\x7d\ny\n\x7b\x7b/b\x7d\x7d\n \x7b\x7b/a\x7d\x7d\n" =
        .ok ⟨[.sect ⟨"a", false, .standard, ⟨7, 23⟩, "\x7b\x7b#b\x7d\x7d\ny\n\x7b\x7b/b\x7d\x7d\n"⟩
        [.sect ⟨"b", false, .standard, ⟨14, 16⟩, "y\n"⟩ [.text "y\n"]]]⟩ := by
    with_unfolding_all rfl
  have hkeeps : KeepsDelimiters
      "\x7b\x7b#a\x7d\x7d\n\x7b\x7b#b\x7d\x7d\ny\n\x7b\x7b/b\x7d\x7d\n \x7b\x7b/a\x7d\x7d\n" :=
    Reader.keepsDelimiters_of_not_mem (by decide)
  rcases compile_body hcompile hkeeps List.mem_cons_self
      ⟨"\x7b\x7b#a\x7d\x7d\n".toList,
        "\x7b\x7b#b\x7d\x7d\ny\n\x7b\x7b/b\x7d\x7d\n \x7b\x7b/a\x7d\x7d\n".toList, rfl, rfl, rfl⟩
      ⟨"\x7b\x7b#a\x7d\x7d\n\x7b\x7b#b\x7d\x7d\ny\n\x7b\x7b/b\x7d\x7d\n".toList,
        " \x7b\x7b/a\x7d\x7d\n".toList, rfl, rfl, rfl⟩ with ⟨inner, hinner, hchildren, _⟩
  exact ⟨hcompile, inner, hinner, hchildren⟩

end Template

end Mustache
