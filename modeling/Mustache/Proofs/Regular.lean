import Mustache.Proofs.Lines
import Mustache.Proofs.Reader

/-!
# Reading Between Braces

What holds at every place of a text whose tags are all enclosed by double
braces. Lines are taken by looking for comments character by character, without
regard to the tags, and tags are read without regard to the lines. The two views
agree where it matters: between two tags no comment is open, so the next line
end ends the line. An opening delimiter is read from a single line, because no
line ends with a brace that could begin one.

## Main definitions

* `Mode.Agrees`: What reading is in the middle of fits the line.
* `Reader.IsRegular`: The delimiters are double braces, and the two views agree.
* `Cursor.SameLine`: A later place on a line.
* `Reader.OpensTag`: A place right after an opening delimiter.

## Theorems

* `Reader.IsRegular.moves`: Reading goes from regular places to regular ones.
* `Reader.IsRegular.read_of_opens`: An opening delimiter is read from one line.
* `Reader.sameLine_of_path`: Reading never comes back to a line.
* `Reader.exists_path_of_inTag`: Where the tag that is being read was opened.
* `Reader.IsRegular.not_inComment_of_path`: The last line of a text that can be
  read to its end leaves no comment open.
-/

namespace Mustache

open Text

/-- An opening delimiter was read if the last two characters are braces. -/
theorem justRead_opening {behind : List Char} :
    justRead Delimiters.standard.opening behind = true ↔
      ∃ rest, behind = '{' :: '{' :: rest := by
  rw [justRead, List.isPrefixOf_iff_prefix]
  constructor
  · rintro ⟨rest, rfl⟩
    exact ⟨rest, rfl⟩
  · rintro ⟨rest, rfl⟩
    exact ⟨rest, rfl⟩

/-- A comment was opened if an exclamation mark followed them. -/
theorem justRead_comment {behind : List Char} :
    justRead (Delimiters.standard.opening ++ ['!']) behind = true ↔
      ∃ rest, behind = '!' :: '{' :: '{' :: rest := by
  rw [justRead, List.isPrefixOf_iff_prefix]
  constructor
  · rintro ⟨rest, rfl⟩
    exact ⟨rest, rfl⟩
  · rintro ⟨rest, rfl⟩
    exact ⟨rest, rfl⟩

/-- A closing delimiter was read if the last two are the other braces. -/
theorem justRead_closing {behind : List Char} :
    justRead Delimiters.standard.closing behind = true ↔
      ∃ rest, behind = '}' :: '}' :: rest := by
  rw [justRead, List.isPrefixOf_iff_prefix]
  constructor
  · rintro ⟨rest, rfl⟩
    exact ⟨rest, rfl⟩
  · rintro ⟨rest, rfl⟩
    exact ⟨rest, rfl⟩

/-- Whatever the sigil, a tag ends with two braces. -/
theorem justRead_word {sigil : Char} {behind : List Char}
    (h : justRead (Delimiters.standard.word sigil) behind = true) :
    ∃ rest, behind = '}' :: '}' :: rest := by
  unfold Delimiters.word at h
  split at h
  case isTrue =>
    rw [justRead, List.isPrefixOf_iff_prefix] at h
    rcases h with ⟨rest, rfl⟩
    exact ⟨'}' :: rest, rfl⟩
  case isFalse =>
    split at h
    case isTrue =>
      rw [justRead, List.isPrefixOf_iff_prefix] at h
      rcases h with ⟨rest, rfl⟩
      exact ⟨'=' :: rest, rfl⟩
    case isFalse => exact justRead_closing.mp h

/-- What reading is in the middle of fits the line of the cursor. Between two
    tags no comment is open. What was read of a text or a tag ends with the
    character that was read last. -/
def Mode.Agrees (c : Cursor) : Mode → Prop
  | text buffer =>
    c.inComment = false ∧ justRead c.delimiters.opening c.behind = false ∧
      (buffer.head? = c.read.head? ∨ buffer = [] ∧ c.read.head? = some '}')
  | opened _ => c.inComment = false
  | content _ _ buffer => buffer = [] ∨ buffer.head? = c.read.head?

namespace Reader

/-- The delimiters are double braces, and lines and tags fit together. -/
structure IsRegular (r : Reader) : Prop where
  delimiters : r.place.delimiters = .standard
  onLine : r.place.OnLine
  agrees : r.mode.Agrees r.place

theorem isRegular_ofText (text : List Char) : (ofText text).IsRegular where
  delimiters := rfl
  onLine := Cursor.onLine_ofText .standard text
  agrees := ⟨rfl, rfl, Or.inl rfl⟩

variable {r next last : Reader} {event : Event} {ch : Char} {tokens : List Token}

/-- No comment opens in the middle of a text, since an opening delimiter that
    was read is part of a tag. -/
theorem IsRegular.inComment_text {buffer : List Char} {after : Cursor} (h : r.IsRegular)
    (hmode : r.mode = .text buffer) (hnext : r.place.next? = some (ch, after)) :
    after.inComment = false := by
  have hagrees := h.agrees
  rw [hmode] at hagrees
  rcases hagrees with ⟨hcomment, hopening, _⟩
  rw [h.onLine.inComment_next hnext, hcomment, Bool.and_false, commentNow, Bool.false_or]
  by_cases hjust : justRead (r.place.delimiters.opening ++ ['!']) after.behind = true
  · rw [h.delimiters, justRead_comment] at hjust
    rcases hjust with ⟨rest, hrest⟩
    -- The braces before the exclamation mark would have been read as a delimiter, and
    -- there are none among the blanks that trimming took away.
    rcases h.onLine.behind_next hnext with ⟨behind, hbehind, hcases⟩
    rw [hbehind, List.cons.injEq] at hrest
    rcases hcases with ⟨_, rfl⟩ | ⟨_, hblank⟩
    · have hread : justRead r.place.delimiters.opening r.place.behind = true := by
        rw [h.delimiters, justRead_opening]
        exact ⟨rest, hrest.2⟩
      rw [hread] at hopening
      exact absurd hopening.symm Bool.false_ne_true
    · have hbrace := hblank '{' (by rw [hrest.2]; rfl)
      exact absurd hbrace (by decide)
  · rw [Bool.not_eq_true] at hjust
    rw [hjust, Bool.false_and]

/-- The brace before the one that opens a tag was read from the same line. -/
theorem IsRegular.head?_of_opens {buffer : List Char} (h : r.IsRegular)
    (hmode : r.mode = .text buffer) (hbuffer : buffer.head? = some '{') :
    r.place.read.head? = some '{' := by
  have hagrees := h.agrees
  rw [hmode] at hagrees
  rcases hagrees.2.2 with heq | ⟨rfl, _⟩
  · rw [← heq, hbuffer]
  · simp only [List.head?_nil, reduceCtorEq] at hbuffer

/-- A line ends with a line end or, once it is trimmed, with a closing
    delimiter. -/
theorem IsRegular.read_ne (h : r.IsRegular) (hahead : r.place.ahead = [])
    (hstarts : StartsLine (r.place.trail.reverse ++ r.place.behind)) :
    r.place.read.head? ≠ some '{' := by
  intro hread
  by_cases htrail : r.place.trail = []
  · have hhead : '{' ∈ r.place.behind.head? := by
      rw [Cursor.behind, List.append_assoc, List.head?_append, hread]
      rfl
    rw [htrail, List.reverse_nil, List.nil_append] at hstarts
    exact absurd (hstarts '{' hhead) (by decide)
  · -- Something was trimmed, so the last thing on the line is a tag.
    have hlast := h.onLine.head?_read hahead htrail
    rw [hread, h.delimiters] at hlast
    exact absurd hlast (by decide)

theorem IsRegular.ahead_ne_nil (h : r.IsRegular) (hread : r.place.read.head? = some '{')
    (hbeyond : r.place.beyond ≠ []) : r.place.ahead ≠ [] := by
  intro hahead
  exact h.read_ne hahead (h.onLine.startsLine hahead hbeyond) hread

/-- A text that ends with a line end does not end within an opening
    delimiter. -/
theorem IsRegular.not_mem_opening_of_end {buffer : List Char} (h : r.IsRegular)
    (hmode : r.mode = .text buffer) (hend : r.place.ahead = [] ∧ r.place.beyond = [])
    (htext : StartsLine r.place.toText.reverse) :
    ∀ first ∈ buffer.head?, first ∉ Delimiters.standard.opening := by
  intro first hfirst hmem
  have hbrace : first = '{' := by
    simp only [Delimiters.standard, List.mem_cons, List.not_mem_nil, or_false, or_self] at hmem
    exact hmem
  rw [hbrace] at hfirst
  -- At the end of the text all of it is behind the cursor.
  have hbehind : r.place.toText.reverse = r.place.trail.reverse ++ r.place.behind := by
    rw [Cursor.toText, hend.1, hend.2, List.append_nil, List.append_nil, List.reverse_append,
      List.reverse_reverse]
  rw [hbehind] at htext
  exact h.read_ne hend.1 htext (h.head?_of_opens hmode hfirst)

/-- An opening delimiter is read from one line. -/
theorem IsRegular.read_of_opens {buffer : List Char} {after : Cursor} (h : r.IsRegular)
    (hmode : r.mode = .text buffer) (hnext : r.place.next? = some (ch, after))
    (hjust : justRead after.delimiters.opening (ch :: buffer) = true) :
    ∃ rest, after.read = '{' :: '{' :: rest := by
  rw [Cursor.delimiters_next? hnext, h.delimiters, justRead_opening] at hjust
  rcases hjust with ⟨rest, hrest⟩
  rw [List.cons.injEq] at hrest
  have hread := h.head?_of_opens hmode (by rw [hrest.2]; rfl)
  rcases Cursor.next?_cases hnext with ⟨_, hafter⟩ | ⟨hnil, hbeyond, _⟩
  · cases hlist : r.place.read with
    | nil =>
        rw [hlist] at hread
        simp only [List.head?_nil, reduceCtorEq] at hread
    | cons first more =>
        rw [hlist, List.head?_cons, Option.some.injEq] at hread
        refine ⟨more, ?_⟩
        rw [hafter, hlist, hread, hrest.1]
  · exact absurd hnil (h.ahead_ne_nil hread hbeyond)

/-- The character is the one that was read last on its line. -/
theorem head?_read_next {c after : Cursor} (hnext : c.next? = some (ch, after)) :
    after.read.head? = some ch := by
  rcases Cursor.next?_cases hnext with ⟨_, hafter⟩ | ⟨_, _, _, hafter⟩
  · rw [hafter]
    rfl
  · rw [hafter]
    rfl

/-- After a text character there is no opening delimiter, since it would have
    been read. -/
theorem IsRegular.opening_text {buffer : List Char} {after : Cursor} (h : r.IsRegular)
    (hmode : r.mode = .text buffer) (hnext : r.place.next? = some (ch, after))
    (hjust : justRead after.delimiters.opening (ch :: buffer) = false) :
    justRead after.delimiters.opening after.behind = false := by
  rw [Cursor.delimiters_next? hnext, h.delimiters] at hjust ⊢
  rw [Bool.eq_false_iff] at hjust ⊢
  intro hbehind
  rcases justRead_opening.mp hbehind with ⟨rest, hrest⟩
  rcases h.onLine.behind_next hnext with ⟨behind, hcons, hcases⟩
  rw [hcons, List.cons.injEq] at hrest
  rcases hcases with ⟨_, rfl⟩ | ⟨_, hblank⟩
  · have hread := h.onLine.head?_read_of_behind (by rw [hrest.2]; rfl) isBlank_openingBrace
    have hagrees := h.agrees
    rw [hmode] at hagrees
    rcases hagrees.2.2 with heq | ⟨_, hclosing⟩
    · -- The brace before it was read as text, and now the delimiter is complete.
      rw [hread] at heq
      cases buffer with
      | nil => simp only [List.head?_nil, reduceCtorEq] at heq
      | cons first buffer =>
          rw [List.head?_cons, Option.some.injEq] at heq
          exact hjust (justRead_opening.mpr ⟨buffer, by rw [heq, hrest.1]⟩)
    · rw [hread] at hclosing
      exact absurd hclosing (by decide)
  · -- Before the first character of a line there are only blanks or the end of another
    -- line.
    have hbrace := hblank '{' (by rw [hrest.2]; rfl)
    exact absurd hbrace (by decide)

/-- A tag ends with two braces in a row, which close a comment as well. -/
theorem IsRegular.inComment_ends {start : Nat} {sigil : Char} {buffer : List Char} {after : Cursor}
    (h : r.IsRegular) (hmode : r.mode = .content start sigil buffer)
    (hnext : r.place.next? = some (ch, after))
    (hjust : justRead (after.delimiters.word sigil) (ch :: buffer) = true) :
    after.inComment = false ∧ ch = '}' := by
  rw [Cursor.delimiters_next? hnext, h.delimiters] at hjust
  rcases justRead_word hjust with ⟨rest, hrest⟩
  rw [List.cons.injEq] at hrest
  rcases hrest with ⟨rfl, hbuffer⟩
  refine ⟨?_, rfl⟩
  rw [h.onLine.inComment_next hnext, h.delimiters]
  rcases h.onLine.behind_next hnext with ⟨behind, hcons, hcases⟩
  -- The character is a brace, so no comment is opened by it.
  have hmark : justRead (Delimiters.standard.opening ++ ['!']) after.behind = false := by
    rw [Bool.eq_false_iff]
    intro hcomment
    rcases justRead_comment.mp hcomment with ⟨more, hmore⟩
    rw [hcons, List.cons.injEq] at hmore
    exact absurd hmore.1 (by decide)
  rcases hcases with ⟨_, rfl⟩ | ⟨hahead, _⟩
  · -- The brace before it was read from the same line.
    have hagrees := h.agrees
    rw [hmode] at hagrees
    have hread : r.place.read.head? = some '}' := by
      rcases hagrees with hnil | heq
      · rw [hbuffer] at hnil
        exact absurd hnil (List.cons_ne_nil _ _)
      · rw [← heq, hbuffer, List.head?_cons]
    cases hlist : r.place.read with
    | nil =>
        rw [hlist] at hread
        simp only [List.head?_nil, reduceCtorEq] at hread
    | cons first more =>
        rw [hlist, List.head?_cons, Option.some.injEq] at hread
        have hclosing : justRead Delimiters.standard.closing after.behind = true := by
          refine justRead_closing.mpr ⟨more ++ r.place.lead.reverse ++ r.place.before, ?_⟩
          rw [hcons, Cursor.behind, hlist, hread]
          rfl
        rw [commentNow, hclosing, Bool.not_true, Bool.and_false]
  · rw [hahead, List.isEmpty_nil, Bool.not_true, Bool.false_and, commentNow, hmark, Bool.or_false,
      Bool.false_and]

/-- Reading goes from regular places to regular ones, as long as the delimiters
    stay. -/
theorem IsRegular.steps (h : r.IsRegular) (hnext : r.place.next? = some (ch, next.place))
    (hsteps : r.mode.Steps ch next.place event next) : next.IsRegular := by
  rcases r with ⟨mode, place⟩
  rcases next with ⟨mode', after⟩
  dsimp only at hnext hsteps
  have hdelimiters : after.delimiters = .standard := by
    rw [Cursor.delimiters_next? hnext, h.delimiters]
  refine ⟨hdelimiters, h.onLine.next hnext, ?_⟩
  have hread := head?_read_next hnext
  -- One case for each kind of step.
  cases hsteps with
  | text hjust =>
      exact ⟨h.inComment_text rfl hnext, h.opening_text rfl hnext hjust, Or.inl hread.symm⟩
  | opens hjust => exact h.inComment_text rfl hnext
  | blank hblank =>
      have hcomment : place.inComment = false := h.agrees
      rcases h.onLine.behind_next hnext with ⟨behind, hcons, _⟩
      rw [Mode.Agrees, h.onLine.inComment_next hnext, hcomment, Bool.and_false, hcons]
      exact commentNow_blank hblank
  | sigil hblank hmem => exact Or.inl rfl
  | kept hblank hmem hjust => exact Or.inr hread.symm
  | content hjust => exact Or.inr hread.symm
  | ends hjust hcomplete =>
      rcases h.inComment_ends rfl hnext hjust with ⟨hcomment, rfl⟩
      refine ⟨hcomment, ?_, Or.inr ⟨rfl, hread⟩⟩
      rcases h.onLine.behind_next hnext with ⟨behind, hcons, _⟩
      rw [hdelimiters, Bool.eq_false_iff]
      intro hopening
      rcases justRead_opening.mp hopening with ⟨rest, hrest⟩
      rw [hcons, List.cons.injEq] at hrest
      exact absurd hrest.1 (by decide)

/-- So do moves, which leave the delimiters alone. -/
theorem IsRegular.moves (h : r.IsRegular) (hkeeps : r.KeepsDelimiters)
    (hmoves : r.Moves event next) : next.IsRegular := by
  rcases hkeeps.steps hmoves with ⟨ch, hnext, hsteps⟩
  exact h.steps hnext hsteps

/-- So do paths, move by move. -/
theorem IsRegular.path (h : r.IsRegular) (hkeeps : r.KeepsDelimiters)
    (hpath : r.Path tokens last) : last.IsRegular := by
  induction hpath with
  | refl r => exact h
  | step hmoves _ ih => exact ih (h.moves hkeeps hmoves) (hkeeps.of_moves hmoves)

end Reader

namespace Cursor

variable {c after later last : Cursor} {ch : Char}

/-- The byte offset at which the current line ends. -/
def lineEnd (c : Cursor) : Nat :=
  c.pos + byteLength (c.ahead ++ c.trail)

/-- Nothing is left to read only at the end of the text. -/
theorem nil_of_next? (h : c.next? = none) : c.ahead = [] ∧ c.beyond = [] := by
  unfold next? at h
  split at h
  case h_2 => simp only [reduceCtorEq] at h
  case h_1 hahead =>
    by_cases hnil : c.ahead = []
    · refine ⟨hnil, ?_⟩
      by_contra hbeyond
      rw [atLine_of_nil hnil hbeyond] at hahead
      exact ahead_nextLine_ne_nil hbeyond hahead
    · rw [atLine_of_ne_nil hnil] at hahead
      exact absurd hahead hnil

/-- Some more of the same line was read at the later place. -/
structure SameLine (c later : Cursor) : Prop where
  before : later.before = c.before
  lead : later.lead = c.lead
  trail : later.trail = c.trail
  beyond : later.beyond = c.beyond
  read : ∃ more, later.read = more ++ c.read ∧ c.ahead = more.reverse ++ later.ahead

theorem SameLine.refl (c : Cursor) : c.SameLine c :=
  ⟨rfl, rfl, rfl, rfl, [], rfl, rfl⟩

theorem SameLine.trans (h : c.SameLine later) (h' : later.SameLine last) : c.SameLine last := by
  rcases h.read with ⟨more, hread, hahead⟩
  rcases h'.read with ⟨more', hread', hahead'⟩
  refine ⟨h'.before.trans h.before, h'.lead.trans h.lead, h'.trail.trans h.trail,
    h'.beyond.trans h.beyond, more' ++ more, ?_, ?_⟩
  · rw [hread', hread, List.append_assoc]
  · rw [hahead, hahead', List.reverse_append, List.append_assoc]

/-- The line is one and the same, wherever the cursor stands on it. -/
theorem SameLine.line (h : c.SameLine later) : later.line = c.line := by
  rcases h.read with ⟨more, hread, hahead⟩
  rw [Cursor.line, Cursor.line, h.lead, h.trail, hread, hahead, List.reverse_append,
    List.append_assoc c.read.reverse]

theorem lineEnd_eq (c : Cursor) : c.lineEnd = c.lineStart + byteLength c.line := by
  rw [lineEnd, pos, lineStart, behind, line]
  simp only [byteLength_append, byteLength_reverse]
  omega

theorem SameLine.lineStart (h : c.SameLine later) : later.lineStart = c.lineStart := by
  rw [Cursor.lineStart, h.before, Cursor.lineStart]

theorem SameLine.lineEnd (h : c.SameLine later) : later.lineEnd = c.lineEnd := by
  rw [lineEnd_eq, lineEnd_eq, h.line, h.lineStart]

/-- A character is read from the current line or, where that ends, from the next
    one, which starts there. -/
theorem sameLine_of_next? (h : c.next? = some (ch, after)) :
    (c.ahead ≠ [] ∧ c.SameLine after) ∨
      (c.ahead = [] ∧ c.beyond ≠ [] ∧ after.lineStart = c.lineEnd) := by
  rcases next?_cases h with ⟨hahead, hafter⟩ | ⟨hnil, hbeyond, _, hafter⟩
  · left
    refine ⟨by rw [hahead]; exact List.cons_ne_nil _ _, ?_⟩
    rw [hafter]
    refine ⟨rfl, rfl, rfl, rfl, [ch], rfl, ?_⟩
    rw [hahead]
    rfl
  · right
    refine ⟨hnil, hbeyond, ?_⟩
    rw [hafter, Cursor.lineStart, Cursor.lineEnd, hnil, pos]
    simp only [Cursor.nextLine, byteLength_append, byteLength_reverse, List.nil_append]
    omega

/-- Reading a character takes its bytes at least, and more where something was
    trimmed. -/
theorem add_pos_le_of_next? (h : c.next? = some (ch, after)) :
    ch.utf8Size + c.pos ≤ after.pos := by
  rcases next?_cases h with ⟨_, hafter⟩ | ⟨_, _, _, hafter⟩
  · rw [hafter]
    simp only [pos, behind, List.cons_append, byteLength]
    omega
  · rw [hafter]
    simp only [pos, behind, nextLine, List.cons_append, List.nil_append, byteLength_append,
      byteLength]
    omega

/-- So it leads further on. -/
theorem pos_lt_of_next? (h : c.next? = some (ch, after)) : c.pos < after.pos := by
  have hsize := ch.utf8Size_pos
  have hpos := add_pos_le_of_next? h
  omega

end Cursor

namespace Reader

variable {r next last : Reader} {event : Event} {tokens : List Token}

/-- Reading never comes back to a line. -/
theorem sameLine_of_path (hkeeps : r.KeepsDelimiters) (hpath : r.Path tokens last) :
    r.place.SameLine last.place ∨ r.place.lineEnd ≤ last.place.lineStart := by
  induction hpath with
  | refl r => exact Or.inl (Cursor.SameLine.refl _)
  | @step r next last event tokens hmoves hpath ih =>
      rcases hkeeps.steps hmoves with ⟨ch, hnext, _⟩
      have hlater := ih (hkeeps.of_moves hmoves)
      -- The first step stays on the line or leads to the next one, and the rest of the
      -- path goes on from there.
      rcases Cursor.sameLine_of_next? hnext with ⟨_, hsame⟩ | ⟨_, _, hstart⟩
      · rcases hlater with hsame' | hend
        · exact Or.inl (hsame.trans hsame')
        · rw [hsame.lineEnd] at hend
          exact Or.inr hend
      · have hline := Cursor.lineEnd_eq next.place
        rcases hlater with hsame' | hend
        · right
          rw [hsame'.lineStart, hstart]
        · right
          omega

/-- No path leads back. -/
theorem pos_le_of_path (hkeeps : r.KeepsDelimiters) (hpath : r.Path tokens last) :
    r.place.pos ≤ last.place.pos := by
  induction hpath with
  | refl r => exact Nat.le_refl _
  | step hmoves _ ih =>
      rcases hkeeps.steps hmoves with ⟨ch, hnext, _⟩
      exact (Nat.le_of_lt (Cursor.pos_lt_of_next? hnext)).trans (ih (hkeeps.of_moves hmoves))

/-- The last line of a text that can be read to its end leaves no comment
    open. -/
theorem IsRegular.not_inComment_of_path {buffer : List Char} (h : r.IsRegular)
    (hkeeps : r.KeepsDelimiters) (hpath : r.Path tokens last) (hmode : last.mode = .text buffer)
    (hend : last.place.next? = none) (hbeyond : r.place.beyond = []) :
    commentAfter r.place.delimiters false r.place.before r.place.line = false := by
  -- Without another line, the place at the end is on the same line.
  have hsame : r.place.SameLine last.place := by
    clear hend hmode h
    induction hpath with
    | refl r => exact Cursor.SameLine.refl _
    | step hmoves _ ih =>
        rcases hkeeps.steps hmoves with ⟨ch, hnext, _⟩
        rcases Cursor.sameLine_of_next? hnext with ⟨_, hsame⟩ | ⟨_, hne, _⟩
        · exact hsame.trans (ih (hkeeps.of_moves hmoves) (by rw [hsame.beyond, hbeyond]))
        · exact absurd hbeyond hne
  have hlast := h.path hkeeps hpath
  have hagrees := hlast.agrees
  rw [hmode] at hagrees
  have hcomment : last.place.inComment = false := hagrees.1
  rw [← hsame.line, ← hsame.before, h.delimiters, ← hlast.delimiters, Cursor.line,
    (Cursor.nil_of_next? hend).1, List.append_nil, commentAfter_append,
    commentAfter_blank hlast.onLine.all_isBlank.2]
  exact hcomment

end Reader

/-- Where the tag starts that reading is in the middle of. -/
def Mode.start? : Mode → Option Nat
  | text _ => none
  | opened start => some start
  | content start _ _ => some start

namespace Reader

variable {r next last : Reader} {event : Event} {tokens : List Token}

/-- An opening delimiter was just read. -/
def OpensTag (r : Reader) : Prop :=
  r.mode = .opened r.place.tagStart ∧ ∃ rest, r.place.read = '{' :: '{' :: rest

/-- A tag that is being read was opened at a place that reading came to, and no
    token was made since. -/
theorem exists_path_of_inTag {start : Nat} (h : r.IsRegular) (hkeeps : r.KeepsDelimiters)
    (hpath : r.Path tokens last) (hstart : last.mode.start? = some start) :
    (tokens = [] ∧ r.mode.start? = some start) ∨
      ∃ opened, r.Path tokens opened ∧ opened.OpensTag ∧ opened.place.tagStart = start ∧
        opened.Path [] last := by
  induction hpath with
  | refl r => exact Or.inl ⟨rfl, hstart⟩
  | @step r next last event tokens hmoves hpath ih =>
      rcases ih (h.moves hkeeps hmoves) (hkeeps.of_moves hmoves) hstart with
        ⟨rfl, hnext⟩ | ⟨opened, hpath', hopened⟩
      · rcases hkeeps.steps hmoves with ⟨ch, hread, hsteps⟩
        have hfirst := Path.of_moves hmoves
        rw [List.append_nil]
        rcases r with ⟨mode, place⟩
        rcases next with ⟨mode', after⟩
        dsimp only at hread hsteps hnext
        -- Either the tag was opened by the first step, or it was open before, or a
        -- token was made.
        cases hsteps with
        | text | ends => simp only [Mode.start?, reduceCtorEq] at hnext
        | opens hjust =>
            rw [Mode.start?, Option.some.injEq] at hnext
            exact Or.inr ⟨_, hfirst, ⟨rfl, h.read_of_opens rfl hread hjust⟩, hnext, hpath⟩
        | blank | sigil | kept | content => exact Or.inl ⟨rfl, hnext⟩
      · exact Or.inr ⟨opened, .step hmoves hpath', hopened⟩

end Reader

end Mustache
