import Mustache.Proofs.Offence
import Mustache.Proofs.Recognition
import Mustache.Proofs.Taking

/-!
# Comments and Line Ends

Where a comment ends is found out twice. A line is taken by looking for an opening
delimiter with an exclamation mark right after it, and from there on for the next
closing delimiter, since a line end in between does not end the line. A tag reader
passes over blanks before it takes the mark, and looks for the closing delimiter from
there on.

A comment without line ends stays on its line in any case. A comment that has line
ends stays on it if the line was taken with the delimiters in force, the mark comes
right after the opening delimiter, and no closing delimiter ends or stands over the
mark. A comment that stays on its line, with nothing but blanks around it, leaves
nothing of the line.

## Main definitions

* `Cursor.Crosses`: A later place, behind the end of the line.
* `Cursor.Follows`: A later place.
* `Cursor.OpensComment`: A comment opens at the mark ahead, where lines are taken.

## Theorems

* `Cursor.cut?_of_sameLine`: A word that is read on one line stands first on it.
* `Cursor.tag_comment`: How a comment is read.
* `Cursor.sameLine_of_not_mem`: A comment without line ends stays on its line.
* `Cursor.sameLine_of_opensComment`: So does one that opens where lines are taken.
* `Cursor.eq_nil_of_comment`: A comment with blanks around it is trimmed.
* `Reader.comment_within_line`: What is left of the line of a comment.
-/

namespace Mustache

open Text

section

variable {d : Delimiters} {word text front back rest more behind : List Char} {ch : Char}

/-- Up to the last character of the word, it is found nowhere. -/
theorem cut?_first (h : cut? word text = some (front, rest))
    (hmore : front ++ word = more ++ [ch]) : cut? word more = none := by
  cases hcut : cut? word more with
  | none => rfl
  | some found =>
      -- It would have been found there before.
      have htext : text = found.1 ++ word ++ (found.2 ++ ch :: rest) := by
        rw [eq_of_cut? h, hmore, eq_of_cut? hcut]
        simp only [List.append_assoc, List.singleton_append]
      rw [htext] at h
      have hle := length_le_of_cut? h
      have hlength := congrArg List.length hmore
      rw [eq_of_cut? hcut] at hlength
      simp only [List.length_append, List.length_singleton] at hlength
      omega

/-- A comment that does not stay open is closed somewhere. -/
theorem exists_closing (h : commentAfter d true behind text = false) :
    ∃ front back, text = front ++ back ∧ justRead d.closing (front.reverse ++ behind) = true := by
  induction text generalizing behind with
  | nil => simp only [commentAfter, Bool.true_eq_false] at h
  | cons ch text ih =>
      by_cases hjust : justRead d.closing (ch :: behind) = true
      · exact ⟨[ch], text, rfl, hjust⟩
      · rw [Bool.not_eq_true] at hjust
        rw [commentAfter, commentNow, hjust, Bool.true_or, Bool.true_and, Bool.not_false] at h
        -- The comment stays open after this character, so it is closed in the rest.
        rcases ih h with ⟨front, back, rfl, hclosing⟩
        refine ⟨ch :: front, back, rfl, ?_⟩
        rwa [List.reverse_cons, List.append_assoc, List.singleton_append]

/-- A comment is a silent tag. The scan for such tags finds its end, unless a closing
    delimiter begins with the mark. -/
theorem isSilentContent_comment {blanks : List Char} (hblanks : blanks.all isBlank = true)
    (hcut : cut? d.closing text = some (front, rest)) (hmark : ¬ d.closing <+: '!' :: text) :
    d.IsSilentContent (blanks ++ '!' :: front ++ d.closing) := by
  have hnot : ∀ before after, blanks = before ++ after → after ≠ [] →
      ¬ d.closing <+: after ++ '!' :: text := by
    rintro before after rfl hafter hclosing
    cases after with
    | nil => exact hafter rfl
    | cons blank after =>
        have hblank := List.all_eq_true.mp hblanks blank
          (List.mem_append_right _ List.mem_cons_self)
        have hbegins : d.closing <+: [] ++ blank :: (after ++ '!' :: text) := hclosing
        -- A closing delimiter holds no blank, so it would be empty.
        have hnil := prefix_of_not_mem (d.not_mem_closing hblank) hbegins
        exact d.closing_ne_nil (List.prefix_nil.mp hnil)
  have hfound := cut?_append_of_not_begins hnot
  rw [cut?_cons_of_not_begins hmark, hcut, Option.map_some, Option.map_some] at hfound
  exact isSilentContent_of_cut? ⟨blanks, '!', text, rfl, hblanks, by decide⟩ hfound

end

namespace Cursor

variable {c middle later after : Cursor} {ch : Char} {word buffer : List Char}

/-- The later place is behind the end of the line. All that was left of the line was
    passed on the way, and something after it. -/
def Crosses (c later : Cursor) : Prop :=
  c.beyond ≠ [] ∧ ∃ text, text ≠ [] ∧
    later.behind = text ++ ((c.ahead ++ c.trail).reverse ++ c.behind)

/-- The later place is on the same line or behind its end. -/
def Follows (c later : Cursor) : Prop :=
  c.SameLine later ∨ c.Crosses later

/-- What lies behind the later place of a line, and was ahead of the earlier
    one. -/
theorem SameLine.behind (h : c.SameLine later) :
    ∃ more, later.behind = more ++ c.behind ∧ c.ahead = more.reverse ++ later.ahead := by
  rcases h.read with ⟨more, hread, hahead⟩
  refine ⟨more, ?_, hahead⟩
  rw [Cursor.behind, Cursor.behind, hread, h.lead, h.before]
  simp only [List.append_assoc]

/-- More was passed than was left of the line. -/
theorem Crosses.not_sameLine (h : c.Crosses later) : ¬ c.SameLine later := by
  intro hsame
  rcases h with ⟨_, text, htext, hbehind⟩
  rcases hsame.behind with ⟨more, hmore, hahead⟩
  -- On the same line, no more than what was ahead can be passed.
  have hpos := List.length_pos_iff.mpr htext
  have hlength := congrArg List.length (hbehind.symm.trans hmore)
  rw [hahead] at hlength
  simp only [List.length_append, List.length_reverse] at hlength
  omega

/-- What lies behind a later place begins with what lies behind the earlier one,
    if it is read backwards. -/
theorem Follows.behind (h : c.Follows later) : ∃ text, later.behind = text ++ c.behind := by
  rcases h with hsame | ⟨_, text, _, hbehind⟩
  · rcases hsame.behind with ⟨more, hmore, _⟩
    exact ⟨more, hmore⟩
  · exact ⟨text ++ (c.ahead ++ c.trail).reverse, by rw [hbehind, List.append_assoc]⟩

theorem Crosses.follows (h : c.Crosses middle) (h' : middle.Follows later) : c.Crosses later := by
  rcases h with ⟨hbeyond, text, htext, hbehind⟩
  rcases h'.behind with ⟨more, hmore⟩
  refine ⟨hbeyond, more ++ text, List.append_ne_nil_of_right_ne_nil _ htext, ?_⟩
  rw [hmore, hbehind, List.append_assoc]

/-- A place behind the end of the line is there seen from any place of the line. -/
theorem SameLine.crosses (h : c.SameLine middle) (h' : middle.Crosses later) : c.Crosses later := by
  rcases h' with ⟨hbeyond, text, htext, hbehind⟩
  rcases h.behind with ⟨more, hmore, hahead⟩
  refine ⟨h.beyond ▸ hbeyond, text, htext, ?_⟩
  rw [hbehind, hmore, h.trail, hahead]
  simp only [List.reverse_append, List.reverse_reverse, List.append_assoc]

theorem Follows.trans (h : c.Follows middle) (h' : middle.Follows later) : c.Follows later := by
  rcases h with hsame | hcrosses
  · exact Or.imp hsame.trans hsame.crosses h'
  · exact Or.inr (hcrosses.follows h')

/-- What lies between two places of a line lies on that line. -/
theorem Follows.sameLine (h : c.Follows middle) (h' : middle.Follows later)
    (hsame : c.SameLine later) : c.SameLine middle ∧ middle.SameLine later := by
  rcases h with hfirst | hcrosses
  · rcases h' with hsecond | hcrosses
    · exact ⟨hfirst, hsecond⟩
    · exact absurd hsame (hfirst.crosses hcrosses).not_sameLine
  · exact absurd hsame (hcrosses.follows h').not_sameLine

/-- The place after the next character. Either the character was ahead on the
    line, or the line was read to its end. -/
theorem follows_of_next? (h : c.next? = some (ch, after)) :
    (c.SameLine after ∧ c.ahead = ch :: after.ahead) ∨ c.Crosses after := by
  rcases next?_cases h with ⟨hahead, hafter⟩ | ⟨hnil, hbeyond, _, hafter⟩
  · left
    rw [hafter]
    exact ⟨⟨rfl, rfl, rfl, rfl, [ch], rfl, hahead⟩, hahead⟩
  · right
    refine ⟨hbeyond, ch :: c.nextLine.lead.reverse, List.cons_ne_nil _ _, ?_⟩
    rw [hafter, hnil]
    simp only [Cursor.behind, nextLine, List.nil_append, List.cons_append, List.append_assoc]

theorem next?_follows (h : c.next? = some (ch, after)) : c.Follows after :=
  Or.imp_left And.left (follows_of_next? h)

theorem follows_readFrom (word buffer : List Char) (c : Cursor) :
    c.Follows (readFrom word buffer c).rest := by
  fun_induction readFrom word buffer c with
  | case1 buffer c h => exact Or.inl (SameLine.refl c)
  | case2 buffer c ch after h hword => exact next?_follows h
  | case3 buffer c ch after h hword ih => exact (next?_follows h).trans ih

theorem follows_skipBlanks (c : Cursor) : c.Follows c.skipBlanks := by
  fun_induction skipBlanks c with
  | case1 c h => exact Or.inl (SameLine.refl c)
  | case2 c ch after h hblank ih => exact (next?_follows h).trans ih
  | case3 c ch after h hblank => exact Or.inl (SameLine.refl c)

/-- The blanks that are passed over on the line are ahead on it. -/
theorem ahead_of_skipBlanks (h : c.SameLine c.skipBlanks) :
    ∃ blanks, c.ahead = blanks ++ c.skipBlanks.ahead ∧ blanks.all isBlank = true := by
  -- The blanks are collected along the scan. Every step of it stays on the line.
  fun_induction skipBlanks c with
  | case1 c h => exact ⟨[], rfl, rfl⟩
  | case2 c ch after hnext hblank ih =>
      rcases (next?_follows hnext).sameLine (follows_skipBlanks after) h with ⟨hfirst, hrest⟩
      rcases follows_of_next? hnext with ⟨_, hahead⟩ | hcrosses
      · rcases ih hrest with ⟨blanks, hblanks, hall⟩
        refine ⟨ch :: blanks, ?_, ?_⟩
        · rw [hahead, hblanks, List.cons_append]
        · rw [List.all_cons, hblank, hall, Bool.true_and]
      · exact absurd hfirst hcrosses.not_sameLine
  | case3 c ch after h hblank => exact ⟨[], rfl, rfl⟩

/-- What is read on the line ends with the word. -/
theorem ahead_of_readFrom (hfound : (readFrom word buffer c).found = true)
    (h : c.SameLine (readFrom word buffer c).rest) :
    ∃ taken, c.ahead = taken ++ (readFrom word buffer c).rest.ahead ∧
      justRead word (taken.reverse ++ buffer) = true := by
  fun_induction readFrom word buffer c with
  | case1 buffer c h => simp only [Bool.false_eq_true] at hfound
  | case2 buffer c ch after hnext hword =>
      rcases follows_of_next? hnext with ⟨_, hahead⟩ | hcrosses
      · exact ⟨[ch], hahead, hword⟩
      · exact absurd h hcrosses.not_sameLine
  | case3 buffer c ch after hnext hword ih =>
      rcases (next?_follows hnext).sameLine (follows_readFrom word (ch :: buffer) after) h with
        ⟨hfirst, hrest⟩
      rcases follows_of_next? hnext with ⟨_, hahead⟩ | hcrosses
      · rcases ih hfound hrest with ⟨taken, htaken, hjust⟩
        refine ⟨ch :: taken, ?_, ?_⟩
        · rw [hahead, htaken, List.cons_append]
        · rwa [List.reverse_cons, List.append_assoc, List.singleton_append]
      · exact absurd hfirst hcrosses.not_sameLine

/-- A word that stands on the rest of the line is read there. -/
theorem sameLine_of_cut? {found : List Char × List Char} (hword : word ≠ [])
    (h : cut? word c.ahead = some found) :
    c.SameLine (c.readUntil word).rest ∧ (c.readUntil word).rest.ahead = found.2 := by
  have hsplit := eq_of_cut? h
  rw [readUntil_ahead hsplit hword fun more ch hmore => cut?_first h hmore]
  refine ⟨⟨rfl, rfl, rfl, rfl, (found.1 ++ word).reverse, rfl, ?_⟩, rfl⟩
  rw [hsplit, List.reverse_reverse]

/-- A word that is read on the rest of the line stands there first. -/
theorem cut?_of_sameLine (hword : word ≠ []) (hfound : (c.readUntil word).found = true)
    (h : c.SameLine (c.readUntil word).rest) :
    ∃ front, cut? word c.ahead = some (front, (c.readUntil word).rest.ahead) := by
  rcases ahead_of_readFrom hfound h with ⟨taken, hahead, hjust⟩
  cases hcut : cut? word c.ahead with
  | some found => exact ⟨found.1, by rw [(sameLine_of_cut? hword hcut).2]⟩
  | none =>
      -- What was read on the line ends with the word, so the word does stand there.
      exfalso
      rw [List.append_nil, justRead, List.isPrefixOf_iff_prefix, List.reverse_prefix] at hjust
      rcases hjust with ⟨front, rfl⟩
      rw [hahead] at hcut
      exact Window.cut?_ne_none _ _ _ hcut

theorem delimiters_skipBlanks (c : Cursor) : c.skipBlanks.delimiters = c.delimiters := by
  fun_induction skipBlanks c with
  | case1 c h => rfl
  | case2 c ch after h hblank ih => rw [ih, delimiters_next? h]
  | case3 c ch after h hblank => rfl

/-- A comment that is read ends right behind the next closing delimiter. -/
theorem commentTag_eq_ok {tag : Tag} (h : c.commentTag = .ok (tag, after)) :
    (c.readUntil c.delimiters.closing).found = true ∧
      after = (c.readUntil c.delimiters.closing).rest := by
  unfold commentTag at h
  dsimp only at h
  split at h
  case isTrue hfound =>
    rw [Except.ok.injEq, Prod.mk.injEq] at h
    exact ⟨hfound, h.2.symm⟩
  case isFalse => simp only [reduceCtorEq] at h

/-- A tag with other delimiters is no comment. -/
theorem delimitersTag_ne_comment : c.delimitersTag ≠ .ok (.single .comment, after) := by
  intro h
  unfold delimitersTag at h
  split at h
  case h_1 => simp only [reduceCtorEq] at h
  case h_2 =>
    split at h
    case h_1 => simp only [reduceCtorEq] at h
    case h_2 =>
      simp only [Except.ok.injEq, Prod.mk.injEq, Tag.single.injEq, reduceCtorEq, false_and] at h

/-- A comment is read from its mark up to the next closing delimiter. -/
theorem tag_comment (h : c.tag = .ok (.single .comment, after)) :
    ∃ inner, c.skipBlanks.next? = some ('!', inner) ∧
      (inner.readUntil c.delimiters.closing).found = true ∧
      after = (inner.readUntil c.delimiters.closing).rest := by
  unfold Cursor.tag at h
  dsimp only at h
  -- The sigil decides which tag it is, and only the mark makes a comment.
  split at h
  case h_1 => simp only [reduceCtorEq] at h
  case h_2 sigil inner hnext =>
    split at h
    case h_2 =>
      have hread := commentTag_eq_ok h
      rw [delimiters_next? hnext, delimiters_skipBlanks] at hread
      exact ⟨inner, hnext, hread⟩
    case h_3 => exact absurd h delimitersTag_ne_comment
    -- The other tags are no comments.
    all_goals
      rcases contentTag_eq_ok h with ⟨_, _, htag⟩
      simp only [Tag.single.injEq, reduceCtorEq] at htag

theorem follows_comment (h : c.tag = .ok (.single .comment, after)) : c.Follows after := by
  rcases tag_comment h with ⟨inner, hnext, _, rfl⟩
  exact (follows_skipBlanks c).trans ((next?_follows hnext).trans (follows_readFrom _ [] inner))

/-- A tag without line ends stays on its line. The line goes on right before it, since
    it starts with a delimiter. -/
theorem sameLine_of_not_mem {old : List Char} (hline : c.IsOnLine) (hread : c.read = ch :: old)
    (hch : isBlank ch = false) (h : c.Follows after)
    (hpassed : ∀ passed, after.behind = passed ++ c.behind → '\n' ∉ passed) : c.SameLine after := by
  rcases h with hsame | ⟨hbeyond, text, _, hbehind⟩
  · exact hsame
  · -- The line end is passed with the rest of the line.
    refine absurd ?_ (hpassed (text ++ (c.ahead ++ c.trail).reverse)
      (by rw [hbehind, List.append_assoc]))
    have hsplit : c.line = c.lead ++ old.reverse ++ [ch] ++ (c.ahead ++ c.trail) := by
      rw [line, hread, List.reverse_cons]
      simp only [List.append_assoc]
    have hlast := hline.ends (by
      rw [hsplit]
      exact List.append_ne_nil_of_left_ne_nil
        (List.append_ne_nil_of_right_ne_nil _ (List.cons_ne_nil _ _)) _) hbeyond
    rw [hsplit] at hlast
    by_cases hrest : c.ahead ++ c.trail = []
    · rw [hrest, List.append_nil, List.getLast?_concat, Option.some.injEq] at hlast
      rw [hlast] at hch
      exact absurd hch (by decide)
    · rw [List.getLast?_append_of_ne_nil _ hrest] at hlast
      exact List.mem_append_right _ (List.mem_reverse.mpr (List.mem_of_getLast? hlast))

/-- An opening delimiter that was just passed was read from one line. -/
theorem IsOnLine.read_of_justRead (h : c.IsOnLine)
    (hopening : justRead c.delimiters.opening c.behind = true) :
    ∃ gap, c.read = c.delimiters.opening.reverse ++ gap := by
  have hstarts : ∀ first ∈ (c.lead.reverse ++ c.before).head?, first ∉ c.delimiters.opening :=
    fun first hfirst => c.delimiters.not_mem_opening (isBlank_of_head? h.lead h.starts first hfirst)
  rw [Cursor.behind, List.append_assoc, justRead_append hstarts, justRead,
    List.isPrefixOf_iff_prefix] at hopening
  rcases hopening with ⟨gap, hgap⟩
  exact ⟨gap, hgap.symm⟩

/-- Where lines are taken, a comment opens at the mark ahead. The opening delimiter
    stands right before the mark, and no closing delimiter stands over the mark or
    ends with it. -/
def OpensComment (c : Cursor) : Prop :=
  justRead c.delimiters.opening c.behind = true ∧ ∃ rest, c.ahead = '!' :: rest ∧
    ∀ front back, c.delimiters.closing = front ++ '!' :: back → justRead front c.behind = true →
      ¬ back <+: rest

/-- So the line is in a comment right after the mark, whether or not it was in
    one before. -/
theorem OpensComment.commentNow (h : c.OpensComment) (inComment : Bool) :
    commentNow c.delimiters inComment ('!' :: c.behind) = true := by
  rcases h with ⟨hopening, rest, _, hclear⟩
  have hopens : justRead (c.delimiters.opening ++ ['!']) ('!' :: c.behind) = true := by
    rw [justRead, List.reverse_append, List.reverse_singleton, List.singleton_append,
      List.isPrefixOf_cons_cons, beq_self_eq_true, Bool.true_and]
    exact hopening
  have hcloses : justRead c.delimiters.closing ('!' :: c.behind) = false := by
    rw [Bool.eq_false_iff, ne_eq, justRead, List.isPrefixOf_iff_prefix]
    intro hclosing
    -- A closing delimiter that ends with the mark has its first part right before it.
    rcases List.eq_nil_or_concat c.delimiters.closing with hnil | ⟨init, last, hconcat⟩
    · exact c.delimiters.closing_ne_nil hnil
    · rw [hconcat, List.concat_eq_append, List.reverse_append, List.reverse_singleton,
        List.singleton_append, List.cons_prefix_cons] at hclosing
      refine hclear init [] (by rw [hconcat, hclosing.1, List.concat_eq_append]) ?_ List.nil_prefix
      rw [justRead, List.isPrefixOf_iff_prefix]
      exact hclosing.2
  rw [Mustache.commentNow, hopens, hcloses, Bool.or_true, Bool.not_false, Bool.and_true]

/-- Such a comment is closed on the line. -/
theorem OpensComment.exists_cut? (h : c.OpensComment) (htrail : c.trail.all isBlank = true)
    (htaken : c.IsTaken) (hbeyond : c.beyond ≠ []) :
    ∃ rest found, c.ahead = '!' :: rest ∧ cut? c.delimiters.closing rest = some found := by
  have hopen := h.commentNow
  rcases h with ⟨_, rest, hahead, hclear⟩
  rcases htaken hbeyond with ⟨front, back, hbehind, hcomment⟩
  rw [commentAfter_append, commentAfter_blank htrail, commentAfter_append, List.reverse_reverse,
    ← hbehind, hahead, commentAfter, hopen] at hcomment
  -- The line was taken up to a place where no comment is open, so this one is closed on
  -- it.
  rcases exists_closing hcomment with ⟨text, more, rfl, hjust⟩
  refine ⟨text ++ more, ?_⟩
  cases hcut : cut? c.delimiters.closing (text ++ more) with
  | some found => exact ⟨found, hahead, rfl⟩
  | none =>
      exfalso
      have hnot : ¬ c.delimiters.closing <:+ text := by
        rintro ⟨init, hinit⟩
        rw [← hinit] at hcut
        exact Window.cut?_ne_none _ _ _ hcut
      rw [justRead, List.isPrefixOf_iff_prefix] at hjust
      -- The delimiter that closes it either starts behind the mark or reaches over it.
      rcases List.prefix_or_prefix_of_prefix hjust (List.prefix_append _ _) with hshort |
        ⟨tail, htail⟩
      · exact hnot (List.reverse_prefix.mp hshort)
      · rw [← htail, List.prefix_append_right_inj] at hjust
        have hclosing : c.delimiters.closing = tail.reverse ++ text := by
          rw [← List.reverse_reverse c.delimiters.closing, ← htail, List.reverse_append,
            List.reverse_reverse]
        cases tail with
        | nil => exact hnot ⟨[], hclosing⟩
        | cons mark tail =>
            -- The closing delimiter stands over the mark.
            rw [List.cons_prefix_cons] at hjust
            rw [hjust.1, List.reverse_cons, List.append_assoc, List.singleton_append] at hclosing
            refine hclear _ _ hclosing ?_ (List.prefix_append text more)
            rw [justRead, List.reverse_reverse, List.isPrefixOf_iff_prefix]
            exact hjust.2

/-- A comment stays on its line if it opens where lines are taken and the line was
    taken with the delimiters in force. -/
theorem sameLine_of_opensComment (h : c.OpensComment) (htrail : c.trail.all isBlank = true)
    (htaken : c.IsTaken) (htag : c.tag = .ok (.single .comment, after)) : c.SameLine after := by
  rcases follows_comment htag with hsame | hcrosses
  · exact hsame
  · rcases h.exists_cut? htrail htaken hcrosses.1 with ⟨rest, found, hahead, hcut⟩
    rcases tag_comment htag with ⟨inner, hnext, _, rfl⟩
    rw [skipBlanks_ahead hahead (by decide), next?_ahead hahead, Option.some.injEq,
      Prod.mk.injEq] at hnext
    rw [← hnext.2]
    have hinner : c.SameLine { c with read := '!' :: c.read, ahead := rest } :=
      ⟨rfl, rfl, rfl, rfl, ['!'], rfl, hahead⟩
    exact hinner.trans (sameLine_of_cut? c.delimiters.closing_ne_nil hcut).1

/-- What is ahead on the line of a comment that stays on it. -/
theorem ahead_of_comment (htag : c.tag = .ok (.single .comment, after)) (hsame : c.SameLine after) :
    ∃ blanks rest front, c.ahead = blanks ++ '!' :: rest ∧ blanks.all isBlank = true ∧
      c.skipBlanks.ahead = '!' :: rest ∧
      cut? c.delimiters.closing rest = some (front, after.ahead) := by
  rcases tag_comment htag with ⟨inner, hnext, hfound, rfl⟩
  have hreads := follows_readFrom c.delimiters.closing [] inner
  rcases (follows_skipBlanks c).sameLine ((next?_follows hnext).trans hreads) hsame with
    ⟨hskip, hskipped⟩
  rcases (next?_follows hnext).sameLine hreads hskipped with ⟨hinner, hrest⟩
  rcases ahead_of_skipBlanks hskip with ⟨blanks, hblanks, hall⟩
  rcases cut?_of_sameLine c.delimiters.closing_ne_nil hfound hrest with ⟨front, hcut⟩
  rcases follows_of_next? hnext with ⟨_, hahead⟩ | hcrosses
  · exact ⟨blanks, inner.ahead, front, by rw [hblanks, hahead], hall, hahead, hcut⟩
  · exact absurd hinner hcrosses.not_sameLine

/-- A comment that stays on its line, with nothing but blanks around it, leaves nothing
    of the line. -/
theorem eq_nil_of_comment {gap : List Char} (hfresh : c.IsFresh) (hline : c.IsOnLine)
    (htag : c.tag = .ok (.single .comment, after)) (hsame : c.SameLine after)
    (hmark : ¬ c.delimiters.closing <+: c.skipBlanks.ahead)
    (hread : c.read = c.delimiters.opening.reverse ++ gap) (hgap : gap.all isBlank = true)
    (hafter : after.ahead.all isBlank = true) : gap = [] ∧ after.ahead = [] := by
  rcases ahead_of_comment htag hsame with ⟨blanks, rest, front, hahead, hblanks, hskipped, hcut⟩
  rw [hskipped] at hmark
  have hsilent : c.delimiters.IsSilentTag
      (c.delimiters.opening ++ (blanks ++ '!' :: front ++ c.delimiters.closing)) :=
    ⟨_, rfl, isSilentContent_comment hblanks hcut hmark⟩
  have hlead : (c.lead ++ gap.reverse).all isBlank = true := by
    rw [List.all_append, hline.lead, List.all_reverse, hgap, Bool.and_self]
  have htrail : (after.ahead ++ c.trail).all isBlank = true := by
    rw [List.all_append, hafter, hline.trail, Bool.and_self]
  -- The line would be trimmed to the comment, and it is trimmed already.
  have htrimmed := Line.ofText_of_tags hlead htrail hsilent (List.forall_mem_nil _) (Or.inl rfl)
  have hsplit : c.lead ++ gap.reverse ++ (c.delimiters.opening ++ (blanks ++ '!' :: front ++
      c.delimiters.closing) ++ [].flatten) ++ (after.ahead ++ c.trail) = c.line := by
    rw [line, hread, hahead, eq_of_cut? hcut]
    simp only [List.reverse_append, List.reverse_reverse, List.append_assoc, List.flatten_nil,
      List.append_nil, List.cons_append]
  rw [hsplit, hfresh, Line.mk.injEq] at htrimmed
  rw [← List.reverse_eq_nil_iff]
  exact ⟨List.self_eq_append_right.mp htrimmed.1, List.self_eq_append_left.mp htrimmed.2.2⟩

end Cursor

namespace Reader

variable {r : Reader} {tokens : List Token} {before : List Char} {start : Nat}
    {place after : Cursor}

/-- An opening delimiter ends with the character that was read last. -/
theorem read_of_opens (hopens : r.Moves (.opens before) ⟨.opened start, place⟩) :
    ∃ ch old, place.read = ch :: old ∧ isBlank ch = false := by
  rcases r with ⟨mode, place'⟩
  rcases hopens with ⟨ch, next, hnext, hstep⟩
  cases Mode.steps_of_step hstep with
  | opens hjust =>
      rcases List.head?_eq_some_iff.mp (head?_read_next hnext) with ⟨old, hold⟩
      refine ⟨ch, old, hold, ?_⟩
      by_contra hblank
      rw [Bool.not_eq_false] at hblank
      rw [justRead_of_not_mem place.delimiters.opening_ne_nil
        (place.delimiters.not_mem_opening hblank)] at hjust
      exact Bool.false_ne_true hjust

/-- What is left of the line of a comment. A comment without line ends stays on the
    line on which it is opened, and so does any comment that opens where lines are
    taken, unless the line is outdated. Nothing else is read of the line if there are
    only blanks around the comment, unless it begins with a closing delimiter. -/
theorem comment_within_line {text : List Char} (hpath : (ofText text).Path tokens r)
    (hopens : r.Moves (.opens before) ⟨.opened start, place⟩)
    (htag : place.tag = .ok (.single .comment, after)) :
    (ofText text).run =
        (Reader.mk (.text []) after).run.prepend (tokens ++ textTokens before) ∧
      (justRead place.delimiters.opening place.behind = true →
        ∃ gap, place.read = place.delimiters.opening.reverse ++ gap) ∧
      ((∀ passed, after.behind = passed ++ place.behind → '\n' ∉ passed) → place.SameLine after) ∧
      (place.OpensComment → ¬ (ofText text).IsOutdated ⟨.opened start, place⟩ →
        place.SameLine after) ∧
      (place.SameLine after → ¬ place.delimiters.closing <+: place.skipBlanks.ahead →
        ∀ gap, place.read = place.delimiters.opening.reverse ++ gap → gap.all isBlank = true →
          after.ahead.all isBlank = true → gap = [] ∧ after.ahead = []) := by
  have hopened := hpath.trans (Path.of_moves hopens)
  have hline : place.IsOnLine := isOnLine_of_path hopened (Cursor.isOnLine_ofText .standard text)
  refine ⟨?_, hline.read_of_justRead, ?_, ?_, ?_⟩
  · rw [run_of_path hopened, Cursor.run_opened, htag, Cursor.streamAfter, Stream.prepend_prepend]
    simp only [Tag.tokensFrom, Event.tokens, List.append_nil]
  · rcases read_of_opens hopens with ⟨ch, old, hread, hch⟩
    exact Cursor.sameLine_of_not_mem hline hread hch (Cursor.follows_comment htag)
  · intro hcomment houtdated
    have htaken : place.IsTaken :=
      (isTaken_of_path hopened (Cursor.isTaken_ofText .standard text)).resolve_right houtdated
    exact Cursor.sameLine_of_opensComment hcomment hline.trail htaken htag
  · intro hsame hmark gap hread hgap hafter
    -- Only the delimiter itself and blanks were read of the line.
    have hblank : (place.read.drop place.delimiters.opening.length).all isBlank = true := by
      rw [hread, ← List.length_reverse, List.drop_left]
      exact hgap
    have hfresh := isFresh_of_opens ((tracksLine_ofText text).path hpath) hopens hblank
    exact Cursor.eq_nil_of_comment hfresh hline htag hsame hmark hread hgap hafter

/-- A comment over two lines, with blanks around it, stays on its line and is
    trimmed. -/
theorem comment_over_two_lines : ∃ (r : Reader) (start : Nat) (place after : Cursor),
    (ofText " \x7b\x7b! b\nc\x7d\x7d \nd".toList).Path [] r ∧
      r.Moves (.opens []) ⟨.opened start, place⟩ ∧
      place.tag = .ok (.single .comment, after) ∧ place.SameLine after ∧ after.ahead = [] := by
  have hfirst : (ofText " \x7b\x7b! b\nc\x7d\x7d \nd".toList).Moves .quiet ⟨.text ['{'],
      ⟨.standard, [], [' '], ['{'], "\x7b! b\nc\x7d\x7d".toList, [' ', '\n'], ['d']⟩⟩ :=
    ⟨_, _, by with_unfolding_all rfl, by with_unfolding_all rfl⟩
  have hopens : (Reader.mk (.text ['{'])
      ⟨.standard, [], [' '], ['{'], "\x7b! b\nc\x7d\x7d".toList, [' ', '\n'], ['d']⟩).Moves
        (.opens [])
        ⟨.opened 1, ⟨.standard, [], [' '],
        ['{', '{'], "! b\nc\x7d\x7d".toList, [' ', '\n'], ['d']⟩⟩ :=
    ⟨_, _, rfl, rfl⟩
  have htag : Cursor.tag ⟨.standard, [], [' '],
      ['{', '{'], "! b\nc\x7d\x7d".toList, [' ', '\n'], ['d']⟩ = .ok (.single .comment,
        ⟨.standard, [], [' '], "\x7b\x7b! b\nc\x7d\x7d".toList.reverse, [], [' ', '\n'],
        ['d']⟩) := by
    with_unfolding_all rfl
  rcases comment_within_line (Path.of_moves hfirst) hopens htag with ⟨_, _, _, hstays, htrim⟩
  have hcomment : Cursor.OpensComment
      ⟨.standard, [], [' '], ['{', '{'], "! b\nc\x7d\x7d".toList, [' ', '\n'], ['d']⟩ := by
    refine ⟨rfl, _, rfl, fun front back hclosing => ?_⟩
    have hmem : '!' ∈ Delimiters.standard.closing := by
      rw [hclosing]
      exact List.mem_append_right _ List.mem_cons_self
    exact absurd hmem (by decide)
  -- No delimiter tag is read, so no line is outdated.
  have hkeeps : (ofText " \x7b\x7b! b\nc\x7d\x7d \nd".toList).KeepsDelimiters :=
    keepsDelimiters_of_not_mem (by decide)
  have hsame := hstays hcomment hkeeps.not_isOutdated
  have hmark : ¬ Delimiters.standard.closing <+: Cursor.ahead (Cursor.skipBlanks
      ⟨.standard, [], [' '], ['{', '{'], "! b\nc\x7d\x7d".toList, [' ', '\n'], ['d']⟩) := by
    with_unfolding_all decide
  exact ⟨_, _, _, _, Path.of_moves hfirst, hopens, htag, hsame,
    (htrim hsame hmark [] rfl rfl rfl).2⟩

-- A blank before the mark makes its line end the end of the line.
example : Template.compile "a\n  \x7b\x7b ! b\nc \x7d\x7d  \nd" =
    .ok ⟨[.text "a\n  ", .text "  \nd"]⟩ := by
  with_unfolding_all rfl

end Reader

end Mustache
