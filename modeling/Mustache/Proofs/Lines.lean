import Mustache.Proofs.Snug

/-!
# Lines and Comments

Where a line of a template ends. A line end inside a comment does not end the
line, so what makes a line depends on the text before it: a comment may be open
there, or be about to open. No delimiter holds a blank, so nothing that happened
before a line end can open a comment after it, and a line is the same whatever
stands on the lines before. What stands after it does not matter either, unless
the text ends within the line.

A cursor is on a line as it was taken. Trimming puts blanks aside at both ends
of it, and what is left to read of a trimmed line ends with a closing delimiter.

## Main definitions

* `commentAfter`: A comment is open after a text.
* `IsLine`: A text has no line end before its last character.
* `IsClosed`: A line has a line end.
* `StartsLine`: A line starts after a text.
* `Cursor.line`: The line of a cursor.
* `Cursor.OnLine`: The line of a cursor is a line of the text.
* `Cursor.inComment`: A comment is open at a cursor.

## Theorems

* `takeLine_eq`: A line is taken up to its line end, or to the end of the text.
* `takeLine_behind`: What stands on the lines before does not matter.
* `Cursor.OnLine.next`: Reading goes from line to line.
* `Cursor.inComment_next`: What a character does to a comment.
-/

namespace Mustache

open Text

/-- Nothing stands before the place, or a line end does. The text before it is
    kept last character first. -/
def StartsLine (behind : List Char) : Prop :=
  ∀ ch ∈ behind.head?, ch = '\n'

/-- A word does not go on into a text whose last character it does not have. -/
theorem justRead_append {word front back : List Char} (h : ∀ ch ∈ back.head?, ch ∉ word) :
    justRead word (front ++ back) = justRead word front := by
  rw [justRead, justRead, Bool.eq_iff_iff, List.isPrefixOf_iff_prefix, List.isPrefixOf_iff_prefix]
  constructor
  · intro hword
    -- The word ends within the first part, or reaches into the other one.
    rcases List.prefix_or_prefix_of_prefix hword (List.prefix_append front back) with hfront | hlong
    · exact hfront
    · rcases hlong with ⟨rest, hrest⟩
      rw [← hrest, List.prefix_append_right_inj] at hword
      cases rest with
      | nil =>
          rw [List.append_nil] at hrest
          exact ⟨[], by rw [List.append_nil, hrest]⟩
      | cons ch rest =>
          rcases hword with ⟨more, rfl⟩
          have hmem : ch ∈ word := by
            rw [← List.mem_reverse, ← hrest]
            exact List.mem_append_right _ List.mem_cons_self
          exact absurd hmem (h ch rfl)
  · intro hfront
    exact hfront.trans (List.prefix_append front back)

/-- A word that was just read is part of what was read. -/
theorem byteLength_le_of_justRead {word behind : List Char} (h : justRead word behind = true) :
    byteLength word ≤ byteLength behind := by
  rw [justRead, List.isPrefixOf_iff_prefix] at h
  rcases h with ⟨rest, rfl⟩
  rw [byteLength_append, byteLength_reverse]
  omega

theorem Delimiters.not_mem_opening {d : Delimiters} {ch : Char} (h : isBlank ch = true) :
    ch ∉ d.opening := by
  intro hmem
  rw [(d.opening_isDelimiter.2 ch hmem).1] at h
  exact Bool.false_ne_true h

theorem Delimiters.not_mem_closing {d : Delimiters} {ch : Char} (h : isBlank ch = true) :
    ch ∉ d.closing := by
  intro hmem
  rw [(d.closing_isDelimiter.2 ch hmem).1] at h
  exact Bool.false_ne_true h

/-- There is no blank in what opens a comment. -/
theorem Delimiters.not_mem_comment {d : Delimiters} {ch : Char} (h : isBlank ch = true) :
    ch ∉ d.opening ++ ['!'] := by
  intro hmem
  rcases List.mem_append.mp hmem with hopening | hmark
  · exact d.not_mem_opening h hopening
  · rw [List.mem_singleton.mp hmark] at h
    exact absurd h (by decide)

/-- Whether a comment is open after the text `behind`, if `inComment` says
    whether one was open before its last character. -/
def commentNow (d : Delimiters) (inComment : Bool) (behind : List Char) : Bool :=
  (inComment || justRead (d.opening ++ ['!']) behind) && !justRead d.closing behind

/-- Whether a comment is open after the text, if `inComment` says whether one is
    open before it. The text before it is `behind`, last character first. -/
def commentAfter (d : Delimiters) (inComment : Bool) (behind : List Char) : List Char → Bool
  | [] => inComment
  | ch :: text => commentAfter d (commentNow d inComment (ch :: behind)) (ch :: behind) text

/-- A text in two parts is passed one after the other. -/
theorem commentAfter_append (d : Delimiters) (inComment : Bool) (behind front back : List Char) :
    commentAfter d inComment behind (front ++ back) =
      commentAfter d (commentAfter d inComment behind front) (front.reverse ++ behind) back := by
  induction front generalizing inComment behind with
  | nil => rfl
  | cons ch front ih =>
      rw [List.cons_append, commentAfter, commentAfter, ih, List.reverse_cons, List.append_assoc,
        List.singleton_append]

/-- A blank neither opens nor closes a comment. -/
theorem commentNow_blank {d : Delimiters} {inComment : Bool} {behind : List Char} {ch : Char}
    (h : isBlank ch = true) : commentNow d inComment (ch :: behind) = inComment := by
  rw [commentNow, justRead_of_not_mem (List.append_ne_nil_of_left_ne_nil d.opening_ne_nil _)
    (d.not_mem_comment h), justRead_of_not_mem d.closing_ne_nil (d.not_mem_closing h),
    Bool.or_false, Bool.not_false, Bool.and_true]

/-- So blanks neither open nor close a comment. -/
theorem commentAfter_blank {d : Delimiters} {inComment : Bool} {behind text : List Char}
    (h : text.all isBlank = true) : commentAfter d inComment behind text = inComment := by
  induction text generalizing behind with
  | nil => rfl
  | cons ch text ih =>
      rw [List.all_cons, Bool.and_eq_true] at h
      rw [commentAfter, commentNow_blank h.1, ih h.2]

/-- No comment is open after a closing delimiter. -/
theorem commentAfter_closing {d : Delimiters} {inComment : Bool} {behind front : List Char} :
    commentAfter d inComment behind (front ++ d.closing) = false := by
  rcases List.eq_nil_or_concat d.closing with hnil | ⟨init, last, hclosing⟩
  · exact absurd hnil d.closing_ne_nil
  · rw [List.concat_eq_append] at hclosing
    have hjust : justRead d.closing (last :: ((front ++ init).reverse ++ behind)) = true := by
      rw [justRead, List.isPrefixOf_iff_prefix]
      refine ⟨front.reverse ++ behind, ?_⟩
      simp only [hclosing, List.reverse_append, List.reverse_singleton, List.nil_append,
        List.cons_append, List.append_assoc]
    rw [hclosing, ← List.append_assoc, commentAfter_append, commentAfter, commentAfter, commentNow,
      hjust, Bool.not_true, Bool.and_false]

/-- What stands on the lines before does not open or close a comment. -/
theorem commentNow_behind {d : Delimiters} (inComment : Bool) {front back : List Char}
    (h : StartsLine back) :
    commentNow d inComment (front ++ back) = commentNow d inComment front := by
  have hblank : ∀ ch ∈ back.head?, isBlank ch = true := by
    intro ch hch
    rw [h ch hch]
    decide
  rw [commentNow, commentNow, justRead_append fun ch hch => d.not_mem_comment (hblank ch hch),
    justRead_append fun ch hch => d.not_mem_closing (hblank ch hch)]

/-- The text has no line end before its last character, unless in a comment. -/
def IsLine (d : Delimiters) (inComment : Bool) (behind line : List Char) : Prop :=
  ∀ front back, line = front ++ '\n' :: back → back ≠ [] →
    commentAfter d inComment behind (front ++ ['\n']) = true

/-- The line ends with a line end, outside of comments. -/
def IsClosed (d : Delimiters) (inComment : Bool) (behind line : List Char) : Prop :=
  line.getLast? = some '\n' ∧ commentAfter d inComment behind line = false

section

variable {d : Delimiters} {inComment : Bool} {behind line rest : List Char} {ch : Char}

theorem takeLine_cons (text : List Char) :
    takeLine d inComment behind (ch :: text) =
      if !commentNow d inComment (ch :: behind) && ch == '\n' then ([ch], text)
      else
        (ch :: (takeLine d (commentNow d inComment (ch :: behind)) (ch :: behind) text).1,
          (takeLine d (commentNow d inComment (ch :: behind)) (ch :: behind) text).2) := rfl

/-- What is left of a line after a character is a line. -/
theorem IsLine.tail (h : IsLine d inComment behind (ch :: line)) :
    IsLine d (commentNow d inComment (ch :: behind)) (ch :: behind) line := by
  intro front back heq hback
  exact h (ch :: front) back (congrArg (ch :: ·) heq) hback

/-- And it still ends with the line end. -/
theorem IsClosed.tail (h : IsClosed d inComment behind (ch :: line)) (hline : line ≠ []) :
    IsClosed d (commentNow d inComment (ch :: behind)) (ch :: behind) line := by
  rcases h with ⟨hlast, hcomment⟩
  cases line with
  | nil => exact absurd rfl hline
  | cons next line =>
      rw [List.getLast?_cons_cons] at hlast
      exact ⟨hlast, hcomment⟩

/-- A line is taken up to its line end, or to the end of the text. -/
theorem takeLine_eq (hline : IsLine d inComment behind line)
    (hrest : rest = [] ∨ IsClosed d inComment behind line) :
    takeLine d inComment behind (line ++ rest) = (line, rest) := by
  induction line generalizing inComment behind with
  | nil =>
      rcases hrest with rfl | hclosed
      · rfl
      · simp only [IsClosed, List.getLast?_nil, reduceCtorEq, false_and] at hclosed
  | cons ch line ih =>
      rw [List.cons_append, takeLine_cons]
      -- Either this character ends the line or the line goes on after it.
      by_cases hend : (!commentNow d inComment (ch :: behind) && ch == '\n') = true
      · rw [if_pos hend]
        rw [Bool.and_eq_true, Bool.not_eq_true', beq_iff_eq] at hend
        -- The line end is the last character of the line.
        have hnil : line = [] := by
          by_contra hne
          have hcomment := hline [] line (by rw [hend.2]; rfl) hne
          rw [List.nil_append, commentAfter, commentAfter, ← hend.2, hend.1] at hcomment
          exact Bool.false_ne_true hcomment
        rw [hnil, List.nil_append]
      · rw [if_neg hend]
        have htail : rest = [] ∨
            IsClosed d (commentNow d inComment (ch :: behind)) (ch :: behind) line := by
          rcases hrest with hnil | hclosed
          · exact Or.inl hnil
          · refine Or.inr (hclosed.tail ?_)
            intro hnil
            rw [hnil] at hclosed
            rcases hclosed with ⟨hlast, hcomment⟩
            rw [List.getLast?_singleton, Option.some.injEq] at hlast
            rw [commentAfter, commentAfter] at hcomment
            refine hend ?_
            rw [hcomment, hlast]
            rfl
        rw [ih hline.tail htail]

/-- What is taken is a line. -/
theorem isLine_takeLine {text : List Char} (h : takeLine d inComment behind text = (line, rest)) :
    IsLine d inComment behind line ∧ (rest ≠ [] → IsClosed d inComment behind line) := by
  induction text generalizing inComment behind line with
  | nil =>
      rw [takeLine, Prod.mk.injEq] at h
      rw [← h.1, ← h.2]
      refine ⟨?_, fun hne => absurd rfl hne⟩
      intro front back heq
      exact absurd heq.symm (List.append_ne_nil_of_right_ne_nil _ (List.cons_ne_nil _ _))
  | cons ch text ih =>
      rw [takeLine_cons] at h
      -- The same two cases, from the side of what is taken.
      by_cases hend : (!commentNow d inComment (ch :: behind) && ch == '\n') = true
      · rw [if_pos hend, Prod.mk.injEq] at h
        rw [Bool.and_eq_true, Bool.not_eq_true', beq_iff_eq] at hend
        rw [← h.1]
        refine ⟨?_, fun _ => ⟨?_, ?_⟩⟩
        · intro front back heq hback
          cases front with
          | nil =>
              rw [List.nil_append, List.cons.injEq] at heq
              exact absurd heq.2.symm hback
          | cons first front =>
              rw [List.cons_append, List.cons.injEq] at heq
              exact absurd heq.2.symm (List.append_ne_nil_of_right_ne_nil _ (List.cons_ne_nil _ _))
        · rw [List.getLast?_singleton, hend.2]
        · rw [commentAfter, commentAfter, hend.1]
      · rw [if_neg hend, Prod.mk.injEq] at h
        have htake : takeLine d (commentNow d inComment (ch :: behind)) (ch :: behind) text =
            ((takeLine d (commentNow d inComment (ch :: behind)) (ch :: behind) text).1, rest) := by
          rw [← h.2]
        rcases ih htake with ⟨hline, hclosed⟩
        rw [← h.1]
        refine ⟨?_, ?_⟩
        · intro front back heq hback
          cases front with
          | nil =>
              -- A line end that does not end the line is in a comment.
              rw [List.nil_append, List.cons.injEq] at heq
              rw [List.nil_append, commentAfter, commentAfter, ← heq.1]
              by_contra hcomment
              rw [Bool.not_eq_true] at hcomment
              refine hend ?_
              rw [hcomment, heq.1]
              rfl
          | cons first front =>
              rw [List.cons_append, List.cons.injEq] at heq
              rw [List.cons_append, commentAfter, ← heq.1]
              exact hline front back heq.2 hback
        · intro hne
          have hmore := hclosed hne
          refine ⟨?_, hmore.2⟩
          rw [List.getLast?_cons, hmore.1]
          rfl

/-- A line that ends before the text does is taken from less text as well. -/
theorem takeLine_of_append {more back : List Char}
    (h : (takeLine d inComment behind (line ++ more ++ back)).1 = line) (hback : back ≠ []) :
    takeLine d inComment behind (line ++ more) = (line, more) ∧
      IsClosed d inComment behind line := by
  have happend := takeLine_append d inComment behind (line ++ more ++ back)
  rw [h] at happend
  have hrest : (takeLine d inComment behind (line ++ more ++ back)).2 = more ++ back :=
    List.append_cancel_left (happend.trans (List.append_assoc line more back))
  have htake : takeLine d inComment behind (line ++ more ++ back) = (line, more ++ back) :=
    Prod.ext h hrest
  rcases isLine_takeLine htake with ⟨hline, hclosed⟩
  have hend := hclosed (List.append_ne_nil_of_right_ne_nil _ hback)
  exact ⟨takeLine_eq hline (Or.inr hend), hend⟩

/-- What stands on the lines before does not matter. -/
theorem takeLine_behind {front back : List Char} (h : StartsLine back) (text : List Char) :
    takeLine d inComment (front ++ back) text = takeLine d inComment front text := by
  induction text generalizing inComment front with
  | nil => rfl
  | cons ch text ih =>
      rw [takeLine_cons, takeLine_cons, ← List.cons_append, commentNow_behind inComment h, ih]

/-- The blanks before the text of a trimmed line are not followed by a line end. -/
theorem IsLine.ne_of_blank {front back : List Char} (h : IsLine d false behind line)
    (hline : line = front ++ ch :: back) (hfront : front.all isBlank = true) (hback : back ≠ []) :
    ch ≠ '\n' := by
  intro hend
  rw [hend] at hline
  have hcomment := h front back hline hback
  have hblank : (front ++ ['\n']).all isBlank = true := by
    rw [List.all_append, hfront]
    decide
  rw [commentAfter_blank hblank] at hcomment
  exact Bool.false_ne_true hcomment

end

/-- A line is left whole, or it is split into blanks, a row of tags, and blanks. -/
theorem Line.ofText_cases (d : Delimiters) (text : List Char) :
    Line.ofText d text = ⟨[], text, []⟩ ∨
      ∃ lead tags trail front, Line.ofText d text = ⟨lead, tags, trail⟩ ∧
        lead.all isBlank = true ∧ trail.all isBlank = true ∧
        tags = front ++ d.closing ∧ tags ≠ [] := by
  unfold Line.ofText
  cases honly : onlyTags? d (trimStart text) with
  | none => exact Or.inl rfl
  | some found =>
      rcases found with ⟨tags, trail⟩
      rcases onlyTags?_eq_some honly with ⟨run, hrun, htags, hblank⟩
      rcases tagRun?_eq_append hrun with ⟨front, hfront⟩
      have hlead : (text.takeWhile isBlank).all isBlank = true :=
        List.all_eq_true.mpr fun ch hch => List.mem_takeWhile_imp hch
      refine Or.inr ⟨_, tags, trail, d.opening ++ front, rfl, hlead, hblank, ?_, ?_⟩
      · rw [htags, hfront, List.append_assoc]
      · rw [htags]
        exact List.append_ne_nil_of_left_ne_nil d.opening_ne_nil _

/-- Trimming takes away nothing but blanks. -/
theorem Line.isBlank_ofText (d : Delimiters) (text : List Char) :
    (ofText d text).lead.all isBlank = true ∧ (ofText d text).trail.all isBlank = true := by
  rcases ofText_cases d text with hwhole | ⟨lead, tags, trail, _, htrimmed, hlead, htrail, _⟩
  · rw [hwhole]
    exact ⟨rfl, rfl⟩
  · rw [htrimmed]
    exact ⟨hlead, htrail⟩

/-- Trimming takes away no line end before the tags of a line. -/
theorem Line.not_mem_lead_ofText {d : Delimiters} {behind line : List Char}
    (h : IsLine d false behind line) : '\n' ∉ (ofText d line).lead := by
  rcases ofText_cases d line with hwhole | ⟨lead, tags, trail, _, htrimmed, hlead, _, _, hne⟩
  · rw [hwhole]
    exact List.not_mem_nil
  · intro hmem
    rw [htrimmed] at hmem
    rcases List.append_of_mem hmem with ⟨front, back, rfl⟩
    have hline := toText_ofText d line
    rw [htrimmed, toText] at hline
    rw [List.all_append, Bool.and_eq_true] at hlead
    -- The tags come after the line end, so it does not end the line.
    have hrest : back ++ tags ++ trail ≠ [] :=
      List.append_ne_nil_of_left_ne_nil (List.append_ne_nil_of_right_ne_nil _ hne) _
    refine h.ne_of_blank (hline.symm.trans ?_) hlead.1 hrest rfl
    simp only [List.append_assoc, List.cons_append]

namespace Cursor

/-- The current line. -/
def line (c : Cursor) : List Char :=
  c.lead ++ (c.read.reverse ++ c.ahead) ++ c.trail

/-- A comment is open at the cursor. -/
def inComment (c : Cursor) : Bool :=
  commentAfter c.delimiters false c.before (c.lead ++ c.read.reverse)

/-- The current line is a line of the text as it was taken. Before the first
    line is taken, it is empty. -/
structure OnLine (c : Cursor) : Prop where
  starts : StartsLine c.before
  isLine : IsLine c.delimiters false c.before c.line
  isClosed : c.line ≠ [] → c.beyond ≠ [] → IsClosed c.delimiters false c.before c.line
  trimmed : Line.ofText c.delimiters c.line = ⟨c.lead, c.read.reverse ++ c.ahead, c.trail⟩

/-- Before the first line is taken, the line is empty. -/
theorem onLine_ofText (d : Delimiters) (text : List Char) : (ofText d text).OnLine where
  starts := nofun
  isLine := by
    intro front back heq
    exact absurd heq.symm (List.append_ne_nil_of_right_ne_nil _ (List.cons_ne_nil _ _))
  isClosed h := absurd rfl h
  trimmed := by
    -- There is no tag on an empty line, so there is nothing to trim.
    have hnone : onlyTags? d [] = none := by
      cases honly : onlyTags? d [] with
      | none => rfl
      | some found =>
          rcases onlyTags?_eq_some honly with ⟨run, _, htags, _⟩
          have happend := onlyTags?_append honly
          rw [htags] at happend
          exact absurd happend (List.append_ne_nil_of_left_ne_nil
            (List.append_ne_nil_of_left_ne_nil d.opening_ne_nil _) _)
    have hblank : trimStart ([] : List Char) = [] := rfl
    simp only [ofText, line, List.reverse_nil, List.append_nil, Line.ofText, hblank, hnone]

variable {c after : Cursor} {ch : Char}

/-- At the end of a line all of it is behind the cursor, but for its last
    blanks. -/
theorem line_of_ahead_nil (h : c.ahead = []) :
    c.trail.reverse ++ c.behind = c.line.reverse ++ c.before := by
  simp only [line, behind, h, List.append_nil, List.reverse_append, List.reverse_reverse,
    List.append_assoc]

/-- Another line starts after a line that ends with a line end. -/
theorem startsLine_of_ends (hstarts : StartsLine c.before)
    (hends : c.line ≠ [] → c.line.getLast? = some '\n') (hahead : c.ahead = []) :
    StartsLine (c.trail.reverse ++ c.behind) := by
  rw [line_of_ahead_nil hahead]
  by_cases hline : c.line = []
  · rw [hline, List.reverse_nil, List.nil_append]
    exact hstarts
  · intro first hfirst
    rw [List.head?_append, List.head?_reverse, hends hline] at hfirst
    exact (Option.some.inj hfirst).symm

theorem OnLine.startsLine (h : c.OnLine) (hahead : c.ahead = []) (hbeyond : c.beyond ≠ []) :
    StartsLine (c.trail.reverse ++ c.behind) :=
  startsLine_of_ends h.starts (fun hline => (h.isClosed hline hbeyond).1) hahead

theorem line_nextLine (c : Cursor) :
    c.nextLine.line = (takeLine c.delimiters false (c.trail.reverse ++ c.behind) c.beyond).1 := by
  have hline := Line.toText_ofText c.delimiters
    (takeLine c.delimiters false (c.trail.reverse ++ c.behind) c.beyond).1
  rw [← hline]
  rfl

theorem trimmed_nextLine (c : Cursor) : Line.ofText c.delimiters c.nextLine.line =
    ⟨c.nextLine.lead, c.nextLine.read.reverse ++ c.nextLine.ahead, c.nextLine.trail⟩ := by
  rw [line_nextLine]
  rfl

/-- The next line is a line of the text. -/
theorem OnLine.nextLine (h : c.OnLine) (hahead : c.ahead = []) (hbeyond : c.beyond ≠ []) :
    c.nextLine.OnLine := by
  have htake : IsLine c.delimiters false (c.trail.reverse ++ c.behind) c.nextLine.line ∧
      (c.nextLine.beyond ≠ [] →
        IsClosed c.delimiters false (c.trail.reverse ++ c.behind) c.nextLine.line) := by
    rw [line_nextLine]
    exact isLine_takeLine rfl
  exact ⟨h.startsLine hahead hbeyond, htake.1, fun _ => htake.2, trimmed_nextLine c⟩

/-- A character is read from the current line, or it is the first one that is
    read from the next line. -/
theorem next?_cases (h : c.next? = some (ch, after)) :
    (c.ahead = ch :: after.ahead ∧ after = { c with read := ch :: c.read, ahead := after.ahead }) ∨
    (c.ahead = [] ∧ c.beyond ≠ [] ∧ c.nextLine.ahead = ch :: after.ahead ∧
      after = { c.nextLine with read := [ch], ahead := after.ahead }) := by
  unfold next? at h
  split at h
  case h_1 => simp only [reduceCtorEq] at h
  case h_2 first ahead hahead =>
    rw [Option.some.injEq, Prod.mk.injEq] at h
    rcases h with ⟨rfl, rfl⟩
    -- Only at the end of a line is the next one taken.
    by_cases hnil : c.ahead = []
    · by_cases hbeyond : c.beyond = []
      · have hsame : c.atLine = c := by
          rw [Cursor.atLine, hbeyond, List.isEmpty_nil, Bool.not_true, Bool.and_false,
            if_neg Bool.false_ne_true]
        rw [hsame, hnil] at hahead
        simp only [reduceCtorEq] at hahead
      · rw [atLine_of_nil hnil hbeyond] at hahead ⊢
        exact Or.inr ⟨hnil, hbeyond, hahead, rfl⟩
    · rw [atLine_of_ne_nil hnil] at hahead ⊢
      exact Or.inl ⟨hahead, rfl⟩

/-- A line whose end was trimmed is not taken anew. -/
theorem changeDelimiters_of_trail {new : Delimiters} (h : c.trail ≠ []) :
    c.changeDelimiters new = { c with delimiters := new } := by
  rw [changeDelimiters, List.isEmpty_eq_false_iff.mpr h, if_neg Bool.false_ne_true]

theorem next?_ahead {ahead : List Char} (h : c.ahead = ch :: ahead) :
    c.next? = some (ch, { c with read := ch :: c.read, ahead := ahead }) := by
  rw [next?, atLine_of_ne_nil (by rw [h]; exact List.cons_ne_nil _ _), h]

/-- Before any other character there are no blanks to pass over. -/
theorem skipBlanks_ahead {ahead : List Char} (h : c.ahead = ch :: ahead)
    (hch : isBlank ch = false) : c.skipBlanks = c := by
  rw [skipBlanks]
  split
  case h_1 => rfl
  case h_2 ch' after h' =>
    rw [next?_ahead h, Option.some.injEq, Prod.mk.injEq] at h'
    rw [← h'.1, hch, if_neg Bool.false_ne_true]

/-- The first character of a line leads to a place on that line. -/
theorem nextLine_of_next? (h : c.next? = some (ch, after)) (hahead : c.ahead = []) :
    c.beyond ≠ [] ∧ after.before = c.trail.reverse ++ c.behind ∧
      after.line = c.nextLine.line ∧ after.beyond = c.nextLine.beyond := by
  rcases next?_cases h with ⟨hcons, _⟩ | ⟨_, hbeyond, hcons, hafter⟩
  · rw [hahead] at hcons
    simp only [reduceCtorEq] at hcons
  · refine ⟨hbeyond, by rw [hafter]; rfl, ?_, by rw [hafter]⟩
    rw [hafter, line, line, hcons]
    rfl

/-- The character that was read stays on its line. -/
theorem line_read {ahead : List Char} (hahead : c.ahead = ch :: ahead) :
    Cursor.line { c with read := ch :: c.read, ahead := ahead } = c.line := by
  simp only [line, hahead, List.reverse_cons, List.append_assoc, List.singleton_append]

theorem trimmed_read {ahead : List Char} (hahead : c.ahead = ch :: ahead)
    (h : Line.ofText c.delimiters c.line = ⟨c.lead, c.read.reverse ++ c.ahead, c.trail⟩) :
    Line.ofText c.delimiters (Cursor.line { c with read := ch :: c.read, ahead := ahead }) =
      ⟨c.lead, (ch :: c.read).reverse ++ ahead, c.trail⟩ := by
  rw [line_read hahead, h, hahead, List.reverse_cons, List.append_assoc, List.singleton_append]

/-- A line stays a line of the text while it is read. -/
theorem OnLine.read {ahead : List Char} (h : c.OnLine) (hahead : c.ahead = ch :: ahead) :
    Cursor.OnLine { c with read := ch :: c.read, ahead := ahead } := by
  have hline := line_read hahead
  have htrimmed := trimmed_read hahead h.trimmed
  exact ⟨h.starts, hline ▸ h.isLine, hline ▸ h.isClosed, htrimmed⟩

/-- Reading goes from line to line. -/
theorem OnLine.next (h : c.OnLine) (hnext : c.next? = some (ch, after)) : after.OnLine := by
  rcases next?_cases hnext with ⟨hahead, hafter⟩ | ⟨hnil, hbeyond, hahead, hafter⟩
  · rw [hafter]
    exact h.read hahead
  · rw [hafter]
    exact (h.nextLine hnil hbeyond).read hahead

theorem OnLine.all_isBlank (h : c.OnLine) :
    c.lead.all isBlank = true ∧ c.trail.all isBlank = true := by
  have hblank := Line.isBlank_ofText c.delimiters c.line
  rwa [h.trimmed] at hblank

/-- No line end is taken away before the text of a line. -/
theorem OnLine.not_mem_lead (h : c.OnLine) : '\n' ∉ c.lead := by
  have hmem := Line.not_mem_lead_ofText h.isLine
  rwa [h.trimmed] at hmem

/-- What is read of a trimmed line ends with a closing delimiter. -/
theorem OnLine.head?_read (h : c.OnLine) (hahead : c.ahead = []) (htrail : c.trail ≠ []) :
    c.read.head? = c.delimiters.closing.getLast? := by
  rcases Line.ofText_cases c.delimiters c.line with hwhole | ⟨lead, tags, trail, front, htrimmed,
    _, _, htags, _⟩
  · rw [h.trimmed, Line.mk.injEq] at hwhole
    exact absurd hwhole.2.2 htrail
  · rw [h.trimmed, Line.mk.injEq, hahead, List.append_nil, htags] at htrimmed
    rw [← List.getLast?_reverse, htrimmed.2.1, List.getLast?_append]
    have hsome := List.getLast?_isSome.mpr c.delimiters.closing_ne_nil
    rcases Option.isSome_iff_exists.mp hsome with ⟨last, hlast⟩
    rw [hlast]
    rfl

/-- What a character does to a comment. No comment is open where a line
    starts. -/
theorem OnLine.inComment_next (h : c.OnLine) (hnext : c.next? = some (ch, after)) :
    after.inComment =
      commentNow c.delimiters (!c.ahead.isEmpty && c.inComment) after.behind := by
  have hafter := h.next hnext
  rcases next?_cases hnext with ⟨hahead, heq⟩ | ⟨hnil, hbeyond, hahead, heq⟩
  · rw [heq]
    simp only [inComment, behind, List.reverse_cons, ← List.append_assoc c.lead]
    rw [commentAfter_append, hahead]
    simp only [commentAfter, List.reverse_append, List.reverse_reverse, List.isEmpty_cons,
      Bool.not_false, Bool.true_and, List.cons_append]
  · -- On a new line, the blanks that were put aside come first, and open no comment.
    have hblank := hafter.all_isBlank.1
    rw [heq] at hblank ⊢
    simp only [inComment, behind, List.reverse_cons, List.reverse_nil, List.nil_append]
    rw [commentAfter_append, commentAfter_blank hblank, hnil]
    rfl

/-- A line starts after blanks, if anything stands before it at all. -/
theorem isBlank_of_head? {lead before : List Char} (hlead : lead.all isBlank = true)
    (hbefore : StartsLine before) :
    ∀ first ∈ (lead.reverse ++ before).head?, isBlank first = true := by
  intro first hfirst
  -- With no blanks before it, the line end of the line before is behind.
  rcases List.eq_nil_or_concat lead with rfl | ⟨front, last, rfl⟩
  · rw [hbefore first hfirst]
    decide
  · rw [List.concat_eq_append] at hlead hfirst
    rw [List.reverse_append, List.reverse_singleton, List.singleton_append, List.cons_append,
      List.head?_cons, Option.mem_some_iff] at hfirst
    rw [List.all_append, Bool.and_eq_true, List.all_cons, Bool.and_eq_true] at hlead
    rw [← hfirst]
    exact hlead.2.1

/-- Before a character stands the one that was read before it, or a blank at
    the end of the line before. -/
theorem OnLine.behind_next (h : c.OnLine) (hnext : c.next? = some (ch, after)) :
    ∃ behind, after.behind = ch :: behind ∧
      ((c.ahead ≠ [] ∧ behind = c.behind) ∨
        (c.ahead = [] ∧ ∀ first ∈ behind.head?, isBlank first = true)) := by
  have hafter := h.next hnext
  rcases next?_cases hnext with ⟨hahead, heq⟩ | ⟨hnil, hbeyond, hahead, heq⟩
  · refine ⟨c.behind, ?_, Or.inl ⟨?_, rfl⟩⟩
    · rw [heq]
      rfl
    · rw [hahead]
      exact List.cons_ne_nil _ _
  · refine ⟨after.lead.reverse ++ after.before, ?_, Or.inr ⟨hnil, ?_⟩⟩
    · rw [heq]
      rfl
    · exact isBlank_of_head? hafter.all_isBlank.1 hafter.starts

/-- Any character but a blank is behind the cursor only once it was read. -/
theorem OnLine.head?_read_of_behind (h : c.OnLine) {first : Char}
    (hfirst : c.behind.head? = some first) (hblank : isBlank first = false) :
    c.read.head? = some first := by
  unfold behind at hfirst
  cases hread : c.read with
  | nil =>
      rw [hread, List.nil_append] at hfirst
      have hnot := isBlank_of_head? h.all_isBlank.1 h.starts first hfirst
      rw [hblank] at hnot
      exact absurd hnot Bool.false_ne_true
  | cons last read =>
      rw [hread] at hfirst
      exact hfirst

end Cursor

end Mustache
