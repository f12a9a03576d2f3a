import Mustache.Proofs.Regular

/-!
# Lines under Changing Delimiters

What is known of the current line when delimiter tags may have been read on it. A
line is taken with the delimiters in force where it starts: it is looked through for
comments to find its end, and it is trimmed. After a delimiter tag the rest of it is
taken anew, unless its end was trimmed. Then it stays as it is, so that its end was
found with delimiters that are no longer in force, until the next line is taken.

## Main definitions

* `Cursor.IsOnLine`: The current line begins and ends where lines do.
* `Cursor.IsTaken`: The end of the line was found with the delimiters in force.
* `Cursor.IsFresh`: The line is trimmed with the delimiters in force.
* `Reader.ChangesTrimmed`: A delimiter tag ends on a line whose end was trimmed.
* `Reader.IsOutdated`: Such a tag ended on the current line.
* `Reader.TracksLine`: The line is fresh, or a tag ended on it before the text that
  is being read.

## Theorems

* `Cursor.changeDelimiters_cases`: What a delimiter tag does to the line.
* `Reader.isOnLine_of_path`: Reading goes from line to line.
* `Reader.isTaken_of_path`: A line that is not taken is outdated.
* `Reader.isFresh_of_opens`: A line whose first tag is opened is fresh.
-/

namespace Mustache

open Text

/-- A line that is not the last one is closed. -/
theorem isClosed_takeLine {d : Delimiters} {inComment : Bool} {behind text : List Char}
    (h : (takeLine d inComment behind text).2 ≠ []) :
    IsClosed d inComment behind (takeLine d inComment behind text).1 :=
  (isLine_takeLine rfl).2 h

namespace Cursor

/-- The current line is a line of the text, whatever the delimiters are that it was
    taken with. Before the first line is taken, it is empty. -/
structure IsOnLine (c : Cursor) : Prop where
  starts : StartsLine c.before
  ends : c.line ≠ [] → c.beyond ≠ [] → c.line.getLast? = some '\n'
  lead : c.lead.all isBlank = true
  trail : c.trail.all isBlank = true

/-- If the text goes on after the line, no comment is open at its end. A part of the
    line that was read already may have been looked through with other
    delimiters. -/
def IsTaken (c : Cursor) : Prop :=
  c.beyond ≠ [] → ∃ front back, c.behind = front ++ back ∧
    commentAfter c.delimiters false back (front.reverse ++ c.ahead ++ c.trail) = false

/-- The whole line is trimmed with the delimiters in force. -/
def IsFresh (c : Cursor) : Prop :=
  Line.ofText c.delimiters c.line = ⟨c.lead, c.read.reverse ++ c.ahead, c.trail⟩

variable {c after : Cursor} {ch : Char}

/-- Reading goes from line to line. -/
theorem IsOnLine.next (h : c.IsOnLine) (hnext : c.next? = some (ch, after)) : after.IsOnLine := by
  -- On the same line only the place changes; the next line is taken as a line of the
  -- text.
  rcases next?_cases hnext with ⟨hahead, hafter⟩ | ⟨hnil, hbeyond, hahead, hafter⟩
  · rw [hafter]
    exact ⟨h.starts, line_read hahead ▸ h.ends, h.lead, h.trail⟩
  · rcases nextLine_of_next? hnext hnil with ⟨_, hbefore, hline, hlast⟩
    have hblank := Line.isBlank_ofText c.delimiters
      (takeLine c.delimiters false (c.trail.reverse ++ c.behind) c.beyond).1
    refine ⟨?_, ?_, ?_, ?_⟩
    · rw [hbefore]
      exact startsLine_of_ends h.starts (fun hne => h.ends hne hbeyond) hnil
    · intro _ hmore
      rw [hlast] at hmore
      rw [hline, line_nextLine]
      exact (isClosed_takeLine hmore).1
    · rw [hafter]
      exact hblank.1
    · rw [hafter]
      exact hblank.2

/-- Before the first line is taken, the line is empty. -/
theorem isOnLine_ofText (d : Delimiters) (text : List Char) : (ofText d text).IsOnLine :=
  ⟨nofun, fun h => absurd rfl h, rfl, rfl⟩

/-- What a delimiter tag does to the line. If its end was trimmed, nothing but the
    delimiters changes. Otherwise the rest of it is taken anew. -/
theorem changeDelimiters_cases (new : Delimiters) (c : Cursor) :
    (c.trail ≠ [] ∧ c.changeDelimiters new = { c with delimiters := new }) ∨
      (c.trail = [] ∧ ∃ ahead trail,
        ahead ++ trail = (takeLine new false c.behind (c.ahead ++ c.beyond)).1 ∧
        trail.all isBlank = true ∧
        c.changeDelimiters new = { c with
          delimiters := new, ahead := ahead, trail := trail,
          beyond := (takeLine new false c.behind (c.ahead ++ c.beyond)).2 }) := by
  by_cases htrail : c.trail = []
  · refine Or.inr ⟨htrail, ?_⟩
    unfold changeDelimiters
    rw [htrail, List.isEmpty_nil, if_pos rfl]
    dsimp only
    -- The rest of the line is trimmed if nothing but tags was read on it before.
    cases hfound : (if c.onTags = true then
        onlyTags? new (takeLine new false c.behind (c.ahead ++ c.beyond)).1 else none) with
    | none => exact ⟨_, [], List.append_nil _, rfl, by rw [← htrail]⟩
    | some found =>
        by_cases htags : c.onTags = true
        · rw [if_pos htags] at hfound
          rcases onlyTags?_eq_some hfound with ⟨_, _, _, hblank⟩
          exact ⟨found.1, found.2, onlyTags?_append hfound, hblank, rfl⟩
        · rw [if_neg htags] at hfound
          simp only [reduceCtorEq] at hfound
  · exact Or.inl ⟨htrail, changeDelimiters_of_trail htrail⟩

/-- A change of delimiters leaves what was read of the line as it is. -/
theorem changeDelimiters_kept (new : Delimiters) (c : Cursor) :
    (c.changeDelimiters new).before = c.before ∧ (c.changeDelimiters new).lead = c.lead ∧
      (c.changeDelimiters new).read = c.read := by
  rcases changeDelimiters_cases new c with ⟨_, hsame⟩ | ⟨_, ahead, trail, _, _, hchange⟩
  · rw [hsame]
    exact ⟨rfl, rfl, rfl⟩
  · rw [hchange]
    exact ⟨rfl, rfl, rfl⟩

theorem read_changeDelimiters (new : Delimiters) (c : Cursor) :
    (c.changeDelimiters new).read = c.read :=
  (changeDelimiters_kept new c).2.2

/-- What is taken anew is the rest of a line of the text. -/
theorem IsOnLine.changeDelimiters (h : c.IsOnLine) (new : Delimiters) :
    (c.changeDelimiters new).IsOnLine := by
  rcases changeDelimiters_cases new c with ⟨_, hsame⟩ |
    ⟨htrail, ahead, trail, htake, hblank, hchange⟩
  · rw [hsame]
    exact ⟨h.starts, h.ends, h.lead, h.trail⟩
  · rw [hchange]
    refine ⟨h.starts, ?_, h.lead, hblank⟩
    intro _ hbeyond
    -- If the text goes on, the line that was taken ends with a line end.
    have hclosed := isClosed_takeLine hbeyond
    rw [← htake] at hclosed
    have hne : ahead ++ trail ≠ [] := by
      intro hnil
      rw [hnil] at hclosed
      simp only [IsClosed, List.getLast?_nil, reduceCtorEq, false_and] at hclosed
    rw [line, ← List.append_assoc c.lead, List.append_assoc (c.lead ++ c.read.reverse),
      List.getLast?_append_of_ne_nil _ hne]
    exact hclosed.1

/-- A line stays fresh while it is read, and a line that is just taken is fresh. -/
theorem isFresh_of_next? (hnext : c.next? = some (ch, after)) :
    (after.read = ch :: c.read ∧ (c.IsFresh → after.IsFresh)) ∨ after.IsFresh := by
  rcases next?_cases hnext with ⟨hahead, hafter⟩ | ⟨_, _, hahead, hafter⟩
  · have htrimmed := trimmed_read hahead
    rw [hafter]
    exact Or.inl ⟨rfl, htrimmed⟩
  · have htrimmed := trimmed_read hahead (trimmed_nextLine c)
    rw [hafter]
    exact Or.inr htrimmed

theorem isTaken_ofText (d : Delimiters) (text : List Char) : (ofText d text).IsTaken :=
  fun _ => ⟨[], [], rfl, rfl⟩

/-- A line stays taken until it is left, and the next line is taken with the
    delimiters in force. -/
theorem isTaken_of_next? (hnext : c.next? = some (ch, after)) :
    (after.before = c.before ∧ (c.IsTaken → after.IsTaken)) ∨ after.IsTaken := by
  rcases next?_cases hnext with ⟨hahead, hafter⟩ | ⟨hnil, hbeyond, hahead, hafter⟩
  · left
    rw [hafter]
    refine ⟨rfl, fun h hmore => ?_⟩
    rcases h hmore with ⟨front, back, hbehind, hcomment⟩
    refine ⟨ch :: front, back, ?_, ?_⟩
    · rw [List.cons_append, ← hbehind]
      rfl
    · rw [hahead] at hcomment
      rw [List.reverse_cons, List.append_assoc front.reverse, List.singleton_append]
      exact hcomment
  · right
    intro hmore
    rcases nextLine_of_next? hnext hnil with ⟨_, hbefore, hline, hlast⟩
    rw [hlast] at hmore
    have hclosed := (isClosed_takeLine hmore).2
    rw [← line_nextLine, ← hline, ← hbefore] at hclosed
    refine ⟨after.read ++ after.lead.reverse, after.before, rfl, ?_⟩
    rw [delimiters_next? hnext]
    rw [line] at hclosed
    simpa only [List.reverse_append, List.reverse_reverse, List.append_assoc] using hclosed

/-- So is the rest of a line after a delimiter tag, unless its end was trimmed. -/
theorem isTaken_changeDelimiters (new : Delimiters) (htrail : c.trail = []) :
    (c.changeDelimiters new).IsTaken := by
  rcases changeDelimiters_cases new c with ⟨hne, _⟩ | ⟨_, ahead, trail, htake, _, hchange⟩
  · exact absurd htrail hne
  · rw [hchange]
    intro hmore
    have hclosed := (isClosed_takeLine hmore).2
    rw [← htake] at hclosed
    exact ⟨[], c.behind, rfl, hclosed⟩

end Cursor

namespace Reader

variable {r next last : Reader} {event : Event} {tokens : List Token}

/-- A delimiter tag ends, on a line whose end was trimmed. -/
def ChangesTrimmed (r next : Reader) : Prop :=
  ∃ ch after new start, r.place.next? = some (ch, after) ∧ after.trail ≠ [] ∧
    r.mode.step ch after = .ok (.ends (.single (.delimiters new)) start, next)

/-- On the current line a delimiter tag ended that left the rest of the line as it
    was taken before. -/
def IsOutdated (r last : Reader) : Prop :=
  ∃ front middle next back, r.Path front middle ∧ middle.ChangesTrimmed next ∧
    next.Path back last ∧ last.place.before = next.place.before

theorem IsOutdated.step (hmoves : r.Moves event next) (h : next.IsOutdated last) :
    r.IsOutdated last := by
  rcases h with ⟨front, middle, changed, back, hfront, hchange, hback⟩
  exact ⟨_, middle, changed, back, .step hmoves hfront, hchange, hback⟩

/-- Without delimiter tags no line is outdated. -/
theorem KeepsDelimiters.not_isOutdated (h : r.KeepsDelimiters) : ¬ r.IsOutdated last := by
  rintro ⟨front, middle, changed, back, hfront, ⟨ch, after, new, start, hnext, _, hstep⟩, _⟩
  exact h front middle _ changed hfront ⟨ch, after, hnext, hstep⟩ new start rfl

/-- A character leads to a place on the same line, or on another one that is taken.
    The end of the line only fails to be found anew if it was trimmed. -/
theorem isTaken_of_moves (h : r.Moves event next) :
    (next.place.before = r.place.before ∧ (r.place.IsTaken → next.place.IsTaken)) ∨
      next.place.IsTaken ∨ r.ChangesTrimmed next := by
  rcases h with ⟨ch, after, hnext, hstep⟩
  rcases (Mode.steps_of_step hstep).place_cases with hplace | ⟨new, start, rfl, hplace⟩
  · rw [hplace]
    rcases Cursor.isTaken_of_next? hnext with hsame | htaken
    · exact Or.inl hsame
    · exact Or.inr (Or.inl htaken)
  · right
    -- A trimmed line keeps the end it had before the tag.
    by_cases htrail : after.trail = []
    · left
      rw [hplace]
      exact Cursor.isTaken_changeDelimiters new htrail
    · exact Or.inr ⟨ch, after, new, start, hnext, htrail, hstep⟩

/-- A line that is not taken is outdated. -/
theorem isTaken_of_path (hpath : r.Path tokens last) (h : r.place.IsTaken) :
    last.place.IsTaken ∨ r.IsOutdated last := by
  -- Without a taken line to start from, reading may not have left the line yet.
  have hlast : (last.place.before = r.place.before ∨ last.place.IsTaken ∨ r.IsOutdated last) ∧
      (r.place.IsTaken → last.place.IsTaken ∨ r.IsOutdated last) := by
    clear h
    induction hpath with
    | refl r => exact ⟨Or.inl rfl, Or.inl⟩
    | @step r next last event tokens hmoves hpath ih =>
        have hlater : last.place.IsTaken ∨ next.IsOutdated last →
            last.place.IsTaken ∨ r.IsOutdated last := Or.imp_right (IsOutdated.step hmoves)
        rcases isTaken_of_moves hmoves with ⟨hbefore, hkeeps⟩ | htaken | hchange
        · refine ⟨?_, fun htaken => hlater (ih.2 (hkeeps htaken))⟩
          rw [← hbefore]
          exact Or.imp_right hlater ih.1
        · have hlast := hlater (ih.2 htaken)
          exact ⟨Or.inr hlast, fun _ => hlast⟩
        · have hlast : last.place.IsTaken ∨ r.IsOutdated last := by
            rcases ih.1 with hbefore | hlast
            · exact Or.inr ⟨[], r, next, tokens, .refl r, hchange, hpath, hbefore⟩
            · exact hlater hlast
          exact ⟨Or.inr hlast, fun _ => hlast⟩
  exact hlast.2 h

/-- A character leads to a line of the text. -/
theorem isOnLine_of_moves (h : r.Moves event next) (hline : r.place.IsOnLine) :
    next.place.IsOnLine := by
  rcases h with ⟨ch, after, hnext, hstep⟩
  rcases (Mode.steps_of_step hstep).place_cases with hplace | ⟨new, start, _, hplace⟩
  · rw [hplace]
    exact hline.next hnext
  · rw [hplace]
    exact (hline.next hnext).changeDelimiters new

/-- Reading goes from line to line. -/
theorem isOnLine_of_path (hpath : r.Path tokens last) (h : r.place.IsOnLine) :
    last.place.IsOnLine := by
  induction hpath with
  | refl r => exact h
  | step hmoves _ ih => exact ih (isOnLine_of_moves hmoves h)

/-- The line is fresh, or a tag ended on it before what is being read. -/
def TracksLine (r : Reader) : Prop :=
  r.place.IsFresh ∨ ∃ recent ch old, r.place.read = recent ++ ch :: old ∧ isBlank ch = false ∧
    ∀ buffer, r.mode = .text buffer → buffer = recent

/-- At the start of a text the line is fresh. -/
theorem tracksLine_ofText (text : List Char) : (ofText text).TracksLine :=
  Or.inl (Cursor.onLine_ofText .standard text).trimmed

/-- The character that ends a tag is no blank. -/
theorem isBlank_of_ends {d : Delimiters} {sigil ch : Char} {buffer : List Char}
    (h : justRead (d.word sigil) (ch :: buffer) = true) : isBlank ch = false := by
  by_contra hblank
  have hmem : ch ∉ d.word sigil := fun hmem => hblank (Delimiters.isBlank_of_mem_word hmem)
  rw [justRead_of_not_mem (d.word_ne_nil sigil) hmem] at h
  exact Bool.false_ne_true h

/-- What is read now comes before all that was known of the line. -/
theorem TracksLine.reads {ch : Char} {after : Cursor} (h : r.TracksLine)
    (hnext : r.place.next? = some (ch, after)) :
    after.IsFresh ∨ ∃ recent first old, after.read = ch :: recent ++ first :: old ∧
      isBlank first = false ∧ ∀ buffer, r.mode = .text buffer → buffer = recent := by
  rcases Cursor.isFresh_of_next? hnext with ⟨hcons, hkeeps⟩ | hfresh
  · rcases h with hfresh | ⟨recent, first, old, hread, hfirst, hbuffer⟩
    · exact Or.inl (hkeeps hfresh)
    · refine Or.inr ⟨recent, first, old, ?_, hfirst, hbuffer⟩
      rw [hcons, hread, List.cons_append]
  · exact Or.inl hfresh

/-- A line stays fresh until a tag ends on it. -/
theorem TracksLine.moves (h : r.TracksLine) (hmoves : r.Moves event next) : next.TracksLine := by
  rcases r with ⟨mode, place⟩
  rcases hmoves with ⟨ch, after, hnext, hstep⟩
  -- As long as no tag ends, a text buffer grows with what is read of the line.
  have hquiet : ∀ mode', (∀ buffer, mode' = .text buffer → ∃ front, mode = .text front ∧
      buffer = ch :: front) → TracksLine ⟨mode', after⟩ := by
    intro mode' hmode
    refine Or.imp_right ?_ (h.reads hnext)
    rintro ⟨recent, first, old, hread, hfirst, hbuffer⟩
    refine ⟨ch :: recent, first, old, hread, hfirst, fun buffer htext => ?_⟩
    rcases hmode buffer htext with ⟨front, hfront, rfl⟩
    rw [hbuffer front hfront]
  cases Mode.steps_of_step hstep with
  | text hjust =>
      refine hquiet _ fun buffer hbuffer => ⟨_, rfl, ?_⟩
      rw [Mode.text.injEq] at hbuffer
      exact hbuffer.symm
  | opens | blank | sigil | kept | content => exact hquiet _ nofun
  -- The last character of the tag is no blank, and the text starts anew behind it.
  | @ends start sigil buffer tag place' hjust hcomplete =>
      rcases List.head?_eq_some_iff.mp (head?_read_next hnext) with ⟨old, hold⟩
      have hread : place'.read = ch :: old := by
        rcases Cursor.complete_cases hcomplete with hplace | ⟨new, _, hplace⟩
        · rw [hplace, hold]
        · rw [hplace, Cursor.read_changeDelimiters, hold]
      refine Or.inr ⟨[], ch, old, hread, isBlank_of_ends hjust, fun buffer hbuffer => ?_⟩
      rw [Mode.text.injEq] at hbuffer
      exact hbuffer.symm

/-- So the line is tracked all the way. -/
theorem TracksLine.path (h : r.TracksLine) (hpath : r.Path tokens last) : last.TracksLine := by
  induction hpath with
  | refl r => exact h
  | step hmoves _ ih => exact ih (h.moves hmoves)

/-- A line whose first tag is opened is fresh. -/
theorem isFresh_of_opens {before : List Char} {start : Nat} {place : Cursor} (h : r.TracksLine)
    (hopens : r.Moves (.opens before) ⟨.opened start, place⟩)
    (hblank : (place.read.drop place.delimiters.opening.length).all isBlank = true) :
    place.IsFresh := by
  rcases r with ⟨mode, place'⟩
  rcases hopens with ⟨ch, after, hnext, hstep⟩
  cases Mode.steps_of_step hstep with
  | @opens buffer hjust =>
      rcases h.reads hnext with hfresh | ⟨recent, first, old, hread, hfirst, hbuffer⟩
      · exact hfresh
      · -- Otherwise the tag that ended before is among what stands before this one.
        rw [hbuffer buffer rfl, justRead, List.isPrefixOf_iff_prefix] at hjust
        have hlength := hjust.length_le
        rw [List.length_reverse] at hlength
        rw [hread, List.drop_append_of_le_length hlength] at hblank
        have hnot := List.all_eq_true.mp hblank first
          (List.mem_append_right _ List.mem_cons_self)
        rw [hfirst] at hnot
        exact absurd hnot Bool.false_ne_true

end Reader

end Mustache
