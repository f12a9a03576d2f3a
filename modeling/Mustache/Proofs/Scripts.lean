import Mustache.Proofs.Concatenation
import Mustache.Proofs.Recognition
import Mustache.Render

/-!
# Scripts of Sections

A script that was made for a section is read with the delimiters in force at the
section. A template always starts with the standard ones, so unless they are in
force, a delimiter tag on a line of its own stands before the script.

The script compiles behind that line to what it compiles to when it is read with
these delimiters from the start, and fails to where that does. The line itself shows
nothing, if it is standalone. It is unless one of the two delimiters holds the
standard closing one, which then seems to end the delimiter tag; and where the line
is not, its line end is shown before the script.

## Main definitions

* `Delimiters.tagText`: The delimiter tag that names a pair.
* `Delimiters.StandsAlone`: The line of that tag is standalone.

## Theorems

* `Delimiters.ofBody?_words`: A delimiter tag names its pair.
* `Cursor.tag_tagText`, `Cursor.stream_tagText`: A delimiter tag puts its pair in
  force.
* `Delimiters.ofText_delimiterLine`: The line of the tag is trimmed or left as it is.
* `Cursor.stream_delimiterLine`: Reading that line leads to its end.
* `Template.compile_delimiterLine`: What a text compiles to behind that line.
* `sectionScript_eq_compileWith`: What a script compiles to.
-/

namespace Mustache

open Text

/-- The delimiter tag that names a pair of delimiters. -/
def Delimiters.tagText (d : Delimiters) : List Char :=
  ['\x7b', '\x7b', '='] ++ (d.opening ++ ' ' :: d.closing) ++ ['=', '\x7d', '\x7d']

/-- The line of the delimiter tag is standalone. -/
def Delimiters.StandsAlone (d : Delimiters) : Prop :=
  (Line.mk [] d.tagText ['\n']).IsStandalone .standard

section

variable {word text : List Char} {d : Delimiters}

/-- A word without blanks goes on with the text after it. -/
theorem frontWord_append (h : ∀ ch ∈ word, isBlank ch = false) (text : List Char) :
    frontWord (word ++ text) = (word ++ (frontWord text).1, (frontWord text).2) := by
  induction word with
  | nil => rfl
  | cons ch word ih =>
      have hword := ih fun ch' hmem => h ch' (List.mem_cons_of_mem _ hmem)
      rw [List.cons_append, frontWord, hword]
      dsimp only
      rw [h ch List.mem_cons_self, if_neg Bool.false_ne_true, List.cons_append]

/-- A text without blanks is one word. -/
theorem frontWord_eq_self (h : ∀ ch ∈ word, isBlank ch = false) : frontWord word = (word, []) := by
  have hword := frontWord_append h []
  rwa [List.append_nil, frontWord, List.append_nil] at hword

/-- No delimiter holds the equals sign, so a pair that is written down does not. -/
theorem Delimiters.not_mem_words (d : Delimiters) : '=' ∉ d.opening ++ ' ' :: d.closing := by
  simp only [List.mem_append, List.mem_cons, not_or]
  exact ⟨fun hmem => (d.opening_isDelimiter.2 _ hmem).2 rfl, by decide,
    fun hmem => (d.closing_isDelimiter.2 _ hmem).2 rfl⟩

/-- A delimiter tag names its pair. -/
theorem Delimiters.ofBody?_words (d : Delimiters) :
    ofBody? (d.opening ++ ' ' :: d.closing) = some d := by
  have hopening : ∀ ch ∈ d.opening, isBlank ch = false := fun ch hmem =>
    (d.opening_isDelimiter.2 ch hmem).1
  have hclosing : ∀ ch ∈ d.closing, isBlank ch = false := fun ch hmem =>
    (d.closing_isDelimiter.2 ch hmem).1
  have hfront : frontWord (' ' :: d.closing) = ([], [d.closing]) := by
    rw [frontWord, frontWord_eq_self hclosing]
    dsimp only
    rw [if_pos (by decide), List.isEmpty_eq_false_iff.mpr d.closing_ne_nil,
      if_neg Bool.false_ne_true]
  have hwords : words (d.opening ++ ' ' :: d.closing) = [d.opening, d.closing] := by
    rw [words, frontWord_append hopening, hfront]
    dsimp only
    rw [List.append_nil, List.isEmpty_eq_false_iff.mpr d.opening_ne_nil, if_neg Bool.false_ne_true]
  exact ofBody?_eq_some_iff.mpr ⟨d.not_mem_words, hwords⟩

/-- The blanks at the end of a text are what trimming takes away there. -/
theorem trimEnd_append {blanks : List Char} (h : ∀ ch ∈ text.getLast?, isBlank ch = false)
    (hblanks : blanks.all isBlank = true) : trimEnd (text ++ blanks) = text := by
  have hreverse : ∀ ch ∈ blanks.reverse, isBlank ch = true := fun ch hmem =>
    List.all_eq_true.mp hblanks ch (List.mem_reverse.mp hmem)
  rw [trimEnd, List.reverse_append, List.dropWhile_append_of_pos hreverse,
    dropWhile_isBlank_of_head?, List.reverse_reverse]
  rwa [List.head?_reverse]

/-- A pair of delimiters has no blanks around it. -/
theorem Delimiters.trim_words (d : Delimiters) :
    trim (d.opening ++ ' ' :: d.closing) = d.opening ++ ' ' :: d.closing := by
  have hhead : ∀ ch ∈ (d.opening ++ ' ' :: d.closing).head?, isBlank ch = false := by
    intro ch hch
    rw [List.head?_append_of_ne_nil _ d.opening_ne_nil] at hch
    exact (d.opening_isDelimiter.2 ch (List.mem_of_mem_head? hch)).1
  have hlast : ∀ ch ∈ (d.opening ++ ' ' :: d.closing).getLast?, isBlank ch = false := by
    intro ch hch
    rw [List.getLast?_append_of_ne_nil _ (List.cons_ne_nil _ _),
      List.getLast?_cons_of_ne_nil d.closing_ne_nil] at hch
    exact (d.closing_isDelimiter.2 ch (List.mem_of_getLast? hch)).1
  have hend := trimEnd_append hlast List.all_nil
  rw [List.append_nil] at hend
  rw [trim, trimStart, dropWhile_isBlank_of_head? hhead, hend]

end

namespace Cursor

variable {c : Cursor} {word buffer taken front rest : List Char}

/-- A word that begins with a character that does not stand before it stands
    nowhere earlier. -/
theorem cut?_of_not_mem {mark last : Char} {body more : List Char} (hmark : mark ∉ body)
    (h : body ++ mark :: word = more ++ [last]) : cut? (mark :: word) more = none := by
  cases hcut : cut? (mark :: word) more with
  | none => rfl
  | some found =>
      exfalso
      rw [eq_of_cut? hcut] at h
      have hlength := congrArg List.length h
      simp only [List.length_append, List.length_cons, List.length_nil] at hlength
      rw [List.append_assoc, List.append_assoc] at h
      -- The first character of the word would stand before the word.
      rcases List.append_eq_append_iff.mp h with ⟨tail, htail, _⟩ | ⟨tail, htail, hrest⟩
      · have hlong := congrArg List.length htail
        rw [List.length_append] at hlong
        omega
      · cases tail with
        | nil =>
            have hlong := congrArg List.length htail
            rw [List.append_nil] at hlong
            omega
        | cons first tail =>
            rw [List.cons_append, List.cons_append, List.cons.injEq] at hrest
            refine hmark ?_
            rw [htail, hrest.1]
            exact List.mem_append_right _ List.mem_cons_self

/-- The content of a delimiter tag that is ahead on the line is read up to the next
    equals sign. -/
theorem contentFrom_ahead (d : Delimiters) (rest : List Char)
    (hdelimiters : c.delimiters = .standard)
    (hahead : c.ahead = d.opening ++ ' ' :: d.closing ++ ['=', '\x7d', '\x7d'] ++ rest) :
    c.contentFrom '=' [] = .ok (.single (.delimiters d),
      ({ c with
        read := (d.opening ++ ' ' :: d.closing ++ ['=', '\x7d', '\x7d']).reverse ++ c.read,
        ahead := rest } : Cursor).changeDelimiters d) := by
  have hword : c.delimiters.word '=' = ['=', '\x7d', '\x7d'] := by
    rw [hdelimiters]
    rfl
  -- The equals sign ends the content, since neither of the delimiters holds one.
  have hread := readUntil_ahead hahead (List.cons_ne_nil _ _)
    fun more ch hmore => cut?_of_not_mem d.not_mem_words hmore
  rw [readUntil] at hread
  rw [contentFrom, hword, hread]
  dsimp only
  rw [if_pos rfl, complete, if_neg (by decide), d.trim_words]
  cases hbody : d.opening ++ ' ' :: d.closing with
  | nil => exact absurd hbody (List.append_ne_nil_of_right_ne_nil _ (List.cons_ne_nil _ _))
  | cons ch body =>
      dsimp only
      rw [if_pos rfl, ← hbody, d.ofBody?_words]

/-- A delimiter tag that is ahead on the line is the next tag, and names its pair. -/
theorem tag_tagText {d : Delimiters} (hdelimiters : c.delimiters = .standard)
    (hahead : c.ahead = d.tagText ++ rest) :
    ∃ opened, c.readUntil c.delimiters.opening = ⟨[], true, opened⟩ ∧
      opened.tag = .ok (.single (.delimiters d),
        Cursor.changeDelimiters d
          { c with read := d.tagText.reverse ++ c.read, ahead := rest }) := by
  have hopening : c.delimiters.opening = ['\x7b', '\x7b'] := by
    rw [hdelimiters]
    rfl
  have hsplit : c.ahead = [] ++ ['\x7b', '\x7b'] ++ ('=' :: (d.opening ++ ' ' :: d.closing ++
      ['=', '\x7d', '\x7d'] ++ rest)) := by
    rw [hahead, Delimiters.tagText]
    simp only [List.cons_append, List.nil_append]
  have hfirst : ∀ more ch, [] ++ ['\x7b', '\x7b'] = more ++ [ch] →
      cut? ['\x7b', '\x7b'] more = none := by
    intro more ch hmore
    have hmore' : ['\x7b'] ++ ['\x7b'] = more ++ [ch] := hmore
    rw [← (List.append_inj' hmore' rfl).1]
    rfl
  -- The two braces are the opening delimiter, with no text before them.
  have hread := readUntil_ahead hsplit (List.cons_ne_nil _ _) hfirst
  rw [← hopening] at hread
  refine ⟨_, hread, ?_⟩
  rw [tag_eq, skipBlanks_ahead rfl (by decide), next?_ahead rfl]
  dsimp only
  rw [if_pos (by decide)]
  refine (contentFrom_ahead d rest ?_ rfl).trans ?_
  · exact hdelimiters
  · rw [hopening, Delimiters.tagText]
    simp only [List.reverse_append, List.reverse_cons, List.reverse_nil, List.append_assoc,
      List.cons_append, List.nil_append]

/-- So it puts its pair in force. -/
theorem stream_tagText {d : Delimiters} (hdelimiters : c.delimiters = .standard)
    (hahead : c.ahead = d.tagText ++ rest) :
    c.stream =
      (({ c with read := d.tagText.reverse ++ c.read, ahead := rest } : Cursor).changeDelimiters
        d).stream := by
  rcases tag_tagText hdelimiters hahead with ⟨opened, hread, htag⟩
  rw [stream_of_tag (congrArg Reading.found hread) (by rw [hread]; exact htag), hread]
  rfl

end Cursor

section

variable {d : Delimiters}

/-- A delimiter tag has no line end. -/
theorem Delimiters.not_mem_tagText (d : Delimiters) : '\n' ∉ d.tagText := by
  intro hmem
  rcases List.mem_append.mp hmem with hmem | hmem
  · rcases List.mem_append.mp hmem with hmem | hmem
    · exact absurd hmem (by decide)
    · rcases List.mem_append.mp hmem with hmem | hmem
      · exact d.not_mem_opening rfl hmem
      · rcases List.mem_cons.mp hmem with hmem | hmem
        · exact absurd hmem (by decide)
        · exact d.not_mem_closing rfl hmem
  · exact absurd hmem (by decide)

/-- The line has its only line end where it ends, and no comment is open there. -/
theorem Delimiters.takeLine_delimiterLine (d : Delimiters) (text : List Char) :
    takeLine .standard false [] (d.tagText ++ ['\n'] ++ text) = (d.tagText ++ ['\n'], text) := by
  refine takeLine_eq ?_ (Or.inr ⟨List.getLast?_concat, ?_⟩)
  · intro front back hsplit hback
    rcases List.eq_nil_or_concat back with rfl | ⟨init, last, rfl⟩
    · exact absurd rfl hback
    · rw [List.concat_eq_append, ← List.cons_append, ← List.append_assoc] at hsplit
      refine absurd ?_ d.not_mem_tagText
      rw [(List.append_inj' hsplit rfl).1]
      exact List.mem_append_right _ List.mem_cons_self
  · rw [commentAfter_append, commentAfter_blank (by decide)]
    have hclosing : d.tagText = ['\x7b', '\x7b', '='] ++ (d.opening ++ ' ' :: d.closing) ++ ['='] ++
        Delimiters.standard.closing := by
      rw [tagText]
      simp only [List.append_assoc]
      rfl
    -- The tag ends with the standard closing delimiter, so any comment is closed.
    rw [hclosing]
    exact commentAfter_closing

/-- A word stands on one side of a character that it does not have. -/
theorem word_cases {word front back before after : List Char} {mark : Char} (hmark : mark ∉ word)
    (hword : word ≠ []) (h : front ++ word ++ back = before ++ mark :: after) :
    word <:+: before ∨ ∃ more, after = more ++ word ++ back := by
  rcases append_word_cases h with ⟨more, rfl, htext⟩ | ⟨init, tail, hinit, hbefore, hsplit, htext⟩ |
    ⟨more, _, hbefore, _⟩
  · cases more with
    | nil =>
        cases word with
        | nil => exact absurd rfl hword
        | cons ch word =>
            rw [List.nil_append, List.cons_append, List.cons.injEq] at htext
            rw [htext.1] at hmark
            exact absurd List.mem_cons_self hmark
    | cons ch more =>
        rw [List.cons_append, List.cons_append, List.cons.injEq] at htext
        exact Or.inr ⟨more, htext.2⟩
  · cases tail with
    | nil =>
        rw [List.append_nil] at hsplit
        exact Or.inl ⟨front, [], by rw [hbefore, hsplit, List.append_nil]⟩
    | cons ch tail =>
        rw [List.cons_append, List.cons.injEq] at htext
        refine absurd ?_ hmark
        rw [hsplit, htext.1]
        exact List.mem_append_right _ List.mem_cons_self
  · exact Or.inl ⟨front, more, hbefore.symm⟩

/-- The line is trimmed to its tag, or left as it is. -/
theorem Delimiters.ofText_delimiterLine (d : Delimiters) :
    (d.StandsAlone ∧ Line.ofText .standard (d.tagText ++ ['\n']) = ⟨[], d.tagText, ['\n']⟩) ∨
      (¬ d.StandsAlone ∧
        Line.ofText .standard (d.tagText ++ ['\n']) = ⟨[], d.tagText ++ ['\n'], []⟩) := by
  have hapart : Delimiters.standard.IsApart := by decide
  by_cases h : d.StandsAlone
  · exact Or.inl ⟨h, Line.IsStandalone.ofText h hapart⟩
  · refine Or.inr ⟨h, ?_⟩
    -- A line that is trimmed is standalone, so this one is not.
    cases honly : onlyTags? .standard (trimStart (d.tagText ++ ['\n'])) with
    | none => rw [Line.ofText, honly]
    | some found =>
        rcases found with ⟨run, trail⟩
        have hline := Line.isStandalone_of_onlyTags? hapart honly
        have htake : (d.tagText ++ ['\n']).takeWhile isBlank = [] :=
          List.takeWhile_cons_of_neg (by decide)
        have htrim : trimStart (d.tagText ++ ['\n']) = d.tagText ++ ['\n'] :=
          List.dropWhile_cons_of_neg (by decide)
        have happend := onlyTags?_append honly
        rcases onlyTags?_eq_some honly with ⟨tail, htail, hrun, hblank⟩
        rcases tagRun?_eq_append htail with ⟨front, hfront⟩
        have hclosing : Delimiters.standard.closing.getLast? = some '\x7d' := rfl
        -- Both the row and the tag end with a brace, so they are the same.
        have hrow : trimEnd (run ++ trail) = run := by
          refine trimEnd_append ?_ hblank
          intro ch hch
          rw [hrun, hfront, ← List.append_assoc,
            List.getLast?_append_of_ne_nil _ Delimiters.standard.closing_ne_nil, hclosing] at hch
          rw [← Option.some.inj hch]
          decide
        have htag : trimEnd (d.tagText ++ ['\n']) = d.tagText := by
          refine trimEnd_append ?_ (by decide)
          intro ch hch
          rw [tagText, List.getLast?_append_of_ne_nil _ (List.cons_ne_nil _ _)] at hch
          rw [← Option.some.inj hch]
          decide
        rw [htrim] at happend
        rw [happend, htag] at hrow
        rw [← hrow] at happend hline
        rw [htake, List.append_cancel_left happend] at hline
        exact absurd hline h

/-- The line is standalone if neither delimiter holds the standard closing one. -/
theorem Delimiters.standsAlone_of_not_infix
    (hopening : ¬ Delimiters.standard.closing <:+: d.opening)
    (hclosing : ¬ Delimiters.standard.closing <:+: d.closing) : d.StandsAlone := by
  refine ⟨rfl, rfl, [d.tagText], List.cons_ne_nil _ _, ?_, List.flatten_singleton.symm⟩
  intro tag hmem
  rw [List.mem_singleton.mp hmem]
  refine ⟨'=' :: (d.opening ++ ' ' :: (d.closing ++ ['=', '\x7d', '\x7d'])), ?_, ?_, ?_, ?_⟩
  · rw [tagText]
    simp only [List.append_assoc, List.cons_append, List.nil_append]
    rfl
  · exact ⟨[], '=', _, rfl, rfl, by decide⟩
  · refine ⟨'=' :: (d.opening ++ ' ' :: (d.closing ++ ['='])), ?_⟩
    simp only [List.append_assoc, List.cons_append]
    rfl
  · intro front back hsplit
    -- The closing delimiter is found in none of the parts but the last.
    have hword : Delimiters.standard.closing ≠ [] := List.cons_ne_nil _ _
    rcases word_cases (by decide) hword (hsplit.symm.trans (List.nil_append _).symm) with
      hin | ⟨more, hmore⟩
    · exact absurd (List.infix_nil.mp hin) hword
    · rcases word_cases (by decide) hword hmore.symm with hin | ⟨more, hmore⟩
      · exact absurd hin hopening
      · rcases word_cases (by decide) hword hmore.symm with hin | ⟨more, hmore⟩
        · exact absurd hin hclosing
        · have hlength := congrArg List.length hmore
          rw [List.length_append, List.length_append] at hlength
          have htwo : Delimiters.standard.closing.length = 2 := rfl
          simp only [List.length_cons, List.length_nil] at hlength
          exact List.eq_nil_of_length_eq_zero (by omega)

end

namespace Cursor

variable {d : Delimiters} {back : List Char}

theorem next?_nextLine {c : Cursor} (hahead : c.ahead = []) (hbeyond : c.beyond ≠ []) :
    c.nextLine.next? = c.next? := by
  rw [next?, next?, atLine_of_ne_nil (ahead_nextLine_ne_nil hbeyond), atLine_of_nil hahead hbeyond]

/-- A line end that comes next is still the end of the line. -/
theorem changeDelimiters_lineEnd {c : Cursor} (htrail : c.trail = []) (hahead : c.ahead = ['\n']) :
    c.changeDelimiters d = { c with delimiters := d } := by
  have htake : takeLine d false c.behind (c.ahead ++ c.beyond) = (['\n'], c.beyond) := by
    rw [hahead, List.singleton_append, takeLine_cons, commentNow_blank (by decide)]
    rfl
  have hnone : onlyTags? d ['\n'] = none := by
    rw [onlyTags?, startsTag_of_isBlank (by decide), if_neg Bool.false_ne_true]
  rw [changeDelimiters, htrail, List.isEmpty_nil, if_pos rfl, htake]
  dsimp only
  rw [hnone, ite_self]
  dsimp only
  rw [← hahead, ← htrail]

/-- Reading a delimiter line leads to its end, with the delimiters in force that it
    names. If the line is not standalone, its line end is text. -/
theorem stream_delimiterLine (d : Delimiters) (back : List Char) :
    ∃ (line : List Char) (place : Cursor),
      (d.StandsAlone ∧ line = [] ∨ ¬ d.StandsAlone ∧ line = ['\n']) ∧
      (ofText .standard (d.tagText ++ ['\n'] ++ back)).stream = (Reader.mk (.text line) place).run ∧
      place.ahead = [] ∧ place.trail.reverse ++ place.behind = (d.tagText ++ ['\n']).reverse ∧
      place.beyond = back ∧ place.delimiters = d := by
  have hbeyond : (ofText .standard (d.tagText ++ ['\n'] ++ back)).beyond ≠ [] :=
    List.append_ne_nil_of_left_ne_nil
      (List.append_ne_nil_of_right_ne_nil _ (List.cons_ne_nil _ _)) _
  have hnext := next?_nextLine (c := ofText .standard (d.tagText ++ ['\n'] ++ back)) rfl hbeyond
  have hline : (ofText .standard (d.tagText ++ ['\n'] ++ back)).nextLine =
      ⟨.standard, [], (Line.ofText .standard (d.tagText ++ ['\n'])).lead, [],
        (Line.ofText .standard (d.tagText ++ ['\n'])).text,
        (Line.ofText .standard (d.tagText ++ ['\n'])).trail, back⟩ := by
    have htake := d.takeLine_delimiterLine back
    simp only [nextLine, ofText, behind, List.reverse_nil, List.nil_append, htake]
  have hstream : (ofText .standard (d.tagText ++ ['\n'] ++ back)).stream =
      (ofText .standard (d.tagText ++ ['\n'] ++ back)).nextLine.stream := by
    have hsome : (ofText .standard (d.tagText ++ ['\n'] ++ back)).next? ≠ none := by
      intro hnone
      exact hbeyond (nil_of_next? hnone).2
    rw [← run_eq_stream, ← run_eq_stream]
    exact Reader.run_congr hnext.symm hsome
  rw [hstream, hline]
  -- Behind the tag, the line end was put aside or is ahead.
  rcases d.ofText_delimiterLine with ⟨halone, htrimmed⟩ | ⟨halone, hwhole⟩
  · rw [htrimmed]
    have htag := stream_tagText (c := ⟨.standard, [], [], [], d.tagText, ['\n'], back⟩) (d := d) rfl
      (List.append_nil _).symm
    rw [changeDelimiters_of_trail (List.cons_ne_nil _ _)] at htag
    refine ⟨[], _, Or.inl ⟨halone, rfl⟩, htag.trans (run_eq_stream _).symm, rfl, ?_, rfl, rfl⟩
    simp only [behind, List.reverse_append, List.reverse_nil, List.append_nil]
  · rw [hwhole]
    have htag := stream_tagText
      (c := ⟨.standard, [], [], [], d.tagText ++ ['\n'], [], back⟩) (d := d) rfl rfl
    rw [changeDelimiters_lineEnd rfl rfl] at htag
    -- The line end is read as text.
    have hblank : '\n' ∉ d.opening := d.not_mem_opening rfl
    have hstep : (Mode.text []).step '\n'
        ⟨d, [], [], '\n' :: (d.tagText.reverse ++ []), [], [], back⟩ =
          .ok (.quiet, ⟨.text ['\n'],
          ⟨d, [], [], '\n' :: (d.tagText.reverse ++ []), [], [], back⟩⟩) := by
      simp only [Mode.step, justRead_of_not_mem d.opening_ne_nil hblank, if_neg Bool.false_ne_true]
    have hmoves := Reader.run_of_moves
      (r := ⟨.text [], ⟨d, [], [], d.tagText.reverse ++ [], ['\n'], [],
      back⟩⟩) ⟨_, _, next?_ahead rfl, hstep⟩
    refine ⟨['\n'], _, Or.inr ⟨halone, rfl⟩,
      htag.trans ((run_eq_stream _).symm.trans hmoves), rfl, ?_, rfl, rfl⟩
    simp only [behind, List.reverse_append, List.reverse_singleton, List.reverse_nil,
      List.append_nil, List.nil_append, List.singleton_append]

end Cursor

namespace Template

variable {d : Delimiters} {source : String} {options : Options}

theorem compileWith_empty (d : Delimiters) (options : Options) :
    compileWith d options "" = .ok ⟨[]⟩ := by
  have hrun : (Reader.mk (.text []) (Cursor.ofText d "".toList)).run = ⟨[], .endOfText 0⟩ :=
    Reader.run_of_none rfl
  rw [compileWith_eq_assemble, ← Cursor.run_eq_stream, hrun]
  rfl

theorem toList_delimiterLine (d : Delimiters) : (delimiterLine d).toList = d.tagText ++ ['\n'] := by
  rw [delimiterLine, Delimiters.tagText]
  simp only [String.toList_append, String.toList_ofList, List.append_assoc]
  rfl

/-- Behind a delimiter line a text compiles to what it compiles to with the delimiters
    that the line names. The line itself adds its line end to the text, unless it is
    standalone. -/
theorem compile_delimiterLine (d : Delimiters) (source : String) (options : Options) :
    ∃ line, (d.StandsAlone ∧ line = [] ∨ ¬ d.StandsAlone ∧ line = ['\n']) ∧
      (∀ failure, compileWith d options source = .error failure →
        compile (delimiterLine d ++ source) options =
          .error (failure.shift (byteLength (delimiterLine d).toList))) ∧
      ∀ template, compileWith d options source = .ok template → ∃ text more,
        Segment.shiftAll (byteLength (delimiterLine d).toList) template.segments =
          textSegments text ++ more ∧
        compile (delimiterLine d ++ source) options =
        .ok ⟨textSegments (line ++ text) ++ more⟩ := by
  rcases Cursor.stream_delimiterLine d source.toList with
    ⟨line, place, hline, hstream, hahead, hbehind, hbeyond, hdelimiters⟩
  refine ⟨line, hline, ?_⟩
  have hreverse : line.reverse = line := by
    rcases hline with ⟨_, rfl⟩ | ⟨_, rfl⟩
    · rfl
    · rfl
  have hcompile : compile (delimiterLine d ++ source) options =
      ((Reader.mk (.text line) place).run.assemble
        ((delimiterLine d).toList ++ source.toList) options .empty).map mk := by
    rw [compile_eq_assemble, stream, String.toList_append, toList_delimiterLine, hstream]
  -- With nothing behind the line, only its line end is left to read.
  by_cases hempty : source.toList = []
  · have hsource : source = "" := by rw [← String.ofList_toList (s := source), hempty]
    have hnone : place.next? = none := Cursor.next?_of_nil hahead (hbeyond.trans hempty)
    have hrun := Reader.run_of_none (r := ⟨.text line, place⟩) hnone
    have hend : (Mode.text line).finish place =
        (Stream.mk [] (.endOfText place.pos)).prepend (textTokens line) := by
      rw [Mode.finish, hreverse, Stream.prepend, List.append_nil]
    rw [hcompile, hrun, hend, Stream.assemble_prepend_text_empty, hsource, compileWith_empty]
    have hnothing : (Stream.mk [] (.endOfText place.pos)).assemble
        ((delimiterLine d).toList ++ "".toList) options .empty = .ok [] := rfl
    refine ⟨fun failure hfailure => ?_, fun template htemplate => ⟨[], [], ?_, ?_⟩⟩
    · simp only [reduceCtorEq] at hfailure
    · rw [← Except.ok.inj htemplate]
      rfl
    · rw [hnothing]
      simp only [List.append_nil, Except.map]
  · have hfront : StartsLine (d.tagText ++ ['\n']).reverse := by
      intro ch hch
      rw [List.head?_reverse, List.getLast?_concat] at hch
      exact (Option.some.inj hch).symm
    have hfirst : ∀ ch ∈ line.head?, ch ∉ d.opening := by
      intro ch hch
      rcases hline with ⟨_, rfl⟩ | ⟨_, rfl⟩
      · exact absurd hch (Option.not_mem_none ch)
      · rw [← Option.some.inj hch]
        exact d.not_mem_opening rfl
    -- The source is read behind the line as it is on its own.
    have hunder : (Reader.mk (.text [])
        ((Cursor.ofText d source.toList).under (d.tagText ++ ['\n']).reverse)).run =
          (Reader.mk (.text []) (Cursor.ofText d source.toList)).run.recode id
            (· + byteLength (delimiterLine d).toList) := by
      rw [toList_delimiterLine, ← byteLength_reverse]
      exact Reader.run_under (r := ⟨.text [], Cursor.ofText d source.toList⟩) hfront (Nat.zero_le _)
    rcases Cursor.run_text_append (c := (Cursor.ofText d source.toList).under
      (d.tagText ++ ['\n']).reverse) hfirst with ⟨text, stream, hright, hboth⟩
    rcases assemble_after options (hunder.symm.trans hright) with ⟨hfails, hmade⟩
    rw [hcompile, Reader.run_eq_under hahead hbehind hbeyond hempty hdelimiters, hboth, hreverse,
      Stream.assemble_prepend_text_empty, compileWith_eq_assemble, ← Cursor.run_eq_stream]
    -- Both sides are made of what the tokens behind the line stand for.
    cases hresult : (Reader.mk (.text []) (Cursor.ofText d source.toList)).run.assemble
        source.toList options .empty with
    | error failure =>
        rw [hfails failure hresult]
        refine ⟨fun failure hfirst => ?_, fun template hfirst => ?_⟩
        · rw [← Except.error.inj hfirst]
          rfl
        · simp only [Except.map, reduceCtorEq] at hfirst
    | ok segments =>
        rcases hmade segments hresult with ⟨more, hmore, hshift⟩
        rw [hmore]
        refine ⟨fun failure hfirst => ?_, fun template hfirst => ⟨text, more, ?_, rfl⟩⟩
        · simp only [Except.map, reduceCtorEq] at hfirst
        · rw [← Except.ok.inj hfirst]
          exact hshift

end Template

/-- A script compiles to what it compiles to when it is read with the delimiters of its
    section from the start, with the spans of its sections moved along. It fails to
    compile if and where that fails, and compiling it breaks off if that breaks off. The
    line that names the delimiters adds nothing if it is standalone, and its line end
    otherwise. It is standalone if neither of the two delimiters holds the standard
    closing one. -/
theorem sectionScript_eq_compileWith (head : SectionHead) (source : String) :
    let d := head.delimiters
    let count := if d = .standard then 0 else byteLength (delimiterLine d).toList
    (∀ error, Template.compileWith d {} source = .error (.illFormed error) →
      sectionScript head source = .error (.illFormed ⟨error.cause, error.offset + count⟩)) ∧
    (∀ panic, Template.compileWith d {} source = .error (.panic panic) →
      sectionScript head source = .error (.panic panic)) ∧
    (∀ template, Template.compileWith d {} source = .ok template →
      ∃ whole, sectionScript head source = .ok whole ∧
        (d = .standard ∨ d.StandsAlone →
          whole.segments = Segment.shiftAll count template.segments) ∧
        (¬ (d = .standard ∨ d.StandsAlone) → Segment.joinTexts whole.segments =
          Segment.joinTexts (.text "\n" :: Segment.shiftAll count template.segments))) ∧
    (¬ Delimiters.standard.closing <:+: d.opening → ¬ Delimiters.standard.closing <:+: d.closing →
      d.StandsAlone) := by
  intro d count
  -- An error is moved along with the script, and a panic tells no place.
  suffices h : (∀ failure, Template.compileWith d {} source = .error failure →
      sectionScript head source = .error (failure.shift count)) ∧
      ∀ template, Template.compileWith d {} source = .ok template →
        ∃ whole, sectionScript head source = .ok whole ∧
          (d = .standard ∨ d.StandsAlone →
            whole.segments = Segment.shiftAll count template.segments) ∧
          (¬ (d = .standard ∨ d.StandsAlone) → Segment.joinTexts whole.segments =
            Segment.joinTexts (.text "\n" :: Segment.shiftAll count template.segments)) from
    ⟨fun error herror => (h.1 _ herror).trans (by rw [Failure.shift_illFormed]),
      fun panic hpanic => h.1 _ hpanic, h.2, Delimiters.standsAlone_of_not_infix⟩
  -- With the standard delimiters in force, there is no line before the script.
  by_cases hstandard : d = .standard
  · have hscript : sectionScript head source = Template.compile source := by
      rw [sectionScript, if_pos hstandard]
    have hcount : count = 0 := if_pos hstandard
    rw [hscript, hcount, hstandard, Template.compile]
    refine ⟨fun failure hfailure => by rw [Failure.shift_zero, hfailure],
      fun template htemplate => ?_⟩
    refine ⟨template, htemplate, fun _ => ?_, fun hnot => absurd (Or.inl rfl) hnot⟩
    exact (Segment.recodeAll_id template.segments).symm
  · have hscript : sectionScript head source = Template.compile (delimiterLine d ++ source) := by
      rw [sectionScript, if_neg hstandard]
    have hcount : count = byteLength (delimiterLine d).toList := if_neg hstandard
    rcases Template.compile_delimiterLine d source {} with ⟨line, hline, hfails, hcompiles⟩
    rw [hscript, hcount]
    refine ⟨hfails, fun template htemplate => ?_⟩
    rcases hcompiles template htemplate with ⟨text, more, hshift, hwhole⟩
    rw [hshift]
    refine ⟨_, hwhole, fun halone => ?_, fun hnot => ?_⟩
    · rcases hline with ⟨_, rfl⟩ | ⟨hnot, _⟩
      · rfl
      · exact absurd (halone.resolve_left hstandard) hnot
    · rcases hline with ⟨halone, _⟩ | ⟨_, rfl⟩
      · exact absurd (Or.inr halone) hnot
      · exact Segment.joinTexts_textSegments ['\n'] text more

end Mustache
