import Mathlib.Data.List.Chain
import Mathlib.Data.List.TakeWhile
import Mustache.Proofs.Nesting

/-!
# Snug Texts

Texts that are read as they stand. A line is trimmed only if it has blanks next
to a tag, at its start or at its end. In a snug text no blank stands directly
before an opening brace or after a closing one, so under the standard
delimiters nothing is ever trimmed, and reading takes the text character by
character.

## Main definitions

* `IsSnug`: A text without blanks next to braces.
* `Cursor.Stands`: A cursor between two parts of a text that is not trimmed.

## Theorems

* `Line.ofText_of_isSnug`: A snug line is left whole.
* `Cursor.Stands.next`: The next character is the first one ahead.
* `Cursor.Stands.readUntil`: A word is read where it first stands.
* `Cursor.Stands.contentTag`: The content of a tag is what stands before the
  closing delimiter.
-/

namespace Mustache

open Text

/-- The two characters may stand next to each other in a snug text. -/
def IsFitting (left right : Char) : Prop :=
  ¬ (isBlank left = true ∧ right = '{') ∧ ¬ (left = '}' ∧ isBlank right = true)

/-- No blank stands directly before an opening brace or after a closing one. -/
def IsSnug (text : List Char) : Prop :=
  List.IsChain IsFitting text

/-- A tag starts with the text, or nothing is left. -/
def Opens (text : List Char) : Prop :=
  text = [] ∨ ∃ rest, text = List.replicate 2 '{' ++ rest

theorem isBlank_openingBrace : isBlank '{' = false := by decide

theorem isBlank_closingBrace : isBlank '}' = false := by decide

/-- A run of tags ends with a closing delimiter. -/
theorem tagRun?_eq_append {d : Delimiters} {text tags rest : List Char}
    (h : tagRun? d text = some (tags, rest)) : ∃ front, tags = front ++ d.closing := by
  fun_induction tagRun? d text generalizing tags rest with
  | case1 text hcut => simp only [reduceCtorEq] at h
  | case2 text content back hcut hstart ih =>
      rcases Option.map_eq_some_iff.mp h with ⟨⟨more, last⟩, hmore, heq⟩
      simp only [Prod.mk.injEq] at heq
      rcases ih hmore with ⟨front, rfl⟩
      exact ⟨content ++ d.closing ++ front, by rw [← heq.1, List.append_assoc _ front]⟩
  | case3 text content back hcut hstart =>
      rw [Option.some.injEq, Prod.mk.injEq] at h
      exact ⟨content, h.1.symm⟩

/-- Neighbours in a snug text fit together. -/
theorem IsSnug.isFitting {front back : List Char} {left right : Char}
    (h : IsSnug (front ++ left :: right :: back)) : IsFitting left right :=
  (List.isChain_append_cons_cons.mp h).2.1

/-- A snug line is left whole. -/
theorem Line.ofText_of_isSnug {line : List Char} (h : IsSnug line) :
    Line.ofText .standard line = ⟨[], line, []⟩ := by
  rw [Line.ofText]
  cases honly : onlyTags? .standard (trimStart line) with
  | none => rfl
  | some found =>
      rcases found with ⟨tags, trail⟩
      rcases onlyTags?_eq_some honly with ⟨run, hrun, htags, hblank⟩
      rcases tagRun?_eq_append hrun with ⟨content, rfl⟩
      have hline : line.takeWhile isBlank ++ (tags ++ trail) = line := by
        rw [onlyTags?_append honly, takeWhile_append_trimStart]
      -- The last blank before the tags would stand before a brace.
      have hlead : line.takeWhile isBlank = [] := by
        rcases List.eq_nil_or_concat (line.takeWhile isBlank) with hnil | ⟨front, c, hfront⟩
        · exact hnil
        · rw [List.concat_eq_append] at hfront
          have hc : isBlank c = true := by
            refine List.mem_takeWhile_imp (l := line) ?_
            rw [hfront]
            exact List.mem_append_right _ (List.mem_singleton_self c)
          have hstarts : front ++ c :: '{' :: ('{' :: content ++ ['}', '}'] ++ trail) = line := by
            rw [hfront, htags] at hline
            rw [← hline]
            simp only [Delimiters.standard, List.append_assoc, List.cons_append, List.nil_append]
          rw [← hstarts] at h
          exact absurd ⟨hc, rfl⟩ h.isFitting.1
      rw [hlead, List.nil_append] at hline
      -- The first blank after the tags would stand after a brace.
      have htrail : trail = [] := by
        cases trail with
        | nil => rfl
        | cons c trail =>
            rw [List.all_cons, Bool.and_eq_true] at hblank
            have hends : ['{', '{'] ++ content ++ ['}'] ++ '}' :: c :: trail = line := by
              rw [← hline, htags]
              simp only [Delimiters.standard, List.append_assoc, List.cons_append, List.nil_append]
            rw [← hends] at h
            exact absurd ⟨rfl, hblank.1⟩ h.isFitting.2
      rw [htrail, List.append_nil] at hline
      simp only [hlead, hline, htrail]

/-- A word cannot have been read right after a character it does not have. -/
theorem justRead_of_not_mem {word buffer : List Char} {c : Char} (hword : word ≠ [])
    (hc : c ∉ word) : justRead word (c :: buffer) = false := by
  rcases List.eq_nil_or_concat word with hnil | ⟨front, last, rfl⟩
  · exact absurd hnil hword
  · rw [List.concat_eq_append] at hc ⊢
    have hne : (last == c) = false := by
      rw [beq_eq_false_iff_ne]
      rintro rfl
      exact hc (List.mem_append_right _ (List.mem_singleton_self last))
    rw [justRead, List.reverse_append, List.reverse_singleton, List.singleton_append,
      List.isPrefixOf_cons_cons, hne, Bool.false_and]

/-- A row of one character is complete when it was read as often as asked for. -/
theorem justRead_replicate {buffer : List Char} {c : Char} (hc : c ∉ buffer) (n k : Nat) :
    justRead (List.replicate n c) (List.replicate k c ++ buffer) = decide (n ≤ k) := by
  rw [justRead, List.reverse_replicate, Bool.eq_iff_iff, List.isPrefixOf_iff_prefix,
    decide_eq_true_iff]
  constructor
  · rintro ⟨more, hmore⟩
    -- With fewer of them read, the next one of the word would be in the buffer.
    rcases Nat.lt_or_ge k n with hlt | hle
    · rw [show n = k + (n - k - 1 + 1) by omega, List.replicate_add, List.append_assoc,
        List.append_cancel_left_eq, List.replicate_succ] at hmore
      rw [← hmore] at hc
      exact absurd List.mem_cons_self hc
    · exact hle
  · intro hle
    rw [show k = n + (k - n) by omega, List.replicate_add, List.append_assoc]
    exact ⟨_, rfl⟩

/-- Without blanks there is nothing to trim. -/
theorem trim_eq_self {text : List Char} (h : ∀ c ∈ text, isBlank c = false) : trim text = text := by
  have hfirst : text.dropWhile isBlank = text :=
    dropWhile_isBlank_of_head? fun c hc => h c (List.mem_of_mem_head? hc)
  have hlast : text.reverse.dropWhile isBlank = text.reverse :=
    dropWhile_isBlank_of_head? fun c hc => h c (List.mem_reverse.mp (List.mem_of_mem_head? hc))
  rw [trim, trimStart, hfirst, trimEnd, hlast, List.reverse_reverse]

namespace Cursor

/-- Reading on goes from character to character until the word was read. -/
theorem readFrom_of_next {c after : Cursor} {ch : Char} (word buffer : List Char)
    (h : c.next? = some (ch, after)) :
    readFrom word buffer c =
      if justRead word (ch :: buffer) then
        ⟨((ch :: buffer).drop word.length).reverse, true, after⟩
      else readFrom word (ch :: buffer) after := by
  rw [readFrom]
  split
  case h_1 h' => exact absurd (h'.symm.trans h) (Option.some_ne_none _).symm
  case h_2 ch' after' h' =>
    rw [h, Option.some.injEq, Prod.mk.injEq] at h'
    rw [h'.1, h'.2]

theorem readFrom_of_none {c : Cursor} (word buffer : List Char) (h : c.next? = none) :
    readFrom word buffer c = ⟨buffer.reverse, false, c⟩ := by
  rw [readFrom]
  split
  case h_1 => rfl
  case h_2 ch after h' => exact absurd (h'.symm.trans h) (Option.some_ne_none _)

/-- The cursor stands between two parts of a snug text under the standard
    delimiters, on a line that is not trimmed. -/
structure Stands (c : Cursor) (front text : List Char) : Prop where
  isSnug : IsSnug (front ++ text)
  delimiters_eq : c.delimiters = .standard
  lead_eq : c.lead = []
  trail_eq : c.trail = []
  behind_eq : c.behind = front.reverse
  ahead_eq : c.ahead ++ c.beyond = text

namespace Stands

variable {c : Cursor} {front text : List Char} {ch : Char}

theorem pos_eq (h : c.Stands front text) : c.pos = byteLength front := by
  rw [pos, h.behind_eq, byteLength_reverse]

/-- A text is stood before when nothing of it was read. -/
theorem ofText (h : IsSnug text) : (ofText .standard text).Stands [] text :=
  ⟨h, rfl, rfl, rfl, rfl, rfl⟩

/-- The next character is the first one of the second part, and goes over to the
    first part. -/
theorem next (h : c.Stands front (ch :: text)) :
    ∃ after, c.next? = some (ch, after) ∧ after.Stands (front ++ [ch]) text := by
  have hsnug : IsSnug (front ++ [ch] ++ text) := by
    rw [List.append_assoc]
    exact h.isSnug
  -- At the end of a line the next one is taken, and it is not trimmed either.
  by_cases hahead : c.ahead = []
  · have hbeyond : c.beyond = ch :: text := by
      rw [← h.ahead_eq, hahead, List.nil_append]
    have hne : c.beyond ≠ [] := by
      rw [hbeyond]
      exact List.cons_ne_nil _ _
    have hnext := ahead_nextLine_ne_nil hne
    have htake := takeLine_append c.delimiters false (c.trail.reverse ++ c.behind) c.beyond
    rw [next?, atLine_of_nil hahead hne]
    rw [nextLine] at hnext ⊢
    generalize takeLine c.delimiters false (c.trail.reverse ++ c.behind) c.beyond = taken
      at htake hnext ⊢
    rcases taken with ⟨line, beyond⟩
    have hline : IsSnug line :=
      h.isSnug.infix ⟨front, beyond, by rw [List.append_assoc, htake, hbeyond]⟩
    rw [h.delimiters_eq, Line.ofText_of_isSnug hline] at hnext ⊢
    cases line with
    | nil => exact absurd rfl hnext
    | cons ch' line =>
        rw [hbeyond, List.cons_append, List.cons.injEq] at htake
        rw [htake.1]
        refine ⟨_, rfl, hsnug, rfl, rfl, rfl, ?_, htake.2⟩
        simp only [behind, List.reverse_nil, List.append_nil, h.trail_eq, List.nil_append,
          ← h.behind_eq, List.reverse_append, List.reverse_singleton, List.singleton_append]
  · -- On the line there is something ahead, which is read.
    rw [next?, atLine_of_ne_nil hahead]
    cases hc : c.ahead with
    | nil => exact absurd hc hahead
    | cons ch' ahead =>
        have hahead' := h.ahead_eq
        rw [hc, List.cons_append, List.cons.injEq] at hahead'
        rw [hahead'.1]
        refine ⟨_, rfl, hsnug, h.delimiters_eq, h.lead_eq, h.trail_eq, ?_, hahead'.2⟩
        rw [List.reverse_append, ← h.behind_eq]
        rfl

theorem next_nil (h : c.Stands front []) : c.next? = none := by
  have hnil := List.append_eq_nil_iff.mp h.ahead_eq
  exact next?_of_nil hnil.1 hnil.2

/-- A body without the characters of the word only fills the buffer. -/
theorem readFrom_body {word : List Char} (hword : word ≠ []) (body : List Char)
    (hbody : ∀ x ∈ body, x ∉ word) (h : c.Stands front (body ++ text)) :
    ∃ after, after.Stands (front ++ body) text ∧
      ∀ buffer, readFrom word buffer c = readFrom word (body.reverse ++ buffer) after := by
  induction body generalizing c front with
  | nil => exact ⟨c, by rwa [List.append_nil], fun buffer => rfl⟩
  | cons x body ih =>
      rcases h.next with ⟨after, hnext, hafter⟩
      rcases ih (fun y hy => hbody y (List.mem_cons_of_mem _ hy)) hafter with ⟨last, hlast, hread⟩
      refine ⟨last, by rwa [List.append_assoc, List.singleton_append] at hlast, ?_⟩
      intro buffer
      have hjust : justRead word (x :: buffer) = false :=
        justRead_of_not_mem hword (hbody x List.mem_cons_self)
      rw [readFrom_of_next word buffer hnext, hjust, if_neg Bool.false_ne_true, hread,
        List.reverse_cons, List.append_assoc, List.singleton_append]

/-- A word of one character is found when the last of its characters is read,
    whatever was read before. -/
theorem readFrom_word {n : Nat} (m : Nat) {k : Nat} (hn : k + (m + 1) = n)
    (h : c.Stands front (List.replicate (m + 1) ch ++ text)) :
    ∃ after, after.Stands (front ++ List.replicate (m + 1) ch) text ∧
      ∀ buffer, ch ∉ buffer → readFrom (List.replicate n ch) (List.replicate k ch ++ buffer) c =
        ⟨buffer.reverse, true, after⟩ := by
  -- The word is `n` times one character. With `k` of them in the buffer and the other
  -- `m + 1` ahead, it is found when the last of these is read. The induction moves one
  -- character at a time from the text to the buffer.
  induction m generalizing c front k with
  | zero =>
      rcases h.next with ⟨after, hnext, hafter⟩
      refine ⟨after, hafter, ?_⟩
      intro buffer hbuffer
      -- This is the last one, and the word is complete.
      have hjust : justRead (List.replicate n ch) (List.replicate (k + 1) ch ++ buffer) = true := by
        rw [justRead_replicate hbuffer, decide_eq_true_iff]
        omega
      rw [readFrom_of_next _ _ hnext, ← List.cons_append, ← List.replicate_succ, if_pos hjust,
        List.length_replicate, ← hn, List.drop_left' List.length_replicate]
  | succ m ih =>
      rw [List.replicate_succ, List.cons_append] at h
      rcases h.next with ⟨after, hnext, hafter⟩
      rcases @ih after (front ++ [ch]) (k + 1) (by omega) hafter with ⟨last, hlast, hread⟩
      refine ⟨last, by rwa [List.append_assoc, List.singleton_append] at hlast, ?_⟩
      intro buffer hbuffer
      have hjust : justRead (List.replicate n ch) (List.replicate (k + 1) ch ++ buffer) =
          false := by
        rw [justRead_replicate hbuffer, decide_eq_false_iff_not]
        omega
      rw [readFrom_of_next _ _ hnext, ← List.cons_append, ← List.replicate_succ, hjust,
        if_neg Bool.false_ne_true, hread buffer hbuffer]

/-- A word made of one character is read where it first stands. -/
theorem readUntil_word (body : List Char) (hbody : ch ∉ body) (m : Nat)
    (h : c.Stands front (body ++ (List.replicate (m + 1) ch ++ text))) :
    ∃ after, after.Stands (front ++ body ++ List.replicate (m + 1) ch) text ∧
      c.readUntil (List.replicate (m + 1) ch) = ⟨body, true, after⟩ := by
  have hdisjoint : ∀ x ∈ body, x ∉ List.replicate (m + 1) ch := by
    intro x hx hmem
    rw [List.eq_of_mem_replicate hmem] at hx
    exact hbody hx
  have hword : List.replicate (m + 1) ch ≠ [] := List.cons_ne_nil _ _
  -- The body is read into the buffer, and then the word.
  rcases readFrom_body hword body hdisjoint h with ⟨middle, hmiddle, hskip⟩
  rcases readFrom_word m (Nat.zero_add _) hmiddle with ⟨after, hafter, hread⟩
  refine ⟨after, hafter, ?_⟩
  have hlast := hread body.reverse (by rwa [List.mem_reverse])
  rw [List.replicate_zero, List.nil_append, List.reverse_reverse] at hlast
  rw [readUntil, hskip, List.append_nil, hlast]

/-- There is no blank to pass over. -/
theorem skipBlanks_eq (hch : isBlank ch = false) (h : c.Stands front (ch :: text)) :
    c.skipBlanks = c := by
  rcases h.next with ⟨after, hnext, _⟩
  rw [skipBlanks]
  split
  case h_1 => rfl
  case h_2 ch' after' h' =>
    rw [hnext, Option.some.injEq, Prod.mk.injEq] at h'
    rw [← h'.1, hch, if_neg Bool.false_ne_true]

/-- The content of a tag is what stands before the closing delimiter. -/
theorem contentTag_eq {content : List Char} (k : Nat) (hne : content ≠ [])
    (hcontent : ∀ x ∈ content, isBlank x = false ∧ x ≠ '}')
    (h : c.Stands front (content ++ (List.replicate (k + 2) '}' ++ text))) :
    ∃ after, after.Stands (front ++ content ++ List.replicate (k + 2) '}') text ∧
      ∀ make, c.contentTag (List.replicate k '}') make = .ok (make content after, after) := by
  rcases readUntil_word content (fun hmem => (hcontent _ hmem).2 rfl) (k + 1) h with
    ⟨after, hafter, hread⟩
  have hword : List.replicate k '}' ++ c.delimiters.closing = List.replicate (k + 1 + 1) '}' := by
    rw [h.delimiters_eq, List.replicate_add k 2]
    rfl
  have htrim : trim content = content := trim_eq_self fun x hx => (hcontent x hx).1
  refine ⟨after, hafter, fun make => ?_⟩
  simp only [contentTag, Cursor.content, hword, hread, if_true, htrim]

end Stands

/-- When two cursors read up to the same tag, the one with text before the tag
    has the token of this text in addition. -/
theorem stream_of_readUntil_eq {c c' rest : Cursor} {text : List Char} {found : Bool}
    (h : c.readUntil c.delimiters.opening = ⟨text, found, rest⟩)
    (h' : c'.readUntil c'.delimiters.opening = ⟨[], found, rest⟩) :
    c.stream = c'.stream.prepend (textTokens text) := by
  cases found with
  | false =>
      have hstream := stream_of_not_found (congrArg Reading.found h)
      have hstream' := stream_of_not_found (congrArg Reading.found h')
      rw [hstream, hstream', h, h', Stream.prepend, textTokens, List.append_nil]
  | true =>
      have hfound := congrArg Reading.found h
      have hfound' := congrArg Reading.found h'
      have hrest := congrArg (fun reading : Reading => reading.rest.tag) h
      have hrest' := congrArg (fun reading : Reading => reading.rest.tag) h'
      cases htag : rest.tag with
      | error error =>
          rw [stream_of_error hfound (hrest.trans htag),
            stream_of_error hfound' (hrest'.trans htag), h, h', Stream.prepend, textTokens,
            List.append_nil]
      | ok result =>
          rw [stream_of_tag hfound (hrest.trans htag), stream_of_tag hfound' (hrest'.trans htag),
            h, h', Stream.prepend, Stream.prepend, Stream.prepend, textTokens,
            List.nil_append, List.append_assoc]

/-- Text without a brace in front of a tag, or of the end, is one token. -/
theorem Stands.stream_text {c : Cursor} {front text : List Char} (body : List Char)
    (hbody : '{' ∉ body) (hopens : Opens text) (h : c.Stands front (body ++ text)) :
    ∃ after : Cursor, after.Stands (front ++ body) text ∧
      c.stream = after.stream.prepend (textTokens body) := by
  have hdisjoint : ∀ x ∈ body, x ∉ Delimiters.standard.opening := by
    intro x hx hmem
    rw [show Delimiters.standard.opening = List.replicate 2 '{' from rfl] at hmem
    rw [List.eq_of_mem_replicate hmem] at hx
    exact hbody hx
  rcases readFrom_body Delimiters.standard.opening_ne_nil body hdisjoint h with
    ⟨middle, hmiddle, hskip⟩
  refine ⟨middle, hmiddle, ?_⟩
  -- From the end of the body on, reading finds the end or the tag right away.
  rcases hopens with rfl | ⟨rest, rfl⟩
  · have hnone := hmiddle.next_nil
    have hread : c.readUntil c.delimiters.opening = ⟨body, false, middle⟩ := by
      rw [h.delimiters_eq, readUntil, hskip, readFrom_of_none _ _ hnone, List.append_nil,
        List.reverse_reverse]
    have hread' : middle.readUntil middle.delimiters.opening = ⟨[], false, middle⟩ := by
      rw [readUntil, readFrom_of_none _ _ hnone, List.reverse_nil]
    exact stream_of_readUntil_eq hread hread'
  · rcases readFrom_word 1 (Nat.zero_add _) hmiddle with ⟨after, _, hword⟩
    have hread : c.readUntil c.delimiters.opening = ⟨body, true, after⟩ := by
      have hlast := hword body.reverse (by rwa [List.mem_reverse])
      rw [List.replicate_zero, List.nil_append, List.reverse_reverse] at hlast
      rw [h.delimiters_eq, readUntil, hskip, List.append_nil]
      exact hlast
    have hread' : middle.readUntil middle.delimiters.opening = ⟨[], true, after⟩ := by
      rw [hmiddle.delimiters_eq, readUntil]
      exact hword [] List.not_mem_nil
    exact stream_of_readUntil_eq hread hread'

theorem Stands.stream_nil {c : Cursor} {front : List Char} (h : c.Stands front []) :
    c.stream = ⟨[], .endOfText (byteLength front)⟩ := by
  have hread : c.readUntil c.delimiters.opening = ⟨[], false, c⟩ := by
    rw [readUntil, readFrom_of_none _ _ h.next_nil, List.reverse_nil]
  rw [stream_of_not_found (congrArg Reading.found hread), hread, h.pos_eq]
  rfl

end Cursor

end Mustache
