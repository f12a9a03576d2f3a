import Mathlib.Data.List.Perm.Subperm
import Mustache.Proofs.Lossless
import Mustache.Proofs.Recoding

/-!
# Progress of Reading

Why reading a template ends, told by byte offsets. A sigil may be given back, a
change of delimiters may take a line anew, and the recursion for a section goes on
with the place that the section around it left off. But a tag is found by a
delimiter that was read, and what is given back is less than what is read again, so
every tag ends behind the place where it was looked for.

Reading the segments of a section is a loop with a recursion in it. To count the
rounds of the loop, through all sections, reading is written once more with a log of
them. Without the log it is the same reading. In the log each round starts behind
the one before it, whatever section they belong to, and that bounds all that can be
counted: the rounds by the offsets at which they start, and the open sections of a
round by its offset.

## Main definitions

* `Round`: One time round the loop.
* `Ascends`: Rounds that follow each other between two offsets.
* `Cursor.segmentsLogged`: Reading segments with a log of the rounds.
* `Cursor.ReadsTag`: Reading a tag with the section that it opens.
* `Window.tagsStopLogged?`: The search for the end of a run of silent tags, with a
  log of the delimiters it comes to.

## Theorems

* `Cursor.segmentsLogged_fst`: The log changes nothing.
* `Cursor.pos_lt_of_tag`: A tag that is read is behind the reader.
* `Cursor.ascends_segmentsLogged`: The rounds of a reading follow each other.
* `Window.hops_tagsStopLogged?`: So do the hops of the search.
* `Template.reading_advances`: All reading moves forward, so it is bounded.
-/

namespace Mustache

open Text

/-- One time round the loop that reads the segments of a section. -/
structure Round where
  /-- How many sections are open. -/
  depth : Nat
  /-- The byte offset at which the text before the next tag starts. -/
  start : Nat
  /-- The byte offset up to which it was read. -/
  stop : Nat
  /-- Whether there is a next tag. -/
  found : Bool
deriving DecidableEq

/-- The round lies between two offsets. It goes forward if it finds a tag, and no
    more sections are open than bytes were read before it. -/
structure Round.IsWithin (round : Round) (lo hi : Nat) : Prop where
  le_start : lo ≤ round.start
  start_le : round.start ≤ round.stop
  start_lt : round.found = true → round.start < round.stop
  stop_lt : round.stop < hi
  depth_le : round.depth ≤ round.start

/-- The rounds lie between two offsets, each behind the ones before it. -/
structure Ascends (lo hi : Nat) (rounds : List Round) : Prop where
  pairwise : rounds.Pairwise fun round later => round.stop < later.start
  within : ∀ round ∈ rounds, round.IsWithin lo hi

section

variable {lo mid hi : Nat} {round : Round} {rounds more : List Round}

theorem Round.IsWithin.of_le (h : round.IsWithin mid hi) (hlo : lo ≤ mid) : round.IsWithin lo hi :=
  ⟨hlo.trans h.le_start, h.start_le, h.start_lt, h.stop_lt, h.depth_le⟩

theorem Ascends.singleton (h : round.IsWithin lo hi) : Ascends lo hi [round] :=
  ⟨List.pairwise_singleton _ _, List.forall_mem_singleton.mpr h⟩

/-- A round may come before others that start behind it. -/
theorem Ascends.cons (hround : round.IsWithin lo hi) (h : Ascends mid hi rounds)
    (hmid : round.stop < mid) : Ascends lo hi (round :: rounds) := by
  have hlo : lo ≤ mid := hround.le_start.trans (hround.start_le.trans (Nat.le_of_lt hmid))
  refine ⟨List.pairwise_cons.mpr ⟨?_, h.pairwise⟩, List.forall_mem_cons.mpr ⟨hround, ?_⟩⟩
  · exact fun later hmem => hmid.trans_le (h.within later hmem).le_start
  · exact fun later hmem => (h.within later hmem).of_le hlo

/-- So may rounds that follow each other. -/
theorem Ascends.append (h : Ascends lo hi rounds) (hmore : Ascends mid hi more) (hlo : lo ≤ mid)
    (hmid : ∀ round ∈ rounds, round.stop < mid) : Ascends lo hi (rounds ++ more) := by
  refine ⟨List.pairwise_append.mpr ⟨h.pairwise, hmore.pairwise, ?_⟩,
    List.forall_mem_append.mpr ⟨h.within, ?_⟩⟩
  · exact fun round hround later hlater =>
      (hmid round hround).trans_le (hmore.within later hlater).le_start
  · exact fun later hmem => (hmore.within later hmem).of_le hlo

/-- There are at most as many rising numbers as the bound allows. -/
theorem length_le_of_rises {offsets : List Nat} (h : offsets.Pairwise (· < ·))
    (hlt : ∀ offset ∈ offsets, offset < hi) : offsets.length ≤ hi := by
  -- Numbers that rise are different, and there are only so many below a bound.
  have hnodup : offsets.Nodup := h.imp fun hlt => Nat.ne_of_lt hlt
  have hsubset : offsets ⊆ List.range hi := fun offset hmem => List.mem_range.mpr (hlt offset hmem)
  have hle := (hnodup.subperm hsubset).length_le
  rwa [List.length_range] at hle

/-- Of rounds that start before a bound there are at most as many as it says. -/
theorem Ascends.length_le_of_sublist {bound : Nat} (h : Ascends lo hi rounds)
    (hmore : more.Sublist rounds) (hlt : ∀ round ∈ more, round.start < bound) :
    more.length ≤ bound := by
  -- Each round starts behind the ones before it, so the starts rise.
  have hrises : (more.map Round.start).Pairwise (· < ·) := by
    rw [List.pairwise_map]
    refine (h.pairwise.sublist hmore).imp_of_mem fun {round later} hround _ hstop => ?_
    exact (h.within round (hmore.subset hround)).start_le.trans_lt hstop
  have hle := length_le_of_rises hrises (List.forall_mem_map.mpr hlt)
  rwa [List.length_map] at hle

/-- There are at most as many rounds as there are offsets. -/
theorem Ascends.length_le (h : Ascends lo hi rounds) : rounds.length ≤ hi :=
  h.length_le_of_sublist (List.Sublist.refl rounds) fun round hmem =>
    (h.within round hmem).start_le.trans_lt (h.within round hmem).stop_lt

/-- One less of them can find a tag. -/
theorem Ascends.countP_le (h : Ascends lo (hi + 1) rounds) : rounds.countP Round.found ≤ hi := by
  rw [List.countP_eq_length_filter]
  refine h.length_le_of_sublist List.filter_sublist fun round hmem => ?_
  rcases List.mem_filter.mp hmem with ⟨hround, hfound⟩
  have hwithin := h.within round hround
  exact (hwithin.start_lt hfound).trans_le (Nat.le_of_lt_succ hwithin.stop_lt)

end

namespace Cursor

/-- The segments from the cursor on, as `segments` reads them, together with the
    rounds that it takes, those for the sections inside included. There are `depth`
    sections open. -/
def segmentsLogged (source : List Char) (options : Options) (enclosing : Option String)
    (depth : Nat) (c : Cursor) : Except Failure (Content c) × List Round :=
  let reading := c.readUntil c.delimiters.opening
  let round : Round := ⟨depth, c.pos, reading.rest.pos, reading.found⟩
  if found : reading.found = true then
    match htag : reading.rest.tag with
    | .error error => (.error (.illFormed error), [round])
    | .ok (.closing name, after) =>
      if enclosing = some name then
        (.ok ⟨textSegments reading.text, after.bodyEnd reading.rest.tagStart, after,
          Nat.le_of_lt (remaining_tag_of_found found htag)⟩, [round])
      else (.error (.illFormed ⟨.unexpectedEndOfSection name, after.pos⟩), [round])
    | .ok (.single tag, after) =>
      have hafter := remaining_tag_of_found found htag
      let more := segmentsLogged source options enclosing depth after
      (match more.1 with
        | .error failure => .error failure
        | .ok content =>
          .ok ⟨textSegments reading.text ++ (tag.segments ++ content.segments), content.bodyEnd,
            content.rest, Nat.le_trans content.rest_le (Nat.le_of_lt hafter)⟩,
        round :: more.2)
    | .ok (.opening kind name, after) =>
      have hafter := remaining_tag_of_found found htag
      let inner := segmentsLogged source options (some name) (depth + 1) after
      match inner.1 with
      | .error failure => (.error failure, round :: inner.2)
      | .ok body =>
        have hbody := Nat.lt_of_le_of_lt body.rest_le hafter
        match after.openedSegment? source options kind name body with
        | none => (.error (.panic .splitCharacter), round :: inner.2)
        | some segment =>
          let more := segmentsLogged source options enclosing depth body.rest
          (match more.1 with
            | .error failure => .error failure
            | .ok content =>
              .ok ⟨textSegments reading.text ++ (segment :: content.segments), content.bodyEnd,
                content.rest, Nat.le_trans content.rest_le (Nat.le_of_lt hbody)⟩,
            round :: (inner.2 ++ more.2))
  else
    match enclosing with
    | none =>
      (.ok ⟨textSegments reading.text, reading.rest.pos, reading.rest, remaining_readUntil _ c⟩,
        [round])
    | some _ => (.error (.illFormed ⟨.unexpectedEndOfInput, reading.rest.pos⟩), [round])
termination_by c.remaining
decreasing_by all_goals assumption

/-- The log changes nothing about what is read. -/
theorem segmentsLogged_fst (source : List Char) (options : Options) (enclosing : Option String)
    (depth : Nat) (c : Cursor) :
    (c.segmentsLogged source options enclosing depth).1 = c.segments source options enclosing := by
  -- Both take the same cases, round by round.
  fun_induction segmentsLogged source options enclosing depth c with
  | case1 enclosing depth c reading round found error htag => rw [segments_of_error found htag]
  | case2 depth c reading round found name after htag =>
      rw [segments_of_closing found htag, if_pos rfl]
  | case3 enclosing depth c reading round found name after htag hname =>
      rw [segments_of_closing found htag, if_neg hname]
  | case4 enclosing depth c reading round found tag after htag hafter more ih =>
      have hsingle := @segments_of_single source options enclosing c after tag found htag
      rw [← ih] at hsingle
      exact hsingle.symm
  | case5 enclosing depth c reading round found kind name after htag hafter inner error hinner ih =>
      rw [segments_of_opening found htag, ← ih, hinner]
  | case6 enclosing depth c reading round found kind name after htag hafter inner body hinner hbody
      hsegment ih =>
      rw [segments_of_opening found htag, ← ih, hinner]
      simp only [hsegment]
  | case7 enclosing depth c reading round found kind name after htag hafter inner body hinner hbody
      segment hsegment more ih ihmore =>
      rw [segments_of_opening found htag, ← ih, hinner]
      simp only [hsegment, ← ihmore]
      rfl
  | case8 depth c reading round found => rw [segments_of_not_found found]
  | case9 depth c reading round found => rw [segments_of_not_found found]

section

variable {source : List Char} {options : Options} {c after : Cursor}

/-- No step of a reader goes back. -/
theorem pos_le_of_reaches (h : Reaches c after) : c.pos ≤ after.pos := by
  induction h with
  | refl => exact Nat.le_refl _
  | tail _ hstep ih =>
      refine ih.trans ?_
      cases hstep with
      | next hnext => exact Nat.le_of_lt (pos_lt_of_next? hnext)
      | change new => exact Nat.le_of_eq (pos_changeDelimiters new _).symm

/-- A word that is found is behind the reader. -/
theorem pos_lt_readFrom_of_found {word buffer : List Char}
    (found : (readFrom word buffer c).found = true) :
    c.pos < (readFrom word buffer c).rest.pos := by
  fun_induction readFrom word buffer c with
  | case1 => exact absurd found Bool.false_ne_true
  | case2 buffer c ch after hnext hword => exact pos_lt_of_next? hnext
  | case3 buffer c ch after hnext hword ih => exact (pos_lt_of_next? hnext).trans (ih found)

/-- The content of a tag ends behind the place where it starts. -/
theorem pos_lt_of_contentTag {mark : List Char} {make : List Char → Cursor → Tag} {tag : Tag}
    (h : c.contentTag mark make = .ok (tag, after)) : c.pos < after.pos := by
  rcases contentTag_eq_ok h with ⟨content, hcontent, _⟩
  unfold Cursor.content at hcontent
  -- The closing delimiter of the tag is found in it.
  dsimp only at hcontent
  split at hcontent
  case isFalse => cases hcontent
  case isTrue found =>
    split at hcontent
    case h_1 => cases hcontent
    case h_2 =>
      rw [← (Prod.mk.inj (Except.ok.inj hcontent)).2]
      exact pos_lt_readFrom_of_found found

/-- A tag that is read is behind the reader, even if its sigil was given back. -/
theorem pos_lt_of_tag {tag : Tag} (h : c.tag = .ok (tag, after)) : c.pos < after.pos := by
  -- Passing over blanks may not move the reader, and reading the sigil moves it if it
  -- is kept.
  have hskip := pos_le_of_reaches (reaches_skipBlanks c)
  unfold Cursor.tag at h
  dsimp only at h
  split at h
  case h_1 => cases h
  case h_2 sigil inner hnext =>
    have hinner := hskip.trans_lt (pos_lt_of_next? hnext)
    split at h
    case h_2 => exact hinner.trans_le (pos_le_of_reaches (reaches_commentTag h))
    case h_3 => exact hinner.trans_le (pos_le_of_reaches (reaches_delimitersTag h))
    -- Either the sigil is kept, or it is given back and read again with the content.
    all_goals
      first
      | exact hinner.trans (pos_lt_of_contentTag h)
      | exact hskip.trans_lt (pos_lt_of_contentTag h)

/-- A tag was opened at the cursor, and reading it, with the section that it opens
    if it opens one, ends at the place `after`. -/
inductive ReadsTag (source : List Char) (options : Options) (c : Cursor) : Cursor → Prop
  | single {tag : Single} {after : Cursor} (h : c.tag = .ok (.single tag, after)) :
      ReadsTag source options c after
  | closing {name : String} {after : Cursor} (h : c.tag = .ok (.closing name, after)) :
      ReadsTag source options c after
  | opening {kind : Opening} {name : String} {after : Cursor} {content : Content after}
      (h : c.tag = .ok (.opening kind name, after))
      (hcontent : after.segments source options (some name) = .ok content) :
      ReadsTag source options c content.rest

/-- Reading a tag with its section moves the reader. -/
theorem ReadsTag.pos_lt (h : c.ReadsTag source options after) : c.pos < after.pos := by
  cases h with
  | single h => exact pos_lt_of_tag h
  | closing h => exact pos_lt_of_tag h
  | opening h hcontent =>
      exact (pos_lt_of_tag h).trans_le (pos_le_of_reaches (reaches_segments _ _ _ hcontent))

/-- The round in which a tag is looked for at the cursor. -/
theorem isWithin_round {depth : Nat} (h : c.toText = source) (hdepth : depth ≤ c.pos) :
    Round.IsWithin ⟨depth, c.pos, (c.readUntil c.delimiters.opening).rest.pos,
      (c.readUntil c.delimiters.opening).found⟩ c.pos (byteLength source + 1) where
  le_start := Nat.le_refl _
  start_le := pos_le_of_reaches (reaches_readUntil _ c)
  start_lt := pos_lt_readFrom_of_found
  stop_lt := Nat.lt_succ_of_le (pos_le (by rw [toText_of_reaches (reaches_readUntil _ c), h]))
  depth_le := hdepth

/-- A tag lets one more section be open, as reading it takes at least a byte. -/
theorem lt_pos_of_tag {tag : Tag} {depth : Nat} (h : c.toText = source) (hdepth : depth ≤ c.pos)
    (htag : (c.readUntil c.delimiters.opening).rest.tag = .ok (tag, after)) :
    after.toText = source ∧ depth < after.pos := by
  have hread := reaches_readUntil c.delimiters.opening c
  refine ⟨by rw [toText_of_reaches (hread.trans (reaches_tag htag)), h], ?_⟩
  exact hdepth.trans_lt ((pos_le_of_reaches hread).trans_lt (pos_lt_of_tag htag))

theorem reaches_segmentsLogged {enclosing : Option String} {depth : Nat} {content : Content c}
    (h : (c.segmentsLogged source options enclosing depth).1 = .ok content) :
    Reaches c content.rest := by
  rw [segmentsLogged_fst] at h
  exact reaches_segments enclosing c content h

/-- The rounds for a section lie before the end of its closing tag. -/
theorem stop_lt_of_segmentsLogged (enclosing : Option String) (depth : Nat) (c : Cursor) :
    ∀ content, (c.segmentsLogged source options enclosing depth).1 = .ok content →
      enclosing ≠ none → ∀ round ∈ (c.segmentsLogged source options enclosing depth).2,
        round.stop < content.rest.pos := by
  -- The last round finds the closing tag, and all other rounds come before it.
  fun_induction segmentsLogged source options enclosing depth c with
  | case2 depth c reading round found name after htag =>
      intro content h _
      rw [← Except.ok.inj h, List.forall_mem_singleton]
      exact pos_lt_of_tag htag
  | case4 enclosing depth c reading round found tag after htag hafter more ih =>
      intro content h henclosing
      cases hmore : more.1 with
      | error error =>
          rw [hmore] at h
          cases h
      | ok rest =>
          rw [hmore] at h
          rw [← Except.ok.inj h, List.forall_mem_cons]
          refine ⟨(pos_lt_of_tag htag).trans_le ?_, ih rest hmore henclosing⟩
          exact pos_le_of_reaches (reaches_segmentsLogged hmore)
  | case7 enclosing depth c reading round found kind name after htag hafter inner body hinner hbody
      segment hsegment more ih ihmore =>
      intro content h henclosing
      cases hmore : more.1 with
      | error error =>
          rw [hmore] at h
          cases h
      | ok rest =>
          -- What is read after the section ends behind it.
          rw [hmore] at h
          have hbodyRest := pos_le_of_reaches (reaches_segmentsLogged hinner)
          have hrest := pos_le_of_reaches (reaches_segmentsLogged hmore)
          rw [← Except.ok.inj h, List.forall_mem_cons, List.forall_mem_append]
          refine ⟨(pos_lt_of_tag htag).trans_le (hbodyRest.trans hrest), ?_,
            ihmore rest hmore henclosing⟩
          exact fun round hmem =>
            (ih body hinner (Option.some_ne_none name) round hmem).trans_le hrest
  | case8 depth c reading round found => exact fun _ _ henclosing => absurd rfl henclosing
  | _ => exact fun _ h => nomatch h

/-- The rounds of a reading follow each other, those for the sections inside
    included. -/
theorem ascends_segmentsLogged (enclosing : Option String) (depth : Nat) (c : Cursor)
    (h : c.toText = source) (hdepth : depth ≤ c.pos) :
    Ascends c.pos (byteLength source + 1)
      (c.segmentsLogged source options enclosing depth).2 := by
  fun_induction segmentsLogged source options enclosing depth c with
  | case4 enclosing depth c reading round found tag after htag hafter more ih =>
      rcases lt_pos_of_tag h hdepth htag with ⟨htext, hlt⟩
      exact (ih htext (Nat.le_of_lt hlt)).cons (isWithin_round h hdepth) (pos_lt_of_tag htag)
  | case5 enclosing depth c reading round found kind name after htag hafter inner error hinner ih =>
      rcases lt_pos_of_tag h hdepth htag with ⟨htext, hlt⟩
      exact (ih htext hlt).cons (isWithin_round h hdepth) (pos_lt_of_tag htag)
  | case6 enclosing depth c reading round found kind name after htag hafter inner body hinner hbody
      hsegment ih =>
      rcases lt_pos_of_tag h hdepth htag with ⟨htext, hlt⟩
      exact (ih htext hlt).cons (isWithin_round h hdepth) (pos_lt_of_tag htag)
  | case7 enclosing depth c reading round found kind name after htag hafter inner body hinner hbody
      segment hsegment more ih ihmore =>
      rcases lt_pos_of_tag h hdepth htag with ⟨htext, hlt⟩
      have hreaches := reaches_segmentsLogged hinner
      have hle := pos_le_of_reaches hreaches
      -- The rounds after a section start where its closing tag ends.
      have hmore := ihmore (by rw [toText_of_reaches hreaches, htext])
        ((Nat.le_of_lt hlt).trans hle)
      refine ((ih htext hlt).append hmore hle ?_).cons (isWithin_round h hdepth)
        (pos_lt_of_tag htag)
      exact stop_lt_of_segmentsLogged _ _ _ body hinner (Option.some_ne_none name)
  | _ => exact Ascends.singleton (isWithin_round h hdepth)

-- The closing tag is found in a round of the section.
example : ((ofText .standard "\x7b\x7b#a\x7d\x7db\x7b\x7b/a\x7d\x7d".toList).segmentsLogged
      "\x7b\x7b#a\x7d\x7db\x7b\x7b/a\x7d\x7d".toList {} none 0).2 =
    [⟨0, 0, 2, true⟩, ⟨1, 6, 9, true⟩, ⟨0, 13, 13, false⟩] := by
  decide +kernel

end

end Cursor

theorem Delimiters.byteLength_closing_pos (d : Delimiters) : 0 < byteLength d.closing :=
  Nat.pos_of_ne_zero fun hzero => d.closing_ne_nil (byteLength_eq_zero hzero)

namespace Window

variable {source : List Char} {d : Delimiters}

/-- The search for the end of a run of silent tags, as `tagsStop?` makes it, together
    with the byte offsets of the closing delimiters that it comes to. -/
def tagsStopLogged? (source : List Char) (d : Delimiters) (stop start : Nat) :
    Option (Option Nat) × List Nat :=
  match _ : rest? source start with
  | none => (none, [])
  | some text =>
    match _ : cut? d.closing text with
    | none => (some none, [])
    | some (content, _) =>
      let hop := start + byteLength content
      let next := start + byteLength (content ++ d.closing)
      match startsTag? source d next stop with
      | none => (none, [hop])
      | some true =>
        let more := tagsStopLogged? source d stop next
        (more.1, hop :: more.2)
      | some false =>
        ((skipBlanks? source next stop).map fun last => if last = stop then some next else none,
          [hop])
termination_by byteLength source - start
decreasing_by
  have hlength := length_of_rest? ‹rest? source start = some text›
  have hcut := congrArg byteLength (eq_of_cut? ‹_›)
  have hclosing := d.byteLength_closing_pos
  simp only [byteLength_append] at hcut ⊢
  omega

theorem tagsStop?_of_none {stop start : Nat} (hrest : rest? source start = none) :
    tagsStop? source d stop start = none := by
  rw [tagsStop?]
  split
  case h_1 => rfl
  case h_2 text htext => cases hrest.symm.trans htext

/-- The search is the one that is made. -/
theorem tagsStopLogged?_fst (source : List Char) (d : Delimiters) (stop start : Nat) :
    (tagsStopLogged? source d stop start).1 = tagsStop? source d stop start := by
  fun_induction tagsStopLogged? source d stop start with
  | case1 start hrest => rw [tagsStop?_of_none hrest]
  | case2 start text hrest hcut => rw [tagsStop?_of_not_found hrest hcut]
  | case3 start text hrest content back hcut hop next hstarts =>
      rw [tagsStop?_of_cut hrest hcut, hstarts, Option.bind_none]
  | case4 start text hrest content back hcut hop next hstarts more ih =>
      rw [tagsStop?_of_cut hrest hcut, hstarts, Option.bind_some, if_pos rfl, ← ih]
  | case5 start text hrest content back hcut hop next hstarts =>
      rw [tagsStop?_of_cut hrest hcut, hstarts, Option.bind_some, if_neg Bool.false_ne_true]

/-- A closing delimiter that the search comes to lies before the end of the text. -/
theorem hop_le_of_cut? {text content back : List Char} {start : Nat}
    (hrest : rest? source start = some text) (hcut : cut? d.closing text = some (content, back)) :
    start + byteLength content + byteLength d.closing ≤ byteLength source := by
  have hlength := length_of_rest? hrest
  rw [eq_of_cut? hcut, byteLength_append, byteLength_append] at hlength
  omega

/-- Every closing delimiter that the search comes to starts behind the one before
    it. -/
theorem hops_tagsStopLogged? (source : List Char) (d : Delimiters) (stop start : Nat) :
    (tagsStopLogged? source d stop start).2.Pairwise
        (fun hop later => hop + byteLength d.closing ≤ later) ∧
      ∀ hop ∈ (tagsStopLogged? source d stop start).2,
        start ≤ hop ∧ hop + byteLength d.closing ≤ byteLength source := by
  fun_induction tagsStopLogged? source d stop start with
  | case1 start hrest => exact ⟨List.Pairwise.nil, List.forall_mem_nil _⟩
  | case2 start text hrest hcut => exact ⟨List.Pairwise.nil, List.forall_mem_nil _⟩
  | case3 start text hrest content back hcut hop next hstarts =>
      exact ⟨List.pairwise_singleton _ _, List.forall_mem_singleton.mpr
        ⟨Nat.le_add_right _ _, hop_le_of_cut? hrest hcut⟩⟩
  | case4 start text hrest content back hcut hop next hstarts more ih =>
      -- The search goes on where the delimiter ends.
      have hnext : hop + byteLength d.closing = next := by
        simp only [hop, next, byteLength_append, Nat.add_assoc]
      rw [List.pairwise_cons, List.forall_mem_cons]
      refine ⟨⟨fun later hmem => hnext ▸ (ih.2 later hmem).1, ih.1⟩,
        ⟨Nat.le_add_right _ _, hop_le_of_cut? hrest hcut⟩,
        fun later hmem => ⟨?_, (ih.2 later hmem).2⟩⟩
      exact (Nat.le_add_right _ _).trans (ih.2 later hmem).1
  | case5 start text hrest content back hcut hop next hstarts =>
      exact ⟨List.pairwise_singleton _ _, List.forall_mem_singleton.mpr
        ⟨Nat.le_add_right _ _, hop_le_of_cut? hrest hcut⟩⟩

end Window

namespace Template

/-- Reading a template only moves forward, from any place and with any delimiters:
    to look for a tag and find one, and to read a tag with the section that it
    opens. A character that is given back was read behind the place before it, and
    new delimiters do not move the reader. The search for the end of a run of silent
    tags only moves forward as well. So the rounds of a whole reading follow each
    other through all sections. There are no more of them that find a tag than there
    are bytes, and never more sections open. -/
theorem reading_advances :
    (∀ c : Cursor, (c.readUntil c.delimiters.opening).found = true →
      c.pos < (c.readUntil c.delimiters.opening).rest.pos) ∧
    (∀ (source : List Char) (options : Options) (c after : Cursor),
      c.ReadsTag source options after → c.pos < after.pos) ∧
    (∀ (c after : Cursor) (ch : Char), c.next? = some (ch, after) →
      c.pos ≤ (after.window.back ch).pos) ∧
    (∀ (c : Cursor) (new : Delimiters), (c.changeDelimiters new).pos = c.pos) ∧
    (∀ (source : List Char) (d : Delimiters) (stop start : Nat),
      (Window.tagsStopLogged? source d stop start).1 = Window.tagsStop? source d stop start ∧
      (Window.tagsStopLogged? source d stop start).2.Pairwise (· < ·) ∧
      ∀ hop ∈ (Window.tagsStopLogged? source d stop start).2,
        start ≤ hop ∧ hop < byteLength source) ∧
    ∀ (d : Delimiters) (options : Options) (source : List Char),
      let reading := (Cursor.ofText d source).segmentsLogged source options none 0
      reading.1 = (Cursor.ofText d source).segments source options none ∧
      Ascends 0 (byteLength source + 1) reading.2 ∧
      reading.2.length ≤ byteLength source + 1 ∧
      reading.2.countP Round.found ≤ byteLength source ∧
      ∀ round ∈ reading.2, round.depth ≤ byteLength source := by
  refine ⟨fun c => Cursor.pos_lt_readFrom_of_found, fun source options c after h => h.pos_lt,
    ?_, fun c new => Cursor.pos_changeDelimiters new c, ?_, ?_⟩
  · intro c after ch hnext
    -- The character that is given back is not longer than what was read.
    have hpos := Cursor.add_pos_le_of_next? hnext
    change c.pos ≤ after.pos - ch.utf8Size
    omega
  · intro source d stop start
    rcases Window.hops_tagsStopLogged? source d stop start with ⟨hhops, hwithin⟩
    have hclosing := d.byteLength_closing_pos
    refine ⟨Window.tagsStopLogged?_fst source d stop start, hhops.imp ?_, ?_⟩
    · exact fun hle => (Nat.lt_add_of_pos_right hclosing).trans_le hle
    · exact fun hop hmem => ⟨(hwithin hop hmem).1,
        (Nat.lt_add_of_pos_right hclosing).trans_le (hwithin hop hmem).2⟩
  · intro d options source reading
    have hascends := @Cursor.ascends_segmentsLogged source options none 0 (Cursor.ofText d source)
      (Cursor.toText_ofText d source) (Nat.zero_le _)
    refine ⟨Cursor.segmentsLogged_fst _ _ _ _ _, hascends, hascends.length_le,
      hascends.countP_le, ?_⟩
    intro round hmem
    have hround := hascends.within round hmem
    exact (hround.depth_le.trans hround.start_le).trans (Nat.le_of_lt_succ hround.stop_lt)

end Template

end Mustache
