import Mustache.Proofs.Bodies

/-!
# What a Section Encloses

Tokens are run in a nesting, and what they do there does not depend on what lies
below: the sections that are open around them wait for their own closing tags,
and the segments that were read before stay in front. So the tokens between the
two tags of a section make the children of the section, wherever they are run.

The other way round, each section of a tree was read from tokens of its own. A
nesting knows which these are, because every open section remembers its opening
tag and the segments before it.

## Main definitions

* `Nesting.onto`: A nesting inside of another one.
* `Segment.sections`: The sections of a tree with their children.
* `Nesting.Traces`: Which tokens made a nesting.
* `SectionHead.Encloses`: Which tokens made a section.

## Theorems

* `Nesting.run_onto`: Tokens do the same inside of another nesting.
* `Stream.assemble_onto`: What stands before a stream stays in front.
* `Nesting.encloses_of_run`: Every section was made by tokens.
-/

namespace Mustache

/-- The open sections when more segments stand before the outermost one. -/
def Frame.onto (segments : List Segment) : List Frame → List Frame
  | [] => []
  | [frame] => [{ frame with outer := segments ++ frame.outer }]
  | frame :: next :: frames => frame :: Frame.onto segments (next :: frames)

/-- The nesting inside of another one: its outermost segments are added to the
    innermost ones there. -/
def Nesting.onto (below nesting : Nesting) : Nesting :=
  match nesting.frames with
  | [] => below.add nesting.segments
  | frame :: frames =>
    ⟨Frame.onto below.segments (frame :: frames) ++ below.frames, nesting.segments⟩

section

variable {source : List Char} {options : Options} {below nesting next last : Nesting}

/-- An empty nesting adds nothing. -/
theorem Nesting.onto_empty (below : Nesting) : below.onto empty = below := by
  rw [onto, empty, add]
  simp only [List.append_nil]

/-- Segments are added to the innermost section, which is that of the inner
    nesting. -/
theorem Nesting.onto_add (below nesting : Nesting) (segments : List Segment) :
    below.onto (nesting.add segments) = (below.onto nesting).add segments := by
  rcases nesting with ⟨_ | ⟨frame, frames⟩, inner⟩
  · simp only [onto, add, List.append_assoc]
  · rfl

/-- The frame of a section takes no part in making its segment, except for where
    it goes. -/
theorem Nesting.close_onto {name : String} {stop offset : Nat}
    (h : nesting.close source options name stop offset = .ok next) :
    (below.onto nesting).close source options name stop offset = .ok (below.onto next) := by
  rcases close_eq_ok h with ⟨frame, frames, segment, hframes, hname, hclose, rfl⟩
  rcases nesting with ⟨nestingFrames, segments⟩
  dsimp only at hframes hclose
  rw [hframes]
  -- The outermost section is put behind the segments of the other nesting.
  cases frames with
  | nil =>
      have hclose' : Frame.close? source options
          { frame with outer := below.segments ++ frame.outer } segments stop = some segment :=
        hclose
      simp only [onto, Frame.onto, List.cons_append, List.nil_append, close, if_pos hname, hclose',
        add, List.append_assoc]
  | cons outer frames =>
      simp only [onto, Frame.onto, List.cons_append, close, if_pos hname, hclose]

/-- A token does the same inside of another nesting. -/
theorem Nesting.step_onto {token : Token} (h : nesting.step source options token = .ok next) :
    (below.onto nesting).step source options token = .ok (below.onto next) := by
  -- Only the token of an opening tag changes the frames without closing one.
  cases token with
  | text content =>
      rw [step, Except.ok.injEq] at h
      rw [step, ← h, onto_add]
  | value name isEscaped =>
      rw [step, Except.ok.injEq] at h
      rw [step, ← h, onto_add]
  | reference r =>
      rw [step, Except.ok.injEq] at h
      rw [step, ← h, onto_add]
  | opening kind name start delimiters =>
      rw [step, Except.ok.injEq] at h
      rw [step, ← h]
      rcases nesting with ⟨_ | ⟨frame, frames⟩, segments⟩
      · rfl
      · rfl
  | closing name stop offset => exact close_onto h

/-- Tokens do the same inside of another nesting, as long as they close no
    section of it. -/
theorem Nesting.run_onto {tokens : List Token}
    (h : nesting.run source options tokens = .ok last) :
    (below.onto nesting).run source options tokens = .ok (below.onto last) := by
  induction tokens generalizing nesting with
  | nil =>
      rw [run, Except.ok.injEq] at h
      rw [run, h]
  | cons token tokens ih =>
      rcases run_cons_eq_ok h with ⟨next, hstep, hrun⟩
      rw [run, step_onto hstep]
      exact ih hrun

/-- Tokens that make segments add them anywhere. -/
theorem Nesting.run_add {tokens : List Token} {segments : List Segment}
    (h : empty.run source options tokens = .ok ⟨[], segments⟩) (below : Nesting) :
    below.run source options tokens = .ok (below.add segments) := by
  have hrun : (below.onto empty).run source options tokens = .ok (below.onto ⟨[], segments⟩) :=
    run_onto h
  rwa [onto_empty] at hrun

/-- With no section open, a token that is out of place is so in both. -/
theorem Nesting.step_onto_error {token : Token} {failure : Failure}
    (hbelow : below.frames = []) (h : nesting.step source options token = .error failure) :
    (below.onto nesting).step source options token = .error failure := by
  cases token with
  | closing name stop offset =>
      rcases close_error_cases h with ⟨hname, rfl⟩ | ⟨frame, frames, hframes, hname, hclose, rfl⟩
      · refine close_of_ne stop offset ?_
        rcases nesting with ⟨_ | ⟨frame, _ | ⟨outer, frames⟩⟩, segments⟩
        · rw [onto, enclosing, add, hbelow]
          exact (Option.some_ne_none _).symm
        · exact hname
        · exact hname
      · rcases nesting with ⟨nestingFrames, segments⟩
        dsimp only at hframes hclose
        rw [hframes]
        cases frames with
        | nil =>
            have hclose' : Frame.close? source options
                { frame with outer := below.segments ++ frame.outer } segments stop = none := hclose
            simp only [step, onto, Frame.onto, List.cons_append, List.nil_append, close,
              if_pos hname, hclose']
        | cons outer frames =>
            simp only [step, onto, Frame.onto, List.cons_append, close, if_pos hname, hclose]
  | _ => simp only [step, reduceCtorEq] at h

/-- So tokens that fail do so in both. -/
theorem Nesting.run_onto_error {tokens : List Token} {failure : Failure}
    (hbelow : below.frames = []) (h : nesting.run source options tokens = .error failure) :
    (below.onto nesting).run source options tokens = .error failure := by
  induction tokens generalizing nesting with
  | nil => simp only [run, reduceCtorEq] at h
  | cons token tokens ih =>
      rw [run] at h ⊢
      cases hstep : nesting.step source options token with
      | error failure' =>
          rw [hstep] at h
          rw [step_onto_error hbelow hstep]
          exact h
      | ok next =>
          rw [hstep] at h
          rw [step_onto hstep]
          exact ih h

/-- Segments that were read before a stream stay in front of what it stands
    for. -/
theorem Stream.assemble_onto (stream : Stream) (segments : List Segment) :
    stream.assemble source options ⟨[], segments⟩ =
      match stream.assemble source options .empty with
      | .error failure => .error failure
      | .ok more => .ok (segments ++ more) := by
  have hempty : (Nesting.mk [] segments).onto .empty = ⟨[], segments⟩ := Nesting.onto_empty _
  unfold assemble
  -- Both runs do the same, up to the segments in front.
  cases hrun : Nesting.empty.run source options stream.tokens with
  | error failure =>
      have honto : (Nesting.onto ⟨[], segments⟩ .empty).run source options stream.tokens =
          .error failure := Nesting.run_onto_error rfl hrun
      rw [hempty] at honto
      rw [honto]
  | ok last =>
      have honto : (Nesting.onto ⟨[], segments⟩ .empty).run source options stream.tokens =
          .ok (Nesting.onto ⟨[], segments⟩ last) := Nesting.run_onto hrun
      rw [hempty] at honto
      rw [honto]
      cases stream.ending with
      | failure error => rfl
      | endOfText offset =>
          rcases last with ⟨_ | ⟨frame, _ | ⟨outer, frames⟩⟩, inner⟩
          · rfl
          · rfl
          · rfl

end

mutual

/-- The sections of a segment with their children, each before those inside of
    it. -/
def Segment.sections : Segment → List (SectionHead × List Segment)
  | .text _ => []
  | .value _ _ => []
  | .sect head children => (head, children) :: Segment.sectionsAll children
  | .inverted _ children => Segment.sectionsAll children
  | .block block => Block.sections block
  | .reference _ => []
  | .parent _ parameters => Block.sectionsAll parameters

/-- The sections of a block with their children. -/
def Block.sections : Block → List (SectionHead × List Segment)
  | .mk _ children => Segment.sectionsAll children

/-- The sections of segments in a row with their children. -/
def Segment.sectionsAll : List Segment → List (SectionHead × List Segment)
  | [] => []
  | segment :: segments => Segment.sections segment ++ Segment.sectionsAll segments

/-- The sections of blocks in a row with their children. -/
def Block.sectionsAll : List Block → List (SectionHead × List Segment)
  | [] => []
  | block :: blocks => Block.sections block ++ Block.sectionsAll blocks

end

@[simp] theorem Segment.sectionsAll_append (front back : List Segment) :
    Segment.sectionsAll (front ++ back) =
      Segment.sectionsAll front ++ Segment.sectionsAll back := by
  induction front with
  | nil => rfl
  | cons segment front ih =>
      rw [List.cons_append, Segment.sectionsAll, Segment.sectionsAll, ih, List.append_assoc]

/-- A parent keeps the blocks at the top of its content and what is inside of
    them. -/
theorem Segment.sublist_sectionsAll (segments : List Segment) :
    List.Sublist (Block.sectionsAll (Segment.blocks segments)) (Segment.sectionsAll segments) := by
  induction segments with
  | nil => exact List.Sublist.refl _
  | cons segment segments ih =>
      rw [Segment.sectionsAll]
      cases segment with
      | block b =>
          have hblocks : Segment.blocks (.block b :: segments) = b :: Segment.blocks segments := rfl
          rw [hblocks, Block.sectionsAll, Segment.sections]
          exact ih.append_left _
      | _ => exact ih.trans (List.sublist_append_right _ _)

/-- The token of the opening tag of a section that is open. -/
def Frame.token (frame : Frame) : Token :=
  .opening frame.kind frame.name frame.start frame.delimiters

/-- The tokens made the nesting with the given frames and segments: after those
    of each frame stand its opening tag and the tokens inside of it. -/
def Nesting.Traces (source : List Char) (options : Options) :
    List Token → List Frame → List Segment → Prop
  | tokens, [], segments => empty.run source options tokens = .ok ⟨[], segments⟩
  | tokens, frame :: frames, segments =>
    ∃ front middle, tokens = front ++ frame.token :: middle ∧
      empty.run source options middle = .ok ⟨[], segments⟩ ∧
        Traces source options front frames frame.outer

/-- The section was made by tokens of its own: an opening tag, the tokens that
    make its children, and a closing tag. -/
def SectionHead.Encloses (source : List Char) (options : Options) (tokens : List Token)
    (head : SectionHead) (children : List Segment) : Prop :=
  ∃ front middle back stop offset,
    tokens = front ++ .opening .sect head.name head.span.start head.delimiters :: middle ++
      .closing head.name stop offset :: back ∧
    head.span.stop = max head.span.start stop ∧ head.IsCut source ∧
    Nesting.empty.run source options middle = .ok ⟨[], children⟩

section

variable {source : List Char} {options : Options} {nesting next last : Nesting}
  {tokens more : List Token} {segments : List Segment}

/-- Tokens that come later do not matter to a section. -/
theorem SectionHead.Encloses.append {head : SectionHead} {children : List Segment}
    (h : head.Encloses source options tokens children) (more : List Token) :
    head.Encloses source options (tokens ++ more) children := by
  rcases h with ⟨front, middle, back, stop, offset, rfl, hstop, hcut, hrun⟩
  refine ⟨front, middle, back ++ more, stop, offset, ?_, hstop, hcut, hrun⟩
  simp only [List.append_assoc, List.cons_append]

/-- Tokens that add segments to the innermost section make the nesting with
    these segments. -/
theorem Nesting.Traces.append {frames : List Frame} {longer : List Segment}
    (h : Traces source options tokens frames segments)
    (hrun : (Nesting.mk [] segments).run source options more = .ok ⟨[], longer⟩) :
    Traces source options (tokens ++ more) frames longer := by
  have hmore : ∀ middle, empty.run source options middle = .ok ⟨[], segments⟩ →
      empty.run source options (middle ++ more) = .ok ⟨[], longer⟩ := by
    intro middle hmiddle
    rw [run_append, hmiddle]
    exact hrun
  -- With no section open, all tokens made the segments. Otherwise those since the last
  -- opening tag did.
  cases frames with
  | nil => exact hmore tokens h
  | cons frame frames =>
      rcases h with ⟨front, middle, rfl, hmiddle, hfront⟩
      refine ⟨front, middle ++ more, ?_, hmore middle hmiddle, hfront⟩
      rw [List.append_assoc, List.cons_append]

/-- A section that is closed adds one segment to the section around it. -/
theorem Nesting.Traces.close {frame : Frame} {frames : List Frame} {segment : Segment}
    {name : String} {stop offset : Nat}
    (h : Traces source options tokens (frame :: frames) segments) (hname : frame.name = name)
    (hclose : frame.close? source options segments stop = some segment) :
    Traces source options (tokens ++ [.closing name stop offset]) frames
      (frame.outer ++ [segment]) := by
  rcases h with ⟨front, middle, rfl, hmiddle, hfront⟩
  have hrun : (Nesting.mk [] frame.outer).run source options
      (frame.token :: middle ++ [.closing name stop offset]) =
        .ok ⟨[], frame.outer ++ [segment]⟩ := by
    have hopen : (Nesting.mk [] frame.outer).step source options frame.token =
        .ok ⟨[frame], []⟩ := rfl
    -- Between its tags, the section adds what the tokens make on their own.
    have hinner := run_add hmiddle ⟨[frame], []⟩
    rw [List.cons_append, run, hopen]
    dsimp only
    rw [run_append, hinner]
    simp only [run, step, Nesting.close, add, List.nil_append, if_pos hname, hclose]
  rw [List.append_assoc]
  exact hfront.append hrun

/-- Which tokens made the segments and the sections that were read so far. -/
structure Nesting.IsTraced (source : List Char) (options : Options) (tokens : List Token)
    (nesting : Nesting) : Prop where
  traces : Traces source options tokens nesting.frames nesting.segments
  inner : ∀ made ∈ Segment.sectionsAll nesting.segments,
    made.1.Encloses source options tokens made.2
  outer : ∀ frame ∈ nesting.frames, ∀ made ∈ Segment.sectionsAll frame.outer,
    made.1.Encloses source options tokens made.2

/-- A section proper is the only one that is not made of sections read before. -/
theorem Frame.sections_of_close? {frame : Frame} {stop : Nat} {segment : Segment}
    (h : frame.close? source options segments stop = some segment) :
    ∀ made ∈ segment.sections, made ∈ Segment.sectionsAll segments ∨
      (frame.kind = .sect ∧ made.2 = segments ∧ made.1.name = frame.name ∧
        made.1.delimiters = frame.delimiters ∧
        made.1.span = ⟨frame.start, max frame.start stop⟩ ∧ made.1.IsCut source) := by
  intro made hmade
  rw [close?] at h
  cases hkind : frame.kind with
  | sect =>
      simp only [hkind] at h
      rcases Option.map_eq_some_iff.mp h with ⟨body, hbody, rfl⟩
      rw [Segment.sections, List.mem_cons] at hmade
      rcases hmade with rfl | hmade
      · refine Or.inr ⟨rfl, rfl, rfl, rfl, rfl, ?_⟩
        rw [SectionHead.IsCut, Span.slice?, if_pos (Nat.le_max_left _ _), hbody,
          String.toList_ofList]
      · exact Or.inl hmade
  | inverted =>
      simp only [hkind, Option.some.injEq] at h
      rw [← h, Segment.sections] at hmade
      exact Or.inl hmade
  | block =>
      simp only [hkind, Option.some.injEq] at h
      rw [← h, Segment.sections, Block.sections] at hmade
      exact Or.inl hmade
  | parent reference =>
      simp only [hkind, Option.some.injEq] at h
      rw [← h, Segment.sections] at hmade
      exact Or.inl ((Segment.sublist_sectionsAll segments).subset hmade)

/-- The section that a closing tag makes was made by the tokens since its opening
    tag. -/
theorem Nesting.Traces.encloses {frame : Frame} {frames : List Frame} {head : SectionHead}
    {stop : Nat} (offset : Nat) (h : Traces source options tokens (frame :: frames) segments)
    (hkind : frame.kind = .sect) (hname : head.name = frame.name)
    (hdelimiters : head.delimiters = frame.delimiters)
    (hspan : head.span = ⟨frame.start, max frame.start stop⟩) (hcut : head.IsCut source) :
    head.Encloses source options (tokens ++ [.closing head.name stop offset]) segments := by
  rcases h with ⟨front, middle, rfl, hmiddle, _⟩
  refine ⟨front, middle, [], stop, offset, ?_, ?_, hcut, hmiddle⟩
  · rw [hspan, hdelimiters, hname, Frame.token, hkind]
  · rw [hspan]

/-- A closing tag adds a section that was made since its opening tag, if it adds
    one. -/
theorem Nesting.IsTraced.close {name : String} {stop offset : Nat}
    (h : nesting.IsTraced source options tokens)
    (hclose : nesting.close source options name stop offset = .ok next) :
    next.IsTraced source options (tokens ++ [.closing name stop offset]) := by
  rcases close_eq_ok hclose with ⟨frame, frames, segment, hframes, hname, hsegment, rfl⟩
  have htraces := h.traces
  rw [hframes] at htraces
  refine ⟨htraces.close hname hsegment, ?_, ?_⟩
  · intro made hmade
    simp only [Segment.sectionsAll_append, Segment.sectionsAll, List.append_nil,
      List.mem_append] at hmade
    -- The section was read before the frame, or it was made by closing it.
    rcases hmade with houter | hinner
    · have hframe : frame ∈ nesting.frames := by
        rw [hframes]
        exact List.mem_cons_self
      exact (h.outer frame hframe made houter).append _
    · rcases Frame.sections_of_close? hsegment made hinner with
        hbefore | ⟨hkind, hchildren, hmadeName, hdelimiters, hspan, hcut⟩
      · exact (h.inner made hbefore).append _
      · have hencloses := htraces.encloses offset hkind hmadeName hdelimiters hspan hcut
        rwa [hmadeName, hname, ← hchildren] at hencloses
  · intro frame' hframe' made hmade
    have hmem : frame' ∈ nesting.frames := by
      rw [hframes]
      exact List.mem_cons_of_mem _ hframe'
    exact (h.outer frame' hmem made hmade).append _

/-- A segment without a section is added to the innermost section. -/
theorem Nesting.IsTraced.add {token : Token} {segment : Segment}
    (h : nesting.IsTraced source options tokens) (hnone : segment.sections = [])
    (hstep : ∀ below : Nesting, below.step source options token = .ok (below.add [segment])) :
    (nesting.add [segment]).IsTraced source options (tokens ++ [token]) := by
  have hrun : (Nesting.mk [] nesting.segments).run source options [token] =
      .ok ⟨[], nesting.segments ++ [segment]⟩ := by
    rw [run, hstep]
    rfl
  refine ⟨h.traces.append hrun, ?_, ?_⟩
  · intro made hmade
    rw [Nesting.add, Segment.sectionsAll_append, Segment.sectionsAll, hnone, Segment.sectionsAll,
      List.append_nil, List.append_nil] at hmade
    exact (h.inner made hmade).append _
  · intro frame hframe made hmade
    exact (h.outer frame hframe made hmade).append _

/-- Each token keeps it known which tokens made what was read so far. -/
theorem Nesting.IsTraced.step {token : Token} (h : nesting.IsTraced source options tokens)
    (hstep : nesting.step source options token = .ok next) :
    next.IsTraced source options (tokens ++ [token]) := by
  cases token with
  | text content =>
      rw [← Except.ok.inj hstep]
      exact h.add rfl fun _ => rfl
  | value name isEscaped =>
      rw [← Except.ok.inj hstep]
      exact h.add rfl fun _ => rfl
  | reference r =>
      rw [← Except.ok.inj hstep]
      exact h.add rfl fun _ => rfl
  | opening kind name start delimiters =>
      rw [← Except.ok.inj hstep]
      refine ⟨⟨tokens, [], rfl, rfl, h.traces⟩, nofun, ?_⟩
      intro frame hframe made hmade
      rcases List.mem_cons.mp hframe with rfl | hframe
      · exact (h.inner made hmade).append _
      · exact (h.outer frame hframe made hmade).append _
  | closing name stop offset => exact h.close hstep

/-- And so do any number of tokens. -/
theorem Nesting.IsTraced.run (h : nesting.IsTraced source options tokens)
    (hrun : nesting.run source options more = .ok last) :
    last.IsTraced source options (tokens ++ more) := by
  induction more generalizing nesting tokens with
  | nil =>
      rw [Nesting.run, Except.ok.injEq] at hrun
      rwa [List.append_nil, ← hrun]
  | cons token more ih =>
      rcases run_cons_eq_ok hrun with ⟨next, hstep, hrest⟩
      -- The invariant is carried over one token, and then over the rest.
      rw [List.append_cons]
      exact ih (h.step hstep) hrest

/-- Every section was made by tokens of its own. -/
theorem Nesting.encloses_of_run (h : empty.run source options tokens = .ok last) :
    ∀ made ∈ Segment.sectionsAll last.segments, made.1.Encloses source options tokens made.2 := by
  have hempty : empty.IsTraced source options [] := ⟨rfl, nofun, nofun⟩
  exact (hempty.run h).inner

end

end Mustache
