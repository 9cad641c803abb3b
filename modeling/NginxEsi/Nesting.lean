import NginxEsi.Delivery
import NginxEsi.Segments

/-!
# Well-nested documents

`Content opened` is a piece of a document inside elements of the types `opened`, outermost first:
text without `<`, inline tags and elements, none of which lies inside another one of its type.
Such a document is well nested by construction.  One call of the body filter on it sends the text
that is shown, which is the text whose innermost element is none at all, `vars` or `attempt`.
Within the range of `int` it does so exactly when no byte is written past the echo buffer
(`bodyFilterInput_content`).
-/

namespace NginxEsi

open LinkedList

/-! ## Documents -/

abbrev CharData := { t : Bytes // (60 : UInt8) ∉ t }

/-- What stands behind the name in the start tag of an element: nothing, or attributes. -/
inductive Opening where
  | bare
  | block (first : { b : UInt8 // isspace b = true }) (space : Space)
      (attributes : List (Attr × Space)) (last : Attr)

/-- Text stands in front of every tag and at the end; it may be empty. -/
inductive Content : List TagType → Type
  | last {opened : List TagType} (text : CharData) : Content opened
  | inline {opened : List TagType} (text : CharData) (type : TagType) (fresh : type ∉ opened)
      (first : { b : UInt8 // isspace b = true }) (space : Space) (attributes : List (Attr × Space))
      (rest : Content opened) : Content opened
  | element {opened : List TagType} (text : CharData) (type : TagType) (fresh : type ∉ opened)
      (opening : Opening) (inner : Content (opened ++ [type])) (rest : Content opened) :
      Content opened

def CharData.segment (t : CharData) : Segment :=
  .text t.1 (tagFree_of_not_mem t.2) (not_pending_of_not_mem t.2)

theorem TagType.isLetters_name (type : TagType) : IsLetters (type.name.drop 4) := by
  cases type <;> decide +kernel

/-- The name behind `esi:`. -/
def TagType.letters (type : TagType) : Letters := ⟨type.name.drop 4, type.isLetters_name⟩

def Opening.segment (type : TagType) : Opening → Segment
  | bare => .startTag type.letters
  | block first space attributes last => .blockTag type.letters first space attributes last

/-- The text directly inside the elements is meant to be seen. -/
def ShowsIn (opened : List TagType) : Prop :=
  opened.getLast? = none ∨ opened.getLast? = some .esiVars ∨ opened.getLast? = some .esiAttempt

instance (opened : List TagType) : Decidable (ShowsIn opened) :=
  inferInstanceAs (Decidable (_ ∨ _))

namespace Content

def segments {opened : List TagType} : Content opened → List Segment
  | last t => [t.segment]
  | inline t type _ first space attributes rest =>
    t.segment :: .inlineTag type.letters first space attributes :: rest.segments
  | element t type _ opening inner rest =>
    t.segment :: opening.segment type :: inner.segments ++ .endTag type.letters :: rest.segments

def render {opened : List TagType} (d : Content opened) : Bytes :=
  d.segments.flatMap Segment.render

/-- The text that is meant to be seen, in order. -/
def shown {opened : List TagType} : Content opened → Bytes
  | last t => if ShowsIn opened then t.1 else []
  | inline t _ _ _ _ _ rest => (if ShowsIn opened then t.1 else []) ++ rest.shown
  | element t _ _ _ inner rest => (if ShowsIn opened then t.1 else []) ++ inner.shown ++ rest.shown

end Content

/-! ## Routing a document -/

namespace Routing

variable {opened : List TagType} {r : Routing}

/-- The elements `opened` are open and no exception has been raised. -/
structure At (opened : List TagType) (r : Routing) : Prop where
  stack : r.stack = opened
  isOpen : r.isOpen = !opened.isEmpty
  exceptionRaised : r.exceptionRaised = false

theorem new_at : At [] new := ⟨rfl, rfl, rfl⟩

theorem At.shows_iff (h : At opened r) : r.shows = true ↔ ShowsIn opened := by
  rw [shows, innermost, h.stack, h.isOpen, h.exceptionRaised, ShowsIn]
  rcases opened.eq_nil_or_concat' with rfl | ⟨l, type, rfl⟩
  · simp
  · rw [List.getLast?_concat]
    cases type <;> simp [TagType.shows]

theorem At.send (h : At opened r) (data : Bytes) :
    At opened (r.send data) ∧
      (r.send data).sent = r.sent ++ if ShowsIn opened then data else [] := by
  unfold Routing.send
  by_cases hshows : r.shows = true
  · rw [if_pos hshows, if_pos (h.shows_iff.1 hshows)]
    exact ⟨⟨h.stack, h.isOpen, h.exceptionRaised⟩, rfl⟩
  · rw [if_neg hshows, if_neg (mt h.shows_iff.2 hshows), List.append_nil]
    exact ⟨h, rfl⟩

theorem At.start (h : At opened r) (type : TagType) (attributes : List ESIAttribute) :
    At (opened ++ [type]) (r.start type attributes) ∧ (r.start type attributes).sent = r.sent := by
  have hopened : (r.opened type attributes).exceptionRaised = false ∧
      (r.opened type attributes).sent = r.sent := by
    unfold Routing.opened
    have hexc := h.exceptionRaised
    cases type <;> dsimp only
    case esiInclude => split_ifs <;> exact ⟨hexc, rfl⟩
    case esiAttempt => exact ⟨rfl, rfl⟩
    all_goals exact ⟨hexc, rfl⟩
  refine ⟨⟨?_, ?_, hopened.1⟩, hopened.2⟩
  · exact congrArg (· ++ [type]) h.stack
  · simp [Routing.start]

/-- The end tag of the innermost element closes it and nothing else. -/
theorem At.stop {type : TagType} (h : At (opened ++ [type]) r) (hfresh : type ∉ opened) :
    At opened (r.stop type) ∧ (r.stop type).sent = r.sent := by
  have hclosed : (r.closed type).exceptionRaised = false := by
    have hexc := h.exceptionRaised
    cases type <;> first | exact hexc | rfl
  have hsent := closed_sent r type
  have hstack := h.stack
  cases opened with
  | nil =>
    rw [stop_root hstack]
    exact ⟨⟨rfl, rfl, hclosed⟩, hsent⟩
  | cons root inner =>
    obtain ⟨hroot, hinner⟩ := not_or.1 (mt List.mem_cons.2 hfresh)
    rw [stop_child hstack (Ne.symm hroot) hinner]
    exact ⟨⟨rfl, rfl, hclosed⟩, hsent⟩

end Routing

theorem esiTagStrToType_letters (type : TagType) :
    esiTagStrToType (esiColon ++ type.letters.1) = some type := by
  cases type <;> decide

namespace Routing

variable {opened : List TagType} {r : Routing}

theorem At.foldl_text (h : At opened r) (t : CharData) :
    At opened (t.segment.events.foldl step r) ∧
      (t.segment.events.foldl step r).sent = r.sent ++ if ShowsIn opened then t.1 else [] := by
  rw [CharData.segment, Segment.events, foldl_step_bytes]
  exact h.send t.1

theorem step_start (type : TagType) (attributes : List ESIAttribute) :
    r.step (.startTag (esiColon ++ type.letters.1) attributes) = r.start type attributes := by
  rw [step, onTag, esiTagStrToType_letters]

theorem step_stop (type : TagType) :
    r.step (.endTag (esiColon ++ type.letters.1)) = r.stop type := by
  rw [step, onTag, esiTagStrToType_letters]

theorem At.foldl_opening (h : At opened r) (type : TagType) (opening : Opening) :
    At (opened ++ [type]) ((opening.segment type).events.foldl step r) ∧
      ((opening.segment type).events.foldl step r).sent = r.sent := by
  cases opening with
  | bare =>
    rw [Opening.segment, Segment.events, List.foldl_cons, step_start]
    exact h.start type _
  | block first space attributes last =>
    rw [Opening.segment, Segment.events, List.foldl_cons, step_start]
    exact h.start type _

/-- Routing a piece of a document sends what it shows and leaves the open elements as they were. -/
theorem At.foldl_content (d : Content opened) : ∀ {r : Routing}, At opened r →
    At opened ((d.segments.flatMap Segment.events).foldl step r) ∧
      ((d.segments.flatMap Segment.events).foldl step r).sent = r.sent ++ d.shown := by
  induction d with
  | last t =>
    intro r h
    rw [Content.segments, List.flatMap_singleton]
    exact h.foldl_text t
  | inline t type fresh first space attributes rest ih =>
    intro r h
    obtain ⟨h₁, hsent₁⟩ := h.foldl_text t
    obtain ⟨h₂, hsent₂⟩ := h₁.start type (attributes.map fun e => e.1.reported)
    obtain ⟨h₃, hsent₃⟩ := h₂.stop fresh
    obtain ⟨h₄, hsent₄⟩ := ih h₃
    rw [Content.segments, List.flatMap_cons, List.flatMap_cons, List.foldl_append,
      List.foldl_append, Segment.events, List.foldl_cons, List.foldl_cons, List.foldl_nil,
      step_start, step_stop]
    refine ⟨h₄, ?_⟩
    rw [hsent₄, hsent₃, hsent₂, hsent₁, Content.shown, List.append_assoc]
  | element t type fresh opening inner rest ihInner ihRest =>
    intro r h
    obtain ⟨h₁, hsent₁⟩ := h.foldl_text t
    obtain ⟨h₂, hsent₂⟩ := h₁.foldl_opening type opening
    obtain ⟨h₃, hsent₃⟩ := ihInner h₂
    obtain ⟨h₄, hsent₄⟩ := h₃.stop fresh
    obtain ⟨h₅, hsent₅⟩ := ihRest h₄
    rw [Content.segments, List.flatMap_append, List.flatMap_cons, List.flatMap_cons,
      List.flatMap_cons, List.foldl_append, List.foldl_append, List.foldl_append,
      List.foldl_append, Segment.events, List.foldl_cons, List.foldl_nil, step_stop]
    refine ⟨h₅, ?_⟩
    rw [hsent₅, hsent₄, hsent₃, hsent₂, hsent₁, Content.shown]
    simp only [List.append_assoc]

end Routing

/-! ## One call of the filter -/

namespace Ctx

/-- A document that is parsed within the range of `int` and within the echo buffer is routed as its
segments say. -/
theorem bodyFilterInput_routes (stack : ℕ → NgxStr) (segs : List Segment) {init : List Bytes}
    {last : Bytes} (hcut : (init ++ [last]).flatten = segs.flatMap Segment.render)
    (hrange : ESIParser.InRange (init ++ [last])) (hfits : EchoFits (init ++ [last])) :
    ∃ parser ctx, new.bodyFilterInput stack (inputChain init last) = .ok (true, parser, ctx) ∧
      ctx.Routes ((segs.flatMap Segment.events).foldl Routing.step .new) := by
  obtain ⟨c, hc, hevents⟩ := ESIParser.parse_render segs
  have hone := ESIParser.outcome_parse_single (segs.flatMap Segment.render)
  have hcuts := ESIParser.outcome_parse hrange
  rw [hcut, ← hone, hc] at hcuts
  obtain ⟨c', hc', hfields⟩ := Run.map_ok hcuts
  obtain ⟨m, hm, hfinish⟩ := Run.bind_ok hc'
  obtain rfl := Except.ok.inj hfinish
  rw [← ESIParser.executeAllBounded_eq hfits] at hm
  obtain ⟨ctx, hstep, hloop⟩ := bodyFilterLoop_last new_inStep stack hm
  refine ⟨_, ctx, hloop, ?_⟩
  rw [← hevents, ← (Prod.mk.inj hfields).1, ← Routing.foldl_handle]
  exact hstep

/-- A document that gets through the loop was parsed within the echo buffer. -/
theorem echoFits_of_input {init : List Bytes} {last : Bytes} {stack : ℕ → NgxStr}
    {x : Bool × ESIParser × Ctx}
    (h : new.bodyFilterInput stack (inputChain init last) = .ok x) : EchoFits (init ++ [last]) := by
  obtain ⟨m, hm⟩ := executeAll_of_last h
  exact (ESIParser.executeAllBounded_ok hm).2

/-- Within the range of `int`, the output chain of a well-nested document holds the text that is
shown, and no element is left open, exactly when no byte is written past the echo buffer. -/
theorem bodyFilterInput_content (stack : ℕ → NgxStr) (d : Content []) (init : List Bytes)
    (last : Bytes) (hcut : (init ++ [last]).flatten = d.render)
    (hrange : ESIParser.InRange (init ++ [last])) :
    (∃ parser ctx l, new.bodyFilterInput stack (inputChain init last) = .ok (true, parser, ctx) ∧
      Links ctx.links (some ctx.chain) l none ∧ l.flatMap linkBytes = d.shown ∧
      (l.map Prod.fst).getLast? = some ctx.lastBuf ∧ ctx.rootTag = none ∧ ctx.openTag = none) ↔
      EchoFits (init ++ [last]) := by
  refine ⟨fun ⟨parser, ctx, l, hok, _⟩ => echoFits_of_input hok, fun hfits => ?_⟩
  obtain ⟨parser, ctx, hok, hroutes⟩ := bodyFilterInput_routes stack d.segments hcut hrange hfits
  obtain ⟨hat, hsent⟩ := Routing.new_at.foldl_content d
  obtain ⟨tags, htags, hstack, hopen⟩ := hroutes.tags
  obtain ⟨l, buf, hl, hbytes⟩ := hroutes.holds
  rw [hat.stack] at hstack
  obtain rfl := List.map_eq_nil_iff.1 hstack
  rw [hat.isOpen] at hopen
  refine ⟨parser, ctx, _, hok, hl, hbytes.trans hsent, ?_, links_nil.1 htags, hopen⟩
  rw [List.map_append]
  exact List.getLast?_concat

/-- `a<esi:vars>b</esi:vars>` in two buffers. -/
theorem bodyFilterInput_content_vars : ∃ parser ctx l,
    new.bodyFilterInput (fun _ => ⟨0, none⟩) (inputChain [[97, 60, 101, 115, 105, 58, 118]]
      [97, 114, 115, 62, 98, 60, 47, 101, 115, 105, 58, 118, 97, 114, 115, 62]) =
        .ok (true, parser, ctx) ∧
      Links ctx.links (some ctx.chain) l none ∧
      l.flatMap linkBytes = (Content.element ⟨[97], by decide⟩ .esiVars List.not_mem_nil .bare
        (.last ⟨[98], by decide⟩) (.last ⟨[], by decide⟩) : Content []).shown ∧
      (l.map Prod.fst).getLast? = some ctx.lastBuf ∧ ctx.rootTag = none ∧ ctx.openTag = none :=
  (bodyFilterInput_content (fun _ => ⟨0, none⟩) _ _ _ (by decide)
    (ESIParser.inRange_of_length (by decide))).2 (by decide +kernel)

/-- A buffer of 2 GiB behind the first byte of a text is lost. -/
theorem bodyFilterInput_loses_text : ¬ ∀ (stack : ℕ → NgxStr) (d : Content []) (init : List Bytes)
    (last : Bytes), (init ++ [last]).flatten = d.render →
    ∃ parser ctx l, new.bodyFilterInput stack (inputChain init last) = .ok (true, parser, ctx) ∧
      Links ctx.links (some ctx.chain) l none ∧ l.flatMap linkBytes = d.shown ∧
      (l.map Prod.fst).getLast? = some ctx.lastBuf ∧ ctx.rootTag = none ∧ ctx.openTag = none := by
  intro h
  obtain ⟨u, hlen, hu⟩ := ESIParser.exists_text_of_length (2 ^ 31)
  have hdoc : (60 : UInt8) ∉ 97 :: u := List.not_mem_cons_of_ne_of_not_mem (by decide) hu
  obtain ⟨parser, ctx, l, hok, hl, hbytes, -⟩ :=
    h (fun _ => ⟨0, none⟩) (.last ⟨97 :: u, hdoc⟩) [[97]] u (by
      simp [Content.render, Content.segments, CharData.segment, Segment.render])
  obtain ⟨m, hbounded⟩ : ∃ m, ESIParser.new.executeAllBounded ([[97]] ++ [u]) = .ok m :=
    executeAll_of_last hok
  have hm := (ESIParser.executeAllBounded_ok hbounded).1
  obtain ⟨m₁, hm₁, hm₂⟩ := Run.cons_ok.1 hm
  obtain ⟨m₂, hm₂, hnil⟩ := Run.cons_ok.1 hm₂
  have hfirst : (ESIParser.new.execute [97]).map (fun c => (c.cs, c.out)) =
      .ok (.s0, ⟨[97], []⟩) := by decide +kernel
  have hfields := Run.of_map_ok hm₁ hfirst
  obtain ⟨hcs, hout⟩ := Prod.mk.inj hfields
  rw [ESIParser.execute_drops hcs hlen] at hm₂
  obtain rfl := Except.ok.inj hm₂
  obtain rfl : m₁ = m := Except.ok.inj hnil
  -- only the first byte has been sent
  obtain ⟨ctx', hstep, hloop⟩ := bodyFilterLoop_last new_inStep (fun _ => ⟨0, none⟩) hbounded
  obtain rfl : ctx = ctx' := by
    have heq := Except.ok.inj (hok.symm.trans hloop)
    exact (Prod.mk.inj (Prod.mk.inj heq).2).2
  have hsent := hstep.holds.bytes_eq
  rw [bytes_of_links hl, hbytes, ESIParser.finish, ESIParser.flushOutput, hout] at hsent
  have hu' : (97 :: u : Bytes) = [97] := hsent
  rw [(List.cons.inj hu').2, List.length_nil] at hlen
  omega

end Ctx

end NginxEsi
