import NginxEsi.Segments
import NginxEsi.Turns

/-!
# Tags without attributes

A tag without attributes is seen wherever it stands: behind candidates that come to nothing, inside
another tag and inside a value in quotes, and wherever the chunks are cut (`bare_seen`).  In each of
the 80 states a `<` begins a candidate, and the copies of the candidate states that Ragel made for
the inside of values read the tag as the first ones do.
-/

namespace NginxEsi

/-- `<esi:N>`, `</esi:N>`, and `<esi:N/>` with white space behind the name. -/
inductive BareTag where
  | start (name : Letters)
  | stop (name : Letters)
  | inline (name : Letters) (first : { b : UInt8 // isspace b = true }) (space : Space)

namespace BareTag

def render : BareTag → Bytes
  | start n => tagOpen ++ n.1 ++ [62]
  | stop n => tagClose ++ n.1 ++ [62]
  | inline n b w => tagOpen ++ n.1 ++ b.1 :: w.1 ++ [47, 62]

/-- What is reported of the tag when `attributes` have been collected before it. -/
def events (attributes : List ESIAttribute) : BareTag → List Event
  | start n => [.startTag (esiColon ++ n.1) []]
  | stop n => [.endTag (esiColon ++ n.1)]
  | inline n _ _ => [.startTag (esiColon ++ n.1) attributes, .endTag (esiColon ++ n.1)]

/-- The attributes that are there behind the tag. -/
def leaves (attributes : List ESIAttribute) : BareTag → List ESIAttribute
  | start _ | inline _ _ _ => []
  | stop _ => attributes

end BareTag

/-! ## The text around a tag

A tag callback clears the echo buffer.  When the `<` of the tag restarts a candidate, the buffer
also holds the bytes of the candidate given up, and they are lost with those of the tag: the text in
front of a tag is delivered exactly when nothing of it is pending (`parse_around_iff`). -/

namespace Scanner

/-- A start tag between two texts.  Of the text in front the scanner delivers the part `r` that it
has released. -/
theorem feedAll_around {t u : Bytes} (n : Letters) (ht : TagFree t) (hu : (60 : UInt8) ∉ u) :
    ∃ s r, ({} : Scanner).feedAll (t ++ (tagOpen ++ n.1 ++ [62]) ++ u) = .ok s ∧
      s.out.events = r.map .byte ++ .startTag (esiColon ++ n.1) [] :: u.map .byte ∧
      (r = t ↔ ¬ Pending t) := by
  obtain ⟨m, hm, hin, hcs, -, r, hr, hrt⟩ :=
    (InText.of_rest (s := {}) rfl rfl).feedAll (show TagFree ([] ++ t) from ht)
  obtain ⟨m', hm', hready, hevents⟩ := feedAll_startTag hin.textual n
  obtain ⟨s, hs, -, -, hout, -⟩ :=
    feedAll_text hready.rest hready.held (tagFree_of_not_mem hu) (not_pending_of_not_mem hu)
  refine ⟨s, r, Run.append_ok.2 ⟨m', Run.append_ok.2 ⟨m, hm, hm'⟩, hs⟩, ?_, ?_⟩
  · rw [hout, Output.foldl_echoChar_events, hevents, hr, Output.foldl_echoChar_events]
    simp [Output.events, NginxEsi.events]
  · have hheld : m.held = [] ↔ ¬ Pending t := by
      rw [← hin.held_eq, hcs]
      exact rest_iff_not_pending rfl ht
    rw [← hheld, ← show r ++ m.held = t from hrt]
    simp

end Scanner

namespace ESIParser

/-- The text in front of a start tag and the text behind it are delivered in full exactly when the
first does not end in a part of a delimiter. -/
theorem parse_around_iff (t u : Bytes) (n : Letters) (ht : TagFree t) (hu : (60 : UInt8) ∉ u) :
    (∃ c, parse [t ++ (tagOpen ++ n.1 ++ [62]) ++ u] = .ok c ∧
      events c.out.callbacks = t.map .byte ++ .startTag (esiColon ++ n.1) [] :: u.map .byte) ↔
      ¬ Pending t := by
  obtain ⟨s, r, hs, hevents, hr⟩ := Scanner.feedAll_around n ht hu
  obtain ⟨c, hc, hevents'⟩ := parse_scanner hs
  rw [hc, ← hr]
  constructor
  · rintro ⟨c', hc', h⟩
    obtain rfl := Except.ok.inj hc'
    rw [hevents', hevents] at h
    exact List.map_injective_iff.2 byte_injective (List.append_cancel_right h)
  · rintro rfl
    exact ⟨c, rfl, hevents'.trans hevents⟩

/-- `a<esi:b>c` -/
theorem parse_around_iff_letter :
    (∃ c, parse [[97, 60, 101, 115, 105, 58, 98, 62, 99]] = .ok c ∧
      events c.out.callbacks =
        [.byte 97, .startTag [101, 115, 105, 58, 98] [], .byte 99]) ↔ ¬ Pending [97] :=
  parse_around_iff [97] [99] ⟨[98], by decide +kernel⟩ (tagFree_of_not_mem (by decide +kernel))
    (by decide)

/-- In `<<esi:a>` the first `<` is lost. -/
theorem parse_swallows : ¬ ∀ (t u : Bytes) (n : Letters), TagFree t → (60 : UInt8) ∉ u →
    ∃ c, parse [t ++ (tagOpen ++ n.1 ++ [62]) ++ u] = .ok c ∧
      events c.out.callbacks = t.map .byte ++ .startTag (esiColon ++ n.1) [] :: u.map .byte := by
  intro h
  have hrun : (parse [[60] ++ (tagOpen ++ [97] ++ [62]) ++ []]).map
      (fun c => events c.out.callbacks) = .ok [.startTag [101, 115, 105, 58, 97] []] := by
    decide +kernel
  obtain ⟨c, hc, hevents⟩ := h [60] [] ⟨[97], by decide +kernel⟩ (by decide +kernel)
    (by decide)
  have hrun' := Run.of_map_ok hc hrun
  rw [hevents] at hrun'
  exact absurd hrun' (by decide)

end ESIParser

/-! ## The copies of the candidate states -/

namespace State

/-- Where an attribute may begin, in the main loop and in the values. -/
def inside : State → Bool
  | .s13 | .s14 | .s21 | .s22 | .s26 | .s41 | .s48 | .s49 => true
  | _ => false

theorem begin_next : ∀ q : State, stage (q.next 60) = .literal [60] ∧ q.next 60 ≠ .s0 ∧
    (q.list 60 = .f1 ∨ q.list 60 = .f12) := by
  decide +kernel

theorem literal_bracket (k : Bracket) : ∀ q : State, stage q = .literal [60] →
    Run.Along State.next Scanner.Keeps q (k.text.drop 1) ∧
      stage ((k.text.drop 1).foldl State.next q) = .literal k.text := by
  unfold Scanner.Keeps
  cases k
  · decide +kernel
  · decide +kernel

theorem letter_of_stage (k : Bracket) : ∀ b : UInt8, isLower b = true → ∀ q : State,
    (stage q = .literal k.text ∨ stage q = .name k.text) →
      Scanner.Keeps q b ∧ stage (q.next b) = .name k.text := by
  unfold Scanner.Keeps
  cases k
  · exact forall_byte (by decide +kernel)
  · exact forall_byte (by decide +kernel)

theorem space_of_name : ∀ b : UInt8, isspace b = true → ∀ q : State, stage q = .name tagOpen →
    q.list b = .f3 ∧ (q.next b).inside = true ∧ q.next b ≠ .s0 :=
  forall_byte (by decide +kernel)

theorem space_of_inside : ∀ b : UInt8, isspace b = true → ∀ q : State, q.inside = true →
    Scanner.Keeps q b ∧ (q.next b).inside = true := by
  unfold Scanner.Keeps
  exact forall_byte (by decide +kernel)

theorem slash_of_inside : ∀ q : State, q.inside = true →
    Scanner.Keeps q 47 ∧ (q.next 47).list 62 = .f8 ∧ (q.next 47).next 62 ≠ .s0 := by
  unfold Scanner.Keeps
  decide +kernel

theorem close_of_open : ∀ q : State, stage q = .name tagOpen →
    q.list 62 = .f4 ∧ q.next 62 ≠ .s0 := by
  decide +kernel

theorem close_of_close : ∀ q : State, stage q = .name tagClose →
    q.list 62 = .f2 ∧ (q.next 62 = .s0 → q = .s7) := by
  decide +kernel

end State

/-! ## Reading a tag -/

namespace Scanner

variable {s m : Scanner}

/-- The letters of a name. -/
theorem keeps_name {q : State} {k : Bracket} (hq : stage q = .literal k.text) (n : Letters) :
    Run.Along State.next Keeps q n.1 ∧ stage (n.1.foldl State.next q) = .name k.text := by
  obtain ⟨hne, hn⟩ := n.2
  obtain ⟨b, u, hu⟩ := List.exists_cons_of_ne_nil hne
  rw [hu] at hn ⊢
  obtain ⟨hb, hn⟩ := List.forall_mem_cons.1 hn
  obtain ⟨hfirst, hstage⟩ := State.letter_of_stage k b hb q (.inl hq)
  obtain ⟨hrest, hend⟩ := Run.Along.of_closed (P := Keeps) (S := fun q => stage q = .name k.text)
    (C := fun b => isLower b = true)
    (fun q b hq hb => State.letter_of_stage k b hb q (.inr hq)) hstage hn
  exact ⟨Run.along_cons.2 ⟨hfirst, hrest⟩, hend⟩

/-- A candidate begins wherever the scanner is. -/
theorem feed_less (s : Scanner) :
    ∃ q m, stage q = .literal [60] ∧ s.feed 60 = .ok m ∧ Reads s q [60] m := by
  obtain ⟨hstage, hne, hlist | hlist⟩ := State.begin_next s.cs
  · exact ⟨_, _, hstage, feed_of_next rfl hlist hne, rfl, rfl, rfl, rfl⟩
  · exact ⟨_, _, hstage, feed_of_next rfl hlist hne, rfl, rfl, rfl, rfl⟩

/-- `<esi:N` and `</esi:N` -/
theorem feedAll_bareName (s : Scanner) (k : Bracket) (n : Letters) :
    ∃ q m, stage q = .name k.text ∧ s.feedAll (k.text ++ n.1) = .ok m ∧
      Reads s q (k.text ++ n.1) m := by
  have htext : k.text ++ n.1 = 60 :: k.text.drop 1 ++ n.1 := by cases k <;> rfl
  obtain ⟨q, m, hq, hm, h₁⟩ := feed_less s
  obtain ⟨hkeeps, hliteral⟩ := State.literal_bracket k q hq
  obtain ⟨m', hm', h₂⟩ := h₁.feedAll hkeeps
  obtain ⟨hletters, hname⟩ := keeps_name hliteral n
  obtain ⟨s', hs', h₃⟩ := h₂.feedAll hletters
  rw [htext]
  exact ⟨_, s', hname, Run.append_ok.2 ⟨m', Run.cons_ok.2 ⟨m, hm, hm'⟩, hs'⟩, h₃⟩

/-- The tag has been reported. -/
structure Sees (t : BareTag) (s s' : Scanner) : Prop where
  attributes : s'.attributes = t.leaves s.attributes
  events : s'.out.events = s.out.events ++ t.events s.attributes
  buffer : s'.out.buffer = []

theorem feedAll_bareStart (s : Scanner) (n : Letters) :
    ∃ s', s.feedAll (BareTag.start n).render = .ok s' ∧ Sees (.start n) s s' := by
  obtain ⟨q, m, hq, hm, hreads⟩ := feedAll_bareName s .opening n
  obtain ⟨hlist, hne⟩ := State.close_of_open q hq
  rw [← hreads.cs] at hlist hne
  refine ⟨_, Run.concat_ok.2 ⟨m, hm, feed_of_next rfl hlist hne⟩, rfl, ?_, Output.flush_buffer _⟩
  change (m.report (.startTag (trim m.since) [])).out.events = _
  rw [report_events, hreads.out, hreads.since, trim_opening]
  rfl

/-- The end of a closing tag sends no text. -/
theorem enter_close_out (hq : stage m.cs = .name tagClose) :
    (m.enter (m.cs.next 62) 62).out = m.out := by
  obtain ⟨-, hcs⟩ := State.close_of_close m.cs hq
  by_cases hzero : m.cs.next 62 = .s0
  · rw [hzero, enter_zero_of_name 62 m (.inr (hcs hzero))]
  · rw [enter_of_ne 62 m hzero]

theorem feedAll_bareStop (s : Scanner) (n : Letters) :
    ∃ s', s.feedAll (BareTag.stop n).render = .ok s' ∧ Sees (.stop n) s s' := by
  obtain ⟨q, m, hq, hm, hreads⟩ := feedAll_bareName s .closing n
  rw [← hreads.cs] at hq
  obtain ⟨hlist, -⟩ := State.close_of_close m.cs hq
  have hfeed : m.feed 62 = .ok (advance 62 { (m.enter (m.cs.next 62) 62).report
      (.endTag (trim (m.since.drop 2))) with
        name := some (trim (m.since.drop 2)), since := [], held := [] }) := by
    rw [feed_eq, show (transition m.cs 62).goto.2 = .f2 from hlist,
      ← enter_since (m.cs.next 62) 62 m]
    rfl
  have hdrop : trim (m.since.drop 2) = esiColon ++ n.1 := by
    rw [hreads.since]
    exact trim_name n.2
  refine ⟨_, Run.concat_ok.2 ⟨m, hm, hfeed⟩, ?_, ?_, Output.flush_buffer _⟩
  · dsimp only [advance]
    rw [report_attributes, enter_attributes, hreads.attributes]
    rfl
  · dsimp only [advance]
    rw [report_events, hdrop, enter_close_out hq, hreads.out]
    rfl

/-- Behind the name of a tag that was opened at `s`. -/
structure Opened (s : Scanner) (n : Letters) (m : Scanner) : Prop where
  inside : m.cs.inside = true
  name : m.name = some (esiColon ++ n.1)
  attributes : m.attributes = s.attributes
  out : m.out = s.out

theorem feedAll_opened (s : Scanner) (n : Letters) (b : { b : UInt8 // isspace b = true }) :
    ∃ m, s.feedAll (tagOpen ++ n.1 ++ [b.1]) = .ok m ∧ Opened s n m := by
  obtain ⟨q, m, hq, hm, hreads⟩ := feedAll_bareName s .opening n
  rw [← hreads.cs] at hq
  obtain ⟨hlist, hinside, hne⟩ := State.space_of_name b b.2 m.cs hq
  refine ⟨_, Run.concat_ok.2 ⟨m, hm, feed_of_next rfl hlist hne⟩, hinside, ?_,
    hreads.attributes, hreads.out⟩
  change some (m.since.drop 1) = _
  rw [hreads.since]
  rfl

theorem Opened.feedAll_space {n : Letters} (h : Opened s n m) (w : Space) :
    ∃ m', m.feedAll w.1 = .ok m' ∧ Opened s n m' := by
  obtain ⟨hkeeps, hinside⟩ := Run.Along.of_closed (P := Keeps) (S := fun q => q.inside = true)
    (C := fun b => isspace b = true) (fun q b hq hb => State.space_of_inside b hb q hq) h.inside w.2
  exact ⟨_, feedAll_keeps hkeeps, hinside, h.name, h.attributes, h.out⟩

theorem completeTag_inline {n : Letters} (hname : m.name = some (esiColon ++ n.1)) :
    ∃ s', m.completeTag true = .ok s' ∧ s'.attributes = [] ∧ s'.out.events = m.out.events ++
        [.startTag (esiColon ++ n.1) m.attributes, .endTag (esiColon ++ n.1)] ∧
      s'.out.buffer = [] := by
  rw [completeTag, hname]
  dsimp only
  rw [if_pos rfl, trim_name n.2]
  refine ⟨_, rfl, rfl, ?_, Output.flush_buffer _⟩
  dsimp only
  rw [report_events, report_events, List.append_assoc]
  rfl

theorem Opened.feedAll_inline {n : Letters} (h : Opened s n m) :
    ∃ s', m.feedAll [47, 62] = .ok s' ∧ s'.attributes = [] ∧ s'.out.events = s.out.events ++
        [.startTag (esiColon ++ n.1) s.attributes, .endTag (esiColon ++ n.1)] ∧
      s'.out.buffer = [] := by
  obtain ⟨hslash, hlist, hne⟩ := State.slash_of_inside m.cs h.inside
  have hfirst := feedAll_keeps (Run.along_cons.2 ⟨hslash, Run.along_nil _⟩)
  have hlast := feed_of_next (s := { m with
    cs := m.cs.next 47, held := m.held ++ [47], since := m.since ++ [47] }) rfl hlist hne
  obtain ⟨s', hs', hattributes, hevents, hbuffer⟩ := completeTag_inline (n := n) (m := { m with
    cs := (m.cs.next 47).next 62, held := m.held ++ [47] ++ [62], since := m.since ++ [47] }) h.name
  have hend := hlast.trans (congrArg (Except.map (advance 62)) hs')
  refine ⟨s'.advance 62, Run.append_ok.2 ⟨_, hfirst, Run.cons_ok.2 ⟨_, hend, rfl⟩⟩, hattributes, ?_,
    hbuffer⟩
  change s'.out.events = _
  rw [hevents, h.attributes, h.out]

/-- A bare tag, wherever the scanner is. -/
theorem feedAll_bare (s : Scanner) (t : BareTag) :
    ∃ s', s.feedAll t.render = .ok s' ∧ Sees t s s' := by
  cases t with
  | start n => exact feedAll_bareStart s n
  | stop n => exact feedAll_bareStop s n
  | inline n b w =>
    obtain ⟨m₁, hm₁, h₁⟩ := feedAll_opened s n b
    obtain ⟨m₂, hm₂, h₂⟩ := h₁.feedAll_space w
    obtain ⟨s', hs', hattributes, hevents, hbuffer⟩ := h₂.feedAll_inline
    refine ⟨s', ?_, hattributes, hevents, hbuffer⟩
    rw [BareTag.render, List.append_cons (tagOpen ++ n.1) b.1 w.1, List.append_assoc]
    exact Run.append_ok.2 ⟨m₁, hm₁, Run.append_ok.2 ⟨m₂, hm₂, hs'⟩⟩

/-! ## Callbacks stay -/

variable {s' : Scanner} {b : UInt8} {stop : Stop}

theorem callbacks_enter (cs : State) (b : UInt8) (s : Scanner) :
    s.out.callbacks <+: (s.enter cs b).out.callbacks := by
  unfold enter echo
  dsimp only
  split_ifs
  · exact Output.callbacks_foldl_echoChar _ _
  · exact List.prefix_rfl
  · exact List.prefix_rfl

theorem callbacks_report (c : Callback) (s : Scanner) :
    s.out.callbacks <+: (s.report c).out.callbacks :=
  (Output.callbacks_flush _).trans ((List.prefix_append _ _).trans (Output.callbacks_call _ c))

theorem callbacks_completeTag {withEnd : Bool} (h : s.completeTag withEnd = .ok s') :
    s.out.callbacks <+: s'.out.callbacks := by
  obtain ⟨n, -, rfl⟩ := completeTag_ok h
  have hstart := callbacks_report (.startTag (trim n) s.attributes) s
  dsimp only
  split_ifs
  · exact hstart.trans (callbacks_report _ _)
  · exact hstart

theorem callbacks_feed (h : s.feed b = .ok s') : s.out.callbacks <+: s'.out.callbacks := by
  obtain ⟨m, hm, rfl⟩ := feed_ok h
  refine (callbacks_enter (transition s.cs b).goto.1 b s).trans ?_
  generalize s.enter (transition s.cs b).goto.1 b = t at hm ⊢
  generalize (transition s.cs b).goto.2 = f at hm
  cases f with
  | f2 | f4 =>
    obtain rfl := Except.ok.inj hm
    exact callbacks_report _ _
  | f5 | f8 =>
    have hprefix : t.out.callbacks <+: m.out.callbacks := callbacks_completeTag hm
    exact hprefix
  | _ =>
    obtain rfl := Except.ok.inj hm
    exact List.prefix_rfl

/-- What has been reported stays reported, also in a run that ends in a fault. -/
theorem callbacks_feedAll (s : Scanner) (u : Bytes) :
    s.out.callbacks <+: callbacksOf (s.feedAll u) := by
  induction u generalizing s with
  | nil => exact Output.callbacks_flush s.out
  | cons b u ih =>
    rw [feedAll, List.foldlM_cons]
    cases hb : s.feed b with
    | error stop =>
      change _ <+: stop.callbacks
      rw [feed_error hb]
      exact callbacks_enter _ b s
    | ok m => exact (callbacks_feed hb).trans (ih m)

end Scanner

namespace ESIParser

/-- A bare tag between two texts, of which the first one takes the parser to `m`.  However this
document of less than 2 GiB is cut into chunks, as long as none of them is written past the echo
buffer, the callbacks of the tag come right behind those of the text in front of it; an inline tag
takes over the attributes that an unfinished tag has left there.  No byte behind the `>` is needed
for this. -/
theorem bare_seen (before after : Bytes) (t : BareTag) (m : ESIParser)
    (hbefore : new.execute before = .ok m) (chunks : List Bytes)
    (hcut : chunks.flatten = before ++ t.render ++ after) (hlen : chunks.flatten.length < 2 ^ 31)
    (hfits : EchoFits chunks) :
    ∃ later, events (callbacksOf (parseBounded chunks)) =
        events m.finish.out.callbacks ++ t.events m.attributes ++ later ∧
      (after = [] → later = [] ∧
        ∃ c, parseBounded chunks = .ok c ∧ c.attributes = t.leaves m.attributes) := by
  have hlenBefore : [before].flatten.length < 2 ^ 31 := by
    rw [hcut, List.length_append, List.length_append] at hlen
    rw [List.flatten_singleton]
    omega
  obtain ⟨s, hs, h⟩ := (executeAll_between hlenBefore).ok_left
    (Run.cons_ok.2 ⟨m, hbefore, rfl⟩ : new.executeAll [before] = .ok m)
  rw [List.flatten_singleton] at hs
  obtain ⟨s', hs', hsees⟩ := s.feedAll_bare t
  have hrun : ({} : Scanner).feedAll (before ++ t.render) = .ok s' := Run.append_ok.2 ⟨s, hs, hs'⟩
  have hall : ({} : Scanner).feedAll chunks.flatten = s'.feedAll after := by
    rw [hcut]
    exact Run.append_of_ok hrun
  have hseen : events s'.out.callbacks =
      events m.finish.out.callbacks ++ t.events m.attributes := by
    have hevents := hsees.events
    rw [Output.events, hsees.buffer, List.map_nil, List.append_nil, ← h.same.out,
      ← h.same.attributes, ← Output.events_flush] at hevents
    exact hevents
  obtain ⟨more, hmore⟩ := s'.callbacks_feedAll after
  refine ⟨events more, ?_, ?_⟩
  · rw [parseBounded_eq hfits, callbacksOf_parse (inRange_of_length hlen), hall, ← hmore,
      events_append, hseen]
  · rintro rfl
    have hnil : more = [] := by
      have hflush : s'.out.flush = s'.out := by
        rw [Output.flush, hsees.buffer]
        rfl
      have hsame : s'.out.callbacks ++ more = s'.out.flush.callbacks := hmore
      rwa [hflush, List.append_right_eq_self] at hsame
    obtain ⟨c, hc, hbetween⟩ := (executeAll_between hlen).ok_right hall
    refine ⟨by rw [hnil]; rfl, c.finish, ?_, ?_⟩
    · rw [parseBounded_eq hfits, parse, hc]
      rfl
    · change c.attributes = _
      rw [hbetween.same.attributes, hsees.attributes, h.same.attributes]

/-- `<esi:b c="d" e='` and `<esi:a />x` behind it, with cuts in the value and in the tag. -/
theorem bare_seen_quoted :
    let before : Bytes := [60, 101, 115, 105, 58, 98, 32, 99, 61, 34, 100, 34, 32, 101, 61, 39]
    let chunks : List Bytes := [[60, 101, 115, 105, 58, 98, 32, 99, 61, 34],
      [100, 34, 32, 101, 61, 39, 60, 101, 115], [105, 58, 97, 32, 47, 62, 120]]
    let t := BareTag.inline ⟨[97], List.cons_ne_nil _ _, List.forall_mem_singleton.2 rfl⟩
      ⟨32, rfl⟩ ⟨[], List.forall_mem_nil _⟩
    ∃ m later, new.execute before = .ok m ∧ m.attributes = [⟨[99], [100]⟩] ∧
      events (callbacksOf (parseBounded chunks)) =
        events m.finish.out.callbacks ++ t.events m.attributes ++ later := by
  intro before chunks t
  have hrun : (new.execute before).map ESIParser.attributes = .ok [⟨[99], [100]⟩] := by
    decide +kernel
  obtain ⟨m, hm, hattributes⟩ := Run.map_ok hrun
  obtain ⟨later, hlater, -⟩ := bare_seen before [120] t m hm chunks (by decide) (by decide)
    (by decide)
  exact ⟨m, later, hm, hattributes, hlater⟩

end ESIParser

end NginxEsi
