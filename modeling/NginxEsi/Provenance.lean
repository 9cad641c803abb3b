import NginxEsi.Buffers
import NginxEsi.Isolation

/-!
# Where requests come from

The parser passes on texts at saved positions, trimmed, so every attribute that a start handler is
told stands in the document, its value behind its name (`attributes_written`).  The includes pass
these values on: whatever is requested is the value of a `src` that the response has, or what the
stack held where an include has none (`subrequests_written`).
-/

namespace NginxEsi

/-- The attribute is in the text, its value behind its name. -/
def ESIAttribute.WrittenIn (text : Bytes) (a : ESIAttribute) : Prop :=
  ∃ pre mid post, text = pre ++ a.name ++ mid ++ a.value ++ post

theorem ESIAttribute.WrittenIn.mono {text : Bytes} {a : ESIAttribute} (h : a.WrittenIn text)
    (u w : Bytes) : a.WrittenIn (u ++ text ++ w) := by
  obtain ⟨pre, mid, post, rfl⟩ := h
  exact ⟨u ++ pre, mid, post ++ w, by simp⟩

/-! ## Trimmed texts -/

theorem trim_isInfix (t : Bytes) : trim t <:+: t :=
  (trimRight_isPrefix _).isInfix.trans (List.dropWhile_suffix _).isInfix

theorem Span.read_isInfix (p : Span) (d : Bytes) : p.read d <:+: d :=
  (List.take_prefix _ _).isInfix.trans (List.drop_suffix _ _).isInfix

theorem writtenIn_append {u w : Bytes} {a : ESIAttribute} (hu : a.name <:+: u)
    (hw : a.value <:+: w) : a.WrittenIn (u ++ w) := by
  obtain ⟨u₁, u₂, rfl⟩ := hu
  obtain ⟨w₁, w₂, rfl⟩ := hw
  exact ⟨u₁, u₂ ++ w₁, w₂, by simp⟩

/-! ## The scanner -/

namespace Scanner

variable {d : Bytes} {s s' : Scanner} {b : UInt8} {stop : Stop}

/-- The key that was read last, and the text since the mark. -/
theorem writtenIn_of_locates (h : Locates d s) :
    ESIAttribute.WrittenIn d ⟨s.key, trim s.since⟩ := by
  obtain ⟨hord, hpos⟩ := trail_ordered d
  have hmark : ((d.take (trail d).mark)).length = (trail d).mark := by
    rw [List.length_take, Nat.min_eq_left (hord.mark.trans hpos.le)]
  have hkey : s.key <:+: d.take (trail d).mark := by
    have hread := Span.read_append (hord.stop.trans hmark.ge) (d.drop (trail d).mark)
    rw [List.take_append_drop] at hread
    rw [h.key, hread]
    exact (trim_isInfix _).trans (Span.read_isInfix _ _)
  have hvalue : trim s.since <:+: d.drop (trail d).mark := by
    rw [h.since]
    exact trim_isInfix _
  have hwritten := writtenIn_append (a := ⟨s.key, trim s.since⟩) hkey hvalue
  rwa [List.take_append_drop] at hwritten

/-- Every attribute collected or reported is in the document. -/
theorem feedAll_recorded (h : ({} : Scanner).feedAll d = .ok s) :
    s.Recorded (ESIAttribute.WrittenIn d) := by
  induction d using List.reverseRecOn generalizing s with
  | nil =>
    obtain rfl := Except.ok.inj h
    refine ⟨fun a ha => ?_, fun name as hmem => ?_⟩
    · cases ha
    · cases hmem
  | append_singleton d b ih =>
    obtain ⟨m, hm, hb⟩ := Run.concat_ok.1 h
    obtain ⟨hcollected, hreported⟩ := ih hm
    have hmono : ∀ a : ESIAttribute, a.WrittenIn d → a.WrittenIn (d ++ [b]) :=
      fun a ha => ha.mono [] [b]
    have hrecorded : m.Recorded (ESIAttribute.WrittenIn (d ++ [b])) :=
      ⟨fun a ha => hmono a (hcollected a ha), fun name as hmem a ha =>
        hmono a (hreported name as hmem a ha)⟩
    exact hrecorded.feed hb fun _ => hmono _ (writtenIn_of_locates (feedAll_locates hm).1)

/-- A property that every attribute has when it is reported, and keeps, also in a run that fails. -/
theorem reported_of_error {P : Bytes → ESIAttribute → Prop}
    (hmono : ∀ d b a, P d a → P (d ++ [b]) a)
    (hrecorded : ∀ d s, ({} : Scanner).feedAll d = .ok s → s.Recorded (P d))
    (h : ({} : Scanner).feedAll d = .error stop) :
    ∀ name as, .startTag name as ∈ tagCalls stop.callbacks → ∀ a ∈ as, P d a := by
  induction d using List.reverseRecOn with
  | nil => cases h
  | append_singleton d b ih =>
    rw [feedAll, List.foldlM_append] at h
    rcases Run.bind_error h with h | ⟨m, hm, h⟩
    · exact fun name as hmem a ha => hmono d b a (ih h name as hmem a ha)
    · rw [List.foldlM_cons] at h
      rcases Run.bind_error h with h | ⟨m', -, h⟩
      · rw [feed_error h, enter_tagCalls]
        exact fun name as hmem a ha =>
          hmono d b a ((hrecorded d m hm).reported name as hmem a ha)
      · cases h

end Scanner

namespace ESIParser

theorem startTag_mem_tagCalls {l : List Callback} {name : Bytes} {as : List ESIAttribute} :
    .startTag name as ∈ tagCalls l ↔ .startTag name as ∈ l := by
  simp [tagCalls, Callback.isTag]

theorem parse_reported {P : Bytes → ESIAttribute → Prop}
    (hmono : ∀ d b a, P d a → P (d ++ [b]) a)
    (hrecorded : ∀ d s, ({} : Scanner).feedAll d = .ok s → s.Recorded (P d)) {chunks : List Bytes}
    (hlen : chunks.flatten.length < 2 ^ 31) {name : Bytes} {as : List ESIAttribute}
    (hmem : .startTag name as ∈ callbacksOf (parse chunks)) : ∀ a ∈ as, P chunks.flatten a := by
  rw [← startTag_mem_tagCalls, callbacksOf_parse (inRange_of_length hlen)] at hmem
  cases hfeed : ({} : Scanner).feedAll chunks.flatten with
  | error stop =>
    rw [hfeed] at hmem
    exact Scanner.reported_of_error hmono hrecorded hfeed name as hmem
  | ok s =>
    rw [hfeed, Scanner.callbacksOf, Scanner.finish, Output.flush_tagCalls] at hmem
    exact (hrecorded _ s hfeed).reported name as hmem

/-- Every attribute that a start handler is told is in the document, however this is cut into
chunks, and also if the run ends in a fault. -/
theorem attributes_written (chunks : List Bytes) (hlen : chunks.flatten.length < 2 ^ 31)
    (name : Bytes) (as : List ESIAttribute)
    (hmem : .startTag name as ∈ callbacksOf (parse chunks)) (a : ESIAttribute) (ha : a ∈ as) :
    a.WrittenIn chunks.flatten :=
  parse_reported (fun _ b _ h => h.mono [] [b]) (fun _ _ h => Scanner.feedAll_recorded h) hlen hmem
    a ha

/-- An include with two attributes, cut inside the first value. -/
theorem attributes_written_cut :
    ESIAttribute.WrittenIn
      [60, 101, 115, 105, 58, 97, 32, 98, 61, 34, 99, 100, 34, 32, 101, 61, 39, 102, 39, 47, 62]
      ⟨[101], [102]⟩ :=
  attributes_written
    [[60, 101, 115, 105, 58, 97, 32, 98, 61, 34, 99], [100, 34, 32, 101, 61, 39, 102, 39, 47, 62]]
    (by decide) [101, 115, 105, 58, 97] [⟨[98], [99, 100]⟩, ⟨[101], [102]⟩] (by decide +kernel) _
    (by decide)

end ESIParser

/-! ## Includes -/

namespace Ctx

variable {ctx ctx' : Ctx} {stack : ℕ → NgxStr}

/-- The `k`-th include has found `stack k` in its `uri`. -/
def Issued (stack : ℕ → NgxStr) (ctx : Ctx) : Prop :=
  ∀ k i, ctx.includes[k]? = some i → i = esiTagStartInclude (stack k) i.attributes

theorem Issued.of_eq (h : ctx.Issued stack) (hincludes : ctx'.includes = ctx.includes) :
    ctx'.Issued stack := by
  unfold Issued
  rw [hincludes]
  exact h

theorem Issued.concat (h : ctx.Issued stack) {attributes : List ESIAttribute}
    (hincludes : ctx'.includes =
      ctx.includes ++ [esiTagStartInclude (stack ctx.includes.length) attributes]) :
    ctx'.Issued stack := by
  intro k i hi
  rw [hincludes] at hi
  rcases Nat.lt_trichotomy k ctx.includes.length with hlt | rfl | hgt
  · rw [List.getElem?_append_left hlt] at hi
    exact h k i hi
  · rw [List.getElem?_concat_length] at hi
    obtain rfl := Option.some.inj hi
    rfl
  · rw [List.getElem?_eq_none (by rw [List.length_append]; exact hgt)] at hi
    cases hi

theorem issued_new (stack : ℕ → NgxStr) : new.Issued stack := fun k i hi => by cases hi

theorem esiTagFree_includes {tag : ℕ} (h : ctx.esiTagFree tag = .ok ctx') :
    ctx'.includes = ctx.includes := by
  obtain ⟨node, -, h⟩ := Run.bind_ok h
  obtain ⟨tags, -, h⟩ := Run.bind_ok h
  obtain ⟨tags', -, h⟩ := Run.bind_ok h
  obtain rfl := Except.ok.inj h
  rfl

theorem esiTagClose_includes {tag : ℕ} (h : ctx.esiTagClose tag = .ok ctx') :
    ctx'.includes = ctx.includes := by
  obtain ⟨node, -, h⟩ := Run.bind_ok h
  cases hval : node.val <;> rw [hval] at h <;> rw [esiTagFree_includes h]
  dsimp only
  split_ifs <;> rfl

theorem esiTagCloseChildren_includes {tag : ℕ} {type : TagType} {openTag : Option ℕ}
    (h : ctx.esiTagCloseChildren tag type = .ok (openTag, ctx')) :
    ctx'.includes = ctx.includes := by
  obtain ⟨node, -, h⟩ := Run.bind_ok h
  obtain ⟨found, -, h⟩ := Run.bind_ok h
  cases found with
  | none =>
    obtain ⟨-, rfl⟩ := Prod.mk.inj (Except.ok.inj h)
    rfl
  | some found =>
    obtain ⟨ctx₁, hclose, h⟩ := Run.bind_ok h
    obtain ⟨tags, -, h⟩ := Run.bind_ok h
    obtain ⟨-, rfl⟩ := Prod.mk.inj (Except.ok.inj h)
    have hincludes := esiTagClose_includes hclose
    exact hincludes

theorem esiTagOpen_includes {uri : NgxStr} {tag : ℕ} {attributes : List ESIAttribute}
    (h : ctx.esiTagOpen uri tag attributes = .ok ctx') :
    ctx'.includes = ctx.includes ∨
      ctx'.includes = ctx.includes ++ [esiTagStartInclude uri attributes] := by
  obtain ⟨node, -, h⟩ := Run.bind_ok h
  cases hval : node.val <;> rw [hval] at h <;> obtain rfl := Except.ok.inj h
  case esiExcept =>
    left
    split_ifs <;> rfl
  case esiInclude =>
    split_ifs
    · exact .inl rfl
    · exact .inr rfl
  all_goals exact .inl rfl

theorem Issued.startTag (hi : ctx.Issued stack) {name : Bytes} {attributes : List ESIAttribute}
    (h : ctx.esiParserStartTagCb stack name attributes = .ok ctx') : ctx'.Issued stack := by
  unfold esiParserStartTagCb at h
  cases hname : esiTagStrToType name with
  | none =>
    rw [hname] at h
    obtain rfl := Except.ok.inj h
    exact hi
  | some type =>
    rw [hname] at h
    dsimp only [esiTagNew] at h
    cases hroot : ctx.rootTag with
    | none =>
      rw [hroot] at h
      obtain ⟨ctx₁, hlink, h⟩ := Run.bind_ok h
      obtain rfl := Except.ok.inj hlink
      rcases esiTagOpen_includes h with h | h
      · exact hi.of_eq h
      · exact hi.concat h
    | some root =>
      rw [hroot] at h
      obtain ⟨last, -, h⟩ := Run.bind_ok h
      obtain ⟨tags, -, h⟩ := Run.bind_ok h
      obtain ⟨ctx₁, hlink, h⟩ := Run.bind_ok h
      obtain rfl := Except.ok.inj hlink
      rcases esiTagOpen_includes h with h | h
      · exact hi.of_eq h
      · exact hi.concat h

theorem endTag_includes {name : Bytes} (h : ctx.esiParserEndTagCb name = .ok ctx') :
    ctx'.includes = ctx.includes := by
  unfold esiParserEndTagCb at h
  cases hname : esiTagStrToType name with
  | none =>
    rw [hname] at h
    obtain rfl := Except.ok.inj h
    rfl
  | some type =>
    cases hroot : ctx.rootTag with
    | none =>
      rw [hname, hroot] at h
      obtain rfl := Except.ok.inj h
      rfl
    | some root =>
      rw [hname, hroot] at h
      obtain ⟨node, -, h⟩ := Run.bind_ok h
      split_ifs at h with htype
      · obtain ⟨ctx₁, hclose, h⟩ := Run.bind_ok h
        obtain rfl := Except.ok.inj h
        have hincludes := esiTagClose_includes hclose
        exact hincludes
      · obtain ⟨⟨openTag, ctx₁⟩, hclose, h⟩ := Run.bind_ok h
        obtain rfl := Except.ok.inj h
        have hincludes := esiTagCloseChildren_includes hclose
        exact hincludes

theorem output_includes {data : Bytes} (h : ctx.esiParserOutputCb data = .ok ctx') :
    ctx'.includes = ctx.includes := by
  obtain ⟨buf, -, h⟩ := Run.bind_ok h
  cases buf with
  | none =>
    obtain rfl := Except.ok.inj h
    rfl
  | some buf =>
    obtain ⟨⟨lastBuf, links⟩, -, h⟩ := Run.bind_ok h
    obtain rfl := Except.ok.inj h
    rfl

theorem Issued.handle (hi : ctx.Issued stack) {c : Callback}
    (h : ctx.handle stack c = .ok ctx') : ctx'.Issued stack := by
  cases c with
  | output data => exact hi.of_eq (output_includes h)
  | startTag name attributes => exact hi.startTag h
  | endTag name => exact hi.of_eq (endTag_includes h)

theorem markLast_includes (h : ctx.markLast = .ok ctx') : ctx'.includes = ctx.includes := by
  obtain ⟨link, -, h⟩ := Run.bind_ok h
  obtain ⟨val, next⟩ := link
  cases val with
  | none => cases h
  | some buf =>
    obtain ⟨links, -, h⟩ := Run.bind_ok h
    obtain rfl := Except.ok.inj h
    rfl

theorem issued_simulates (stack : ℕ → NgxStr) :
    Simulates stack Routing.handle fun r ctx => ctx.Routes r ∧ ctx.Issued stack := by
  rintro r ctx c ⟨hroutes, hissued⟩
  obtain ⟨ctx', hok, hroutes'⟩ := hroutes.handle stack c
  exact ⟨ctx', hok, hroutes', hissued.handle hok⟩

variable {s s' : Relay} {q : List (ℕ × Buf)} {c : Bool × List Buf}

theorem Relays.issued_call (h : Relays ctx s q) (hissued : ctx.Issued stack)
    (hok : ctx.call stack c = .ok ctx') : ctx'.Issued stack := by
  by_cases hc : Relay.Reads c
  · obtain ⟨s', q', hcall, -⟩ := h.step hok
    rw [Relay.call, if_pos hc] at hcall
    obtain ⟨⟨b, p'⟩, hread, -⟩ := Run.bind_ok hcall
    rw [← h.parser] at hread
    have henter : Reached Routing.handle (fun r ctx => ctx.Routes r ∧ ctx.Issued stack)
        (ctx.parser.getD .new).out.callbacks.length s.routing.enter (ctx.parser.getD .new)
        ctx.enter := by
      refine ⟨Nat.le_refl _, ?_⟩
      rw [List.drop_length]
      exact ⟨h.routes.enter, hissued⟩
    obtain ⟨ctx₁, hloop, hreached⟩ := henter.read_ok (issued_simulates stack) hread
    rw [call_reads hc, bodyFilterInput, hloop] at hok
    obtain ⟨x, hx, hok⟩ := Run.bind_ok hok
    obtain rfl := Except.ok.inj hx
    obtain ⟨ctx₂, hmark, hok⟩ := Run.bind_ok hok
    obtain rfl := Except.ok.inj hok
    have hincludes := markLast_includes hmark
    exact hreached.state.2.of_eq hincludes
  · rw [call_eq_of_not_reads hc] at hok
    obtain rfl := Except.ok.inj hok
    exact hissued

end Ctx

namespace Routing

theorem stop_included (r : Routing) (type : TagType) : (r.stop type).included = r.included := by
  have hclosed : (r.closed type).included = r.included := by cases type <;> rfl
  unfold stop
  split
  · rfl
  · split_ifs
    · exact hclosed
    · exact hclosed
    · rfl

/-- The attributes of an include are those of a start callback. -/
theorem mem_handle_included {r : Routing} {c : Callback} {attributes : List ESIAttribute}
    (h : attributes ∈ (r.handle c).included) :
    attributes ∈ r.included ∨ ∃ name, c = .startTag name attributes := by
  cases c with
  | output data =>
    rw [handle, send] at h
    split_ifs at h
    · exact .inl h
    · exact .inl h
  | startTag name as =>
    rw [handle, onTag] at h
    cases hname : esiTagStrToType name with
    | none =>
      rw [hname] at h
      exact .inl h
    | some type =>
      rw [hname] at h
      cases type with
      | esiInclude =>
        dsimp only [start, opened] at h
        split_ifs at h
        · exact .inl h
        · rcases List.mem_append.1 h with h | h
          · exact .inl h
          · rw [List.mem_singleton.1 h]
            exact .inr ⟨name, rfl⟩
      | _ => exact .inl h
  | endTag name =>
    rw [handle, onTag] at h
    cases hname : esiTagStrToType name with
    | none =>
      rw [hname] at h
      exact .inl h
    | some type =>
      rw [hname] at h
      dsimp only at h
      rw [stop_included] at h
      exact .inl h

end Routing

namespace Relay

variable {text : Bytes} {s s' : Relay} {c : Bool × List Buf}

/-- The texts that the calls so far have read account for the parser and for every include. -/
structure Sources (text : Bytes) (s : Relay) : Prop where
  parser : ∃ u d t e, text = u ++ d ∧ ({} : Scanner).feedAll d = .ok t ∧
    ESIParser.Alongside text.length e (s.parser.getD .new) t
  included : ∀ attributes ∈ s.routing.included, ∀ a ∈ attributes, a.WrittenIn text

theorem sources_new : Sources [] .new where
  parser := ⟨[], [], {}, .new, rfl, rfl, ESIParser.alongside_new 0⟩
  included attributes h := by cases h

theorem foldl_handle_included {l : List Callback}
    (hl : ∀ name attributes, .startTag name attributes ∈ l → ∀ a ∈ attributes, a.WrittenIn text)
    (h : ∀ attributes ∈ s.routing.included, ∀ a ∈ attributes, a.WrittenIn text) :
    ∀ attributes ∈ (l.foldl handle s).routing.included, ∀ a ∈ attributes, a.WrittenIn text := by
  induction l generalizing s with
  | nil => exact h
  | cons c l ih =>
    refine ih (fun name attributes hmem => hl name attributes (List.mem_cons_of_mem c hmem)) ?_
    intro attributes hmem
    rcases Routing.mem_handle_included hmem with hmem | ⟨name, rfl⟩
    · exact h attributes hmem
    · exact hl name attributes List.mem_cons_self

/-- What the parser reports in a call is in the texts read. -/
theorem Sources.read (h : s.Sources text) {input : List Buf} {b : Bool} {p' : ESIParser}
    (hlen : text.length + (inputBytes input).length < 2 ^ 31)
    (hread : (s.parser.getD .new).read input = .ok (b, p')) :
    (∀ name attributes, .startTag name attributes ∈ p'.out.callbacks →
        ∀ a ∈ attributes, a.WrittenIn (text ++ inputBytes input)) ∧
      ∃ u d t e, text ++ inputBytes input = u ++ d ∧ ({} : Scanner).feedAll d = .ok t ∧
        ESIParser.Alongside (text ++ inputBytes input).length e
          ((if b then none else some p').getD .new) t := by
  obtain ⟨u, d, t, e, htext, ht, hplace⟩ := h.parser
  obtain ⟨e', hroom⟩ := ESIParser.exists_room_of_read hplace.rests hread
  obtain ⟨t', hfeed, hleaves⟩ := (hplace.read hlen hroom).ok_left hread
  have hrun : ({} : Scanner).feedAll (d ++ inputBytes input) = .ok t' :=
    Run.append_ok.2 ⟨t, ht, Run.mapError_ok hfeed⟩
  have hout : p'.out = (if input.any Buf.lastBuf then t'.finish else t').out := hleaves.out_eq
  have htags : tagCalls p'.out.callbacks = tagCalls t'.out.callbacks := by
    rw [hout]
    split_ifs
    · exact Output.flush_tagCalls _
    · rfl
  refine ⟨fun name attributes hmem a ha => ?_, ?_⟩
  · rw [← ESIParser.startTag_mem_tagCalls, htags] at hmem
    have hwritten := (Scanner.feedAll_recorded hrun).reported name attributes hmem a ha
    have hmono := hwritten.mono u []
    rwa [List.append_nil, ← List.append_assoc, ← htext] at hmono
  · have hnext := hleaves.next
    rw [← List.length_append] at hnext
    cases hlast : input.any Buf.lastBuf with
    | true =>
      rw [hlast] at hnext
      exact ⟨text ++ inputBytes input, [], {}, e', (List.append_nil _).symm, rfl, hnext⟩
    | false =>
      rw [hlast] at hnext
      exact ⟨u, d ++ inputBytes input, t', e', by rw [htext, List.append_assoc], hrun, hnext⟩

theorem Sources.call (h : s.Sources text) (hcall : s.call c = .ok s')
    (hlen : text.length + (readBytes c).length < 2 ^ 31) : s'.Sources (text ++ readBytes c) := by
  unfold Relay.call at hcall
  unfold readBytes at hlen ⊢
  split_ifs at hcall hlen ⊢ with hc
  · obtain ⟨⟨b, p'⟩, hread, hcall⟩ := Run.bind_ok hcall
    obtain rfl := Except.ok.inj hcall
    obtain ⟨hreported, hparser⟩ := h.read hlen hread
    refine ⟨hparser, ?_⟩
    · have hdrop := List.drop_subset (s.parser.getD .new).out.callbacks.length p'.out.callbacks
      refine foldl_handle_included (s := s.enter)
        (fun name attributes hmem => hreported name attributes (hdrop hmem)) ?_
      intro attributes hmem a ha
      have hmono := (h.included attributes hmem a ha).mono [] (inputBytes c.2)
      exact hmono
  · obtain rfl := Except.ok.inj hcall
    rwa [List.append_nil]

end Relay

/-! ## Subrequests -/

theorem cstr_isPrefix (t : Bytes) : cstr t <+: t := List.takeWhile_prefix _

/-- The `src` that is requested is the value of an attribute. -/
theorem writtenIn_of_srcOf {text value : Bytes} {attributes : List ESIAttribute}
    (hall : ∀ a ∈ attributes, a.WrittenIn text) (h : srcOf attributes = some value) :
    ESIAttribute.WrittenIn text ⟨[115, 114, 99], value⟩ := by
  obtain ⟨attr, hlast, hvalue⟩ := Option.map_eq_some_iff.1 h
  obtain ⟨hmem, hname⟩ := List.mem_filter.1 (List.mem_of_getLast? hlast)
  obtain ⟨n, hn⟩ := cstr_isPrefix attr.name
  obtain ⟨v, hv⟩ := cstr_isPrefix attr.value
  rw [of_decide_eq_true hname] at hn
  rw [hvalue] at hv
  obtain ⟨pre, mid, post, htext⟩ := hall attr hmem
  refine ⟨pre, n ++ mid, v ++ post, ?_⟩
  rw [htext, ← hn, ← hv]
  simp only [List.append_assoc]

namespace Ctx

variable {stack : ℕ → NgxStr} {calls : List (Bool × List Buf)} {ctx : Ctx}

theorem includes_run (hrun : calls.foldlM (call stack) new = .ok ctx)
    (hlen : (calls.flatMap Relay.readBytes).length < 2 ^ 31) :
    ctx.Issued stack ∧
      ∀ i ∈ ctx.includes, ∀ a ∈ i.attributes, a.WrittenIn (calls.flatMap Relay.readBytes) := by
  have hinv : ∃ s q, Relays ctx s q ∧ ctx.Issued stack ∧
      ((calls.flatMap Relay.readBytes).length < 2 ^ 31 →
        s.Sources (calls.flatMap Relay.readBytes)) := by
    refine Run.invariant (I := fun done ctx => ∃ s q, Relays ctx s q ∧ ctx.Issued stack ∧
      ((done.flatMap Relay.readBytes).length < 2 ^ 31 →
        s.Sources (done.flatMap Relay.readBytes))) ?_ (u := []) ?_ hrun
    · rintro done ctx c ctx' ⟨s, q, hrelays, hissued, hsources⟩ hok
      obtain ⟨s', q', hcall, hrelays'⟩ := hrelays.step hok
      refine ⟨s', q', hrelays', hrelays.issued_call hissued hok, fun hle => ?_⟩
      rw [List.flatMap_append, List.flatMap_singleton] at hle ⊢
      rw [List.length_append] at hle
      exact (hsources (by omega)).call hcall hle
    · exact ⟨.new, [], new_relays, issued_new stack, fun _ => Relay.sources_new⟩
  obtain ⟨s, q, hrelays, hissued, hsources⟩ := hinv
  refine ⟨hissued, fun i hi => (hsources hlen).included i.attributes ?_⟩
  rw [← hrelays.routes.flags.included]
  exact List.mem_map_of_mem hi

/-- Whatever is requested is the value of a `src` in the text that the calls have read, with the
byte that ends a C string, or what an include without a `src` finds on the stack. -/
theorem subrequests_written (stack : ℕ → NgxStr) (calls : List (Bool × List Buf)) (ctx : Ctx)
    (hrun : calls.foldlM (call stack) new = .ok ctx)
    (hlen : (calls.flatMap Relay.readBytes).length < 2 ^ 31) (k : ℕ) (i : Include)
    (hi : ctx.includes[k]? = some i) (uri : NgxStr) (huri : uri ∈ i.subrequests) :
    match srcOf i.attributes with
    | some value => uri = ⟨value.length + 1, some (value ++ [0])⟩ ∧
        ESIAttribute.WrittenIn (calls.flatMap Relay.readBytes) ⟨[115, 114, 99], value⟩
    | none => uri = stack k := by
  obtain ⟨hissued, hwritten⟩ := includes_run hrun hlen
  have hattributes := hwritten i (List.mem_of_getElem? hi)
  have hfold : uri = i.attributes.foldl setUri (stack k) := by
    rw [hissued k i hi, esiTagStartInclude] at huri
    split_ifs at huri
    · exact List.mem_singleton.1 huri
    · cases huri
  rw [foldl_setUri] at hfold
  cases hsrc : srcOf i.attributes with
  | none =>
    rw [hsrc] at hfold
    exact hfold
  | some value =>
    rw [hsrc] at hfold
    exact ⟨hfold, writtenIn_of_srcOf hattributes hsrc⟩

/-- `a` in front of `<esi:include src="/b"/>`, in two calls that meet inside the tag. -/
theorem subrequests_written_cut :
    let calls := [(false, [Buf.mk (97 :: bareElement .esiVars []) false,
        Buf.mk [60, 101, 115, 105, 58, 105, 110, 99, 108, 117, 100, 101, 32, 115] false]),
      (false, [Buf.mk [114, 99, 61, 34, 47, 98, 34, 47, 62] true])]
    ∃ ctx i, calls.foldlM (call fun _ => ⟨0, none⟩) new = .ok ctx ∧ ctx.includes = [i] ∧
      i.subrequests = [⟨3, some [47, 98, 0]⟩] ∧ srcOf i.attributes = some [47, 98] ∧
      ESIAttribute.WrittenIn (calls.flatMap Relay.readBytes) ⟨[115, 114, 99], [47, 98]⟩ := by
  intro calls
  have hrun : (calls.foldlM (call fun _ => ⟨0, none⟩) new).map includes =
      .ok [⟨[⟨[115, 114, 99], [47, 98]⟩], [⟨3, some [47, 98, 0]⟩], [some [47, 98, 0]]⟩] := by
    decide +kernel
  obtain ⟨ctx, hctx, hincludes⟩ := Run.map_ok hrun
  have hfirst := congrArg (fun l => l[0]?) hincludes
  have hwritten := subrequests_written _ calls ctx hctx (by decide +kernel) 0 _ hfirst _
    List.mem_cons_self
  exact ⟨ctx, _, hctx, hincludes, rfl, by decide +kernel, hwritten.2⟩

end Ctx

end NginxEsi
