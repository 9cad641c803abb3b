import NginxEsi.Downstream
import NginxEsi.Segments

/-!
# Responses without tags

A response without `<esi:` and `</esi:` goes through the filter in buffers of 1024 bytes, whatever
its calls are, as long as no call ends inside what may become a tag and none is written past the
echo buffer.  The first call that reads its input fails when it reads less than one buffer, and no
other one does (`tagless_calls`).  The call with the last buffer sends the rest
(`tagless_finished`).  The links of the output chain are fresh ones.
-/

namespace NginxEsi

/-! ## Full buffers -/

namespace Output

variable {o : Output} {text : Bytes} {full : List Bytes}

/-- The text has been sent in full buffers, but for what is in the output buffer. -/
structure Fills (text : Bytes) (full : List Bytes) (o : Output) : Prop where
  callbacks : o.callbacks = full.map .output
  text : full.flatten ++ o.buffer = text
  length : ∀ u ∈ full, u.length = esiOutputBufferSize
  room : o.buffer.length < esiOutputBufferSize

theorem fills_new : Fills [] [] {} := ⟨rfl, rfl, List.forall_mem_nil _, by decide⟩

theorem Fills.echoChar (h : Fills text full o) (b : UInt8) :
    ∃ more, Fills (text ++ [b]) (full ++ more) (o.echoChar b) := by
  have hroom := h.room
  have htext : full.flatten ++ (o.buffer ++ [b]) = text ++ [b] := by
    rw [← h.text, List.append_assoc]
  have hlength : (o.buffer ++ [b]).length = o.buffer.length + 1 := List.length_append
  unfold Output.echoChar
  dsimp only
  split_ifs with hfull
  · have hlast : ∀ u ∈ [o.buffer ++ [b]], u.length = esiOutputBufferSize :=
      List.forall_mem_singleton.2 hfull
    refine ⟨[o.buffer ++ [b]], ?_, ?_, List.forall_mem_append.2 ⟨h.length, hlast⟩, ?_⟩
    · rw [flush, if_pos (by rw [hlength]; omega), h.callbacks, List.map_append]
      rfl
    · rw [flush_buffer, List.append_nil, List.flatten_append, List.flatten_singleton, htext]
    · rw [flush_buffer]
      decide
  · refine ⟨[], ?_, ?_, ?_, ?_⟩
    · rw [List.append_nil]
      exact h.callbacks
    · rw [List.append_nil]
      exact htext
    · rw [List.append_nil]
      exact h.length
    · dsimp only
      omega

theorem Fills.foldl (h : Fills text full o) (u : Bytes) :
    ∃ more, Fills (text ++ u) (full ++ more) (u.foldl Output.echoChar o) := by
  induction u generalizing o text full with
  | nil => exact ⟨[], by simpa using h⟩
  | cons b u ih =>
    obtain ⟨first, hfirst⟩ := h.echoChar b
    obtain ⟨more, hmore⟩ := ih hfirst
    refine ⟨first ++ more, ?_⟩
    rwa [List.append_cons text b u, ← List.append_assoc full]

theorem Fills.length_eq (h : Fills text full o) :
    text.length = esiOutputBufferSize * full.length + o.buffer.length := by
  have hfull : full.flatten.length = esiOutputBufferSize * full.length := by
    rw [List.length_flatten, List.map_congr_left h.length, List.map_const', List.sum_replicate_nat,
      Nat.mul_comm]
  rw [← h.text, List.length_append, hfull]

/-- There are as many full buffers as the text fills. -/
theorem Fills.count_eq (h : Fills text full o) :
    full.length = text.length / esiOutputBufferSize := by
  have hroom := h.room
  rw [h.length_eq, Nat.mul_add_div (by decide), Nat.div_eq_of_lt hroom, Nat.add_zero]

theorem Fills.flatten_eq (h : Fills text full o) : full.flatten =
    text.take (esiOutputBufferSize * (text.length / esiOutputBufferSize)) := by
  have hlength := h.length_eq
  rw [← h.text, List.length_append, Nat.add_right_cancel_iff] at hlength
  rw [← h.count_eq, ← hlength, ← h.text, List.take_left]

/-- What the last flush adds. -/
theorem Fills.flush (h : Fills text full o) :
    ∃ rest, o.flush.callbacks = (full ++ rest).map .output ∧ (full ++ rest).flatten = text ∧
      (full ++ rest = [] → text = []) := by
  by_cases hpos : o.buffer.length > 0
  · refine ⟨[o.buffer], ?_, ?_, fun hnil => ?_⟩
    · rw [Output.flush, if_pos hpos, List.map_append, ← h.callbacks]
      rfl
    · rw [List.flatten_append, List.flatten_singleton, h.text]
    · exact absurd (List.append_eq_nil_iff.1 hnil).2 (List.cons_ne_nil _ _)
  · have hnil : o.buffer = [] := List.length_eq_zero_iff.1 (Nat.eq_zero_of_not_pos hpos)
    have htext := h.text
    rw [hnil, List.append_nil] at htext
    refine ⟨[], ?_, ?_, fun hfull => ?_⟩
    · rw [Output.flush, if_neg hpos, List.append_nil, h.callbacks]
    · rw [List.append_nil, htext]
    · rw [List.append_nil] at hfull
      rw [← htext, hfull, List.flatten_nil]

end Output

/-! ## The calls -/

/-- A call whose text has no tag and does not end inside what may become one, and whose buffers do
not end the response. -/
structure Relay.Tagless (c : Bool × List Buf) : Prop where
  tagFree : TagFree (Relay.readBytes c)
  complete : ¬ Pending (Relay.readBytes c)
  unfinished : ∀ buf ∈ c.2, buf.lastBuf = false

namespace Downstream

variable {d : Downstream} {text : Bytes} {full : List Bytes} {c : Bool × List Buf}

/-- After calls that have read `text`, no element has been seen and the chain holds the full
buffers. -/
structure Flows (text : Bytes) (full : List Bytes) (d : Downstream) : Prop where
  ready : d.scanner.Ready
  fills : d.scanner.out.Fills text full
  routing : d.routing = { Routing.new with sent := full.flatten }
  chain : d.chain.map Buf.bytes = full

theorem new_flows : Flows [] [] new := ⟨Scanner.ready_new, Output.fills_new, rfl, rfl⟩

/-- Outside elements every text is let through. -/
theorem foldl_output {u : Bytes} (l : List Bytes)
    (h : d.routing = { Routing.new with sent := u }) :
    (l.map Callback.output).foldl handle d = { d with
      routing := { Routing.new with sent := u ++ l.flatten }
      chain := d.chain ++ l.map Ctx.ngxBufFromData } := by
  induction l generalizing d u with
  | nil =>
    rw [List.map_nil, List.map_nil, List.foldl_nil, List.flatten_nil, List.append_nil,
      List.append_nil, ← h]
  | cons v l ih =>
    have hfirst : d.handle (.output v) = { d with
        routing := { Routing.new with sent := u ++ v }
        chain := d.chain ++ [Ctx.ngxBufFromData v] } := by
      rw [handle, h]
      rfl
    rw [List.map_cons, List.foldl_cons, hfirst, ih rfl]
    simp

theorem mark_bytes (chain : List Buf) : (mark chain).map Buf.bytes = chain.map Buf.bytes := by
  rcases chain.eq_nil_or_concat' with rfl | ⟨l, buf, rfl⟩
  · rfl
  · rw [mark, List.modifyLast_concat, List.map_append, List.map_append]
    rfl

theorem Flows.feedAll (h : Flows text full d) {u : Bytes} (hfree : TagFree u) (hp : ¬ Pending u) :
    ∃ s more, d.scanner.feedAll u = .ok s ∧ s.Ready ∧ s.out.Fills (text ++ u) (full ++ more) := by
  obtain ⟨s, hs, hrest, hheld, hout, hattr⟩ :=
    Scanner.feedAll_text h.ready.rest h.ready.held hfree hp
  obtain ⟨more, hmore⟩ := h.fills.foldl u
  rw [← hout] at hmore
  exact ⟨s, more, hs, ⟨hrest, hheld, hattr.trans h.ready.attributes⟩, hmore⟩

/-- The callbacks of a call are the full buffers that its text has completed. -/
theorem Flows.follow (h : Flows text full d) {s : Scanner} {more : List Bytes}
    (hs : s.out.callbacks = (full ++ more).map .output) (last : Bool) :
    d.follow last s = { d with
      scanner := if last then {} else s
      routing := { Routing.new with sent := (full ++ more).flatten }
      chain := d.chain ++ more.map Ctx.ngxBufFromData } := by
  have hrouting : d.routing.enter = d.routing := by
    rw [h.routing]
    rfl
  have henter : d.enter = d := by rw [enter, hrouting]
  have hdrop : s.out.callbacks.drop d.scanner.out.callbacks.length = more.map .output := by
    rw [hs, h.fills.callbacks, List.map_append, List.drop_left]
  rw [Downstream.follow, hdrop, henter, foldl_output more h.routing, List.flatten_append]

/-- A call has something to hand over as soon as there is a full buffer. -/
theorem Flows.handOver (h : Flows text full d) : (text.length < esiOutputBufferSize →
      d.handOver = .error (.memory .null)) ∧
    (esiOutputBufferSize ≤ text.length →
      ∃ d', d.handOver = .ok d' ∧ Flows text full d') := by
  have hcount := h.fills.count_eq
  have hnil : d.chain = [] ↔ full.length = 0 := by
    rw [← h.chain, List.length_map, List.length_eq_zero_iff]
  constructor
  · intro hshort
    rw [Nat.div_eq_of_lt hshort] at hcount
    rw [Downstream.handOver, if_pos (hnil.2 hcount)]
  · intro hlong
    have hpos := Nat.div_pos hlong (by decide)
    rw [Downstream.handOver, if_neg fun hd => by rw [hnil.1 hd] at hcount; omega]
    exact ⟨_, rfl, h.ready, h.fills, h.routing, (mark_bytes d.chain).trans h.chain⟩

theorem Tagless.any_eq (h : Relay.Tagless c) : c.2.any Buf.lastBuf = false := by
  rw [List.any_eq_false]
  intro buf hbuf
  rw [h.unfinished buf hbuf]
  exact Bool.false_ne_true

/-- A call that reads text without tags. -/
theorem Flows.call (h : Flows text full d) (htagless : Relay.Tagless c) (hc : Relay.Reads c) :
    ∃ d' more, d.call c = d'.handOver ∧ Flows (text ++ Relay.readBytes c) (full ++ more) d' := by
  have hfree := htagless.tagFree
  have hcomplete := htagless.complete
  have hany := Tagless.any_eq htagless
  unfold Relay.readBytes at hfree hcomplete ⊢
  rw [if_pos hc] at hfree hcomplete ⊢
  obtain ⟨s, more, hs, hready, hfills⟩ := h.feedAll hfree hcomplete
  have hfollow := h.follow hfills.callbacks false
  refine ⟨d.follow false s, more, ?_, ?_⟩
  · rw [Downstream.call, if_pos hc, hs, hany]
    rfl
  · rw [hfollow]
    refine ⟨hready, hfills, rfl, ?_⟩
    dsimp only
    rw [List.map_append, h.chain, List.map_map]
    exact congrArg _ (List.map_id _)

theorem Flows.pass (h : Flows text full d) (hc : ¬ Relay.Reads c) :
    d.call c = .ok { d with handed := d.handed ++ [c.2] } ∧
      Flows (text ++ Relay.readBytes c) full { d with handed := d.handed ++ [c.2] } := by
  rw [Relay.readBytes, if_neg hc, List.append_nil, Downstream.call, if_neg hc]
  exact ⟨rfl, h.ready, h.fills, h.routing, h.chain⟩

/-- The calls get through when the first one that reads its input completes a buffer. -/
theorem Flows.run (h : Flows text full d) {calls : List (Bool × List Buf)}
    (htagless : ∀ c ∈ calls, Relay.Tagless c) (hfirst : ∀ c ∈ calls.find? fun c => Relay.Reads c,
      esiOutputBufferSize ≤ (text ++ Relay.readBytes c).length) :
    ∃ d' full', calls.foldlM Downstream.call d = .ok d' ∧
      Flows (text ++ calls.flatMap Relay.readBytes) full' d' := by
  induction calls generalizing d text full with
  | nil =>
    refine ⟨d, full, rfl, ?_⟩
    rwa [List.flatMap_nil, List.append_nil]
  | cons c calls ih =>
    obtain ⟨hc, htagless⟩ := List.forall_mem_cons.1 htagless
    rw [List.flatMap_cons, ← List.append_assoc]
    by_cases hreads : Relay.Reads c
    · have hlong := hfirst c (List.find?_cons_of_pos (by simpa using hreads))
      obtain ⟨d₁, more, hcall, h₁⟩ := h.call hc hreads
      obtain ⟨d₂, hok, h₂⟩ := h₁.handOver.2 hlong
      obtain ⟨d', full', hrun, h'⟩ := ih h₂ htagless fun c _ => by
        rw [List.length_append]
        exact Nat.le_add_right_of_le hlong
      exact ⟨d', full', Run.cons_ok.2 ⟨d₂, hcall.trans hok, hrun⟩, h'⟩
    · obtain ⟨hcall, h₁⟩ := h.pass hreads
      have hnone : Relay.readBytes c = [] := if_neg hreads
      rw [List.find?_cons_of_neg (by simpa using hreads)] at hfirst
      obtain ⟨d', full', hrun, h'⟩ := ih h₁ htagless (by rwa [hnone, List.append_nil])
      exact ⟨d', full', Run.cons_ok.2 ⟨_, hcall, hrun⟩, h'⟩

theorem Flows.run_short (h : Flows text full d) {calls : List (Bool × List Buf)}
    (htagless : ∀ c ∈ calls, Relay.Tagless c)
    (hfirst : calls.find? (fun c => Relay.Reads c) = some c)
    (hshort : (text ++ Relay.readBytes c).length < esiOutputBufferSize) :
    calls.foldlM Downstream.call d = .error (.memory .null) := by
  induction calls generalizing d text full with
  | nil => cases hfirst
  | cons c' calls ih =>
    obtain ⟨hc, htagless⟩ := List.forall_mem_cons.1 htagless
    rw [List.foldlM_cons]
    by_cases hreads : Relay.Reads c'
    · rw [List.find?_cons_of_pos (by simpa using hreads)] at hfirst
      obtain rfl := Option.some.inj hfirst
      obtain ⟨d₁, more, hcall, h₁⟩ := h.call hc hreads
      rw [hcall, h₁.handOver.1 hshort]
      rfl
    · rw [List.find?_cons_of_neg (by simpa using hreads)] at hfirst
      obtain ⟨hcall, h₁⟩ := h.pass hreads
      have hnone : Relay.readBytes c' = [] := if_neg hreads
      rw [hcall]
      exact ih h₁ htagless hfirst (by rwa [hnone, List.append_nil])

/-- The call that ends the response sends what is left. -/
theorem Flows.finish (h : Flows text full d) {input : List Buf} (hne : input ≠ [])
    (hfree : TagFree (inputBytes input)) (hp : ¬ Pending (inputBytes input))
    (hlast : input.any Buf.lastBuf = true) (htext : text ++ inputBytes input ≠ []) :
    ∃ d', d.call (false, input) = .ok d' ∧
      d'.routing = { Routing.new with sent := text ++ inputBytes input } := by
  obtain ⟨s, more, hs, -, hfills⟩ := h.feedAll hfree hp
  obtain ⟨rest, hcallbacks, hflatten, hnil⟩ := hfills.flush
  rw [List.append_assoc] at hcallbacks hflatten hnil
  have hfollow := h.follow (s := s.finish) hcallbacks true
  have hchain : (d.follow true s.finish).chain ≠ [] := by
    rw [hfollow]
    intro hd
    obtain ⟨hchain, hmore⟩ := List.append_eq_nil_iff.1 hd
    refine htext (hnil (List.append_eq_nil_iff.2 ⟨?_, List.map_eq_nil_iff.1 hmore⟩))
    rw [← h.chain, hchain, List.map_nil]
  have hcall : d.call (false, input) = (d.follow true s.finish).handOver := by
    rw [Downstream.call, if_pos ⟨rfl, hne⟩, hs, hlast]
    rfl
  rw [hcall, Downstream.handOver, if_neg hchain]
  refine ⟨_, rfl, ?_⟩
  rw [hfollow]
  dsimp only
  rw [hflatten]

end Downstream

namespace Ctx

variable {stack : ℕ → NgxStr} {n : ℕ} {e : EchoRoom} {ctx : Ctx} {d : Downstream} {text : Bytes}
variable {full : List Bytes}

/-- Outside elements the filter has put every text into its chain. -/
theorem Delivers.sent (h : Delivers stack n e ctx d)
    (hrouting : d.routing = { Routing.new with sent := text }) :
    ctx.bytes = text ∧ ctx.includes = [] := by
  obtain ⟨q, hrelays, -⟩ := h.relays
  have hsent := hrelays.routes.holds.bytes_eq
  have hincluded := hrelays.routes.flags.included
  dsimp only at hsent hincluded
  rw [hrouting] at hsent hincluded
  exact ⟨hsent, List.map_eq_nil_iff.1 hincluded⟩

theorem Delivers.flows (h : Delivers stack n e ctx d) (hflows : d.Flows text full) :
    ctx.chainBuffers.map (fun e => e.2.bytes) = full := by
  obtain ⟨q, hrelays, hchain⟩ := h.relays
  rw [hrelays.chainBuffers_eq, ← hflows.chain, ← hchain, List.map_map]
  rfl

/-- Over any calls with a text without tags, of less than 2 GiB and with room in the echo buffer,
the filter fails when the first call that reads its input reads less than 1024 bytes.  Otherwise the
chain holds what has filled buffers of 1024 bytes, and nothing else. -/
theorem tagless_calls (stack : ℕ → NgxStr) (calls : List (Bool × List Buf))
    (htagless : ∀ c ∈ calls, Relay.Tagless c)
    (hlen : (calls.flatMap Relay.readBytes).length < 2 ^ 31) (hfits : Relay.Fits calls) :
    let text := calls.flatMap Relay.readBytes
    (∀ c, calls.find? (fun c => Relay.Reads c) = some c →
        (Relay.readBytes c).length < esiOutputBufferSize →
        calls.foldlM (call stack) new = .error (.memory .null)) ∧
      ((∀ c, calls.find? (fun c => Relay.Reads c) = some c →
          esiOutputBufferSize ≤ (Relay.readBytes c).length) →
        ∃ ctx, calls.foldlM (call stack) new = .ok ctx ∧ ctx.includes = [] ∧
          ctx.bytes =
            text.take (esiOutputBufferSize * (text.length / esiOutputBufferSize)) ∧
          ∀ e ∈ ctx.chainBuffers, e.2.bytes.length = esiOutputBufferSize) := by
  intro text
  have hagree := run_downstream stack calls hlen hfits
  constructor
  · intro c hfirst hshort
    exact hagree.error_right (Downstream.new_flows.run_short htagless hfirst hshort)
  · intro hfirst
    obtain ⟨d, full, hd, hflows⟩ := Downstream.new_flows.run htagless hfirst
    obtain ⟨ctx, hctx, n, e, h⟩ := hagree.ok_right hd
    obtain ⟨hbytes, hincludes⟩ := h.sent hflows.routing
    refine ⟨ctx, hctx, hincludes, hbytes.trans hflows.fills.flatten_eq, fun buf hbuf => ?_⟩
    refine hflows.fills.length buf.2.bytes ?_
    rw [← h.flows hflows]
    exact List.mem_map_of_mem hbuf

/-- A call with 1500 bytes of text. -/
theorem tagless_calls_text :
    let text : Bytes := List.replicate 1500 97
    ∃ ctx, [(false, [Buf.mk text false])].foldlM (call fun _ => ⟨0, none⟩) new = .ok ctx ∧
      ctx.includes = [] ∧ ctx.bytes = text.take 1024 ∧
      ∀ e ∈ ctx.chainBuffers, e.2.bytes.length = esiOutputBufferSize := by
  intro text
  have hfree : (60 : UInt8) ∉ text := fun h => absurd (List.eq_of_mem_replicate h) (by decide)
  have hread : Relay.readBytes (false, [Buf.mk text false]) = text :=
    (if_pos ⟨rfl, List.cons_ne_nil _ _⟩).trans (List.append_nil text)
  have hlength : text.length = 1500 := List.length_replicate
  have hcalls := (tagless_calls (fun _ => ⟨0, none⟩) [(false, [Buf.mk text false])] ?_ ?_ ?_).2 ?_
  · obtain ⟨ctx, hok, hincludes, hbytes, hbuffers⟩ := hcalls
    refine ⟨ctx, hok, hincludes, ?_, hbuffers⟩
    rw [hbytes, List.flatMap_singleton, hread, hlength]
    rfl
  · refine List.forall_mem_singleton.2 ⟨?_, ?_, List.forall_mem_singleton.2 rfl⟩
    · rw [hread]
      exact tagFree_of_not_mem hfree
    · rw [hread]
      exact not_pending_of_not_mem hfree
  · rw [List.flatMap_singleton, hread, hlength]
    decide
  · decide +kernel
  · intro c hc
    obtain rfl := List.mem_singleton.1 (List.mem_of_find?_eq_some hc)
    rw [hread, hlength]
    decide

end Ctx

end NginxEsi
