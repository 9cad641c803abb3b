import NginxEsi.Calls
import NginxEsi.TagList

/-!
# The relay

What the body filter does over any number of calls.  A call reads its input chain up to the first
buffer with `last_buf`, the elements open at its start are forgotten, and every text that the parser
hands over and the elements let through becomes one buffer at the end of the output chain.  `Relay`
is this without heaps: the parser, the routing and the texts let through so far.  The filter fails
exactly where the parser does, be it at a tag or at the end of its echo buffer, or where a call ends
before the first text was let through (`Relays.call_ok`, `Relays.call_null`, `Relays.call_error`).
Whether the echo buffer has room can be told from the inputs (`Relay.Fits`).
-/

namespace NginxEsi

open LinkedList

namespace Routing

/-- A call of the body filter begins without open elements. -/
def enter (r : Routing) : Routing := { r with stack := [], isOpen := false }

/-- The text that a callback lets through. -/
def piece (r : Routing) : Callback → List Bytes
  | .output data => if r.shows then [data] else []
  | .startTag _ _ | .endTag _ => []

end Routing

/-- The parser on an input chain, up to the first buffer with `last_buf`; the result also says
whether there was one. -/
def ESIParser.read : ESIParser → List Buf → Except Fault (Bool × ESIParser)
  | parser, [] => .ok (false, parser)
  | parser, buf :: input => do
    let parser ← (parser.executeBounded buf.bytes).mapError Stop.fault
    if buf.lastBuf then return (true, parser.finish) else parser.read input

/-- `pieces` are the texts that were let through. -/
structure Relay where
  parser : Option ESIParser
  routing : Routing
  pieces : List Bytes

namespace Relay

def new : Relay := ⟨none, .new, []⟩

/-- The filter reads the input of a call instead of passing it on. -/
def Reads (c : Bool × List Buf) : Prop := c.1 = false ∧ c.2 ≠ []

instance (c : Bool × List Buf) : Decidable (Reads c) := inferInstanceAs (Decidable (_ ∧ _))

def handle (s : Relay) (c : Callback) : Relay :=
  { s with routing := s.routing.handle c, pieces := s.pieces ++ s.routing.piece c }

/-- A call begins without open elements. -/
def enter (s : Relay) : Relay := { s with routing := s.routing.enter }

/-- A call of the body filter, with `header_only` and the input chain. -/
def call (s : Relay) (c : Bool × List Buf) : Except Fault Relay :=
  if Reads c then do
    let parser := s.parser.getD .new
    let (hasLastBuffer, parser') ← parser.read c.2
    let s := (parser'.out.callbacks.drop parser.out.callbacks.length).foldl handle s.enter
    return { s with parser := if hasLastBuffer then none else some parser' }
  else .ok s

end Relay

/-- The echo buffer over an input chain.  Behind a buffer with `last_buf` it is that of a new
parser. -/
def EchoRoom.read : EchoRoom → List Buf → Except Fault EchoRoom
  | r, [] => .ok r
  | r, buf :: input => do
    let r ← r.call buf.bytes
    if buf.lastBuf then return .new else r.read input

/-- The echo buffer over a call of the body filter. -/
def EchoRoom.filter (r : EchoRoom) (c : Bool × List Buf) : Except Fault EchoRoom :=
  if Relay.Reads c then r.read c.2 else .ok r

/-- No call of the body filter writes past the echo buffer of its parser. -/
def Relay.Fits (calls : List (Bool × List Buf)) : Prop :=
  ∃ r, calls.foldlM EchoRoom.filter .new = .ok r

instance (calls : List (Bool × List Buf)) : Decidable (Relay.Fits calls) :=
  inferInstanceAs (Decidable (∃ r, _ = Except.ok r))

theorem Relay.Fits.left {calls₁ calls₂ : List (Bool × List Buf)} (h : Fits (calls₁ ++ calls₂)) :
    Fits calls₁ := by
  obtain ⟨e, he⟩ := h
  obtain ⟨m, hm, -⟩ := Run.append_ok.1 he
  exact ⟨m, hm⟩

theorem EchoRoom.filter_of_reads {c : Bool × List Buf} (hc : Relay.Reads c) (r : EchoRoom) :
    r.filter c = r.read c.2 :=
  if_pos hc

/-! ## The output chain -/

/-- A link that holds a buffer. -/
def filled (e : ℕ × Buf) : ℕ × Option Buf := (e.1, some e.2)

/-- The chain with the last link `last` holds the buffers `q`.  Until the first one comes it is a
single link without a buffer. -/
inductive Queue (links : Heap (Option Buf)) (chain last : ℕ) : List (ℕ × Buf) → Prop
  | nil (h : Links links (some chain) [(last, none)] none) : Queue links chain last []
  | concat {q : List (ℕ × Buf)} {buf : Buf}
      (h : Links links (some chain) (q.map filled ++ [(last, some buf)]) none) :
      Queue links chain last (q ++ [(last, buf)])

namespace Queue

variable {links : Heap (Option Buf)} {chain last : ℕ} {q : List (ℕ × Buf)}

/-- A buffer goes to the end. -/
theorem append (hq : Queue links chain last q) (buf : Buf) :
    ∃ last' links', Ctx.ngxChainAppendBuffer links last buf = .ok (last', links') ∧
      Queue links' chain last' (q ++ [(last', buf)]) := by
  cases hq with
  | nil hl =>
    have hlast := hl.getElem?_last (l := [])
    refine ⟨last, _, ?_, .concat (q := []) (hl.setLast (l := []) (some buf))⟩
    simp only [Ctx.ngxChainAppendBuffer, Heap.get_some hlast, Heap.update_some hlast, bind,
      Except.bind, pure, Except.pure, Option.isSome_none, Bool.false_eq_true, if_false]
  | @concat q old hl =>
    have hlast := hl.getElem?_last
    obtain ⟨hlt, -⟩ := List.getElem?_eq_some_iff.1 hlast
    have hlast' : (links ++ [some (Node.mk (some buf) none)])[last]? =
        some (some ⟨some old, none⟩) := (List.getElem?_append_left hlt).trans hlast
    have hmap : (q ++ [(last, old)]).map filled = q.map filled ++ [(last, some old)] := by
      rw [List.map_append, List.map_singleton, filled]
    have hpush := hl.push (some buf)
    rw [← hmap] at hpush
    refine ⟨links.length, _, ?_, .concat hpush⟩
    simp only [Ctx.ngxChainAppendBuffer, Heap.get_some hlast, Heap.setNext_some hlast', bind,
      Except.bind, pure, Except.pure, Option.isSome_some, if_true]

/-- All links of a chain with a buffer hold one. -/
theorem links_filled (hq : Queue links chain last q) (hne : q ≠ []) :
    Links links (some chain) (q.map filled) none := by
  cases hq with
  | nil hl => exact absurd rfl hne
  | concat hl =>
    rw [List.map_append, List.map_singleton]
    exact hl

theorem of_nil (hq : Queue links chain last []) :
    Links links (some chain) [(last, none)] none := by
  generalize hnil : ([] : List (ℕ × Buf)) = q at hq
  cases hq with
  | nil hl => exact hl
  | concat hl => exact absurd hnil.symm (by simp)

theorem of_concat {i : ℕ} {buf : Buf} (hq : Queue links chain last (q ++ [(i, buf)])) :
    i = last ∧ Links links (some chain) (q.map filled ++ [(last, some buf)]) none := by
  generalize hconcat : q ++ [(i, buf)] = q' at hq
  cases hq with
  | nil hl => exact absurd hconcat (by simp)
  | concat hl =>
    obtain ⟨rfl, hlast⟩ := List.append_inj' hconcat rfl
    obtain ⟨rfl, rfl⟩ := Prod.mk.inj (List.singleton_inj.1 hlast)
    exact ⟨rfl, hl⟩

theorem exists_links (hq : Queue links chain last q) :
    ∃ l, Links links (some chain) l none ∧ l.filterMap (fun e => e.2.map (Prod.mk e.1)) = q := by
  cases hq with
  | nil hl => exact ⟨_, hl, rfl⟩
  | concat hl =>
    refine ⟨_, hl, ?_⟩
    simp [List.filterMap_map, filled, Function.comp_def]

theorem nodup (hq : Queue links chain last q) : (q.map Prod.fst).Nodup := by
  by_cases hne : q = []
  · rw [hne]
    exact List.nodup_nil
  · have hnodup := (hq.links_filled hne).nodup
    rwa [List.map_map] at hnodup

end Queue

namespace Ctx

variable {ctx ctx' : Ctx} {r : Routing} {q : List (ℕ × Buf)} {stack : ℕ → NgxStr}
variable {s s' : Relay} {handed : List Handed}

/-- The context inside a call: behind the buffers `q`, which were there before, the output chain has
an unmarked one for each text that was let through, and nothing was handed over. -/
structure Carries (q : List (ℕ × Buf)) (handed : List Handed) (s : Relay) (ctx : Ctx) : Prop where
  routes : ctx.Routes s.routing
  queue : ∃ more, Queue ctx.links ctx.chain ctx.lastBuf (q ++ more) ∧
    (q ++ more).map (fun e => e.2.bytes) = s.pieces ∧ ∀ e ∈ more, e.2.lastBuf = false
  handed : ctx.handed = handed

/-! ## The handlers -/

/-- A tag handler lets no text through. -/
theorem Carries.of_tagFrame (h : Carries q handed s ctx) (hframe : TagFrame ctx ctx')
    (hroutes : ctx'.Routes s'.routing) (hpieces : s'.pieces = s.pieces) :
    Carries q handed s' ctx' := by
  refine ⟨hroutes, ?_, hframe.handed.trans h.handed⟩
  rw [hframe.chain.chain, hframe.chain.lastBuf, hframe.chain.links, hpieces]
  exact h.queue

theorem Carries.output (h : Carries q handed s ctx) (data : Bytes) :
    ∃ ctx', ctx.esiParserOutputCb data = .ok ctx' ∧
      Carries q handed (s.handle (.output data)) ctx' := by
  obtain ⟨ctx', hok, hroutes⟩ := h.routes.output data
  refine ⟨ctx', hok, hroutes, ?_, (output_frame hok).2.trans h.handed⟩
  obtain ⟨more, hqueue, hpieces, hmore⟩ := h.queue
  unfold esiParserOutputCb at hok
  rw [h.routes.outputBuf_eq] at hok
  rw [Relay.handle, Routing.piece]
  by_cases hshows : s.routing.shows = true
  · obtain ⟨last, links, happend, hqueue'⟩ := hqueue.append (ngxBufFromData data)
    rw [if_pos hshows] at hok ⊢
    simp only [happend, memory_ok, bind, Except.bind, pure, Except.pure] at hok
    obtain rfl := Except.ok.inj hok
    rw [List.append_assoc] at hqueue'
    refine ⟨_, hqueue', ?_, List.forall_mem_append.2 ⟨hmore, by simp [ngxBufFromData]⟩⟩
    rw [← List.append_assoc, List.map_append, hpieces]
    rfl
  · rw [if_neg hshows] at hok ⊢
    obtain rfl := Except.ok.inj hok
    rw [List.append_nil]
    exact ⟨more, hqueue, hpieces, hmore⟩

/-- Every handler follows the relay. -/
theorem carries_simulates (stack : ℕ → NgxStr) (q : List (ℕ × Buf)) (handed : List Handed) :
    Simulates stack Relay.handle (Carries q handed) := by
  intro s ctx c h
  cases c with
  | output data => exact h.output data
  | startTag name attributes =>
    obtain ⟨ctx', hok, hroutes⟩ := h.routes.startTag stack name attributes
    exact ⟨ctx', hok, h.of_tagFrame (tagFrame_startTag hok) hroutes (List.append_nil _)⟩
  | endTag name =>
    obtain ⟨ctx', hok, hroutes⟩ := h.routes.endTag name
    exact ⟨ctx', hok, h.of_tagFrame (tagFrame_endTag hok) hroutes (List.append_nil _)⟩

/-! ## The loop -/

section Loop

variable {σ : Type} {next : σ → Callback → σ} {S : σ → Ctx → Prop} {n : ℕ} {t : σ}
variable {parser p' : ESIParser} {input : List Buf}

/-- The loop does what the parser does on the input chain. -/
theorem Reached.read_ok {b : Bool} (h : Reached next S n t parser ctx)
    (hsim : Simulates stack next S) (hread : parser.read input = .ok (b, p')) :
    ∃ ctx', bodyFilterLoop stack parser ctx input = .ok (b, p', ctx') ∧
      Reached next S n t p' ctx' := by
  induction input generalizing parser ctx with
  | nil =>
    obtain ⟨rfl, rfl⟩ := Prod.mk.inj (Except.ok.inj hread)
    exact ⟨ctx, rfl, h⟩
  | cons buf input ih =>
    rw [ESIParser.read] at hread
    obtain ⟨m, hm, hread⟩ := Run.bind_ok hread
    obtain ⟨ctx₁, hok₁, h₁⟩ := h.execute hsim (Run.mapError_ok hm)
    rw [bodyFilterLoop, hok₁]
    by_cases hlast : buf.lastBuf = true
    · rw [if_pos hlast] at hread
      obtain ⟨rfl, rfl⟩ := Prod.mk.inj (Except.ok.inj hread)
      obtain ⟨ctx', hok', h'⟩ := h₁.finish hsim
      refine ⟨ctx', ?_, h'⟩
      simp only [hok', bind, Except.bind, pure, Except.pure, if_pos hlast]
    · rw [if_neg hlast] at hread
      obtain ⟨ctx', hok', h'⟩ := ih h₁ hread
      refine ⟨ctx', ?_, h'⟩
      simp only [hok', bind, Except.bind, if_neg hlast]

theorem Reached.read_error {fault : Fault} (h : Reached next S n t parser ctx)
    (hsim : Simulates stack next S) (hread : parser.read input = .error fault) :
    bodyFilterLoop stack parser ctx input = .error (.parser fault) := by
  induction input generalizing parser ctx with
  | nil => cases hread
  | cons buf input ih =>
    rw [ESIParser.read] at hread
    rw [bodyFilterLoop]
    rcases Run.bind_error hread with hm | ⟨m, hm, hread⟩
    · obtain ⟨stop, hstop, rfl⟩ := Run.mapError_error hm
      rw [h.execute_error hsim hstop]
      rfl
    · obtain ⟨ctx₁, hok₁, h₁⟩ := h.execute hsim (Run.mapError_ok hm)
      rw [hok₁]
      by_cases hlast : buf.lastBuf = true
      · rw [if_pos hlast] at hread
        cases hread
      · rw [if_neg hlast] at hread
        simp only [ih h₁ hread, bind, Except.bind, if_neg hlast]

end Loop

/-! ## A call -/

theorem Routes.enter (h : ctx.Routes r) : ctx.enter.Routes r.enter where
  tags := ⟨[], .nil none, rfl, rfl⟩
  isOpen := fun h => absurd h Bool.false_ne_true
  flags := ⟨h.flags.1, h.flags.2, h.flags.3⟩
  holds := h.holds

/-- The context between two calls. -/
structure Relays (ctx : Ctx) (s : Relay) (q : List (ℕ × Buf)) : Prop where
  parser : ctx.parser = s.parser
  routes : ctx.Routes s.routing
  queue : Queue ctx.links ctx.chain ctx.lastBuf q
  pieces : q.map (fun e => e.2.bytes) = s.pieces

theorem new_relays : Relays new .new [] := ⟨rfl, new_routes, .nil (.cons rfl (.nil none)), rfl⟩

/-- The call of the body filter. -/
def call (stack : ℕ → NgxStr) (ctx : Ctx) (c : Bool × List Buf) : Except Crash Ctx :=
  ngxHttpEsiBodyFilter stack c.1 ctx c.2

variable {c : Bool × List Buf}

/-- A call that reads nothing passes its input on. -/
theorem Relays.call_pass (h : Relays ctx s q) (stack : ℕ → NgxStr) (hc : ¬ Relay.Reads c) :
    s.call c = .ok s ∧ ∃ ctx', ctx.call stack c = .ok ctx' ∧ Relays ctx' s q ∧
      ctx'.handed = ctx.handed ++ [.input c.2] := by
  have hpass : c.2 = [] ∨ c.1 = true := by
    by_contra hno
    obtain ⟨hne, hheader⟩ := not_or.1 hno
    exact hc ⟨Bool.eq_false_of_not_eq_true hheader, hne⟩
  exact ⟨if_neg hc, _, if_pos hpass, ⟨h.parser, h.routes.outside _ _, h.queue, h.pieces⟩, rfl⟩

theorem call_reads (hc : Relay.Reads c) :
    ctx.call stack c = do
      let (hasLastBuffer, parser, ctx) ← ctx.bodyFilterInput stack c.2
      let ctx ← ctx.markLast
      return { ctx with
        parser := if hasLastBuffer then none else some parser
        handed := ctx.handed ++ [.chain ctx.chainLinks] } := by
  rw [call, ngxHttpEsiBodyFilter, if_neg]
  rintro (hnil | hheader)
  · exact hc.2 hnil
  · rw [hc.1] at hheader
    cases hheader

theorem Relays.enter (h : Relays ctx s q) :
    Reached Relay.handle (Carries q ctx.handed) (s.parser.getD .new).out.callbacks.length s.enter
      (ctx.parser.getD .new) ctx.enter where
  le := by rw [h.parser]
  state := by
    rw [h.parser, List.drop_length]
    refine ⟨h.routes.enter, ⟨[], ?_, ?_, by simp⟩, rfl⟩
    · rw [List.append_nil]
      exact h.queue
    · rw [List.append_nil]
      exact h.pieces

/-- The loop of a call follows the relay. -/
theorem Relays.call_loop (h : Relays ctx s q) (stack : ℕ → NgxStr) (hc : Relay.Reads c)
    (hcall : s.call c = .ok s') :
    ∃ b parser ctx₁, ctx.bodyFilterInput stack c.2 = .ok (b, parser, ctx₁) ∧
      s'.parser = (if b then none else some parser) ∧ Carries q ctx.handed s' ctx₁ := by
  rw [Relay.call, if_pos hc] at hcall
  obtain ⟨⟨b, p'⟩, hread, hcall⟩ := Run.bind_ok hcall
  obtain rfl := Except.ok.inj hcall
  rw [← h.parser] at hread
  obtain ⟨ctx₁, hloop, -, hcarries⟩ :=
    h.enter.read_ok (carries_simulates stack q ctx.handed) hread
  exact ⟨b, p', ctx₁, hloop, rfl, hcarries.routes, hcarries.queue, hcarries.handed⟩

/-- Where no text has been let through yet, the filter uses the buffer that is not there. -/
theorem Relays.call_null (h : Relays ctx s q) (stack : ℕ → NgxStr) (hc : Relay.Reads c)
    (hcall : s.call c = .ok s') (hnil : s'.pieces = []) :
    ctx.call stack c = .error (.memory .null) := by
  obtain ⟨b, parser, ctx₁, hloop, -, hcarries⟩ := h.call_loop stack hc hcall
  obtain ⟨more, hqueue, hpieces, -⟩ := hcarries.queue
  rw [hnil, List.map_eq_nil_iff] at hpieces
  rw [hpieces] at hqueue
  have hlast := hqueue.of_nil.getElem?_last (l := [])
  rw [call_reads hc, hloop]
  simp only [markLast, Heap.get_some hlast, memory_ok, bind, Except.bind]

/-- What a call that reads its input leaves: the buffers `q`, the new ones behind them, and the mark
on the last one of all. -/
structure HandsOver (ctx ctx' : Ctx) (s' : Relay) (q more q₀ : List (ℕ × Buf)) (i : ℕ) (buf : Buf) :
    Prop where
  relays : Relays ctx' s' (q₀ ++ [(i, { buf with lastBuf := true })])
  buffers : q ++ more = q₀ ++ [(i, buf)]
  unmarked : ∀ e ∈ more, e.2.lastBuf = false
  handed : ctx'.handed =
    ctx.handed ++ [.chain ((q₀ ++ [(i, { buf with lastBuf := true })]).map filled)]

/-- The last buffer gets the mark. -/
theorem Queue.markLast_ok {i : ℕ} {buf : Buf}
    (h : Queue ctx.links ctx.chain ctx.lastBuf (q ++ [(i, buf)])) :
    ∃ links, ctx.markLast = .ok { ctx with links := links } ∧
      Queue links ctx.chain ctx.lastBuf (q ++ [(i, { buf with lastBuf := true })]) := by
  obtain ⟨rfl, hl⟩ := h.of_concat
  have hlast := hl.getElem?_last
  refine ⟨_, ?_, .concat (hl.setLast (some { buf with lastBuf := true }))⟩
  simp only [markLast, Heap.get_some hlast, Heap.update_some hlast, memory_ok, bind, Except.bind,
    pure, Except.pure]

/-- Otherwise it marks the last buffer and hands the whole chain over. -/
theorem Relays.call_ok (h : Relays ctx s q) (stack : ℕ → NgxStr) (hc : Relay.Reads c)
    (hcall : s.call c = .ok s') (hne : s'.pieces ≠ []) :
    ∃ ctx' more q₀ i buf, ctx.call stack c = .ok ctx' ∧
      HandsOver ctx ctx' s' q more q₀ i buf := by
  obtain ⟨b, parser, ctx₁, hloop, hparser, hcarries⟩ := h.call_loop stack hc hcall
  obtain ⟨more, hqueue, hpieces, hmore⟩ := hcarries.queue
  rcases (q ++ more).eq_nil_or_concat' with hnil | ⟨q₀, ⟨i, buf⟩, hq⟩
  · rw [hnil] at hpieces
    exact absurd hpieces.symm hne
  rw [hq] at hqueue hpieces
  obtain ⟨links, hmark, hqueue'⟩ := Queue.markLast_ok hqueue
  have hlinks := hqueue'.links_filled (by simp)
  have hchain : chainLinks { ctx₁ with links := links } =
      (q₀ ++ [(i, { buf with lastBuf := true })]).map filled := hlinks.nodes_eq hlinks.length_le
  refine ⟨{ ctx₁ with
    links := links
    parser := if b then none else some parser
    handed := ctx₁.handed ++ [.chain (chainLinks { ctx₁ with links := links })] },
    more, q₀, i, buf, ?_, ⟨hparser.symm, ?_, hqueue', ?_⟩, hq, hmore, ?_⟩
  · rw [call_reads hc, hloop]
    simp only [hmark, bind, Except.bind, pure, Except.pure]
  · exact hcarries.routes.after hmark _ _
  · rw [← hpieces, List.map_append, List.map_append]
    rfl
  · rw [hchain, hcarries.handed]

/-- The filter faults where the parser does. -/
theorem Relays.call_error {fault : Fault} (h : Relays ctx s q) (stack : ℕ → NgxStr)
    (hcall : s.call c = .error fault) : ctx.call stack c = .error (.parser fault) := by
  have hc : Relay.Reads c := by
    by_contra hc
    rw [Relay.call, if_neg hc] at hcall
    cases hcall
  rw [Relay.call, if_pos hc] at hcall
  rcases Run.bind_error hcall with hread | ⟨m, -, hcall⟩
  · rw [← h.parser] at hread
    have hloop := h.enter.read_error (carries_simulates stack q ctx.handed) hread
    rw [call_reads hc, bodyFilterInput, hloop]
    rfl
  · cases hcall

/-! ## A run of calls -/

/-- Everything that a call without a fault can do. -/
theorem Relays.call_cases (h : Relays ctx s q) (hok : ctx.call stack c = .ok ctx') :
    (¬ Relay.Reads c ∧ s.call c = .ok s ∧ Relays ctx' s q ∧
        ctx'.handed = ctx.handed ++ [.input c.2]) ∨
      (Relay.Reads c ∧ ∃ s' more q₀ i buf, s.call c = .ok s' ∧
        HandsOver ctx ctx' s' q more q₀ i buf) := by
  by_cases hc : Relay.Reads c
  · refine .inr ⟨hc, ?_⟩
    cases hcall : s.call c with
    | error fault =>
      rw [h.call_error stack hcall] at hok
      cases hok
    | ok s' =>
      have hne : s'.pieces ≠ [] := by
        intro hnil
        rw [h.call_null stack hc hcall hnil] at hok
        cases hok
      obtain ⟨ctx'', more, q₀, i, buf, hrun, h'⟩ := h.call_ok stack hc hcall hne
      obtain rfl := Except.ok.inj (hrun.symm.trans hok)
      exact ⟨s', more, q₀, i, buf, rfl, h'⟩
  · obtain ⟨hcall, ctx'', hrun, hrelays, hhanded⟩ := h.call_pass stack hc
    obtain rfl := Except.ok.inj (hrun.symm.trans hok)
    exact .inl ⟨hc, hcall, hrelays, hhanded⟩

theorem Relays.step (h : Relays ctx s q) (hok : ctx.call stack c = .ok ctx') :
    ∃ s' q', s.call c = .ok s' ∧ Relays ctx' s' q' := by
  rcases h.call_cases hok with ⟨-, hcall, h', -⟩ | ⟨-, s', more, q₀, i, buf, hcall, h'⟩
  · exact ⟨s, q, hcall, h'⟩
  · exact ⟨s', _, hcall, h'.relays⟩

/-- Calls without a fault are calls of the relay. -/
theorem relays_run {calls : List (Bool × List Buf)}
    (h : calls.foldlM (call stack) new = .ok ctx) :
    ∃ s q, calls.foldlM Relay.call .new = .ok s ∧ Relays ctx s q := by
  refine Run.invariant (I := fun done ctx => ∃ s q, done.foldlM Relay.call .new = .ok s ∧
    Relays ctx s q) ?_ (u := []) ⟨.new, [], rfl, new_relays⟩ h
  rintro done ctx c ctx' ⟨s, q, hrun, hrelays⟩ hok
  obtain ⟨s', q', hcall, hrelays'⟩ := hrelays.step hok
  exact ⟨s', q', Run.concat_ok.2 ⟨s, hrun, hcall⟩, hrelays'⟩

end Ctx

end NginxEsi
