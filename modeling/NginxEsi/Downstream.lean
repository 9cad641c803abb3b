import Mathlib.Data.List.ModifyLast
import NginxEsi.Provenance

/-!
# What goes downstream

`Downstream` is the purpose of the body filter, without heaps, pointers and chunks: the scanner, the
routing, the buffers of the output chain as a list, and what was handed over.  Over any calls the
filter hands over what `Downstream` does, requests what it does, and fails where it does
(`calls_downstream`).

Three things are outside `Downstream`.  No call may write past the echo buffer (`Relay.Fits`).  The
`uri` of an include without a `src` is not set, and what it holds must do no harm (`Harmless`).  And
the links of the output chain are fresh ones, none that `ngx_free_chain` was given.
-/

namespace NginxEsi

open LinkedList

/-- The buffers that the next body filter is called with. -/
def Handed.bufs : Handed → List Buf
  | .input bufs => bufs
  | .chain links => (buffers links).map Prod.snd

/-! ## Requests -/

/-- What the includes without a `src` find in their `uri`, which is not set, does no harm: for the
length 0 there is no subrequest, and `ngx_pfree` leaves alone a pointer that it does not know. -/
def Harmless (frees : Option Bytes → Prop) (stack : ℕ → NgxStr) : Prop :=
  ∀ k, (stack k).len = 0 ∧ ¬ frees (stack k).data

/-- The subrequests of includes with these attributes: one for each `src`, with the byte that ends
the C string. -/
def requests (included : List (List ESIAttribute)) : List NgxStr :=
  included.filterMap fun attributes => (srcOf attributes).map fun value =>
    ⟨value.length + 1, some (value ++ [0])⟩

/-- The includes have requested what their attributes say, and nothing else was freed than what they
had allocated. -/
structure Requested (frees : Option Bytes → Prop) (included : List (List ESIAttribute))
    (includes : List Include) : Prop where
  attributes : includes.map Include.attributes = included
  subrequests : includes.flatMap Include.subrequests = requests included
  pfree : ∀ i ∈ includes, srcOf i.attributes = none → ∀ data ∈ i.pfree, ¬ frees data

theorem Ctx.Issued.requested {stack : ℕ → NgxStr} {ctx : Ctx} {frees : Option Bytes → Prop}
    (h : ctx.Issued stack) (hstack : Harmless frees stack) :
    Requested frees (ctx.includes.map Include.attributes) ctx.includes := by
  have hissued : ∀ i ∈ ctx.includes, ∃ k, i = esiTagStartInclude (stack k) i.attributes := by
    intro i hi
    obtain ⟨k, hk⟩ := List.mem_iff_getElem?.1 hi
    exact ⟨k, h k i hk⟩
  refine ⟨rfl, ?_, fun i hi hsrc data hdata => ?_⟩
  · rw [requests, List.filterMap_map, List.filterMap_eq_flatMap_toList]
    refine List.flatMap_congr fun i hi => ?_
    obtain ⟨k, hk⟩ := hissued i hi
    rw [congrArg Include.subrequests hk, esiTagStartInclude, foldl_setUri, Function.comp_apply]
    cases srcOf i.attributes with
    | none =>
      dsimp only
      rw [(hstack k).1]
      rfl
    | some value =>
      dsimp only
      rw [if_pos (Nat.succ_pos _)]
      rfl
  · obtain ⟨k, hk⟩ := hissued i hi
    rw [congrArg Include.pfree hk, esiTagStartInclude, foldl_setUri, hsrc] at hdata
    rw [List.mem_singleton.1 hdata]
    exact (hstack k).2

/-! ## The model -/

structure Downstream where
  scanner : Scanner
  routing : Routing
  chain : List Buf
  handed : List (List Buf)

namespace Downstream

def new : Downstream := ⟨{}, .new, [], []⟩

/-- A text that is let through is one buffer more. -/
def handle (d : Downstream) (c : Callback) : Downstream :=
  { d with
    routing := d.routing.handle c
    chain := d.chain ++ (d.routing.piece c).map Ctx.ngxBufFromData }

/-- The mark on the last buffer. -/
def mark (chain : List Buf) : List Buf :=
  chain.modifyLast fun buf => { buf with lastBuf := true }

/-- A call begins without open elements. -/
def enter (d : Downstream) : Downstream := { d with routing := d.routing.enter }

/-- The callbacks that have brought the scanner to `s`; behind a buffer with `last_buf` there is a
new one. -/
def follow (d : Downstream) (last : Bool) (s : Scanner) : Downstream :=
  { (s.out.callbacks.drop d.scanner.out.callbacks.length).foldl handle d.enter with
    scanner := if last then {} else s }

/-- The end of a call. -/
def handOver (d : Downstream) : Except Crash Downstream :=
  if d.chain = [] then .error (.memory .null)
  else .ok { d with chain := mark d.chain, handed := d.handed ++ [mark d.chain] }

/-- A call of the body filter, with `header_only` and the input chain. -/
def call (d : Downstream) (c : Bool × List Buf) : Except Crash Downstream :=
  if Relay.Reads c then do
    let s ← ((d.scanner.feedAll (inputBytes c.2)).mapError Stop.fault).mapError Crash.parser
    let last := c.2.any Buf.lastBuf
    (d.follow last (if last then s.finish else s)).handOver
  else .ok { d with handed := d.handed ++ [c.2] }

/-! ## The buffers of the chain -/

/-- The relay and `Downstream` inside a call, with the chain `l` before. -/
structure Alike (l : List Buf) (s : Relay) (d : Downstream) : Prop where
  routing : s.routing = d.routing
  pieces : s.pieces = d.chain.map Buf.bytes
  chain : ∃ more, d.chain = l ++ more ∧ ∀ buf ∈ more, buf.lastBuf = false

variable {l : List Buf} {s : Relay} {d : Downstream}

theorem Alike.handle (h : Alike l s d) (c : Callback) : Alike l (s.handle c) (d.handle c) := by
  obtain ⟨more, hchain, hmore⟩ := h.chain
  have hpieces : (s.handle c).pieces = (d.handle c).chain.map Buf.bytes := by
    rw [Relay.handle, Downstream.handle, h.pieces, h.routing, List.map_append, List.map_map]
    exact congrArg _ (List.map_id _).symm
  refine ⟨congrArg (Routing.handle · c) h.routing, hpieces,
    more ++ (d.routing.piece c).map Ctx.ngxBufFromData, ?_, ?_⟩
  · rw [Downstream.handle, hchain, List.append_assoc]
  · refine List.forall_mem_append.2 ⟨hmore, ?_⟩
    simp [Ctx.ngxBufFromData]

theorem Alike.foldl (h : Alike l s d) (callbacks : List Callback) :
    Alike l (callbacks.foldl Relay.handle s) (callbacks.foldl Downstream.handle d) := by
  induction callbacks generalizing s d with
  | nil => exact h
  | cons c callbacks ih => exact ih (h.handle c)

theorem follow_handed (d : Downstream) (last : Bool) (s : Scanner) :
    (d.follow last s).handed = d.handed := by
  have hfoldl (callbacks : List Callback) (d : Downstream) :
      (callbacks.foldl handle d).handed = d.handed := by
    induction callbacks generalizing d with
    | nil => rfl
    | cons c callbacks ih => exact ih _
  exact hfoldl _ _

/-- Buffers without a mark are their texts. -/
theorem unmarked_eq {l₁ l₂ : List Buf} (h₁ : ∀ buf ∈ l₁, buf.lastBuf = false)
    (h₂ : ∀ buf ∈ l₂, buf.lastBuf = false) (h : l₁.map Buf.bytes = l₂.map Buf.bytes) : l₁ = l₂ := by
  have hmap (l : List Buf) (h : ∀ buf ∈ l, buf.lastBuf = false) :
      (l.map Buf.bytes).map Ctx.ngxBufFromData = l := by
    rw [List.map_map]
    refine (List.map_congr_left fun buf hbuf => ?_).trans (List.map_id l)
    rw [Function.comp_apply, Ctx.ngxBufFromData, ← h buf hbuf, id]
  rw [← hmap l₁ h₁, h, hmap l₂ h₂]

end Downstream

/-! ## A call -/

namespace Ctx

variable {stack : ℕ → NgxStr} {n : ℕ} {ctx ctx' : Ctx} {d : Downstream} {c : Bool × List Buf}
variable {e e' : EchoRoom}

/-- Between two calls, with the echo buffer `e` and at most `n` bytes of overflow data. -/
structure Delivers (stack : ℕ → NgxStr) (n : ℕ) (e : EchoRoom) (ctx : Ctx) (d : Downstream) :
    Prop where
  alongside : ESIParser.Alongside n e (ctx.parser.getD .new) d.scanner
  relays : ∃ q, Relays ctx ⟨ctx.parser, d.routing, d.chain.map Buf.bytes⟩ q ∧
    q.map Prod.snd = d.chain
  handed : ctx.handed.map Handed.bufs = d.handed
  issued : ctx.Issued stack

theorem new_delivers (stack : ℕ → NgxStr) : Delivers stack 0 .new new .new where
  alongside := ESIParser.alongside_new 0
  relays := ⟨[], new_relays, rfl⟩
  handed := rfl
  issued := issued_new stack

theorem Delivers.pass (h : Delivers stack n e ctx d) (hc : ¬ Relay.Reads c) :
    Run.Agree (Delivers stack n e) (ctx.call stack c) (d.call c) := by
  obtain ⟨q, hrelays, hchain⟩ := h.relays
  rw [call_eq_of_not_reads hc, Downstream.call, if_neg hc]
  refine .ok ⟨h.alongside, ⟨q, ⟨hrelays.parser, hrelays.routes.outside _ _, hrelays.queue,
    hrelays.pieces⟩, hchain⟩, ?_, h.issued⟩
  rw [List.map_append, h.handed]
  rfl

/-- What is left of the chain when the call is over. -/
theorem HandsOver.chain_eq {s' : Relay} {q more q₀ : List (ℕ × Buf)} {i : ℕ} {buf : Buf}
    {chain l : List Buf} (h : HandsOver ctx ctx' s' q more q₀ i buf) (hq : q.map Prod.snd = l)
    (hpieces : s'.pieces = chain.map Buf.bytes)
    (hchain : ∃ more, chain = l ++ more ∧ ∀ buf ∈ more, buf.lastBuf = false) :
    (q₀ ++ [(i, { buf with lastBuf := true })]).map Prod.snd = Downstream.mark chain := by
  obtain ⟨more', rfl, hmore'⟩ := hchain
  have hbytes : ((q ++ more).map Prod.snd).map Buf.bytes = (l ++ more').map Buf.bytes := by
    rw [← hpieces, ← h.relays.pieces, h.buffers]
    simp
  have hmore : more.map Prod.snd = more' := by
    refine Downstream.unmarked_eq ?_ hmore' ?_
    · exact List.forall_mem_map.2 h.unmarked
    · rw [List.map_append, List.map_append, List.map_append, hq] at hbytes
      exact List.append_cancel_left hbytes
  rw [← hq, ← hmore, ← List.map_append, h.buffers, List.map_append, List.map_append]
  rw [List.map_singleton, List.map_singleton, Downstream.mark, List.modifyLast_concat]

/-- The end of a call whose texts are those of the relay. -/
theorem Delivers.handOver (h : Delivers stack n e ctx d) (hc : Relay.Reads c) {s' : Relay}
    {d' : Downstream} {m : ℕ}
    (hcall : Relay.call ⟨ctx.parser, d.routing, d.chain.map Buf.bytes⟩ c = .ok s')
    (halike : d'.Alike d.chain s') (hhanded : d'.handed = d.handed)
    (halongside : ESIParser.Alongside m e' (s'.parser.getD .new) d'.scanner) :
    Run.Agree (Delivers stack m e') (ctx.call stack c) d'.handOver := by
  obtain ⟨q, hrelays, hchain⟩ := h.relays
  by_cases hnil : d'.chain = []
  · have hpieces : s'.pieces = [] := by rw [halike.pieces, hnil, List.map_nil]
    rw [hrelays.call_null stack hc hcall hpieces, Downstream.handOver, if_pos hnil]
    exact .error _
  · have hpieces : s'.pieces ≠ [] := by rwa [halike.pieces, Ne, List.map_eq_nil_iff]
    obtain ⟨ctx', more, q₀, i, buf, hok, hover⟩ := hrelays.call_ok stack hc hcall hpieces
    have hmark := hover.chain_eq hchain halike.pieces halike.chain
    rw [hok, Downstream.handOver, if_neg hnil]
    refine .ok ⟨?_, ⟨_, ⟨rfl, ?_, hover.relays.queue, ?_⟩, hmark⟩, ?_,
      hrelays.issued_call h.issued hok⟩
    · rw [hover.relays.parser]
      exact halongside
    · rw [← halike.routing]
      exact hover.relays.routes
    · rw [← hmark, List.map_map]
      rfl
    · rw [hover.handed, List.map_append, h.handed, hhanded, List.map_singleton, Handed.bufs,
        buffers_filled, hmark]

theorem Delivers.read (h : Delivers stack n e ctx d) (hc : Relay.Reads c)
    (hlen : n + (inputBytes c.2).length < 2 ^ 31) (hroom : e.read c.2 = .ok e') :
    Run.Agree (Delivers stack (n + (inputBytes c.2).length) e') (ctx.call stack c) (d.call c) := by
  obtain ⟨q, hrelays, -⟩ := h.relays
  have hread := h.alongside.read hlen hroom
  have hcall : Relay.call ⟨ctx.parser, d.routing, d.chain.map Buf.bytes⟩ c = _ := if_pos hc
  rw [Downstream.call, if_pos hc]
  dsimp only at hcall
  generalize (ctx.parser.getD .new).read c.2 = x at hread hcall
  generalize (d.scanner.feedAll (inputBytes c.2)).mapError Stop.fault = y at hread ⊢
  cases hread with
  | error fault =>
    rw [hrelays.call_error stack hcall]
    exact .error _
  | @ok r s hleaves =>
    obtain ⟨b, p'⟩ := r
    obtain rfl : b = c.2.any Buf.lastBuf := hleaves.last_eq
    have hbefore : (ctx.parser.getD .new).out = d.scanner.out := h.alongside.between.same.out
    have hout : p'.out = (if c.2.any Buf.lastBuf then s.finish else s).out := hleaves.out_eq
    have hnext : ESIParser.Alongside (n + (inputBytes c.2).length) e'
        ((if c.2.any Buf.lastBuf then none else some p').getD .new)
        (if c.2.any Buf.lastBuf then {} else if c.2.any Buf.lastBuf then s.finish else s) := by
      have hnext := hleaves.next
      split_ifs at hnext ⊢
      · exact hnext
      · exact hnext
    refine h.handOver hc hcall ?_ (Downstream.follow_handed d _ _) hnext
    have halike := Downstream.Alike.foldl (l := d.chain)
      (s := ⟨ctx.parser, d.routing.enter, d.chain.map Buf.bytes⟩) (d := d.enter)
      ⟨rfl, rfl, [], (List.append_nil _).symm, by simp⟩
      (p'.out.callbacks.drop (ctx.parser.getD .new).out.callbacks.length)
    rw [Downstream.follow, ← hout, ← hbefore]
    exact ⟨halike.routing, halike.pieces, halike.chain⟩

theorem Delivers.call (h : Delivers stack n e ctx d) (c : Bool × List Buf)
    (hlen : n + (Relay.readBytes c).length < 2 ^ 31) (hroom : e.filter c = .ok e') :
    Run.Agree (Delivers stack (n + (Relay.readBytes c).length) e') (ctx.call stack c)
      (d.call c) := by
  by_cases hc : Relay.Reads c
  · rw [Relay.readBytes, if_pos hc] at hlen ⊢
    rw [EchoRoom.filter_of_reads hc] at hroom
    exact h.read hc hlen hroom
  · obtain rfl : e = e' := Except.ok.inj ((if_neg hc).symm.trans hroom)
    rw [Relay.readBytes, if_neg hc]
    exact h.pass hc

theorem Delivers.run (h : Delivers stack n e ctx d) (calls : List (Bool × List Buf))
    (hlen : n + (calls.flatMap Relay.readBytes).length < 2 ^ 31)
    (hroom : calls.foldlM EchoRoom.filter e = .ok e') :
    Run.Agree (fun ctx d => ∃ n, Delivers stack n e' ctx d) (calls.foldlM (Ctx.call stack) ctx)
      (calls.foldlM Downstream.call d) := by
  induction calls generalizing n e ctx d with
  | nil =>
    obtain rfl := Except.ok.inj hroom
    exact .ok ⟨n, h⟩
  | cons c calls ih =>
    obtain ⟨m, hfirst, hroom⟩ := Run.cons_ok.1 hroom
    rw [List.flatMap_cons, List.length_append] at hlen
    rw [List.foldlM_cons, List.foldlM_cons]
    exact (h.call c (by omega) hfirst).bind fun ctx d h => ih h (by omega) hroom

theorem Delivers.requested (h : Delivers stack n e ctx d) {frees : Option Bytes → Prop}
    (hstack : Harmless frees stack) : Requested frees d.routing.included ctx.includes := by
  obtain ⟨q, hrelays, -⟩ := h.relays
  have hincluded : ctx.includes.map Include.attributes = d.routing.included :=
    hrelays.routes.flags.included
  rw [← hincluded]
  exact h.issued.requested hstack

theorem run_downstream (stack : ℕ → NgxStr) (calls : List (Bool × List Buf))
    (hlen : (calls.flatMap Relay.readBytes).length < 2 ^ 31) (hfits : Relay.Fits calls) :
    Run.Agree (fun ctx d => ∃ n e, Delivers stack n e ctx d) (calls.foldlM (call stack) new)
      (calls.foldlM Downstream.call .new) := by
  obtain ⟨e, hroom⟩ := hfits
  refine ((new_delivers stack).run calls (by rwa [Nat.zero_add]) hroom).mono ?_
  rintro ctx d ⟨n, h⟩
  exact ⟨n, e, h⟩

/-- Over any calls with less than 2 GiB of text that write past no echo buffer, the filter fails
where `Downstream` does and with the same fault, or it has handed over the same buffers and
requested the same uris: if an include without a `src` does no harm, and with fresh links. -/
theorem calls_downstream (frees : Option Bytes → Prop) (stack : ℕ → NgxStr)
    (hstack : Harmless frees stack) (calls : List (Bool × List Buf))
    (hlen : (calls.flatMap Relay.readBytes).length < 2 ^ 31) (hfits : Relay.Fits calls) :
    Run.Agree (fun ctx d => ctx.handed.map Handed.bufs = d.handed ∧
        Requested frees d.routing.included ctx.includes)
      (calls.foldlM (call stack) new) (calls.foldlM Downstream.call .new) := by
  refine (run_downstream stack calls hlen hfits).mono ?_
  rintro ctx d ⟨n, e, h⟩
  exact ⟨h.handed, h.requested hstack⟩

/-- `a<esi:vars>b</esi:vars>` in two buffers of one call, and `c` in the next one. -/
theorem calls_downstream_vars :
    let text := 97 :: bareElement .esiVars [98]
    let calls := [(false, [Buf.mk (text.take 4) false, Buf.mk (text.drop 4) false]),
      (false, [Buf.mk [99] true])]
    ∃ ctx d, calls.foldlM (call fun _ => ⟨0, none⟩) new = .ok ctx ∧
      calls.foldlM Downstream.call .new = .ok d ∧
      d.handed = [[⟨[97], false⟩, ⟨[98], true⟩], [⟨[97], false⟩, ⟨[98], true⟩, ⟨[99], true⟩]] ∧
      ctx.handed.map Handed.bufs = d.handed ∧
      Requested (fun data => data.isSome = true) d.routing.included ctx.includes := by
  intro text calls
  have hrun : (calls.foldlM (call fun _ => ⟨0, none⟩) new).map
      (fun ctx => ctx.handed.map Handed.bufs) =
        .ok [[⟨[97], false⟩, ⟨[98], true⟩], [⟨[97], false⟩, ⟨[98], true⟩, ⟨[99], true⟩]] := by
    decide +kernel
  obtain ⟨ctx, hctx, hhanded⟩ := Run.map_ok hrun
  obtain ⟨d, hd, h⟩ := (calls_downstream (fun data => data.isSome = true) (fun _ => ⟨0, none⟩)
    (fun _ => ⟨rfl, Bool.false_ne_true⟩) calls (by decide +kernel) (by decide +kernel)).ok_left hctx
  exact ⟨ctx, d, hctx, hd, h.1.symm.trans hhanded, h.1, h.2⟩

end Ctx

end NginxEsi
