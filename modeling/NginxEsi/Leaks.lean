import Mathlib.Algebra.GroupWithZero.Nat
import NginxEsi.Handover

/-!
# Tags that nobody frees

A tag is allocated and put at the end of the list from `root_tag` when its element starts, and it is
freed when it is taken off this list.  A call of the body filter begins with an empty list, without
freeing what was in it: the tags that are allocated after any number of calls are those that were in
the list at the end of each call (`tags_live`).  These need not be the elements that are open in the
document: in `<esi:vars><esi:vars></esi:vars>` the end tag closes the root, and nothing is left.
-/

namespace NginxEsi

open LinkedList

namespace Ctx

variable {ctx ctx' : Ctx} {r : Routing} {l : List (ℕ × TagType)} {tag : ℕ} {a : TagType}
variable {stack : ℕ → NgxStr}

/-! ## Handlers -/

/-- Closing an element frees its tag and those behind it. -/
theorem live_esiTagClose (hl : Links ctx.tags (some tag) ((tag, a) :: l) none)
    (hclose : ctx.esiTagClose tag = .ok ctx') :
    ctx'.tags.live + (l.length + 1) = ctx.tags.live := by
  obtain ⟨ctx₁, hok, -, -, htags, -⟩ := esiTagClose_ok hl ctx.flags_flagged
  obtain rfl := Except.ok.inj (hok.symm.trans hclose)
  obtain ⟨-, m, htag, tail⟩ := links_cons.1 hl
  have hcell : (ctx.tags.clear l)[tag]? = some (some ⟨a, m⟩) :=
    (Heap.getElem?_clear hl.not_mem_tail).trans htag
  rw [htags, Nat.add_comm l.length, ← Nat.add_assoc, Heap.live_set_none hcell, tail.live_clear]

theorem live_startTag {name : Bytes} {type : TagType} {attributes : List ESIAttribute}
    (hname : esiTagStrToType name = some type)
    (h : ctx.esiParserStartTagCb stack name attributes = .ok ctx') :
    ctx'.tags.live = ctx.tags.live + 1 := by
  unfold esiParserStartTagCb at h
  rw [hname] at h
  dsimp only [esiTagNew] at h
  have hnew := Heap.live_alloc ctx.tags ⟨type, none⟩
  cases hroot : ctx.rootTag with
  | none =>
    rw [hroot] at h
    obtain ⟨ctx₁, hlink, h⟩ := Run.bind_ok h
    obtain rfl := Except.ok.inj hlink
    rw [(esiTagOpen_frame h).1, hnew]
  | some root =>
    rw [hroot] at h
    obtain ⟨last, -, h⟩ := Run.bind_ok h
    obtain ⟨tags, hnext, h⟩ := Run.bind_ok h
    obtain ⟨ctx₁, hlink, h⟩ := Run.bind_ok h
    obtain rfl := Except.ok.inj hlink
    rw [(esiTagOpen_frame h).1, ← hnew]
    exact Heap.live_setNext (Run.mapError_ok hnext)

/-- Closing an element behind the outermost one. -/
theorem live_esiTagCloseChildren {l₁ l₂ : List (ℕ × TagType)} {type : TagType} {next : ℕ}
    {openTag : Option ℕ}
    (hl : Links ctx.tags (some tag) ((tag, a) :: l₁ ++ (next, type) :: l₂) none)
    (hl₁ : ∀ e ∈ l₁, e.2 ≠ type) (h : ctx.esiTagCloseChildren tag type = .ok (openTag, ctx')) :
    ctx'.tags.live + (l₂.length + 1) = ctx.tags.live := by
  obtain ⟨-, m, htag, tail⟩ := links_cons.1 hl
  have hfuel : l₁.length < ctx.tags.length := by
    have hlen := hl.length_le
    rw [List.cons_append, List.length_cons, List.length_append] at hlen
    omega
  have hfind : ctx.tags.findFrom (· = type) ctx.tags.length tag m =
      .ok (some ((tag :: l₁.map Prod.fst).getLast (List.cons_ne_nil _ _), next)) :=
    tail.findFrom_some hfuel (fun e he => decide_eq_false (hl₁ e he)) (decide_eq_true rfl)
  obtain ⟨k, -, hsuffix⟩ := links_append.1 hl
  obtain ⟨rfl, -⟩ := links_cons.1 hsuffix
  obtain ⟨node, hnode, h⟩ := Run.bind_ok h
  obtain rfl := Except.ok.inj (hnode.symm.trans (congrArg memory (Heap.get_some htag)))
  obtain ⟨found, hfound, h⟩ := Run.bind_ok h
  obtain rfl := Except.ok.inj (hfound.symm.trans (congrArg memory hfind))
  obtain ⟨ctx₁, hclose, h⟩ := Run.bind_ok h
  obtain ⟨tags, hnext, h⟩ := Run.bind_ok h
  obtain ⟨-, rfl⟩ := Prod.mk.inj (Except.ok.inj h)
  rw [← live_esiTagClose hsuffix hclose, ← Heap.live_setNext (Run.mapError_ok hnext)]

/-- An end tag frees the tags that leave the stack. -/
theorem Routes.live_endTag (h : ctx.Routes r) {name : Bytes}
    (hok : ctx.esiParserEndTagCb name = .ok ctx') :
    ctx'.tags.live + r.stack.length =
      ctx.tags.live + (r.onTag Routing.stop name).stack.length := by
  unfold esiParserEndTagCb at hok
  unfold Routing.onTag
  cases hname : esiTagStrToType name with
  | none =>
    rw [hname] at hok
    obtain rfl := Except.ok.inj hok
    rfl
  | some type =>
    rw [hname] at hok
    obtain ⟨l, hl, hstack, -⟩ := h.tags
    have hlen : l.length = r.stack.length := by rw [← hstack, List.length_map]
    dsimp only at hok ⊢
    rcases l with - | ⟨⟨root, a⟩, l⟩
    · rw [links_nil.1 hl] at hok
      obtain rfl := Except.ok.inj hok
      rw [Routing.stop_nil hstack.symm]
    obtain ⟨hroot, m, htag, -⟩ := links_cons.1 hl
    rw [hroot] at hok hl
    obtain ⟨node, hnode, hok⟩ := Run.bind_ok hok
    obtain rfl := Except.ok.inj (hnode.symm.trans (congrArg memory (Heap.get_some htag)))
    by_cases ha : a = type
    · subst ha
      rw [if_pos rfl] at hok
      obtain ⟨ctx₁, hclose, hok⟩ := Run.bind_ok hok
      obtain rfl := Except.ok.inj hok
      rw [Routing.stop_root hstack.symm, ← live_esiTagClose hl hclose, ← hlen]
      rfl
    rw [if_neg ha] at hok
    obtain ⟨⟨openTag, ctx₁⟩, hclose, hok⟩ := Run.bind_ok hok
    obtain rfl := Except.ok.inj hok
    by_cases hmem : type ∈ l.map Prod.snd
    · obtain ⟨l₁, next, l₂, rfl, hl₁⟩ := exists_first hmem
      have hmiss : type ∉ l₁.map Prod.snd := by
        intro h
        obtain ⟨e, he, heq⟩ := List.mem_map.1 h
        exact hl₁ e he heq
      have hlive := live_esiTagCloseChildren hl hl₁ hclose
      rw [List.map_cons, List.map_append, List.map_cons] at hstack
      rw [Routing.stop_child hstack.symm ha hmiss, ← hlen, ← hlive]
      simp only [List.length_cons, List.length_append, List.length_map]
      omega
    · rw [esiTagCloseChildren_miss hl hmem] at hclose
      obtain ⟨-, rfl⟩ := Prod.mk.inj (Except.ok.inj hclose)
      rw [Routing.stop_miss hstack.symm ha hmem]

/-- A start tag allocates the tag that goes onto the stack. -/
theorem live_start {name : Bytes} {attributes : List ESIAttribute}
    (hok : ctx.esiParserStartTagCb stack name attributes = .ok ctx') (r : Routing) :
    ctx'.tags.live + r.stack.length =
      ctx.tags.live + (r.onTag (Routing.start · attributes) name).stack.length := by
  unfold Routing.onTag
  cases hname : esiTagStrToType name with
  | none =>
    unfold esiParserStartTagCb at hok
    rw [hname] at hok
    obtain rfl := Except.ok.inj hok
    rfl
  | some type =>
    rw [live_startTag hname hok]
    simp only [Routing.start, List.length_append, List.length_singleton]
    omega

/-- The context is in step with the relay, and `lost` tags are allocated besides those of the open
elements. -/
structure Accounts (lost : ℕ) (s : Relay) (ctx : Ctx) : Prop where
  routes : ctx.Routes s.routing
  live : ctx.tags.live = lost + s.routing.stack.length

theorem accounts_simulates (stack : ℕ → NgxStr) (lost : ℕ) :
    Simulates stack Relay.handle (Accounts lost) := by
  intro s ctx c h
  obtain ⟨ctx', hok, hroutes⟩ := h.routes.handle stack c
  refine ⟨ctx', hok, hroutes, ?_⟩
  have hlive := h.live
  cases c with
  | output data =>
    rw [(output_frame hok).1, hlive, Relay.handle, Routing.handle, Routing.send]
    split_ifs <;> rfl
  | startTag name attributes =>
    have h' := live_start hok s.routing
    change _ = lost + (s.routing.onTag (Routing.start · attributes) name).stack.length
    omega
  | endTag name =>
    have h' := h.routes.live_endTag hok
    change _ = lost + (s.routing.onTag Routing.stop name).stack.length
    omega

/-! ## Calls -/

theorem markLast_tags (h : ctx.markLast = .ok ctx') : ctx'.tags = ctx.tags := by
  obtain ⟨link, -, h⟩ := Run.bind_ok h
  obtain ⟨val, next⟩ := link
  cases val with
  | none => cases h
  | some buf =>
    obtain ⟨links, -, h⟩ := Run.bind_ok h
    obtain rfl := Except.ok.inj h
    rfl

variable {s s' : Relay} {q : List (ℕ × Buf)} {c : Bool × List Buf} {lost : ℕ}

theorem call_pass_tags (hc : ¬ Relay.Reads c) (hok : ctx.call stack c = .ok ctx') :
    ctx'.tags = ctx.tags := by
  have hpass : c.2 = [] ∨ c.1 = true := by
    by_contra hno
    obtain ⟨hne, hheader⟩ := not_or.1 hno
    exact hc ⟨Bool.eq_false_of_not_eq_true hheader, hne⟩
  rw [call, ngxHttpEsiBodyFilter, if_pos hpass] at hok
  obtain rfl := Except.ok.inj hok
  rfl

/-- A call that reads its input loses the tags of the elements open before it. -/
theorem Relays.live_call (h : Relays ctx s q) (hc : Relay.Reads c)
    (hlive : ctx.tags.live = lost + s.routing.stack.length) (hcall : s.call c = .ok s')
    (hok : ctx.call stack c = .ok ctx') :
    ctx'.tags.live = lost + s.routing.stack.length + s'.routing.stack.length := by
  rw [Relay.call, if_pos hc] at hcall
  obtain ⟨⟨b, p'⟩, hread, hcall⟩ := Run.bind_ok hcall
  obtain rfl := Except.ok.inj hcall
  rw [← h.parser] at hread
  have henter : Reached Relay.handle (Accounts (lost + s.routing.stack.length))
      (s.parser.getD .new).out.callbacks.length s.enter (ctx.parser.getD .new) ctx.enter := by
    refine ⟨by rw [h.parser], ?_⟩
    rw [h.parser, List.drop_length]
    exact ⟨h.routes.enter, hlive⟩
  obtain ⟨ctx₁, hloop, hreached⟩ := henter.read_ok (accounts_simulates stack _) hread
  rw [call_reads hc, bodyFilterInput, hloop] at hok
  obtain ⟨x, hx, hok⟩ := Run.bind_ok hok
  obtain rfl := Except.ok.inj hx
  obtain ⟨ctx₂, hmark, hok⟩ := Run.bind_ok hok
  obtain rfl := Except.ok.inj hok
  have htags := markLast_tags hmark
  have hstate := hreached.state.live
  rw [← htags] at hstate
  exact hstate

end Ctx

namespace Relay

/-- The relay behind each call that reads its input. -/
def ends : Relay → List (Bool × List Buf) → List Relay
  | _, [] => []
  | s, c :: calls => match s.call c with
    | .ok s' => if Reads c then s' :: ends s' calls else ends s' calls
    | .error _ => []

end Relay

namespace Ctx

variable {ctx ctx' : Ctx} {stack : ℕ → NgxStr} {s : Relay} {q : List (ℕ × Buf)} {lost : ℕ}

theorem Relays.live_run (h : Relays ctx s q)
    (hlive : ctx.tags.live = lost + s.routing.stack.length) {calls : List (Bool × List Buf)}
    (hrun : calls.foldlM (call stack) ctx = .ok ctx') :
    ctx'.tags.live = lost + s.routing.stack.length +
      ((s.ends calls).map fun s => s.routing.stack.length).sum := by
  induction calls generalizing ctx s q lost with
  | nil =>
    obtain rfl := Except.ok.inj hrun
    exact hlive
  | cons c calls ih =>
    obtain ⟨ctx₁, hok, hrun⟩ := Run.cons_ok.1 hrun
    obtain ⟨s₁, q₁, hcall, h₁⟩ := h.step hok
    rw [Relay.ends, hcall]
    by_cases hc : Relay.Reads c
    · simp only [if_pos hc, List.map_cons, List.sum_cons]
      rw [ih h₁ (h.live_call hc hlive hcall hok) hrun, Nat.add_assoc _ s₁.routing.stack.length]
    · obtain rfl : s = s₁ := Except.ok.inj ((h.call_pass stack hc).1.symm.trans hcall)
      simp only [if_neg hc]
      exact ih h₁ ((congrArg Heap.live (call_pass_tags hc hok)).trans hlive) hrun

/-- The tags that are allocated after any number of calls are the entries that the list from
`root_tag` had at the end of each call. -/
theorem tags_live (stack : ℕ → NgxStr) (calls : List (Bool × List Buf)) (ctx : Ctx)
    (hrun : calls.foldlM (call stack) new = .ok ctx) :
    ctx.tags.live = ((Relay.new.ends calls).map fun s => s.routing.stack.length).sum := by
  have hnone : new.tags.live = 0 + Relay.new.routing.stack.length := rfl
  rw [new_relays.live_run hnone hrun, ← hnone]
  exact Nat.zero_add _

/-- Two calls, each of which ends inside a `vars` element. -/
theorem tags_live_vars :
    let chunk := 97 :: (Segment.startTag TagType.esiVars.letters).render
    let calls := [(false, [Buf.mk chunk false]), (false, [Buf.mk chunk true])]
    ∃ ctx, calls.foldlM (call fun _ => ⟨0, none⟩) new = .ok ctx ∧ ctx.tags.live = 2 ∧
      ctx.tags.live = ((Relay.new.ends calls).map fun s => s.routing.stack.length).sum := by
  intro chunk calls
  have hrun : (calls.foldlM (call fun _ => ⟨0, none⟩) new).map (fun ctx => ctx.tags.live) =
      .ok 2 := by
    decide +kernel
  obtain ⟨ctx, hctx, hlive⟩ := Run.map_ok hrun
  exact ⟨ctx, hctx, hlive, tags_live _ _ ctx hctx⟩

end Ctx

end NginxEsi
