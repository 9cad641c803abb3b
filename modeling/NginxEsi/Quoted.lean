import NginxEsi.Downstream
import NginxEsi.Genuine
import NginxEsi.Segments

/-!
# Documents without markup in quoted values

A parser fault needs a tag that is completed inside a quoted value (`reaches_tagText`).  The states
of such a tag are entered at a `<` or at a backslash inside the value, so a document in which every
value is closed before either of these is parsed without a fault, in any chunks, and its values are
reported without these bytes (`parse_closed`).  Whether a document is of this kind can be read off
it: behind a `=`, white space and a quote, the same quote comes again first (`valuesClosed`).  What
is left to the body filter of a response of this kind is the `NULL` buffer, and only until the first
call that hands over a buffer (`calls_closed`).

Both are about runs that write past no echo buffer (`EchoFits`, `Relay.Fits`): such a write is
another fault, in documents of this kind too.  For the body filter, an include without a `src` must
do no harm, and the links of the output chain are fresh ones.
-/

namespace NginxEsi

open BranchTable

/-- The quote `q` comes in front of any `<` or backslash. -/
def closesValue (q : UInt8) : Bytes → Bool
  | [] => true
  | b :: t => b == q || b != 60 && b != 92 && closesValue q t

/-- Behind a `=`: where white space and a quote follow, the value is closed. -/
def closesBehindEquals : Bytes → Bool
  | [] => true
  | b :: t =>
    if isspace b then closesBehindEquals t else if b == 34 || b == 39 then closesValue b t else true

/-- Whatever looks like a quoted value is closed in front of any `<` or backslash. -/
def valuesClosed : Bytes → Bool
  | [] => true
  | b :: t => (b != 61 || closesBehindEquals t) && valuesClosed t

/-- `<esi:a k="<esi:b >"/>`, where a tag is completed in the value. -/
example : valuesClosed [60, 101, 115, 105, 58, 97, 32, 107, 61, 34, 60, 101, 115, 105, 58, 98, 32,
    62, 34, 47, 62] = false := by decide

/-- The states in which no markup has been seen in the value. -/
def State.outer : State → Bool
  | .s0 | .s1 | .s2 | .s3 | .s4 | .s5 | .s6 | .s7 | .s8 | .s9 | .s10 | .s11 | .s12 | .s13 | .s14
  | .s15 | .s16 | .s17 | .s27 | .s74 | .s75 | .s79 => true
  | _ => false

/-- Behind a `=`, or in a value. -/
def State.valued : State → Bool
  | .s16 | .s17 | .s27 => true
  | _ => false

/-- What is still to be read closes the value that is being read. -/
def State.closes (t : Bytes) : State → Bool
  | .s16 => closesBehindEquals t
  | .s17 => closesValue 34 t
  | .s27 => closesValue 39 t
  | s => s.outer

instance : Fintype Quote where
  elems := ⟨[Quote.double, Quote.single], by decide⟩
  complete q := by cases q <;> decide

/-- What an edge from an outer state says: how a value is entered, and what leads out. -/
structure OuterEdge (s : State) (g : Guard) (cs : State) (f : ActionList) : Prop where
  outer : cs.outer = true ∨ (∃ q : Quote, s = q.inside) ∧ (g = .single 60 ∨ g = .single 92)
  equals : cs = .s16 →
    s = .s15 ∧ g = .single 61 ∧ f = .f6 ∨ s = .s16 ∧ isSpaceGuard g = true
  inside : ∀ q : Quote, cs = q.inside → s = .s16 ∧ g = .single q.byte.toNat ∨ s = q.inside
  completes : f.completes = true → cs.named = false
  collects : f.collects = true → s.valued = true

instance (s : State) (g : Guard) (cs : State) (f : ActionList) :
    Decidable (OuterEdge s g cs f) :=
  decidable_of_iff
    ((cs.outer = true ∨ (∃ q : Quote, s = q.inside) ∧ (g = .single 60 ∨ g = .single 92)) ∧
      (cs = .s16 → s = .s15 ∧ g = .single 61 ∧ f = .f6 ∨ s = .s16 ∧ isSpaceGuard g = true) ∧
      (∀ q : Quote, cs = q.inside → s = .s16 ∧ g = .single q.byte.toNat ∨ s = q.inside) ∧
      (f.completes = true → cs.named = false) ∧ (f.collects = true → s.valued = true))
    ⟨fun ⟨h₁, h₂, h₃, h₄, h₅⟩ => ⟨h₁, h₂, h₃, h₄, h₅⟩, fun h => ⟨h.1, h.2, h.3, h.4, h.5⟩⟩

theorem outerEdge_edges : ∀ s : State, s.outer = true → ∀ e ∈ (row s).edges,
    OuterEdge s e.1 e.2.goto.1 e.2.goto.2 := by
  decide +kernel

theorem outerEdge_transition {s : State} (hs : s.outer = true) (b : UInt8) :
    ∃ g : Guard, g.Holds b.toNat ∧ OuterEdge s g (s.next b) (s.list b) := by
  obtain ⟨g, hg, hb⟩ := forall_transition
    (P := fun s g t => s.outer = true → OuterEdge s g t.goto.1 t.goto.2)
    (fun s e he hs => outerEdge_edges s hs e he) s b
  exact ⟨g, hg, hb hs⟩

/-! ## Values that are closed -/

theorem State.outer_of_closes {s : State} {t : Bytes} (h : s.closes t = true) :
    s.outer = true := by
  cases s <;> first | rfl | exact h

theorem State.closes_of_not_valued {s : State} {t : Bytes} (h : s.outer = true)
    (hs : s.valued = false) : s.closes t = true := by
  cases s <;> first | exact h | cases hs

/-- A byte in front of the closing quote. -/
theorem closesValue_tail {q b : UInt8} {t : Bytes} (h : closesValue q (b :: t) = true)
    (hb : b ≠ q) : b ≠ 60 ∧ b ≠ 92 ∧ closesValue q t = true := by
  rw [closesValue, Bool.or_eq_true, Bool.and_eq_true, Bool.and_eq_true, bne_iff_ne, bne_iff_ne,
    beq_iff_eq, or_iff_right hb, and_assoc] at h
  exact h

theorem State.inside_closes (q : Quote) (t : Bytes) :
    q.inside.closes t = closesValue q.byte t := by
  cases q <;> rfl

theorem State.opening_closes (q : Quote) (t : Bytes) :
    State.s16.closes (q.byte :: t) = q.inside.closes t := by
  cases q <;> rfl

/-- In a value, a byte that does not lead out of it. -/
theorem State.closes_inside {q : Quote} {b : UInt8} {t : Bytes}
    (h : q.inside.closes (b :: t) = true) (hb : q.inside.next b ≠ .s13) :
    b ≠ 60 ∧ b ≠ 92 ∧ q.inside.closes t = true := by
  rw [inside_closes] at h ⊢
  refine closesValue_tail h ?_
  rintro rfl
  exact hb (Scanner.quote_next q).2.1.1

theorem State.eq_of_valued {s : State} (h : s.valued = true) :
    s = .s16 ∨ ∃ q : Quote, s = q.inside := by
  cases s with
  | s16 => exact .inl rfl
  | s17 => exact .inr ⟨.double, rfl⟩
  | s27 => exact .inr ⟨.single, rfl⟩
  | _ => cases h

theorem State.named_of_completes {s : State} {b : UInt8} (h : (s.list b).completes = true) :
    s.named = true := by
  have hfinds : Finds s (Scanner.main (s.list b)) := (flow_transition s b).finds
  cases hf : s.list b with
  | f5 | f8 =>
    rw [hf] at hfinds
    exact hfinds
  | _ =>
    rw [hf] at h
    cases h

/-- One byte of a document whose values are closed: the machine does not turn to markup, and what
it adds to a value is neither a `<` nor a backslash. -/
theorem State.closes_next {s : State} {b : UInt8} {t : Bytes} (h : s.closes (b :: t) = true)
    (hd : (b != 61 || closesBehindEquals t) = true) : (s.next b).closes t = true ∧
      ((s.next b).valued = true → b ≠ 60 ∧ b ≠ 92 ∧
        ((s.list b).keepsMark = true → s.valued = true)) := by
  obtain ⟨g, hg, hedge⟩ := outerEdge_transition (State.outer_of_closes h) b
  have houter : (s.next b).outer = true := by
    rcases hedge.outer with houter | ⟨⟨q, rfl⟩, hmarkup⟩
    · exact houter
    · by_contra hn
      have hnext : q.inside.next b ≠ .s13 := by
        intro hnext
        rw [hnext] at hn
        exact hn rfl
      obtain ⟨hlt, hbackslash, -⟩ := State.closes_inside h hnext
      rcases hmarkup with rfl | rfl
      · exact hlt (Guard.eq_ofNat_of_holds hg)
      · exact hbackslash (Guard.eq_ofNat_of_holds hg)
  cases hvalued : (s.next b).valued with
  | false => exact ⟨State.closes_of_not_valued houter hvalued, fun h => by cases h⟩
  | true =>
    rcases State.eq_of_valued hvalued with hcs | ⟨q, hcs⟩
    · rw [hcs]
      rcases hedge.equals hcs with ⟨-, rfl, hf⟩ | ⟨rfl, hspace⟩
      · obtain rfl := Guard.eq_ofNat_of_holds hg
        exact ⟨hd, fun _ => ⟨by decide, by decide, fun hmark => by rw [hf] at hmark; cases hmark⟩⟩
      · have hb := isspace_of_isSpaceGuard hg hspace
        have h' : closesBehindEquals (b :: t) = true := h
        rw [closesBehindEquals, if_pos hb] at h'
        refine ⟨h', fun _ => ⟨?_, ?_, fun _ => rfl⟩⟩
        · rintro rfl
          cases hb
        · rintro rfl
          cases hb
    · rw [hcs]
      rcases hedge.inside q hcs with ⟨rfl, rfl⟩ | rfl
      · obtain rfl : b = q.byte :=
          (Guard.eq_ofNat_of_holds hg).trans UInt8.ofNat_toNat
        rw [State.opening_closes] at h
        exact ⟨h, fun _ => ⟨by cases q <;> decide, by cases q <;> decide, fun _ => rfl⟩⟩
      · have hnext : q.inside.next b ≠ .s13 := by
          rw [hcs]
          cases q <;> decide
        obtain ⟨hlt, hbackslash, ht⟩ := State.closes_inside h hnext
        exact ⟨ht, fun _ => ⟨hlt, hbackslash, fun _ => hcs ▸ hvalued⟩⟩

/-! ## The run -/

/-- The value has neither a `<` nor a backslash. -/
def ESIAttribute.Unescaped (a : ESIAttribute) : Prop := ∀ b ∈ a.value, b ≠ 60 ∧ b ≠ 92

namespace Scanner

variable {s s' : Scanner} {b : UInt8} {t : Bytes}

/-- A tag is completed only where its name has been read. -/
theorem feed_ok_of_name (h : (s.cs.list b).completes = true → s.name ≠ none) :
    ∃ s', s.feed b = .ok s' := by
  rw [feed_eq]
  change ∃ s', ((s.enter (s.cs.next b) b).act s.cs b (main (s.cs.list b))).map (advance b) = .ok s'
  cases hf : s.cs.list b with
  | f5 | f8 =>
    rw [hf] at h
    obtain ⟨n, hn⟩ := Option.ne_none_iff_exists'.1 (h rfl)
    dsimp only [main, act, completeTag]
    rw [enter_name, hn]
    exact ⟨_, rfl⟩
  | _ => exact ⟨_, rfl⟩

/-- What is known in the middle of a document whose values are closed, in front of `t`. -/
structure Closes (t : Bytes) (s : Scanner) : Prop where
  closes : s.cs.closes t = true
  name : s.cs.named = true → s.name ≠ none
  since : s.cs.valued = true → ∀ b ∈ s.since, b ≠ 60 ∧ b ≠ 92
  recorded : s.Recorded ESIAttribute.Unescaped

theorem closes_new : ({} : Scanner).Closes t where
  closes := rfl
  name h := by cases h
  since h := by cases h
  recorded := ⟨fun a ha => (by cases ha), fun name as hmem => (by cases hmem)⟩

theorem Closes.feed (hs : s.Closes (b :: t)) (hd : (b != 61 || closesBehindEquals t) = true) :
    ∃ s', s.feed b = .ok s' ∧ s'.Closes t := by
  obtain ⟨g, -, hedge⟩ := outerEdge_transition (State.outer_of_closes hs.closes) b
  have hflow := flow_transition s.cs b
  obtain ⟨hcloses, hvalued⟩ := State.closes_next hs.closes hd
  obtain ⟨s', hs'⟩ := feed_ok_of_name fun hf => hs.name (State.named_of_completes hf)
  refine ⟨s', hs', ⟨?_, ?_, ?_, ?_⟩⟩
  · rwa [feed_cs hs']
  · rw [feed_cs hs']
    intro hnamed
    rcases feed_name hs' with ⟨hf, -⟩ | ⟨-, hsome⟩ | ⟨hf, hname⟩
    · rw [hedge.completes hf] at hnamed
      cases hnamed
    · exact Option.isSome_iff_ne_none.1 hsome
    · rw [hname]
      exact hs.name (hflow.name hnamed hf)
  · rw [feed_cs hs', feed_since hs']
    intro hv
    obtain ⟨hlt, hbackslash, hmark⟩ := hvalued hv
    refine List.forall_mem_append.2 ⟨?_, List.forall_mem_singleton.2 ⟨hlt, hbackslash⟩⟩
    split_ifs with hkeep
    · exact hs.since (hmark hkeep)
    · exact List.forall_mem_nil _
  · refine hs.recorded.feed hs' fun hcollects => ?_
    exact fun c hc => hs.since (hedge.collects hcollects) c ((trim_isInfix _).mem hc)

/-- The text `t` in front of `rest`. -/
theorem Closes.feedAll {rest : Bytes} : ∀ {t : Bytes} {s : Scanner}, s.Closes (t ++ rest) →
    valuesClosed (t ++ rest) = true →
    ∃ s', s.feedAll t = .ok s' ∧ s'.Closes rest ∧ valuesClosed rest = true
  | [], s, hs, hd => ⟨s, rfl, hs, hd⟩
  | b :: t, s, hs, hd => by
    rw [List.cons_append, valuesClosed, Bool.and_eq_true] at hd
    obtain ⟨m, hm, hm'⟩ := hs.feed hd.1
    obtain ⟨s', hs', hclosed⟩ := hm'.feedAll hd.2
    exact ⟨s', Run.cons_ok.2 ⟨m, hm, hs'⟩, hclosed⟩

end Scanner

namespace ESIParser

/-- A document below 2 GiB whose quoted values are closed in front of any `<` or backslash is parsed
without a fault, however it is cut into chunks whose calls write past no echo buffer, and no value
with one of these bytes is reported. -/
theorem parse_closed (chunks : List Bytes) (hlen : chunks.flatten.length < 2 ^ 31)
    (hfits : EchoFits chunks) (hclosed : valuesClosed chunks.flatten = true) :
    ∃ c, parseBounded chunks = .ok c ∧
      ∀ name as, .startTag name as ∈ c.out.callbacks → ∀ a ∈ as, a.Unescaped := by
  rw [← List.append_nil chunks.flatten] at hclosed
  obtain ⟨s, hs, hend, -⟩ := Scanner.closes_new.feedAll hclosed
  have houtcome := outcome_parse (inRange_of_length hlen)
  rw [Scanner.parse, hs] at houtcome
  obtain ⟨c, hc, hfields⟩ := Run.map_ok houtcome
  refine ⟨c, (parseBounded_eq hfits).trans hc, fun name as hmem => ?_⟩
  refine hend.recorded.reported name as ?_
  rw [← startTag_mem_tagCalls, (Prod.mk.inj hfields).1] at hmem
  rwa [Scanner.finish, Output.flush_tagCalls] at hmem

/-- `<p>=<esi:a b="c>d"/>`, cut inside the value. -/
theorem parse_closed_cut : ∃ c, parseBounded [[60, 112, 62, 61, 60, 101, 115, 105, 58, 97, 32, 98,
    61, 34, 99], [62, 100, 34, 47, 62]] = .ok c ∧
      ∀ name as, .startTag name as ∈ c.out.callbacks → ∀ a ∈ as, a.Unescaped :=
  parse_closed _ (by decide) (by decide) (by decide)

end ESIParser

/-! ## The body filter -/

namespace Downstream

variable {d d' : Downstream} {c : Bool × List Buf} {calls : List (Bool × List Buf)} {rest : Bytes}

/-- What is left to read closes the value that is being read. -/
def Closes (d : Downstream) (rest : Bytes) : Prop :=
  d.scanner.Closes rest ∧ valuesClosed rest = true

theorem foldl_chain (l : List Callback) (d : Downstream) :
    ∃ more, (l.foldl handle d).chain = d.chain ++ more := by
  induction l generalizing d with
  | nil => exact ⟨[], (List.append_nil _).symm⟩
  | cons c l ih =>
    obtain ⟨more, hmore⟩ := ih (d.handle c)
    rw [handle, List.append_assoc] at hmore
    exact ⟨_, hmore⟩

theorem follow_chain (d : Downstream) (last : Bool) (s : Scanner) :
    ∃ more, (d.follow last s).chain = d.chain ++ more :=
  foldl_chain _ d.enter

theorem mark_ne_nil {chain : List Buf} (h : chain ≠ []) : mark chain ≠ [] := by
  rcases chain.eq_nil_or_concat' with rfl | ⟨l, buf, rfl⟩
  · exact absurd rfl h
  · rw [mark, List.modifyLast_concat]
    exact List.concat_ne_nil _ _

theorem handOver_closes (h : d'.Closes rest) (hchain : ∃ more, d'.chain = d.chain ++ more) :
    (d.chain = [] ∧ d'.handOver = .error (.memory .null)) ∨
      ∃ d'', d'.handOver = .ok d'' ∧ d''.Closes rest ∧ d''.chain ≠ [] := by
  rw [handOver]
  split_ifs with hnil
  · obtain ⟨more, hmore⟩ := hchain
    rw [hnil] at hmore
    exact .inl ⟨(List.append_eq_nil_iff.1 hmore.symm).1, rfl⟩
  · exact .inr ⟨_, rfl, h, mark_ne_nil hnil⟩

/-- A call is over with a buffer in the chain, or it finds none. -/
theorem Closes.call (h : d.Closes (Relay.readBytes c ++ rest)) :
    (d.chain = [] ∧ d.call c = .error (.memory .null)) ∨
      ∃ d', d.call c = .ok d' ∧ d'.Closes rest ∧
        (d.chain ≠ [] ∨ Relay.Reads c → d'.chain ≠ []) := by
  by_cases hc : Relay.Reads c
  · rw [Relay.readBytes, if_pos hc] at h
    obtain ⟨s, hs, hclosed, hd⟩ := h.1.feedAll h.2
    have hcall : d.call c = (d.follow (c.2.any Buf.lastBuf)
        (if c.2.any Buf.lastBuf then s.finish else s)).handOver := by
      rw [Downstream.call, if_pos hc, hs]
      rfl
    have hfollow : (d.follow (c.2.any Buf.lastBuf)
        (if c.2.any Buf.lastBuf then s.finish else s)).Closes rest := by
      refine ⟨?_, hd⟩
      dsimp only [follow]
      split_ifs
      · exact Scanner.closes_new
      · exact hclosed
    rw [hcall]
    rcases handOver_closes hfollow (follow_chain d _ _) with hfail | ⟨d', hd', hclosed', hne⟩
    · exact .inl hfail
    · exact .inr ⟨d', hd', hclosed', fun _ => hne⟩
  · rw [Relay.readBytes, if_neg hc] at h
    refine .inr ⟨{ d with handed := d.handed ++ [c.2] }, if_neg hc, h, fun hor => ?_⟩
    exact hor.resolve_right hc

theorem Closes.run (h : d.Closes (calls.flatMap Relay.readBytes ++ rest)) :
    (d.chain = [] ∧ calls.foldlM Downstream.call d = .error (.memory .null)) ∨
      ∃ d', calls.foldlM Downstream.call d = .ok d' ∧ d'.Closes rest ∧
        (d.chain ≠ [] ∨ (∃ c ∈ calls, Relay.Reads c) → d'.chain ≠ []) := by
  induction calls generalizing d with
  | nil => exact .inr ⟨d, rfl, h, fun hor => hor.resolve_right fun ⟨_, hc, _⟩ => (by cases hc)⟩
  | cons c calls ih =>
    rw [List.flatMap_cons, List.append_assoc] at h
    rcases h.call with ⟨hnil, hcall⟩ | ⟨m, hm, hclosed, hne⟩
    · refine .inl ⟨hnil, ?_⟩
      rw [List.foldlM_cons, hcall]
      rfl
    · rcases ih hclosed with ⟨hnil, hrun⟩ | ⟨d', hd', hclosed', hne'⟩
      · refine .inl ⟨of_not_not fun hd => hne (.inl hd) hnil, ?_⟩
        rw [List.foldlM_cons, hm]
        exact hrun
      · refine .inr ⟨d', Run.cons_ok.2 ⟨m, hm, hd'⟩, hclosed', ?_⟩
        rintro (hd | ⟨c', hc', hreads⟩)
        · exact hne' (.inl (hne (.inl hd)))
        · rcases List.mem_cons.1 hc' with rfl | hc'
          · exact hne' (.inl (hne (.inr hreads)))
          · exact hne' (.inr ⟨c', hc', hreads⟩)

theorem new_closes (h : valuesClosed rest = true) : new.Closes rest := ⟨Scanner.closes_new, h⟩

end Downstream

namespace Ctx

/-- A response below 2 GiB whose quoted values are closed, in any calls that write past no echo
buffer, where an include without a `src` does no harm: if the filter fails, it has found no buffer
in its chain, and behind a call that has read its input it does not fail any more.  The subrequests
are those of the includes with a `src`. -/
theorem calls_closed (frees : Option Bytes → Prop) (stack : ℕ → NgxStr)
    (hstack : Harmless frees stack) (calls : List (Bool × List Buf))
    (hlen : (calls.flatMap Relay.readBytes).length < 2 ^ 31) (hfits : Relay.Fits calls)
    (hclosed : valuesClosed (calls.flatMap Relay.readBytes) = true) :
    (∀ crash, calls.foldlM (call stack) new = .error crash → crash = .memory .null) ∧
      ∀ done more ctx, calls = done ++ more → (∃ c ∈ done, Relay.Reads c) →
        done.foldlM (call stack) new = .ok ctx →
        ∃ ctx', calls.foldlM (call stack) new = .ok ctx' ∧
          Requested frees (ctx'.includes.map Include.attributes) ctx'.includes := by
  have hagree := run_downstream stack calls hlen hfits
  have hnew : Downstream.new.Closes (calls.flatMap Relay.readBytes ++ []) := by
    rw [List.append_nil]
    exact Downstream.new_closes hclosed
  constructor
  · intro crash hcrash
    rcases hnew.run with ⟨-, hrun⟩ | ⟨d, hd, -⟩
    · exact Except.error.inj (hcrash.symm.trans (hagree.error_right hrun))
    · obtain ⟨ctx, hctx, -⟩ := hagree.ok_right hd
      rw [hcrash] at hctx
      cases hctx
  · rintro done more ctx rfl hreads hdone
    have hlen' : (done.flatMap Relay.readBytes).length < 2 ^ 31 := by
      rw [List.flatMap_append, List.length_append] at hlen
      omega
    obtain ⟨m', hm', -⟩ := (run_downstream stack done hlen' hfits.left).ok_left hdone
    rw [List.flatMap_append, List.append_nil] at hnew
    rcases hnew.run with ⟨-, hrun⟩ | ⟨m, hm, hclosed', hne⟩
    · rw [hrun] at hm'
      cases hm'
    · rw [← List.append_nil (more.flatMap Relay.readBytes)] at hclosed'
      rcases hclosed'.run with ⟨hnil, -⟩ | ⟨d', hd', -⟩
      · exact absurd hnil (hne (.inr hreads))
      · obtain ⟨ctx', hctx', n, e, h⟩ := hagree.ok_right (Run.append_ok.2 ⟨m, hm, hd'⟩)
        exact ⟨ctx', hctx', h.issued.requested hstack⟩

/-- `a<esi:vars>b</esi:vars>` and then `<esi:include src="b"/>`, which lets no byte through. -/
theorem calls_closed_include :
    let calls := [(false, [Buf.mk (97 :: bareElement .esiVars [98]) false]),
      (false, [Buf.mk [60, 101, 115, 105, 58, 105, 110, 99, 108, 117, 100, 101, 32, 115, 114, 99,
        61, 34, 98, 34, 47, 62] true])]
    ∃ ctx, calls.foldlM (call fun _ => ⟨0, none⟩) new = .ok ctx ∧
      Requested (fun data => data.isSome = true) (ctx.includes.map Include.attributes)
        ctx.includes := by
  intro calls
  have hrun : ((calls.take 1).foldlM (call fun _ => ⟨0, none⟩) new).map
      (fun ctx => ctx.handed.length) = .ok 1 := by
    decide +kernel
  obtain ⟨ctx, hctx, -⟩ := Run.map_ok hrun
  exact (calls_closed (fun data => data.isSome = true) (fun _ => ⟨0, none⟩)
    (fun _ => ⟨rfl, Bool.false_ne_true⟩) calls (by decide +kernel) (by decide +kernel)
    (by decide +kernel)).2 (calls.take 1) (calls.drop 1) ctx (List.take_append_drop 1 calls).symm
    ⟨_, List.mem_singleton_self _, by decide⟩ hctx

end Ctx

end NginxEsi
