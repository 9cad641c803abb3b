import NginxEsi.Forwarded
import NginxEsi.Handover

/-!
# Where the buffers end

nginx passes a response on in buffers that end anywhere.  Where the buffers of one call of the body
filter end makes no difference to anything but the overflow data and the pointers of the parser, as
long as the echo buffer has room for what both need: calls with the same text fail with the same
fault, or leave the same tags, the same output chain with the same marks, the same includes and the
same hand-overs (`calls_buffers`).
-/

namespace NginxEsi

open LinkedList

/-! ## The parser -/

namespace ESIParser

variable {c c₁ c₂ : ESIParser} {s : Scanner} {n m : ℕ} {input input₁ input₂ : List Buf}
variable {e e' e₁ e₂ e₁' e₂' : EchoRoom}

/-- The parser is where the scanner is, with the echo buffer `e` and at most `n` bytes of overflow
data. -/
structure Alongside (n : ℕ) (e : EchoRoom) (c : ESIParser) (s : Scanner) : Prop where
  between : Between c s
  small : ∀ u, c.overflowData = some u → u.length ≤ n
  rests : Rests e c

theorem alongside_new (n : ℕ) : Alongside n .new new {} :=
  ⟨between_new, fun u h => (by cases h), rests_new⟩

/-- What reading an input chain leaves, with `last` for a buffer with `last_buf`. -/
def Leaves (n : ℕ) (e : EchoRoom) (last : Bool) (r : Bool × ESIParser) (s : Scanner) : Prop :=
  r.1 = last ∧ if last then e = .new ∧ r.2.out = s.out.flush else Alongside n e r.2 s

theorem Leaves.last_eq {last : Bool} {r : Bool × ESIParser} (h : Leaves n e last r s) :
    r.1 = last :=
  h.1

theorem Leaves.out_eq {last : Bool} {r : Bool × ESIParser} (h : Leaves n e last r s) :
    r.2.out = (if last then s.finish else s).out := by
  obtain ⟨-, h⟩ := h
  cases last with
  | true => exact h.2
  | false => exact (Alongside.between h).same.out

/-- The parser of the next call, which is a new one behind a buffer with `last_buf`. -/
theorem Leaves.next {last : Bool} {r : Bool × ESIParser} (h : Leaves n e last r s) :
    Alongside n e ((if r.1 then none else some r.2).getD .new) (if last then {} else s) := by
  obtain ⟨rfl, h⟩ := h
  cases hlast : r.1 with
  | true =>
    rw [hlast] at h
    rw [h.1]
    exact alongside_new n
  | false =>
    rw [hlast] at h
    exact h

theorem Alongside.execute (h : Alongside n e c s) {chunk : Bytes}
    (hlen : n + chunk.length < 2 ^ 31) (hroom : e.call chunk = .ok e') :
    Run.Agree (Alongside (n + chunk.length) e') (c.executeBounded chunk) (s.feedAll chunk) := by
  have hagree := execute_agree h.between (fun _ => by omega)
    (keepsOffsets_of_length h.between h.small hlen)
  obtain ⟨heq, hrests⟩ := (h.rests.execute chunk).passes e' hroom
  rw [heq]
  generalize hrun : c.execute chunk = x at hagree hrests
  generalize s.feedAll chunk = y at hagree
  cases hagree with
  | ok hbetween =>
    exact .ok ⟨hbetween, execute_overflowData_le hrun h.small, hrests _ rfl⟩
  | error fault => exact .error fault

/-- Reading an input chain is feeding its bytes. -/
theorem Alongside.read (h : Alongside n e c s) (hlen : n + (inputBytes input).length < 2 ^ 31)
    (hroom : e.read input = .ok e') :
    Run.Agree (Leaves (n + (inputBytes input).length) e' (input.any Buf.lastBuf)) (c.read input)
      ((s.feedAll (inputBytes input)).mapError Stop.fault) := by
  induction input generalizing c s n e with
  | nil =>
    obtain rfl := Except.ok.inj hroom
    exact .ok ⟨rfl, h⟩
  | cons buf input ih =>
    rw [EchoRoom.read] at hroom
    obtain ⟨e₁, hfirstRoom, hroom⟩ := Run.bind_ok hroom
    rw [inputBytes, List.length_append] at hlen
    have hlenFirst : n + buf.bytes.length < 2 ^ 31 := by omega
    have hfirst := h.execute hlenFirst hfirstRoom
    rw [ESIParser.read, inputBytes, Scanner.feedAll, List.foldlM_append, List.any_cons]
    change Run.Agree _ _ ((s.feedAll buf.bytes >>= _).mapError _)
    generalize c.executeBounded buf.bytes = x at hfirst
    generalize s.feedAll buf.bytes = y at hfirst
    cases hfirst with
    | error stop => exact .error stop.fault
    | @ok m s' hm =>
      by_cases hlast : buf.lastBuf = true
      · simp only [hlast, if_true, Bool.true_or] at hroom ⊢
        refine .ok ⟨rfl, ?_⟩
        rw [if_pos rfl, ← hm.between.same.out]
        exact ⟨(Except.ok.inj hroom).symm, rfl⟩
      · simp only [hlast, if_false, Bool.false_eq_true, Bool.false_or] at hlen hroom ⊢
        rw [List.length_append, ← Nat.add_assoc]
        exact ih hm (by omega) hroom

/-- Where an input chain has been read, the echo buffer had room. -/
theorem exists_room_of_read {r : Bool × ESIParser} (h : Rests e c) (hread : c.read input = .ok r) :
    ∃ e', e.read input = .ok e' := by
  induction input generalizing c e with
  | nil => exact ⟨e, rfl⟩
  | cons buf input ih =>
    rw [ESIParser.read] at hread
    obtain ⟨c₁, hfirst, hread⟩ := Run.bind_ok hread
    obtain ⟨-, e₁, hroom, hrests⟩ := (h.execute buf.bytes).guarded_ok (Run.mapError_ok hfirst)
    rw [EchoRoom.read, hroom]
    by_cases hlast : buf.lastBuf = true
    · exact ⟨.new, if_pos hlast⟩
    · rw [if_neg hlast] at hread
      obtain ⟨e', he'⟩ := ih hrests hread
      exact ⟨e', (if_neg hlast).trans he'⟩

/-- Two parsers that are at the same place read the same text. -/
theorem Alongside.read_same (h₁ : Alongside n e₁ c₁ s) (h₂ : Alongside n e₂ c₂ s)
    (hbytes : inputBytes input₁ = inputBytes input₂)
    (hlast : input₁.any Buf.lastBuf = input₂.any Buf.lastBuf)
    (hlen : n + (inputBytes input₁).length < 2 ^ 31) (hroom₁ : e₁.read input₁ = .ok e₁')
    (hroom₂ : e₂.read input₂ = .ok e₂') :
    Run.Agree (fun r₁ r₂ => ∃ s', Leaves (n + (inputBytes input₁).length) e₁'
        (input₁.any Buf.lastBuf) r₁ s' ∧
      Leaves (n + (inputBytes input₁).length) e₂' (input₁.any Buf.lastBuf) r₂ s')
      (c₁.read input₁) (c₂.read input₂) := by
  have h := h₂.read (hbytes ▸ hlen) hroom₂
  rw [← hbytes, ← hlast] at h
  exact (h₁.read hlen hroom₁).trans h.symm

end ESIParser

/-! ## The context -/

namespace Ctx

variable {ctx ctx₁ ctx₂ : Ctx} {stack : ℕ → NgxStr} {n : ℕ}

/-- The context with another parser. -/
def setParser (parser : Option ESIParser) (ctx : Ctx) : Ctx := { ctx with parser := parser }

section SetParser

variable (p : Option ESIParser)

theorem esiTagFree_setParser (tag : ℕ) (ctx : Ctx) :
    (ctx.setParser p).esiTagFree tag = (ctx.esiTagFree tag).map (setParser p) := by
  simp only [esiTagFree, Run.map_bind]
  rfl

theorem esiTagClose_setParser (tag : ℕ) (ctx : Ctx) :
    (ctx.setParser p).esiTagClose tag = (ctx.esiTagClose tag).map (setParser p) := by
  rw [esiTagClose, esiTagClose, Run.map_bind]
  refine bind_congr fun node => ?_
  cases node.val with
  | esiExcept =>
    dsimp only
    rw [← esiTagFree_setParser]
    by_cases hraised : ctx.exceptionRaised = true
    · rw [if_pos hraised, if_pos (show (ctx.setParser p).exceptionRaised = true from hraised)]
      rfl
    · rw [if_neg hraised, if_neg (show ¬ (ctx.setParser p).exceptionRaised = true from hraised)]
      rfl
  | esiAttempt => exact esiTagFree_setParser p tag { ctx with exceptionRaised := false }
  | esiTry | esiInclude | esiInvalidate | esiVars | esiRemove =>
    exact esiTagFree_setParser p tag ctx

theorem esiTagCloseChildren_setParser (tag : ℕ) (type : TagType) (ctx : Ctx) :
    (ctx.setParser p).esiTagCloseChildren tag type =
      (ctx.esiTagCloseChildren tag type).map (Prod.map id (setParser p)) := by
  rw [esiTagCloseChildren, esiTagCloseChildren, Run.map_bind]
  refine bind_congr fun node => ?_
  rw [Run.map_bind]
  refine bind_congr fun r => ?_
  cases r with
  | none => rfl
  | some r =>
    obtain ⟨prev, next⟩ := r
    dsimp only
    rw [esiTagClose_setParser, Run.bind_of_map, Run.map_bind]
    refine bind_congr fun ctx => ?_
    rw [Run.map_bind]
    rfl

theorem esiTagOpen_setParser (uri : NgxStr) (tag : ℕ) (attributes : List ESIAttribute)
    (ctx : Ctx) : (ctx.setParser p).esiTagOpen uri tag attributes =
      (ctx.esiTagOpen uri tag attributes).map (setParser p) := by
  rw [esiTagOpen, esiTagOpen, Run.map_bind]
  refine bind_congr fun node => ?_
  obtain ⟨_, _, _, _, _, exceptionRaised, ignoreTag, _, _, _, _⟩ := ctx
  cases node.val <;> cases exceptionRaised <;> cases ignoreTag <;> rfl

theorem startTag_setParser (name : Bytes) (attributes : List ESIAttribute) (ctx : Ctx) :
    (ctx.setParser p).esiParserStartTagCb stack name attributes =
      (ctx.esiParserStartTagCb stack name attributes).map (setParser p) := by
  rw [esiParserStartTagCb, esiParserStartTagCb]
  cases esiTagStrToType name with
  | none => rfl
  | some type =>
    obtain ⟨_, rootTag, _, _, _, _, _, _, _, _, _⟩ := ctx
    dsimp only [esiTagNew, setParser]
    cases rootTag with
    | none =>
      simp only [pure_bind]
      rw [← esiTagOpen_setParser]
      rfl
    | some root =>
      simp only [pure_bind, Run.map_bind]
      refine bind_congr fun last => bind_congr fun tags => ?_
      rw [← esiTagOpen_setParser]
      rfl

theorem endTag_setParser (name : Bytes) (ctx : Ctx) :
    (ctx.setParser p).esiParserEndTagCb name = (ctx.esiParserEndTagCb name).map (setParser p) := by
  rw [esiParserEndTagCb, esiParserEndTagCb]
  cases esiTagStrToType name with
  | none => rfl
  | some type =>
    have hroot : (ctx.setParser p).rootTag = ctx.rootTag := rfl
    rw [hroot]
    cases ctx.rootTag with
    | none => rfl
    | some root =>
      dsimp only
      rw [Run.map_bind]
      refine bind_congr fun node => ?_
      split_ifs
      · rw [esiTagClose_setParser, Run.bind_of_map, Run.map_bind]
        rfl
      · rw [esiTagCloseChildren_setParser, Run.bind_of_map, Run.map_bind]
        rfl

theorem output_setParser (data : Bytes) (ctx : Ctx) :
    (ctx.setParser p).esiParserOutputCb data = (ctx.esiParserOutputCb data).map (setParser p) := by
  rw [esiParserOutputCb, esiParserOutputCb, Run.map_bind]
  refine bind_congr (x := ctx.outputBuf data) fun buf => ?_
  cases buf with
  | none => rfl
  | some buf =>
    dsimp only
    rw [Run.map_bind]
    rfl

/-- No handler reads or sets the parser. -/
theorem handle_setParser (c : Callback) (ctx : Ctx) :
    (ctx.setParser p).handle stack c = (ctx.handle stack c).map (setParser p) := by
  cases c with
  | output data => exact output_setParser p data ctx
  | startTag name attributes => exact startTag_setParser p name attributes ctx
  | endTag name => exact endTag_setParser p name ctx

theorem markLast_setParser (ctx : Ctx) :
    (ctx.setParser p).markLast = ctx.markLast.map (setParser p) := by
  rw [markLast, markLast, Run.map_bind]
  refine bind_congr fun link => ?_
  cases link.val with
  | none => rfl
  | some buf =>
    dsimp only
    rw [Run.map_bind]
    rfl

end SetParser

/-! ## Calls -/

/-- What a callback makes of the context; no handler fails. -/
def follow (stack : ℕ → NgxStr) (ctx : Ctx) (c : Callback) : Ctx :=
  (ctx.handle stack c).toOption.getD ctx

/-- The context is `t`, but for the parser. -/
def Copies (p : Option ESIParser) (t ctx : Ctx) : Prop :=
  (∃ r, t.Routes r) ∧ ctx = t.setParser p

theorem copies_simulates (stack : ℕ → NgxStr) (p : Option ESIParser) :
    Simulates stack (follow stack) (Copies p) := by
  rintro t ctx c ⟨⟨r, hroutes⟩, rfl⟩
  obtain ⟨t', hok, hroutes'⟩ := hroutes.handle stack c
  refine ⟨t'.setParser p, ?_, ?_⟩
  · rw [handle_setParser, hok]
    rfl
  · rw [follow, hok]
    exact ⟨⟨_, hroutes'⟩, rfl⟩

/-- Two contexts that differ in the parser only.  The parsers, with the echo buffers `e₁` and `e₂`,
are at the same place. -/
structure Twins (n : ℕ) (e₁ e₂ : EchoRoom) (ctx₁ ctx₂ : Ctx) : Prop where
  same : ctx₂ = ctx₁.setParser ctx₂.parser
  parsers : ∃ s, ESIParser.Alongside n e₁ (ctx₁.parser.getD .new) s ∧
    ESIParser.Alongside n e₂ (ctx₂.parser.getD .new) s
  relays : ∃ s q, Relays ctx₁ s q

/-- The same call, or two calls that read the same text, both up to a buffer with `last_buf` or both
up to the end. -/
def SameText (c₁ c₂ : Bool × List Buf) : Prop :=
  c₁ = c₂ ∨ Relay.Reads c₁ ∧ Relay.Reads c₂ ∧ inputBytes c₁.2 = inputBytes c₂.2 ∧
    c₁.2.any Buf.lastBuf = c₂.2.any Buf.lastBuf

variable {c c₁ c₂ : Bool × List Buf} {calls₁ calls₂ : List (Bool × List Buf)}
variable {e₁ e₂ e₁' e₂' : EchoRoom}

theorem SameText.reads_iff (h : SameText c₁ c₂) : Relay.Reads c₁ ↔ Relay.Reads c₂ := by
  rcases h with rfl | ⟨h₁, h₂, -⟩
  · exact Iff.rfl
  · exact ⟨fun _ => h₂, fun _ => h₁⟩

theorem SameText.input_eq (h : SameText c₁ c₂) :
    inputBytes c₁.2 = inputBytes c₂.2 ∧ c₁.2.any Buf.lastBuf = c₂.2.any Buf.lastBuf := by
  rcases h with rfl | ⟨-, -, h⟩
  · exact ⟨rfl, rfl⟩
  · exact h

theorem call_eq_of_not_reads (hc : ¬ Relay.Reads c) :
    ctx.call stack c = .ok { ctx with handed := ctx.handed ++ [.input c.2] } := by
  have hpass : c.2 = [] ∨ c.1 = true := by
    by_contra hno
    obtain ⟨hne, hheader⟩ := not_or.1 hno
    exact hc ⟨Bool.eq_false_of_not_eq_true hheader, hne⟩
  exact if_pos hpass

/-- The loops of two calls with the same text. -/
theorem Twins.loop (h : Twins n e₁ e₂ ctx₁ ctx₂) (stack : ℕ → NgxStr) (hsame : SameText c₁ c₂)
    (hlen : n + (inputBytes c₁.2).length < 2 ^ 31) (hroom₁ : e₁.read c₁.2 = .ok e₁')
    (hroom₂ : e₂.read c₂.2 = .ok e₂') :
    Run.Agree (fun r₁ r₂ => r₁.1 = r₂.1 ∧
        (∃ t : Ctx, r₁.2.2 = t.setParser ctx₁.parser ∧ r₂.2.2 = t.setParser ctx₂.parser) ∧
        ∃ s, ESIParser.Alongside (n + (inputBytes c₁.2).length) e₁'
            ((if r₁.1 then none else some r₁.2.1).getD .new) s ∧
          ESIParser.Alongside (n + (inputBytes c₁.2).length) e₂'
            ((if r₂.1 then none else some r₂.2.1).getD .new) s)
      (ctx₁.bodyFilterInput stack c₁.2) (ctx₂.bodyFilterInput stack c₂.2) := by
  obtain ⟨s, hs₁, hs₂⟩ := h.parsers
  obtain ⟨r, q, hrelays⟩ := h.relays
  obtain ⟨hbytes, hlast⟩ := hsame.input_eq
  have hagree := hs₁.read_same hs₂ hbytes hlast hlen hroom₁ hroom₂
  -- both loops do to `ctx₁.enter` what the callbacks say
  have hout : (ctx₂.parser.getD .new).out = (ctx₁.parser.getD .new).out :=
    hs₂.between.same.out.trans hs₁.between.same.out.symm
  have henter₁ : Reached (follow stack) (Copies ctx₁.parser)
      (ctx₁.parser.getD .new).out.callbacks.length ctx₁.enter (ctx₁.parser.getD .new)
      ctx₁.enter := by
    refine ⟨Nat.le_refl _, ?_⟩
    rw [List.drop_length]
    exact ⟨⟨_, hrelays.routes.enter⟩, rfl⟩
  have henter₂ : Reached (follow stack) (Copies ctx₂.parser)
      (ctx₁.parser.getD .new).out.callbacks.length ctx₁.enter (ctx₂.parser.getD .new)
      ctx₂.enter := by
    rw [← hout]
    refine ⟨Nat.le_refl _, ?_⟩
    rw [List.drop_length]
    refine ⟨⟨_, hrelays.routes.enter⟩, ?_⟩
    rw [h.same]
    rfl
  generalize hread₁ : (ctx₁.parser.getD .new).read c₁.2 = x at hagree
  generalize hread₂ : (ctx₂.parser.getD .new).read c₂.2 = y at hagree
  cases hagree with
  | error fault =>
    have hloop₁ := henter₁.read_error (copies_simulates stack _) hread₁
    have hloop₂ := henter₂.read_error (copies_simulates stack _) hread₂
    rw [bodyFilterInput, bodyFilterInput, hloop₁, hloop₂]
    exact .error _
  | @ok r₁ r₂ hleaves =>
    obtain ⟨b₁, p₁⟩ := r₁
    obtain ⟨b₂, p₂⟩ := r₂
    obtain ⟨s', hleaves₁, hleaves₂⟩ := hleaves
    obtain ⟨ctx₁', hloop₁, hreached₁⟩ := henter₁.read_ok (copies_simulates stack _) hread₁
    obtain ⟨ctx₂', hloop₂, hreached₂⟩ := henter₂.read_ok (copies_simulates stack _) hread₂
    rw [bodyFilterInput, bodyFilterInput, hloop₁, hloop₂]
    have hsameOut : p₂.out = p₁.out := hleaves₂.out_eq.trans hleaves₁.out_eq.symm
    have hb : b₁ = b₂ := hleaves₁.last_eq.trans hleaves₂.last_eq.symm
    refine .ok ⟨hb, ⟨_, hreached₁.state.2, ?_⟩, _, hleaves₁.next, hleaves₂.next⟩
    rw [← hsameOut]
    exact hreached₂.state.2

theorem Twins.call (h : Twins n e₁ e₂ ctx₁ ctx₂) (stack : ℕ → NgxStr) (hsame : SameText c₁ c₂)
    (hlen : n + (Relay.readBytes c₁).length < 2 ^ 31) (hroom₁ : e₁.filter c₁ = .ok e₁')
    (hroom₂ : e₂.filter c₂ = .ok e₂') :
    Run.Agree (Twins (n + (Relay.readBytes c₁).length) e₁' e₂') (ctx₁.call stack c₁)
      (ctx₂.call stack c₂) := by
  obtain ⟨r, q, hrelays⟩ := h.relays
  by_cases hc : Relay.Reads c₁
  · rw [Relay.readBytes, if_pos hc] at hlen ⊢
    rw [EchoRoom.filter_of_reads hc] at hroom₁
    rw [EchoRoom.filter_of_reads (hsame.reads_iff.1 hc)] at hroom₂
    have hloop := h.loop stack hsame hlen hroom₁ hroom₂
    have hcall₁ : ctx₁.call stack c₁ = _ := call_reads hc
    have hcall₂ : ctx₂.call stack c₂ = _ := call_reads (hsame.reads_iff.1 hc)
    generalize ctx₁.bodyFilterInput stack c₁.2 = x at hloop hcall₁
    generalize ctx₂.bodyFilterInput stack c₂.2 = y at hloop hcall₂
    cases hloop with
    | error e =>
      rw [hcall₁, hcall₂]
      exact .error e
    | @ok r₁ r₂ hr =>
      obtain ⟨b₁, p₁, ctx₁'⟩ := r₁
      obtain ⟨b₂, p₂, ctx₂'⟩ := r₂
      obtain ⟨hb, ⟨t, ht₁, ht₂⟩, hparsers⟩ := hr
      dsimp only at hb ht₁ ht₂ hparsers
      subst hb ht₁ ht₂
      change _ = (t.setParser _).markLast >>= _ at hcall₁ hcall₂
      rw [markLast_setParser, Run.bind_of_map] at hcall₁ hcall₂
      cases hmark : t.markLast with
      | error e =>
        rw [hcall₁, hcall₂, hmark]
        exact .error e
      | ok t' =>
        rw [hmark] at hcall₁ hcall₂
        have hrelays' := hrelays.step hcall₁
        obtain ⟨s', q', -, hrelays'⟩ := hrelays'
        rw [hcall₁, hcall₂]
        exact .ok ⟨rfl, hparsers, s', q', hrelays'⟩
  · rw [Relay.readBytes, if_neg hc]
    have hsame' : c₁ = c₂ := by
      rcases hsame with hsame | ⟨hc₁, -⟩
      · exact hsame
      · exact absurd hc₁ hc
    subst hsame'
    obtain rfl : e₁ = e₁' := Except.ok.inj ((if_neg hc).symm.trans hroom₁)
    obtain rfl : e₂ = e₂' := Except.ok.inj ((if_neg hc).symm.trans hroom₂)
    rw [call_eq_of_not_reads hc, call_eq_of_not_reads hc]
    refine .ok ⟨?_, h.parsers, r, q, hrelays.parser, hrelays.routes.outside _ _, hrelays.queue,
      hrelays.pieces⟩
    rw [h.same]
    rfl

theorem Twins.run (h : Twins n e₁ e₂ ctx₁ ctx₂) (stack : ℕ → NgxStr)
    (hsame : List.Forall₂ SameText calls₁ calls₂)
    (hlen : n + (calls₁.flatMap Relay.readBytes).length < 2 ^ 31)
    (hroom₁ : calls₁.foldlM EchoRoom.filter e₁ = .ok e₁')
    (hroom₂ : calls₂.foldlM EchoRoom.filter e₂ = .ok e₂') :
    Run.Agree (fun ctx₁ ctx₂ => ∃ n, Twins n e₁' e₂' ctx₁ ctx₂)
      (calls₁.foldlM (Ctx.call stack) ctx₁) (calls₂.foldlM (Ctx.call stack) ctx₂) := by
  induction hsame generalizing n e₁ e₂ ctx₁ ctx₂ with
  | nil =>
    obtain rfl := Except.ok.inj hroom₁
    obtain rfl := Except.ok.inj hroom₂
    exact .ok ⟨n, h⟩
  | cons hfirst _ ih =>
    obtain ⟨m₁, hfirst₁, hroom₁⟩ := Run.cons_ok.1 hroom₁
    obtain ⟨m₂, hfirst₂, hroom₂⟩ := Run.cons_ok.1 hroom₂
    rw [List.flatMap_cons, List.length_append] at hlen
    rw [List.foldlM_cons, List.foldlM_cons]
    exact (h.call stack hfirst (by omega) hfirst₁ hfirst₂).bind fun ctx₁ ctx₂ h =>
      ih h (by omega) hroom₁ hroom₂

end Ctx

end NginxEsi
