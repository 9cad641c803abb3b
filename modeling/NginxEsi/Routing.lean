import NginxEsi.Events
import NginxEsi.Filter
import NginxEsi.Lib.Run

/-!
# Routing text

What the tag list is for: the types of the open elements, outermost first, decide which bytes go
into the output chain.  `Routing` has the stack of types in place of the linked tags, and the bytes
sent in place of the links and buffers of the chain.  Every handler keeps the context in step with
it (`Routes.handle`), so that no handler ever uses a freed tag or follows a list without an end.
-/

namespace NginxEsi

open LinkedList

/-- The text directly inside an element of the type is sent. -/
def TagType.shows (exceptionRaised : Bool) : TagType → Bool
  | .esiVars | .esiAttempt => true
  | .esiExcept => exceptionRaised
  | .esiTry | .esiInclude | .esiInvalidate | .esiRemove => false

/-- `isOpen` says whether `open_tag` is the innermost element; it is `NULL` otherwise. -/
structure Routing where
  stack : List TagType
  isOpen : Bool
  exceptionRaised : Bool
  ignoreTag : Bool
  included : List (List ESIAttribute)
  sent : Bytes
  deriving DecidableEq, Repr

namespace Routing

/-- The routing on a fresh context. -/
def new : Routing := ⟨[], false, false, false, [], []⟩

def opened (type : TagType) (attributes : List ESIAttribute) (r : Routing) : Routing :=
  match type with
  | .esiAttempt => { r with exceptionRaised := false }
  | .esiExcept => { r with ignoreTag := !r.exceptionRaised || r.ignoreTag }
  | .esiInclude => if r.ignoreTag then r else { r with included := r.included ++ [attributes] }
  | .esiTry | .esiInvalidate | .esiVars | .esiRemove => r

def closed (type : TagType) (r : Routing) : Routing :=
  match type with
  | .esiAttempt => { r with exceptionRaised := false }
  | .esiExcept => { r with ignoreTag := r.exceptionRaised && r.ignoreTag, exceptionRaised := false }
  | .esiTry | .esiInclude | .esiInvalidate | .esiVars | .esiRemove => r

def start (type : TagType) (attributes : List ESIAttribute) (r : Routing) : Routing :=
  { r.opened type attributes with stack := r.stack ++ [type], isOpen := true }

/-- The end of an element: of the outermost one, if that has the type, or else of the outermost one
behind it that has. -/
def stop (type : TagType) (r : Routing) : Routing :=
  match r.stack with
  | [] => r
  | root :: inner =>
    if root = type then { r.closed type with stack := [], isOpen := false }
    else if type ∈ inner then
      { r.closed type with stack := root :: inner.takeWhile (· ≠ type), isOpen := true }
    else { r with isOpen := false }

theorem closed_sent (r : Routing) (type : TagType) : (r.closed type).sent = r.sent := by
  cases type <;> rfl

theorem takeWhile_ne {type : TagType} {l l' : List TagType} (h : type ∉ l) :
    (l ++ type :: l').takeWhile (· ≠ type) = l := by
  rw [List.takeWhile_append_of_pos, List.takeWhile_cons_of_neg (by simp), List.append_nil]
  intro type' htype'
  exact decide_eq_true fun heq => h (heq ▸ htype')

theorem stop_nil {r : Routing} (h : r.stack = []) (type : TagType) : r.stop type = r := by
  unfold stop
  rw [h]

theorem stop_root {r : Routing} {type : TagType} {inner : List TagType}
    (h : r.stack = type :: inner) :
    r.stop type = { r.closed type with stack := [], isOpen := false } := by
  unfold stop
  rw [h]
  exact if_pos rfl

theorem stop_child {r : Routing} {root type : TagType} {l l' : List TagType}
    (h : r.stack = root :: l ++ type :: l') (hroot : root ≠ type) (hl : type ∉ l) :
    r.stop type = { r.closed type with stack := root :: l, isOpen := true } := by
  unfold stop
  rw [h, List.cons_append]
  dsimp only
  rw [if_neg hroot, if_pos (by simp), takeWhile_ne hl]

theorem stop_miss {r : Routing} {root type : TagType} {inner : List TagType}
    (h : r.stack = root :: inner) (hroot : root ≠ type) (hinner : type ∉ inner) :
    r.stop type = { r with isOpen := false } := by
  unfold stop
  rw [h]
  dsimp only
  rw [if_neg hroot, if_neg hinner]

/-- The type that decides about text. -/
def innermost (r : Routing) : Option TagType := if r.isOpen then r.stack.getLast? else none

def shows (r : Routing) : Bool := r.innermost.all (TagType.shows r.exceptionRaised)

def send (data : Bytes) (r : Routing) : Routing :=
  if r.shows then { r with sent := r.sent ++ data } else r

def onTag (f : TagType → Routing → Routing) (name : Bytes) (r : Routing) : Routing :=
  match esiTagStrToType name with
  | none => r
  | some type => f type r

def handle (r : Routing) : Callback → Routing
  | .startTag name attributes => r.onTag (start · attributes) name
  | .endTag name => r.onTag stop name
  | .output data => r.send data

/-! ## Events -/

/-- The same, byte by byte. -/
def step (r : Routing) : Event → Routing
  | .startTag name attributes => r.onTag (start · attributes) name
  | .endTag name => r.onTag stop name
  | .byte b => r.send [b]

theorem send_nil (r : Routing) : r.send [] = r := by
  unfold send
  split_ifs
  · rw [List.append_nil]
  · rfl

theorem send_append (u v : Bytes) (r : Routing) : (r.send u).send v = r.send (u ++ v) := by
  by_cases h : r.shows = true
  · have h' : (r.send u).shows = true := by
      rw [send, if_pos h]
      exact h
    rw [send, if_pos h', send, send, if_pos h, if_pos h, List.append_assoc]
  · have h' : r.send u = r := if_neg h
    rw [h', send, if_neg h, send, if_neg h]

theorem foldl_step_bytes (data : Bytes) (r : Routing) :
    (data.map Event.byte).foldl step r = r.send data := by
  induction data generalizing r with
  | nil => exact (send_nil r).symm
  | cons b data ih =>
    rw [List.map_cons, List.foldl_cons, ih, step, send_append, List.singleton_append]

/-- Routing sees only the events of the callbacks. -/
theorem foldl_handle (l : List Callback) (r : Routing) :
    l.foldl handle r = (events l).foldl step r := by
  induction l generalizing r with
  | nil => rfl
  | cons c l ih =>
    rw [List.foldl_cons, ih, events_cons, List.foldl_append]
    cases c with
    | output data => rw [Callback.events, foldl_step_bytes, handle]
    | startTag name attributes => rfl
    | endTag name => rfl

end Routing

/-! ## The context keeps in step -/

/-- The bytes in a link of the chain. -/
def linkBytes (e : ℕ × Option Buf) : Bytes := e.2.elim [] Buf.bytes

namespace Ctx

/-- The output chain is finite, ends at `ctx->last_buf` and holds the bytes. -/
def Holds (ctx : Ctx) (bytes : Bytes) : Prop :=
  ∃ l buf, Links ctx.links (some ctx.chain) (l ++ [(ctx.lastBuf, buf)]) none ∧
    (l ++ [(ctx.lastBuf, buf)]).flatMap linkBytes = bytes

/-- The tags are linked from `ctx->root_tag`, and `ctx->open_tag` is the last one or `NULL`. -/
def Stacks (ctx : Ctx) (stack : List TagType) (isOpen : Bool) : Prop :=
  ∃ l, Links ctx.tags ctx.rootTag l none ∧ l.map Prod.snd = stack ∧
    ctx.openTag = if isOpen then (l.map Prod.fst).getLast? else none

/-- The same with the tags themselves. -/
structure Opens (ctx : Ctx) (l : List (ℕ × TagType)) (isOpen : Bool) : Prop where
  links : Links ctx.tags ctx.rootTag l none
  openTag : ctx.openTag = if isOpen then (l.map Prod.fst).getLast? else none

/-- The flags and the calls of `esi_tag_start_include`. -/
structure Flags (ctx : Ctx) (r : Routing) : Prop where
  exceptionRaised : ctx.exceptionRaised = r.exceptionRaised
  ignoreTag : ctx.ignoreTag = r.ignoreTag
  included : ctx.includes.map Include.attributes = r.included

structure Routes (ctx : Ctx) (r : Routing) : Prop where
  tags : ctx.Stacks r.stack r.isOpen
  isOpen : r.isOpen = true → r.stack ≠ []
  flags : ctx.Flags r
  holds : ctx.Holds r.sent

/-- The output chain is as before. -/
structure SameChain (ctx ctx' : Ctx) : Prop where
  chain : ctx'.chain = ctx.chain
  lastBuf : ctx'.lastBuf = ctx.lastBuf
  links : ctx'.links = ctx.links

theorem SameChain.holds {ctx ctx' : Ctx} {bytes : Bytes} (h : SameChain ctx ctx')
    (hb : ctx.Holds bytes) : ctx'.Holds bytes := by
  unfold Holds
  rw [h.chain, h.lastBuf, h.links]
  exact hb

theorem new_routes : Routes new .new where
  tags := ⟨[], .nil none, rfl, rfl⟩
  isOpen := fun h => absurd h (by decide)
  flags := ⟨rfl, rfl, rfl⟩
  holds := ⟨[], none, .cons rfl (.nil none), rfl⟩

/-! ### Tags -/

section Handlers

variable {ctx : Ctx} {r : Routing} {tag : ℕ} {a : TagType} {m : Option ℕ}

theorem esiTagOpen_frame {ctx' : Ctx} {uri : NgxStr} {attributes : List ESIAttribute}
    (h : ctx.esiTagOpen uri tag attributes = .ok ctx') :
    ctx'.tags = ctx.tags ∧ SameChain ctx ctx' ∧ ctx'.handed = ctx.handed := by
  obtain ⟨node, -, h⟩ := Run.bind_ok h
  cases hval : node.val <;> rw [hval] at h <;> obtain rfl := Except.ok.inj h
  case esiExcept | esiInclude => split_ifs <;> exact ⟨rfl, ⟨rfl, rfl, rfl⟩, rfl⟩
  all_goals exact ⟨rfl, ⟨rfl, rfl, rfl⟩, rfl⟩

theorem esiTagOpen_ok (htag : ctx.tags[tag]? = some (some ⟨a, m⟩)) (hf : ctx.Flags r) (uri : NgxStr)
    (attributes : List ESIAttribute) :
    ∃ ctx', ctx.esiTagOpen uri tag attributes = .ok ctx' ∧ ctx'.Flags (r.opened a attributes) ∧
      SameChain ctx ctx' ∧ ctx'.tags = ctx.tags ∧ ctx'.rootTag = ctx.rootTag ∧
      ctx'.openTag = ctx.openTag := by
  simp only [esiTagOpen, Heap.get_some htag, memory_ok, bind, Except.bind, pure, Except.pure]
  obtain ⟨h₁, h₂, h₃⟩ := hf
  cases a with
  | esiAttempt => exact ⟨_, rfl, ⟨rfl, h₂, h₃⟩, ⟨rfl, rfl, rfl⟩, rfl, rfl, rfl⟩
  | esiExcept =>
    refine ⟨_, rfl, ?_⟩
    cases hexc : ctx.exceptionRaised with
    | true =>
      refine ⟨⟨h₁, ?_, h₃⟩, ⟨rfl, rfl, rfl⟩, rfl, rfl, rfl⟩
      rw [if_pos rfl, Routing.opened, ← h₁, hexc, h₂]
      rfl
    | false =>
      rw [if_neg Bool.false_ne_true]
      refine ⟨⟨hexc.symm.trans h₁, ?_, h₃⟩, ⟨rfl, rfl, rfl⟩, rfl, rfl, rfl⟩
      rw [Routing.opened, ← h₁, hexc]
      rfl
  | esiInclude =>
    refine ⟨_, rfl, ?_⟩
    cases hign : ctx.ignoreTag with
    | true =>
      rw [if_pos rfl, Routing.opened, if_pos (h₂.symm.trans hign)]
      exact ⟨⟨h₁, h₂, h₃⟩, ⟨rfl, rfl, rfl⟩, rfl, rfl, rfl⟩
    | false =>
      have hr : ¬ r.ignoreTag = true := by
        rw [← h₂, hign]
        exact Bool.false_ne_true
      rw [if_neg Bool.false_ne_true, Routing.opened, if_neg hr]
      refine ⟨⟨h₁, hign.symm.trans h₂, ?_⟩, ⟨rfl, rfl, rfl⟩, rfl, rfl, rfl⟩
      rw [List.map_append, h₃]
      rfl
  | esiTry | esiInvalidate | esiVars | esiRemove =>
    exact ⟨_, rfl, ⟨h₁, h₂, h₃⟩, ⟨rfl, rfl, rfl⟩, rfl, rfl, rfl⟩

theorem esiTagFree_eq {l : List (ℕ × TagType)}
    (hl : Links ctx.tags (some tag) ((tag, a) :: l) none) :
    ctx.esiTagFree tag = .ok { ctx with tags := (ctx.tags.clear l).set tag none } := by
  obtain ⟨-, m, htag, tail⟩ := links_cons.1 hl
  have htag' : (ctx.tags.clear l)[tag]? = some (some ⟨a, m⟩) :=
    (Heap.getElem?_clear hl.not_mem_tail).trans htag
  simp only [esiTagFree, Heap.get_some htag, tail.freeFrom_eq tail.length_le,
    Heap.free_some htag', memory_ok, bind, Except.bind, pure, Except.pure]

theorem esiTagClose_ok {l : List (ℕ × TagType)}
    (hl : Links ctx.tags (some tag) ((tag, a) :: l) none) (hf : ctx.Flags r) :
    ∃ ctx', ctx.esiTagClose tag = .ok ctx' ∧ ctx'.Flags (r.closed a) ∧ SameChain ctx ctx' ∧
      ctx'.tags = (ctx.tags.clear l).set tag none ∧ ctx'.rootTag = ctx.rootTag := by
  obtain ⟨-, m, htag, tail⟩ := links_cons.1 hl
  simp only [esiTagClose, Heap.get_some htag, memory_ok, bind, Except.bind]
  obtain ⟨h₁, h₂, h₃⟩ := hf
  cases a with
  | esiAttempt =>
    exact ⟨_, esiTagFree_eq hl, ⟨rfl, h₂, h₃⟩, ⟨rfl, rfl, rfl⟩, rfl, rfl⟩
  | esiExcept =>
    cases hexc : ctx.exceptionRaised with
    | true =>
      refine ⟨_, esiTagFree_eq hl, ⟨rfl, ?_, h₃⟩, ⟨rfl, rfl, rfl⟩, rfl, rfl⟩
      rw [Routing.closed, ← h₁, hexc, ← h₂]
      rfl
    | false =>
      refine ⟨_, esiTagFree_eq hl, ⟨rfl, ?_, h₃⟩, ⟨rfl, rfl, rfl⟩, rfl, rfl⟩
      rw [Routing.closed, ← h₁, hexc]
      rfl
  | esiTry | esiInclude | esiInvalidate | esiVars | esiRemove =>
    exact ⟨_, esiTagFree_eq hl, ⟨h₁, h₂, h₃⟩, ⟨rfl, rfl, rfl⟩, rfl, rfl⟩

/-- A start tag links a new tag behind the others. -/
theorem startTag_ok {l : List (ℕ × TagType)} {name : Bytes} {type : TagType}
    (hl : Links ctx.tags ctx.rootTag l none) (hf : ctx.Flags r)
    (hname : esiTagStrToType name = some type) (stack : ℕ → NgxStr)
    (attributes : List ESIAttribute) :
    ∃ ctx', ctx.esiParserStartTagCb stack name attributes = .ok ctx' ∧
      ctx'.Opens (l ++ [(ctx.tags.length, type)]) true ∧ ctx'.Flags (r.opened type attributes) ∧
      SameChain ctx ctx' ∧ ctx'.tags.length = ctx.tags.length + 1 := by
  have hf' : ∀ tags rootTag, Flags { ctx with
      tags := tags, rootTag := rootTag, openTag := some ctx.tags.length } r :=
    fun _ _ => ⟨hf.exceptionRaised, hf.ignoreTag, hf.included⟩
  have hnew : (ctx.tags ++ [some (Node.mk type none)])[ctx.tags.length]? =
      some (some ⟨type, none⟩) := List.getElem?_concat_length
  have hlast : ((l ++ [(ctx.tags.length, type)]).map Prod.fst).getLast? =
      some ctx.tags.length := by
    rw [List.map_append, List.map_singleton, List.getLast?_concat]
  unfold esiParserStartTagCb
  rw [hname]
  cases hroot : ctx.rootTag with
  | none =>
    rw [hroot] at hl
    obtain rfl : l = [] := hl.unique (.nil none)
    obtain ⟨ctx', hok, hflags, hchain, htags, hroot', hopen⟩ :=
      esiTagOpen_ok hnew (hf' (ctx.tags ++ [some ⟨type, none⟩]) (some ctx.tags.length))
        (stack ctx.includes.length) attributes
    refine ⟨ctx', ?_, ⟨?_, hopen.trans hlast.symm⟩, hflags, ⟨hchain.1, hchain.2, hchain.3⟩, ?_⟩
    · simpa only [esiTagNew, hroot, bind, Except.bind, pure, Except.pure] using hok
    · rw [htags, hroot']
      exact .cons hnew (.nil none)
    · rw [htags]
      exact List.length_append
  | some root =>
    rw [hroot] at hl
    obtain ⟨last, tags, hwalk, hnext, hl'⟩ := hl.link type
    obtain ⟨ctx', hok, hflags, hchain, htags, hroot', hopen⟩ :=
      esiTagOpen_ok hl'.getElem?_last (hf' _ (some root)) (stack ctx.includes.length) attributes
    refine ⟨ctx', ?_, ⟨?_, hopen.trans hlast.symm⟩, hflags, ⟨hchain.1, hchain.2, hchain.3⟩, ?_⟩
    · simpa only [esiTagNew, hroot, hwalk, hnext, memory_ok, bind, Except.bind, pure,
        Except.pure] using hok
    · rw [htags, hroot']
      exact hl'
    · rw [htags]
      exact (Heap.length_update hnext).trans List.length_append

theorem esiTagCloseChildren_miss {l : List (ℕ × TagType)} {type : TagType}
    (hl : Links ctx.tags (some tag) ((tag, a) :: l) none) (htype : type ∉ l.map Prod.snd) :
    ctx.esiTagCloseChildren tag type = .ok (none, ctx) := by
  obtain ⟨-, m, htag, tail⟩ := links_cons.1 hl
  have hfind : ctx.tags.findFrom (· = type) ctx.tags.length tag m = .ok none :=
    tail.findFrom_none tail.length_le fun e he =>
      decide_eq_false fun heq => htype (heq ▸ List.mem_map_of_mem he)
  simp only [esiTagCloseChildren, Heap.get_some htag, hfind, memory_ok, bind, Except.bind, pure,
    Except.pure]

/-- The walk stops at the first tag of the type: that one and those behind it are freed. -/
theorem esiTagCloseChildren_ok {l₁ l₂ : List (ℕ × TagType)} {type : TagType} {next : ℕ}
    (hl : Links ctx.tags (some tag) ((tag, a) :: l₁ ++ (next, type) :: l₂) none)
    (hl₁ : ∀ e ∈ l₁, e.2 ≠ type) (hf : ctx.Flags r) :
    ∃ ctx', ctx.esiTagCloseChildren tag type =
        .ok (((((tag, a) :: l₁).map Prod.fst).getLast? : Option ℕ), ctx') ∧
      ctx'.Flags (r.closed type) ∧ SameChain ctx ctx' ∧
      Links ctx'.tags (some tag) ((tag, a) :: l₁) none ∧ ctx'.rootTag = ctx.rootTag ∧
      ctx'.tags.length = ctx.tags.length := by
  obtain ⟨-, m, htag, tail⟩ := links_cons.1 hl
  have hfuel : l₁.length < ctx.tags.length := by
    have hlen := hl.length_le
    rw [List.cons_append, List.length_cons, List.length_append] at hlen
    omega
  have hfind : ctx.tags.findFrom (· = type) ctx.tags.length tag m =
      .ok (some ((tag :: l₁.map Prod.fst).getLast (List.cons_ne_nil _ _), next)) :=
    tail.findFrom_some hfuel (fun e he => decide_eq_false (hl₁ e he)) (decide_eq_true rfl)
  obtain ⟨k, -, hsuffix⟩ := links_append.1 hl
  obtain ⟨rfl, -⟩ := links_cons.1 hsuffix
  obtain ⟨ctx', hclose, hflags, hchain, htags, hroot⟩ := esiTagClose_ok hsuffix hf
  -- the predecessor is a tag of the list and outlives the ones that were freed
  obtain ⟨l₀, ⟨prev, b⟩, hprev⟩ := (((tag, a) :: l₁).eq_nil_or_concat').resolve_left
    (List.cons_ne_nil _ _)
  have hlast : (tag :: l₁.map Prod.fst).getLast (List.cons_ne_nil _ _) = prev := by
    have h := congrArg (fun l => (l.map Prod.fst).getLast?) hprev
    simp only [List.map_cons, List.map_append, List.map_nil, List.getLast?_concat] at h
    rw [List.getLast?_eq_some_getLast (List.cons_ne_nil _ _)] at h
    exact Option.some.inj h
  rw [hprev] at hl ⊢
  have hframe : ∀ e ∈ l₀ ++ [(prev, b)], ctx'.tags[e.1]? = ctx.tags[e.1]? := by
    intro e he
    have hsep := hl.not_mem_of_append e he
    rw [htags, List.getElem?_set_ne (hsep _ List.mem_cons_self)]
    exact Heap.getElem?_clear fun e' he' => hsep e' (List.mem_cons_of_mem _ he')
  obtain ⟨tags, hnext, hlinks⟩ := hl.cut hframe
  refine ⟨{ ctx' with tags := tags }, ?_, ?_, ?_, hlinks, hroot, ?_⟩
  · simp only [esiTagCloseChildren, Heap.get_some htag, hfind, hlast, hclose, hnext, memory_ok,
      bind, Except.bind, pure, Except.pure, List.map_append, List.map_cons, List.map_nil,
      List.getLast?_concat]
  · exact ⟨hflags.exceptionRaised, hflags.ignoreTag, hflags.included⟩
  · exact ⟨hchain.chain, hchain.lastBuf, hchain.links⟩
  · rw [Heap.length_update hnext, htags, List.length_set, Heap.length_clear]

/-- The first element of a type. -/
theorem exists_first {l : List (ℕ × TagType)} {type : TagType} (h : type ∈ l.map Prod.snd) :
    ∃ l₁ next l₂, l = l₁ ++ (next, type) :: l₂ ∧ ∀ e ∈ l₁, e.2 ≠ type := by
  obtain ⟨us, vs, hmap, hus⟩ := List.eq_append_cons_of_mem h
  obtain ⟨l₁, l₂, rfl, rfl, htail⟩ := List.map_eq_append_iff.1 hmap
  obtain ⟨⟨next, type⟩, l₂, rfl, rfl, rfl⟩ := List.map_eq_cons_iff.1 htail
  exact ⟨l₁, next, l₂, rfl, fun e he heq => hus (List.mem_map.2 ⟨e, he, heq⟩)⟩

section endTag

variable {l : List (ℕ × TagType)} {name : Bytes} {type : TagType}

/-- Without an element there is nothing to close. -/
theorem endTag_nil (hroot : ctx.rootTag = none) (name : Bytes) :
    ctx.esiParserEndTagCb name = .ok ctx := by
  unfold esiParserEndTagCb
  rw [hroot]
  cases esiTagStrToType name <;> rfl

/-- The outermost element has the type: it is closed with all others. -/
theorem endTag_root (hl : Links ctx.tags ctx.rootTag ((tag, type) :: l) none) (hf : ctx.Flags r)
    (hname : esiTagStrToType name = some type) :
    ∃ ctx', ctx.esiParserEndTagCb name = .ok ctx' ∧ ctx'.Opens [] false ∧
      ctx'.Flags (r.closed type) ∧ SameChain ctx ctx' ∧ ctx'.tags.length = ctx.tags.length := by
  obtain ⟨hroot, m, htag, -⟩ := links_cons.1 hl
  rw [hroot] at hl
  obtain ⟨ctx', hclose, hflags, hchain, htags, -⟩ := esiTagClose_ok hl hf
  refine ⟨{ ctx' with openTag := none, rootTag := none }, ?_, ⟨.nil none, rfl⟩,
    ⟨hflags.1, hflags.2, hflags.3⟩, ⟨hchain.1, hchain.2, hchain.3⟩, ?_⟩
  · unfold esiParserEndTagCb
    rw [hname, hroot]
    simp only [Heap.get_some htag, memory_ok, bind, Except.bind, pure, Except.pure, if_true, hclose]
  · change ctx'.tags.length = _
    rw [htags, List.length_set, Heap.length_clear]

/-- The first element behind the outermost one that has the type is closed with all behind it. -/
theorem endTag_child {l₁ l₂ : List (ℕ × TagType)} {next : ℕ}
    (hl : Links ctx.tags ctx.rootTag ((tag, a) :: l₁ ++ (next, type) :: l₂) none) (ha : a ≠ type)
    (hl₁ : ∀ e ∈ l₁, e.2 ≠ type) (hf : ctx.Flags r) (hname : esiTagStrToType name = some type) :
    ∃ ctx', ctx.esiParserEndTagCb name = .ok ctx' ∧ ctx'.Opens ((tag, a) :: l₁) true ∧
      ctx'.Flags (r.closed type) ∧ SameChain ctx ctx' ∧ ctx'.tags.length = ctx.tags.length := by
  obtain ⟨hroot, m, htag, -⟩ := links_cons.1 hl
  rw [hroot] at hl
  obtain ⟨ctx', hclose, hflags, hchain, hlinks, hroot', hlen⟩ := esiTagCloseChildren_ok hl hl₁ hf
  refine ⟨{ ctx' with openTag := (((tag, a) :: l₁).map Prod.fst).getLast? }, ?_, ⟨?_, rfl⟩,
    ⟨hflags.1, hflags.2, hflags.3⟩, ⟨hchain.1, hchain.2, hchain.3⟩, hlen⟩
  · unfold esiParserEndTagCb
    rw [hname, hroot]
    simp only [Heap.get_some htag, memory_ok, bind, Except.bind, pure, Except.pure, if_neg ha, hclose]
  · rw [hroot', hroot]
    exact hlinks

/-- No element has the type: `open_tag` is lost. -/
theorem endTag_miss (hl : Links ctx.tags ctx.rootTag ((tag, a) :: l) none)
    (htype : type ∉ ((tag, a) :: l).map Prod.snd) (hname : esiTagStrToType name = some type) :
    ctx.esiParserEndTagCb name = .ok { ctx with openTag := none } := by
  obtain ⟨hroot, m, htag, -⟩ := links_cons.1 hl
  rw [hroot] at hl
  rw [List.map_cons, List.mem_cons, not_or] at htype
  unfold esiParserEndTagCb
  rw [hname, hroot]
  simp only [Heap.get_some htag, memory_ok, bind, Except.bind, pure, Except.pure,
    if_neg (Ne.symm htype.1), esiTagCloseChildren_miss hl htype.2]
  rw [hroot]

end endTag

/-! ### The routing in step -/

theorem Opens.stacks {l : List (ℕ × TagType)} {isOpen : Bool} (h : ctx.Opens l isOpen) :
    ctx.Stacks (l.map Prod.snd) isOpen :=
  ⟨l, h.links, rfl, h.openTag⟩

theorem Routes.startTag (h : ctx.Routes r) (stack : ℕ → NgxStr) (name : Bytes)
    (attributes : List ESIAttribute) :
    ∃ ctx', ctx.esiParserStartTagCb stack name attributes = .ok ctx' ∧
      ctx'.Routes (r.onTag (Routing.start · attributes) name) := by
  cases hname : esiTagStrToType name with
  | none =>
    unfold esiParserStartTagCb Routing.onTag
    rw [hname]
    exact ⟨ctx, rfl, h⟩
  | some type =>
    obtain ⟨l, hl, hstack, -⟩ := h.tags
    obtain ⟨ctx', hok, hopens, hflags, hchain, -⟩ := startTag_ok hl h.flags hname stack attributes
    have hsent : (r.start type attributes).sent = r.sent := by
      unfold Routing.start Routing.opened
      cases type <;> dsimp only
      split_ifs <;> rfl
    rw [Routing.onTag, hname]
    refine ⟨ctx', hok, ?_, fun _ => List.append_ne_nil_of_right_ne_nil _ (List.cons_ne_nil _ _),
      ⟨hflags.1, hflags.2, hflags.3⟩, ?_⟩
    · have hstacks := hopens.stacks
      rw [List.map_append, hstack] at hstacks
      exact hstacks
    · rw [hsent]
      exact hchain.holds h.holds

theorem Routes.endTag (h : ctx.Routes r) (name : Bytes) :
    ∃ ctx', ctx.esiParserEndTagCb name = .ok ctx' ∧ ctx'.Routes (r.onTag Routing.stop name) := by
  unfold Routing.onTag
  cases hname : esiTagStrToType name with
  | none =>
    unfold esiParserEndTagCb
    rw [hname]
    exact ⟨ctx, rfl, h⟩
  | some type =>
    obtain ⟨l, hl, hstack, -⟩ := h.tags
    have hsent : ∀ {ctx'}, SameChain ctx ctx' → ctx'.Holds (r.closed type).sent := fun hchain => by
      rw [Routing.closed_sent]
      exact hchain.holds h.holds
    dsimp only
    rcases l with - | ⟨⟨root, a⟩, l⟩
    · rw [Routing.stop_nil hstack.symm]
      exact ⟨ctx, endTag_nil (links_nil.1 hl) name, h⟩
    by_cases ha : a = type
    · subst ha
      obtain ⟨ctx', hok, hopens, hflags, hchain, -⟩ := endTag_root hl h.flags hname
      rw [Routing.stop_root hstack.symm]
      exact ⟨ctx', hok, hopens.stacks, fun h => absurd h Bool.false_ne_true,
        ⟨hflags.1, hflags.2, hflags.3⟩, hsent hchain⟩
    by_cases hmem : type ∈ l.map Prod.snd
    · obtain ⟨l₁, next, l₂, rfl, hl₁⟩ := exists_first hmem
      obtain ⟨ctx', hok, hopens, hflags, hchain, -⟩ := endTag_child hl ha hl₁ h.flags hname
      have hmiss : type ∉ l₁.map Prod.snd := by
        intro h
        obtain ⟨e, he, heq⟩ := List.mem_map.1 h
        exact hl₁ e he heq
      rw [List.map_cons, List.map_append, List.map_cons] at hstack
      rw [Routing.stop_child hstack.symm ha hmiss]
      exact ⟨ctx', hok, hopens.stacks, fun _ => List.cons_ne_nil _ _,
        ⟨hflags.1, hflags.2, hflags.3⟩, hsent hchain⟩
    · have hmiss : type ∉ ((root, a) :: l).map Prod.snd := by
        rw [List.map_cons, List.mem_cons, not_or]
        exact ⟨fun h => ha h.symm, hmem⟩
      rw [Routing.stop_miss hstack.symm ha hmem]
      exact ⟨_, endTag_miss hl hmiss hname, ⟨_, hl, hstack, rfl⟩,
        fun h => absurd h Bool.false_ne_true, ⟨h.flags.1, h.flags.2, h.flags.3⟩, h.holds⟩

/-! ### Output -/

theorem ngxChainAppendBuffer_ok {links : Heap (Option Buf)} {chain last : ℕ} {buf : Option Buf}
    {l : List (ℕ × Option Buf)} (hl : Links links (some chain) (l ++ [(last, buf)]) none)
    (b : Buf) :
    ∃ last' links' l', ngxChainAppendBuffer links last b = .ok (last', links') ∧
      Links links' (some chain) (l' ++ [(last', some b)]) none ∧
      (l' ++ [(last', some b)]).flatMap linkBytes =
        (l ++ [(last, buf)]).flatMap linkBytes ++ b.bytes := by
  have hlast := hl.getElem?_last
  obtain ⟨hlt, -⟩ := List.getElem?_eq_some_iff.1 hlast
  have hlast' : (links ++ [some (Node.mk (some b) none)])[last]? = some (some ⟨buf, none⟩) :=
    (List.getElem?_append_left hlt).trans hlast
  simp only [ngxChainAppendBuffer, Heap.get_some hlast, bind, Except.bind, pure, Except.pure]
  cases buf with
  | some old =>
    rw [if_pos Option.isSome_some, Heap.setNext_some hlast']
    refine ⟨_, _, _, rfl, hl.push (some b), ?_⟩
    simp [linkBytes]
  | none =>
    rw [if_neg (by simp), Heap.update_some hlast]
    refine ⟨_, _, _, rfl, hl.setLast (some b), ?_⟩
    simp [linkBytes]

theorem Routes.outputBuf_eq (h : ctx.Routes r) (data : Bytes) :
    ctx.outputBuf data = .ok (if r.shows then some (ngxBufFromData data) else none) := by
  obtain ⟨l, hl, hstack, hopen⟩ := h.tags
  unfold outputBuf Routing.shows Routing.innermost
  cases hr : r.isOpen with
  | false =>
    rw [hr, if_neg Bool.false_ne_true] at hopen
    rw [hopen, if_neg Bool.false_ne_true]
    cases ctx.rootTag <;> rfl
  | true =>
    rw [hr, if_pos rfl] at hopen
    rcases l.eq_nil_or_concat' with rfl | ⟨l, ⟨tag, a⟩, rfl⟩
    · exact absurd hstack.symm (h.isOpen hr)
    rw [List.map_append, List.map_cons, List.map_nil, List.getLast?_concat] at hopen
    have htag := hl.getElem?_last
    have hroot : ∃ root, ctx.rootTag = some root := by
      cases l with
      | nil => exact ⟨_, (links_cons.1 hl).1⟩
      | cons e l => exact ⟨_, (links_cons.1 hl).1⟩
    obtain ⟨root, hroot⟩ := hroot
    rw [hroot, hopen, if_pos rfl, ← hstack, List.map_append, List.map_cons, List.map_nil,
      List.getLast?_concat, Option.all_some, ← h.flags.exceptionRaised]
    simp only [esiTagBuffer, Heap.get_some htag, memory_ok, bind, Except.bind, pure, Except.pure]
    cases a <;> rfl

theorem Routes.output (h : ctx.Routes r) (data : Bytes) :
    ∃ ctx', ctx.esiParserOutputCb data = .ok ctx' ∧ ctx'.Routes (r.send data) := by
  have hbuf := h.outputBuf_eq data
  obtain ⟨htags, hopen, hflags, l, buf, hl, hbytes⟩ := h
  unfold esiParserOutputCb Routing.send
  rw [hbuf]
  by_cases hshows : r.shows = true
  · obtain ⟨last, links, l', happend, hl', hbytes'⟩ :=
      ngxChainAppendBuffer_ok hl (ngxBufFromData data)
    rw [if_pos hshows, if_pos hshows]
    refine ⟨{ ctx with lastBuf := last, links := links }, ?_, htags, hopen, ?_, l', _, hl', ?_⟩
    · simp only [happend, memory_ok, bind, Except.bind, pure, Except.pure]
    · exact ⟨hflags.exceptionRaised, hflags.ignoreTag, hflags.included⟩
    · rw [hbytes', hbytes]
      rfl
  · rw [if_neg hshows, if_neg hshows]
    exact ⟨ctx, rfl, htags, hopen, hflags, l, buf, hl, hbytes⟩

/-- Every handler keeps the context in step. -/
theorem Routes.handle (h : ctx.Routes r) (stack : ℕ → NgxStr) (c : Callback) :
    ∃ ctx', Ctx.handle stack ctx c = .ok ctx' ∧ ctx'.Routes (r.handle c) := by
  cases c with
  | startTag name attributes => exact h.startTag stack name attributes
  | endTag name => exact h.endTag name
  | output data => exact h.output data

end Handlers

end Ctx

end NginxEsi
