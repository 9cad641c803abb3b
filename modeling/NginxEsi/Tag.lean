import Mathlib.Data.List.Induction
import NginxEsi.Lib.LinkedList
import NginxEsi.Parser

/-!
# Tags and the request context

`ngx_esi_tag.c` as the code computes it, on the context of a request
(`ngx_http_esi_filter_module.h`).

* The tags live on a heap of their own, and the links of the output chain on another one.  A link
  taken from the pool is a fresh one: a link that `ngx_free_chain` has given back is not handed out
  again.  A buffer is reached from one link only and is kept in it.
* Allocations succeed.
* `ngx_http_subrequest` and `ngx_pfree` return, and they do not reach the context: `includes`
  records the calls of `esi_tag_start_include`, each with the calls that it makes.
* `esi_tag_start_include` leaves `uri` uninitialised; what the stack holds there is an argument.
-/

namespace NginxEsi

open LinkedList (Heap)

/-- `esi_tag_t`; `ESI_NONE` is the `none` of `Option TagType`. -/
inductive TagType where
  | esiTry | esiAttempt | esiExcept | esiInclude | esiInvalidate | esiVars | esiRemove
  deriving DecidableEq, Repr

namespace TagType

/-- The literal that a name is compared with. -/
def name : TagType → Bytes
  | esiTry => [101, 115, 105, 58, 116, 114, 121]
  | esiAttempt => [101, 115, 105, 58, 97, 116, 116, 101, 109, 112, 116]
  | esiExcept => [101, 115, 105, 58, 101, 120, 99, 101, 112, 116]
  | esiInclude => [101, 115, 105, 58, 105, 110, 99, 108, 117, 100, 101]
  | esiInvalidate => [101, 115, 105, 58, 105, 110, 118, 97, 108, 105, 100, 97, 116, 101]
  | esiVars => [101, 115, 105, 58, 118, 97, 114, 115]
  | esiRemove => [101, 115, 105, 58, 114, 101, 109, 111, 118, 101]

/-- The types in the order in which `esi_tag_str_to_type` tries them. -/
def all : List TagType :=
  [esiTry, esiAttempt, esiExcept, esiInclude, esiInvalidate, esiVars, esiRemove]

end TagType

/-- `!strncmp(s, t, n)` for a C string `s` and the `n` bytes of `t`. -/
def strncmpEq : Bytes → Bytes → Bool
  | _, [] => true
  | [], c :: _ => c == 0
  | a :: s, c :: t => a == c && strncmpEq s t

/-- `esi_tag_str_to_type`. -/
def esiTagStrToType (tagName : Bytes) : Option TagType :=
  TagType.all.find? fun type => strncmpEq type.name tagName

/-! ## The context -/

/-- An `ngx_buf_t`. -/
structure Buf where
  bytes : Bytes
  lastBuf : Bool
  deriving DecidableEq, Repr

/-- An `ngx_str_t`; `data` is `none` for a pointer that nobody has set. -/
structure NgxStr where
  len : ℕ
  data : Option Bytes
  deriving DecidableEq, Repr

/-- A call of `esi_tag_start_include`: its argument, the calls of `ngx_http_subrequest` with their
uri, and the pointers passed to `ngx_pfree`. -/
structure Include where
  attributes : List ESIAttribute
  subrequests : List NgxStr
  pfree : List (Option Bytes)
  deriving DecidableEq, Repr

/-- What the next body filter is called with: the input as it came, or the links and buffers
reached from `ctx->chain`. -/
inductive Handed where
  | input (bufs : List Buf)
  | chain (links : List (ℕ × Option Buf))
  deriving DecidableEq, Repr

/-- `ngx_http_esi_ctx_t`, with the heaps and the calls that leave the module. -/
structure Ctx where
  parser : Option ESIParser
  rootTag : Option ℕ
  openTag : Option ℕ
  chain : ℕ
  lastBuf : ℕ
  exceptionRaised : Bool
  ignoreTag : Bool
  tags : Heap TagType
  links : Heap (Option Buf)
  includes : List Include
  handed : List Handed
  deriving DecidableEq, Repr

inductive Crash where
  | memory (fault : LinkedList.Fault)
  | parser (fault : Fault)
  deriving DecidableEq, Repr

/-- An access to a heap. -/
def memory {α : Type} (x : Except LinkedList.Fault α) : Except Crash α := x.mapError .memory

@[simp] theorem memory_ok {α : Type} (x : α) : memory (.ok x) = .ok x := rfl

/-! ## Includes -/

/-- The bytes of a C string. -/
def cstr (s : Bytes) : Bytes := s.takeWhile (· ≠ 0)

/-- The turn of the loop of `esi_tag_start_include` for one attribute. -/
def setUri (uri : NgxStr) (attr : ESIAttribute) : NgxStr :=
  if cstr attr.name = [115, 114, 99] then
    let data := cstr attr.value ++ [0]
    ⟨data.length, some data⟩
  else uri

/-- `esi_tag_start_include`. -/
def esiTagStartInclude (uri : NgxStr) (attributes : List ESIAttribute) : Include :=
  let uri := attributes.foldl setUri uri
  { attributes := attributes
    subrequests := if uri.len > 0 then [uri] else []
    pfree := [uri.data] }

namespace Ctx

/-! ## Tags -/

/-- `esi_tag_new`. -/
def esiTagNew (type : TagType) (ctx : Ctx) : ℕ × Ctx :=
  (ctx.tags.length, { ctx with tags := ctx.tags ++ [some ⟨type, none⟩] })

/-- `esi_tag_free`: the nodes behind the tag, then the tag. -/
def esiTagFree (tag : ℕ) (ctx : Ctx) : Except Crash Ctx := do
  let node ← memory (ctx.tags.get (some tag))
  let tags ← memory (ctx.tags.freeFrom ctx.tags.length node.next)
  let tags ← memory (tags.free (some tag))
  return { ctx with tags := tags }

/-- `esi_tag_open`. -/
def esiTagOpen (uri : NgxStr) (tag : ℕ) (attributes : List ESIAttribute) (ctx : Ctx) :
    Except Crash Ctx := do
  let node ← memory (ctx.tags.get (some tag))
  match node.val with
  | .esiAttempt => return { ctx with exceptionRaised := false }
  | .esiExcept => return if ctx.exceptionRaised then ctx else { ctx with ignoreTag := true }
  | .esiInclude =>
    return if ctx.ignoreTag then ctx
      else { ctx with includes := ctx.includes ++ [esiTagStartInclude uri attributes] }
  | .esiTry | .esiInvalidate | .esiVars | .esiRemove => return ctx

/-- `esi_tag_close`. -/
def esiTagClose (tag : ℕ) (ctx : Ctx) : Except Crash Ctx := do
  let node ← memory (ctx.tags.get (some tag))
  match node.val with
  | .esiAttempt => esiTagFree tag { ctx with exceptionRaised := false }
  | .esiExcept =>
    let ctx := if ctx.exceptionRaised then ctx else { ctx with ignoreTag := false }
    esiTagFree tag { ctx with exceptionRaised := false }
  | .esiTry | .esiInclude | .esiInvalidate | .esiVars | .esiRemove => esiTagFree tag ctx

/-- `esi_tag_close_children`: the new `open_tag`, which is `NULL` when no node behind `tag` has the
type. -/
def esiTagCloseChildren (tag : ℕ) (type : TagType) (ctx : Ctx) :
    Except Crash (Option ℕ × Ctx) := do
  let node ← memory (ctx.tags.get (some tag))
  match ← memory (ctx.tags.findFrom (· = type) ctx.tags.length tag node.next) with
  | some (prev, next) =>
    let ctx ← ctx.esiTagClose next
    let tags ← memory (ctx.tags.setNext (some prev) none)
    return (some prev, { ctx with tags := tags })
  | none => return (none, ctx)

/-- `ngx_buf_from_data`. -/
def ngxBufFromData (data : Bytes) : Buf := ⟨data, false⟩

/-- `esi_tag_buffer`. -/
def esiTagBuffer (tag : ℕ) (data : Bytes) (ctx : Ctx) : Except Crash (Option Buf) := do
  let node ← memory (ctx.tags.get (some tag))
  match node.val with
  | .esiVars | .esiAttempt => return some (ngxBufFromData data)
  | .esiExcept => return if ctx.exceptionRaised then some (ngxBufFromData data) else none
  | .esiInclude | .esiInvalidate | .esiRemove | .esiTry => return none

end Ctx

/-! ## The uri of an include

`esi_tag_start_include` is to request what the last `src` says.  The loop computes the length of the
uri with the byte that ends the C string (`foldl_setUri`), and without a `src` the uri is whatever
the stack held, so that the include is right only where the stack happens to hold a uri of length 0
that `ngx_pfree` does not free (`requestsSrc_iff`). -/

/-- The value of the last attribute with the name `src`. -/
def srcOf (attributes : List ESIAttribute) : Option Bytes :=
  (attributes.filter fun attr => cstr attr.name = [115, 114, 99]).getLast?.map fun attr =>
    cstr attr.value

/-- The include does what its attributes say: with a `src` there is one subrequest, and the `len`
bytes of its uri are the value; without one there is none, and nothing is freed.  `frees` says for
which pointers `ngx_pfree` frees memory: it does nothing for one that the pool does not know. -/
def RequestsSrc (frees : Option Bytes → Prop) (attributes : List ESIAttribute) (i : Include) :
    Prop :=
  match srcOf attributes with
  | some value => ∃ uri, i.subrequests = [uri] ∧ uri.data.map (List.take uri.len) = some value
  | none => i.subrequests = [] ∧ ∀ data ∈ i.pfree, ¬ frees data

theorem srcOf_concat (attributes : List ESIAttribute) (attr : ESIAttribute) :
    srcOf (attributes ++ [attr]) =
      if cstr attr.name = [115, 114, 99] then some (cstr attr.value) else srcOf attributes := by
  unfold srcOf
  rw [List.filter_append]
  by_cases hname : cstr attr.name = [115, 114, 99]
  · rw [if_pos hname, List.filter_cons_of_pos (by simpa using hname), List.filter_nil,
      List.getLast?_concat, Option.map_some]
  · rw [if_neg hname, List.filter_cons_of_neg (by simpa using hname), List.filter_nil,
      List.append_nil]

/-- What the loop leaves in `uri`. -/
theorem foldl_setUri (uri : NgxStr) (attributes : List ESIAttribute) :
    attributes.foldl setUri uri = match srcOf attributes with
      | some value => ⟨value.length + 1, some (value ++ [0])⟩
      | none => uri := by
  induction attributes using List.reverseRecOn with
  | nil => rfl
  | append_singleton attributes attr ih =>
    rw [List.foldl_append, List.foldl_cons, List.foldl_nil, ih, srcOf_concat, setUri]
    by_cases hname : cstr attr.name = [115, 114, 99]
    · rw [if_pos hname, if_pos hname]
      simp
    · rw [if_neg hname, if_neg hname]

/-- With a `src` the uri is one byte too long; without one everything depends on what the stack
held. -/
theorem requestsSrc_iff (frees : Option Bytes → Prop) (uri : NgxStr)
    (attributes : List ESIAttribute) :
    RequestsSrc frees attributes (esiTagStartInclude uri attributes) ↔
      srcOf attributes = none ∧ uri.len = 0 ∧ ¬ frees uri.data := by
  unfold RequestsSrc esiTagStartInclude
  rw [foldl_setUri]
  cases hsrc : srcOf attributes with
  | some value =>
    dsimp only
    rw [if_pos (Nat.succ_pos _)]
    constructor
    · rintro ⟨uri', huri, htake⟩
      obtain rfl := List.singleton_inj.1 huri
      have hlong := congrArg (Option.map List.length) htake
      simp at hlong
    · rintro ⟨h, -⟩
      cases h
  | none =>
    dsimp only
    by_cases hlen : uri.len = 0
    · simp [hlen]
    · have hpos : uri.len > 0 := Nat.pos_of_ne_zero hlen
      simp [hlen, hpos]

/-- An include with `src="/a"`: the uri has the length 3. -/
theorem not_requestsSrc : ¬ ∀ (frees : Option Bytes → Prop) (uri : NgxStr)
    (attributes : List ESIAttribute),
    RequestsSrc frees attributes (esiTagStartInclude uri attributes) := by
  intro h
  obtain ⟨uri, huri, htake⟩ := h (fun _ => False) ⟨0, none⟩ [⟨[115, 114, 99], [47, 97]⟩]
  obtain rfl := List.singleton_inj.1 huri
  exact absurd htake (by decide +kernel)

end NginxEsi
