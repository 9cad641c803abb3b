import NginxEsi.Tag

/-!
# The body filter

`ngx_buf_util.c` and `ngx_http_esi_filter_module.c` as the code computes them: the handlers that
the parser calls, and `ngx_http_esi_body_filter` on one input chain.  The handlers do not reach the
parser, so those that one call of the parser runs are run behind it, in the order of its callbacks.
The parser has its buffers as they are allocated: a write past the echo buffer is a fault.

`ngx_free_chain` gives the first link of the input back to the pool, which may hand it out again
while the caller still uses it.  Here `ngx_alloc_chain_link` always gives a fresh link, so that no
link is in two chains, and `ngx_free_chain` changes nothing that a later call reads.
-/

namespace NginxEsi

open LinkedList (Heap)

namespace Ctx

/-- The context that `ngx_http_esi_header_filter` sets up. -/
def new : Ctx where
  parser := none
  rootTag := none
  openTag := none
  chain := 0
  lastBuf := 0
  exceptionRaised := false
  ignoreTag := false
  tags := []
  links := [some ⟨none, none⟩]
  includes := []
  handed := []

/-! ## The output chain -/

/-- `ngx_chain_append_buffer`: the link that holds the buffer.  The link that `ngx_alloc_chain_link`
gives is a fresh one, never one that was given back. -/
def ngxChainAppendBuffer (links : Heap (Option Buf)) (chain : ℕ) (buf : Buf) :
    Except LinkedList.Fault (ℕ × Heap (Option Buf)) := do
  let link ← links.get (some chain)
  if link.val.isSome then
    let next := links.length
    let links ← Heap.setNext (links ++ [some ⟨some buf, none⟩]) (some chain) (some next)
    return (next, links)
  else
    let links ← links.update (some chain) fun _ => some ⟨some buf, none⟩
    return (chain, links)

/-- `ctx->last_buf->buf->last_buf = 1`. -/
def markLast (ctx : Ctx) : Except Crash Ctx := do
  let link ← memory (ctx.links.get (some ctx.lastBuf))
  match link.val with
  | none => .error (.memory .null)
  | some buf =>
    let links ← memory (ctx.links.update (some ctx.lastBuf) fun link =>
      some { link with val := some { buf with lastBuf := true } })
    return { ctx with links := links }

/-! ## Handlers -/

variable (stack : ℕ → NgxStr)

/-- `esi_parser_start_tag_cb`.  `stack` gives what each call of `esi_tag_start_include` finds in
its `uri`. -/
def esiParserStartTagCb (name : Bytes) (attributes : List ESIAttribute) (ctx : Ctx) :
    Except Crash Ctx :=
  match esiTagStrToType name with
  | none => .ok ctx
  | some type => do
    let (tag, ctx) := ctx.esiTagNew type
    let ctx ← match ctx.rootTag with
      | some root => do
        let last ← memory (ctx.tags.last ctx.tags.length root)
        let tags ← memory (ctx.tags.setNext (some last) (some tag))
        pure { ctx with tags := tags }
      | none => pure { ctx with rootTag := some tag }
    esiTagOpen (stack ctx.includes.length) tag attributes { ctx with openTag := some tag }

/-- `esi_parser_end_tag_cb`. -/
def esiParserEndTagCb (name : Bytes) (ctx : Ctx) : Except Crash Ctx :=
  match esiTagStrToType name with
  | none => .ok ctx
  | some type =>
    match ctx.rootTag with
    | none => .ok ctx
    | some root => do
      let node ← memory (ctx.tags.get (some root))
      if node.val = type then
        let ctx ← ctx.esiTagClose root
        return { ctx with openTag := none, rootTag := none }
      else
        let (openTag, ctx) ← ctx.esiTagCloseChildren root type
        return { ctx with openTag := openTag }

/-- The buffer that `esi_parser_output_cb` makes of its data. -/
def outputBuf (data : Bytes) (ctx : Ctx) : Except Crash (Option Buf) :=
  match ctx.rootTag, ctx.openTag with
  | some _, some tag => ctx.esiTagBuffer tag data
  | _, _ => .ok (some (ngxBufFromData data))

/-- `esi_parser_output_cb`. -/
def esiParserOutputCb (data : Bytes) (ctx : Ctx) : Except Crash Ctx := do
  match ← ctx.outputBuf data with
  | none => return ctx
  | some buf =>
    let (lastBuf, links) ← memory (ngxChainAppendBuffer ctx.links ctx.lastBuf buf)
    return { ctx with lastBuf := lastBuf, links := links }

def handle (ctx : Ctx) : Callback → Except Crash Ctx
  | .startTag name attributes => ctx.esiParserStartTagCb stack name attributes
  | .endTag name => ctx.esiParserEndTagCb name
  | .output data => ctx.esiParserOutputCb data

/-- The handlers for the callbacks behind the first `done` ones. -/
def handleFrom (done : ℕ) (callbacks : List Callback) (ctx : Ctx) : Except Crash Ctx :=
  (callbacks.drop done).foldlM (handle stack) ctx

/-! ## The filter -/

/-- `esi_parser_execute` on `ctx->parser`. -/
def execute (parser : ESIParser) (chunk : Bytes) (ctx : Ctx) : Except Crash (ESIParser × Ctx) :=
  let done := parser.out.callbacks.length
  match parser.executeBounded chunk with
  | .ok parser => do
    let ctx ← ctx.handleFrom stack done parser.out.callbacks
    return (parser, ctx)
  | .error stop => do
    let _ ← ctx.handleFrom stack done stop.callbacks
    .error (.parser stop.fault)

/-- `esi_parser_finish` on `ctx->parser`. -/
def finish (parser : ESIParser) (ctx : Ctx) : Except Crash (ESIParser × Ctx) := do
  let done := parser.out.callbacks.length
  let ctx ← ctx.handleFrom stack done parser.finish.out.callbacks
  return (parser.finish, ctx)

/-- The loop over the input chain, up to the first buffer with `last_buf`; the result also says
whether there was one (`has_last_buffer`). -/
def bodyFilterLoop : ESIParser → Ctx → List Buf → Except Crash (Bool × ESIParser × Ctx)
  | parser, ctx, [] => .ok (false, parser, ctx)
  | parser, ctx, buf :: input => do
    let (parser, ctx) ← ctx.execute stack parser buf.bytes
    if buf.lastBuf then
      let (parser, ctx) ← ctx.finish stack parser
      return (true, parser, ctx)
    else bodyFilterLoop parser ctx input

/-- What `ngx_http_esi_body_filter` sets before its loop. -/
def enter (ctx : Ctx) : Ctx := { ctx with rootTag := none, openTag := none }

/-- `ngx_http_esi_body_filter` up to the end of its loop. -/
def bodyFilterInput (ctx : Ctx) (input : List Buf) : Except Crash (Bool × ESIParser × Ctx) :=
  bodyFilterLoop stack (ctx.parser.getD .new) ctx.enter input

/-- The links reached from `ctx->chain`. -/
def chainLinks (ctx : Ctx) : List (ℕ × Option Buf) :=
  ctx.links.nodes ctx.links.length (some ctx.chain)

/-- `ngx_http_esi_body_filter` for a request with a context.  The input links are not modelled, and
no link that `ngx_free_chain` gives back is handed out again. -/
def ngxHttpEsiBodyFilter (headerOnly : Bool) (ctx : Ctx) (input : List Buf) : Except Crash Ctx :=
  if input = [] ∨ headerOnly = true then
    .ok { ctx with handed := ctx.handed ++ [.input input] }
  else do
    let (hasLastBuffer, parser, ctx) ← ctx.bodyFilterInput stack input
    let ctx ← ctx.markLast
    return { ctx with
      parser := if hasLastBuffer then none else some parser
      handed := ctx.handed ++ [.chain ctx.chainLinks] }

end Ctx

end NginxEsi
