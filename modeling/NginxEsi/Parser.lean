import Mathlib.Algebra.Group.Nat.Defs
import Mathlib.Tactic.SplitIfs
import NginxEsi.Machine

/-!
# The ESI parser

`ngx_esi_parser.c` as the code computes it: the `ESIParser` record, the echo and output buffers,
the trimming helpers, the machine actions, and `esi_parser_execute` with its fast path and its
overflow buffer.

* A pointer into the buffer being scanned is an offset (`Ptr.at`).  A pointer into a chunk of an
  earlier call, or into a freed overflow buffer, is `Ptr.dangling`: it can be copied but not used.
* The handlers never reach the parser, so a call of a handler is an entry of `callbacks`.
* A read through `NULL`, through a dangling pointer or outside the buffer, and a pointer
  difference that is negative or has no meaning, stop the run: `Stop` keeps the fault and the
  callbacks made before it.
* `malloc` and `realloc` succeed.  `echobufferSize` is the size that `echobuffer` was last allocated
  with, and `accesses` records every access of `esi_parser_concat_to_echobuffer`,
  `esi_parser_echo_buffer` and `esi_parser_echo_char`.  In `execute` and `parse` the two buffers are
  growable: a write past `echobuffer` is recorded and the run goes on.  In `executeBounded` and
  `parseBounded` they are as large as they were allocated, and such a write, which in C corrupts the
  heap, stops the run.
* Sizes are natural numbers; a conversion of a size or an offset to `int` is `toInt`.
-/

namespace NginxEsi

abbrev Bytes := List UInt8

/-- `ESI_OUTPUT_BUFFER_SIZE`. -/
def esiOutputBufferSize : ℕ := 1024

/-- The conversion to a 32-bit `int`. -/
def toInt (n : ℕ) : ℤ := Int.bmod n (2 ^ 32)

/-- The white space of `isspace` and of Ragel's `space`. -/
def isspace (c : UInt8) : Bool := c == 32 || (9 ≤ c && c ≤ 13)

/-! ## Records -/

/-- An `ESIAttribute`; the list it is linked in is a `List`. -/
structure ESIAttribute where
  name : Bytes
  value : Bytes
  deriving DecidableEq, Repr

/-- A call of one of the three handlers. -/
inductive Callback where
  | startTag (name : Bytes) (attributes : List ESIAttribute)
  | endTag (name : Bytes)
  | output (data : Bytes)
  deriving DecidableEq, Repr

inductive Fault where
  | nullDereference | danglingPointer | outOfBounds | wildDifference
  deriving DecidableEq, Repr

/-- A run that ended in a fault, with the callbacks made before it. -/
structure Stop where
  fault : Fault
  callbacks : List Callback
  deriving DecidableEq, Repr

inductive Ptr where
  | null
  | at (offset : ℕ)
  | dangling
  deriving DecidableEq, Repr

/-- An access to the byte `index` of a buffer of `size` bytes. -/
structure Access where
  index : ℕ
  size : ℕ
  deriving DecidableEq, Repr

/-- `output_buffer[0..output_buffer_size)` and the callbacks made so far. -/
structure Output where
  buffer : Bytes := []
  callbacks : List Callback := []
  deriving DecidableEq, Repr

/-- `ESIParser`.  `echobuffer` is `echobuffer[0..echobuffer_index]`, empty for the index `-1`. -/
structure ESIParser where
  cs : State
  prevState : State
  mark : Ptr
  overflowData : Option Bytes
  echobufferAllocated : ℕ
  echobuffer : Bytes
  tagText : Ptr
  tagTextLength : ℕ
  attrKey : Ptr
  attrKeyLength : ℕ
  attrValue : Ptr
  attrValueLength : ℕ
  attributes : List ESIAttribute
  out : Output
  echobufferSize : ℕ
  accesses : List Access
  deriving DecidableEq, Repr

/-! ## Output -/

namespace Output

/-- `esi_parser_flush_output`. -/
def flush (o : Output) : Output :=
  if o.buffer.length > 0 then ⟨[], o.callbacks ++ [.output o.buffer]⟩ else o

/-- `esi_parser_echo_char`. -/
def echoChar (o : Output) (ch : UInt8) : Output :=
  let o := { o with buffer := o.buffer ++ [ch] }
  if o.buffer.length = esiOutputBufferSize then o.flush else o

def call (o : Output) (c : Callback) : Output := { o with callbacks := o.callbacks ++ [c] }

@[simp] theorem flush_flush (o : Output) : o.flush.flush = o.flush := by
  unfold flush
  split_ifs <;> simp_all

end Output

namespace ESIParser

def access (parser : ESIParser) (index size : ℕ) : ESIParser :=
  { parser with accesses := parser.accesses ++ [⟨index, size⟩] }

def flushOutput (parser : ESIParser) : ESIParser := { parser with out := parser.out.flush }

/-- A handler call and the flush that follows each of them. -/
def report (parser : ESIParser) (c : Callback) : ESIParser :=
  { parser with out := (parser.out.call c).flush }

def echoChar (parser : ESIParser) (ch : UInt8) : ESIParser :=
  let parser := parser.access parser.out.buffer.length esiOutputBufferSize
  { parser with out := parser.out.echoChar ch }

/-- `esi_parser_echo_buffer`. -/
def echoBuffer (parser : ESIParser) : ESIParser :=
  parser.echobuffer.zipIdx.foldl (fun p e => (p.access e.2 p.echobufferSize).echoChar e.1) parser

/-- `esi_parser_echobuffer_clear`. -/
def echobufferClear (parser : ESIParser) : ESIParser := { parser with echobuffer := [] }

/-- `esi_parser_concat_to_echobuffer`.  A write past the allocation is recorded here and stops the
run in `actBounded`. -/
def concatToEchobuffer (parser : ESIParser) (ch : UInt8) : ESIParser :=
  let index := parser.echobuffer.length
  let parser :=
    if parser.echobufferAllocated ≤ index then
      { parser with
        echobufferAllocated := parser.echobufferAllocated * 2
        echobufferSize := parser.echobufferAllocated * 2 }
    else parser
  { parser.access index parser.echobufferSize with echobuffer := parser.echobuffer ++ [ch] }

/-- Runs a computation on the scanned buffer; a fault stops the run. -/
def check {α : Type} (parser : ESIParser) (x : Except Fault α) : Except Stop α :=
  x.mapError fun fault => ⟨fault, parser.out.callbacks⟩

end ESIParser

/-! ## Pointers -/

namespace Ptr

def add : Ptr → ℕ → Ptr
  | .null, _ => .null
  | .at i, k => .at (i + k)
  | .dangling, _ => .dangling

/-- `*ptr`, read from the scanned buffer. -/
def load (data : Bytes) : Ptr → Except Fault UInt8
  | .null => .error .nullDereference
  | .at i => match data[i]? with
    | some c => .ok c
    | none => .error .outOfBounds
  | .dangling => .error .danglingPointer

/-- `*(ptr + len - 1)`. -/
def loadLast (data : Bytes) : Ptr → ℕ → Except Fault UInt8
  | .at 0, 0 => .error .outOfBounds
  | .at i, len => load data (.at (i + len - 1))
  | ptr, _ => load data ptr

/-- `p - ptr`. -/
def distance (p : ℕ) : Ptr → Except Fault ℕ
  | .at i => if i ≤ p then .ok (p - i) else .error .wildDifference
  | _ => .error .wildDifference

/-- The `len` bytes from `ptr` on. -/
def text (data : Bytes) (len : ℕ) : Ptr → Except Fault Bytes
  | .null => .error .nullDereference
  | .at i => if i + len ≤ data.length then .ok ((data.drop i).take len) else .error .outOfBounds
  | .dangling => .error .danglingPointer

/-- `compute_offset` for a pointer into the old buffer and the pointer into the new one that its
result gives: `(offset >= 0) ? data + offset : NULL`. -/
def rebase : Ptr → Ptr
  | .null => .null
  | .at i => if 0 ≤ toInt i then .at (toInt i).toNat else .null
  | .dangling => .dangling

/-- A pointer into a buffer that its owner has taken back. -/
def release : Ptr → Ptr
  | .null => .null
  | _ => .dangling

end Ptr

/-! ## Trimming -/

def isLtrim (c : UInt8) : Bool := isspace c || c == 61 || c == 34 || c == 60 || c == 39

def isRtrim (c : UInt8) : Bool := isspace c || c == 61 || c == 34 || c == 62 || c == 39

/-- `ltrim_pointer`: the new `*ptr` and `*len`. -/
def ltrimPointer (data : Bytes) (bounds : Ptr) : Ptr → ℕ → Except Fault (Ptr × ℕ)
  | ptr, 0 => do
    let _ ← ptr.load data
    return (ptr, 0)
  | ptr, len + 1 => do
    let c ← ptr.load data
    if isLtrim c ∧ ptr ≠ bounds then ltrimPointer data bounds (ptr.add 1) len
    else return (ptr, len + 1)

/-- `rtrim_pointer`: the new `*len`.  It sets its own `bounds` to the last byte, which is `*ptr`
itself when one byte is left. -/
def rtrimPointer (data : Bytes) (ptr : Ptr) : ℕ → Except Fault ℕ
  | 0 => do
    let _ ← ptr.loadLast data 0
    return 0
  | 1 => do
    let _ ← ptr.loadLast data 1
    return 1
  | len + 2 => do
    let c ← ptr.loadLast data (len + 2)
    if isRtrim c then rtrimPointer data ptr (len + 1) else return len + 2

/-- `ltrim_pointer` followed by `rtrim_pointer`. -/
def trimPointer (data : Bytes) (p : ℕ) (ptr : Ptr) (len : ℕ) : Except Fault (Ptr × ℕ) := do
  let (ptr, len) ← ltrimPointer data (.at p) ptr len
  let len ← rtrimPointer data ptr len
  return (ptr, len)

/-! ## Actions -/

namespace ESIParser

variable (data : Bytes) (p : ℕ)

/-- `action echo`. -/
def echo (parser : ESIParser) (ch : UInt8) : ESIParser :=
  let parser :=
    if parser.cs = .s0 then
      let parser :=
        if parser.prevState ≠ .s12 ∧ parser.prevState ≠ .s7 then
          let parser := if parser.echobuffer ≠ [] then parser.echoBuffer else parser
          parser.echoChar ch
        else parser
      parser.echobufferClear
    else parser.concatToEchobuffer ch
  { parser with prevState := parser.cs }

def seeStartTag (parser : ESIParser) : Except Stop ESIParser := do
  let tagText := parser.mark.add 1
  let length ← parser.check (tagText.distance p)
  return { parser with tagText := tagText, tagTextLength := length, mark := .at p }

/-- The common body of `see_end_tag` and `see_block_start_with_attributes`; the first also reports
the end of the tag. -/
def completeTag (withEnd : Bool) (parser : ESIParser) : Except Stop ESIParser := do
  let (tagText, length) ← parser.check (trimPointer data p parser.tagText parser.tagTextLength)
  let parser := parser.flushOutput
  let name ← parser.check (tagText.text data length)
  let parser := parser.report (.startTag name parser.attributes)
  let parser := if withEnd then parser.report (.endTag name) else parser
  return { parser with
    attributes := [], tagText := .null, tagTextLength := 0, mark := .at p }.echobufferClear

def seeEndTag : ESIParser → Except Stop ESIParser := completeTag data p true

def seeBlockStartWithAttributes : ESIParser → Except Stop ESIParser := completeTag data p false

def seeAttributeKey (parser : ESIParser) : Except Stop ESIParser := do
  let length ← parser.check (parser.mark.distance p)
  let (attrKey, length) ← parser.check (trimPointer data p parser.mark length)
  return { parser with attrKey := attrKey, attrKeyLength := length, mark := .at p }

def seeAttributeValue (parser : ESIParser) : Except Stop ESIParser := do
  let length ← parser.check (parser.mark.distance p)
  let (attrValue, length) ← parser.check (trimPointer data p parser.mark length)
  let name ← parser.check (parser.attrKey.text data parser.attrKeyLength)
  let value ← parser.check (attrValue.text data length)
  return { parser with
    attrValue := attrValue, attrValueLength := length, mark := .at p
    attributes := parser.attributes ++ [⟨name, value⟩] }

/-- The name of a tag without attributes starts `skip` bytes after the mark. -/
def takeName (skip : ℕ) (parser : ESIParser) : Except Stop (Bytes × ESIParser) := do
  let tagText := parser.mark.add skip
  let length ← parser.check (tagText.distance p)
  let (tagText, length) ← parser.check (trimPointer data p tagText length)
  let parser := parser.flushOutput
  let name ← parser.check (tagText.text data length)
  return (name, { parser with tagText := tagText, tagTextLength := length, mark := .at p })

def blockStartTag (parser : ESIParser) : Except Stop ESIParser := do
  let (name, parser) ← takeName data p 0 parser
  return { parser.report (.startTag name []) with attributes := [] }.echobufferClear

def blockEndTag (parser : ESIParser) : Except Stop ESIParser := do
  let (name, parser) ← takeName data p 2 parser
  return (parser.report (.endTag name)).echobufferClear

/-- One action at `p`, where the byte `ch` stands. -/
def act (ch : UInt8) (parser : ESIParser) : Action → Except Stop ESIParser
  | .echo => .ok (parser.echo ch)
  | .begin => .ok { parser with mark := .at p }
  | .finish => .ok parser
  | .seeStartTag => parser.seeStartTag p
  | .seeEndTag => parser.seeEndTag data p
  | .seeBlockStartWithAttributes => parser.seeBlockStartWithAttributes data p
  | .seeAttributeKey => parser.seeAttributeKey data p
  | .seeAttributeValue => parser.seeAttributeValue data p
  | .blockStartTag => parser.blockStartTag data p
  | .blockEndTag => parser.blockEndTag data p

/-- One turn of the machine: `switch (cs)`, the label and its action list. -/
def step (ch : UInt8) (parser : ESIParser) : Except Stop ESIParser :=
  let (cs, list) := (transition parser.cs ch).goto
  list.actions.foldlM (act data p ch) { parser with cs := cs }

/-- The machine from `p` to the end of the buffer, whose remaining bytes are given. -/
def exec : Bytes → ℕ → ESIParser → Except Stop ESIParser
  | [], _, parser => .ok parser
  | ch :: rest, p, parser => do
    let parser ← step data p ch parser
    exec rest (p + 1) parser

end ESIParser

/-! ## `esi_parser_execute` -/

/-- The loop of `esi_parser_scan_for_start` from index `i` on. -/
def scanFrom : Bytes → ℤ → ℤ → ℤ → ℤ
  | [], _, f, s => if f ≠ -2 ∧ s ≠ -2 then f else -1
  | ch :: rest, i, f, s =>
    if ch = 60 then scanFrom rest (i + 1) i i
    else if ch = 47 ∨ ch = 101 ∨ ch = 115 ∨ ch = 105 then
      if s = i - 1 ∧ f ≠ -2 then scanFrom rest (i + 1) f i else scanFrom rest (i + 1) f s
    else if ch = 58 then
      if s = i - 1 ∧ f ≠ -2 then f else scanFrom rest (i + 1) f s
    else scanFrom rest (i + 1) (-2) (-2)

/-- What a loop up to `(int)length` sees of the data. -/
def intPart (data : Bytes) : Bytes := data.take (toInt data.length).toNat

/-- `esi_parser_scan_for_start`. -/
def scanForStart (data : Bytes) : ℤ := scanFrom (intPart data) 0 (-2) (-2)

namespace ESIParser

/-- `esi_parser_new` and `esi_parser_init`. -/
def new : ESIParser where
  cs := esiStart
  prevState := esiStart
  mark := .null
  overflowData := none
  echobufferAllocated := esiOutputBufferSize
  echobuffer := []
  tagText := .null
  tagTextLength := 0
  attrKey := .null
  attrKeyLength := 0
  attrValue := .null
  attrValueLength := 0
  attributes := []
  out := {}
  echobufferSize := esiOutputBufferSize
  accesses := []

def mapPtr (f : Ptr → Ptr) (parser : ESIParser) : ESIParser :=
  { parser with
    mark := f parser.mark, tagText := f parser.tagText
    attrKey := f parser.attrKey, attrValue := f parser.attrValue }

def initMark (p : ℕ) (parser : ESIParser) : ESIParser :=
  if parser.mark = .null then { parser with mark := .at p } else parser

/-- The buffer to scan and the position to start from: the overflow data with the chunk appended
to it, or else the chunk itself. -/
def enter (parser : ESIParser) (chunk : Bytes) : ESIParser × Bytes × ℕ :=
  let (parser, data, p) :=
    match parser.overflowData with
    | some (b :: old) =>
      let data := b :: old ++ chunk
      ({ parser.mapPtr .rebase with overflowData := some data }, data, (b :: old).length)
    | _ => (parser, chunk, 0)
  (parser.initMark p, data, p)

/-- The end of `esi_parser_execute`: save the scanned buffer, keep it, or dump it.  Without a saved
buffer no pointer survives the call. -/
def leave (parser : ESIParser) (data : Bytes) : ESIParser :=
  if parser.cs ≠ esiStart ∧ parser.cs ≠ .s0 then
    match parser.overflowData with
    | none =>
      { parser.mapPtr .rebase with
        overflowData := some data
        echobufferAllocated :=
          if esiOutputBufferSize > data.length then esiOutputBufferSize else data.length }
    | some _ => parser
  else { parser.mapPtr .release with overflowData := none }

/-- The fast path is taken: the machine is in state 0 and no tag starts in the chunk. -/
def TakesFastPath (parser : ESIParser) (chunk : Bytes) : Prop :=
  parser.cs = .s0 ∧ scanForStart chunk = -1

instance (parser : ESIParser) (chunk : Bytes) : Decidable (parser.TakesFastPath chunk) :=
  inferInstanceAs (Decidable (_ ∧ _))

/-- `esi_parser_execute`. -/
def execute (parser : ESIParser) (chunk : Bytes) : Except Stop ESIParser :=
  if chunk = [] then .ok parser
  else if parser.TakesFastPath chunk then .ok ((intPart chunk).foldl echoChar parser)
  else
    let (parser, data, p) := parser.enter chunk
    return (← exec data (data.drop p) p parser).leave data

/-- `esi_parser_finish`. -/
def finish (parser : ESIParser) : ESIParser := parser.flushOutput

/-- Successive calls of `esi_parser_execute`. -/
def executeAll (parser : ESIParser) (chunks : List Bytes) : Except Stop ESIParser :=
  chunks.foldlM execute parser

/-- A whole run of a fresh parser. -/
def parse (chunks : List Bytes) : Except Stop ESIParser := do
  return (← new.executeAll chunks).finish

/-! ## Allocated buffers -/

/-- Every access so far was inside the buffer. -/
def InBounds (parser : ESIParser) : Prop := ∀ a ∈ parser.accesses, a.index < a.size

instance (parser : ESIParser) : Decidable parser.InBounds :=
  inferInstanceAs (Decidable (∀ _ ∈ _, _))

/-- An access outside the buffer stops the run. -/
def guardAccesses (parser : ESIParser) : Except Stop ESIParser :=
  if parser.InBounds then .ok parser else .error ⟨.outOfBounds, parser.out.callbacks⟩

def actBounded (data : Bytes) (p : ℕ) (ch : UInt8) (parser : ESIParser) (action : Action) :
    Except Stop ESIParser := do
  (← act data p ch parser action).guardAccesses

def stepBounded (data : Bytes) (p : ℕ) (ch : UInt8) (parser : ESIParser) : Except Stop ESIParser :=
  let (cs, list) := (transition parser.cs ch).goto
  list.actions.foldlM (actBounded data p ch) { parser with cs := cs }

def execBounded (data : Bytes) : Bytes → ℕ → ESIParser → Except Stop ESIParser
  | [], _, parser => .ok parser
  | ch :: rest, p, parser => do
    let parser ← stepBounded data p ch parser
    execBounded data rest (p + 1) parser

/-- `esi_parser_execute` with the buffers as they are allocated. -/
def executeBounded (parser : ESIParser) (chunk : Bytes) : Except Stop ESIParser :=
  if chunk = [] then .ok parser
  else if parser.TakesFastPath chunk then ((intPart chunk).foldl echoChar parser).guardAccesses
  else
    let (parser, data, p) := parser.enter chunk
    return (← execBounded data (data.drop p) p parser).leave data

def executeAllBounded (parser : ESIParser) (chunks : List Bytes) : Except Stop ESIParser :=
  chunks.foldlM executeBounded parser

def parseBounded (chunks : List Bytes) : Except Stop ESIParser := do
  return (← new.executeAllBounded chunks).finish

end ESIParser

end NginxEsi
