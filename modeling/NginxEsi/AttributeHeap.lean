import NginxEsi.Tag
import NginxEsi.Turns

/-!
# The memory of the attributes

`parser->attributes` is a list of objects from `malloc`, `parser->last` points to its last object,
and a tag that completes frees them.  `OwningParser` is the parser with this heap; every use of a
freed object is an error of it.  It never makes one: it follows the parser, which only knows the
attributes themselves, through every run (`follows_executeAll`), and no object is lost on the way.

An object and the copies of its two strings are allocated and freed together, so they are one cell.
-/

namespace NginxEsi

open LinkedList

/-- `parser->attributes` and `parser->last`, which is kept when the list is freed. -/
structure AttributeHeap where
  cells : Heap ESIAttribute
  attributes : Option ℕ
  last : Option ℕ
  deriving DecidableEq, Repr

namespace AttributeHeap

def new : AttributeHeap := ⟨[], none, none⟩

/-- `esi_attribute_new`. -/
def esiAttributeNew (name value : Bytes) (cells : Heap ESIAttribute) : ℕ × Heap ESIAttribute :=
  (cells.length, cells ++ [some ⟨⟨name, value⟩, none⟩])

/-- `esi_attribute_free`. -/
def esiAttributeFree (attr : Option ℕ) (cells : Heap ESIAttribute) :
    Except LinkedList.Fault (Heap ESIAttribute) :=
  cells.freeFrom cells.length attr

/-- The end of `see_attribute_value`: a new object behind the last one. -/
def add (attr : ESIAttribute) (m : AttributeHeap) : Except LinkedList.Fault AttributeHeap :=
  let (p, cells) := esiAttributeNew attr.name attr.value m.cells
  match m.attributes with
  | some _ => do
    let cells ← cells.setNext m.last (some p)
    return { m with cells := cells, last := some p }
  | none => return ⟨cells, some p, some p⟩

/-- `if( parser->attributes ) { esi_attribute_free( parser->attributes ); … }`. -/
def release (m : AttributeHeap) : Except LinkedList.Fault AttributeHeap :=
  match m.attributes with
  | some p => do
    let cells ← esiAttributeFree (some p) m.cells
    return { m with cells := cells, attributes := none }
  | none => return m

/-- What a handler reads at `parser->attributes`. -/
def read (m : AttributeHeap) : List ESIAttribute :=
  (m.cells.nodes m.cells.length m.attributes).map Prod.snd

/-! ## The list -/

/-- The list at `parser->attributes` is `l`, and no other object is live. -/
structure Owns (m : AttributeHeap) (l : List (ℕ × ESIAttribute)) : Prop where
  links : Links m.cells m.attributes l none
  last : l ≠ [] → m.last = (l.map Prod.fst).getLast?
  live : m.cells.live = l.length

variable {m : AttributeHeap} {l : List (ℕ × ESIAttribute)}

theorem owns_new : new.Owns [] := ⟨.nil none, fun h => absurd rfl h, rfl⟩

theorem Owns.read_eq (h : m.Owns l) : m.read = l.map Prod.snd := by
  rw [read, h.links.nodes_eq h.links.length_le]

theorem Owns.add (h : m.Owns l) (attr : ESIAttribute) :
    ∃ m', m.add attr = .ok m' ∧ m'.Owns (l ++ [(m.cells.length, attr)]) := by
  obtain ⟨cells, attributes, last⟩ := m
  obtain ⟨hlinks, hlast, hlive⟩ := h
  have hlive' : Heap.live (cells ++ [some ⟨attr, none⟩]) = l.length + 1 := by
    rw [Heap.live_alloc]
    exact congrArg (· + 1) hlive
  rcases l.eq_nil_or_concat' with rfl | ⟨l, ⟨i, a⟩, rfl⟩
  · obtain rfl : attributes = none := links_nil.1 hlinks
    exact ⟨_, rfl, .cons List.getElem?_concat_length (.nil none), fun _ => rfl, hlive'⟩
  · obtain rfl : last = some i := by simpa using hlast (by simp)
    have hi : (cells ++ [some (Node.mk attr none)])[i]? = some (some ⟨a, none⟩) :=
      (List.getElem?_append_left (hlinks.lt_length (i, a) (by simp))).trans hlinks.getElem?_last
    have hnext := Heap.setNext_some hi (some cells.length)
    cases attributes with
    | none => cases l <;> cases hlinks
    | some p =>
      refine ⟨⟨_, some p, some cells.length⟩, ?_, hlinks.push attr, fun _ => by simp, ?_⟩
      · simp only [AttributeHeap.add, esiAttributeNew, hnext, bind, Except.bind, pure, Except.pure]
      · exact (Heap.live_setNext hnext).trans (hlive'.trans (by simp))

theorem Owns.release (h : m.Owns l) : ∃ m', m.release = .ok m' ∧ m'.Owns [] := by
  obtain ⟨cells, attributes, last⟩ := m
  obtain ⟨hlinks, hlast, hlive⟩ := h
  have hclear : Heap.live (cells.clear l) + l.length = cells.live := hlinks.live_clear
  have hfree : esiAttributeFree attributes cells = .ok (cells.clear l) :=
    hlinks.freeFrom_eq hlinks.length_le
  cases attributes with
  | none =>
    obtain rfl := hlinks.unique (.nil none)
    exact ⟨_, rfl, .nil none, fun h => absurd rfl h, hlive⟩
  | some p =>
    refine ⟨⟨cells.clear l, none, last⟩, ?_, .nil none, fun h => absurd rfl h, ?_⟩
    · simp only [AttributeHeap.release, hfree, bind, Except.bind, pure, Except.pure]
    · exact Nat.add_eq_right.1 (hclear.trans hlive)

/-! ## Copies -/

/-- `esi_attribute_new` for the C strings of an attribute. -/
def copyAttribute (attr : ESIAttribute) (cells : Heap ESIAttribute) : ℕ × Heap ESIAttribute :=
  esiAttributeNew (cstr attr.name) (cstr attr.value) cells

/-- The loop of `esi_attribute_copy`, with the last object copied. -/
def copyFrom : ℕ → Heap ESIAttribute → ℕ → Option ℕ →
    Except LinkedList.Fault (Heap ESIAttribute)
  | _, cells, _, none => .ok cells
  | 0, _, _, some _ => .error .endless
  | fuel + 1, cells, nattr, some attr => do
    let node ← cells.get (some attr)
    let (next, cells) := copyAttribute node.val cells
    let cells ← cells.setNext (some nattr) (some next)
    let node ← cells.get (some attr)
    copyFrom fuel cells next node.next

/-- `esi_attribute_copy`. -/
def esiAttributeCopy (attr : Option ℕ) (cells : Heap ESIAttribute) :
    Except LinkedList.Fault (Option ℕ × Heap ESIAttribute) :=
  match attr with
  | none => .ok (none, cells)
  | some attr => do
    let node ← cells.get (some attr)
    let (head, cells) := copyAttribute node.val cells
    let node ← cells.get (some attr)
    let cells ← copyFrom cells.length cells head node.next
    return (some head, cells)

/-- What a copy keeps: the C strings. -/
def copied (attr : ESIAttribute) : ESIAttribute := ⟨cstr attr.name, cstr attr.value⟩

theorem copyAttribute_eq (attr : ESIAttribute) (cells : Heap ESIAttribute) :
    copyAttribute attr cells = (cells.length, cells ++ [some ⟨copied attr, none⟩]) := rfl

/-- The objects `l'` are copies of those of `l`, all of them behind `base`. -/
structure Copies (base : ℕ) (l l' : List (ℕ × ESIAttribute)) : Prop where
  values : l'.map Prod.snd = l.map fun e => copied e.2
  fresh : ∀ e ∈ l', base ≤ e.1

variable {h : Heap ESIAttribute} {p q : Option ℕ} {n base : ℕ} {a : ESIAttribute}

/-- The loop appends a copy of the rest and leaves the objects below `base` alone. -/
theorem copyFrom_ok {l k : List (ℕ × ESIAttribute)} {fuel : ℕ} (hl : Links h p l none)
    (hq : Links h q (k ++ [(n, a)]) none) (hbase : ∀ e ∈ l, e.1 < base) (hn : base ≤ n)
    (hfuel : l.length ≤ fuel) :
    ∃ h' l', copyFrom fuel h n p = .ok h' ∧ Copies base l l' ∧
      Links h' q (k ++ [(n, a)] ++ l') none ∧ (∀ i < base, h'[i]? = h[i]?) ∧
      h'.live = h.live + l.length := by
  induction l generalizing h p n a k fuel with
  | nil =>
    obtain rfl := links_nil.1 hl
    refine ⟨h, [], ?_, ⟨rfl, by simp⟩, by rwa [List.append_nil], fun _ _ => rfl, rfl⟩
    cases fuel <;> rfl
  | cons e l ih =>
    obtain ⟨i, v⟩ := e
    obtain ⟨rfl, m, hi, tail⟩ := links_cons.1 hl
    obtain ⟨hib, hbase⟩ := List.forall_mem_cons.1 hbase
    have hnlt : n < h.length := hq.lt_length (n, a) (by simp)
    cases fuel with
    | zero => exact absurd hfuel (by simp)
    | succ fuel =>
      set h₁ : Heap ESIAttribute :=
        (h ++ [some (Node.mk (copied v) none)]).set n (some ⟨a, some h.length⟩) with hh₁
      have hlast : (h ++ [some (Node.mk (copied v) none)])[n]? = some (some ⟨a, none⟩) :=
        (List.getElem?_append_left hnlt).trans hq.getElem?_last
      have hnext := Heap.setNext_some hlast (some h.length)
      have hframe : ∀ i < base, h₁[i]? = h[i]? := fun i hlt => by
        rw [hh₁, List.getElem?_set_ne (by omega), List.getElem?_append_left (by omega)]
      have hi₁ : h₁[i]? = some (some ⟨v, m⟩) := (hframe i hib).trans hi
      obtain ⟨h', l', hrun, hcopies, hlinks, hframe', hlive⟩ :=
        ih (tail.frame fun e he => hframe e.1 (hbase e he)) (hq.push (copied v)) hbase
          (hn.trans hnlt.le) (Nat.le_of_succ_le_succ hfuel)
      refine ⟨h', (h.length, copied v) :: l', ?_, ⟨?_, ?_⟩, ?_, fun i hlt => ?_, ?_⟩
      · simp only [copyFrom, Heap.get_some hi, copyAttribute_eq, hnext, bind, Except.bind, ← hh₁,
          Heap.get_some hi₁, hrun]
      · rw [List.map_cons, hcopies.values, List.map_cons]
      · exact List.forall_mem_cons.2 ⟨hn.trans hnlt.le, hcopies.fresh⟩
      · rwa [List.append_assoc, List.singleton_append] at hlinks
      · rw [hframe' i hlt, hframe i hlt]
      · rw [hlive, Heap.live_setNext hnext, Heap.live_alloc, List.length_cons]
        omega

/-- A copy is a list of new objects, and nothing else changes. -/
theorem esiAttributeCopy_links {p : Option ℕ} {l : List (ℕ × ESIAttribute)}
    (hl : Links h p l none) :
    ∃ q h' l', esiAttributeCopy p h = .ok (q, h') ∧ Copies h.length l l' ∧
      (∀ i < h.length, h'[i]? = h[i]?) ∧ Links h' q l' none ∧ h'.live = h.live + l.length := by
  cases l with
  | nil =>
    obtain rfl := links_nil.1 hl
    exact ⟨none, h, [], rfl, ⟨rfl, by simp⟩, fun _ _ => rfl, .nil none, rfl⟩
  | cons e l =>
    obtain ⟨i, v⟩ := e
    have hlt := hl.lt_length
    obtain ⟨rfl, m, hi, tail⟩ := links_cons.1 hl
    obtain ⟨hib, hlt⟩ := List.forall_mem_cons.1 hlt
    have hframe : ∀ i < h.length, (h ++ [some (Node.mk (copied v) none)])[i]? = h[i]? :=
      fun i => List.getElem?_append_left
    have hhead : Links (h ++ [some ⟨copied v, none⟩]) (some h.length)
        ([] ++ [(h.length, copied v)]) none := .cons List.getElem?_concat_length (.nil none)
    have htail := tail.alloc (some (Node.mk (copied v) none))
    obtain ⟨h', l', hrun, hcopies, hlinks, hframe', hlive⟩ :=
      copyFrom_ok htail hhead hlt le_rfl htail.length_le
    refine ⟨some h.length, h', (h.length, copied v) :: l', ?_, ⟨?_, ?_⟩, fun i hlt => ?_,
      hlinks, ?_⟩
    · simp only [esiAttributeCopy, Heap.get_some hi, copyAttribute_eq,
        Heap.get_some ((hframe i hib).trans hi), hrun, bind, Except.bind, pure, Except.pure]
    · rw [List.map_cons, hcopies.values, List.map_cons]
    · exact List.forall_mem_cons.2 ⟨le_rfl, hcopies.fresh⟩
    · rw [hframe' i hlt, hframe i hlt]
    · rw [hlive, Heap.live_alloc, List.length_cons]
      omega

/-- `esi_attribute_copy` makes a list of new objects with the C strings of the given one, which it
leaves as it was; either of the two lists can be freed without the other. -/
theorem esiAttributeCopy_ok (h : Heap ESIAttribute) (p : Option ℕ) (l : List (ℕ × ESIAttribute))
    (hl : Links h p l none) :
    ∃ q h' l', esiAttributeCopy p h = .ok (q, h') ∧ Copies h.length l l' ∧ Links h' p l none ∧
      Links h' q l' none ∧ h'.live = h.live + l.length ∧
      (∃ h₁, esiAttributeFree q h' = .ok h₁ ∧ Links h₁ p l none ∧ h₁.live = h.live) ∧
      ∃ h₂, esiAttributeFree p h' = .ok h₂ ∧ Links h₂ q l' none := by
  obtain ⟨q, h', l', hcopy, hcopies, hframe, hlinks, hlive⟩ := esiAttributeCopy_links hl
  have hl' : Links h' p l none := hl.frame fun e he => hframe e.1 (hl.lt_length e he)
  have hclear := hlinks.live_clear
  have hlen : l'.length = l.length := by
    simpa using congrArg List.length hcopies.values
  refine ⟨q, h', l', hcopy, hcopies, hl', hlinks, hlive,
    ⟨_, hlinks.freeFrom_eq hlinks.length_le, ?_, by omega⟩,
    _, hl'.freeFrom_eq hl'.length_le, ?_⟩
  · exact hl'.frame fun e he => Heap.getElem?_clear fun e' he' => by
      have := hcopies.fresh e' he'
      have := hl.lt_length e he
      omega
  · exact hlinks.frame fun e he => Heap.getElem?_clear fun e' he' => by
      have := hcopies.fresh e he
      have := hl.lt_length e' he'
      omega

/-- One attribute, whose value has a zero byte in it. -/
theorem esiAttributeCopy_ok_cut :
    ∃ q h' l', esiAttributeCopy (some 0) [some ⟨⟨[97], [98, 0, 99]⟩, none⟩] = .ok (q, h') ∧
      Copies 1 [(0, ⟨[97], [98, 0, 99]⟩)] l' ∧
      Links h' (some 0) [(0, ⟨[97], [98, 0, 99]⟩)] none ∧ Links h' q l' none ∧ h'.live = 1 + 1 ∧
      (∃ h₁, esiAttributeFree q h' = .ok h₁ ∧
        Links h₁ (some 0) [(0, ⟨[97], [98, 0, 99]⟩)] none ∧ h₁.live = 1) ∧
      ∃ h₂, esiAttributeFree (some 0) h' = .ok h₂ ∧ Links h₂ q l' none :=
  esiAttributeCopy_ok [some ⟨⟨[97], [98, 0, 99]⟩, none⟩] (some 0) _ (.cons rfl (.nil none))

end AttributeHeap

/-! ## The parser with its heap -/

/-- What ends a run: a fault of the parser, or a use of an object that is not there. -/
inductive Halt where
  | stop (stop : Stop)
  | memory (fault : LinkedList.Fault)
  deriving DecidableEq, Repr

/-- The attribute that `see_attribute_value` makes. -/
def ESIParser.newAttribute (data : Bytes) (p : ℕ) (parser : ESIParser) :
    Except Stop ESIAttribute := do
  let length ← parser.check (parser.mark.distance p)
  let (attrValue, length) ← parser.check (trimPointer data p parser.mark length)
  let name ← parser.check (parser.attrKey.text data parser.attrKeyLength)
  let value ← parser.check (attrValue.text data length)
  return ⟨name, value⟩

/-- `told` records what the start handler finds at the pointer that it is given. -/
structure OwningParser where
  parser : ESIParser
  list : AttributeHeap
  told : List (List ESIAttribute)
  deriving DecidableEq, Repr

namespace OwningParser

def new : OwningParser := ⟨.new, .new, []⟩

def stop {α : Type} (x : Except Stop α) : Except Halt α := x.mapError .stop

def memory {α : Type} (x : Except LinkedList.Fault α) : Except Halt α := x.mapError .memory

section machine

variable (data : Bytes) (p : ℕ) (ch : UInt8)

def act (s : OwningParser) (a : Action) : Except Halt OwningParser :=
  match a with
  | .seeAttributeValue => do
    let attr ← stop (s.parser.newAttribute data p)
    let parser ← stop (s.parser.act data p ch a)
    let list ← memory (s.list.add attr)
    return { s with parser := parser, list := list }
  | .seeEndTag | .seeBlockStartWithAttributes => do
    let parser ← stop (s.parser.act data p ch a)
    let list ← memory s.list.release
    return ⟨parser, list, s.told ++ [s.list.read]⟩
  | .blockStartTag => do
    let parser ← stop (s.parser.act data p ch a)
    let list ← memory s.list.release
    return ⟨parser, list, s.told ++ [[]]⟩
  | .echo | .begin | .finish | .seeStartTag | .seeAttributeKey | .blockEndTag => do
    let parser ← stop (s.parser.act data p ch a)
    return { s with parser := parser }

def step (s : OwningParser) : Except Halt OwningParser :=
  let (cs, list) := (transition s.parser.cs ch).goto
  list.actions.foldlM (act data p ch) { s with parser := { s.parser with cs := cs } }

def exec : Bytes → ℕ → OwningParser → Except Halt OwningParser
  | [], _, s => .ok s
  | ch :: rest, p, s => do
    let s ← step data p ch s
    exec rest (p + 1) s

end machine

/-- `esi_parser_execute`. -/
def execute (s : OwningParser) (chunk : Bytes) : Except Halt OwningParser :=
  if chunk = [] then .ok s
  else if s.parser.TakesFastPath chunk then
    .ok { s with parser := (intPart chunk).foldl ESIParser.echoChar s.parser }
  else do
    let (parser, data, p) := s.parser.enter chunk
    let s ← exec data (data.drop p) p { s with parser := parser }
    return { s with parser := s.parser.leave data }

def executeAll (s : OwningParser) (chunks : List Bytes) : Except Halt OwningParser :=
  chunks.foldlM execute s

/-- The objects that `esi_parser_free` leaves. -/
def esiParserFree (s : OwningParser) : Except LinkedList.Fault (Heap ESIAttribute) :=
  AttributeHeap.esiAttributeFree s.list.attributes s.list.cells

/-! ## It follows the parser -/

/-- The attributes that the start handler is told. -/
def toldTo (callbacks : List Callback) : List (List ESIAttribute) :=
  callbacks.filterMap fun
    | .startTag _ attributes => some attributes
    | .endTag _ | .output _ => none

/-- The list is that of the parser, no other object is live, and the handlers found in it what the
parser told them. -/
def Sound (s : OwningParser) : Prop :=
  ∃ l, s.list.Owns l ∧ l.map Prod.snd = s.parser.attributes ∧
    s.told = toldTo s.parser.out.callbacks

/-- The same outcome with a sound heap. -/
def Follows (x : Except Stop ESIParser) (y : Except Halt OwningParser) : Prop :=
  Run.Agree (fun c s => s.parser = c ∧ s.Sound) (stop x) y

theorem toldTo_tagCalls (l : List Callback) : toldTo (tagCalls l) = toldTo l := by
  rw [toldTo, tagCalls, List.filterMap_filter, toldTo]
  congr 1
  funext t
  cases t <;> rfl

theorem toldTo_append (l l' : List Callback) : toldTo (l ++ l') = toldTo l ++ toldTo l' :=
  List.filterMap_append

variable {s : OwningParser} {c' : ESIParser} {x : Except Stop ESIParser}

theorem toldTo_congr {l l' : List Callback} (h : tagCalls l = tagCalls l') :
    toldTo l = toldTo l' := by
  rw [← toldTo_tagCalls, h, toldTo_tagCalls]

/-- An outcome of the parser that leaves the attributes alone and tells nobody of them. -/
theorem Sound.keep (hs : s.Sound) (hattr : c'.attributes = s.parser.attributes)
    (htold : toldTo c'.out.callbacks = toldTo s.parser.out.callbacks) :
    ({ s with parser := c' } : OwningParser).Sound := by
  obtain ⟨l, howns, hl, htold'⟩ := hs
  exact ⟨l, howns, hl.trans hattr.symm, htold'.trans htold.symm⟩

theorem Follows.ok {c : ESIParser} (hc : s.parser = c) (hs : s.Sound) : Follows (.ok c) (.ok s) :=
  Run.Agree.ok ⟨hc, hs⟩

theorem Follows.keep (hs : s.Sound)
    (h : ∀ c', x = .ok c' → c'.attributes = s.parser.attributes ∧
      toldTo c'.out.callbacks = toldTo s.parser.out.callbacks) :
    Follows x (do
      let parser ← stop x
      return { s with parser := parser }) := by
  cases x with
  | error e => exact .error _
  | ok c' => exact .ok rfl (hs.keep (h c' rfl).1 (h c' rfl).2)

/-- A tag is complete: the handler is told `told`, and the list is freed. -/
theorem Follows.release (hs : s.Sound) {told : List ESIAttribute}
    (h : ∀ c', x = .ok c' → c'.attributes = [] ∧
      toldTo c'.out.callbacks = toldTo s.parser.out.callbacks ++ [told]) :
    Follows x (do
      let parser ← stop x
      let list ← memory s.list.release
      return ⟨parser, list, s.told ++ [told]⟩) := by
  obtain ⟨l, howns, -, htold⟩ := hs
  obtain ⟨list, hrelease, hlist⟩ := howns.release
  rw [hrelease]
  cases x with
  | error e => exact .error _
  | ok c' =>
    obtain ⟨hattr, htold'⟩ := h c' rfl
    exact .ok rfl ⟨[], hlist, hattr.symm, by rw [htold', htold]⟩

theorem Follows.bind {y : Except Halt OwningParser} {f : ESIParser → Except Stop ESIParser}
    {g : OwningParser → Except Halt OwningParser} (h : Follows x y)
    (hfg : ∀ s : OwningParser, s.Sound → Follows (f s.parser) (g s)) :
    Follows (x >>= f) (y >>= g) := by
  have hbind : stop (x >>= f) = stop x >>= fun c => stop (f c) := by
    cases x <;> rfl
  rw [Follows, hbind]
  refine Run.Agree.bind h ?_
  rintro c s ⟨rfl, hs⟩
  exact hfg s hs

theorem Follows.foldlM {α : Type} {f : ESIParser → α → Except Stop ESIParser}
    {g : OwningParser → α → Except Halt OwningParser}
    (hstep : ∀ (s : OwningParser) a, s.Sound → Follows (f s.parser a) (g s a)) (l : List α)
    (hs : s.Sound) : Follows (l.foldlM f s.parser) (l.foldlM g s) := by
  induction l generalizing s with
  | nil => exact .ok rfl hs
  | cons a l ih =>
    rw [List.foldlM_cons, List.foldlM_cons]
    exact (hstep s a hs).bind fun s hs => ih hs

section actions

variable {data : Bytes} {p : ℕ} {ch : UInt8} {c : ESIParser}

theorem frame_tagCalls {ts : List Callback} (h : ESIParser.Frame ts c c') :
    tagCalls c'.out.callbacks = tagCalls c.out.callbacks ++ ts := by
  rw [h.out, Output.tags_tagCalls h.isTag]

theorem frame_toldTo {ts : List Callback} (h : ESIParser.Frame ts c c') :
    toldTo c'.out.callbacks = toldTo c.out.callbacks ++ toldTo ts := by
  rw [← toldTo_tagCalls, frame_tagCalls h, toldTo_append, toldTo_tagCalls]

theorem completeTag_attributes {withEnd : Bool} (h : c.completeTag data p withEnd = .ok c') :
    c'.attributes = [] ∧
      toldTo c'.out.callbacks = toldTo c.out.callbacks ++ [c.attributes] := by
  constructor
  · obtain ⟨⟨tagText, len⟩, -, h⟩ := Run.bind_ok h
    obtain ⟨name, -, h⟩ := Run.bind_ok h
    obtain rfl := Except.ok.inj h
    rfl
  · obtain ⟨name, hframe⟩ := ESIParser.completeTag_frame h
    rw [frame_toldTo hframe]
    cases withEnd <;> rfl

theorem blockStartTag_attributes (h : c.blockStartTag data p = .ok c') :
    c'.attributes = [] ∧ toldTo c'.out.callbacks = toldTo c.out.callbacks ++ [[]] := by
  constructor
  · obtain ⟨⟨name, m⟩, -, h⟩ := Run.bind_ok h
    obtain rfl := Except.ok.inj h
    rfl
  · obtain ⟨name, hframe⟩ := ESIParser.blockStartTag_frame h
    exact frame_toldTo hframe

theorem seeAttributeValue_cases (data : Bytes) (p : ℕ) (c : ESIParser) :
    (∃ e, c.newAttribute data p = .error e ∧ c.seeAttributeValue data p = .error e) ∨
      ∃ attr c', c.newAttribute data p = .ok attr ∧ c.seeAttributeValue data p = .ok c' ∧
        c'.attributes = c.attributes ++ [attr] := by
  simp only [ESIParser.newAttribute, ESIParser.seeAttributeValue, bind, Except.bind, pure,
    Except.pure]
  rcases c.check (c.mark.distance p) with e | length
  · exact .inl ⟨e, rfl, rfl⟩
  dsimp only
  rcases c.check (trimPointer data p c.mark length) with e | ⟨attrValue, length⟩
  · exact .inl ⟨e, rfl, rfl⟩
  dsimp only
  rcases c.check (c.attrKey.text data c.attrKeyLength) with e | name
  · exact .inl ⟨e, rfl, rfl⟩
  dsimp only
  rcases c.check (attrValue.text data length) with e | value
  · exact .inl ⟨e, rfl, rfl⟩
  · exact .inr ⟨_, _, rfl, rfl, rfl⟩

theorem follows_act (hs : s.Sound) (a : Action) :
    Follows (s.parser.act data p ch a) (s.act data p ch a) := by
  cases a with
  | echo =>
    refine Follows.keep hs fun c' h => ?_
    obtain rfl := Except.ok.inj h
    exact ⟨ESIParser.echo_attributes _ ch, toldTo_congr (ESIParser.echo_tagCalls _ ch)⟩
  | begin | finish =>
    refine Follows.keep hs fun c' h => ?_
    obtain rfl := Except.ok.inj h
    exact ⟨rfl, rfl⟩
  | seeStartTag =>
    refine Follows.keep hs fun c' h => ⟨?_, ?_⟩
    · obtain ⟨length, -, h⟩ := Run.bind_ok h
      obtain rfl := Except.ok.inj h
      rfl
    · exact (frame_toldTo (ESIParser.seeStartTag_frame h)).trans (List.append_nil _)
  | seeAttributeKey =>
    refine Follows.keep hs fun c' h => ⟨?_, ?_⟩
    · obtain ⟨length, -, h⟩ := Run.bind_ok h
      obtain ⟨⟨attrKey, len⟩, -, h⟩ := Run.bind_ok h
      obtain rfl := Except.ok.inj h
      rfl
    · exact (frame_toldTo (ESIParser.seeAttributeKey_frame h)).trans (List.append_nil _)
  | blockEndTag =>
    refine Follows.keep hs fun c' h => ⟨?_, ?_⟩
    · obtain ⟨⟨name, m⟩, hname, h⟩ := Run.bind_ok h
      obtain ⟨tagText, len, rfl⟩ := ESIParser.takeName_ok hname
      obtain rfl := Except.ok.inj h
      rfl
    · obtain ⟨name, hframe⟩ := ESIParser.blockEndTag_frame h
      exact (frame_toldTo hframe).trans (List.append_nil _)
  | seeEndTag | seeBlockStartWithAttributes =>
    obtain ⟨l, howns, hl, -⟩ := id hs
    have hread : s.list.read = s.parser.attributes := howns.read_eq.trans hl
    rw [act, hread]
    exact Follows.release hs fun c' h => completeTag_attributes h
  | blockStartTag => exact Follows.release hs fun c' h => blockStartTag_attributes h
  | seeAttributeValue =>
    rcases seeAttributeValue_cases data p s.parser with
      ⟨e, hattr, hact⟩ | ⟨attr, c', hattr, hact, hc'⟩
    · rw [act, hattr, ESIParser.act, hact]
      exact .error _
    · obtain ⟨l, howns, hl, htold⟩ := hs
      obtain ⟨list, hadd, hlist⟩ := howns.add attr
      rw [act, hattr, ESIParser.act, hact]
      change Follows _ (memory (s.list.add attr) >>= fun list => .ok ⟨c', list, s.told⟩)
      rw [hadd]
      refine .ok rfl ⟨_, hlist, ?_, ?_⟩
      · rw [hc', List.map_append, hl]
        rfl
      · have hout := frame_toldTo (ESIParser.seeAttributeValue_frame hact)
        rw [htold]
        exact (hout.trans (List.append_nil _)).symm

end actions

/-! ### Runs -/

theorem follows_step (data : Bytes) (p : ℕ) (ch : UInt8) (hs : s.Sound) :
    Follows (s.parser.step data p ch) (s.step data p ch) := by
  set q := (transition s.parser.cs ch).goto.1
  have hs' : Sound { s with parser := { s.parser with cs := q } } := hs.keep rfl rfl
  exact Follows.foldlM (fun s a hs => follows_act hs a) _ hs'

theorem follows_exec (data : Bytes) : ∀ (rest : Bytes) (p : ℕ) {s : OwningParser}, s.Sound →
    Follows (s.parser.exec data rest p) (s.exec data rest p)
  | [], _, _, hs => .ok rfl hs
  | ch :: rest, p, _, hs =>
    (follows_step data p ch hs).bind fun _ hs => follows_exec data rest (p + 1) hs

theorem bare_attributes {c c' : ESIParser} (h : c'.bare = c.bare) :
    c'.attributes = c.attributes := by
  have h' := congrArg ESIParser.attributes h
  exact h'

theorem echoChar_attributes (u : Bytes) (c : ESIParser) :
    (u.foldl ESIParser.echoChar c).attributes = c.attributes := by
  have h := congrArg ESIParser.attributes (ESIParser.core_fastPath u c)
  exact h

theorem Sound.echoAll (hs : s.Sound) (u : Bytes) :
    Sound { s with parser := u.foldl ESIParser.echoChar s.parser } := by
  refine hs.keep (echoChar_attributes u s.parser) (toldTo_congr ?_)
  rw [ESIParser.echoChar_out, Output.foldl_echoChar_tagCalls]

theorem follows_execute (chunk : Bytes) (hs : s.Sound) :
    Follows (s.parser.execute chunk) (s.execute chunk) := by
  by_cases hne : chunk = []
  · rw [ESIParser.execute, execute, if_pos hne, if_pos hne]
    exact .ok rfl hs
  by_cases hfast : s.parser.TakesFastPath chunk
  · rw [ESIParser.execute, execute, if_neg hne, if_neg hne, if_pos hfast, if_pos hfast]
    generalize intPart chunk = u
    exact .ok rfl (hs.echoAll u)
  · rw [ESIParser.execute, execute, if_neg hne, if_neg hne, if_neg hfast, if_neg hfast]
    obtain ⟨m, u, henter, hbare⟩ := ESIParser.enter_bare s.parser chunk
    rw [henter]
    have hm : ({ s with parser := m } : OwningParser).Sound :=
      hs.keep (bare_attributes hbare) (by rw [ESIParser.bare_out hbare])
    refine (follows_exec (u ++ chunk) _ u.length hm).bind fun s hs => .ok rfl (hs.keep ?_ ?_)
    · have hattr := congrArg ESIParser.attributes (ESIParser.leave_bare s.parser (u ++ chunk))
      exact hattr
    · rw [ESIParser.leave_out]

theorem sound_new : new.Sound := ⟨[], AttributeHeap.owns_new, rfl, rfl⟩

theorem follows_executeAll (chunks : List Bytes) :
    Follows (ESIParser.new.executeAll chunks) (new.executeAll chunks) :=
  Follows.foldlM (fun _ chunk hs => follows_execute chunk hs) chunks sound_new

theorem Sound.esiParserFree (hs : s.Sound) : ∃ cells, s.esiParserFree = .ok cells ∧
    cells.live = 0 := by
  obtain ⟨l, howns, -, -⟩ := hs
  have hlive := howns.links.live_clear
  rw [howns.live] at hlive
  exact ⟨_, howns.links.freeFrom_eq howns.links.length_le, Nat.add_eq_right.1 hlive⟩

/-- However a document is cut into chunks, the parser with its heap ends as the parser without it
does, and uses no freed object.  Then exactly the attributes collected are allocated, linked in
order from `parser->attributes`, every start handler has found its attributes at the pointer that
it was given, and `esi_parser_free` frees them all. -/
theorem attributes_owned (chunks : List Bytes) :
    (new.executeAll chunks).map OwningParser.parser = stop (ESIParser.new.executeAll chunks) ∧
      ∀ s, new.executeAll chunks = .ok s →
        (∃ l, Links s.list.cells s.list.attributes l none ∧
          l.map Prod.snd = s.parser.attributes ∧ s.list.cells.live = l.length) ∧
        s.told = toldTo s.parser.out.callbacks ∧
        ∃ cells, s.esiParserFree = .ok cells ∧ cells.live = 0 := by
  have hfollows := follows_executeAll chunks
  unfold Follows at hfollows
  generalize stop (ESIParser.new.executeAll chunks) = x at hfollows
  generalize new.executeAll chunks = y at hfollows
  cases hfollows with
  | error e => exact ⟨rfl, fun s h => by cases h⟩
  | ok h =>
    refine ⟨congrArg Except.ok h.1, fun s hs => ?_⟩
    obtain rfl := Except.ok.inj hs
    obtain ⟨l, howns, hl, htold⟩ := h.2
    exact ⟨⟨l, howns.links, hl, howns.live⟩, htold, h.2.esiParserFree⟩

end OwningParser

end NginxEsi
