import NginxEsi.Chunking

/-!
# Room in the echo buffer

`esi_parser_concat_to_echobuffer` asks `echobuffer_allocated` whether it has to grow the echo
buffer, and `esi_parser_execute` sets that field to the length of a chunk that it saves, without
touching the buffer.  A later byte can then be written past the allocation.  Whether one is depends
on the states that the machine goes through and on the lengths of the chunks (`EchoFits`).  Where
none is, the run with buffers as they are allocated is the run with growable ones, and no other run
with allocated buffers ends without a fault (`executeAllBounded_guards`).
-/

namespace NginxEsi

/-! ## The output buffer -/

/-- The output buffer has room, and no call of the output handler was empty or too long. -/
structure Output.Bounded (o : Output) : Prop where
  buffer_lt : o.buffer.length < esiOutputBufferSize
  outputs : ∀ d, Callback.output d ∈ o.callbacks → 1 ≤ d.length ∧ d.length ≤ esiOutputBufferSize

namespace Output

/-- Flushing a buffer that may be full. -/
theorem flush_bounded {o : Output} (hle : o.buffer.length ≤ esiOutputBufferSize)
    (h : ∀ d, Callback.output d ∈ o.callbacks → 1 ≤ d.length ∧ d.length ≤ esiOutputBufferSize) :
    o.flush.Bounded := by
  refine ⟨by rw [flush_buffer]; decide, fun d hd => ?_⟩
  unfold flush at hd
  split_ifs at hd with hpos
  · rcases List.mem_append.1 hd with hd | hd
    · exact h d hd
    · obtain rfl := Callback.output.inj (List.mem_singleton.1 hd)
      exact ⟨hpos, hle⟩
  · exact h d hd

theorem Bounded.flush {o : Output} (h : o.Bounded) : o.flush.Bounded :=
  flush_bounded h.buffer_lt.le h.outputs

theorem Bounded.echoChar {o : Output} (h : o.Bounded) (b : UInt8) : (o.echoChar b).Bounded := by
  have hlen : (o.buffer ++ [b]).length ≤ esiOutputBufferSize := by
    rw [List.length_append, List.length_singleton]
    exact h.buffer_lt
  unfold Output.echoChar
  dsimp only
  split_ifs with hfull
  · exact flush_bounded hlen h.outputs
  · exact ⟨lt_of_le_of_ne hlen hfull, h.outputs⟩

theorem Bounded.call {o : Output} (h : o.Bounded) {t : Callback} (ht : t.isTag = true) :
    ((o.call t).flush).Bounded := by
  refine flush_bounded h.buffer_lt.le fun d hd => ?_
  rcases List.mem_append.1 hd with hd | hd
  · exact h.outputs d hd
  · rw [← List.mem_singleton.1 hd] at ht
    cases ht

theorem Bounded.tags {o : Output} (h : o.Bounded) {ts : List Callback}
    (hts : ∀ t ∈ ts, t.isTag = true) : (o.tags ts).Bounded := by
  have hfold : ∀ (ts : List Callback) (o : Output), o.Bounded → (∀ t ∈ ts, t.isTag = true) →
      (ts.foldl (fun o t => (o.call t).flush) o).Bounded := by
    intro ts
    induction ts with
    | nil => exact fun o ho _ => ho
    | cons t ts ih =>
      intro o ho hts
      obtain ⟨ht, hts⟩ := List.forall_mem_cons.1 hts
      exact ih _ (ho.call ht) hts
  cases ts with
  | nil => exact h
  | cons t ts =>
    obtain ⟨ht, hts⟩ := List.forall_mem_cons.1 hts
    exact hfold ts _ (h.flush.call ht) hts

end Output

/-! ## The allocation -/

/-- What the allocation of the echo buffer depends on: the state, the number of bytes held, the
field `echobuffer_allocated`, the size of the block, and whether there is overflow data. -/
structure EchoRoom where
  cs : State
  held : ℕ
  allocated : ℕ
  size : ℕ
  saved : Bool
  deriving DecidableEq, Repr

namespace EchoRoom

def new : EchoRoom := ⟨esiStart, 0, esiOutputBufferSize, esiOutputBufferSize, false⟩

/-- Both sizes are doubled when `echobuffer_allocated` says that the block is full. -/
def grow (r : EchoRoom) : EchoRoom :=
  if r.allocated ≤ r.held then { r with allocated := r.allocated * 2, size := r.allocated * 2 }
  else r

theorem grow_cs (r : EchoRoom) : r.grow.cs = r.cs := by
  unfold grow
  split_ifs <;> rfl

theorem grow_saved (r : EchoRoom) : r.grow.saved = r.saved := by
  unfold grow
  split_ifs <;> rfl

theorem grow_allocated (r : EchoRoom) :
    r.grow.allocated = if r.allocated ≤ r.held then r.allocated * 2 else r.allocated := by
  unfold grow
  split_ifs <;> rfl

theorem grow_size (r : EchoRoom) :
    r.grow.size = if r.allocated ≤ r.held then r.allocated * 2 else r.size := by
  unfold grow
  split_ifs <;> rfl

/-- One more byte is held. -/
def push (r : EchoRoom) : Except Fault EchoRoom :=
  if r.held < r.grow.size then .ok { r.grow with held := r.held + 1 } else .error .outOfBounds

/-- `action echo`. -/
def echo (r : EchoRoom) (q : State) : Except Fault EchoRoom :=
  if q = .s0 then .ok { r with cs := q, held := 0 } else push { r with cs := q }

/-- A turn of the machine.  A tag callback clears the echo buffer. -/
def feed (r : EchoRoom) (ch : UInt8) : Except Fault EchoRoom := do
  let m ← r.echo (r.cs.next ch)
  return if (r.cs.list ch).silent then m else { m with held := 0 }

/-- The end of a call that was given `length` bytes. -/
def leave (r : EchoRoom) (length : ℕ) : EchoRoom :=
  if r.cs ≠ esiStart ∧ r.cs ≠ .s0 then
    if r.saved then r
    else { r with
      saved := true
      allocated := if esiOutputBufferSize > length then esiOutputBufferSize else length }
  else { r with saved := false }

/-- A call of `esi_parser_execute`. -/
def call (r : EchoRoom) (chunk : Bytes) : Except Fault EchoRoom :=
  if chunk = [] ∨ (r.cs = .s0 ∧ scanForStart chunk = -1) then .ok r
  else do
    let m ← chunk.foldlM feed r
    return m.leave chunk.length

/-- `echobuffer_allocated` is covered by the block, and what is held by `echobuffer_allocated`. -/
structure Ample (r : EchoRoom) : Prop where
  min_le : esiOutputBufferSize ≤ r.allocated
  held_le : r.held ≤ r.allocated
  allocated_le : r.allocated ≤ r.size

theorem ample_new : Ample new := ⟨le_rfl, Nat.zero_le _, le_rfl⟩

theorem Ample.push {r : EchoRoom} (h : r.Ample) : ∃ m, r.push = .ok m ∧ m.Ample := by
  have hpos : 0 < esiOutputBufferSize := by decide
  have hmin := h.min_le
  have hheld := h.held_le
  have hle := h.allocated_le
  have hallocated := r.grow_allocated
  have hsize := r.grow_size
  have hlt : r.held < r.grow.size := by
    split_ifs at hsize <;> omega
  refine ⟨_, by rw [EchoRoom.push, if_pos hlt], ?_, ?_, ?_⟩
  all_goals
    dsimp only
    split_ifs at hallocated hsize <;> omega

/-- With a block that is large enough a turn writes inside it. -/
theorem Ample.feed {r : EchoRoom} (h : r.Ample) (ch : UInt8) :
    ∃ m, r.feed ch = .ok m ∧ m.Ample := by
  have hecho : ∃ m, r.echo (r.cs.next ch) = .ok m ∧ m.Ample := by
    unfold EchoRoom.echo
    split_ifs
    · exact ⟨_, rfl, h.min_le, Nat.zero_le _, h.allocated_le⟩
    · exact Ample.push ⟨h.min_le, h.held_le, h.allocated_le⟩
  obtain ⟨m, hm, hample⟩ := hecho
  refine ⟨_, by rw [EchoRoom.feed, hm]; rfl, ?_⟩
  split_ifs
  · exact hample
  · exact ⟨hample.min_le, Nat.zero_le _, hample.allocated_le⟩

theorem Ample.feedAll {r : EchoRoom} (h : r.Ample) (u : Bytes) :
    ∃ m, u.foldlM EchoRoom.feed r = .ok m ∧ m.Ample := by
  induction u generalizing r with
  | nil => exact ⟨r, rfl, h⟩
  | cons ch u ih =>
    obtain ⟨m, hm, hample⟩ := h.feed ch
    obtain ⟨m', hm', hample'⟩ := ih hample
    exact ⟨m', Run.cons_ok.2 ⟨m, hm, hm'⟩, hample'⟩

/-- So does a call; only the length it saves can be too much for the block. -/
theorem Ample.call {r : EchoRoom} (h : r.Ample) (chunk : Bytes) : ∃ m, r.call chunk = .ok m := by
  unfold EchoRoom.call
  split_ifs
  · exact ⟨r, rfl⟩
  · obtain ⟨m, hm, -⟩ := h.feedAll chunk
    exact ⟨_, by rw [hm]; rfl⟩

end EchoRoom

/-- No call of the run writes past the echo buffer. -/
def EchoFits (chunks : List Bytes) : Prop := ∃ r, chunks.foldlM EchoRoom.call .new = .ok r

instance (chunks : List Bytes) : Decidable (EchoFits chunks) :=
  inferInstanceAs (Decidable (∃ r, _ = Except.ok r))

theorem EchoFits.left {l₁ l₂ : List Bytes} (h : EchoFits (l₁ ++ l₂)) : EchoFits l₁ := by
  obtain ⟨r, hr⟩ := h
  obtain ⟨m, hm, -⟩ := Run.append_ok.1 hr
  exact ⟨m, hm⟩

/-- A single call has room for what it holds. -/
theorem echoFits_single (chunk : Bytes) : EchoFits [chunk] := by
  obtain ⟨r, hr⟩ := EchoRoom.ample_new.call chunk
  exact ⟨r, Run.cons_ok.2 ⟨r, hr, rfl⟩⟩

/-! ## Accesses -/

namespace ESIParser

/-- The output buffer has room, every access was inside its buffer, and what is held was written
inside the echo buffer. -/
structure InRoom (c : ESIParser) : Prop where
  out : c.out.Bounded
  inBounds : c.InBounds
  held_le : c.echobuffer.length ≤ c.echobufferSize

theorem inRoom_new : InRoom new where
  out := ⟨by decide, fun d hd => by cases hd⟩
  inBounds a ha := by cases ha
  held_le := Nat.zero_le _

theorem inBounds_access {c : ESIParser} {index size : ℕ} :
    (c.access index size).InBounds ↔ c.InBounds ∧ index < size := by
  unfold InBounds access
  rw [List.forall_mem_append, List.forall_mem_singleton]

section echo

variable {c : ESIParser}

theorem InRoom.access (h : InRoom c) {index size : ℕ} (hlt : index < size) :
    InRoom (c.access index size) :=
  ⟨h.out, inBounds_access.2 ⟨h.inBounds, hlt⟩, h.held_le⟩

theorem InRoom.echoChar (h : InRoom c) (ch : UInt8) : InRoom (c.echoChar ch) := by
  have h' := h.access h.out.buffer_lt
  exact ⟨h'.out.echoChar ch, h'.inBounds, h'.held_le⟩

theorem InRoom.foldl_echoChar (u : Bytes) : ∀ {c : ESIParser}, InRoom c →
    InRoom (u.foldl ESIParser.echoChar c) := by
  induction u with
  | nil => exact fun h => h
  | cons b u ih => exact fun h => ih (h.echoChar b)

/-- `esi_parser_echo_buffer` reads below the end of the held bytes. -/
theorem InRoom.echoBuffer (h : InRoom c) : InRoom c.echoBuffer := by
  have hfold : ∀ (l : List (UInt8 × ℕ)) (m : ESIParser), InRoom m →
      m.echobufferSize = c.echobufferSize → (∀ e ∈ l, e.2 < c.echobufferSize) →
      InRoom (l.foldl (fun p e => (p.access e.2 p.echobufferSize).echoChar e.1) m) := by
    intro l
    induction l with
    | nil => exact fun m hm _ _ => hm
    | cons e l ih =>
      intro m hm hsize hl
      obtain ⟨he, hl⟩ := List.forall_mem_cons.1 hl
      refine ih _ ((hm.access ?_).echoChar e.1) hsize hl
      rw [hsize]
      exact he
  apply hfold _ c h rfl
  intro e he
  have hlt := (List.mem_zipIdx he).2.1
  have hle := h.held_le
  omega

theorem InRoom.echobufferClear (h : InRoom c) : InRoom c.echobufferClear :=
  ⟨h.out, h.inBounds, Nat.zero_le _⟩

/-- `echobuffer_allocated` and the size of the block. -/
def capacity (c : ESIParser) : ℕ × ℕ := (c.echobufferAllocated, c.echobufferSize)

theorem foldl_capacity {α : Type} {f : ESIParser → α → ESIParser}
    (hf : ∀ c a, (f c a).capacity = c.capacity) (l : List α) (c : ESIParser) :
    (l.foldl f c).capacity = c.capacity := by
  induction l generalizing c with
  | nil => rfl
  | cons a l ih => rw [List.foldl_cons, ih, hf]

theorem capacity_echo (h0 : c.cs = .s0) (ch : UInt8) : (c.echo ch).capacity = c.capacity := by
  have hbuffer : c.echoBuffer.capacity = c.capacity :=
    foldl_capacity (f := fun p (e : UInt8 × ℕ) => (p.access e.2 p.echobufferSize).echoChar e.1)
      (fun _ _ => rfl) _ c
  unfold ESIParser.echo
  rw [if_pos h0]
  dsimp only
  split_ifs
  · exact hbuffer
  · rfl
  · rfl

theorem InRoom.echo_zero (h : InRoom c) (h0 : c.cs = .s0) (ch : UInt8) : InRoom (c.echo ch) := by
  have hprev : ∀ m : ESIParser, ∀ q, InRoom m → InRoom { m with prevState := q } :=
    fun m q hm => ⟨hm.out, hm.inBounds, hm.held_le⟩
  unfold ESIParser.echo
  rw [if_pos h0]
  dsimp only
  split_ifs
  · exact hprev _ _ (h.echoBuffer.echoChar ch).echobufferClear
  · exact hprev _ _ (h.echoChar ch).echobufferClear
  · exact hprev _ _ h.echobufferClear

end echo

/-- What `esi_parser_concat_to_echobuffer` changes. -/
theorem concatToEchobuffer_eq (c : ESIParser) (ch : UInt8) :
    let full := c.echobufferAllocated ≤ c.echobuffer.length
    let size := if full then c.echobufferAllocated * 2 else c.echobufferSize
    c.concatToEchobuffer ch = { c with
      echobufferAllocated := if full then c.echobufferAllocated * 2 else c.echobufferAllocated
      echobufferSize := size
      accesses := c.accesses ++ [⟨c.echobuffer.length, size⟩]
      echobuffer := c.echobuffer ++ [ch] } := by
  unfold concatToEchobuffer access
  dsimp only
  split_ifs <;> rfl

/-! ## Turns of the machine -/

theorem guardAccesses_of_inBounds {c : ESIParser} (h : c.InBounds) : c.guardAccesses = .ok c :=
  if_pos h

variable {data : Bytes} {p : ℕ} {ch : UInt8} {c c' : ESIParser} {r : EchoRoom}

/-- Only `echo` accesses a buffer. -/
theorem act_inBounds (h : c.InBounds) (f : ActionList)
    (hact : c.act data p ch (Scanner.main f) = .ok c') : c'.InBounds := by
  obtain ⟨ts, hframe, -⟩ := act_frame f hact
  unfold InBounds
  rwa [hframe.accesses]

theorem actBounded_main (data : Bytes) (p : ℕ) (ch : UInt8) (h : c.InBounds) (f : ActionList) :
    c.actBounded data p ch (Scanner.main f) = c.act data p ch (Scanner.main f) := by
  rw [actBounded]
  cases hact : c.act data p ch (Scanner.main f) with
  | error stop => rfl
  | ok c' => exact guardAccesses_of_inBounds (act_inBounds h f hact)

/-- The actions behind `echo`. -/
theorem foldlM_actBounded (h : c.InBounds) (f : ActionList) :
    f.actions.tail.foldlM (actBounded data p ch) c = c.act data p ch (Scanner.main f) := by
  have hmain := actBounded_main data p ch h f
  have hlist : (f.actions.tail = [] ∧ Scanner.main f = .finish) ∨
      f.actions.tail = [Scanner.main f] ∨ f.actions.tail = [Scanner.main f, .finish] := by
    cases f <;> decide
  rcases hlist with ⟨hnil, hfinish⟩ | hone | htwo
  · rw [hnil, hfinish]
    rfl
  · rw [hone, List.foldlM_cons, hmain]
    exact bind_pure _
  · -- the `finish` behind the action is no action
    rw [htwo, List.foldlM_cons, hmain]
    cases hact : c.act data p ch (Scanner.main f) with
    | error stop => rfl
    | ok m =>
      have hfinish := actBounded_main data p ch (act_inBounds h f hact) .f0
      change m.actBounded data p ch .finish >>= pure = .ok m
      rw [bind_pure]
      exact hfinish

theorem stepBounded_eq (data : Bytes) (p : ℕ) (ch : UInt8) (c : ESIParser) :
    c.stepBounded data p ch = ({ c with cs := c.cs.next ch }.echo ch).guardAccesses >>= fun m =>
      m.act data p ch (Scanner.main (c.cs.list ch)) := by
  unfold stepBounded State.next State.list
  generalize (transition c.cs ch).goto = t
  obtain ⟨cs, f⟩ := t
  have hactions : f.actions = .echo :: f.actions.tail := by cases f <;> rfl
  dsimp only
  rw [hactions, List.foldlM_cons]
  change ({ c with cs := cs }.echo ch).guardAccesses >>= _ = _
  by_cases hin : ({ c with cs := cs }.echo ch).InBounds
  · rw [guardAccesses_of_inBounds hin]
    exact foldlM_actBounded hin f
  · rw [guardAccesses, if_neg hin]
    rfl

theorem stepBounded_ok (h : c.stepBounded data p ch = .ok c') : c.step data p ch = .ok c' := by
  rw [stepBounded_eq] at h
  obtain ⟨m, hm, h⟩ := Run.bind_ok h
  unfold guardAccesses at hm
  split_ifs at hm
  obtain rfl := Except.ok.inj hm
  rw [step_eq]
  exact h

theorem execBounded_ok : ∀ {rest : Bytes} {p : ℕ} {c : ESIParser},
    c.execBounded data rest p = .ok c' → c.exec data rest p = .ok c'
  | [], _, _, h => h
  | ch :: rest, p, c, h => by
    obtain ⟨m, hm, h⟩ := Run.bind_ok h
    rw [exec, stepBounded_ok hm]
    exact execBounded_ok h

/-- What ends without a fault with the buffers as they are allocated ends so with growable ones. -/
theorem executeBounded_ok {chunk : Bytes} (h : c.executeBounded chunk = .ok c') :
    c.execute chunk = .ok c' := by
  unfold executeBounded at h
  unfold execute
  split_ifs at h ⊢
  · exact h
  · unfold guardAccesses at h
    split_ifs at h
    exact h
  · obtain ⟨m₀, u, henter, -⟩ := enter_bare c chunk
    rw [henter] at h ⊢
    obtain ⟨m, hm, h⟩ := Run.bind_ok h
    dsimp only
    rw [execBounded_ok hm]
    exact h

/-- What the room says of a parser. -/
structure Fills (r : EchoRoom) (c : ESIParser) : Prop where
  inRoom : InRoom c
  cs : c.cs = r.cs
  held : c.echobuffer.length = r.held
  allocated : c.echobufferAllocated = r.allocated
  size : c.echobufferSize = r.size
  saved : c.overflowData.isSome = r.saved
  pos : 0 < r.allocated
  held_le : r.held ≤ r.allocated

/-- `esi_parser_concat_to_echobuffer`, with the state remembered. -/
theorem Fills.push (h : Fills r c) (ch : UInt8) (q : State) :
    Run.Guards Fills r.push
      (ESIParser.guardAccesses { c.concatToEchobuffer ch with prevState := q })
      (.ok { c.concatToEchobuffer ch with prevState := q }) := by
  have hpos := h.pos
  have hle := h.held_le
  have heq := concatToEchobuffer_eq c ch
  dsimp only at heq
  rw [h.held, h.allocated, h.size, ← EchoRoom.grow_size, ← EchoRoom.grow_allocated] at heq
  rw [heq, EchoRoom.push]
  by_cases hlt : r.held < r.grow.size
  · have hin : ∀ a ∈ c.accesses ++ [⟨r.held, r.grow.size⟩], a.index < a.size :=
      List.forall_mem_append.2 ⟨h.inRoom.inBounds, List.forall_mem_singleton.2 hlt⟩
    have hone : (c.echobuffer ++ [ch]).length = r.held + 1 := by
      rw [List.length_append, h.held, List.length_singleton]
    have hallocated := r.grow_allocated
    rw [if_pos hlt, guardAccesses_of_inBounds]
    · refine .ok ⟨⟨h.inRoom.out, hin, hone.trans_le hlt⟩, h.cs.trans r.grow_cs.symm, hone, rfl, rfl,
        h.saved.trans r.grow_saved.symm, ?_, ?_⟩
      · dsimp only
        split_ifs at hallocated <;> omega
      · dsimp only
        split_ifs at hallocated <;> omega
    · exact hin
  · rw [if_neg hlt, guardAccesses, if_neg]
    · exact .stopped _
    · exact fun hin => hlt (hin ⟨r.held, r.grow.size⟩
        (List.mem_append_right _ (List.mem_singleton_self _)))

theorem Fills.echo (h : Fills r c) (q : State) (ch : UInt8) :
    Run.Guards Fills (r.echo q) ({ c with cs := q }.echo ch).guardAccesses
      (.ok ({ c with cs := q }.echo ch)) := by
  have hjump : Fills { r with cs := q } { c with cs := q } :=
    ⟨⟨h.inRoom.1, h.inRoom.2, h.inRoom.3⟩, rfl, h.held, h.allocated, h.size, h.saved,
      h.pos, h.held_le⟩
  unfold EchoRoom.echo
  by_cases h0 : q = .s0
  · subst h0
    have hin : InRoom ({ c with cs := .s0 }.echo ch) := hjump.inRoom.echo_zero rfl ch
    obtain ⟨hallocated, hsize⟩ := Prod.mk.inj (capacity_echo (c := { c with cs := .s0 }) rfl ch)
    rw [if_pos rfl, guardAccesses_of_inBounds hin.inBounds]
    refine .ok ⟨hin, echo_cs _ _, ?_, hallocated.trans h.allocated, hsize.trans h.size, ?_, h.pos,
      Nat.zero_le _⟩
    · rw [echo_echobuffer, if_pos rfl]
      rfl
    · rw [echo_overflowData]
      exact h.saved
  · have hecho : ({ c with cs := q } : ESIParser).echo ch =
        { ({ c with cs := q } : ESIParser).concatToEchobuffer ch with
          prevState := (({ c with cs := q } : ESIParser).concatToEchobuffer ch).cs } := by
      rw [ESIParser.echo, if_neg h0]
    rw [if_neg h0, hecho]
    exact hjump.push ch _

theorem Fills.frame {ts : List Callback} (h : Fills r c) (hframe : Frame ts c c') :
    Fills (if ts = [] then r else { r with held := 0 }) c' := by
  have hin : InRoom c' := by
    refine ⟨?_, ?_, ?_⟩
    · rw [hframe.out]
      exact h.inRoom.out.tags hframe.isTag
    · unfold InBounds
      rw [hframe.accesses]
      exact h.inRoom.inBounds
    · rw [hframe.echobuffer, hframe.echobufferSize]
      split_ifs
      · exact h.inRoom.held_le
      · exact Nat.zero_le _
  have hcs := hframe.cs.trans h.cs
  have hallocated := hframe.echobufferAllocated.trans h.allocated
  have hsize := hframe.echobufferSize.trans h.size
  have hsaved := h.saved
  rw [← hframe.overflowData] at hsaved
  have hheld := hframe.echobuffer
  split_ifs at hheld ⊢
  · exact ⟨hin, hcs, hheld ▸ h.held, hallocated, hsize, hsaved, h.pos, h.held_le⟩
  · exact ⟨hin, hcs, by rw [hheld]; rfl, hallocated, hsize, hsaved, h.pos, Nat.zero_le _⟩

theorem Fills.step (h : Fills r c) (data : Bytes) (p : ℕ) (ch : UInt8) :
    Run.Guards Fills (r.feed ch) (c.stepBounded data p ch) (c.step data p ch) := by
  have hecho := h.echo (c.cs.next ch) ch
  rw [stepBounded_eq, step_eq, EchoRoom.feed, ← h.cs]
  refine hecho.bind fun m e hm => .of_ok fun c' hact => ?_
  obtain ⟨ts, hframe, hcalls⟩ := act_frame _ hact
  have hfills := hm.frame hframe
  simp only [hcalls.eq_nil_iff] at hfills
  exact hfills

theorem Fills.exec (data : Bytes) : ∀ (rest : Bytes) (p : ℕ) {c : ESIParser} {r : EchoRoom},
    Fills r c → Run.Guards Fills (rest.foldlM EchoRoom.feed r) (c.execBounded data rest p)
      (c.exec data rest p)
  | [], p, c, r, h => .ok h
  | ch :: rest, p, c, r, h => by
    rw [List.foldlM_cons]
    exact (h.step data p ch).bind fun r c h => h.exec data rest (p + 1)

/-- A turn holds at most one more byte, and none in the states 0 and 75. -/
theorem step_held (h : c.step data p ch = .ok c') :
    c'.echobuffer.length ≤ c.echobuffer.length + 1 ∧ (c'.cs.idle = true → c'.echobuffer = []) := by
  obtain ⟨ts, hframe, -⟩ := step_frame h
  rw [hframe.echobuffer, echo_echobuffer, (step_cs h).1]
  have hstart : c.cs.next ch ≠ .s75 := (flow_transition c.cs ch).ne_start
  constructor
  · dsimp only
    split_ifs <;> simp
  · intro hidle
    rw [if_pos (show c.cs.next ch = .s0 from State.eq_zero_of_idle hidle hstart), ite_self]

theorem exec_held : ∀ {rest : Bytes} {p : ℕ} {c c' : ESIParser}, c.exec data rest p = .ok c' →
    c'.echobuffer.length ≤ c.echobuffer.length + rest.length ∧
      (rest ≠ [] → c'.cs.idle = true → c'.echobuffer = [])
  | [], _, c, c', h => by
    cases h
    exact ⟨le_rfl, fun hne => absurd rfl hne⟩
  | [ch], p, c, c', h => by
    obtain ⟨m, hm, h⟩ := Run.bind_ok h
    obtain rfl := Except.ok.inj h
    exact ⟨(step_held hm).1, fun _ => (step_held hm).2⟩
  | ch :: b :: rest, p, c, c', h => by
    obtain ⟨m, hm, h⟩ := Run.bind_ok h
    have hstep := (step_held hm).1
    obtain ⟨hlen, hidle⟩ := exec_held h
    refine ⟨?_, fun _ => hidle (List.cons_ne_nil b rest)⟩
    rw [List.length_cons]
    omega

/-! ## Calls -/

/-- The same between two calls, where nothing is held without overflow data. -/
structure Rests (r : EchoRoom) (c : ESIParser) : Prop where
  fills : Fills r c
  held_eq : c.overflowData = none → c.echobuffer = []

theorem rests_new : Rests .new new where
  fills := ⟨inRoom_new, rfl, rfl, rfl, rfl, rfl, by decide, Nat.zero_le _⟩
  held_eq _ := rfl

theorem Fills.of_bare {m : ESIParser} (h : Fills r c) (hbare : m.bare = c.bare)
    (hsaved : m.overflowData.isSome = c.overflowData.isSome) : Fills r m := by
  have hb : Fills { r with saved := false } c.bare :=
    ⟨⟨h.inRoom.out, h.inRoom.inBounds, h.inRoom.held_le⟩, h.cs, h.held, h.allocated, h.size, rfl,
      h.pos, h.held_le⟩
  rw [← hbare] at hb
  exact ⟨⟨hb.inRoom.out, hb.inRoom.inBounds, hb.inRoom.held_le⟩, hb.cs, hb.held, hb.allocated,
    hb.size, hsaved.trans h.saved, h.pos, h.held_le⟩

/-- The chunk alone is scanned when there is no overflow data, and the call does not make any. -/
theorem enter_overflowData {m : ESIParser} {chunk u : Bytes}
    (h : c.enter chunk = (m, u ++ chunk, u.length)) :
    m.overflowData.isSome = c.overflowData.isSome ∧ (c.overflowData = none → u = []) := by
  rcases ho : c.overflowData with _ | (_ | ⟨b, old⟩)
  · rw [enter, ho, Prod.mk.injEq, Prod.mk.injEq] at h
    rw [← h.1, initMark_overflowData, ho]
    exact ⟨rfl, fun _ => List.eq_nil_of_length_eq_zero h.2.2.symm⟩
  · rw [enter, ho, Prod.mk.injEq] at h
    rw [← h.1, initMark_overflowData, ho]
    exact ⟨rfl, fun hn => by cases hn⟩
  · rw [enter, ho, Prod.mk.injEq] at h
    rw [← h.1, initMark_overflowData]
    exact ⟨rfl, fun hn => by cases hn⟩

theorem Fills.leave (h : Fills r c) {data : Bytes} {length : ℕ}
    (hdata : c.overflowData = none → data.length = length ∧ c.echobuffer.length ≤ length)
    (hidle : c.cs.idle = true → c.echobuffer = []) : Rests (r.leave length) (c.leave data) := by
  have hpos : 0 < esiOutputBufferSize := by decide
  by_cases hcs : c.cs ≠ esiStart ∧ c.cs ≠ .s0
  · have hsaved := h.saved
    rw [ESIParser.leave, if_pos hcs, EchoRoom.leave, if_pos (h.cs ▸ hcs)]
    cases ho : c.overflowData with
    | none =>
      obtain ⟨rfl, hle⟩ := hdata ho
      rw [ho] at hsaved
      rw [if_neg (by simp [← hsaved])]
      refine ⟨⟨⟨h.inRoom.out, h.inRoom.inBounds, h.inRoom.held_le⟩, h.cs, h.held, rfl, h.size, rfl,
        ?_, ?_⟩, fun hn => by cases hn⟩
      · dsimp only
        split_ifs <;> omega
      · dsimp only
        rw [← h.held]
        split_ifs <;> omega
    | some old =>
      rw [ho] at hsaved
      rw [if_pos (show r.saved = true from hsaved.symm)]
      exact ⟨h, fun hn => by rw [ho] at hn; cases hn⟩
  · rw [ESIParser.leave, if_neg hcs, EchoRoom.leave, if_neg (h.cs ▸ hcs)]
    exact ⟨⟨⟨h.inRoom.out, h.inRoom.inBounds, h.inRoom.held_le⟩, h.cs, h.held, h.allocated, h.size,
      rfl, h.pos, h.held_le⟩, fun _ => hidle (idle_eq_true.2 hcs)⟩

theorem Rests.execute (h : Rests r c) (chunk : Bytes) :
    Run.Guards Rests (r.call chunk) (c.executeBounded chunk) (c.execute chunk) := by
  have hfills := h.fills
  unfold EchoRoom.call executeBounded ESIParser.execute
  by_cases hne : chunk = []
  · rw [if_pos (.inl hne), if_pos hne, if_pos hne]
    exact .ok h
  by_cases hfast : c.TakesFastPath chunk
  · have hin := hfills.inRoom.foldl_echoChar (intPart chunk)
    obtain ⟨hallocated, hsize⟩ := Prod.mk.inj
      (foldl_capacity (f := ESIParser.echoChar) (fun _ _ => rfl) (intPart chunk) c)
    rw [if_pos (.inr (by rw [← hfills.cs]; exact hfast)), if_neg hne, if_neg hne, if_pos hfast,
      if_pos hfast, guardAccesses_of_inBounds hin.inBounds]
    refine .ok ⟨⟨hin, (echoChar_cs _ c).trans hfills.cs, ?_, hallocated.trans hfills.allocated,
      hsize.trans hfills.size, ?_, hfills.pos, hfills.held_le⟩, fun hn => ?_⟩
    · rw [echoChar_echobuffer]
      exact hfills.held
    · rw [echoChar_overflowData]
      exact hfills.saved
    · rw [echoChar_overflowData] at hn
      rw [echoChar_echobuffer]
      exact h.held_eq hn
  · obtain ⟨m₀, u, henter, hbare⟩ := enter_bare c chunk
    obtain ⟨hsaved, hu⟩ := enter_overflowData henter
    have hcall : ¬ (chunk = [] ∨ (r.cs = .s0 ∧ scanForStart chunk = -1)) := by
      rintro (hnil | hscan)
      · exact hne hnil
      · exact hfast (by rw [← hfills.cs] at hscan; exact hscan)
    rw [if_neg hcall, if_neg hne, if_neg hne, if_neg hfast, if_neg hfast, henter]
    dsimp only
    rw [List.drop_left]
    have hexec := (hfills.of_bare hbare hsaved).exec (u ++ chunk) chunk u.length
    refine (hexec.mono (S := fun r m => Rests (r.leave chunk.length) (m.leave (u ++ chunk)))
      fun k m hm hk => hk.leave (fun hn => ?_) ((exec_held hm).2 hne)).bind fun k m hk => .ok hk
    rw [exec_overflowData hm] at hn
    rw [hn, Option.isSome_none, eq_comm, Option.isSome_eq_false_iff,
      Option.isNone_iff_eq_none] at hsaved
    have hheld := (exec_held hm).1
    rw [bare_echobuffer hbare, h.held_eq hsaved, List.length_nil, Nat.zero_add] at hheld
    rw [hu hsaved]
    exact ⟨rfl, hheld⟩

theorem Rests.executeAll (h : Rests r c) (chunks : List Bytes) :
    Run.Guards Rests (chunks.foldlM EchoRoom.call r) (c.executeAllBounded chunks)
      (c.executeAll chunks) :=
  .foldlM (fun _ _ chunk h => h.execute chunk) h

/-! ## Runs -/

theorem executeAllBounded_guards (chunks : List Bytes) :
    Run.Guards Rests (chunks.foldlM EchoRoom.call .new) (new.executeAllBounded chunks)
      (new.executeAll chunks) :=
  rests_new.executeAll chunks

theorem executeAllBounded_eq {chunks : List Bytes} (h : EchoFits chunks) :
    new.executeAllBounded chunks = new.executeAll chunks := by
  obtain ⟨r, hr⟩ := h
  exact ((executeAllBounded_guards chunks).passes r hr).1

/-- A run that writes past no buffer is the run with growable ones. -/
theorem parseBounded_eq {chunks : List Bytes} (h : EchoFits chunks) :
    parseBounded chunks = parse chunks := by
  rw [parseBounded, parse, executeAllBounded_eq h]

theorem executeAllBounded_ok {chunks : List Bytes} (h : new.executeAllBounded chunks = .ok c) :
    new.executeAll chunks = .ok c ∧ EchoFits chunks := by
  obtain ⟨hrun, r, hr, -⟩ := (executeAllBounded_guards chunks).guarded_ok h
  exact ⟨hrun, r, hr⟩

/-- No other run ends without a fault. -/
theorem parseBounded_ok {chunks : List Bytes} (h : parseBounded chunks = .ok c) :
    parse chunks = .ok c ∧ EchoFits chunks := by
  obtain ⟨m, hm, hfinish⟩ := Run.bind_ok h
  obtain ⟨hrun, hfits⟩ := executeAllBounded_ok hm
  exact ⟨by rw [parse, hrun]; exact hfinish, hfits⟩

end ESIParser

end NginxEsi
