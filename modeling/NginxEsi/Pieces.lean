import Mathlib.Data.List.Chain
import NginxEsi.Forwarded
import NginxEsi.Handover

/-!
# The pieces of the output

The output handler gets the text in pieces of at most `ESI_OUTPUT_BUFFER_SIZE` bytes, none of them
empty, and a piece that another one follows directly is full (`parse_pieces`).  So where the text
between two tags is cut depends on its length alone, and the body filter never links a buffer
without bytes into the output chain (`chain_pieces`).
-/

namespace NginxEsi

/-- A callback with output has some bytes, and not more than the output buffer holds. -/
def Callback.Sized (c : Callback) : Prop :=
  c.isTag = false → 0 < c.data.length ∧ c.data.length ≤ esiOutputBufferSize

/-- Two callbacks with output stand next to each other only when the first one is full. -/
def Callback.Precedes (a b : Callback) : Prop :=
  a.isTag = false → b.isTag = false → a.data.length = esiOutputBufferSize

structure Pieces (l : List Callback) : Prop where
  sized : ∀ c ∈ l, c.Sized
  full : l.IsChain Callback.Precedes

theorem pieces_nil : Pieces [] := ⟨by simp, .nil⟩

theorem Pieces.concat {l : List Callback} {c : Callback} (h : Pieces l) (hc : c.Sized)
    (hlast : ∀ a ∈ l.getLast?, a.Precedes c) : Pieces (l ++ [c]) where
  sized := List.forall_mem_append.2 ⟨h.sized, by simpa using hc⟩
  full := by
    refine List.isChain_append.2 ⟨h.full, List.isChain_singleton c, fun a ha b hb => ?_⟩
    obtain rfl := Option.mem_some.1 hb
    exact hlast a ha

theorem Callback.sized_of_tag {c : Callback} (h : c.isTag = true) : c.Sized := fun h' => by
  rw [h] at h'
  cases h'

namespace Output

/-- The output buffer has room, and the last callback made was for a full one or for a tag. -/
structure Packed (o : Output) : Prop where
  pieces : Pieces o.callbacks
  room : o.buffer.length < esiOutputBufferSize
  last : ∀ c ∈ o.callbacks.getLast?, c.isTag = false → c.data.length = esiOutputBufferSize

variable {o : Output}

theorem packed_new : ({} : Output).Packed := ⟨pieces_nil, by decide, by simp⟩

theorem Packed.flush_pieces (h : o.Packed) : Pieces o.flush.callbacks := by
  unfold flush
  split_ifs with hpos
  · exact h.pieces.concat (fun _ => ⟨hpos, h.room.le⟩) fun a ha ha' _ => h.last a ha ha'
  · exact h.pieces

theorem Packed.echoChar (h : o.Packed) (b : UInt8) : (o.echoChar b).Packed := by
  have hroom := h.room
  have hlen : (o.buffer ++ [b]).length = o.buffer.length + 1 := List.length_append
  unfold Output.echoChar
  dsimp only
  split_ifs with hfull
  · have hsized : (Callback.output (o.buffer ++ [b])).Sized := fun _ => by
      rw [Callback.data, hfull]
      decide
    rw [flush, if_pos (by rw [hlen]; omega)]
    refine ⟨h.pieces.concat hsized fun a ha ha' _ => h.last a ha ha', by dsimp only; decide, ?_⟩
    intro c hc _
    obtain rfl : Callback.output (o.buffer ++ [b]) = c := by simpa using hc
    exact hfull
  · exact ⟨h.pieces, by dsimp only; omega, h.last⟩

theorem foldl_echoChar_packed (h : o.Packed) (u : Bytes) :
    (u.foldl Output.echoChar o).Packed := by
  induction u generalizing o with
  | nil => exact h
  | cons b u ih => exact ih (h.echoChar b)

/-- A tag callback behind a flush. -/
theorem packed_call {o : Output} (hpieces : Pieces o.callbacks) (hbuffer : o.buffer = [])
    {t : Callback} (ht : t.isTag = true) :
    (o.call t).flush.Packed ∧ (o.call t).flush.buffer = [] := by
  have hsame : (o.call t).flush = o.call t := by
    rw [flush, if_neg]
    rw [call, hbuffer]
    exact Nat.lt_irrefl 0
  rw [hsame]
  refine ⟨⟨hpieces.concat (Callback.sized_of_tag ht) fun a _ _ ht' => ?_, ?_, ?_⟩, hbuffer⟩
  · rw [ht] at ht'
    cases ht'
  · rw [call, hbuffer]
    decide
  · intro c hc hc'
    obtain rfl : t = c := by simpa [call] using hc
    rw [ht] at hc'
    cases hc'

theorem Packed.tags (h : o.Packed) {ts : List Callback} (hts : ∀ t ∈ ts, t.isTag = true) :
    (o.tags ts).Packed := by
  cases ts with
  | nil => exact h
  | cons t ts =>
    obtain ⟨ht, hrest⟩ := List.forall_mem_cons.1 hts
    have hfirst := packed_call h.flush_pieces o.flush_buffer ht
    rw [Output.tags]
    generalize (o.flush.call t).flush = o' at hfirst
    clear hts
    induction ts generalizing o' with
    | nil => exact hfirst.1
    | cons t' ts ih =>
      obtain ⟨ht', hrest⟩ := List.forall_mem_cons.1 hrest
      exact ih hrest _ (packed_call hfirst.1.pieces hfirst.2 ht')

end Output

namespace ESIParser

variable {data chunk : Bytes} {p : ℕ} {ch : UInt8} {c c' : ESIParser}

/-! ## Runs -/

/-- The pieces of an outcome are in order, and the buffer of a parser that goes on has room. -/
def Packs : Except Stop ESIParser → Prop
  | .ok c => c.out.Packed
  | .error stop => Pieces stop.callbacks

theorem echo_packed (h : c.out.Packed) (q : State) (ch : UInt8) :
    ({ c with cs := q }.echo ch).out.Packed := by
  rw [echo_out]
  split_ifs
  · exact Output.foldl_echoChar_packed h _
  · exact h

theorem step_packs (h : c.out.Packed) (data : Bytes) (p : ℕ) (ch : UInt8) :
    Packs (c.step data p ch) := by
  have hecho := echo_packed h (c.cs.next ch) ch
  cases hrun : c.step data p ch with
  | ok c' =>
    obtain ⟨ts, hframe, -⟩ := step_frame hrun
    rw [Packs, hframe.out]
    exact hecho.tags hframe.isTag
  | error stop =>
    rw [step_eq] at hrun
    rw [Packs]
    rcases act_stopped _ hrun with hstop | hstop
    · rw [hstop]
      exact hecho.pieces
    · rw [hstop]
      exact hecho.flush_pieces

theorem exec_packs (data : Bytes) : ∀ (rest : Bytes) (p : ℕ) {c : ESIParser}, c.out.Packed →
    Packs (c.exec data rest p)
  | [], _, _, h => h
  | ch :: rest, p, c, h => by
    have hstep := step_packs h data p ch
    rw [exec]
    cases hm : c.step data p ch with
    | error stop =>
      rw [hm] at hstep
      exact hstep
    | ok m =>
      rw [hm] at hstep
      exact exec_packs data rest (p + 1) hstep

theorem execute_packs (h : c.out.Packed) (chunk : Bytes) : Packs (c.execute chunk) := by
  by_cases hne : chunk = []
  · rw [execute, if_pos hne]
    exact h
  by_cases hfast : c.TakesFastPath chunk
  · rw [execute, if_neg hne, if_pos hfast, Packs, echoChar_out]
    exact Output.foldl_echoChar_packed h _
  · rw [execute, if_neg hne, if_neg hfast]
    obtain ⟨m, u, henter, hbare⟩ := enter_bare c chunk
    rw [henter]
    dsimp only
    rw [List.drop_left]
    have hexec := exec_packs (u ++ chunk) chunk u.length (c := m) (by rwa [bare_out hbare])
    cases hrun : m.exec (u ++ chunk) chunk u.length with
    | error stop =>
      rw [hrun] at hexec
      exact hexec
    | ok m' =>
      rw [hrun] at hexec
      change (m'.leave (u ++ chunk)).out.Packed
      rwa [leave_out]

theorem executeAll_packs (h : c.out.Packed) (chunks : List Bytes) :
    Packs (c.executeAll chunks) := by
  induction chunks generalizing c with
  | nil => exact h
  | cons chunk chunks ih =>
    have hfirst := execute_packs h chunk
    rw [executeAll, List.foldlM_cons]
    cases hm : c.execute chunk with
    | error stop =>
      rw [hm] at hfirst
      exact hfirst
    | ok m =>
      rw [hm] at hfirst
      exact ih hfirst

/-- Whatever the chunks are, and also if the run ends in a fault, no output callback is empty or has
more than 1024 bytes, and one that another output callback follows directly has exactly 1024. -/
theorem parse_pieces (chunks : List Bytes) : Pieces (callbacksOf (parse chunks)) := by
  have hpacks := executeAll_packs (c := new) Output.packed_new chunks
  rw [parse]
  cases hrun : new.executeAll chunks with
  | error stop =>
    rw [hrun] at hpacks
    exact hpacks
  | ok c =>
    rw [hrun] at hpacks
    exact hpacks.flush_pieces

/-! ## The filter -/

variable {b : Bool}

/-- A call of the body filter keeps the pieces in order, and a parser that is kept has room. -/
theorem read_packs {input : List Buf} (h : c.out.Packed) (hread : c.read input = .ok (b, c')) :
    Pieces c'.out.callbacks ∧ (b = false → c'.out.Packed) := by
  induction input generalizing c with
  | nil =>
    obtain ⟨rfl, rfl⟩ := Prod.mk.inj (Except.ok.inj hread)
    exact ⟨h.pieces, fun _ => h⟩
  | cons buf input ih =>
    obtain ⟨m, hm, hread⟩ := Run.bind_ok hread
    have hpacks := execute_packs h buf.bytes
    rw [executeBounded_ok (Run.mapError_ok hm)] at hpacks
    by_cases hlast : buf.lastBuf = true
    · rw [if_pos hlast] at hread
      obtain ⟨rfl, rfl⟩ := Prod.mk.inj (Except.ok.inj hread)
      exact ⟨hpacks.flush_pieces, fun hb => absurd hb (by decide)⟩
    · rw [if_neg hlast] at hread
      exact ih hpacks hread

end ESIParser

namespace Relay

variable {s s' : Relay} {c : Bool × List Buf}

/-- No text is empty or longer than the output buffer, and the parser has room. -/
structure Sized (s : Relay) : Prop where
  pieces : ∀ u ∈ s.pieces, 0 < u.length ∧ u.length ≤ esiOutputBufferSize
  parser : (s.parser.getD .new).out.Packed

theorem sized_new : new.Sized := ⟨List.forall_mem_nil _, Output.packed_new⟩

theorem handle_sized {c : Callback} (hc : c.Sized)
    (h : ∀ u ∈ s.pieces, 0 < u.length ∧ u.length ≤ esiOutputBufferSize) :
    ∀ u ∈ (s.handle c).pieces, 0 < u.length ∧ u.length ≤ esiOutputBufferSize := by
  refine List.forall_mem_append.2 ⟨h, ?_⟩
  cases c with
  | output data =>
    rw [Routing.piece]
    split_ifs
    · exact List.forall_mem_singleton.2 (hc rfl)
    · simp
  | startTag name attributes => exact List.forall_mem_nil _
  | endTag name => exact List.forall_mem_nil _

theorem foldl_handle_sized {l : List Callback} (hl : ∀ c ∈ l, c.Sized)
    (h : ∀ u ∈ s.pieces, 0 < u.length ∧ u.length ≤ esiOutputBufferSize) :
    ∀ u ∈ (l.foldl handle s).pieces, 0 < u.length ∧ u.length ≤ esiOutputBufferSize := by
  induction l generalizing s with
  | nil => exact h
  | cons c l ih =>
    obtain ⟨hc, hl⟩ := List.forall_mem_cons.1 hl
    exact ih hl (handle_sized hc h)

theorem Sized.call (h : s.Sized) (hcall : s.call c = .ok s') : s'.Sized := by
  unfold Relay.call at hcall
  split_ifs at hcall with hc
  · obtain ⟨⟨b, p'⟩, hread, hcall⟩ := Run.bind_ok hcall
    obtain rfl := Except.ok.inj hcall
    obtain ⟨hpieces, hroom⟩ := ESIParser.read_packs h.parser hread
    refine ⟨?_, ?_⟩
    · have hdrop := List.drop_subset (s.parser.getD .new).out.callbacks.length p'.out.callbacks
      exact foldl_handle_sized (s := s.enter) (fun c hc => hpieces.sized c (hdrop hc)) h.pieces
    · cases b with
      | true => exact Output.packed_new
      | false => exact hroom rfl
  · obtain rfl := Except.ok.inj hcall
    exact h

end Relay

namespace Ctx

/-- After any number of calls without a fault, no buffer in the output chain is empty or has more
than 1024 bytes. -/
theorem chain_pieces (stack : ℕ → NgxStr) (calls : List (Bool × List Buf)) (ctx : Ctx)
    (hrun : calls.foldlM (call stack) new = .ok ctx) :
    ∀ e ∈ ctx.chainBuffers, 0 < e.2.bytes.length ∧ e.2.bytes.length ≤ esiOutputBufferSize := by
  obtain ⟨s, q, hrelay, hrelays⟩ := relays_run hrun
  have hsized : s.Sized := by
    refine Run.invariant (I := fun _ s => s.Sized) ?_ (u := []) Relay.sized_new hrelay
    exact fun _ s c s' h hcall => h.call hcall
  rw [hrelays.chainBuffers_eq]
  intro e he
  refine hsized.pieces e.2.bytes ?_
  rw [← hrelays.pieces]
  exact List.mem_map_of_mem he

/-- A tag between two texts, in two input buffers. -/
theorem chain_pieces_vars :
    let calls := [(false, [Buf.mk (97 :: bareElement .esiVars [98]) false, Buf.mk [99] true])]
    ∃ ctx, calls.foldlM (call fun _ => ⟨0, none⟩) new = .ok ctx ∧
      ctx.chainBuffers.map (fun e => e.2.bytes) = [[97], [98], [99]] ∧
      ∀ e ∈ ctx.chainBuffers, 0 < e.2.bytes.length ∧ e.2.bytes.length ≤ esiOutputBufferSize := by
  intro calls
  have hrun : (calls.foldlM (call fun _ => ⟨0, none⟩) new).map
      (fun ctx => ctx.chainBuffers.map fun e => e.2.bytes) = .ok [[97], [98], [99]] := by
    decide +kernel
  obtain ⟨ctx, hctx, hbytes⟩ := Run.map_ok hrun
  exact ⟨ctx, hctx, hbytes, chain_pieces _ _ ctx hctx⟩

end Ctx

end NginxEsi
