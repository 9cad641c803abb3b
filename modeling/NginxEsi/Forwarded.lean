import NginxEsi.Relay
import NginxEsi.Turns

/-!
# Nothing is made up

The parser drops bytes, holds them back and releases them later, but it never makes one up, sends
one twice or changes their order: what it delivers is a subsequence of the document
(`delivered_sublist`), of any length, also when the run ends in a fault.  So are the bytes in the
output chain of the body filter, over any number of calls (`bytes_sublist`).
-/

namespace NginxEsi

namespace ESIParser

variable {data chunk : Bytes} {p : ℕ} {ch : UInt8} {c c' : ESIParser} {stop : Stop}

/-! ## What is sent and what is held -/

/-- The bytes sent, and behind them those held back. -/
def kept (c : ESIParser) : Bytes := c.out.sent ++ c.echobuffer

/-- In state 0 nothing is held back. -/
def Clear (c : ESIParser) : Prop := c.cs = .s0 → c.echobuffer = []

/-- What an outcome accounts for: the bytes kept, or those delivered before the fault. -/
def account : Except Stop ESIParser → Bytes
  | .ok c => c.kept
  | .error stop => delivered stop.callbacks

theorem echo_kept (q : State) (ch : UInt8) (c : ESIParser) :
    ({ c with cs := q }.echo ch).kept.Sublist (c.kept ++ [ch]) := by
  unfold kept
  rw [echo_out, echo_echobuffer, List.append_assoc]
  dsimp only
  by_cases h0 : q = .s0
  · rw [if_pos h0]
    split_ifs
    · rw [Output.foldl_echoChar_sent, List.append_nil]
    · rw [List.append_nil]
      exact List.sublist_append_left _ _
  · rw [if_neg h0, if_neg fun h => h0 h.1]

/-- A turn keeps at most the byte that it reads. -/
theorem step_kept (h : c.step data p ch = .ok c') :
    c'.kept.Sublist (c.kept ++ [ch]) ∧ c'.Clear := by
  obtain ⟨ts, hframe, -⟩ := step_frame h
  have hecho := echo_kept (c.cs.next ch) ch c
  constructor
  · refine List.Sublist.trans ?_ hecho
    rw [kept, kept, hframe.out, Output.tags_sent hframe.isTag, hframe.echobuffer]
    split_ifs
    · exact List.Sublist.refl _
    · rw [List.append_nil]
      exact List.sublist_append_left _ _
  · intro hcs
    rw [hframe.cs, echo_cs] at hcs
    rw [hframe.echobuffer, echo_echobuffer, if_pos hcs, ite_self]

/-! ## Faults -/

/-- A fault comes behind the callbacks made so far, or behind a flush. -/
def Stopped (c : ESIParser) (stop : Stop) : Prop :=
  stop.callbacks = c.out.callbacks ∨ stop.callbacks = c.out.flush.callbacks

theorem Stopped.sublist (h : c.Stopped stop) : (delivered stop.callbacks).Sublist c.out.sent := by
  rcases h with h | h
  · rw [h]
    exact List.sublist_append_left _ _
  · rw [h, Output.delivered_flush]

/-- The first of several computations on the buffer fails, or a later one does. -/
theorem check_bind_error {α : Type} {x : Except Fault α} {f : α → Except Stop ESIParser}
    (h : (c.check x >>= f) = .error stop) : c.Stopped stop ∨ ∃ a, f a = .error stop := by
  rcases Run.bind_error h with h | ⟨a, -, h⟩
  · exact .inl (.inl (check_error h))
  · exact .inr ⟨a, h⟩

theorem takeName_stopped {skip : ℕ} (h : c.takeName data p skip = .error stop) :
    c.Stopped stop := by
  rcases Run.bind_error h with h | ⟨length, -, h⟩
  · exact .inl (check_error h)
  rcases Run.bind_error h with h | ⟨⟨tagText, len⟩, -, h⟩
  · exact .inl (check_error h)
  rcases Run.bind_error h with h | ⟨name, -, h⟩
  · exact .inr (check_error h)
  · cases h

theorem act_stopped (f : ActionList) (h : c.act data p ch (Scanner.main f) = .error stop) :
    c.Stopped stop := by
  cases f with
  | f0 | f10 | f1 | f12 => cases h
  | f2 | f4 =>
    rcases Run.bind_error h with h | ⟨⟨name, m⟩, -, h⟩
    · exact takeName_stopped h
    · cases h
  | f3 =>
    obtain h | ⟨length, h⟩ := check_bind_error h
    · exact h
    · cases h
  | f5 | f8 =>
    obtain h | ⟨⟨tagText, len⟩, h⟩ := check_bind_error h
    · exact h
    rcases Run.bind_error h with h | ⟨name, -, h⟩
    · exact .inr (check_error h)
    · cases h
  | f6 =>
    obtain h | ⟨length, h⟩ := check_bind_error h
    · exact h
    obtain h | ⟨⟨attrKey, len⟩, h⟩ := check_bind_error h
    · exact h
    · cases h
  | f7 | f11 =>
    obtain h | ⟨length, h⟩ := check_bind_error h
    · exact h
    obtain h | ⟨⟨attrValue, len⟩, h⟩ := check_bind_error h
    · exact h
    obtain h | ⟨name, h⟩ := check_bind_error h
    · exact h
    obtain h | ⟨value, h⟩ := check_bind_error h
    · exact h
    · cases h

theorem step_account (data : Bytes) (p : ℕ) (ch : UInt8) (c : ESIParser) :
    (account (c.step data p ch)).Sublist (c.kept ++ [ch]) := by
  cases h : c.step data p ch with
  | ok c' => exact (step_kept h).1
  | error stop =>
    rw [step_eq] at h
    have hsent := (act_stopped _ h).sublist
    exact (hsent.trans (List.sublist_append_left _ _)).trans (echo_kept (c.cs.next ch) ch c)

/-! ## Runs -/

theorem exec_clear (h : c.exec data chunk p = .ok c') (hc : c.Clear) : c'.Clear :=
  exec_invariant (fun _ _ _ _ _ hstep => (step_kept hstep).2) hc h

theorem exec_account (data : Bytes) : ∀ (rest : Bytes) (p : ℕ) (c : ESIParser),
    (account (c.exec data rest p)).Sublist (c.kept ++ rest)
  | [], _, c => by
    rw [List.append_nil]
    exact List.Sublist.refl _
  | ch :: rest, p, c => by
    have hstep := step_account data p ch c
    rw [exec, ← List.singleton_append, ← List.append_assoc]
    cases hm : c.step data p ch with
    | error stop =>
      rw [hm] at hstep
      exact hstep.trans (List.sublist_append_left _ _)
    | ok m =>
      rw [hm] at hstep
      exact (exec_account data rest (p + 1) m).trans (hstep.append_right rest)

theorem kept_of_bare {m : ESIParser} (h : m.bare = c.bare) : m.kept = c.kept := by
  rw [kept, kept, bare_out h, bare_echobuffer h]

theorem leave_kept (c : ESIParser) (data : Bytes) : (c.leave data).kept = c.kept := by
  rw [kept, kept, leave_out, leave_echobuffer]

/-- A call keeps at most the bytes of its chunk. -/
theorem execute_account (hc : c.Clear) (chunk : Bytes) :
    (account (c.execute chunk)).Sublist (c.kept ++ chunk) ∧
      ∀ c', c.execute chunk = .ok c' → c'.Clear := by
  by_cases hne : chunk = []
  · rw [execute, if_pos hne]
    exact ⟨List.sublist_append_left _ _, fun c' h => by rwa [← Except.ok.inj h]⟩
  by_cases hfast : c.TakesFastPath chunk
  · rw [execute, if_neg hne, if_pos hfast]
    refine ⟨?_, fun c' h => ?_⟩
    · rw [account, kept, kept, echoChar_out, echoChar_echobuffer, hc hfast.1, List.append_nil,
        List.append_nil, Output.foldl_echoChar_sent]
      exact (List.take_sublist _ _).append_left _
    · obtain rfl := Except.ok.inj h
      intro _
      rw [echoChar_echobuffer]
      exact hc hfast.1
  · rw [execute, if_neg hne, if_neg hfast]
    obtain ⟨m, u, henter, hbare⟩ := enter_bare c chunk
    rw [henter]
    dsimp only
    rw [List.drop_left]
    have hexec := exec_account (u ++ chunk) chunk u.length m
    rw [kept_of_bare hbare] at hexec
    have hm : m.Clear := by
      intro hcs
      rw [bare_echobuffer hbare]
      exact hc ((bare_cs hbare).symm.trans hcs)
    cases hrun : m.exec (u ++ chunk) chunk u.length with
    | error stop =>
      rw [hrun] at hexec
      exact ⟨hexec, fun c' h => by cases h⟩
    | ok m' =>
      rw [hrun] at hexec
      refine ⟨?_, fun c' h => ?_⟩
      · change (m'.leave (u ++ chunk)).kept.Sublist _
        rw [leave_kept]
        exact hexec
      · obtain rfl := Except.ok.inj h
        have hclear := exec_clear hrun hm
        intro hcs
        rw [leave_echobuffer]
        exact hclear ((leave_cs _ _).symm.trans hcs)

theorem executeAll_account (hc : c.Clear) (chunks : List Bytes) :
    (account (c.executeAll chunks)).Sublist (c.kept ++ chunks.flatten) := by
  induction chunks generalizing c with
  | nil =>
    rw [List.flatten_nil, List.append_nil]
    exact List.Sublist.refl _
  | cons chunk chunks ih =>
    obtain ⟨hfirst, hclear⟩ := execute_account hc chunk
    rw [executeAll, List.foldlM_cons, List.flatten_cons, ← List.append_assoc]
    cases hm : c.execute chunk with
    | error stop =>
      rw [hm] at hfirst
      exact hfirst.trans (List.sublist_append_left _ _)
    | ok m =>
      rw [hm] at hfirst
      exact (ih (hclear m hm)).trans (hfirst.append_right _)

theorem clear_new : new.Clear := fun _ => rfl

/-- Whatever the chunks are, and also if the run ends in a fault, the bytes delivered are a
subsequence of the document. -/
theorem delivered_sublist (chunks : List Bytes) :
    (delivered (callbacksOf (parse chunks))).Sublist chunks.flatten := by
  have haccount := executeAll_account clear_new chunks
  rw [show new.kept = [] from rfl, List.nil_append] at haccount
  rw [parse]
  cases hrun : new.executeAll chunks with
  | error stop =>
    rw [hrun] at haccount
    exact haccount
  | ok c =>
    rw [hrun] at haccount
    change (delivered c.out.flush.callbacks).Sublist _
    rw [Output.delivered_flush]
    exact (List.sublist_append_left _ _).trans haccount

end ESIParser

/-! ## The filter -/

/-- The bytes that a call reads from its input chain: up to the first buffer with `last_buf`. -/
def inputBytes : List Buf → Bytes
  | [] => []
  | buf :: input => buf.bytes ++ if buf.lastBuf then [] else inputBytes input

/-- The bytes that a call of the body filter reads. -/
def Relay.readBytes (c : Bool × List Buf) : Bytes := if Relay.Reads c then inputBytes c.2 else []

namespace ESIParser

variable {c c' : ESIParser} {b : Bool}

/-- The bytes that the parser has not handed over yet. -/
def pending (c : ESIParser) : Bytes := c.out.buffer ++ c.echobuffer

theorem kept_eq (c : ESIParser) : c.kept = delivered c.out.callbacks ++ c.pending :=
  List.append_assoc _ _ _

theorem finish_kept (c : ESIParser) : c.finish.kept = c.kept := by
  change c.out.flush.sent ++ c.echobuffer = _
  rw [Output.flush_sent, kept]

theorem read_kept {input : List Buf} (hc : c.Clear) (h : c.read input = .ok (b, c')) :
    c'.kept.Sublist (c.kept ++ inputBytes input) ∧ c'.Clear ∧
      c.out.callbacks <+: c'.out.callbacks := by
  induction input generalizing c with
  | nil =>
    obtain ⟨-, rfl⟩ := Prod.mk.inj (Except.ok.inj h)
    exact ⟨List.sublist_append_left _ _, hc, List.prefix_rfl⟩
  | cons buf input ih =>
    obtain ⟨m, hm, h⟩ := Run.bind_ok h
    have hm := executeBounded_ok (Run.mapError_ok hm)
    obtain ⟨haccount, hclear⟩ := execute_account hc buf.bytes
    rw [hm] at haccount
    have hpre := execute_callbacks hm
    rw [inputBytes, ← List.append_assoc]
    by_cases hlast : buf.lastBuf = true
    · rw [if_pos hlast] at h ⊢
      obtain ⟨-, rfl⟩ := Prod.mk.inj (Except.ok.inj h)
      rw [finish_kept, List.append_nil]
      exact ⟨haccount, hclear m hm, hpre.trans m.finish_callbacks⟩
    · rw [if_neg hlast] at h ⊢
      obtain ⟨hkept, hclear', hpre'⟩ := ih (hclear m hm) h
      exact ⟨hkept.trans (haccount.append_right _), hclear', hpre.trans hpre'⟩

/-- The bytes that a call of the filter makes the parser hand over were pending, or are read by the
call. -/
theorem read_delivered {input : List Buf} (hc : c.Clear) (h : c.read input = .ok (b, c')) :
    (delivered (c'.out.callbacks.drop c.out.callbacks.length) ++ c'.pending).Sublist
      (c.pending ++ inputBytes input) := by
  obtain ⟨hkept, -, l, hl⟩ := read_kept hc h
  rw [kept_eq, kept_eq, ← hl, delivered, List.flatMap_append, List.append_assoc,
    List.append_assoc] at hkept
  rw [← hl, List.drop_left]
  exact List.append_sublist_append_left _ |>.1 hkept

end ESIParser

namespace Routing

theorem start_sent (r : Routing) (type : TagType) (attributes : List ESIAttribute) :
    (r.start type attributes).sent = r.sent := by
  unfold start opened
  cases type <;> dsimp only
  split_ifs <;> rfl

theorem stop_sent (r : Routing) (type : TagType) : (r.stop type).sent = r.sent := by
  unfold stop
  split
  · rfl
  · split_ifs
    · exact closed_sent r type
    · exact closed_sent r type
    · rfl

theorem onTag_sent {r : Routing} {f : TagType → Routing → Routing}
    (hf : ∀ type, (f type r).sent = r.sent) (name : Bytes) : (r.onTag f name).sent = r.sent := by
  unfold onTag
  cases esiTagStrToType name with
  | none => rfl
  | some type => exact hf type

/-- A callback sends its bytes or none. -/
theorem handle_sent (r : Routing) (c : Callback) :
    ∃ u, (r.handle c).sent = r.sent ++ u ∧ u.Sublist c.data := by
  cases c with
  | output data =>
    unfold handle send
    split_ifs
    · exact ⟨data, rfl, List.Sublist.refl _⟩
    · exact ⟨[], (List.append_nil _).symm, List.nil_sublist _⟩
  | startTag name attributes =>
    refine ⟨[], ?_, List.nil_sublist _⟩
    rw [List.append_nil]
    exact onTag_sent (fun type => start_sent r type attributes) name
  | endTag name =>
    refine ⟨[], ?_, List.nil_sublist _⟩
    rw [List.append_nil]
    exact onTag_sent (fun type => stop_sent r type) name

end Routing

namespace Relay

variable {s s' : Relay} {c : Bool × List Buf}

/-- The routing lets through some of what the parser delivers. -/
theorem foldl_handle_sent (l : List Callback) (s : Relay) :
    ∃ u, (l.foldl handle s).routing.sent = s.routing.sent ++ u ∧ u.Sublist (delivered l) := by
  induction l generalizing s with
  | nil => exact ⟨[], (List.append_nil _).symm, List.Sublist.refl _⟩
  | cons c l ih =>
    obtain ⟨u, hu, hc⟩ := s.routing.handle_sent c
    obtain ⟨v, hv, hl⟩ := ih (s.handle c)
    refine ⟨u ++ v, ?_, ?_⟩
    · rw [List.foldl_cons, hv, ← List.append_assoc, ← hu]
      rfl
    · rw [delivered_cons]
      exact hc.append hl

/-- What the parser of the request has not handed over yet. -/
def pending (s : Relay) : Bytes := (s.parser.getD .new).pending

/-- What is known between two calls, behind those that have read `u`. -/
structure Forwards (u : Bytes) (s : Relay) : Prop where
  sent : (s.routing.sent ++ s.pending).Sublist u
  clear : (s.parser.getD .new).Clear

theorem Forwards.call {u : Bytes} (h : s.Forwards u) (hcall : s.call c = .ok s') :
    s'.Forwards (u ++ readBytes c) := by
  unfold Relay.call at hcall
  unfold readBytes
  split_ifs at hcall ⊢ with hc
  · obtain ⟨⟨b, p'⟩, hread, hcall⟩ := Run.bind_ok hcall
    obtain rfl := Except.ok.inj hcall
    have hdelivered := ESIParser.read_delivered h.clear hread
    obtain ⟨-, hclear, -⟩ := ESIParser.read_kept h.clear hread
    obtain ⟨v, hv, hsub⟩ := foldl_handle_sent
      (p'.out.callbacks.drop (s.parser.getD .new).out.callbacks.length) s.enter
    have hsent : (s.routing.sent ++ v ++ p'.pending).Sublist (u ++ inputBytes c.2) := by
      have hread' := ((hsub.append_right p'.pending).trans hdelivered).append_left s.routing.sent
      have hbefore := h.sent.append_right (inputBytes c.2)
      rw [pending, List.append_assoc] at hbefore
      rw [List.append_assoc]
      exact hread'.trans hbefore
    refine ⟨?_, ?_⟩
    · dsimp only [pending]
      rw [hv]
      cases b with
      | true =>
        -- the parser is freed
        refine List.Sublist.trans ?_ hsent
        exact List.Sublist.append_left (List.nil_sublist _) _
      | false => exact hsent
    · cases b with
      | true => exact ESIParser.clear_new
      | false => exact hclear
  · obtain rfl := Except.ok.inj hcall
    rwa [List.append_nil]

end Relay

namespace Ctx

/-- After any number of calls without a fault, the bytes in the output chain are a subsequence of
those that the calls have read. -/
theorem bytes_sublist (stack : ℕ → NgxStr) (calls : List (Bool × List Buf)) (ctx : Ctx)
    (hrun : calls.foldlM (call stack) new = .ok ctx) :
    ctx.bytes.Sublist (calls.flatMap Relay.readBytes) := by
  obtain ⟨s, q, hrelay, hrelays⟩ := relays_run hrun
  have hforwards : s.Forwards (calls.flatMap Relay.readBytes) := by
    refine Run.invariant (I := fun done s => s.Forwards (done.flatMap Relay.readBytes)) ?_
      (u := []) ⟨List.Sublist.refl _, ESIParser.clear_new⟩ hrelay
    intro done s c s' h hcall
    rw [List.flatMap_append, List.flatMap_singleton]
    exact h.call hcall
  rw [hrelays.routes.holds.bytes_eq]
  exact (List.sublist_append_left _ _).trans hforwards.sent

/-- A `remove` element between two texts, in two input buffers. -/
theorem bytes_sublist_remove :
    let calls := [(false, [Buf.mk (97 :: bareElement .esiRemove [98]) false, Buf.mk [99] true])]
    ∃ ctx, calls.foldlM (call fun _ => ⟨0, none⟩) new = .ok ctx ∧ ctx.bytes = [97, 99] ∧
      ctx.bytes.Sublist (calls.flatMap Relay.readBytes) := by
  intro calls
  have hrun : (calls.foldlM (call fun _ => ⟨0, none⟩) new).map bytes = .ok [97, 99] := by
    decide +kernel
  obtain ⟨ctx, hctx, hbytes⟩ := Run.map_ok hrun
  exact ⟨ctx, hctx, hbytes, bytes_sublist _ _ ctx hctx⟩

end Ctx

end NginxEsi
