import NginxEsi.Refinement
import NginxEsi.Text

/-!
# What an action leaves alone

No action touches the overflow data, the state or the capacity of the echo buffer; the echo
buffer is kept or cleared, and the output changes by tag callbacks, each followed by a flush.
-/

namespace NginxEsi

/-- Tag callbacks, made one after another behind a flush. -/
def Output.tags (o : Output) : List Callback → Output
  | [] => o
  | t :: ts => ts.foldl (fun o t => (o.call t).flush) (o.flush.call t).flush

/-- Tag callbacks send no bytes. -/
theorem Output.tags_sent {o : Output} {ts : List Callback} (h : ∀ t ∈ ts, t.isTag = true) :
    (o.tags ts).sent = o.sent := by
  cases ts with
  | nil => rfl
  | cons t ts =>
    obtain ⟨ht, hts⟩ := List.forall_mem_cons.1 h
    have hfirst : (o.flush.call t).flush.sent = o.sent := by
      rw [flush_sent, call_sent _ ht, flush_sent]
    rw [tags, ← hfirst]
    clear hfirst h
    generalize (o.flush.call t).flush = o'
    induction ts generalizing o' with
    | nil => rfl
    | cons t' ts ih =>
      obtain ⟨ht', hts⟩ := List.forall_mem_cons.1 hts
      rw [List.foldl_cons, ih hts, flush_sent, call_sent _ ht']

/-- The tag callbacks that a list makes behind the given attributes. -/
def ActionList.Calls (attributes : List ESIAttribute) (f : ActionList) (ts : List Callback) : Prop :=
  match f with
  | .f2 => ∃ n, ts = [.endTag n]
  | .f4 => ∃ n, ts = [.startTag n []]
  | .f5 => ∃ n, ts = [.startTag n attributes]
  | .f8 => ∃ n, ts = [.startTag n attributes, .endTag n]
  | _ => ts = []

theorem ActionList.Calls.eq_nil_iff {attributes : List ESIAttribute} {f : ActionList}
    {ts : List Callback} (h : f.Calls attributes ts) : ts = [] ↔ f.silent = true := by
  cases f
  case f2 | f4 | f5 | f8 =>
    obtain ⟨n, rfl⟩ := h
    exact ⟨fun h => (by cases h), fun h => (by cases h)⟩
  all_goals exact ⟨fun _ => rfl, fun _ => h⟩

/-- Tag callbacks behind a flush. -/
theorem Output.tags_tagCalls {o : Output} {ts : List Callback} (h : ∀ t ∈ ts, t.isTag = true) :
    tagCalls (o.tags ts).callbacks = tagCalls o.callbacks ++ ts := by
  have hfold : ∀ (ts : List Callback) (o : Output), (∀ t ∈ ts, t.isTag = true) →
      tagCalls (ts.foldl (fun o t => (o.call t).flush) o).callbacks = tagCalls o.callbacks ++ ts := by
    intro ts
    induction ts with
    | nil => exact fun o _ => (List.append_nil _).symm
    | cons t ts ih =>
      intro o h
      obtain ⟨ht, hts⟩ := List.forall_mem_cons.1 h
      rw [List.foldl_cons, ih _ hts, call_flush_tagCalls o ht, List.append_assoc,
        List.singleton_append]
  cases ts with
  | nil => exact (List.append_nil _).symm
  | cons t ts =>
    obtain ⟨ht, hts⟩ := List.forall_mem_cons.1 h
    rw [tags, hfold ts _ hts, call_flush_tagCalls _ ht, flush_tagCalls, List.append_assoc,
      List.singleton_append]

namespace ESIParser

/-- What the actions other than `echo` keep. -/
structure Frame (ts : List Callback) (c c' : ESIParser) : Prop where
  cs : c'.cs = c.cs
  prevState : c'.prevState = c.prevState
  overflowData : c'.overflowData = c.overflowData
  echobufferAllocated : c'.echobufferAllocated = c.echobufferAllocated
  echobufferSize : c'.echobufferSize = c.echobufferSize
  accesses : c'.accesses = c.accesses
  echobuffer : c'.echobuffer = if ts = [] then c.echobuffer else []
  out : c'.out = c.out.tags ts
  isTag : ∀ t ∈ ts, t.isTag = true

variable {data : Bytes} {p : ℕ} {ch : UInt8} {c c' : ESIParser}

theorem seeStartTag_frame (h : c.seeStartTag p = .ok c') : Frame [] c c' := by
  obtain ⟨length, -, h⟩ := Run.bind_ok h
  cases h
  exact ⟨rfl, rfl, rfl, rfl, rfl, rfl, rfl, rfl, by simp⟩

theorem seeAttributeKey_frame (h : c.seeAttributeKey data p = .ok c') : Frame [] c c' := by
  obtain ⟨length, -, h⟩ := Run.bind_ok h
  obtain ⟨⟨attrKey, len⟩, -, h⟩ := Run.bind_ok h
  cases h
  exact ⟨rfl, rfl, rfl, rfl, rfl, rfl, rfl, rfl, by simp⟩

theorem seeAttributeValue_frame (h : c.seeAttributeValue data p = .ok c') : Frame [] c c' := by
  obtain ⟨length, -, h⟩ := Run.bind_ok h
  obtain ⟨⟨attrValue, len⟩, -, h⟩ := Run.bind_ok h
  obtain ⟨name, -, h⟩ := Run.bind_ok h
  obtain ⟨value, -, h⟩ := Run.bind_ok h
  cases h
  exact ⟨rfl, rfl, rfl, rfl, rfl, rfl, rfl, rfl, by simp⟩

theorem completeTag_frame {withEnd : Bool} (h : c.completeTag data p withEnd = .ok c') :
    ∃ name, Frame (.startTag name c.attributes :: if withEnd then [.endTag name] else []) c c' := by
  obtain ⟨⟨tagText, len⟩, -, h⟩ := Run.bind_ok h
  obtain ⟨name, -, h⟩ := Run.bind_ok h
  refine ⟨name, ?_⟩
  have h := (Except.ok.inj h).symm
  dsimp only [report, flushOutput, echobufferClear] at h
  cases withEnd with
  | false =>
    rw [if_neg (by decide)] at h ⊢
    subst h
    exact ⟨rfl, rfl, rfl, rfl, rfl, rfl, rfl, rfl, by simp [Callback.isTag]⟩
  | true =>
    rw [if_pos rfl] at h ⊢
    subst h
    exact ⟨rfl, rfl, rfl, rfl, rfl, rfl, rfl, rfl, by simp [Callback.isTag]⟩

theorem takeName_ok {skip : ℕ} {name : Bytes} (h : c.takeName data p skip = .ok (name, c')) :
    ∃ tagText len, c' = { c.flushOutput with
      tagText := tagText, tagTextLength := len, mark := .at p } := by
  obtain ⟨length, -, h⟩ := Run.bind_ok h
  obtain ⟨⟨tagText, len⟩, -, h⟩ := Run.bind_ok h
  obtain ⟨name', -, h⟩ := Run.bind_ok h
  cases h
  exact ⟨tagText, len, rfl⟩

theorem blockStartTag_frame (h : c.blockStartTag data p = .ok c') :
    ∃ name, Frame [.startTag name []] c c' := by
  obtain ⟨⟨name, m⟩, hm, h⟩ := Run.bind_ok h
  obtain ⟨tagText, len, rfl⟩ := takeName_ok hm
  cases h
  exact ⟨name, rfl, rfl, rfl, rfl, rfl, rfl, rfl, rfl, by simp [Callback.isTag]⟩

theorem blockEndTag_frame (h : c.blockEndTag data p = .ok c') :
    ∃ name, Frame [.endTag name] c c' := by
  obtain ⟨⟨name, m⟩, hm, h⟩ := Run.bind_ok h
  obtain ⟨tagText, len, rfl⟩ := takeName_ok hm
  cases h
  exact ⟨name, rfl, rfl, rfl, rfl, rfl, rfl, rfl, rfl, by simp [Callback.isTag]⟩

/-- The action of a list. -/
theorem act_frame (f : ActionList) (h : c.act data p ch (Scanner.main f) = .ok c') :
    ∃ ts, Frame ts c c' ∧ f.Calls c.attributes ts := by
  cases f with
  | f0 | f10 | f1 | f12 =>
    cases h
    exact ⟨[], ⟨rfl, rfl, rfl, rfl, rfl, rfl, rfl, rfl, by simp⟩, rfl⟩
  | f3 => exact ⟨[], seeStartTag_frame h, rfl⟩
  | f6 => exact ⟨[], seeAttributeKey_frame h, rfl⟩
  | f7 | f11 => exact ⟨[], seeAttributeValue_frame h, rfl⟩
  | f2 =>
    obtain ⟨name, h⟩ := blockEndTag_frame h
    exact ⟨_, h, name, rfl⟩
  | f4 =>
    obtain ⟨name, h⟩ := blockStartTag_frame h
    exact ⟨_, h, name, rfl⟩
  | f5 | f8 =>
    obtain ⟨name, h⟩ := completeTag_frame h
    exact ⟨_, h, name, rfl⟩

/-- A turn of the machine is the echo and then an action. -/
theorem step_calls (h : c.step data p ch = .ok c') :
    ∃ ts, Frame ts ({ c with cs := c.cs.next ch }.echo ch) c' ∧
      (c.cs.list ch).Calls c.attributes ts := by
  rw [step_eq] at h
  obtain ⟨ts, hframe, hcalls⟩ := act_frame _ h
  rw [echo_attributes] at hcalls
  exact ⟨ts, hframe, hcalls⟩

/-- Only a silent list makes no callback. -/
theorem step_frame (h : c.step data p ch = .ok c') :
    ∃ ts, Frame ts ({ c with cs := c.cs.next ch }.echo ch) c' ∧
      (ts = [] ↔ (c.cs.list ch).silent = true) := by
  obtain ⟨ts, hframe, hcalls⟩ := step_calls h
  exact ⟨ts, hframe, hcalls.eq_nil_iff⟩

theorem step_cs (h : c.step data p ch = .ok c') :
    c'.cs = c.cs.next ch ∧ c'.prevState = c'.cs := by
  obtain ⟨ts, hframe, -⟩ := step_frame h
  refine ⟨?_, ?_⟩
  · rw [hframe.cs, echo_cs]
  · rw [hframe.prevState, hframe.cs, echo_prevState, echo_cs]

/-- What every turn preserves, the machine preserves over a buffer. -/
theorem exec_invariant {I : ESIParser → Prop} {data : Bytes}
    (hstep : ∀ p ch c c', I c → c.step data p ch = .ok c' → I c') :
    ∀ {rest : Bytes} {p : ℕ} {c c' : ESIParser}, I c → c.exec data rest p = .ok c' → I c'
  | [], _, c, c', hI, h => by
    cases h
    exact hI
  | ch :: rest, p, c, c', hI, h => by
    obtain ⟨m, hm, h⟩ := Run.bind_ok h
    exact exec_invariant hstep (hstep p ch c m hI hm) h

theorem exec_overflowData {rest : Bytes} (h : c.exec data rest p = .ok c') :
    c'.overflowData = c.overflowData := by
  refine exec_invariant (I := fun m => m.overflowData = c.overflowData) ?_ rfl h
  intro p ch m m' hm hstep
  obtain ⟨ts, hframe, -⟩ := step_frame hstep
  rw [hframe.overflowData, echo_overflowData]
  exact hm

/-! ## A call -/

/-- The parser without its pointers and the overflow data. -/
def bare (c : ESIParser) : ESIParser := { c.mapPtr fun _ => .null with overflowData := none }

theorem initMark_bare (p : ℕ) (c : ESIParser) : (c.initMark p).bare = c.bare := by
  unfold initMark
  split_ifs <;> rfl

theorem bare_cs {m : ESIParser} (h : m.bare = c.bare) : m.cs = c.cs := by
  have h' := congrArg ESIParser.cs h
  exact h'

theorem bare_prevState {m : ESIParser} (h : m.bare = c.bare) : m.prevState = c.prevState := by
  have h' := congrArg ESIParser.prevState h
  exact h'

theorem bare_echobuffer {m : ESIParser} (h : m.bare = c.bare) : m.echobuffer = c.echobuffer := by
  have h' := congrArg ESIParser.echobuffer h
  exact h'

theorem bare_out {m : ESIParser} (h : m.bare = c.bare) : m.out = c.out := by
  have h' := congrArg ESIParser.out h
  exact h'

/-- The buffer that a call scans ends in the chunk. -/
theorem enter_bare (c : ESIParser) (chunk : Bytes) :
    ∃ m u, c.enter chunk = (m, u ++ chunk, u.length) ∧ m.bare = c.bare := by
  rcases ho : c.overflowData with _ | (_ | ⟨b, old⟩)
  · exact ⟨c.initMark 0, [], by rw [enter, ho]; rfl, initMark_bare 0 c⟩
  · exact ⟨c.initMark 0, [], by rw [enter, ho]; rfl, initMark_bare 0 c⟩
  · have hbare := initMark_bare (b :: old).length
      { c.mapPtr .rebase with overflowData := some (b :: old ++ chunk) }
    refine ⟨_, b :: old, ?_, hbare⟩
    rw [enter, ho]

theorem leave_bare (c : ESIParser) (data : Bytes) : (c.leave data).core.bare = c.core.bare := by
  unfold leave
  split_ifs
  all_goals first
    | rfl
    | cases c.overflowData <;> rfl

section leave

variable (c : ESIParser) (data : Bytes)

theorem leave_cs : (c.leave data).cs = c.cs := by
  have h := bare_cs (leave_bare c data)
  exact h

theorem leave_prevState : (c.leave data).prevState = c.prevState := by
  have h := bare_prevState (leave_bare c data)
  exact h

theorem leave_echobuffer : (c.leave data).echobuffer = c.echobuffer := by
  have h := bare_echobuffer (leave_bare c data)
  exact h

theorem leave_out : (c.leave data).out = c.out := by
  have h := bare_out (leave_bare c data)
  exact h

end leave

/-- The three ways through a call. -/
theorem execute_cases {chunk : Bytes} (h : c.execute chunk = .ok c') :
    (chunk = [] ∧ c' = c) ∨
      (c.TakesFastPath chunk ∧ c' = (intPart chunk).foldl echoChar c) ∨
      ∃ m u m', chunk ≠ [] ∧ ¬ c.TakesFastPath chunk ∧ c.enter chunk = (m, u ++ chunk, u.length) ∧
        m.bare = c.bare ∧ m.exec (u ++ chunk) chunk u.length = .ok m' ∧
        c' = m'.leave (u ++ chunk) := by
  unfold execute at h
  split_ifs at h with hne hfast
  · exact .inl ⟨hne, (Except.ok.inj h).symm⟩
  · exact .inr (.inl ⟨hfast, (Except.ok.inj h).symm⟩)
  · obtain ⟨m, u, henter, hbare⟩ := enter_bare c chunk
    rw [henter] at h
    obtain ⟨m', hm', h⟩ := Run.bind_ok h
    rw [List.drop_left] at hm'
    exact .inr (.inr ⟨m, u, m', hne, hfast, henter, hbare, hm', (Except.ok.inj h).symm⟩)

end ESIParser

/-- A parser without its pointers shares as much with the scanner. -/
theorem Same.of_bare {c c' : ESIParser} {s : Scanner} (h : Same c s)
    (hbare : c'.core.bare = c.core.bare) : Same c' s := by
  have h' : Same c'.core.bare s := by
    rw [hbare]
    exact ⟨h.1, h.2, h.3, h.4, h.5⟩
  exact ⟨h'.1, h'.2, h'.3, h'.4, h'.5⟩

end NginxEsi
