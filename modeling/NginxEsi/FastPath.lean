import NginxEsi.Overflow

/-!
# The fast path and the machine

A call in state 0 whose scan finds no start of a tag echoes its chunk.  The machine would have put
out the same and would have come back to state 0, and the scan misses neither a delimiter nor a
prefix of one at the end of the chunk (`fastPath_agrees`).
-/

namespace NginxEsi

theorem foldl_delimiters : ∀ q : State, q.textual = true →
    (tagOpen.foldl State.next q).textual = false ∧ (tagClose.foldl State.next q).textual = false := by
  decide +kernel

/-- A text that keeps the machine in its textual states has no delimiter in it. -/
theorem tagFree_of_along {u : Bytes} {q : State} (hend : (u.foldl State.next q).textual = true)
    (h : Run.Along State.next (fun q _ => q.textual = true) q u) : TagFree u := by
  have hat : ∀ x y, u = x ++ y → (x.foldl State.next q).textual = true := by
    rintro x (_ | ⟨b, y⟩) rfl
    · rwa [List.append_nil] at hend
    · exact h x b y rfl
  have hno : ∀ w, (∀ q : State, q.textual = true → (w.foldl State.next q).textual = false) →
      ¬ w <:+: u := by
    rintro w hw ⟨x, y, rfl⟩
    have hfalse := hw _ (hat x (w ++ y) (List.append_assoc x w y))
    rw [← List.foldl_append, hat (x ++ w) y rfl] at hfalse
    cases hfalse
  exact ⟨hno _ fun q hq => (foldl_delimiters q hq).1, hno _ fun q hq => (foldl_delimiters q hq).2⟩

/-- A chunk in which the scan finds nothing. -/
theorem scanForStart_complete {chunk : Bytes} (hlen : chunk.length < 2 ^ 31)
    (hscan : scanForStart chunk = -1) : TagFree chunk ∧ ¬ Pending chunk := by
  obtain ⟨hzero, halong⟩ := scanForStart_text hlen hscan
  have hrest : (chunk.foldl State.next .s0).rest = true := by rw [hzero]; rfl
  have hfree := tagFree_of_along (State.rest_textual hrest) (halong.mono fun q b hq => hq.1)
  exact ⟨hfree, (rest_iff_not_pending rfl hfree).1 hrest⟩

namespace ESIParser

/-- `esi_parser_execute` behind its fast path. -/
def executeMachine (parser : ESIParser) (chunk : Bytes) : Except Stop ESIParser := do
  let (parser, data, p) := parser.enter chunk
  return (← exec data (data.drop p) p parser).leave data

/-- A call takes the fast path or runs the machine. -/
theorem execute_eq (c : ESIParser) (chunk : Bytes) : c.execute chunk =
    if chunk = [] then .ok c
    else if c.TakesFastPath chunk then .ok ((intPart chunk).foldl echoChar c)
    else c.executeMachine chunk :=
  rfl

/-- A parser in state 0 shares its fields with a scanner. -/
theorem Saved.same {c : ESIParser} (h : Saved c) (hcs : c.cs = .s0) :
    Same c { cs := .s0, out := c.out, attributes := c.attributes } where
  cs := hcs
  prevState := h.prevState.trans hcs
  echobuffer := h.held_eq (by rw [hcs]; rfl)
  out := rfl
  attributes := rfl

/-- The machine over a chunk that the scan takes for text. -/
theorem Saved.executeMachine_text {c : ESIParser} {chunk : Bytes} (h : Saved c) (hcs : c.cs = .s0)
    (hlen : chunk.length < 2 ^ 31) (hscan : scanForStart chunk = -1) :
    ∃ c', c.executeMachine chunk = .ok c' ∧ c'.out = chunk.foldl Output.echoChar c.out ∧
      c'.cs = .s0 ∧ c'.prevState = .s0 ∧ c'.echobuffer = [] ∧ c'.overflowData = none := by
  obtain ⟨hzero, halong⟩ := scanForStart_text hlen hscan
  obtain ⟨hfree, hp⟩ := scanForStart_complete hlen hscan
  have hover : c.overflowData = none := h.overflowData.2 (by rw [hcs]; rfl)
  obtain ⟨m, henter, hbare, ho⟩ := enter_eq h.ne_nil chunk
  rw [hover] at henter ho
  have hm : Same m _ := (h.same hcs).of_bare (congrArg core hbare)
  obtain ⟨m', s', hm', hs', hsame⟩ := exec_marking ([] ++ chunk) 0 hm (halong.mono fun q b hq => hq.2)
  obtain ⟨s₁, hs₁, -, hheld, hout, -⟩ := Scanner.feedAll_text
    (s := { cs := .s0, out := c.out, attributes := c.attributes }) rfl rfl hfree hp
  obtain rfl : s' = s₁ := Except.ok.inj (hs'.symm.trans hs₁)
  have hcs' : m'.cs = .s0 := by
    rw [(exec_cs hm' (hm.prevState.trans hm.cs.symm)).1, hm.cs]
    exact hzero
  refine ⟨m'.leave ([] ++ chunk), ?_, ?_, ?_, ?_, ?_, ?_⟩
  · rw [executeMachine, henter]
    exact congrArg (· >>= fun m' => .ok (m'.leave ([] ++ chunk))) hm'
  · rw [leave_out, hsame.out, hout]
  · rw [leave_cs, hcs']
  · rw [leave_prevState, hsame.prevState, ← hsame.cs, hcs']
  · rw [leave_echobuffer, hsame.echobuffer, hheld]
  · rw [leave, if_neg fun hne => hne.2 hcs']

/-- In state 0 the machine does with the chunk what the fast path does, and the scan misses no
start of a tag. -/
theorem fastPath_agrees (chunks : List Bytes) (c : ESIParser) (h : new.executeAll chunks = .ok c)
    (hcs : c.cs = .s0) (chunk : Bytes) (hlen : chunk.length < 2 ^ 31) :
    (scanForStart chunk = -1 → ∃ c', c.executeMachine chunk = .ok c' ∧
      c'.out = ((intPart chunk).foldl echoChar c).out ∧
      tagCalls c'.out.callbacks = tagCalls c.out.callbacks ∧
      c'.cs = .s0 ∧ c'.prevState = .s0 ∧ c'.echobuffer = [] ∧ c'.overflowData = none) ∧
    (tagOpen <:+: chunk ∨ tagClose <:+: chunk ∨ Pending chunk → scanForStart chunk ≠ -1) := by
  constructor
  · intro hscan
    obtain ⟨c', hc', hout, hrest⟩ := (executeAll_saved h).executeMachine_text hcs hlen hscan
    refine ⟨c', hc', ?_, ?_, hrest⟩
    · rw [hout, echoChar_out, intPart_of_lt hlen]
    · rw [hout, Output.foldl_echoChar_tagCalls]
  · intro hstart hscan
    obtain ⟨hfree, hpending⟩ := scanForStart_complete hlen hscan
    rcases hstart with hopen | hclose | hp
    · exact hfree.1 hopen
    · exact hfree.2 hclose
    · exact hpending hp

/-- The chunk `b` behind the chunk `a`. -/
theorem fastPath_agrees_text : ∃ c, new.executeAll [[97]] = .ok c ∧
    (scanForStart [98] = -1 → ∃ c', c.executeMachine [98] = .ok c' ∧
      c'.out = ((intPart [98]).foldl echoChar c).out ∧
      tagCalls c'.out.callbacks = tagCalls c.out.callbacks ∧
      c'.cs = .s0 ∧ c'.prevState = .s0 ∧ c'.echobuffer = [] ∧ c'.overflowData = none) ∧
    (tagOpen <:+: [98] ∨ tagClose <:+: [98] ∨ Pending [98] → scanForStart [98] ≠ -1) :=
  ⟨_, rfl, fastPath_agrees [[97]] _ rfl rfl [98] (by decide)⟩

end ESIParser

end NginxEsi
