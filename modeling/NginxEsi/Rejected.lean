import NginxEsi.TagFree

/-!
# Rejected candidates

A candidate `<esi:...` or `</esi:...` that turns out to be no tag is released by the echo, unless
the machine stands right behind the letters of its name: `action echo` takes the states 7 and 12
for the end of a tag and discards the held bytes when the next byte rejects the candidate.
-/

namespace NginxEsi

/-! ## Callbacks only accumulate -/

namespace Output

theorem callbacks_flush (o : Output) : o.callbacks <+: o.flush.callbacks := by
  unfold flush
  split_ifs
  · exact List.prefix_append _ _
  · exact List.prefix_rfl

theorem callbacks_echoChar (o : Output) (b : UInt8) : o.callbacks <+: (o.echoChar b).callbacks := by
  unfold echoChar
  dsimp only
  split_ifs
  · exact callbacks_flush { o with buffer := o.buffer ++ [b] }
  · exact List.prefix_rfl

theorem callbacks_foldl_echoChar (u : Bytes) (o : Output) :
    o.callbacks <+: (u.foldl echoChar o).callbacks := by
  induction u generalizing o with
  | nil => exact List.prefix_rfl
  | cons b u ih => exact (callbacks_echoChar o b).trans (ih _)

theorem callbacks_call (o : Output) (t : Callback) :
    o.callbacks ++ [t] <+: (o.call t).flush.callbacks :=
  callbacks_flush (o.call t)

theorem callbacks_foldl_call (ts : List Callback) (o : Output) :
    o.callbacks <+: (ts.foldl (fun o t => (o.call t).flush) o).callbacks := by
  induction ts generalizing o with
  | nil => exact List.prefix_rfl
  | cons t ts ih => exact ((List.prefix_append _ _).trans (callbacks_call o t)).trans (ih _)

theorem callbacks_tags (o : Output) (ts : List Callback) :
    o.callbacks <+: (o.tags ts).callbacks := by
  cases ts with
  | nil => exact List.prefix_rfl
  | cons t ts =>
    exact (callbacks_flush o).trans (((List.prefix_append _ _).trans (callbacks_call _ t)).trans
      (callbacks_foldl_call ts _))

/-- The first of the tag callbacks is there to stay. -/
theorem mem_callbacks_tags (o : Output) (t : Callback) (ts : List Callback) :
    t ∈ (o.tags (t :: ts)).callbacks :=
  ((callbacks_call o.flush t).trans (callbacks_foldl_call ts _)).subset (by simp)

end Output

namespace ESIParser

variable {data : Bytes} {p : ℕ} {ch : UInt8} {c c' : ESIParser}

theorem callbacks_echo (c : ESIParser) (ch : UInt8) :
    c.out.callbacks <+: (c.echo ch).out.callbacks := by
  rw [echo_out]
  split_ifs
  · exact Output.callbacks_foldl_echoChar _ _
  · exact List.prefix_rfl

theorem step_callbacks (h : c.step data p ch = .ok c') : c.out.callbacks <+: c'.out.callbacks := by
  obtain ⟨ts, hframe, -⟩ := step_frame h
  rw [hframe.out]
  exact (callbacks_echo { c with cs := c.cs.next ch } ch).trans (Output.callbacks_tags _ ts)

theorem exec_callbacks : ∀ {rest : Bytes} {p : ℕ} {c c' : ESIParser},
    c.exec data rest p = .ok c' → c.out.callbacks <+: c'.out.callbacks
  | [], _, c, c', h => by
    cases h
    exact List.prefix_rfl
  | ch :: rest, p, c, c', h => by
    obtain ⟨m, hm, h⟩ := Run.bind_ok h
    exact (step_callbacks hm).trans (exec_callbacks h)

/-- A run without a tag callback runs silent action lists only. -/
theorem exec_silent : ∀ {rest : Bytes} {p : ℕ} {c c' : ESIParser}, c.exec data rest p = .ok c' →
    (∀ t ∈ c'.out.callbacks, t.isTag = false) →
    Run.Along State.next (fun q b => (q.list b).silent = true) c.cs rest
  | [], _, c, c', _, _ => Run.along_nil _
  | ch :: rest, p, c, c', h, htag => by
    obtain ⟨m, hm, h⟩ := Run.bind_ok h
    refine Run.along_cons.2 ⟨?_, (step_cs hm).1 ▸ exec_silent h htag⟩
    obtain ⟨ts, hframe, hts⟩ := step_frame hm
    apply hts.1
    cases ts with
    | nil => rfl
    | cons t ts =>
      exfalso
      have hmem : t ∈ m.out.callbacks := by
        rw [hframe.out]
        exact Output.mem_callbacks_tags _ t ts
      have hfalse := htag t ((exec_callbacks h).subset hmem)
      rw [hframe.isTag t List.mem_cons_self] at hfalse
      cases hfalse

/-! ## Discarded bytes are missing -/

theorem step_discards (hprev : c.prevState = c.cs) (hdisc : c.cs.Discards ch)
    (h : c.step data p ch = .ok c') : c'.weight ≤ c.weight := by
  obtain ⟨ts, hframe, -⟩ := step_frame h
  apply hframe.weight_le.trans
  rw [weight, weight, echo_out, echo_echobuffer]
  dsimp only
  have hne : ¬ (c.cs.next ch = .s0 ∧ c.prevState ≠ .s12 ∧ c.prevState ≠ .s7) := by
    rw [hprev]
    rintro ⟨-, h12, h7⟩
    exact hdisc.2.elim h7 h12
  rw [if_pos hdisc.1, if_neg hne, List.length_nil]
  omega

theorem exec_append {l₁ l₂ : Bytes} (h : c.exec data (l₁ ++ l₂) p = .ok c') :
    ∃ m, c.exec data l₁ p = .ok m ∧ m.exec data l₂ (p + l₁.length) = .ok c' := by
  induction l₁ generalizing p c with
  | nil => exact ⟨c, rfl, h⟩
  | cons ch l₁ ih =>
    obtain ⟨m, hm, h⟩ := Run.bind_ok h
    obtain ⟨m', hm', h⟩ := ih h
    refine ⟨m', ?_, ?_⟩
    · rw [exec, hm]
      exact hm'
    · rwa [List.length_cons, Nat.add_comm l₁.length, ← Nat.add_assoc]

theorem exec_cs : ∀ {rest : Bytes} {p : ℕ} {c c' : ESIParser}, c.exec data rest p = .ok c' →
    c.prevState = c.cs → c'.cs = rest.foldl State.next c.cs ∧ c'.prevState = c'.cs
  | [], _, c, c', h, hprev => by
    cases h
    exact ⟨rfl, hprev⟩
  | ch :: rest, p, c, c', h, hprev => by
    obtain ⟨m, hm, h⟩ := Run.bind_ok h
    obtain ⟨hcs, hprev'⟩ := step_cs hm
    rw [List.foldl_cons, ← hcs]
    exact exec_cs h hprev'

/-- The states of the machine in a call. -/
theorem exec_cs_of_bare {m m' : ESIParser} {rest : Bytes} (hprev : c.prevState = c.cs)
    (hbare : m.bare = c.bare) (h : m.exec data rest p = .ok m') :
    m'.cs = rest.foldl State.next c.cs ∧ m'.prevState = m'.cs := by
  have hm : m.prevState = m.cs := by rw [bare_prevState hbare, bare_cs hbare, hprev]
  have hcs := exec_cs h hm
  rwa [bare_cs hbare] at hcs

/-- One call on a fresh parser. -/
theorem parse_single {doc : Bytes} (h : parse [doc] = .ok c) (hne : doc ≠ []) :
    ∃ m, (new.initMark 0).exec doc doc 0 = .ok m ∧ c = (m.leave doc).finish := by
  obtain ⟨c₁, hc₁, h⟩ := Run.bind_ok h
  obtain ⟨c₂, hc₂, hc₁⟩ := Run.cons_ok.1 hc₁
  obtain rfl := Except.ok.inj hc₁
  obtain rfl := Except.ok.inj h
  have hfast : ¬ new.TakesFastPath doc := fun hfast => by cases hfast.1
  rw [execute, if_neg hne, if_neg hfast] at hc₂
  obtain ⟨m, hm, hc₂⟩ := Run.bind_ok hc₂
  exact ⟨m, hm, by rw [← Except.ok.inj hc₂]; rfl⟩

theorem initial_linked : Linked none [] (new.initMark 0) {} :=
  ⟨Scanner.inv_new, initMark_same between_new.same 0, .of_idle rfl, rfl⟩

/-- The output of a call is what the machine has put out. -/
theorem leave_finish (m : ESIParser) (data : Bytes) :
    (m.leave data).finish.cs = m.cs ∧ (m.leave data).finish.out = m.out.flush := by
  refine ⟨?_, ?_⟩
  · exact leave_cs m data
  · exact congrArg Output.flush (leave_out m data)

/-- A document without a tag callback that ends in state 0 passes through exactly when no byte
rejects a candidate right behind its name. -/
theorem parse_rejected_iff (doc : Bytes) (c : ESIParser) (h : parse [doc] = .ok c)
    (htag : ∀ t ∈ c.out.callbacks, t.isTag = false) (hcs : c.cs = .s0) :
    delivered c.out.callbacks = doc ↔
      ∀ u b v, doc = u ++ b :: v → ¬ (u.foldl State.next esiStart).Discards b := by
  have hne : doc ≠ [] := by
    rintro rfl
    obtain rfl := Except.ok.inj h
    cases hcs
  obtain ⟨m, hm, rfl⟩ := parse_single h hne
  obtain ⟨hmcs, hmout⟩ := leave_finish m doc
  rw [hmout] at htag
  rw [hmcs] at hcs
  rw [hmout, Output.delivered_flush]
  constructor
  · rintro hd u b v rfl hdisc
    obtain ⟨m₁, hm₁, htail⟩ := exec_append hm
    obtain ⟨m₂, hm₂, htail⟩ := Run.bind_ok htail
    obtain ⟨hcs₁, hprev₁⟩ := exec_cs hm₁ rfl
    have h₁ := exec_weight_le hm₁
    have h₂ := step_discards hprev₁ (hcs₁ ▸ hdisc) hm₂
    have h₃ := exec_weight_le htail
    have hlen := congrArg List.length hd
    have hstart : (new.initMark 0).weight = 0 := rfl
    rw [List.length_append, List.length_cons] at hlen
    rw [weight] at h₃
    omega
  · intro hkeep
    have hsilent := exec_silent hm fun t ht => htag t ((Output.callbacks_flush m.out).subset ht)
    obtain ⟨s, hs, hscs, -, r, hr, hru⟩ := Scanner.feedAll_released (s := {}) (u := doc)
      fun u b v hd => ⟨hsilent u b v hd, hkeep u b v hd⟩
    have hagree := exec_agree [] doc initial_linked
    rw [List.append_nil, List.nil_append, show ([] : Bytes).length = 0 from rfl, hm, hs] at hagree
    cases hagree with
    | ok hlinked =>
      have hidle : s.cs.idle = true := by
        rw [← hlinked.same.cs, hcs]
        rfl
      rw [hlinked.inv.held_eq hidle, List.append_nil] at hru
      rw [hlinked.same.out, hr, Output.foldl_echoChar_sent, hru]
      rfl

/-- A candidate rejected at its first letter. -/
theorem parse_rejected_iff_letter :
    ∃ c, parse [[60, 101, 115, 105, 58, 33]] = .ok c ∧
      (delivered c.out.callbacks = [60, 101, 115, 105, 58, 33] ↔
        ∀ u b v, [60, 101, 115, 105, 58, 33] = u ++ b :: v →
          ¬ (u.foldl State.next esiStart).Discards b) :=
  ⟨_, rfl, parse_rejected_iff [60, 101, 115, 105, 58, 33] _ rfl (by decide) (by decide)⟩

/-- The document `<esi:a!` comes out empty. -/
theorem parse_loses_rejected : ¬ ∀ (doc : Bytes) (c : ESIParser), parse [doc] = .ok c →
    (∀ t ∈ c.out.callbacks, t.isTag = false) → c.cs = .s0 → delivered c.out.callbacks = doc := by
  intro h
  have hd := h [60, 101, 115, 105, 58, 97, 33] _ rfl (by decide) (by decide)
  revert hd
  decide

end ESIParser

end NginxEsi
