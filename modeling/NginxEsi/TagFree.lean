import NginxEsi.Room

/-!
# Documents without tags

A document without `<esi:` and `</esi:` keeps the machine in its textual states, where no pointer
is used, so the parser follows the scanner whatever becomes of its pointers.  After every call the
bytes delivered, the bytes in the output buffer and the held bytes are the bytes consumed.  Three
things keep a document from passing through: the fast path drops a chunk of 2 GiB or a part of it,
`esi_parser_finish` leaves the held bytes where they are, and a byte can be written past the echo
buffer.
-/

namespace NginxEsi

namespace ESIParser

/-! ## The machine on text -/

theorem step_marking (data : Bytes) (p : ℕ) {ch : UInt8} {c : ESIParser} {s : Scanner}
    (h : Same c s) (hmarking : (s.cs.list ch).marking = true) :
    ∃ c' s', c.step data p ch = .ok c' ∧ s.feed ch = .ok s' ∧ Same c' s' := by
  have hsame := h.enter (s.cs.next ch) ch
  rw [step_eq, Scanner.feed_eq, h.cs]
  unfold State.list State.next at *
  generalize (transition s.cs ch).goto = t at hmarking hsame ⊢
  obtain ⟨cs, f⟩ := t
  cases f with
  | f0 | f10 => exact ⟨_, _, rfl, rfl, hsame.1, hsame.2, hsame.3, hsame.4, hsame.5⟩
  | f1 | f12 => exact ⟨_, _, rfl, rfl, hsame.1, hsame.2, hsame.3, hsame.4, hsame.5⟩
  | _ => cases hmarking

theorem exec_marking (data : Bytes) {rest : Bytes} (p : ℕ) {c : ESIParser} {s : Scanner}
    (h : Same c s)
    (hmarking : Run.Along State.next (fun q b => (q.list b).marking = true) s.cs rest) :
    ∃ c' s', c.exec data rest p = .ok c' ∧ s.feedAll rest = .ok s' ∧ Same c' s' := by
  induction rest generalizing p c s with
  | nil => exact ⟨c, s, rfl, rfl, h⟩
  | cons ch rest ih =>
    obtain ⟨hch, hrest⟩ := Run.along_cons.1 hmarking
    obtain ⟨m, n, hm, hn, hsame⟩ := step_marking data p h hch
    obtain ⟨n', hn', hcs, -⟩ := Scanner.feed_silent (silent_of_marking hch)
    obtain rfl : n = n' := Except.ok.inj (hn.symm.trans hn')
    obtain ⟨c', s', hc', hs', hsame'⟩ := ih (p + 1) hsame (hcs ▸ hrest)
    refine ⟨c', s', ?_, Run.cons_ok.2 ⟨n, hn, hs'⟩, hsame'⟩
    rw [exec, hm]
    exact hc'

/-- What a parser and a scanner share while they read tag-free text. -/
structure ReadsText (v : Bytes) (c : ESIParser) (s : Scanner) : Prop where
  inv : s.Inv
  inText : s.InText v
  same : Same c s

theorem execute_text {c : ESIParser} {s : Scanner} {v chunk : Bytes} (h : ReadsText v c s)
    (hfree : TagFree (v ++ chunk)) (hkeeps : c.KeepsChunk chunk) :
    ∃ c' s', c.execute chunk = .ok c' ∧ s.feedAll chunk = .ok s' ∧
      ReadsText (v ++ chunk) c' s' := by
  obtain ⟨s', hs', hin, -⟩ := h.inText.feedAll hfree
  have hinv := h.inv.feedAll hs'
  unfold execute
  split_ifs with hne hfast
  · subst hne
    obtain rfl : s = s' := Except.ok.inj hs'
    exact ⟨c, s, rfl, rfl, hinv, hin, h.same⟩
  · obtain ⟨s₁, hs₁, -, hsame⟩ := fastPath_same h.inv h.same hfast (hkeeps hfast)
    obtain rfl : s₁ = s' := Except.ok.inj (hs₁.symm.trans hs')
    exact ⟨_, s₁, rfl, hs', hinv, hin, hsame⟩
  · obtain ⟨m, u, henter, hbare⟩ := enter_bare c chunk
    have hm : Same m s := h.same.of_bare (congrArg core hbare)
    obtain ⟨halong, -⟩ := along_tagFree h.inText.textual h.inText.ends hfree
    obtain ⟨c₁, s₁, hc₁, hs₁, hsame⟩ := exec_marking (u ++ chunk) u.length hm
      (halong.mono fun q b hq => hq.2)
    obtain rfl : s₁ = s' := Except.ok.inj (hs₁.symm.trans hs')
    refine ⟨c₁.leave (u ++ chunk), s₁, ?_, hs', hinv, hin,
      hsame.of_bare (leave_bare c₁ _)⟩
    simp only [henter, List.drop_left, hc₁, Bind.bind, Except.bind, pure, Except.pure]

theorem executeAll_text {c : ESIParser} {s : Scanner} {v : Bytes} {chunks : List Bytes}
    (h : ReadsText v c s) (hfree : TagFree (v ++ chunks.flatten))
    (hkeeps : Run.Each execute KeepsChunk c chunks) :
    ∃ c' s', c.executeAll chunks = .ok c' ∧ s.feedAll chunks.flatten = .ok s' ∧
      ReadsText (v ++ chunks.flatten) c' s' := by
  induction chunks generalizing c s v with
  | nil => exact ⟨c, s, rfl, rfl, by simpa using h⟩
  | cons chunk chunks ih =>
    rw [List.flatten_cons, ← List.append_assoc] at hfree
    obtain ⟨hchunk, hchunks⟩ := Run.each_cons.1 hkeeps
    obtain ⟨m, n, hm, hn, hmn⟩ := execute_text h hfree.left hchunk
    obtain ⟨c', s', hc', hs', h'⟩ := ih hmn hfree (hchunks m hm)
    refine ⟨c', s', Run.cons_ok.2 ⟨m, hm, hc'⟩, ?_, ?_⟩
    · rw [List.flatten_cons]
      exact Run.append_ok.2 ⟨n, hn, hs'⟩
    · rwa [List.flatten_cons, ← List.append_assoc]

/-! ## Accounting -/

/-- What a tag-free document leaves behind. -/
theorem executeAll_accounts {chunks : List Bytes} (hfree : TagFree chunks.flatten)
    (hkeeps : Run.Each execute KeepsChunk .new chunks) :
    ∃ c, new.executeAll chunks = .ok c ∧
      c.out.events = c.out.sent.map .byte ∧ c.out.sent ++ c.echobuffer = chunks.flatten ∧
      (c.echobuffer ≠ [] ↔ Pending chunks.flatten) := by
  have hstart : ReadsText [] new {} :=
    ⟨Scanner.inv_new, .of_rest rfl rfl, ⟨rfl, rfl, rfl, rfl, rfl⟩⟩
  obtain ⟨c, s, hc, hs, h⟩ := executeAll_text hstart hfree hkeeps
  obtain ⟨s', hs', hin, hcs, -, r, hr, hru⟩ :=
    hstart.inText.feedAll (u := chunks.flatten) hfree
  obtain rfl : s = s' := Except.ok.inj (hs.symm.trans hs')
  have hsent : c.out.sent = r := by
    rw [h.same.out, hr, Output.foldl_echoChar_sent]
    rfl
  have hevents : c.out.events = r.map .byte := by
    rw [h.same.out, hr, Output.foldl_echoChar_events]
    rfl
  refine ⟨c, hc, by rw [hevents, hsent], ?_, ?_⟩
  · rw [hsent, h.same.echobuffer, hru]
    rfl
  · rw [h.same.echobuffer, ne_eq, ← hin.held_eq, hcs,
      rest_iff_not_pending (show ({} : Scanner).cs.rest = true from rfl) hfree, not_not]

/-! ## Nothing is duplicated -/

/-- The bytes that the parser has sent or holds. -/
def weight (c : ESIParser) : ℕ := c.out.sent.length + c.echobuffer.length

theorem weight_echo (c : ESIParser) (ch : UInt8) : (c.echo ch).weight ≤ c.weight + 1 := by
  rw [weight, weight, echo_out, echo_echobuffer]
  by_cases h0 : c.cs = .s0
  · rw [if_pos h0, List.length_nil, Nat.add_zero]
    split_ifs
    · rw [Output.foldl_echoChar_sent, List.length_append, List.length_append, List.length_singleton]
      omega
    · omega
  · rw [if_neg h0, if_neg fun h => h0 h.1, List.length_append, List.length_singleton]
    omega

theorem Frame.weight_le {ts : List Callback} {c c' : ESIParser} (h : Frame ts c c') :
    c'.weight ≤ c.weight := by
  rw [weight, weight, h.out, Output.tags_sent h.isTag, h.echobuffer]
  split_ifs
  · exact le_rfl
  · rw [List.length_nil]
    omega

theorem exec_weight_le {data : Bytes} : ∀ {rest : Bytes} {p : ℕ} {c c' : ESIParser},
    c.exec data rest p = .ok c' → c'.weight ≤ c.weight + rest.length
  | [], _, c, c', h => by
    cases h
    exact le_rfl
  | ch :: rest, p, c, c', h => by
    obtain ⟨m, hm, h⟩ := Run.bind_ok h
    obtain ⟨ts, hframe, -⟩ := step_frame hm
    have hstep := hframe.weight_le.trans (weight_echo _ ch)
    have hc : ({ c with cs := c.cs.next ch } : ESIParser).weight = c.weight := rfl
    have hrest := exec_weight_le h
    rw [List.length_cons]
    omega

theorem foldl_echoChar_weight (u : Bytes) (c : ESIParser) :
    (u.foldl echoChar c).weight = c.weight + u.length := by
  rw [weight, weight, echoChar_out, echoChar_echobuffer, Output.foldl_echoChar_sent,
    List.length_append]
  omega

/-- A call sends and holds no more bytes than it is given. -/
theorem execute_weight_le {c c' : ESIParser} {chunk : Bytes} (h : c.execute chunk = .ok c') :
    c'.weight ≤ c.weight + chunk.length := by
  rcases execute_cases h with ⟨rfl, rfl⟩ | ⟨-, hc'⟩ | ⟨m, u, m', -, -, -, hbare, hm', rfl⟩
  · exact Nat.le_add_right _ _
  · rw [hc', foldl_echoChar_weight]
    exact Nat.add_le_add_left (List.length_take_le' _ _) _
  · have hexec := exec_weight_le hm'
    unfold weight at hexec ⊢
    rwa [leave_out, leave_echobuffer, ← bare_out hbare, ← bare_echobuffer hbare]

theorem executeAll_weight_le {c c' : ESIParser} {chunks : List Bytes}
    (h : c.executeAll chunks = .ok c') : c'.weight ≤ c.weight + chunks.flatten.length := by
  induction chunks generalizing c with
  | nil =>
    cases h
    exact le_rfl
  | cons chunk chunks ih =>
    obtain ⟨m, hm, h⟩ := Run.cons_ok.1 h
    have hchunk := execute_weight_le hm
    have hchunks := ih h
    rw [List.flatten_cons, List.length_append]
    omega

theorem toInt_lt {n : ℕ} (h : 2 ^ 31 ≤ n) : toInt n < n := by
  have hlt : toInt n < 2 ^ 31 := by
    have := Int.bmod_lt (x := n) (m := 2 ^ 32) (by decide)
    unfold toInt
    omega
  omega

/-- The fast path loses bytes of a chunk of 2 GiB or more. -/
theorem execute_weight_lt {c c' : ESIParser} {chunk : Bytes} (hfast : c.TakesFastPath chunk)
    (hlen : 2 ^ 31 ≤ chunk.length) (h : c.execute chunk = .ok c') :
    c'.weight < c.weight + chunk.length := by
  have hne : chunk ≠ [] := by
    rintro rfl
    rw [List.length_nil] at hlen
    omega
  rw [execute, if_neg hne, if_pos hfast] at h
  obtain rfl := Except.ok.inj h
  have hint := toInt_lt hlen
  rw [foldl_echoChar_weight, intPart, List.length_take]
  omega

/-! ## What comes out -/

/-- After every call of a run, the bytes delivered, the output buffer and the echo buffer are the
bytes consumed. -/
theorem executeAll_lossless (calls later : List Bytes) (hfree : TagFree (calls ++ later).flatten)
    (hkeeps : Run.Each execute KeepsChunk .new (calls ++ later)) :
    ∃ c, new.executeAll calls = .ok c ∧
      delivered c.out.callbacks ++ c.out.buffer ++ c.echobuffer = calls.flatten ∧
      (c.echobuffer ≠ [] → Pending calls.flatten) := by
  rw [List.flatten_append] at hfree
  obtain ⟨c, hc, -, hsum, hheld⟩ := executeAll_accounts hfree.left hkeeps.left
  exact ⟨c, hc, hsum, hheld.1⟩

theorem keepsChunk_of_length {chunks : List Bytes} (h : ∀ u ∈ chunks, u.length < 2 ^ 31)
    (c : ESIParser) : Run.Each execute KeepsChunk c chunks := by
  rintro l₁ a l₂ m rfl - -
  exact h a (by simp)

/-- A candidate spread over two calls. -/
theorem executeAll_lossless_split :
    ∃ c, new.executeAll [[97, 60], [101]] = .ok c ∧
      delivered c.out.callbacks ++ c.out.buffer ++ c.echobuffer = [[97, 60], [101]].flatten ∧
      (c.echobuffer ≠ [] → Pending [[97, 60], [101]].flatten) :=
  executeAll_lossless [[97, 60], [101]] [[98]] (by decide +kernel)
    (keepsChunk_of_length (by decide) _)

/-- In state 0 a chunk of 2 GiB is dropped as a whole. -/
theorem execute_drops {c : ESIParser} {chunk : Bytes} (hcs : c.cs = .s0)
    (hlen : chunk.length = 2 ^ 31) : c.execute chunk = .ok c := by
  have hint : intPart chunk = [] := by
    rw [intPart, hlen, show toInt (2 ^ 31) = -2147483648 by decide]
    exact List.take_zero
  have hfast : c.TakesFastPath chunk := by
    refine ⟨hcs, ?_⟩
    rw [scanForStart, hint, scanFrom]
    exact if_neg (by simp)
  have hne : chunk ≠ [] := by
    rintro rfl
    simp at hlen
  rw [execute, if_neg hne, if_pos hfast, hint, List.foldl_nil]

theorem exists_text_of_length (n : ℕ) : ∃ u : Bytes, u.length = n ∧ (60 : UInt8) ∉ u :=
  ⟨List.replicate n 97, List.length_replicate, fun h =>
    absurd (List.eq_of_mem_replicate h) (by decide)⟩

/-- A run over `a` and then 2 GiB of text loses all but the first byte. -/
theorem executeAll_lossy : ¬ ∀ calls later : List Bytes, TagFree (calls ++ later).flatten →
    ∃ c, new.executeAll calls = .ok c ∧
      delivered c.out.callbacks ++ c.out.buffer ++ c.echobuffer = calls.flatten ∧
      (c.echobuffer ≠ [] → Pending calls.flatten) := by
  intro h
  obtain ⟨big, hlen, hmem⟩ := exists_text_of_length (2 ^ 31)
  have hfree : TagFree ([[97], big] ++ []).flatten := by
    apply tagFree_of_not_mem
    simpa using hmem
  obtain ⟨c, hc, hsum, -⟩ := h [[97], big] [] hfree
  obtain ⟨m, hm, hc⟩ := Run.cons_ok.1 hc
  have hm' : (new.execute [97]).map (fun c => (c.cs, c.weight)) = .ok (.s0, 1) := by decide
  have hfields := Run.of_map_ok hm hm'
  obtain ⟨hcs, hweight⟩ := Prod.mk.inj hfields
  obtain ⟨m', hm'', hc⟩ := Run.cons_ok.1 hc
  rw [execute_drops hcs hlen] at hm''
  obtain rfl := Except.ok.inj hm''
  obtain rfl : m = c := Except.ok.inj hc
  have hlength := congrArg List.length hsum
  rw [weight, Output.sent, List.length_append] at hweight
  simp only [List.length_append, List.flatten_cons, List.flatten_nil, List.length_cons,
    List.length_nil, hlen] at hlength
  omega

/-- With growable buffers, a tag-free document passes through exactly when nothing is pending at its
end and the fast path cuts no chunk short. -/
theorem parse_text_iff (chunks : List Bytes) (hfree : TagFree chunks.flatten) :
    (∃ c, parse chunks = .ok c ∧ (∀ t ∈ c.out.callbacks, t.isTag = false) ∧
        delivered c.out.callbacks = chunks.flatten) ↔
      ¬ Pending chunks.flatten ∧ Run.Each execute KeepsChunk .new chunks := by
  constructor
  · rintro ⟨c, hc, -, hd⟩
    obtain ⟨m, hm, hc⟩ := Run.bind_ok hc
    obtain rfl := Except.ok.inj hc
    rw [finish, flushOutput, Output.delivered_flush] at hd
    have hkeeps : Run.Each execute KeepsChunk .new chunks := by
      rintro l₁ a l₂ n rfl hn hfast
      by_contra hlen
      -- from here on fewer bytes are sent and held than were consumed
      obtain ⟨n', hn', htail⟩ := Run.append_ok.1 hm
      obtain rfl : n = n' := Except.ok.inj (hn.symm.trans hn')
      obtain ⟨k, hk, htail⟩ := Run.cons_ok.1 htail
      have h₁ := executeAll_weight_le hn
      have h₂ := execute_weight_lt hfast (Nat.not_lt.1 hlen) hk
      have h₃ := executeAll_weight_le htail
      have hlength := congrArg List.length hd
      have hnew : new.weight = 0 := rfl
      simp only [List.flatten_append, List.flatten_cons, List.length_append] at hlength
      rw [hnew] at h₁
      rw [weight] at h₃
      omega
    refine ⟨fun hp => ?_, hkeeps⟩
    obtain ⟨m', hm', -, hsum, hheld⟩ := executeAll_accounts hfree hkeeps
    obtain rfl : m = m' := Except.ok.inj (hm.symm.trans hm')
    rw [hd] at hsum
    exact hheld.2 hp (List.append_right_eq_self.1 hsum)
  · rintro ⟨hp, hkeeps⟩
    obtain ⟨m, hm, hevents, hsum, hheld⟩ := executeAll_accounts hfree hkeeps
    have hnil : m.echobuffer = [] := by
      by_contra hne
      exact hp (hheld.1 hne)
    rw [hnil, List.append_nil] at hsum
    refine ⟨m.finish, ?_, events_eq_map_byte.1 ?_⟩
    · rw [parse, hm]
      rfl
    · rw [finish, flushOutput, Output.events_flush, hevents, hsum]

/-- With the buffers as they are allocated, also no byte may be written past the echo buffer. -/
theorem parse_tagFree_iff (chunks : List Bytes) (hfree : TagFree chunks.flatten) :
    (∃ c, parseBounded chunks = .ok c ∧ (∀ t ∈ c.out.callbacks, t.isTag = false) ∧
        delivered c.out.callbacks = chunks.flatten) ↔
      ¬ Pending chunks.flatten ∧ Run.Each execute KeepsChunk .new chunks ∧ EchoFits chunks := by
  constructor
  · rintro ⟨c, hc, hpasses⟩
    obtain ⟨hparse, hfits⟩ := parseBounded_ok hc
    obtain ⟨hp, hkeeps⟩ := (parse_text_iff chunks hfree).1 ⟨c, hparse, hpasses⟩
    exact ⟨hp, hkeeps, hfits⟩
  · rintro ⟨hp, hkeeps, hfits⟩
    rw [parseBounded_eq hfits]
    exact (parse_text_iff chunks hfree).2 ⟨hp, hkeeps⟩

theorem parse_tagFree_iff_text :
    (∃ c, parseBounded [[60, 97]] = .ok c ∧ (∀ t ∈ c.out.callbacks, t.isTag = false) ∧
        delivered c.out.callbacks = [[60, 97]].flatten) ↔
      ¬ Pending [[60, 97]].flatten ∧ Run.Each execute KeepsChunk .new [[60, 97]] ∧
        EchoFits [[60, 97]] :=
  parse_tagFree_iff [[60, 97]] (by decide +kernel)

/-- The document `<` comes out empty. -/
theorem parse_loses_pending : ¬ ∀ chunks : List Bytes, TagFree chunks.flatten →
    ∃ c, parseBounded chunks = .ok c ∧ (∀ t ∈ c.out.callbacks, t.isTag = false) ∧
      delivered c.out.callbacks = chunks.flatten := by
  intro h
  obtain ⟨c, hc, -, hd⟩ := h [[60]] (by decide +kernel)
  have hnone : (parseBounded [[60]]).map (fun c => delivered c.out.callbacks) = .ok [] := by decide
  rw [hc, Except.map, hd] at hnone
  cases hnone

end ESIParser

end NginxEsi
