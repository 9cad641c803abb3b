import NginxEsi.Relay

/-!
# Handing the output over

Every call of the body filter that reads its input marks the last buffer of the output chain and
hands the chain over, all of it.  So the buffers of one call are handed over again by every later
one (`handed_once_iff`), the mark is set whether or not the response has ended (`marked_iff`), and
before the first text there is no buffer to mark (`call_null_iff`).
-/

namespace NginxEsi

/-- The buffers in the links of a chain, each with its link. -/
def buffers (links : List (ℕ × Option Buf)) : List (ℕ × Buf) :=
  links.filterMap fun e => e.2.map (Prod.mk e.1)

/-- The links of the buffers of the output chain that are handed over. -/
def Handed.output : Handed → List ℕ
  | .input _ => []
  | .chain links => (buffers links).map Prod.fst

theorem buffers_filled (q : List (ℕ × Buf)) : buffers (q.map filled) = q := by
  unfold buffers filled
  rw [List.filterMap_map]
  simp

namespace Ctx

variable {stack : ℕ → NgxStr} {ctx ctx' : Ctx} {s s' : Relay} {q more q₀ : List (ℕ × Buf)}
variable {c : Bool × List Buf} {calls : List (Bool × List Buf)} {i : ℕ} {buf : Buf}

/-- The buffers that the output callback has appended to the chain. -/
def chainBuffers (ctx : Ctx) : List (ℕ × Buf) := buffers ctx.chainLinks

theorem Relays.chainBuffers_eq (h : Relays ctx s q) : ctx.chainBuffers = q := by
  obtain ⟨l, hl, hq⟩ := h.queue.exists_links
  rw [chainBuffers, chainLinks, hl.nodes_eq hl.length_le]
  exact hq

/-! ## Calls without output -/

/-- A call uses a buffer that is not there exactly when it reads its input to the end and no text
has been let through by then. -/
theorem call_null_iff (stack : ℕ → NgxStr) (calls : List (Bool × List Buf)) (ctx : Ctx)
    (hrun : calls.foldlM (call stack) new = .ok ctx) (headerOnly : Bool) (input : List Buf)
    (hne : input ≠ []) :
    ∃ s, calls.foldlM Relay.call .new = .ok s ∧
      (ngxHttpEsiBodyFilter stack headerOnly ctx input ≠ .error (.memory .null) ↔
        headerOnly = true ∨ ∀ s', s.call (headerOnly, input) = .ok s' → s'.pieces ≠ []) := by
  obtain ⟨s, q, hcalls, h⟩ := relays_run hrun
  refine ⟨s, hcalls, ?_⟩
  change ctx.call stack (headerOnly, input) ≠ _ ↔ _
  cases headerOnly with
  | true =>
    have hc : ¬ Relay.Reads (true, input) := fun hc => Bool.noConfusion hc.1
    obtain ⟨-, ctx', hok, -⟩ := h.call_pass stack hc
    rw [hok]
    simp
  | false =>
    have hc : Relay.Reads (false, input) := ⟨rfl, hne⟩
    cases hcall : s.call (false, input) with
    | error fault =>
      rw [h.call_error stack hcall]
      simp
    | ok s' =>
      by_cases hnil : s'.pieces = []
      · rw [h.call_null stack hc hcall hnil]
        simp [hnil]
      · obtain ⟨ctx', more, q₀, i, buf, hok, -⟩ := h.call_ok stack hc hcall hnil
        rw [hok]
        simp [hnil]

/-- The first call, with the text `a` in front of a tag. -/
theorem call_null_iff_text :
    let input : List Buf := [⟨97 :: bareElement .esiVars [], false⟩]
    ∃ s, ([] : List (Bool × List Buf)).foldlM Relay.call .new = .ok s ∧
      (ngxHttpEsiBodyFilter (fun _ => ⟨0, none⟩) false new input ≠ .error (.memory .null) ↔
        false = true ∨ ∀ s', s.call (false, input) = .ok s' → s'.pieces ≠ []) :=
  call_null_iff _ [] new rfl false _ (by simp)

/-- The first call, with the text `a` alone: the parser still holds it. -/
theorem call_null_text : ¬ ∀ (stack : ℕ → NgxStr) (calls : List (Bool × List Buf)) (ctx : Ctx),
    calls.foldlM (call stack) new = .ok ctx → ∀ (headerOnly : Bool) (input : List Buf), input ≠ [] →
      ngxHttpEsiBodyFilter stack headerOnly ctx input ≠ .error (.memory .null) := by
  intro h
  have hcall := h (fun _ => ⟨0, none⟩) [] new rfl false [⟨[97], false⟩] (by simp)
  exact hcall (by decide +kernel)

/-! ## Each buffer once -/

/-- After `n` calls that read their input, the links in `handed` are those of the buffers `q` behind
what was handed over before the last of these calls. -/
structure HandedSoFar (n : ℕ) (handed : List ℕ) (q : List (ℕ × Buf)) : Prop where
  again : ∃ earlier, handed = earlier ++ q.map Prod.fst ∧ (earlier = [] ↔ n ≤ 1)
  buffers : q = [] ↔ n = 0

theorem HandedSoFar.next {n : ℕ} {handed : List ℕ} {q' : List (ℕ × Buf)}
    (h : HandedSoFar n handed q) (hne : q' ≠ []) :
    HandedSoFar (n + 1) (handed ++ q'.map Prod.fst) q' where
  again := by
    obtain ⟨earlier, hhanded, hearlier⟩ := h.again
    refine ⟨handed, rfl, ?_⟩
    rw [hhanded, List.append_eq_nil_iff, hearlier, List.map_eq_nil_iff, h.buffers]
    omega
  buffers := by simp [hne]

theorem HandsOver.links_eq (h : HandsOver ctx ctx' s' q more q₀ i buf) :
    (q₀ ++ [(i, { buf with lastBuf := true })]).map Prod.fst = (q ++ more).map Prod.fst := by
  rw [h.buffers, List.map_append, List.map_append]
  rfl

/-- The number of calls that read their input. -/
def reading (calls : List (Bool × List Buf)) : ℕ := calls.countP fun c => Relay.Reads c

theorem handedSoFar_run (hrun : calls.foldlM (call stack) new = .ok ctx) :
    ∃ s q, calls.foldlM Relay.call .new = .ok s ∧ Relays ctx s q ∧
      HandedSoFar (reading calls) (ctx.handed.flatMap Handed.output) q := by
  refine Run.invariant (I := fun done ctx => ∃ s q, done.foldlM Relay.call .new = .ok s ∧
    Relays ctx s q ∧ HandedSoFar (reading done) (ctx.handed.flatMap Handed.output) q) ?_ (u := [])
    ⟨.new, [], rfl, new_relays, ⟨[], rfl, by simp [reading]⟩, by simp [reading]⟩ hrun
  rintro done ctx c ctx' ⟨s, q, hdone, hrelays, hsofar⟩ hok
  rcases hrelays.call_cases hok with
    ⟨hc, hcall, hrelays', hhanded⟩ | ⟨hc, s', more, q₀, i, buf, hcall, h'⟩
  · refine ⟨s, q, Run.concat_ok.2 ⟨s, hdone, hcall⟩, hrelays', ?_⟩
    have hreading : reading (done ++ [c]) = reading done := by simp [reading, hc]
    rw [hreading, hhanded, List.flatMap_append, List.flatMap_singleton, Handed.output,
      List.append_nil]
    exact hsofar
  · refine ⟨s', _, Run.concat_ok.2 ⟨s, hdone, hcall⟩, h'.relays, ?_⟩
    have hreading : reading (done ++ [c]) = reading done + 1 := by simp [reading, hc]
    rw [hreading, h'.handed, List.flatMap_append, List.flatMap_singleton, Handed.output,
      buffers_filled]
    exact hsofar.next (by simp)

/-- A buffer of the output chain stays where it is. -/
theorem chainBuffers_prefix {s : Relay} (h : Relays ctx s q)
    (hrun : calls.foldlM (call stack) ctx = .ok ctx') :
    ctx.chainBuffers.map Prod.fst <+: ctx'.chainBuffers.map Prod.fst := by
  have hq : ∃ s' q', Relays ctx' s' q' ∧ q.map Prod.fst <+: q'.map Prod.fst := by
    refine Run.invariant (I := fun _ ctx' => ∃ s' q', Relays ctx' s' q' ∧
      q.map Prod.fst <+: q'.map Prod.fst) ?_ (u := []) ⟨s, q, h, List.prefix_rfl⟩ hrun
    rintro _ ctx₁ c ctx₂ ⟨s₁, q₁, h₁, hpre⟩ hok
    rcases h₁.call_cases hok with ⟨-, -, h₂, -⟩ | ⟨-, s₂, more, q₀, i, buf, -, h₂⟩
    · exact ⟨s₁, q₁, h₂, hpre⟩
    · refine ⟨s₂, _, h₂.relays, hpre.trans ?_⟩
      rw [h₂.links_eq, List.map_append]
      exact List.prefix_append _ _
  obtain ⟨s', q', h', hpre⟩ := hq
  rwa [h.chainBuffers_eq, h'.chainBuffers_eq]

/-- The buffers, one for each text that was let through, are handed over once and in order exactly
when no more than one call reads its input. -/
theorem handed_once_iff (stack : ℕ → NgxStr) (calls : List (Bool × List Buf)) (ctx : Ctx)
    (hrun : calls.foldlM (call stack) new = .ok ctx) :
    (∃ s, calls.foldlM Relay.call .new = .ok s ∧
        ctx.chainBuffers.map (fun e => e.2.bytes) = s.pieces) ∧
      (ctx.chainBuffers.map Prod.fst).Nodup ∧
      (∀ done later ctx₁, calls = done ++ later → done.foldlM (call stack) new = .ok ctx₁ →
        ctx₁.chainBuffers.map Prod.fst <+: ctx.chainBuffers.map Prod.fst) ∧
      (ctx.handed.flatMap Handed.output = ctx.chainBuffers.map Prod.fst ↔ reading calls ≤ 1) := by
  obtain ⟨s, q, hcalls, hrelays, ⟨earlier, hhanded, hearlier⟩, -⟩ := handedSoFar_run hrun
  have hbuffers := hrelays.chainBuffers_eq
  refine ⟨⟨s, hcalls, ?_⟩, ?_, ?_, ?_⟩
  · rw [hbuffers]
    exact hrelays.pieces
  · rw [hbuffers]
    exact hrelays.queue.nodup
  · rintro done later ctx₁ rfl hdone
    obtain ⟨m, hm, hlater⟩ := Run.append_ok.1 hrun
    obtain rfl := Except.ok.inj (hm.symm.trans hdone)
    obtain ⟨s₁, q₁, -, h₁⟩ := relays_run hdone
    exact chainBuffers_prefix h₁ hlater
  · rw [hbuffers, hhanded, ← hearlier]
    exact List.append_left_eq_self

/-- One call, on `a` in front of a tag. -/
theorem handed_once_iff_text :
    let calls := [(false, [Buf.mk (97 :: bareElement .esiVars []) true])]
    ∃ ctx, calls.foldlM (call fun _ => ⟨0, none⟩) new = .ok ctx ∧
      (∃ s, calls.foldlM Relay.call .new = .ok s ∧
        ctx.chainBuffers.map (fun e => e.2.bytes) = s.pieces) ∧
      (ctx.chainBuffers.map Prod.fst).Nodup ∧
      (∀ done later ctx₁, calls = done ++ later →
        done.foldlM (call fun _ => ⟨0, none⟩) new = .ok ctx₁ →
        ctx₁.chainBuffers.map Prod.fst <+: ctx.chainBuffers.map Prod.fst) ∧
      (ctx.handed.flatMap Handed.output = ctx.chainBuffers.map Prod.fst ↔ reading calls ≤ 1) := by
  intro calls
  have hrun : (calls.foldlM (call fun _ => ⟨0, none⟩) new).map rootTag = .ok none := by
    decide +kernel
  obtain ⟨ctx, hctx, -⟩ := Run.map_ok hrun
  exact ⟨ctx, hctx, handed_once_iff _ _ ctx hctx⟩

/-- `a` in front of a tag in one call and `b` in the next one: the buffer with `a` is handed over by
both. -/
theorem handed_twice : ¬ ∀ (stack : ℕ → NgxStr) (calls : List (Bool × List Buf)) (ctx : Ctx),
    calls.foldlM (call stack) new = .ok ctx →
      ctx.handed.flatMap Handed.output = ctx.chainBuffers.map Prod.fst := by
  intro h
  have hrun : ([(false, [Buf.mk (97 :: bareElement .esiVars []) false]),
      (false, [Buf.mk [98] true])].foldlM (call fun _ => ⟨0, none⟩) new).map
        (fun ctx => (ctx.handed.flatMap Handed.output, ctx.chainBuffers.map Prod.fst)) =
      .ok ([0, 0, 1], [0, 1]) := by
    decide +kernel
  obtain ⟨ctx, hctx, hpair⟩ := Run.map_ok hrun
  obtain ⟨hhanded, hbuffers⟩ := Prod.mk.inj hpair
  have heq := h _ _ ctx hctx
  rw [hhanded, hbuffers] at heq
  exact absurd heq (by decide)

/-! ## The mark -/

/-- The call reads a buffer with `last_buf`. -/
def SeesLast (c : Bool × List Buf) : Prop := Relay.Reads c ∧ ∃ buf ∈ c.2, buf.lastBuf = true

/-- The last buffer is marked if `seen`, and no other one ever is. -/
def Marked (q : List (ℕ × Buf)) (seen : Prop) : Prop :=
  ∀ q₁ e q₂, q = q₁ ++ e :: q₂ → (e.2.lastBuf = true ↔ q₂ = [] ∧ seen)

/-- What a call marks is right: the first one that reads its input sees the last buffer, and the
later ones let no more text through. -/
def MarksRight (s : Relay) (c : Bool × List Buf) : Prop :=
  Relay.Reads c →
    if s.pieces = [] then SeesLast c else ∀ s', s.call c = .ok s' → s'.pieces = s.pieces

theorem marked_nil (seen : Prop) : Marked [] seen := by
  intro q₁ e q₂ h
  simp at h

theorem marked_concat {e : ℕ × Buf} {seen : Prop} (he : e.2.lastBuf = true) :
    Marked (q ++ [e]) seen ↔ (∀ e' ∈ q, e'.2.lastBuf = false) ∧ seen := by
  constructor
  · intro h
    refine ⟨fun e' he' => ?_, ((h q e [] rfl).1 he).2⟩
    obtain ⟨q₁, q₂, rfl⟩ := List.append_of_mem he'
    rw [← Bool.not_eq_true, h q₁ e' (q₂ ++ [e]) (by simp)]
    simp
  · rintro ⟨hq, hseen⟩ q₁ e' q₂ hsplit
    rcases q₂.eq_nil_or_concat' with rfl | ⟨q₂, e'', rfl⟩
    · obtain ⟨-, rfl⟩ := List.append_singleton_inj.1 hsplit
      exact ⟨fun _ => ⟨rfl, hseen⟩, fun _ => he⟩
    · rw [← List.cons_append, ← List.append_assoc] at hsplit
      obtain ⟨rfl, -⟩ := List.append_singleton_inj.1 hsplit
      rw [hq e' (by simp)]
      simp

/-- The buffers between two calls: none before the input is read, and then the last one marked. -/
def Tail (q : List (ℕ × Buf)) (seen : Prop) : Prop :=
  (q = [] ∧ ¬ seen) ∨ ∃ q₀ e, q = q₀ ++ [e] ∧ e.2.lastBuf = true

theorem HandsOver.pieces_eq (h : HandsOver ctx ctx' s' q more q₀ i buf) :
    s'.pieces = (q ++ more).map fun e => e.2.bytes := by
  rw [← h.relays.pieces, h.buffers, List.map_append, List.map_append]
  rfl

/-- One call: where the marks are right before it, they are right behind it exactly if what it marks
is right. -/
theorem HandsOver.marksRight_iff {seen : Prop} (h : HandsOver ctx ctx' s' q more q₀ i buf)
    (hrelays : Relays ctx s q) (hreads : Relay.Reads c) (hcall : s.call c = .ok s')
    (htail : Tail q seen) (hmarked : Marked q seen) :
    Marked (q₀ ++ [(i, { buf with lastBuf := true })]) (seen ∨ SeesLast c) ↔ MarksRight s c := by
  rw [marked_concat (by rfl)]
  have hpieces := hrelays.pieces
  rcases htail with ⟨rfl, hunseen⟩ | ⟨q', e, rfl, he⟩
  · -- the first buffers: only the last one has the mark
    have hnil : s.pieces = [] := hpieces.symm
    have hq₀ : ∀ e ∈ q₀, e.2.lastBuf = false := by
      intro e he
      apply h.unmarked
      have hmem := List.mem_append_left [(i, buf)] he
      rwa [← h.buffers] at hmem
    rw [MarksRight, if_pos hnil]
    constructor
    · rintro ⟨-, hseen⟩ -
      exact hseen.resolve_left hunseen
    · exact fun hsees => ⟨hq₀, .inr (hsees hreads)⟩
  · -- the last buffer so far has the mark and must stay the last one
    obtain ⟨hq', hseen⟩ := (marked_concat he).1 hmarked
    have hne : s.pieces ≠ [] := by
      rw [← hpieces]
      simp
    have hsame : s'.pieces = s.pieces ↔ more = [] := by
      rw [h.pieces_eq, ← hpieces, List.map_append, List.append_right_eq_self, List.map_eq_nil_iff]
    have hkept : (∀ e' ∈ q₀, e'.2.lastBuf = false) ↔ more = [] := by
      have hbuffers := h.buffers
      rcases more.eq_nil_or_concat' with rfl | ⟨more, e', rfl⟩
      · rw [List.append_nil] at hbuffers
        obtain ⟨rfl, -⟩ := List.append_singleton_inj.1 hbuffers
        exact iff_of_true hq' rfl
      · rw [← List.append_assoc] at hbuffers
        obtain ⟨rfl, -⟩ := List.append_singleton_inj.1 hbuffers
        refine iff_of_false (fun hall => ?_) (by simp)
        rw [hall e (by simp)] at he
        cases he
    rw [hkept, MarksRight, if_neg hne, hcall, ← hsame]
    constructor
    · rintro ⟨heq, -⟩ - s'' hs''
      obtain rfl := Except.ok.inj hs''
      exact heq
    · exact fun hright => ⟨hright hreads s' rfl, .inl hseen⟩

theorem Relays.marked_step {seen : Prop} (h : Relays ctx s q) (htail : Tail q seen)
    (hmarked : Marked q seen) (hok : ctx.call stack c = .ok ctx') :
    ∃ s' q', s.call c = .ok s' ∧ Relays ctx' s' q' ∧ Tail q' (seen ∨ SeesLast c) ∧
      (Marked q' (seen ∨ SeesLast c) ↔ MarksRight s c) := by
  rcases h.call_cases hok with
    ⟨hc, hcall, h', -⟩ | ⟨hc, s', more, q₀, i, buf, hcall, h'⟩
  · have hseen : (seen ∨ SeesLast c) = seen := by simp [SeesLast, hc]
    rw [hseen]
    exact ⟨s, q, hcall, h', htail, iff_of_true hmarked fun hreads => absurd hreads hc⟩
  · exact ⟨s', _, hcall, h'.relays, .inr ⟨q₀, _, rfl, rfl⟩,
      h'.marksRight_iff h hc hcall htail hmarked⟩

/-- Some call has read a buffer with `last_buf`. -/
def LastSeen (calls : List (Bool × List Buf)) : Prop := ∃ c ∈ calls, SeesLast c

theorem Relays.marked_run_iff {seen : Prop} (h : Relays ctx s q) (htail : Tail q seen)
    (hmarked : Marked q seen) (hrun : calls.foldlM (call stack) ctx = .ok ctx') :
    (∀ done later ctx₁, calls = done ++ later → done.foldlM (call stack) ctx = .ok ctx₁ →
        Marked ctx₁.chainBuffers (seen ∨ LastSeen done)) ↔
      Run.Each Relay.call MarksRight s calls := by
  induction calls generalizing ctx s q seen with
  | nil =>
    refine iff_of_true (fun done later ctx₁ hsplit hdone => ?_) (Run.each_nil s)
    obtain ⟨rfl, -⟩ := List.append_eq_nil_iff.1 hsplit.symm
    obtain rfl := Except.ok.inj hdone
    rw [h.chainBuffers_eq]
    simpa [LastSeen] using hmarked
  | cons c calls ih =>
    obtain ⟨ctx₁, hok, hrun⟩ := Run.cons_ok.1 hrun
    obtain ⟨s₁, q₁, hcall, h₁, htail₁, hiff⟩ := h.marked_step htail hmarked hok
    have hnone : LastSeen [] = False := by simp [LastSeen]
    have hseen : ∀ done, (seen ∨ LastSeen (c :: done)) = ((seen ∨ SeesLast c) ∨ LastSeen done) := by
      intro done
      simp [LastSeen, or_assoc]
    rw [Run.each_cons_ok hcall, Run.prefixes_cons hok, ← hiff]
    simp only [hseen, hnone, or_false, h.chainBuffers_eq, hmarked, true_and]
    constructor
    · intro hall
      have hfirst := hall [] calls ctx₁ rfl rfl
      rw [hnone, or_false, h₁.chainBuffers_eq] at hfirst
      exact ⟨hfirst, (ih h₁ htail₁ hfirst hrun).1 hall⟩
    · rintro ⟨hfirst, hlater⟩
      exact (ih h₁ htail₁ hfirst hrun).2 hlater

/-- After every call the mark is on the last buffer if the response has ended, and on no other one,
exactly when the first call that reads its input sees the last buffer and the later ones let no more
text through. -/
theorem marked_iff (stack : ℕ → NgxStr) (calls : List (Bool × List Buf)) (ctx : Ctx)
    (hrun : calls.foldlM (call stack) new = .ok ctx) :
    (∀ done later ctx₁, calls = done ++ later → done.foldlM (call stack) new = .ok ctx₁ →
        Marked ctx₁.chainBuffers (LastSeen done)) ↔
      Run.Each Relay.call MarksRight .new calls := by
  have h := new_relays.marked_run_iff (.inl ⟨rfl, not_false⟩) (marked_nil False) hrun
  simpa only [false_or] using h

/-- One call, on `a` in front of a tag, with the last buffer. -/
theorem marked_iff_text :
    let calls := [(false, [Buf.mk (97 :: bareElement .esiVars []) true])]
    ∃ ctx, calls.foldlM (call fun _ => ⟨0, none⟩) new = .ok ctx ∧
      ((∀ done later ctx₁, calls = done ++ later →
          done.foldlM (call fun _ => ⟨0, none⟩) new = .ok ctx₁ →
          Marked ctx₁.chainBuffers (LastSeen done)) ↔
        Run.Each Relay.call MarksRight .new calls) := by
  intro calls
  have hrun : (calls.foldlM (call fun _ => ⟨0, none⟩) new).map rootTag = .ok none := by
    decide +kernel
  obtain ⟨ctx, hctx, -⟩ := Run.map_ok hrun
  exact ⟨ctx, hctx, marked_iff _ _ ctx hctx⟩

/-- `a` in front of a tag in a call without the last buffer: the mark is set. -/
theorem marked_early : ¬ ∀ (stack : ℕ → NgxStr) (calls : List (Bool × List Buf)) (ctx : Ctx),
    calls.foldlM (call stack) new = .ok ctx → Marked ctx.chainBuffers (LastSeen calls) := by
  intro h
  have hrun : ([(false, [Buf.mk (97 :: bareElement .esiVars []) false])].foldlM
      (call fun _ => ⟨0, none⟩) new).map chainBuffers = .ok [(0, ⟨[97], true⟩)] := by
    decide +kernel
  obtain ⟨ctx, hctx, hbuffers⟩ := Run.map_ok hrun
  have hmarked := h _ _ ctx hctx
  rw [hbuffers] at hmarked
  obtain ⟨-, c, hc, -, buf, hbuf, hlast⟩ := (hmarked [] _ [] rfl).1 rfl
  rw [List.mem_singleton.1 hc] at hbuf
  rw [List.mem_singleton.1 hbuf] at hlast
  cases hlast

end Ctx

end NginxEsi
