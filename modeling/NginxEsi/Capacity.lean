import NginxEsi.Names
import NginxEsi.Room

/-!
# Capacities

The echo buffer is indexed below `echobuffer_allocated`, which `esi_parser_concat_to_echobuffer`
doubles together with the allocation.  When a call ends with a candidate pending and saves its
chunk, `esi_parser_execute` also sets `echobuffer_allocated`, to the size of the copy, and leaves
the echo buffer as it is.  The field stays below the allocation in exactly the runs in which no
saved chunk is longer than the echo buffer (`safe_iff`).
-/

namespace NginxEsi

/-! ## The echo buffer -/

namespace ESIParser

/-- `echobuffer_allocated` is covered by the allocation, every access so far was in bounds, and
every call of the output handler carried 1 to 1024 bytes. -/
structure Safe (c : ESIParser) : Prop where
  allocated_le : c.echobufferAllocated ≤ c.echobufferSize
  accesses : ∀ a ∈ c.accesses, a.index < a.size
  outputs : ∀ d, Callback.output d ∈ c.out.callbacks →
    1 ≤ d.length ∧ d.length ≤ esiOutputBufferSize

/-- What makes the next access safe. -/
structure Bounded (r : EchoRoom) (c : ESIParser) : Prop where
  fills : Fills r c
  ample : r.Ample

variable {r : EchoRoom} {c c' : ESIParser}

theorem Bounded.safe (h : Bounded r c) : Safe c where
  allocated_le := by
    rw [h.fills.allocated, h.fills.size]
    exact h.ample.allocated_le
  accesses := h.fills.inRoom.inBounds
  outputs := h.fills.inRoom.out.outputs

theorem exec_bounded {data rest : Bytes} {p : ℕ} (hc : Bounded r c)
    (h : c.exec data rest p = .ok c') :
    ∃ m, rest.foldlM EchoRoom.feed r = .ok m ∧ Bounded m c' := by
  obtain ⟨m, hm, hample⟩ := hc.ample.feedAll rest
  exact ⟨m, hm, ((hc.fills.exec data rest p).passes m hm).2 c' h, hample⟩

/-! ## Calls -/

/-- What holds between two calls. -/
structure Settled (r : EchoRoom) (c : ESIParser) : Prop where
  rests : Rests r c
  ample : r.Ample

theorem settled_new : Settled .new new := ⟨rests_new, EchoRoom.ample_new⟩

theorem Settled.bounded (h : Settled r c) : Bounded r c := ⟨h.rests.fills, h.ample⟩

/-- The start of a call. -/
theorem Settled.enter (h : Settled r c) {m : ESIParser} {chunk u : Bytes}
    (henter : c.enter chunk = (m, u ++ chunk, u.length)) (hbare : m.bare = c.bare) :
    Bounded r m :=
  ⟨h.rests.fills.of_bare hbare (enter_overflowData henter).1, h.ample⟩

/-- The end of a call, which saves the buffer when there is no overflow data and a candidate is
pending. -/
theorem leave_ample {m : EchoRoom} {length : ℕ} (h : m.Ample)
    (hheld : (m.leave length).held ≤ (m.leave length).allocated)
    (hsave : m.saved = false → m.cs.idle = false → length ≤ m.size) :
    (m.leave length).Ample := by
  have hmin := h.min_le.trans h.allocated_le
  refine ⟨?_, hheld, ?_⟩
  · unfold EchoRoom.leave
    split_ifs with hcs hsaved hlt
    · exact h.min_le
    · exact le_rfl
    · exact not_lt.1 hlt
    · exact h.min_le
  · unfold EchoRoom.leave
    split_ifs with hcs hsaved hlt
    · exact h.allocated_le
    · exact hmin
    · refine hsave (Bool.eq_false_iff.2 hsaved) ?_
      by_contra hidle
      exact (idle_eq_true.1 (Bool.eq_true_of_not_eq_false hidle)) hcs
    · exact h.allocated_le

/-- A call keeps the bounds if what it saves fits the allocation of the echo buffer. -/
theorem execute_settled {chunk : Bytes} (hc : Settled r c) (h : c.execute chunk = .ok c')
    (hsave : ∀ m₀ data p m, chunk ≠ [] → ¬ c.TakesFastPath chunk →
      c.enter chunk = (m₀, data, p) → m₀.exec data chunk p = .ok m → m.overflowData = none →
      m.cs.idle = false → data.length ≤ m.echobufferSize) : ∃ r', Settled r' c' := by
  obtain ⟨r', hr'⟩ := hc.ample.call chunk
  have hrests := ((hc.rests.execute chunk).passes r' hr').2 c' h
  refine ⟨r', hrests, ?_⟩
  unfold EchoRoom.call at hr'
  split_ifs at hr' with hfast
  · exact Except.ok.inj hr' ▸ hc.ample
  obtain ⟨m, hm, hr'⟩ := Run.bind_ok hr'
  obtain rfl : m.leave chunk.length = r' := Except.ok.inj hr'
  obtain ⟨m', hm', hample⟩ := hc.ample.feedAll chunk
  obtain rfl := Except.ok.inj (hm.symm.trans hm')
  refine leave_ample hample hrests.fills.held_le fun hsaved hidle => ?_
  rcases execute_cases h with ⟨hnil, -⟩ | ⟨hpath, -⟩ | ⟨m₀, u, k, hne, hpath, henter, hbare, hexec, -⟩
  · exact absurd (.inl hnil) hfast
  · refine absurd (.inr ?_) hfast
    rw [← hc.rests.fills.cs]
    exact hpath
  · have hfills := (((hc.enter henter hbare).fills.exec (u ++ chunk) _ _).passes m hm).2 k hexec
    have hnone : k.overflowData = none := by
      rw [← Option.isNone_iff_eq_none, ← Option.isSome_eq_false_iff, hfills.saved, hsaved]
    have hle := hsave m₀ _ _ k hne hpath henter hexec hnone (by rw [hfills.cs, hidle])
    rw [exec_overflowData hexec] at hnone
    rw [← hfills.size]
    exact le_trans (by simp) hle

/-! ## Runs -/

/-- Whenever a call of the run saves its buffer, the buffer is no longer than the allocation of the
echo buffer. -/
def SavesFit (chunks : List Bytes) : Prop :=
  ∀ done chunk later data m, chunks = done ++ chunk :: later → Reaches done chunk chunk data m →
    m.overflowData = none → m.cs.idle = false → data.length ≤ m.echobufferSize

theorem SavesFit.left {l₁ l₂ : List Bytes} (h : SavesFit (l₁ ++ l₂)) : SavesFit l₁ := by
  intro done chunk later data m hl
  exact h done chunk (later ++ l₂) data m (by rw [hl, List.append_assoc, List.cons_append])

theorem executeAll_settled {chunks : List Bytes} (h : SavesFit chunks) :
    ∀ {c : ESIParser}, new.executeAll chunks = .ok c → ∃ r, Settled r c := by
  induction chunks using List.reverseRecOn with
  | nil =>
    intro c hc
    obtain rfl := Except.ok.inj hc
    exact ⟨.new, settled_new⟩
  | append_singleton chunks chunk ih =>
    intro c hc
    obtain ⟨m, hm, hm'⟩ := Run.concat_ok.1 hc
    obtain ⟨r, hr⟩ := ih h.left hm
    refine execute_settled hr hm' ?_
    intro m₀ data p k hne hfast henter hexec
    exact h chunks chunk [] data k rfl
      ⟨m, m₀, p, hm, hne, hfast, henter, List.prefix_rfl, hexec⟩

/-- Every reached state of a run, between two calls or in the middle of one, is safe exactly when
no saved chunk is longer than the echo buffer. -/
theorem safe_iff (chunks : List Bytes) :
    ((∀ done later c, chunks = done ++ later → new.executeAll done = .ok c → Safe c) ∧
      ∀ done chunk later u data m, chunks = done ++ chunk :: later →
        Reaches done chunk u data m → Safe m) ↔ SavesFit chunks := by
  constructor
  · rintro ⟨hsafe, -⟩ done chunk later data m rfl hreach hnone hbusy
    by_contra hlt
    obtain ⟨c, m₀, p, hc, hne, hfast, henter, -, hexec⟩ := hreach
    have hexecute : c.execute chunk = .ok (m.leave data) := by
      obtain ⟨m₁, u, henter', -⟩ := enter_bare c chunk
      rw [henter, Prod.mk.injEq, Prod.mk.injEq] at henter'
      obtain ⟨rfl, rfl, rfl⟩ := henter'
      rw [execute, if_neg hne, if_neg hfast, henter]
      simp only [List.drop_left, hexec, Bind.bind, Except.bind, pure, Except.pure]
    have hrun : new.executeAll (done ++ [chunk]) = .ok (m.leave data) :=
      Run.concat_ok.2 ⟨c, hc, hexecute⟩
    have hle := (hsafe (done ++ [chunk]) later _ (by simp) hrun).allocated_le
    have hcs : m.cs ≠ esiStart ∧ m.cs ≠ .s0 := by
      by_contra hcs
      rw [idle_eq_true.2 hcs] at hbusy
      cases hbusy
    rw [leave, if_pos hcs, hnone] at hle
    dsimp only at hle
    change (if esiOutputBufferSize > data.length then _ else _) ≤ m.echobufferSize at hle
    split_ifs at hle <;> omega
  · intro hfit
    constructor
    · rintro done later c rfl hc
      obtain ⟨r, hr⟩ := executeAll_settled hfit.left hc
      exact hr.bounded.safe
    · rintro done chunk later u data m rfl ⟨c, m₀, p, hc, -, -, henter, -, hexec⟩
      obtain ⟨m₁, v, henter', hbare⟩ := enter_bare c chunk
      obtain ⟨r, hr⟩ := executeAll_settled hfit.left hc
      have hstart := hr.enter henter' hbare
      rw [henter, Prod.mk.injEq] at henter'
      obtain ⟨rfl, -⟩ := henter'
      obtain ⟨k, -, hbounded⟩ := exec_bounded hstart hexec
      exact hbounded.safe

/-- A first chunk of 1025 bytes that ends in `<` is saved, and the echo buffer is taken to have
1025 bytes. -/
theorem unsafe_save : ¬ ∀ chunks : List Bytes,
    (∀ done later c, chunks = done ++ later → new.executeAll done = .ok c → Safe c) ∧
      ∀ done chunk later u data m, chunks = done ++ chunk :: later →
        Reaches done chunk u data m → Safe m := by
  intro h
  have hrun : (new.executeAll [List.replicate 1024 120 ++ [60]]).map
      (fun c => (c.echobufferAllocated, c.echobufferSize)) = .ok (1025, 1024) := by
    decide +kernel
  obtain ⟨c, hc, hfields⟩ := Run.map_ok hrun
  obtain ⟨hallocated, hsize⟩ := Prod.mk.inj hfields
  have hle := ((h _).1 _ [] c (List.append_nil _).symm hc).allocated_le
  omega

end ESIParser

end NginxEsi
