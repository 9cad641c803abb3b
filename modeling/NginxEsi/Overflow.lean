import NginxEsi.Capacity

/-!
# Between two calls

A call that ends with a candidate pending keeps everything it has read in the overflow data; a call
that ends in state 0 dumps it.  So the overflow data is what has come in since the last call that
ended in state 0 (`executeAll_since`), whatever becomes of the pointers.
-/

namespace NginxEsi

namespace ESIParser

/-- What holds between two calls. -/
structure Saved (c : ESIParser) : Prop where
  prevState : c.prevState = c.cs
  overflowData : c.overflowData = none ↔ c.cs.idle = true
  ne_nil : c.overflowData ≠ some []
  held_eq : c.cs.idle = true → c.echobuffer = []

theorem saved_new : Saved new where
  prevState := rfl
  overflowData := ⟨fun _ => rfl, fun _ => rfl⟩
  ne_nil := fun h => by cases h
  held_eq _ := rfl

variable {c c' : ESIParser} {chunk : Bytes}

/-- A call scans the overflow data and the chunk. -/
theorem enter_eq (hne : c.overflowData ≠ some []) (chunk : Bytes) :
    ∃ m, c.enter chunk = (m, c.overflowData.getD [] ++ chunk, (c.overflowData.getD []).length) ∧
      m.bare = c.bare ∧ m.overflowData = c.overflowData.map (· ++ chunk) := by
  rcases ho : c.overflowData with _ | (_ | ⟨b, old⟩)
  · refine ⟨c.initMark 0, by rw [enter, ho]; rfl, initMark_bare 0 c, ?_⟩
    rw [initMark_overflowData, ho]
    rfl
  · exact absurd ho hne
  · refine ⟨_, by rw [enter, ho]; rfl, initMark_bare (b :: old).length
      { c.mapPtr .rebase with overflowData := some (b :: old ++ chunk) }, ?_⟩
    rw [initMark_overflowData]
    rfl

theorem leave_overflowData_eq {data : Bytes} (h : ∀ o, c.overflowData = some o → o = data) :
    (c.leave data).overflowData = if c.cs.idle = true then none else some data := by
  by_cases hcs : c.cs ≠ esiStart ∧ c.cs ≠ .s0
  · rw [leave, if_pos hcs, if_neg fun hidle => (idle_eq_true.1 hidle) hcs]
    cases ho : c.overflowData with
    | none => rfl
    | some o => rw [ho, h o ho]
  · rw [leave, if_neg hcs, if_pos (idle_eq_true.2 hcs)]

/-- The machine never returns to its start. -/
theorem foldl_next_ne {u : Bytes} (h : u ≠ []) (q : State) : u.foldl State.next q ≠ .s75 := by
  obtain ⟨u, b, rfl⟩ := u.eq_nil_or_concat'.resolve_left h
  rw [List.foldl_append]
  exact (flow_transition _ b).ne_start

/-- A call that the machine makes. -/
theorem execute_machine_saved {m m' : ESIParser} (hc : Saved c) (hne : chunk ≠ [])
    (hbare : m.bare = c.bare) (ho : m.overflowData = c.overflowData.map (· ++ chunk))
    (hm' : m.exec (c.overflowData.getD [] ++ chunk) chunk (c.overflowData.getD []).length = .ok m') :
    Saved (m'.leave (c.overflowData.getD [] ++ chunk)) ∧
      (m'.cs ≠ .s0 → (m'.leave (c.overflowData.getD [] ++ chunk)).overflowData =
        some (c.overflowData.getD [] ++ chunk)) := by
  obtain ⟨hcs', hprev'⟩ := exec_cs_of_bare hc.prevState hbare hm'
  have hdata : ∀ o, m'.overflowData = some o → o = c.overflowData.getD [] ++ chunk := by
    intro o hm
    rw [exec_overflowData hm', ho] at hm
    cases hold : c.overflowData with
    | none => simp [hold] at hm
    | some old =>
      rw [hold] at hm
      exact (Option.some.inj hm).symm
  have hover := leave_overflowData_eq hdata
  refine ⟨⟨?_, ?_, ?_, ?_⟩, fun h0 => ?_⟩
  · rw [leave_prevState, leave_cs, hprev']
  · rw [hover, leave_cs]
    split_ifs with hidle
    · exact ⟨fun _ => hidle, fun _ => rfl⟩
    · exact ⟨fun h => (by cases h), fun h => absurd h hidle⟩
  · rw [hover]
    split_ifs
    · exact fun h => by cases h
    · exact fun h => hne (List.append_eq_nil_iff.1 (Option.some.inj h)).2
  · rw [leave_cs, leave_echobuffer]
    exact (exec_held hm').2 hne
  · have hstart : m'.cs ≠ .s75 := by
      rw [hcs']
      exact foldl_next_ne hne c.cs
    rw [hover, if_neg fun hidle => h0 (State.eq_zero_of_idle hidle hstart)]

/-- What a call leaves in the overflow data. -/
theorem execute_saved (hc : Saved c) (h : c.execute chunk = .ok c') :
    Saved c' ∧ (c'.cs ≠ .s0 → c'.overflowData.getD [] = c.overflowData.getD [] ++ chunk) := by
  unfold execute at h
  split_ifs at h with hne hfast
  · obtain rfl := Except.ok.inj h
    exact ⟨hc, fun _ => by rw [hne, List.append_nil]⟩
  · have hc' := (Except.ok.inj h).symm
    have hcs : c'.cs = c.cs := by rw [hc', echoChar_cs]
    have hover : c'.overflowData = c.overflowData := by rw [hc', echoChar_overflowData]
    refine ⟨⟨?_, ?_, ?_, ?_⟩, fun h0 => absurd (hcs.trans hfast.1) h0⟩
    · rw [hcs, hc', echoChar_prevState, hc.prevState]
    · rw [hover, hcs, hc.overflowData]
    · rw [hover]
      exact hc.ne_nil
    · rw [hcs, hc', echoChar_echobuffer]
      exact hc.held_eq
  · obtain ⟨m, henter, hbare, ho⟩ := enter_eq hc.ne_nil chunk
    rw [henter] at h
    dsimp only at h
    rw [List.drop_left] at h
    obtain ⟨m', hm', h⟩ := Run.bind_ok h
    obtain rfl := Except.ok.inj h
    obtain ⟨hsaved, hover⟩ := execute_machine_saved hc hne hbare ho hm'
    refine ⟨hsaved, fun h0 => ?_⟩
    rw [leave_cs] at h0
    rw [hover h0, Option.getD_some]

/-! ## Runs -/

theorem executeAll_saved {chunks : List Bytes} (h : new.executeAll chunks = .ok c) : Saved c :=
  Run.invariant (I := fun _ c => Saved c) (fun _ _ _ _ hI h => (execute_saved hI h).1) (u := [])
    saved_new h

/-- The bytes that have come in since the last call that ended in state 0, or since the start. -/
def Since (chunks : List Bytes) (o : Bytes) : Prop :=
  ∃ before after, chunks = before ++ after ∧ o = after.flatten ∧
    (before = [] ∨ ∃ c, new.executeAll before = .ok c ∧ c.cs = .s0) ∧
    ∀ l₁ l₂ c, after = l₁ ++ l₂ → l₁ ≠ [] → new.executeAll (before ++ l₁) = .ok c → c.cs ≠ .s0

theorem executeAll_since {chunks : List Bytes} (h : new.executeAll chunks = .ok c) :
    Since chunks (c.overflowData.getD []) := by
  induction chunks using List.reverseRecOn generalizing c with
  | nil =>
    obtain rfl := Except.ok.inj h
    exact ⟨[], [], rfl, rfl, .inl rfl, fun l₁ l₂ c hl hne _ =>
      absurd (List.append_eq_nil_iff.1 hl.symm).1 hne⟩
  | append_singleton chunks chunk ih =>
    obtain ⟨m, hm, hlast⟩ := Run.concat_ok.1 h
    obtain ⟨hsaved, hover⟩ := execute_saved (executeAll_saved hm) hlast
    by_cases h0 : c.cs = .s0
    · have hnone : c.overflowData = none := hsaved.overflowData.2 (by rw [h0]; rfl)
      rw [hnone]
      exact ⟨chunks ++ [chunk], [], (List.append_nil _).symm, rfl, .inr ⟨c, h, h0⟩,
        fun l₁ l₂ c hl hne _ => absurd (List.append_eq_nil_iff.1 hl.symm).1 hne⟩
    · obtain ⟨before, after, rfl, hflat, hbefore, hafter⟩ := ih hm
      refine ⟨before, after ++ [chunk], List.append_assoc _ _ _, ?_, hbefore, ?_⟩
      · rw [hover h0, hflat, List.flatten_append, List.flatten_singleton]
      · intro l₁ l₂ c hl hne hc
        rcases l₂.eq_nil_or_concat' with rfl | ⟨l₂, a, rfl⟩
        · rw [List.append_nil] at hl
          rw [← hl, ← List.append_assoc, h] at hc
          exact Except.ok.inj hc ▸ h0
        · rw [← List.append_assoc] at hl
          exact hafter l₁ l₂ c (List.append_inj_left' hl rfl) hne hc

end ESIParser

end NginxEsi
