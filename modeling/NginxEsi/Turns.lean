import NginxEsi.Overflow

/-!
# Where callbacks come from

The tag handlers are called by the actions of the machine and nowhere else.  `Makes` says that a
tag callback is made at a turn of the machine inside a run: while it consumes the byte `b`, behind
`u` of the current chunk.  Every tag callback of a run is made at such a turn (`exists_makes`),
also when the run ends in a fault.
-/

namespace NginxEsi

namespace ESIParser

/-- The callbacks made up to an outcome. -/
def callbacksOf : Except Stop ESIParser → List Callback
  | .ok c => c.out.callbacks
  | .error stop => stop.callbacks

end ESIParser

/-- The callbacks of a scanner, with `esi_parser_finish` behind it. -/
def Scanner.callbacksOf : Except Stop Scanner → List Callback
  | .ok s => s.finish.out.callbacks
  | .error stop => stop.callbacks

namespace ESIParser

theorem callbacksOf_parse {chunks : List Bytes} (h : InRange chunks) :
    callbacksOf (parse chunks) = Scanner.callbacksOf (({} : Scanner).feedAll chunks.flatten) := by
  have houtcome := outcome_parse h
  rw [Scanner.parse] at houtcome
  generalize parse chunks = x at houtcome
  generalize Scanner.feedAll _ _ = y at houtcome
  cases x <;> cases y <;> first
    | cases houtcome; done
    | exact congrArg Stop.callbacks (Except.error.inj houtcome)
    | exact (Prod.mk.inj (Except.ok.inj houtcome)).1

section turn

variable {data : Bytes} {p : ℕ} {ch : UInt8} {c c' : ESIParser} {stop : Stop}

/-! ## A turn that ends in a fault -/

theorem check_error {α : Type} {x : Except Fault α} (h : c.check x = .error stop) :
    stop.callbacks = c.out.callbacks := by
  cases x with
  | error e =>
    rw [check, Except.mapError, Except.error.injEq] at h
    rw [← h]
  | ok a => cases h

theorem completeTag_error {withEnd : Bool} (h : c.completeTag data p withEnd = .error stop) :
    tagCalls stop.callbacks = tagCalls c.out.callbacks := by
  rcases Run.bind_error h with h | ⟨⟨tagText, len⟩, -, h⟩
  · rw [check_error h]
  rcases Run.bind_error h with h | ⟨name, -, h⟩
  · rw [check_error h]
    exact Output.flush_tagCalls c.out
  · cases h

theorem takeName_error {skip : ℕ} (h : c.takeName data p skip = .error stop) :
    tagCalls stop.callbacks = tagCalls c.out.callbacks := by
  rcases Run.bind_error h with h | ⟨length, -, h⟩
  · rw [check_error h]
  rcases Run.bind_error h with h | ⟨⟨tagText, len⟩, -, h⟩
  · rw [check_error h]
  rcases Run.bind_error h with h | ⟨name, -, h⟩
  · rw [check_error h]
    exact Output.flush_tagCalls c.out
  · cases h

theorem act_error (f : ActionList) (h : c.act data p ch (Scanner.main f) = .error stop) :
    tagCalls stop.callbacks = tagCalls c.out.callbacks := by
  cases f with
  | f0 | f10 | f1 | f12 => cases h
  | f2 | f4 =>
    rcases Run.bind_error h with h | ⟨⟨name, m⟩, -, h⟩
    · exact takeName_error h
    · cases h
  | f5 | f8 => exact completeTag_error h
  | f3 =>
    rcases Run.bind_error h with h | ⟨length, -, h⟩
    · rw [check_error h]
    · cases h
  | f6 =>
    rcases Run.bind_error h with h | ⟨length, -, h⟩
    · rw [check_error h]
    rcases Run.bind_error h with h | ⟨⟨attrKey, len⟩, -, h⟩
    · rw [check_error h]
    · cases h
  | f7 | f11 =>
    rcases Run.bind_error h with h | ⟨length, -, h⟩
    · rw [check_error h]
    rcases Run.bind_error h with h | ⟨⟨attrValue, len⟩, -, h⟩
    · rw [check_error h]
    rcases Run.bind_error h with h | ⟨name, -, h⟩
    · rw [check_error h]
    rcases Run.bind_error h with h | ⟨value, -, h⟩
    · rw [check_error h]
    · cases h

/-! ## The tag callbacks of a turn -/

theorem echo_tagCalls (c : ESIParser) (ch : UInt8) :
    tagCalls (c.echo ch).out.callbacks = tagCalls c.out.callbacks := by
  rw [echo_out]
  split_ifs
  · exact Output.foldl_echoChar_tagCalls _ _
  · rfl

theorem step_error (h : c.step data p ch = .error stop) :
    tagCalls stop.callbacks = tagCalls c.out.callbacks := by
  rw [step_eq] at h
  rw [act_error _ h, echo_tagCalls]

/-- A turn makes the tag callbacks of its list; one that ends in a fault makes none. -/
theorem step_tagCalls (data : Bytes) (p : ℕ) (ch : UInt8) (c : ESIParser) :
    ∃ ts, tagCalls (callbacksOf (c.step data p ch)) = tagCalls c.out.callbacks ++ ts ∧
      (ts = [] ∨ (c.cs.list ch).Calls c.attributes ts) := by
  cases h : c.step data p ch with
  | ok c' =>
    obtain ⟨ts, hframe, hcalls⟩ := step_calls h
    refine ⟨ts, ?_, .inr hcalls⟩
    rw [callbacksOf, hframe.out, Output.tags_tagCalls hframe.isTag, echo_tagCalls]
  | error stop =>
    refine ⟨[], ?_, .inl rfl⟩
    rw [List.append_nil, callbacksOf, step_error h]

end turn

/-! ## The turns of a run -/

/-- After the calls `done` and the part `u` of the next chunk, the turn at the byte `b` makes the
tag callback `t`. -/
def Makes (done : List Bytes) (chunk u : Bytes) (b : UInt8) (t : Callback) : Prop :=
  ∃ v data p m ts, chunk = u ++ b :: v ∧ ReachesAt done chunk u data p m ∧
    tagCalls (callbacksOf (m.step data p b)) = tagCalls m.out.callbacks ++ ts ∧ t ∈ ts

/-- A tag callback at a turn is one of its list. -/
theorem Makes.calls {done : List Bytes} {chunk u : Bytes} {b : UInt8} {t : Callback}
    (h : Makes done chunk u b t) :
    ∃ v data p m ts, chunk = u ++ b :: v ∧ ReachesAt done chunk u data p m ∧
      (m.cs.list b).Calls m.attributes ts ∧ t ∈ ts := by
  obtain ⟨v, data, p, m, ts, hchunk, hreach, hts, ht⟩ := h
  obtain ⟨ts', hts', hcalls⟩ := step_tagCalls data p b m
  obtain rfl : ts = ts' := List.append_cancel_left (hts.symm.trans hts')
  refine ⟨v, data, p, m, ts, hchunk, hreach, hcalls.resolve_left ?_, ht⟩
  rintro rfl
  cases ht

/-- A tag callback of the machine over a part of a buffer was there before, or a turn makes it. -/
theorem exec_tagCalls {data : Bytes} {t : Callback} : ∀ {rest : Bytes} {p : ℕ} {c : ESIParser},
    t ∈ tagCalls (callbacksOf (c.exec data rest p)) →
    t ∈ tagCalls c.out.callbacks ∨ ∃ u b v m ts, rest = u ++ b :: v ∧ c.exec data u p = .ok m ∧
      tagCalls (callbacksOf (m.step data (p + u.length) b)) = tagCalls m.out.callbacks ++ ts ∧
      t ∈ ts
  | [], _, _, h => .inl h
  | b :: rest, p, c, h => by
    obtain ⟨ts, hts, -⟩ := step_tagCalls data p b c
    have hhere : t ∈ ts → ∃ u b' v m ts, b :: rest = u ++ b' :: v ∧ c.exec data u p = .ok m ∧
        tagCalls (callbacksOf (m.step data (p + u.length) b')) = tagCalls m.out.callbacks ++ ts ∧
        t ∈ ts := fun ht => ⟨[], b, rest, c, ts, rfl, rfl, hts, ht⟩
    rw [exec] at h
    cases hstep : c.step data p b with
    | error stop =>
      rw [hstep] at h hts
      change t ∈ tagCalls (callbacksOf (.error stop)) at h
      rw [hts] at h
      exact (List.mem_append.1 h).imp_right hhere
    | ok m =>
      rw [hstep] at h hts
      rcases exec_tagCalls (show t ∈ tagCalls (callbacksOf (m.exec data rest (p + 1))) from h) with
        h | ⟨u, b', v, m', ts', rfl, hexec, hts', ht⟩
      · rw [callbacksOf] at hts
        rw [hts] at h
        exact (List.mem_append.1 h).imp_right hhere
      · refine .inr ⟨b :: u, b', v, m', ts', rfl, ?_, ?_, ht⟩
        · rw [exec, hstep]
          exact hexec
        · rwa [List.length_cons, Nat.add_comm u.length, ← Nat.add_assoc]

/-- The callbacks of a call are those of the machine, if it runs. -/
theorem execute_callbacks_cases (c : ESIParser) (chunk : Bytes) :
    tagCalls (callbacksOf (c.execute chunk)) = tagCalls c.out.callbacks ∨
      ∃ m u, chunk ≠ [] ∧ ¬ c.TakesFastPath chunk ∧ c.enter chunk = (m, u ++ chunk, u.length) ∧
        m.bare = c.bare ∧
        callbacksOf (c.execute chunk) = callbacksOf (m.exec (u ++ chunk) chunk u.length) := by
  by_cases hne : chunk = []
  · rw [execute, if_pos hne]
    exact .inl rfl
  by_cases hfast : c.TakesFastPath chunk
  · rw [execute, if_neg hne, if_pos hfast, callbacksOf, echoChar_out,
      Output.foldl_echoChar_tagCalls]
    exact .inl rfl
  obtain ⟨m, u, henter, hbare⟩ := enter_bare c chunk
  refine .inr ⟨m, u, hne, hfast, henter, hbare, ?_⟩
  rw [execute, if_neg hne, if_neg hfast, henter]
  simp only [List.drop_left]
  cases m.exec (u ++ chunk) chunk u.length with
  | error stop => rfl
  | ok m' =>
    exact congrArg Output.callbacks (leave_out m' (u ++ chunk))

/-- Every tag callback of a run is made at a turn of the machine. -/
theorem exists_makes {chunks : List Bytes} {t : Callback}
    (h : t ∈ tagCalls (callbacksOf (new.executeAll chunks))) :
    ∃ done chunk later u b, chunks = done ++ chunk :: later ∧ Makes done chunk u b t := by
  induction chunks using List.reverseRecOn with
  | nil => cases h
  | append_singleton chunks chunk ih =>
    have hold : t ∈ tagCalls (callbacksOf (new.executeAll chunks)) →
        ∃ done chunk' later u b, chunks ++ [chunk] = done ++ chunk' :: later ∧
          Makes done chunk' u b t := by
      intro h
      obtain ⟨done, chunk', later, u, b, rfl, hmakes⟩ := ih h
      exact ⟨done, chunk', later ++ [chunk], u, b, by simp, hmakes⟩
    rw [executeAll, List.foldlM_append] at h
    change t ∈ tagCalls (callbacksOf (new.executeAll chunks >>= _)) at h
    cases hc : new.executeAll chunks with
    | error stop =>
      rw [hc] at h hold
      exact hold h
    | ok c =>
      rw [hc] at h hold
      change t ∈ tagCalls (callbacksOf (c.execute chunk >>= pure)) at h
      rw [bind_pure] at h
      rcases execute_callbacks_cases c chunk with heq | ⟨m₀, pre, hne, hfast, henter, hbare, heq⟩
      · rw [heq] at h
        exact hold h
      rw [heq] at h
      rcases exec_tagCalls h with h | ⟨u, b, v, m, ts, rfl, hexec, hts, ht⟩
      · rw [bare_out hbare] at h
        exact hold h
      · exact ⟨chunks, _, [], u, b, rfl, v, _, _, m, ts, rfl,
          ⟨c, m₀, _, hc, hne, hfast, henter, List.prefix_append _ _, hexec, rfl⟩, hts, ht⟩

end ESIParser

end NginxEsi
