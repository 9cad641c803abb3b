import NginxEsi.Names

/-!
# Collecting attributes

What one byte does to the attributes, the text since the mark and the tag callbacks.  An attribute
is collected at a quote only, with the text since the mark as its value; a property of every
attribute collected is one of every attribute reported (`Recorded`).
-/

namespace NginxEsi

open BranchTable

/-- The attributes behind a list that collects `a`. -/
def ActionList.collect (a : ESIAttribute) (as : List ESIAttribute) : ActionList → List ESIAttribute
  | .f4 | .f5 | .f8 => []
  | .f7 | .f11 => as ++ [a]
  | _ => as

/-- The list runs `see_attribute_value`. -/
def ActionList.collects : ActionList → Bool
  | .f7 | .f11 => true
  | _ => false

theorem collects_edges : ∀ s : State, ∀ e ∈ (row s).edges, e.2.goto.2.collects = true →
    e.1 = .single 34 ∨ e.1 = .single 39 := by
  decide +kernel

/-- A value ends at a quote. -/
theorem State.quote_of_collects {q : State} {b : UInt8} (h : (q.list b).collects = true) :
    b = 34 ∨ b = 39 := by
  obtain ⟨g, hg, hedge⟩ := forall_transition
    (P := fun _ g t => t.goto.2.collects = true → g = .single 34 ∨ g = .single 39)
    collects_edges q b
  rcases hedge h with rfl | rfl
  · exact .inl (Guard.eq_ofNat_of_holds hg)
  · exact .inr (Guard.eq_ofNat_of_holds hg)

namespace Scanner

variable {s s' m : Scanner} {b : UInt8}

/-! ## One byte -/

theorem feed_since (h : s.feed b = .ok s') :
    s'.since = (if (s.cs.list b).keepsMark then s.since else []) ++ [b] := by
  obtain ⟨m, hm, rfl⟩ := feed_ok h
  have hsince := act_since _ hm
  rw [enter_since] at hsince
  exact congrArg (· ++ [b]) hsince

theorem act_attributes {previous : State} (f : ActionList)
    (h : s.act previous b (main f) = .ok m) :
    m.attributes = f.collect ⟨s.key, trim s.since⟩ s.attributes := by
  cases f with
  | f5 | f8 =>
    obtain ⟨n, -, rfl⟩ := completeTag_ok h
    rfl
  | _ =>
    obtain rfl := Except.ok.inj h
    rfl

theorem feed_attributes (h : s.feed b = .ok s') :
    s'.attributes = (s.cs.list b).collect ⟨s.key, trim s.since⟩ s.attributes := by
  obtain ⟨m, hm, rfl⟩ := feed_ok h
  have hattr := act_attributes _ hm
  rwa [enter_key, enter_since, enter_attributes] at hattr

theorem act_key {previous : State} (f : ActionList) (h : s.act previous b (main f) = .ok m) :
    m.key = if f = .f6 then trim s.since else s.key := by
  cases f with
  | f5 | f8 =>
    obtain ⟨n, -, rfl⟩ := completeTag_ok h
    rfl
  | _ =>
    obtain rfl := Except.ok.inj h
    rfl

theorem feed_key (h : s.feed b = .ok s') :
    s'.key = if s.cs.list b = .f6 then trim s.since else s.key := by
  obtain ⟨m, hm, rfl⟩ := feed_ok h
  have hkey := act_key _ hm
  rwa [enter_since, enter_key] at hkey

theorem report_tagCalls (s : Scanner) {t : Callback} (h : t.isTag = true) :
    tagCalls (s.report t).out.callbacks = tagCalls s.out.callbacks ++ [t] := by
  change tagCalls ((s.out.flush.call t).flush).callbacks = _
  rw [Output.call_flush_tagCalls _ h, Output.flush_tagCalls]

/-- The tag callbacks of a list, with the names and attributes that the scanner has for them. -/
def Calls (s : Scanner) (f : ActionList) (ts : List Callback) : Prop :=
  match f with
  | .f2 => ts = [.endTag (trim (s.since.drop 2))]
  | .f4 => ts = [.startTag (trim s.since) []]
  | .f5 => ∃ n, s.name = some n ∧ ts = [.startTag (trim n) s.attributes]
  | .f8 => ∃ n, s.name = some n ∧ ts = [.startTag (trim n) s.attributes, .endTag (trim n)]
  | _ => ts = []

/-- A start callback is told no attributes, or those collected so far. -/
theorem Calls.startTag {f : ActionList} {ts : List Callback} {name : Bytes}
    {as : List ESIAttribute} (h : s.Calls f ts) (ht : .startTag name as ∈ ts) :
    (f = .f4 ∧ name = trim s.since ∧ as = []) ∨
      (f.completes = true ∧ (∃ n, s.name = some n ∧ name = trim n) ∧ as = s.attributes) := by
  cases f with
  | f2 =>
    obtain rfl : ts = _ := h
    simp at ht
  | f4 =>
    obtain rfl : ts = _ := h
    rw [List.mem_singleton, Callback.startTag.injEq] at ht
    exact .inl ⟨rfl, ht⟩
  | f5 | f8 =>
    obtain ⟨n, hn, rfl⟩ := h
    simp only [List.mem_cons, Callback.startTag.injEq, List.not_mem_nil, reduceCtorEq, or_false] at ht
    exact .inr ⟨rfl, ⟨n, hn, ht.1⟩, ht.2⟩
  | _ =>
    obtain rfl : ts = [] := h
    cases ht

theorem act_tagCalls {previous : State} (f : ActionList) (h : s.act previous b (main f) = .ok m) :
    ∃ ts, s.Calls f ts ∧ tagCalls m.out.callbacks = tagCalls s.out.callbacks ++ ts := by
  cases f with
  | f2 | f4 =>
    obtain rfl := Except.ok.inj h
    exact ⟨_, rfl, report_tagCalls s rfl⟩
  | f5 =>
    obtain ⟨n, hn, rfl⟩ := completeTag_ok h
    exact ⟨_, ⟨n, hn, rfl⟩, report_tagCalls s rfl⟩
  | f8 =>
    obtain ⟨n, hn, rfl⟩ := completeTag_ok h
    refine ⟨_, ⟨n, hn, rfl⟩, ?_⟩
    dsimp only
    rw [if_pos rfl, report_tagCalls _ rfl, report_tagCalls s rfl, List.append_assoc]
    rfl
  | _ =>
    obtain rfl := Except.ok.inj h
    exact ⟨[], rfl, (List.append_nil _).symm⟩

theorem enter_tagCalls (q : State) (b : UInt8) (s : Scanner) :
    tagCalls (s.enter q b).out.callbacks = tagCalls s.out.callbacks := by
  unfold enter echo
  split_ifs
  · exact Output.foldl_echoChar_tagCalls _ _
  · rfl
  · rfl

/-- The tag callbacks of a byte are those of its list. -/
theorem feed_tagCalls (h : s.feed b = .ok s') :
    ∃ ts, s.Calls (s.cs.list b) ts ∧
      tagCalls s'.out.callbacks = tagCalls s.out.callbacks ++ ts := by
  obtain ⟨m, hm, rfl⟩ := feed_ok h
  obtain ⟨ts, hcalls, hts⟩ := act_tagCalls _ hm
  unfold Calls at hcalls
  rw [enter_since, enter_name, enter_attributes] at hcalls
  rw [enter_tagCalls] at hts
  exact ⟨ts, hcalls, hts⟩

/-! ## Every attribute -/

/-- Every attribute collected or reported satisfies `P`. -/
structure Recorded (P : ESIAttribute → Prop) (s : Scanner) : Prop where
  collected : ∀ a ∈ s.attributes, P a
  reported : ∀ name as, .startTag name as ∈ tagCalls s.out.callbacks → ∀ a ∈ as, P a

variable {P : ESIAttribute → Prop}

theorem Recorded.feed (hs : s.Recorded P) (h : s.feed b = .ok s')
    (hnew : (s.cs.list b).collects = true → P ⟨s.key, trim s.since⟩) : s'.Recorded P := by
  obtain ⟨ts, hcalls, hts⟩ := feed_tagCalls h
  have hattr := feed_attributes h
  generalize s.cs.list b = f at hnew hcalls hattr
  refine ⟨fun a ha => ?_, fun name as hmem a ha => ?_⟩
  · rw [hattr] at ha
    cases f with
    | f4 | f5 | f8 => cases ha
    | f7 | f11 =>
      rcases List.mem_append.1 ha with ha | ha
      · exact hs.collected a ha
      · rw [List.mem_singleton.1 ha]
        exact hnew rfl
    | _ => exact hs.collected a ha
  · rw [hts] at hmem
    rcases List.mem_append.1 hmem with hmem | hmem
    · exact hs.reported name as hmem a ha
    · rcases hcalls.startTag hmem with ⟨-, -, rfl⟩ | ⟨-, -, rfl⟩
      · cases ha
      · exact hs.collected a ha

end Scanner

end NginxEsi
