import NginxEsi.Attributes
import NginxEsi.Room
import NginxEsi.Segments

/-!
# Starting afresh

Whenever the machine is back in state 0, or behind a complete tag, with no attribute collected,
nothing of what it has read is left but `echobuffer_allocated`: as long as neither writes past its
echo buffer, what it reports of the rest of the document is what a fresh parser reports of it
(`parse_resumes`).  The mark, the tag name and the key may be stale, but every path sets them before
it uses them.
-/

namespace NginxEsi

namespace Scanner

variable {E : List Event} {s t s' t' : Scanner} {b : UInt8} {q₀ q : State} {f : ActionList}

/-! ## At rest -/

/-- Text behind a complete tag and text at the start are read alike. -/
theorem rest_transition {q : State} (hq : q.rest = true) : ∀ b : UInt8,
    q.next b = State.s75.next b ∧ main (q.list b) = main (State.s75.list b) := by
  cases q <;> first
    | (cases hq; done)
    | exact forall_byte (by decide +kernel)

/-- The scanner `s` goes on like `t`, behind the events `E`.  Where a field is not in use, the one
of `s` may be stale. -/
structure Resumes (E : List Event) (s t : Scanner) : Prop where
  cs : s.cs = t.cs ∨ s.cs.rest = true ∧ t.cs = .s75
  held : s.held = t.held
  events : s.out.events = E ++ t.out.events
  since : t.cs.marked = true → s.since = t.since
  name : t.cs.named = true → s.name = t.name
  key : t.cs.keyed = true → s.key = t.key
  attributes : s.attributes = t.attributes

theorem Resumes.transition_eq (h : Resumes E s t) (b : UInt8) :
    s.cs.next b = t.cs.next b ∧ main (s.cs.list b) = main (t.cs.list b) := by
  rcases h.cs with h | ⟨hs, ht⟩
  · rw [h]
    exact ⟨rfl, rfl⟩
  · rw [ht]
    exact rest_transition hs b

/-- The echo makes no difference between these states. -/
theorem Resumes.echoes_iff (h : Resumes E s t) :
    (s.cs ≠ .s12 ∧ s.cs ≠ .s7) ↔ t.cs ≠ .s12 ∧ t.cs ≠ .s7 := by
  rcases h.cs with h | ⟨hs, ht⟩
  · rw [h]
  · rw [ht]
    refine iff_of_true ⟨?_, ?_⟩ (by decide)
    · rintro hcs
      rw [hcs] at hs
      cases hs
    · rintro hcs
      rw [hcs] at hs
      cases hs

/-- The echo of a byte. -/
theorem Resumes.enter (h : Resumes E s t) (q : State) (b : UInt8) :
    (s.enter q b).held = (t.enter q b).held ∧
      (s.enter q b).out.events = E ++ (t.enter q b).out.events := by
  have hiff := h.echoes_iff
  unfold Scanner.enter echo
  dsimp only
  by_cases hq : q = .s0
  · rw [if_pos hq, if_pos hq]
    by_cases hechoes : t.cs ≠ .s12 ∧ t.cs ≠ .s7
    · rw [if_pos hechoes, if_pos (hiff.2 hechoes)]
      refine ⟨rfl, ?_⟩
      dsimp only
      rw [Output.foldl_echoChar_events, Output.foldl_echoChar_events, h.events, h.held,
        List.append_assoc]
    · rw [if_neg hechoes, if_neg fun h => hechoes (hiff.1 h)]
      exact ⟨rfl, h.events⟩
  · rw [if_neg hq, if_neg hq, h.held]
    exact ⟨rfl, h.events⟩

theorem report_events_eq (h : s.out.events = E ++ t.out.events) (c : Callback) :
    (s.report c).out.events = E ++ (t.report c).out.events := by
  rw [report, report, Output.call_flush_events, Output.call_flush_events, h, List.append_assoc]

theorem report_key (c : Callback) (s : Scanner) : (s.report c).key = s.key := rfl

/-- Two such scanners that have jumped from the state `q₀` to the state `q`. -/
structure Enters (E : List Event) (q₀ q : State) (s t : Scanner) : Prop where
  cs : s.cs = q ∧ t.cs = q
  held : s.held = t.held
  events : s.out.events = E ++ t.out.events
  since : q₀.marked = true → s.since = t.since
  name : q₀.named = true → s.name = t.name
  key : q₀.keyed = true → s.key = t.key
  attributes : s.attributes = t.attributes

/-- A complete tag that has been reported leaves its attributes, its name, its mark and what was
held. -/
theorem resumes_released (hcs : s.cs = t.cs) (hevents : s.out.events = E ++ t.out.events)
    (hkey : t.cs.keyed = true → s.key = t.key) :
    Resumes E ({ s with attributes := [], name := none, since := [], held := [] }.advance b)
      ({ t with attributes := [], name := none, since := [], held := [] }.advance b) where
  cs := .inl hcs
  held := rfl
  events := hevents
  since _ := rfl
  name _ := rfl
  key := hkey
  attributes := rfl

theorem Enters.completeTag (h : Enters E q₀ q s t) (hnamed : q₀.named = true)
    (hkey : t.cs.keyed = true → s.key = t.key) (withEnd : Bool) :
    Run.Agree (fun s' t' => (s'.advance b).Resumes E (t'.advance b))
      ((s.completeTag withEnd).mapError Stop.fault)
      ((t.completeTag withEnd).mapError Stop.fault) := by
  have hcs : s.cs = t.cs := h.cs.1.trans h.cs.2.symm
  have hname := h.name hnamed
  unfold Scanner.completeTag
  rw [hname, h.attributes]
  cases t.name with
  | none => exact .error _
  | some n =>
    have hstart := report_events_eq h.events (.startTag (trim n) t.attributes)
    cases withEnd with
    | false =>
      simp only [Bool.false_eq_true, if_false]
      refine .ok (resumes_released ?_ hstart ?_)
      · simpa only [report_cs] using hcs
      · simpa only [report_cs, report_key] using hkey
    | true =>
      have hend := report_events_eq hstart (.endTag (trim n))
      simp only [if_true]
      refine .ok (resumes_released ?_ hend ?_)
      · simpa only [report_cs] using hcs
      · simpa only [report_cs, report_key] using hkey

/-- The action of a list finds the fields that it uses. -/
theorem Enters.act (h : Enters E q₀ q s t) (hflow : Flow q₀ q f) (previous previous' : State) :
    Run.Agree (fun s' t' => (s'.advance b).Resumes E (t'.advance b))
      ((s.act previous b (main f)).mapError Stop.fault)
      ((t.act previous' b (main f)).mapError Stop.fault) := by
  have hcs : s.cs = t.cs := h.cs.1.trans h.cs.2.symm
  have hfinds := hflow.finds
  have hsince : f.keepsMark = true → t.cs.marked = true → s.since ++ [b] = t.since ++ [b] := by
    intro hf hmarked
    rw [h.cs.2] at hmarked
    rw [h.since (hflow.mark hmarked hf)]
  have hname : f.setsName = false → t.cs.named = true → s.name = t.name := by
    intro hf hnamed
    rw [h.cs.2] at hnamed
    exact h.name (hflow.name hnamed hf)
  have hkey : f ≠ .f6 → t.cs.keyed = true → s.key = t.key := by
    intro hf hkeyed
    rw [h.cs.2] at hkeyed
    exact h.key (hflow.key hkeyed hf)
  cases f with
  | f0 | f10 =>
    exact .ok ⟨.inl hcs, h.held, h.events, hsince rfl, hname rfl, hkey nofun, h.attributes⟩
  | f1 | f12 =>
    exact .ok ⟨.inl hcs, h.held, h.events, fun _ => rfl, hname rfl, hkey nofun, h.attributes⟩
  | f2 =>
    have htext := h.since (State.marked_of_stage hfinds)
    have hreport := report_events_eq h.events (.endTag (trim (t.since.drop 2)))
    dsimp only [Scanner.act, main]
    rw [htext]
    exact .ok ⟨.inl hcs, rfl, hreport, fun _ => rfl, fun _ => rfl, hkey nofun, h.attributes⟩
  | f3 =>
    have htext := h.since (State.marked_of_stage hfinds)
    refine .ok ⟨.inl hcs, h.held, h.events, fun _ => rfl, fun _ => ?_, hkey nofun, h.attributes⟩
    exact congrArg (fun u => some (u.drop 1)) htext
  | f4 =>
    have htext := h.since (State.marked_of_stage hfinds)
    have hreport := report_events_eq h.events (.startTag (trim t.since) [])
    dsimp only [Scanner.act, main]
    rw [htext]
    exact .ok ⟨.inl hcs, rfl, hreport, fun _ => rfl, fun _ => rfl, hkey nofun, rfl⟩
  | f5 => exact h.completeTag hfinds (hkey nofun) false
  | f8 => exact h.completeTag hfinds (hkey nofun) true
  | f6 =>
    have htext := h.since hfinds
    refine .ok ⟨.inl hcs, h.held, h.events, fun _ => rfl, hname rfl, fun _ => ?_, h.attributes⟩
    exact congrArg trim htext
  | f7 | f11 =>
    have htext := h.since (State.marked_of_keyed hfinds)
    have hkeyed := h.key hfinds
    refine .ok ⟨.inl hcs, h.held, h.events, fun _ => rfl, hname rfl, hkey nofun, ?_⟩
    change s.attributes ++ [⟨s.key, trim s.since⟩] = t.attributes ++ [⟨t.key, trim t.since⟩]
    rw [h.attributes, htext, hkeyed]

theorem Resumes.feed (h : Resumes E s t) (b : UInt8) :
    Run.Agree (Resumes E) ((s.feed b).mapError Stop.fault) ((t.feed b).mapError Stop.fault) := by
  obtain ⟨hnext, hmain⟩ := h.transition_eq b
  obtain ⟨hheld, hevents⟩ := h.enter (t.cs.next b) b
  have henters : Enters E t.cs (t.cs.next b) (s.enter (t.cs.next b) b)
      (t.enter (t.cs.next b) b) := by
    refine ⟨⟨enter_cs .., enter_cs ..⟩, hheld, hevents, ?_, ?_, ?_, ?_⟩
    · simpa only [enter_since] using h.since
    · simpa only [enter_name] using h.name
    · simpa only [enter_key] using h.key
    · simpa only [enter_attributes] using h.attributes
  have hact := henters.act (b := b) (flow_transition t.cs b) s.cs t.cs
  rw [feed_eq, feed_eq, Run.mapError_map, Run.mapError_map]
  have hsame : (s.enter (transition s.cs b).goto.1 b).act s.cs b (main (transition s.cs b).goto.2) =
      (s.enter (t.cs.next b) b).act s.cs b (main (t.cs.list b)) := by
    rw [← hnext, ← hmain]
    rfl
  rw [hsame]
  exact hact.map

theorem Resumes.feedAll (h : Resumes E s t) (u : Bytes) :
    Run.Agree (Resumes E) ((s.feedAll u).mapError Stop.fault)
      ((t.feedAll u).mapError Stop.fault) := by
  induction u generalizing s t with
  | nil => exact .ok h
  | cons b u ih =>
    rw [Scanner.feedAll, Scanner.feedAll, List.foldlM_cons, List.foldlM_cons, Run.mapError_bind,
      Run.mapError_bind]
    exact (h.feed b).bind fun s t h => ih h

end Scanner

namespace ESIParser

end ESIParser

end NginxEsi
