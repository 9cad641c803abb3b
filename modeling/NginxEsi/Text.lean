import NginxEsi.Events
import NginxEsi.Stage

/-!
# Text between tags

Between tags the machine only looks for `<esi:` and `</esi:`.  In its textual states a prefix of
one of them may be pending; the echo withholds it and releases it when the candidate is rejected.
As long as no tag handler is called and no held byte is discarded, the bytes sent followed by the
bytes held are the bytes consumed (`feedAll_released`).
-/

namespace NginxEsi

open BranchTable

/-- The state behind a byte. -/
def State.next (s : State) (b : UInt8) : State := (transition s b).goto.1

/-- The action list run at a byte. -/
def State.list (s : State) (b : UInt8) : ActionList := (transition s b).goto.2

/-- The list calls no tag handler. -/
def ActionList.silent : ActionList → Bool
  | .f2 | .f4 | .f5 | .f8 => false
  | _ => true

/-- The list only echoes and moves the mark. -/
def ActionList.marking : ActionList → Bool
  | .f0 | .f1 | .f10 | .f12 => true
  | _ => false

/-- The echo at `b` discards the held bytes, and `b` with them. -/
def State.Discards (s : State) (b : UInt8) : Prop := s.next b = .s0 ∧ (s = .s7 ∨ s = .s12)

instance (s : State) (b : UInt8) : Decidable (s.Discards b) := inferInstanceAs (Decidable (_ ∧ _))

/-! ## Silent runs of the scanner -/

namespace Scanner

theorem feed_silent {s : Scanner} {b : UInt8} (h : (s.cs.list b).silent = true) :
    ∃ s', s.feed b = .ok s' ∧ s'.cs = s.cs.next b ∧
      s'.held = (s.enter (s.cs.next b) b).held ∧ s'.out = (s.enter (s.cs.next b) b).out ∧
      ((s.cs.list b).marking = true → s'.attributes = s.attributes) := by
  rw [feed_eq]
  have hcs := s.enter_cs (s.cs.next b) b
  have hattr := s.enter_attributes (s.cs.next b) b
  unfold State.list State.next at *
  generalize (transition s.cs b).goto = t at h hcs hattr ⊢
  obtain ⟨cs, f⟩ := t
  cases f
  case f2 | f4 | f5 | f8 => cases h
  case f0 | f1 | f10 | f12 => exact ⟨_, rfl, hcs, rfl, rfl, fun _ => hattr⟩
  all_goals exact ⟨_, rfl, hcs, rfl, rfl, fun h' => by cases h'⟩

/-- The echo releases some of the bytes and holds the others. -/
theorem enter_released {s : Scanner} {b : UInt8} (h : ¬ s.cs.Discards b) :
    ∃ r, (s.enter (s.cs.next b) b).out = r.foldl Output.echoChar s.out ∧
      r ++ (s.enter (s.cs.next b) b).held = s.held ++ [b] := by
  by_cases h0 : s.cs.next b = .s0
  · have hcs : s.cs ≠ .s12 ∧ s.cs ≠ .s7 :=
      ⟨fun e => h ⟨h0, .inr e⟩, fun e => h ⟨h0, .inl e⟩⟩
    rw [h0, enter_zero b s hcs]
    exact ⟨s.held ++ [b], rfl, List.append_nil _⟩
  · rw [enter_of_ne b s h0]
    exact ⟨[], rfl, rfl⟩

/-- Bytes consumed without a tag callback and without a discard are sent or held. -/
theorem feedAll_released {s : Scanner} {u : Bytes}
    (h : Run.Along State.next (fun q b => (q.list b).silent = true ∧ ¬ q.Discards b) s.cs u) :
    ∃ s', s.feedAll u = .ok s' ∧ s'.cs = u.foldl State.next s.cs ∧
      (Run.Along State.next (fun q b => (q.list b).marking = true) s.cs u →
        s'.attributes = s.attributes) ∧
      ∃ r, s'.out = r.foldl Output.echoChar s.out ∧ r ++ s'.held = s.held ++ u := by
  induction u generalizing s with
  | nil => exact ⟨s, rfl, rfl, fun _ => rfl, [], rfl, by simp⟩
  | cons b u ih =>
    obtain ⟨⟨hsilent, hdisc⟩, h⟩ := Run.along_cons.1 h
    obtain ⟨m, hm, hcs, hheld, hout, hattr⟩ := feed_silent hsilent
    obtain ⟨r, hr, hrb⟩ := enter_released hdisc
    obtain ⟨s', hs', hcs', hattr', r', hr', hru⟩ := ih (hcs ▸ h)
    refine ⟨s', Run.cons_ok.2 ⟨m, hm, hs'⟩, by rw [hcs', hcs, List.foldl_cons], fun hp => ?_,
      r ++ r', ?_, ?_⟩
    · obtain ⟨hb, hp⟩ := Run.along_cons.1 hp
      rw [hattr' (hcs ▸ hp), hattr hb]
    · rw [hr', hout, hr, List.foldl_append]
    · rw [List.append_assoc, hru, hheld, ← List.append_assoc, hrb, List.append_assoc,
        List.singleton_append]

end Scanner

/-! ## Textual states -/

/-- At most a prefix of `<esi:` or `</esi:` is pending. -/
def State.textual : State → Bool
  | .s0 | .s1 | .s2 | .s3 | .s4 | .s5 | .s8 | .s9 | .s10 | .s75 | .s79 => true
  | _ => false

/-- Nothing is pending. -/
def State.rest : State → Bool
  | .s0 | .s75 | .s79 => true
  | _ => false

/-- Text without a complete `<esi:` or `</esi:`. -/
def TagFree (u : Bytes) : Prop := ¬ tagOpen <:+: u ∧ ¬ tagClose <:+: u

instance (u : Bytes) : Decidable (TagFree u) := inferInstanceAs (Decidable (_ ∧ _))

/-- The text ends in a nonempty prefix of `<esi:` or `</esi:`. -/
def Pending (u : Bytes) : Prop := ∃ w, w ≠ [] ∧ w <:+ u ∧ (w <+: tagOpen ∨ w <+: tagClose)

theorem tagFree_of_not_mem {u : Bytes} (h : (60 : UInt8) ∉ u) : TagFree u :=
  ⟨fun h' => h (h'.subset (by decide)), fun h' => h (h'.subset (by decide))⟩

theorem not_pending_of_not_mem {u : Bytes} (h : (60 : UInt8) ∉ u) : ¬ Pending u := by
  rintro ⟨w, hne, hsuf, hpre⟩
  obtain ⟨b, w, rfl⟩ := List.exists_cons_of_ne_nil hne
  have hb : b = 60 := by
    rcases hpre with ⟨t, ht⟩ | ⟨t, ht⟩
    · exact (List.cons.inj ht).1
    · exact (List.cons.inj ht).1
  exact h (hsuf.subset (hb ▸ List.mem_cons_self))

theorem TagFree.left {u v : Bytes} (h : TagFree (u ++ v)) : TagFree u :=
  ⟨fun h' => h.1 (h'.trans List.infix_append_left),
    fun h' => h.2 (h'.trans List.infix_append_left)⟩

/-- A text that ends as the stage of the state says. -/
def State.Ends (s : State) (u : Bytes) : Prop := ∃ t, t <:+ u ∧ (stage s).Fits t

theorem State.Ends.next {s : State} {u : Bytes} (h : s.Ends u) (b : UInt8) :
    (s.next b).Ends (u ++ [b]) := by
  obtain ⟨t, ht, hfits⟩ := h
  refine ⟨_, ?_, stage_fits_transition hfits b⟩
  rw [List.suffix_concat_iff]
  right
  refine ⟨_, rfl, ?_⟩
  split_ifs
  · exact ht
  · exact List.nil_suffix

theorem State.rest_ends {s : State} (h : s.rest = true) (u : Bytes) : s.Ends u := by
  refine ⟨[], List.nil_suffix, ?_⟩
  cases s <;> trivial

theorem textual_edges : ∀ s : State, s.textual = true → ∀ e ∈ (row s).edges,
    (e.2.goto.2.marking = true ∧ e.2.goto.1.textual = true ∧ e.2.goto.1 ≠ .s79) ∨
      (e.1 = .single 58 ∧ (s = .s5 ∨ s = .s10)) := by
  decide +kernel

/-- A tag-free text keeps the machine in its textual states. -/
theorem State.textual_next {s : State} {u : Bytes} {b : UInt8} (hs : s.textual = true)
    (hends : s.Ends u) (hfree : TagFree (u ++ [b])) :
    (s.list b).marking = true ∧ (s.next b).textual = true ∧ s.next b ≠ .s79 := by
  obtain ⟨g, hg, h⟩ := forall_transition
    (P := fun s g t => s.textual = true → (t.goto.2.marking = true ∧ t.goto.1.textual = true ∧
      t.goto.1 ≠ .s79) ∨ (g = .single 58 ∧ (s = .s5 ∨ s = .s10)))
    (fun s e he hs => textual_edges s hs e he) s b
  rcases h hs with h | ⟨rfl, h'⟩
  · exact h
  · exfalso
    obtain rfl : b = 58 := Guard.eq_ofNat_of_holds hg
    obtain ⟨t, ⟨x, rfl⟩, hfits⟩ := hends
    rcases h' with rfl | rfl
    · obtain rfl : t = tagClose.take 5 := hfits
      exact hfree.2 ⟨x, [], by simp [tagClose]⟩
    · obtain rfl : t = tagOpen.take 4 := hfits
      exact hfree.1 ⟨x, [], by simp [tagOpen]⟩

theorem silent_of_marking {f : ActionList} (h : f.marking = true) : f.silent = true := by
  cases f <;> first | rfl | cases h

theorem State.not_discards_of_textual {s : State} {b : UInt8} (h : s.textual = true) :
    ¬ s.Discards b := by
  rintro ⟨-, rfl | rfl⟩ <;> cases h

/-- A run over tag-free text. -/
theorem along_tagFree {s : State} {u v : Bytes} (hs : s.textual = true) (hends : s.Ends v)
    (hfree : TagFree (v ++ u)) :
    Run.Along State.next (fun q b => q.textual = true ∧ (q.list b).marking = true) s u ∧
      (u.foldl State.next s).textual = true ∧ (u.foldl State.next s).Ends (v ++ u) ∧
      (u ≠ [] → u.foldl State.next s ≠ .s79) := by
  induction u generalizing s v with
  | nil => exact ⟨Run.along_nil s, hs, by simpa using hends, fun h => absurd rfl h⟩
  | cons b u ih =>
    rw [← List.singleton_append, ← List.append_assoc] at hfree
    obtain ⟨hmarking, hnext, hne⟩ := s.textual_next hs hends hfree.left
    obtain ⟨halong, htext, hends', hne'⟩ := ih hnext (hends.next b) hfree
    refine ⟨Run.along_cons.2 ⟨⟨hs, hmarking⟩, halong⟩, htext, by simpa using hends', fun _ => ?_⟩
    cases u with
    | nil => exact hne
    | cons c u => exact hne' (List.cons_ne_nil c u)

/-! ## Pending candidates -/

theorem pending_states : ∀ s : State, s.textual = true → ∀ k : Fin 6, k ≠ 0 →
    ((tagOpen.take k).foldl State.next s).rest = false ∧
      ((tagClose.take k).foldl State.next s).rest = false := by
  decide +kernel

theorem State.rest_textual {s : State} (h : s.rest = true) : s.textual = true := by
  cases s <;> trivial

theorem State.pending_stage {s : State} (h : s.textual = true) (h' : s.rest = false) :
    ∃ w, w ≠ [] ∧ stage s = .literal w ∧ (w <+: tagOpen ∨ w <+: tagClose) := by
  cases s
  case s1 => exact ⟨_, by decide, rfl, by decide⟩
  case s2 => exact ⟨_, by decide, rfl, by decide⟩
  case s3 => exact ⟨_, by decide, rfl, by decide⟩
  case s4 => exact ⟨_, by decide, rfl, by decide⟩
  case s5 => exact ⟨_, by decide, rfl, by decide⟩
  case s8 => exact ⟨_, by decide, rfl, by decide⟩
  case s9 => exact ⟨_, by decide, rfl, by decide⟩
  case s10 => exact ⟨_, by decide, rfl, by decide⟩
  all_goals trivial

/-- Behind tag-free text, something is pending exactly when the text ends in a prefix of a
delimiter. -/
theorem rest_iff_not_pending {s : State} {u : Bytes} (hs : s.rest = true) (hfree : TagFree u) :
    (u.foldl State.next s).rest = true ↔ ¬ Pending u := by
  constructor
  · rintro hrest ⟨w, hne, ⟨x, rfl⟩, hw⟩
    obtain ⟨-, hq, -⟩ := along_tagFree (State.rest_textual hs) (State.rest_ends hs [])
      (show TagFree ([] ++ x) from hfree.left)
    have hlen : w.length ≤ 6 := by
      rcases hw with hw | hw
      · exact hw.length_le.trans (by decide)
      · exact hw.length_le
    have hpos : 0 < w.length := List.length_pos_iff.2 hne
    rw [List.foldl_append] at hrest
    rcases hlen.lt_or_eq with hlt | heq
    · have h := pending_states _ hq ⟨w.length, hlt⟩ (by simp [Fin.ext_iff, hne])
      rcases hw with hw | hw
      · rw [← List.prefix_iff_eq_take.1 hw, hrest] at h
        simp at h
      · rw [← List.prefix_iff_eq_take.1 hw, hrest] at h
        simp at h
    · -- all six bytes of a delimiter are there
      rcases hw with hw | hw
      · exact absurd hw.length_le (by rw [heq]; decide)
      · obtain rfl := hw.eq_of_length heq
        exact hfree.2 (List.suffix_append x tagClose).isInfix
  · intro hp
    obtain ⟨-, htext, hends, -⟩ := along_tagFree (State.rest_textual hs) (State.rest_ends hs [])
      (show TagFree ([] ++ u) from hfree)
    by_contra h
    obtain ⟨w, hne, hw, hprefix⟩ := State.pending_stage htext (Bool.eq_false_iff.2 h)
    obtain ⟨t, ht, hfits⟩ := hends
    rw [hw] at hfits
    obtain rfl : t = w := hfits
    exact hp ⟨t, hne, ht, hprefix⟩

/-! ## Tag-free text in the scanner -/

namespace Scanner

/-- Between two bytes of text, with `u` the bytes since a state of rest. -/
structure InText (u : Bytes) (s : Scanner) : Prop where
  textual : s.cs.textual = true
  ends : s.cs.Ends u
  held_eq : s.cs.rest = true ↔ s.held = []

theorem InText.of_rest {s : Scanner} (h : s.cs.rest = true) (hheld : s.held = []) : InText [] s :=
  ⟨State.rest_textual h, State.rest_ends h [], fun _ => hheld, fun _ => h⟩

theorem InText.feed {s : Scanner} {u : Bytes} {b : UInt8} (h : s.InText u)
    (hfree : TagFree (u ++ [b])) :
    ∃ s', s.feed b = .ok s' ∧ s'.InText (u ++ [b]) ∧ s'.cs = s.cs.next b ∧
      s'.attributes = s.attributes ∧
      ∃ r, s'.out = r.foldl Output.echoChar s.out ∧ r ++ s'.held = s.held ++ [b] := by
  obtain ⟨hmarking, htext, hne⟩ := State.textual_next h.textual h.ends hfree
  obtain ⟨s', hs', hcs, hheld, hout, hattr⟩ := feed_silent (silent_of_marking hmarking)
  obtain ⟨r, hr, hrb⟩ := enter_released (State.not_discards_of_textual (b := b) h.textual)
  refine ⟨s', hs', ⟨hcs ▸ htext, hcs ▸ h.ends.next b, ?_⟩, hcs, hattr hmarking, r,
    hout.trans hr, by rw [hheld, hrb]⟩
  rw [hcs, hheld]
  by_cases h0 : s.cs.next b = .s0
  · rw [h0, enter_zero_held]
    exact ⟨fun _ => rfl, fun _ => rfl⟩
  · rw [enter_of_ne b s h0]
    have hstart : s.cs.next b ≠ .s75 := (flow_transition s.cs b).ne_start
    have hrest : (s.cs.next b).rest = false := by
      revert h0 hne hstart
      cases s.cs.next b <;> simp [State.rest]
    simp [hrest]

theorem InText.feedAll {s : Scanner} {u v : Bytes} (h : s.InText v) (hfree : TagFree (v ++ u)) :
    ∃ s', s.feedAll u = .ok s' ∧ s'.InText (v ++ u) ∧ s'.cs = u.foldl State.next s.cs ∧
      s'.attributes = s.attributes ∧
      ∃ r, s'.out = r.foldl Output.echoChar s.out ∧ r ++ s'.held = s.held ++ u := by
  induction u generalizing s v with
  | nil => exact ⟨s, rfl, by simpa using h, rfl, rfl, [], rfl, by simp⟩
  | cons b u ih =>
    rw [← List.singleton_append, ← List.append_assoc] at hfree
    obtain ⟨m, hm, hin, hcs, hattr, r, hr, hrb⟩ := h.feed hfree.left
    obtain ⟨s', hs', hin', hcs', hattr', r', hr', hru⟩ := ih hin hfree
    refine ⟨s', Run.cons_ok.2 ⟨m, hm, hs'⟩, by simpa using hin', ?_, hattr'.trans hattr, r ++ r',
      ?_, ?_⟩
    · rw [hcs', hcs, List.foldl_cons]
    · rw [hr', hr, List.foldl_append]
    · rw [List.append_assoc, hru, ← List.append_assoc, hrb, List.append_assoc,
        List.singleton_append]

/-- From rest, tag-free text that leaves nothing pending is echoed. -/
theorem feedAll_text {s : Scanner} {u : Bytes} (hs : s.cs.rest = true) (hheld : s.held = [])
    (hfree : TagFree u) (hp : ¬ Pending u) :
    ∃ s', s.feedAll u = .ok s' ∧ s'.cs.rest = true ∧ s'.held = [] ∧
      s'.out = u.foldl Output.echoChar s.out ∧ s'.attributes = s.attributes := by
  obtain ⟨s', hs', hin, hcs, hattr, r, hr, hru⟩ :=
    (InText.of_rest hs hheld).feedAll (show TagFree ([] ++ u) from hfree)
  have hrest : s'.cs.rest = true := by
    rw [hcs]
    exact (rest_iff_not_pending hs hfree).2 hp
  have hnil := hin.held_eq.1 hrest
  rw [hnil, hheld, List.append_nil, List.nil_append] at hru
  exact ⟨s', hs', hrest, hnil, by rw [hr, hru], hattr⟩

end Scanner

end NginxEsi
