import NginxEsi.Rejected

/-!
# Tag names

`see_end_tag` and `see_block_start_with_attributes` use `tag_text`, which they set to `NULL`
themselves.  A tag can be completed inside a quoted value, where the machine goes on as if it were
behind the name of that tag; completing a second tag there dereferences `NULL`.  As long as a name
is read between two completions (`NamesAnew`), `tag_text` points into the buffer being scanned.
Every name that reaches a handler is `esi:` and letters.
-/

namespace NginxEsi

/-- The list runs `see_end_tag` or `see_block_start_with_attributes`. -/
def ActionList.completes : ActionList → Bool
  | .f5 | .f8 => true
  | _ => false

/-- The list reads a tag name. -/
def ActionList.names : ActionList → Bool
  | .f2 | .f3 | .f4 => true
  | _ => false

/-- The machine, and whether a tag name has been read since the last completion. -/
def follow (x : State × Bool) (b : UInt8) : State × Bool :=
  (x.1.next b, if (x.1.list b).completes then false else if (x.1.list b).names then true else x.2)

/-- A tag name is read before every completion of a tag. -/
def NamesAnew (d : Bytes) : Prop :=
  Run.Along follow (fun x b => (x.1.list b).completes = true → x.2 = true) (esiStart, false) d

instance (d : Bytes) : Decidable (NamesAnew d) := by
  unfold NamesAnew
  infer_instance

/-- A tag callback carries a tag name. -/
def Callback.IsNamed : Callback → Prop
  | .startTag name _ => IsTagName name
  | .endTag name => IsTagName name
  | .output _ => True

namespace Output

theorem mem_flush {o : Output} {t : Callback} (h : t ∈ o.flush.callbacks) (ht : t.isTag = true) :
    t ∈ o.callbacks := by
  unfold flush at h
  split_ifs at h
  · rcases List.mem_append.1 h with h | h
    · exact h
    · obtain rfl := List.mem_singleton.1 h
      cases ht
  · exact h

theorem mem_foldl_echoChar {u : Bytes} {o : Output} {t : Callback}
    (h : t ∈ (u.foldl echoChar o).callbacks) (ht : t.isTag = true) : t ∈ o.callbacks := by
  induction u generalizing o with
  | nil => exact h
  | cons b u ih =>
    have h' := ih h
    unfold echoChar at h'
    dsimp only at h'
    split_ifs at h'
    · exact mem_flush (o := { o with buffer := o.buffer ++ [b] }) h' ht
    · exact h'

theorem mem_call {o : Output} {c t : Callback} (h : t ∈ ((o.call c).flush).callbacks)
    (ht : t.isTag = true) : t ∈ o.callbacks ∨ t = c := by
  rcases List.mem_append.1 (mem_flush h ht) with h | h
  · exact .inl h
  · exact .inr (List.mem_singleton.1 h)

end Output

theorem isNamed_of_not_isTag {t : Callback} (h : t.isTag = false) : t.IsNamed := by
  cases t <;> trivial

namespace Scanner

variable {s s' m : Scanner} {b : UInt8}

theorem feed_cs (h : s.feed b = .ok s') : s'.cs = s.cs.next b := by
  obtain ⟨m, hm, rfl⟩ := feed_ok h
  have hcs := act_cs (by cases (transition s.cs b).goto.2 <;> simp [main]) hm
  exact hcs.trans (s.enter_cs _ b)

/-- The tag name behind a list. -/
def nameAfter (s : Scanner) : ActionList → Option Bytes
  | .f2 => some (trim (s.since.drop 2))
  | .f3 => some (s.since.drop 1)
  | .f4 => some (trim s.since)
  | .f5 | .f8 => none
  | _ => s.name

theorem act_nameAfter {previous : State} (f : ActionList)
    (h : s.act previous b (main f) = .ok m) : m.name = s.nameAfter f := by
  cases f with
  | f5 | f8 =>
    obtain ⟨n, -, rfl⟩ := completeTag_ok h
    rfl
  | _ =>
    obtain rfl := Except.ok.inj h
    rfl

theorem feed_nameAfter (h : s.feed b = .ok s') : s'.name = s.nameAfter (s.cs.list b) := by
  obtain ⟨m, hm, rfl⟩ := feed_ok h
  have hname := act_nameAfter _ hm
  unfold nameAfter at hname
  rwa [enter_since, enter_name] at hname

theorem feed_name (h : s.feed b = .ok s') :
    ((s.cs.list b).completes = true ∧ s'.name = none) ∨
      ((s.cs.list b).names = true ∧ s'.name.isSome = true) ∨
      ((s.cs.list b).setsName = false ∧ s'.name = s.name) := by
  rw [feed_nameAfter h]
  cases s.cs.list b with
  | f5 | f8 => exact .inl ⟨rfl, rfl⟩
  | f2 | f3 | f4 => exact .inr (.inl ⟨rfl, rfl⟩)
  | _ => exact .inr (.inr ⟨rfl, rfl⟩)

/-- A name is missing only when none has been read since the last completion. -/
theorem name_none {d : Bytes} (h : ({} : Scanner).feedAll d = .ok s) :
    s.cs = (d.foldl follow (esiStart, false)).1 ∧
      (s.cs.named = true → s.name = none → (d.foldl follow (esiStart, false)).2 = false) := by
  refine Run.invariant (I := fun d s => s.cs = (d.foldl follow (esiStart, false)).1 ∧
    (s.cs.named = true → s.name = none → (d.foldl follow (esiStart, false)).2 = false))
    ?_ (u := []) ⟨rfl, fun h => by cases h⟩ h
  rintro u s b s' ⟨hcs, hnone⟩ hfeed
  rw [List.foldl_append, List.foldl_cons, List.foldl_nil, follow]
  generalize u.foldl follow (esiStart, false) = x at hcs hnone ⊢
  obtain ⟨q, fresh⟩ := x
  obtain rfl : s.cs = q := hcs
  dsimp only at hnone ⊢
  have hcs' := feed_cs hfeed
  refine ⟨hcs', fun hnamed hn => ?_⟩
  rcases feed_name hfeed with ⟨hf, -⟩ | ⟨-, hsome⟩ | ⟨hf, hname⟩
  · rw [if_pos hf]
  · rw [hn] at hsome
    cases hsome
  · rw [hcs'] at hnamed
    have hnamed' : s.cs.named = true := (flow_transition s.cs b).name hnamed hf
    have hold := hnone hnamed' (hname ▸ hn)
    revert hf
    cases s.cs.list b <;> simp [ActionList.setsName, ActionList.names, ActionList.completes, hold]

theorem call_isNamed (o : Output) (c : Callback) (hc : c.IsNamed)
    (ho : ∀ t ∈ o.callbacks, t.IsNamed) : ∀ t ∈ ((o.flush.call c).flush).callbacks, t.IsNamed := by
  intro t ht
  by_cases htag : t.isTag = true
  · rcases Output.mem_call ht htag with h | rfl
    · exact ho t (Output.mem_flush h htag)
    · exact hc
  · exact isNamed_of_not_isTag (Bool.eq_false_iff.2 htag)

theorem act_isNamed {previous : State} {s₀ cs : State} (f : ActionList)
    (hfits : (stage s₀).Fits s.since) (hname : s₀.named = true → ∀ n, s.name = some n → IsTagName n)
    (hflow : Flow s₀ cs f) (hs : ∀ t ∈ s.out.callbacks, t.IsNamed)
    (h : s.act previous b (main f) = .ok m) : ∀ t ∈ m.out.callbacks, t.IsNamed := by
  have hfinds := hflow.finds
  cases f with
  | f2 =>
    obtain ⟨l, hl, ht⟩ : (Stage.name tagClose).Fits s.since := hfinds ▸ hfits
    obtain rfl := Except.ok.inj h
    refine call_isNamed s.out _ ⟨l, hl, ?_⟩ hs
    rw [ht]
    exact trim_name hl
  | f4 =>
    obtain ⟨l, hl, ht⟩ : (Stage.name tagOpen).Fits s.since := hfinds ▸ hfits
    obtain rfl := Except.ok.inj h
    refine call_isNamed s.out _ ⟨l, hl, ?_⟩ hs
    rw [ht, ← trim_name hl]
    rfl
  | f5 =>
    obtain ⟨n, hn, rfl⟩ := completeTag_ok h
    have hnamed : IsTagName (trim n) := (hname hfinds n hn).trim_eq.symm ▸ hname hfinds n hn
    exact call_isNamed s.out _ hnamed hs
  | f8 =>
    obtain ⟨n, hn, rfl⟩ := completeTag_ok h
    have hnamed : IsTagName (trim n) := (hname hfinds n hn).trim_eq.symm ▸ hname hfinds n hn
    exact call_isNamed _ (.endTag (trim n)) hnamed (call_isNamed s.out _ hnamed hs)
  | _ =>
    obtain rfl := Except.ok.inj h
    exact hs

theorem feed_isNamed (hinv : s.Inv) (hs : ∀ t ∈ s.out.callbacks, t.IsNamed)
    (h : s.feed b = .ok s') : ∀ t ∈ s'.out.callbacks, t.IsNamed := by
  obtain ⟨m, hm, rfl⟩ := feed_ok h
  change ∀ t ∈ m.out.callbacks, t.IsNamed
  refine act_isNamed _ (by simpa using hinv.fits) (by simpa using hinv.isTagName)
    (flow_transition s.cs b) ?_ hm
  intro t ht
  by_cases htag : t.isTag = true
  · apply hs t
    unfold enter echo at ht
    dsimp only at ht
    split_ifs at ht
    · exact Output.mem_foldl_echoChar ht htag
    · exact ht
    · exact ht
  · exact isNamed_of_not_isTag (Bool.eq_false_iff.2 htag)

theorem feedAll_isNamed {d : Bytes} (hinv : s.Inv) (hs : ∀ t ∈ s.out.callbacks, t.IsNamed)
    (h : s.feedAll d = .ok s') : ∀ t ∈ s'.out.callbacks, t.IsNamed :=
  (Run.invariant (I := fun _ s => s.Inv ∧ ∀ t ∈ s.out.callbacks, t.IsNamed)
    (fun _ _ _ _ hI h => ⟨hI.1.feed h, feed_isNamed hI.1 hI.2 h⟩) (u := []) ⟨hinv, hs⟩ h).2

end Scanner

/-! ## The parser in the middle of a call -/

namespace ESIParser

/-- After the calls `done`, the next call has consumed `u` of its chunk: it scans the buffer `data`
and the parser is `m`. -/
def Reaches (done : List Bytes) (chunk u data : Bytes) (m : ESIParser) : Prop :=
  ∃ c m₀ p, new.executeAll done = .ok c ∧ chunk ≠ [] ∧ ¬ c.TakesFastPath chunk ∧
    c.enter chunk = (m₀, data, p) ∧ u <+: chunk ∧ m₀.exec data u p = .ok m

/-- The same, with the position `p` in the buffer. -/
def ReachesAt (done : List Bytes) (chunk u data : Bytes) (p : ℕ) (m : ESIParser) : Prop :=
  ∃ c m₀ p₀, new.executeAll done = .ok c ∧ chunk ≠ [] ∧ ¬ c.TakesFastPath chunk ∧
    c.enter chunk = (m₀, data, p₀) ∧ u <+: chunk ∧ m₀.exec data u p₀ = .ok m ∧ p = p₀ + u.length

section Reaches

variable {done : List Bytes} {chunk u data : Bytes} {p : ℕ} {m : ESIParser}

theorem reaches_iff : Reaches done chunk u data m ↔ ∃ p, ReachesAt done chunk u data p m := by
  constructor
  · rintro ⟨c, m₀, p₀, h₁, h₂, h₃, h₄, h₅, h₆⟩
    exact ⟨_, c, m₀, p₀, h₁, h₂, h₃, h₄, h₅, h₆, rfl⟩
  · rintro ⟨p, c, m₀, p₀, h₁, h₂, h₃, h₄, h₅, h₆, -⟩
    exact ⟨c, m₀, p₀, h₁, h₂, h₃, h₄, h₅, h₆⟩

/-- The parser in the middle of a call follows the scanner. -/
theorem ReachesAt.linked (h : ReachesAt done chunk u data p m)
    (hr : InRange (done ++ [chunk])) :
    ∃ o v s, p = v.length ∧ (∀ w, chunk = u ++ w → data = v ++ w) ∧
      ({} : Scanner).feedAll (done.flatten ++ u) = .ok s ∧ Linked o v m s := by
  obtain ⟨c, m₀, p₀, hc, hne, -, henter, ⟨rest, rfl⟩, hexec, rfl⟩ := h
  obtain ⟨s, hs, hbetween⟩ :=
    (executeAll_agree between_new hr.1.left (hr.offsets hne)).ok_left hc
  obtain ⟨o, pre, m₁, henter', hlinked, -⟩ := enter_linked hbetween _
  rw [henter, Prod.mk.injEq, Prod.mk.injEq] at henter'
  obtain ⟨rfl, rfl, rfl⟩ := henter'
  have hagree := exec_agree rest u hlinked
  rw [List.append_assoc] at hagree
  obtain ⟨s', hs', hlinked'⟩ := hagree.ok_left hexec
  refine ⟨o, pre ++ u, s', List.length_append.symm, fun w hw => ?_,
    Run.append_ok.2 ⟨s, hs, hs'⟩, hlinked'⟩
  rw [hw, List.append_assoc]

theorem Reaches.linked (h : Reaches done chunk u data m)
    (hr : InRange (done ++ [chunk])) :
    ∃ o v w s, data = v ++ w ∧ ({} : Scanner).feedAll (done.flatten ++ u) = .ok s ∧
      Linked o v m s := by
  obtain ⟨p, h⟩ := reaches_iff.1 h
  obtain ⟨o, v, s, -, hdata, hs, hlinked⟩ := h.linked hr
  obtain ⟨-, -, -, -, -, -, -, ⟨w, hw⟩, -⟩ := h
  exact ⟨o, v, w, s, hdata w hw.symm, hs, hlinked⟩

end Reaches

/-- In a run that reads a name between any two completions, `tag_text` lies inside the buffer
whenever a tag is completed, and every name that reaches a handler is a tag name. -/
theorem reaches_tagText (done : List Bytes) (chunk u data : Bytes) (m : ESIParser)
    (hreach : Reaches done chunk u data m) (hr : InRange (done ++ [chunk]))
    (hanew : NamesAnew (done ++ [chunk]).flatten) :
    (∀ b v, chunk = u ++ b :: v → (m.cs.list b).completes = true →
      ∃ i, m.tagText = .at i ∧ i + m.tagTextLength ≤ data.length) ∧
    ∀ t ∈ m.out.callbacks, t.IsNamed := by
  obtain ⟨o, v, w, s, rfl, hs, hlinked⟩ := hreach.linked hr
  refine ⟨fun b rest hchunk hcomplete => ?_, ?_⟩
  · rw [hlinked.same.cs] at hcomplete
    have hnamed : s.cs.named = true := by
      have hfinds := (flow_transition s.cs b).finds
      revert hcomplete hfinds
      unfold State.list
      cases (transition s.cs b).goto.2 <;> simp [ActionList.completes, Scanner.main, Finds]
    obtain ⟨hcs, hnone⟩ := Scanner.name_none hs
    cases hn : s.name with
    | none =>
      exfalso
      have hsplit : (done ++ [chunk]).flatten = (done.flatten ++ u) ++ b :: rest := by
        simp [hchunk]
      have hfresh := hanew _ b rest hsplit (hcs ▸ hcomplete)
      rw [hnone hnamed hn] at hfresh
      cases hfresh
    | some n =>
      obtain ⟨i, hi, hl, hstands⟩ := hlinked.points.tagText_some hnamed n hn
      have hle := hstands.le
      exact ⟨i, hi, by rw [hl, List.length_append]; omega⟩
  · rw [hlinked.same.out]
    exact Scanner.feedAll_isNamed Scanner.inv_new (fun t ht => by cases ht) hs

/-- `<esi:a b="c"/>`, read up to its last byte. -/
theorem reaches_tagText_inline :
    ∃ m, Reaches [] [60, 101, 115, 105, 58, 97, 32, 98, 61, 34, 99, 34, 47, 62]
        [60, 101, 115, 105, 58, 97, 32, 98, 61, 34, 99, 34, 47]
        [60, 101, 115, 105, 58, 97, 32, 98, 61, 34, 99, 34, 47, 62] m ∧
      ((∀ b v, [60, 101, 115, 105, 58, 97, 32, 98, 61, 34, 99, 34, 47, 62] =
          [60, 101, 115, 105, 58, 97, 32, 98, 61, 34, 99, 34, 47] ++ b :: v →
          (m.cs.list b).completes = true → ∃ i, m.tagText = .at i ∧ i + m.tagTextLength ≤ 14) ∧
        ∀ t ∈ m.out.callbacks, t.IsNamed) := by
  have hreach : Reaches [] _ [60, 101, 115, 105, 58, 97, 32, 98, 61, 34, 99, 34, 47]
      [60, 101, 115, 105, 58, 97, 32, 98, 61, 34, 99, 34, 47, 62] _ :=
    ⟨new, _, 0, rfl, by simp, fun h => (by cases h.1), rfl, ⟨[62], rfl⟩, rfl⟩
  exact ⟨_, hreach, reaches_tagText _ _ _ _ _ hreach (inRange_of_length (by decide)) (by decide)⟩

/-- In `<esi:a k="<esi:b >"/>` the start of `b` is complete inside the quoted value, and the last
byte completes a tag without a name. -/
theorem reaches_null : ¬ ∀ (done : List Bytes) (chunk u data : Bytes) (m : ESIParser),
    Reaches done chunk u data m →
    (∀ b v, chunk = u ++ b :: v → (m.cs.list b).completes = true →
      ∃ i, m.tagText = .at i ∧ i + m.tagTextLength ≤ data.length) ∧
    ∀ t ∈ m.out.callbacks, t.IsNamed := by
  intro h
  let u : Bytes :=
    [60, 101, 115, 105, 58, 97, 32, 107, 61, 34, 60, 101, 115, 105, 58, 98, 32, 62, 34, 47]
  have hrun : ((new.initMark 0).exec (u ++ [62]) u 0).map (fun m => (m.cs, m.tagText)) =
      .ok (.s74, .null) := by
    decide +kernel
  obtain ⟨m, hm, hfields⟩ := Run.map_ok hrun
  obtain ⟨hcs, htext⟩ := Prod.mk.inj hfields
  have hreach : Reaches [] (u ++ [62]) u (u ++ [62]) m :=
    ⟨new, _, 0, rfl, by simp, fun h => (by cases h.1), rfl, ⟨[62], rfl⟩, hm⟩
  obtain ⟨i, hi, -⟩ := (h _ _ _ _ _ hreach).1 62 [] rfl (by rw [hcs]; rfl)
  rw [htext] at hi
  cases hi

end ESIParser

end NginxEsi
