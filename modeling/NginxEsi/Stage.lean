import NginxEsi.Lib.Run
import NginxEsi.Scanner

/-!
# What the states know

Facts about the compiled machine, checked once on the edges of its table:

* a state in the middle of a tag name determines the text since the mark (`stage`);
* the pointers that an action uses have been set on every path to it (`Flow`), where
  `State.marked`, `State.named` and `State.keyed` say which pointers are in use.

They give the invariant `Scanner.Inv`, which every byte preserves.
-/

namespace NginxEsi

open BranchTable

/-- `<esi:`. -/
def tagOpen : Bytes := [60, 101, 115, 105, 58]

/-- `</esi:`. -/
def tagClose : Bytes := [60, 47, 101, 115, 105, 58]

/-- `esi:`. -/
def esiColon : Bytes := [101, 115, 105, 58]

def isLower (c : UInt8) : Bool := 97 ≤ c && c ≤ 122

/-- One or more lower-case letters, the `[a-z]+` of a tag name. -/
def IsLetters (n : Bytes) : Prop := n ≠ [] ∧ ∀ b ∈ n, isLower b

instance (n : Bytes) : Decidable (IsLetters n) := inferInstanceAs (Decidable (_ ∧ _))

/-! ## Stages -/

/-- What a state says about the text since the mark. -/
inductive Stage where
  | any
  | literal (w : Bytes)
  | name (w : Bytes)
  deriving DecidableEq

def Stage.Fits : Stage → Bytes → Prop
  | .any, _ => True
  | .literal w, t => t = w
  | .name w, t => ∃ n, IsLetters n ∧ t = w ++ n

/-- The candidate names of the main loop, and the same inside a value in double quotes, in single
quotes, and in a value of either kind. -/
def stage : State → Stage
  | .s1 | .s18 | .s28 | .s45 => .literal [60]
  | .s8 | .s69 | .s36 | .s58 => .literal (tagOpen.take 2)
  | .s9 | .s70 | .s37 | .s59 => .literal (tagOpen.take 3)
  | .s10 | .s71 | .s38 | .s60 => .literal (tagOpen.take 4)
  | .s11 | .s72 | .s39 | .s61 => .literal tagOpen
  | .s12 | .s73 | .s40 | .s62 => .name tagOpen
  | .s2 | .s19 | .s29 | .s46 => .literal (tagClose.take 2)
  | .s3 | .s64 | .s31 | .s53 => .literal (tagClose.take 3)
  | .s4 | .s65 | .s32 | .s54 => .literal (tagClose.take 4)
  | .s5 | .s66 | .s33 | .s55 => .literal (tagClose.take 5)
  | .s6 | .s67 | .s34 | .s56 => .literal tagClose
  | .s7 | .s68 | .s35 | .s57 => .name tagClose
  | _ => .any

/-- The action list leaves the mark where it is. -/
def ActionList.keepsMark : ActionList → Bool
  | .f0 | .f10 => true
  | _ => false

def ActionList.begins : ActionList → Bool
  | .f1 | .f12 => true
  | _ => false

def isLetterGuard : Guard → Bool
  | .single n => 97 ≤ n && n ≤ 122
  | .range lo hi => 97 ≤ lo && hi ≤ 122
  | .other => false

/-- The stage of the target is reached from the stage of the source. -/
def stageStep (s : State) (g : Guard) (cs : State) (f : ActionList) : Bool :=
  match stage cs with
  | .any => true
  | .literal w =>
    match g with
    | .single n =>
      (f.begins && w == [UInt8.ofNat n]) ||
        (f.keepsMark && match stage s with
          | .literal v => w == v ++ [UInt8.ofNat n]
          | _ => false)
    | _ => false
  | .name w => f.keepsMark && isLetterGuard g && (stage s == .literal w || stage s == .name w)

theorem stageStep_edges :
    ∀ s, ∀ e ∈ (row s).edges, stageStep s e.1 e.2.goto.1 e.2.goto.2 = true := by
  decide +kernel

theorem isLower_of_isLetterGuard {g : Guard} {b : UInt8} (hg : g.Holds b.toNat)
    (h : isLetterGuard g = true) : isLower b = true := by
  simp only [isLower, Bool.and_eq_true, decide_eq_true_eq, UInt8.le_iff_toNat_le]
  cases g with
  | single n =>
    simp only [Guard.Holds, isLetterGuard, Bool.and_eq_true, decide_eq_true_eq] at hg h
    rw [hg]
    exact h
  | range lo hi =>
    simp only [Guard.Holds, isLetterGuard, Bool.and_eq_true, decide_eq_true_eq] at hg h
    exact ⟨h.1.trans hg.1, hg.2.trans h.2⟩
  | other => cases h

/-- The text since the mark fits the stage of the state after each transition: either the mark
is set to `b`, or the text grows by `b`. -/
theorem stage_fits_transition {s : State} {t : Bytes} (h : (stage s).Fits t) (b : UInt8) :
    (stage (transition s b).goto.1).Fits
      ((if (transition s b).goto.2.keepsMark then t else []) ++ [b]) := by
  obtain ⟨g, hg, hstep⟩ := forall_transition (P := fun s g t => stageStep s g t.goto.1 t.goto.2 = true)
    stageStep_edges s b
  generalize (transition s b).goto = e at hstep ⊢
  obtain ⟨cs, f⟩ := e
  dsimp only [stageStep] at hstep ⊢
  cases hcs : stage cs with
  | any => trivial
  | literal w =>
    cases g with
    | single n =>
      obtain rfl := Guard.eq_ofNat_of_holds hg
      simp only [hcs, Bool.or_eq_true, Bool.and_eq_true, beq_iff_eq] at hstep
      rcases hstep with ⟨hf, rfl⟩ | ⟨hf, hv⟩
      · have hk : f.keepsMark = false := by cases f <;> simp_all [ActionList.begins, ActionList.keepsMark]
        simp [hk, Stage.Fits]
      · cases hs : stage s with
        | literal v =>
          simp only [hs, beq_iff_eq] at hv
          rw [hs] at h
          simp only [hf, if_true, Stage.Fits, hv]
          rw [show t = v from h]
        | any | name v => simp [hs] at hv
    | range lo hi => simp [hcs] at hstep
    | other => simp [hcs] at hstep
  | name w =>
    simp only [hcs, Bool.and_eq_true, Bool.or_eq_true, beq_iff_eq] at hstep
    obtain ⟨⟨hf, hl⟩, hv⟩ := hstep
    have hb : isLower b = true := isLower_of_isLetterGuard hg hl
    simp only [hf, if_true, Stage.Fits]
    rcases hv with hv | hv <;> rw [hv] at h
    · exact ⟨[b], ⟨by simp, by simpa using hb⟩, by rw [show t = w from h]⟩
    · obtain ⟨n, ⟨-, hn⟩, rfl⟩ := h
      refine ⟨n ++ [b], ⟨by simp, ?_⟩, by simp⟩
      intro c hc
      rcases List.mem_append.1 hc with hc | hc
      · exact hn c hc
      · rwa [List.mem_singleton.1 hc]

/-! ## Pointers in use -/

/-- No candidate is pending. -/
def State.idle : State → Bool
  | .s0 | .s75 => true
  | _ => false

/-- The mark may still be used before it is set again. -/
def State.marked : State → Bool
  | .s0 | .s74 | .s75 | .s79 => false
  | _ => true

/-- Behind a tag name whose attributes may follow. -/
def State.named : State → Bool
  | .s0 | .s1 | .s2 | .s3 | .s4 | .s5 | .s6 | .s7 | .s8 | .s9 | .s10 | .s11 | .s12 => false
  | .s75 | .s79 => false
  | _ => true

/-- Behind an attribute key. -/
def State.keyed (s : State) : Bool :=
  s.named && match s with
    | .s13 | .s14 | .s15 | .s74 => false
    | _ => true

def ActionList.setsName : ActionList → Bool
  | .f2 | .f3 | .f4 | .f5 | .f8 => true
  | _ => false

/-- What the action of a list finds in the source state. -/
def Finds (s : State) : Action → Prop
  | .seeStartTag | .blockStartTag => stage s = .name tagOpen
  | .blockEndTag => stage s = .name tagClose
  | .seeAttributeKey => s.marked = true
  | .seeAttributeValue => s.keyed = true
  | .seeEndTag | .seeBlockStartWithAttributes => s.named = true
  | _ => True

instance (s : State) (a : Action) : Decidable (Finds s a) := by
  cases a <;> unfold Finds <;> infer_instance

/-- A pointer in use in the target `cs` was in use before or has just been set, and the action
finds the pointers that it uses. -/
structure Flow (s cs : State) (f : ActionList) : Prop where
  ne_start : cs ≠ .s75
  mark : cs.marked = true → f.keepsMark = true → s.marked = true
  name : cs.named = true → f.setsName = false → s.named = true
  key : cs.keyed = true → f ≠ .f6 → s.keyed = true
  finds : Finds s (Scanner.main f)

instance (s cs : State) (f : ActionList) : Decidable (Flow s cs f) :=
  decidable_of_iff
    (cs ≠ .s75 ∧ (cs.marked = true → f.keepsMark = true → s.marked = true) ∧
      (cs.named = true → f.setsName = false → s.named = true) ∧
      (cs.keyed = true → f ≠ .f6 → s.keyed = true) ∧ Finds s (Scanner.main f))
    ⟨fun ⟨h₁, h₂, h₃, h₄, h₅⟩ => ⟨h₁, h₂, h₃, h₄, h₅⟩, fun h => ⟨h.1, h.2, h.3, h.4, h.5⟩⟩

theorem flow_edges : ∀ s, ∀ e ∈ (row s).edges, Flow s e.2.goto.1 e.2.goto.2 := by
  decide +kernel

theorem flow_transition (s : State) (b : UInt8) :
    Flow s (transition s b).goto.1 (transition s b).goto.2 :=
  forall_transition_target (P := fun s t => Flow s t.goto.1 t.goto.2) flow_edges s b

theorem State.idle_of_marked {s : State} (h : s.marked = true) : s.idle = false := by
  cases s <;> first | rfl | cases h

theorem State.marked_of_keyed {s : State} (h : s.keyed = true) : s.marked = true := by
  cases s <;> first | rfl | cases h

theorem State.idle_of_named {s : State} (h : s.named = true) : s.idle = false := by
  cases s <;> first | rfl | cases h

theorem State.marked_of_stage {s : State} {w : Bytes} (h : stage s = .name w) :
    s.marked = true := by
  cases s <;> first | rfl | cases h

theorem State.eq_zero_of_idle {s : State} (h : s.idle = true) (hs : s ≠ .s75) : s = .s0 := by
  cases s <;> first | rfl | exact absurd rfl hs | cases h

/-! ## Trimming a tag name -/

theorem trimLeft_cons_of_not {c : UInt8} (h : isLtrim c = false) (t : Bytes) :
    trimLeft (c :: t) = c :: t := by
  simp [trimLeft, h]

theorem not_isRtrim_of_isLower {c : UInt8} (h : isLower c = true) : isRtrim c = false := by
  simp only [isLower, Bool.and_eq_true, decide_eq_true_eq, UInt8.le_iff_toNat_le,
    UInt8.reduceToNat] at h
  have hne : ∀ k : UInt8, k.toNat < 97 → (c == k) = false := by
    intro k hk
    rw [beq_eq_false_iff_ne]
    rintro rfl
    omega
  have hle : decide (c ≤ 13) = false := by
    simp only [decide_eq_false_iff_not, UInt8.le_iff_toNat_le, UInt8.reduceToNat]
    omega
  simp [isRtrim, isspace, hne, hle]

theorem trim_name {n : Bytes} (h : IsLetters n) : trim (esiColon ++ n) = esiColon ++ n := by
  rw [trim, esiColon, List.cons_append, trimLeft_cons_of_not (by decide), trimRight]
  congr 1
  rw [List.rdropWhile_eq_self_iff]
  intro hl
  rw [List.getLast_append_of_ne_nil _ h.1]
  simpa using not_isRtrim_of_isLower (h.2 _ (List.getLast_mem h.1))

/-! ## The invariant -/

/-- A text that a tag callback may report as the name. -/
def IsTagName (n : Bytes) : Prop := ∃ l, IsLetters l ∧ n = esiColon ++ l

theorem IsTagName.ne_nil {n : Bytes} (h : IsTagName n) : n ≠ [] := by
  obtain ⟨l, -, rfl⟩ := h
  simp [esiColon]

theorem IsTagName.trim_eq {n : Bytes} (h : IsTagName n) : trim n = n := by
  obtain ⟨l, hl, rfl⟩ := h
  exact trim_name hl

namespace Scanner

/-- What holds between two bytes. -/
structure Inv (s : Scanner) : Prop where
  fits : (stage s.cs).Fits s.since
  since_ne : s.cs.idle = false → s.since ≠ []
  held_eq : s.cs.idle = true → s.held = []
  isTagName : s.cs.named = true → ∀ n, s.name = some n → IsTagName n

theorem inv_new : ({} : Scanner).Inv where
  fits := trivial
  since_ne h := by cases h
  held_eq _ := rfl
  isTagName h := by cases h

theorem act_since {previous : State} {b : UInt8} {s m : Scanner} (f : ActionList)
    (h : s.act previous b (main f) = .ok m) : m.since = if f.keepsMark then s.since else [] := by
  cases f <;> first
    | (obtain ⟨n, -, rfl⟩ := completeTag_ok h; rfl)
    | (obtain rfl := Except.ok.inj h; rfl)

theorem act_held {previous : State} {b : UInt8} {s m : Scanner} (f : ActionList)
    (h : s.act previous b (main f) = .ok m) : m.held = s.held ∨ m.held = [] := by
  cases f <;> first
    | (obtain ⟨n, -, rfl⟩ := completeTag_ok h; exact .inr rfl)
    | (obtain rfl := Except.ok.inj h; first | exact .inl rfl | exact .inr rfl)

theorem enter_zero_held (b : UInt8) (s : Scanner) : (s.enter .s0 b).held = [] := by
  simp only [enter, echo]
  split_ifs <;> rfl

/-- The name that an action leaves is a tag name, given what the source state `s₀` knows. -/
theorem act_name {previous : State} {b : UInt8} {s m : Scanner} {s₀ cs : State} (f : ActionList)
    (hfits : (stage s₀).Fits s.since) (hname : s₀.named = true → ∀ n, s.name = some n → IsTagName n)
    (hflow : Flow s₀ cs f) (hcs : cs.named = true) (h : s.act previous b (main f) = .ok m)
    (n : Bytes) (hn : m.name = some n) : IsTagName n := by
  have hfinds := hflow.finds
  have hold : f.setsName = false → IsTagName n := by
    intro hf
    have hs : m.name = s.name := by
      cases f <;> first | (obtain rfl := Except.ok.inj h; rfl) | cases hf
    exact hname (hflow.name hcs hf) n (hs ▸ hn)
  cases f with
  | f2 =>
    obtain ⟨l, hl, ht⟩ : (Stage.name tagClose).Fits s.since := hfinds ▸ hfits
    obtain rfl := Except.ok.inj h
    obtain rfl := Option.some.inj hn
    exact ⟨l, hl, by rw [ht]; exact trim_name hl⟩
  | f3 =>
    obtain ⟨l, hl, ht⟩ : (Stage.name tagOpen).Fits s.since := hfinds ▸ hfits
    obtain rfl := Except.ok.inj h
    obtain rfl := Option.some.inj hn
    exact ⟨l, hl, by rw [ht]; rfl⟩
  | f4 =>
    obtain ⟨l, hl, ht⟩ : (Stage.name tagOpen).Fits s.since := hfinds ▸ hfits
    obtain rfl := Except.ok.inj h
    obtain rfl := Option.some.inj hn
    refine ⟨l, hl, ?_⟩
    rw [ht, ← trim_name hl]
    rfl
  | f5 | f8 =>
    obtain ⟨_, -, rfl⟩ := completeTag_ok h
    cases hn
  | _ => exact hold rfl

theorem Inv.feed {s s' : Scanner} {b : UInt8} (hs : s.Inv) (h : s.feed b = .ok s') : s'.Inv := by
  obtain ⟨m, hm, rfl⟩ := feed_ok h
  have hflow := flow_transition s.cs b
  have hcs : m.cs = (transition s.cs b).goto.1 := by
    rw [act_cs (by cases (transition s.cs b).goto.2 <;> simp [main]) hm, enter_cs]
  have hsince := act_since _ hm
  rw [enter_since] at hsince
  refine ⟨?_, ?_, ?_, ?_⟩
  · simpa [advance, hcs, hsince] using stage_fits_transition hs.fits b
  · simp [advance]
  · intro hidle
    have h0 : (transition s.cs b).goto.1 = .s0 :=
      State.eq_zero_of_idle (hcs ▸ hidle) hflow.ne_start
    rcases act_held _ hm with h' | h'
    · rw [h0, enter_zero_held] at h'
      exact h'
    · exact h'
  · intro hnamed n hn
    exact act_name _ (by simpa using hs.fits) (by simpa using hs.isTagName) hflow (hcs ▸ hnamed)
      hm n hn

theorem Inv.feedAll {s s' : Scanner} {u : Bytes} (hs : s.Inv) (h : s.feedAll u = .ok s') : s'.Inv :=
  Run.invariant (I := fun _ s => s.Inv) (fun _ _ _ _ hI h => hI.feed h) (u := []) hs h

end Scanner

end NginxEsi
