import NginxEsi.Frame
import NginxEsi.Scan

/-!
# Calls and chunks

Between two calls the pointers in use are offsets into the overflow data.  A call agrees with
feeding the chunk to the scanner (`execute_agree`), and so does any number of calls
(`executeAll_agree`), as long as no size and no offset that a later call goes on with leaves the
range of `int` (`InRange`).  The scanner knows nothing of chunks, so how a document is cut makes no
difference.
-/

namespace NginxEsi

theorem Points.of_idle {q : State} {c : ESIParser} {u : Bytes} {s : Scanner} (h : q.idle = true) :
    Points q c u s := by
  have hmarked : q.marked ≠ true := fun h' => by simp [State.idle_of_marked h'] at h
  have hnamed : q.named ≠ true := fun h' => by simp [State.idle_of_named h'] at h
  have hkeyed : q.keyed ≠ true := fun h' => hmarked (State.marked_of_keyed h')
  exact ⟨fun h' => absurd h' hmarked, fun h' => absurd h' hnamed, fun h' => absurd h' hnamed,
    fun h' => absurd h' hkeyed⟩

theorem Ptr.rebase_at {i : ℕ} (h : i < 2 ^ 31) : (Ptr.at i).rebase = .at i := by
  rw [Ptr.rebase, toInt_of_lt h, if_pos (Int.natCast_nonneg i), Int.toNat_natCast]

namespace ESIParser

/-- The offsets that the machine may still use can be converted to `int`. -/
structure OffsetsFit (c : ESIParser) : Prop where
  mark : c.cs.marked = true → ∀ i, c.mark = .at i → i < 2 ^ 31
  tagText : c.cs.named = true → ∀ i, c.tagText = .at i → i < 2 ^ 31
  attrKey : c.cs.keyed = true → ∀ i, c.attrKey = .at i → i < 2 ^ 31

/-- The scanned buffer and what the machine makes of it, before the end of the call. -/
def scan (c : ESIParser) (chunk : Bytes) : Except Stop ESIParser :=
  let (m, data, p) := c.enter chunk
  m.exec data (data.drop p) p

/-- The fast path does not cut the chunk short. -/
def KeepsChunk (c : ESIParser) (chunk : Bytes) : Prop :=
  c.TakesFastPath chunk → chunk.length < 2 ^ 31

/-- The call leaves no offset in use that `compute_offset` truncates. -/
def KeepsOffsets (c : ESIParser) (chunk : Bytes) : Prop :=
  chunk ≠ [] → ¬ c.TakesFastPath chunk → ∀ m, c.scan chunk = .ok m → m.OffsetsFit

/-- No conversion to `int` in the run loses a size, or an offset that a later call goes on with. -/
def InRange (chunks : List Bytes) : Prop :=
  Run.Each execute KeepsChunk .new chunks ∧
    ∀ done later, chunks = done ++ later → later.flatten ≠ [] →
      Run.Each execute KeepsOffsets .new done

end ESIParser

theorem Ptr.lt_of_rebase {ptr : Ptr} {i : ℕ} (h : ptr.rebase = .at i) : i < 2 ^ 31 := by
  cases ptr with
  | null | dangling => cases h
  | «at» j =>
    have hlt := Int.bmod_lt (x := j) (m := 2 ^ 32) (by decide)
    rw [Ptr.rebase] at h
    split_ifs at h
    obtain rfl := Ptr.at.inj h
    unfold toInt at *
    omega

/-- What `compute_offset` has given once, it gives again. -/
theorem ESIParser.offsetsFit_rebase (c : ESIParser) : (c.mapPtr .rebase).OffsetsFit :=
  ⟨fun _ _ => Ptr.lt_of_rebase, fun _ _ => Ptr.lt_of_rebase, fun _ _ => Ptr.lt_of_rebase⟩

/-- Offsets within the range of `int` can be computed without losing a pointer in use. -/
theorem Points.rebase {c : ESIParser} {u : Bytes} {s : Scanner} (h : Points c.cs c u s)
    (hfit : c.OffsetsFit) : Points c.cs (c.mapPtr .rebase) u s where
  mark hq := by
    obtain ⟨a, ha, hmark⟩ := h.mark hq
    exact ⟨a, ha, by rw [ESIParser.mapPtr, hmark, Ptr.rebase_at (hfit.mark hq _ hmark)]⟩
  tagText_none hq hn := by
    rw [ESIParser.mapPtr, h.tagText_none hq hn]
    rfl
  tagText_some hq n hn := by
    obtain ⟨i, hi, hl, hs⟩ := h.tagText_some hq n hn
    exact ⟨i, by rw [ESIParser.mapPtr, hi, Ptr.rebase_at (hfit.tagText hq _ hi)], hl, hs⟩
  attrKey hq := by
    obtain ⟨i, hi, hl, hs⟩ := h.attrKey hq
    exact ⟨i, by rw [ESIParser.mapPtr, hi, Ptr.rebase_at (hfit.attrKey hq _ hi)], hl, hs⟩

/-- A buffer within the range of `int` has no other offsets. -/
theorem Points.offsetsFit {c : ESIParser} {u : Bytes} {s : Scanner} (h : Points c.cs c u s)
    (hu : u.length < 2 ^ 31) : c.OffsetsFit where
  mark hq i hi := by
    obtain ⟨a, ha, hmark⟩ := h.mark hq
    obtain rfl := Ptr.at.inj (hi.symm.trans hmark)
    have hle : a.length ≤ u.length := by simp [ha]
    omega
  tagText hq i hi := by
    cases hn : s.name with
    | none =>
      rw [h.tagText_none hq hn] at hi
      cases hi
    | some n =>
      obtain ⟨j, hj, -, hs⟩ := h.tagText_some hq n hn
      obtain rfl := Ptr.at.inj (hi.symm.trans hj)
      have hle := hs.le
      omega
  attrKey hq i hi := by
    obtain ⟨j, hj, -, hs⟩ := h.attrKey hq
    obtain rfl := Ptr.at.inj (hi.symm.trans hj)
    have hle := hs.le
    omega

/-! ## One call -/

/-- The parser shares with the scanner what does not depend on its pointers. -/
structure Mirrors (c : ESIParser) (s : Scanner) : Prop where
  inv : s.Inv
  same : Same c s

/-- The parser between two calls. -/
structure Between (c : ESIParser) (s : Scanner) : Prop where
  inv : s.Inv
  same : Same c s
  idle : c.overflowData = none → s.cs.idle = true
  points : ∀ u, c.overflowData = some u →
    s.cs.idle = false ∧ u ≠ [] ∧ c.OffsetsFit ∧ Points c.cs c u s

theorem between_new : Between .new {} where
  inv := Scanner.inv_new
  same := ⟨rfl, rfl, rfl, rfl, rfl⟩
  idle _ := rfl
  points u h := by cases h

theorem Between.mirrors {c : ESIParser} {s : Scanner} (h : Between c s) : Mirrors c s :=
  ⟨h.inv, h.same⟩

namespace ESIParser

theorem initMark_overflowData (p : ℕ) (c : ESIParser) :
    (c.initMark p).overflowData = c.overflowData := by
  unfold initMark
  split_ifs <;> rfl

theorem initMark_same {c : ESIParser} {s : Scanner} (h : Same c s) (p : ℕ) :
    Same (c.initMark p) s := by
  unfold initMark
  split_ifs
  · exact ⟨h.1, h.2, h.3, h.4, h.5⟩
  · exact h

theorem initMark_of_at {c : ESIParser} {i : ℕ} (h : c.mark = .at i) (p : ℕ) :
    c.initMark p = c := by
  rw [initMark, if_neg]
  rw [h]
  exact Ptr.noConfusion

/-- A mark that is in use is not set to the position. -/
theorem points_initMark {q : State} {c : ESIParser} {u : Bytes} {s : Scanner}
    (h : Points q c u s) (p : ℕ) : Points q (c.initMark p) u s := by
  by_cases hq : q.marked = true
  · obtain ⟨a, -, hmark⟩ := h.mark hq
    rwa [initMark_of_at hmark]
  · unfold initMark
    split_ifs
    · exact ⟨fun h' => absurd h' hq, h.2, h.3, h.4⟩
    · exact h

/-- The start of a call. -/
theorem enter_linked {c : ESIParser} {s : Scanner} (h : Between c s) (chunk : Bytes) :
    ∃ o u c', c.enter chunk = (c', u ++ chunk, u.length) ∧ Linked o u c' s ∧
      (o = none ∨ o = some (u ++ chunk)) := by
  cases ho : c.overflowData with
  | none =>
    exact ⟨none, [], c.initMark 0, by rw [enter, ho]; rfl,
      ⟨h.inv, initMark_same h.same 0, .of_idle (h.idle ho),
        (initMark_overflowData 0 c).trans ho⟩, .inl rfl⟩
  | some u =>
    obtain ⟨-, hne, hfit, hpts⟩ := h.points u ho
    have hpts' := hpts.rebase hfit
    rw [h.same.cs] at hpts'
    cases u with
    | nil => exact absurd rfl hne
    | cons b old =>
      set m : ESIParser :=
        { c.mapPtr .rebase with overflowData := some (b :: old ++ chunk) } with hm
      have henter : c.enter chunk =
          (m.initMark (b :: old).length, b :: old ++ chunk, (b :: old).length) := by
        rw [enter, ho]
      have hpoints : Points s.cs m (b :: old) s := ⟨hpts'.1, hpts'.2, hpts'.3, hpts'.4⟩
      have hsame : Same m s := ⟨h.same.1, h.same.2, h.same.3, h.same.4, h.same.5⟩
      exact ⟨some (b :: old ++ chunk), b :: old, _, henter,
        ⟨h.inv, initMark_same hsame _, points_initMark hpoints _, initMark_overflowData _ m⟩,
        .inr rfl⟩

/-- The machine in a call. -/
theorem scan_agree {c : ESIParser} {s : Scanner} (h : Between c s) (chunk : Bytes) :
    ∃ o, (o = none ∨ o = some (c.enter chunk).2.1) ∧
      Run.Agree (Linked o (c.enter chunk).2.1) (c.scan chunk) (s.feedAll chunk) := by
  obtain ⟨o, u, m, henter, hlinked, ho⟩ := enter_linked h chunk
  have hexec := exec_agree [] chunk hlinked
  rw [List.append_nil] at hexec
  refine ⟨o, ?_, ?_⟩
  · rwa [henter]
  · rw [scan, henter]
    dsimp only
    rwa [List.drop_left]

theorem idle_eq_true {q : State} : q.idle = true ↔ ¬ (q ≠ esiStart ∧ q ≠ .s0) := by
  cases q <;> simp [State.idle]

/-- The end of a call. -/
theorem leave_between {o : Option Bytes} {data : Bytes} {c : ESIParser} {s : Scanner}
    (h : Linked o data c s) (ho : o = none ∨ o = some data) (hne : data ≠ [])
    (hfit : c.OffsetsFit) : Between (c.leave data) s := by
  have hcs := h.same.cs
  have hpts := h.points
  rw [← hcs] at hpts
  by_cases hidle : c.cs.idle = true
  · rw [leave, if_neg (idle_eq_true.1 hidle)]
    exact ⟨h.inv, ⟨h.same.1, h.same.2, h.same.3, h.same.4, h.same.5⟩, fun _ => hcs ▸ hidle,
      fun u hu => by cases hu⟩
  · have hbusy := Bool.eq_false_iff.2 hidle
    rw [leave, if_pos (not_not.1 fun h' => hidle (idle_eq_true.2 h'))]
    rcases ho with rfl | rfl
    · -- the scanned buffer is saved
      have hpts' := hpts.rebase hfit
      have hfit' := c.offsetsFit_rebase
      simp only [h.overflowData]
      refine ⟨h.inv, ⟨h.same.1, h.same.2, h.same.3, h.same.4, h.same.5⟩, (fun hn => by cases hn),
        fun u hu => ?_⟩
      obtain rfl := Option.some.inj hu
      exact ⟨hcs ▸ hbusy, hne, ⟨hfit'.1, hfit'.2, hfit'.3⟩, ⟨hpts'.1, hpts'.2, hpts'.3, hpts'.4⟩⟩
    · simp only [h.overflowData]
      refine ⟨h.inv, h.same, (fun hn => by rw [h.overflowData] at hn; cases hn), fun u hu => ?_⟩
      rw [h.overflowData] at hu
      obtain rfl := Option.some.inj hu
      exact ⟨hcs ▸ hbusy, hne, hfit, hpts⟩

section fastPath

variable (u : Bytes) (c : ESIParser)

theorem core_fastPath : (u.foldl echoChar c).core =
    { c.core with out := u.foldl Output.echoChar c.out } := by
  have h := core_foldl_echoChar echoChar id (fun c b => core_echoChar c b) u c
  rwa [List.map_id] at h

theorem echoChar_cs : (u.foldl echoChar c).cs = c.cs := by
  have h := congrArg ESIParser.cs (core_fastPath u c)
  exact h

theorem echoChar_prevState : (u.foldl echoChar c).prevState = c.prevState := by
  have h := congrArg ESIParser.prevState (core_fastPath u c)
  exact h

theorem echoChar_overflowData : (u.foldl echoChar c).overflowData = c.overflowData := by
  have h := congrArg ESIParser.overflowData (core_fastPath u c)
  exact h

theorem echoChar_echobuffer : (u.foldl echoChar c).echobuffer = c.echobuffer := by
  have h := congrArg ESIParser.echobuffer (core_fastPath u c)
  exact h

theorem echoChar_out : (u.foldl echoChar c).out = u.foldl Output.echoChar c.out := by
  have h := congrArg ESIParser.out (core_fastPath u c)
  exact h

end fastPath

/-- The fast path echoes what the machine would echo. -/
theorem fastPath_same {c : ESIParser} {s : Scanner} {chunk : Bytes} (hinv : s.Inv) (h : Same c s)
    (hfast : c.TakesFastPath chunk) (hlen : chunk.length < 2 ^ 31) :
    ∃ s', s.feedAll chunk = .ok s' ∧ s'.cs = .s0 ∧
      Same ((intPart chunk).foldl echoChar c) s' := by
  obtain ⟨hcs, hscan⟩ := hfast
  rw [h.cs] at hcs
  have hidle : s.cs.idle = true := by rw [hcs]; rfl
  obtain ⟨hzero, halong⟩ := scanForStart_text hlen hscan
  rw [← hcs] at hzero halong
  obtain ⟨s', hs', hcs', hattr, r, hr, hru⟩ := Scanner.feedAll_released
    (halong.mono fun q b hq => ⟨silent_of_marking hq.2, State.not_discards_of_textual hq.1⟩)
  rw [hzero] at hcs'
  have hidle' : s'.cs.idle = true := by rw [hcs', hcs]; rfl
  have hheld := (hinv.feedAll hs').held_eq hidle'
  rw [hheld, hinv.held_eq hidle, List.append_nil, List.nil_append] at hru
  subst hru
  have hcore := core_fastPath r c
  rw [intPart_of_lt hlen]
  refine ⟨s', hs', hcs'.trans hcs, ?_, ?_, ?_, ?_, ?_⟩
  · exact (congrArg ESIParser.cs hcore).trans (h.cs.trans hcs'.symm)
  · exact (congrArg ESIParser.prevState hcore).trans (h.prevState.trans hcs'.symm)
  · have hheld' : s'.held = s.held := by rw [hheld, hinv.held_eq hidle]
    exact (congrArg ESIParser.echobuffer hcore).trans (h.echobuffer.trans hheld'.symm)
  · exact (congrArg ESIParser.out hcore).trans (by rw [hr, ← h.out])
  · have hattr' := hattr (halong.mono fun q b hq => hq.2)
    exact (congrArg ESIParser.attributes hcore).trans (h.attributes.trans hattr'.symm)

theorem fastPath_between {c : ESIParser} {s : Scanner} {chunk : Bytes} (h : Between c s)
    (hfast : c.TakesFastPath chunk) (hlen : chunk.length < 2 ^ 31) :
    ∃ s', s.feedAll chunk = .ok s' ∧ Between ((intPart chunk).foldl echoChar c) s' := by
  obtain ⟨s', hs', hcs', hsame⟩ := fastPath_same h.inv h.same hfast hlen
  refine ⟨s', hs', h.inv.feedAll hs', hsame, fun _ => by rw [hcs']; rfl, fun u hu => ?_⟩
  rw [echoChar_overflowData] at hu
  have hbusy := (h.points u hu).1
  rw [← h.same.cs, hfast.1] at hbusy
  cases hbusy

/-- A call that leaves the loop to the machine. -/
theorem execute_eq_scan {c : ESIParser} {chunk : Bytes} (hne : chunk ≠ [])
    (hfast : ¬ c.TakesFastPath chunk) :
    c.execute chunk = c.scan chunk >>= fun m => pure (m.leave (c.enter chunk).2.1) := by
  rw [execute, if_neg hne, if_neg hfast, scan]

theorem execute_agree {c : ESIParser} {s : Scanner} {chunk : Bytes} (h : Between c s)
    (hkeeps : c.KeepsChunk chunk) (hoffsets : c.KeepsOffsets chunk) :
    Run.Agree Between (c.execute chunk) (s.feedAll chunk) := by
  by_cases hne : chunk = []
  · subst hne
    exact .ok h
  by_cases hfast : c.TakesFastPath chunk
  · obtain ⟨s', hs', hbetween⟩ := fastPath_between h hfast (hkeeps hfast)
    rw [hs', execute, if_neg hne, if_pos hfast]
    exact .ok hbetween
  · have hfit := hoffsets hne hfast
    have hdata : (c.enter chunk).2.1 ≠ [] := by
      obtain ⟨m, u, henter, -⟩ := enter_bare c chunk
      rw [henter]
      exact List.append_ne_nil_of_right_ne_nil u hne
    obtain ⟨o, ho, hscan⟩ := scan_agree h chunk
    rw [execute_eq_scan hne hfast]
    generalize c.scan chunk = x at hfit hscan
    generalize s.feedAll chunk = y at hscan
    cases hscan with
    | ok hlinked => exact .ok (leave_between hlinked ho hdata (hfit _ rfl))
    | error e => exact .error e

/-- Whatever becomes of the offsets, the call itself has seen the right bytes. -/
theorem execute_mirrors {c : ESIParser} {s : Scanner} {chunk : Bytes} (h : Between c s)
    (hkeeps : c.KeepsChunk chunk) : Run.Agree Mirrors (c.execute chunk) (s.feedAll chunk) := by
  by_cases hne : chunk = []
  · subst hne
    exact .ok h.mirrors
  by_cases hfast : c.TakesFastPath chunk
  · obtain ⟨s', hs', hbetween⟩ := fastPath_between h hfast (hkeeps hfast)
    rw [hs', execute, if_neg hne, if_pos hfast]
    exact .ok hbetween.mirrors
  · obtain ⟨o, -, hscan⟩ := scan_agree h chunk
    rw [execute_eq_scan hne hfast, ← bind_pure (s.feedAll chunk)]
    exact hscan.bind fun m t hlinked =>
      .ok ⟨hlinked.inv, hlinked.same.of_bare (leave_bare m _)⟩

theorem executeAll_agree {c : ESIParser} {s : Scanner} {chunks : List Bytes} (h : Between c s)
    (hkeeps : Run.Each execute KeepsChunk c chunks)
    (hoffsets : Run.Each execute KeepsOffsets c chunks) :
    Run.Agree Between (c.executeAll chunks) (s.feedAll chunks.flatten) :=
  Run.agree_flatten (P := fun c chunk => c.KeepsChunk chunk ∧ c.KeepsOffsets chunk)
    (fun _ _ _ h hP => execute_agree h hP.1 hP.2)
    (fun l₁ a l₂ m hl hm => ⟨hkeeps l₁ a l₂ m hl hm, hoffsets l₁ a l₂ m hl hm⟩) h

/-! ## Whole runs -/

theorem leave_overflowData {c : ESIParser} {data u : Bytes}
    (h : (c.leave data).overflowData = some u) : u = data ∨ c.overflowData = some u := by
  by_cases hcs : c.cs ≠ esiStart ∧ c.cs ≠ .s0
  · rw [leave, if_pos hcs] at h
    cases ho : c.overflowData with
    | none =>
      simp only [ho, Option.some.injEq] at h
      exact .inl h.symm
    | some old =>
      simp only [ho] at h
      exact .inr h
  · rw [leave, if_neg hcs] at h
    cases h

/-- The buffer to scan is the chunk behind the overflow data. -/
theorem enter_overflowData_le {c : ESIParser} (chunk : Bytes) {n : ℕ}
    (hc : ∀ u, c.overflowData = some u → u.length ≤ n) :
    (c.enter chunk).2.1.length ≤ n + chunk.length ∧
      ∀ u, (c.enter chunk).1.overflowData = some u → u.length ≤ n + chunk.length := by
  rcases ho : c.overflowData with _ | (_ | ⟨b, old⟩)
  · simp only [enter, ho, initMark_overflowData]
    exact ⟨Nat.le_add_left _ _, fun u hu => by cases hu⟩
  · simp only [enter, ho, initMark_overflowData]
    exact ⟨Nat.le_add_left _ _, fun u hu => (hc u (ho.trans hu)).trans (Nat.le_add_right _ _)⟩
  · have hlen := hc _ ho
    simp only [enter, ho, initMark_overflowData]
    have hle : (b :: old ++ chunk).length ≤ n + chunk.length := by
      rw [List.length_append]
      omega
    refine ⟨hle, fun u hu => ?_⟩
    obtain rfl := Option.some.inj hu
    exact hle

/-- The overflow data grows by no more than the chunk. -/
theorem execute_overflowData_le {c c' : ESIParser} {chunk : Bytes} {n : ℕ}
    (h : c.execute chunk = .ok c') (hc : ∀ u, c.overflowData = some u → u.length ≤ n) :
    ∀ u, c'.overflowData = some u → u.length ≤ n + chunk.length := by
  intro u hu
  unfold execute at h
  split_ifs at h with hne hfast
  · obtain rfl := Except.ok.inj h
    exact (hc u hu).trans (Nat.le_add_right _ _)
  · obtain rfl := Except.ok.inj h
    rw [echoChar_overflowData] at hu
    exact (hc u hu).trans (Nat.le_add_right _ _)
  · obtain ⟨m, hm, h⟩ := Run.bind_ok h
    obtain rfl := Except.ok.inj h
    obtain ⟨hdata, henter⟩ := enter_overflowData_le chunk hc
    rcases leave_overflowData hu with rfl | ho
    · exact hdata
    · rw [exec_overflowData hm] at ho
      exact henter u ho

theorem executeAll_overflowData_le {c c' : ESIParser} {chunks : List Bytes} {n : ℕ}
    (h : c.executeAll chunks = .ok c') (hc : ∀ u, c.overflowData = some u → u.length ≤ n) :
    ∀ u, c'.overflowData = some u → u.length ≤ n + chunks.flatten.length := by
  induction chunks generalizing c n with
  | nil =>
    cases h
    simpa using hc
  | cons chunk chunks ih =>
    obtain ⟨m, hm, h⟩ := Run.cons_ok.1 h
    have := ih h (execute_overflowData_le hm hc)
    rwa [List.flatten_cons, List.length_append, ← Nat.add_assoc]

/-- The calls before the last one that has something to read keep their offsets. -/
theorem InRange.offsets {done : List Bytes} {chunk : Bytes} (h : InRange (done ++ [chunk]))
    (hne : chunk ≠ []) : Run.Each execute KeepsOffsets .new done :=
  h.2 done [chunk] rfl (by simpa using hne)

theorem InRange.left {l₁ l₂ : List Bytes} (h : InRange (l₁ ++ l₂)) : InRange l₁ := by
  refine ⟨h.1.left, fun done later hl hne => h.2 done (later ++ l₂) ?_ fun hnil => ?_⟩
  · rw [hl, List.append_assoc]
  · rw [List.flatten_append] at hnil
    exact hne (List.append_eq_nil_iff.1 hnil).1

/-- A run ends where the scanner does. -/
theorem executeAll_mirrors {chunks : List Bytes} (h : InRange chunks) :
    Run.Agree Mirrors (new.executeAll chunks) (({} : Scanner).feedAll chunks.flatten) := by
  induction chunks using List.reverseRecOn with
  | nil => exact .ok between_new.mirrors
  | append_singleton chunks chunk ih =>
    rw [executeAll, Scanner.feedAll, List.foldlM_append, List.flatten_append, List.foldlM_append,
      List.flatten_singleton]
    have hlast : ∀ c, [chunk].foldlM execute c = c.execute chunk := fun c => bind_pure _
    simp only [hlast]
    by_cases hne : chunk = []
    · subst hne
      exact (ih h.left).bind fun c s hcs => .ok hcs
    · have hkeeps : ∀ c, new.executeAll chunks = .ok c → c.KeepsChunk chunk :=
        fun c => h.1 chunks chunk [] c rfl
      have hagree := executeAll_agree between_new h.1.left (h.offsets hne)
      unfold executeAll at hagree hkeeps
      unfold Scanner.feedAll at hagree
      generalize chunks.foldlM execute new = x at hagree hkeeps ⊢
      generalize chunks.flatten.foldlM Scanner.feed {} = y at hagree ⊢
      cases hagree with
      | error e => exact .error e
      | ok hbetween => exact execute_mirrors hbetween (hkeeps _ rfl)

/-- A call below 2 GiB keeps its offsets. -/
theorem keepsOffsets_of_length {c : ESIParser} {s : Scanner} {chunk : Bytes} {n : ℕ}
    (h : Between c s) (hc : ∀ u, c.overflowData = some u → u.length ≤ n)
    (hlen : n + chunk.length < 2 ^ 31) : c.KeepsOffsets chunk := by
  intro hne hfast m hm
  obtain ⟨o, -, hscan⟩ := scan_agree h chunk
  have hdata := (enter_overflowData_le chunk hc).1
  obtain ⟨t, -, hlinked⟩ := hscan.ok_left hm
  have hpts := hlinked.points
  rw [← hlinked.same.cs] at hpts
  exact hpts.offsetsFit (by omega)

/-- A document below 2 GiB keeps every call within the range of `int`. -/
theorem each_of_length {chunks : List Bytes} (h : chunks.flatten.length < 2 ^ 31) :
    Run.Each execute KeepsChunk .new chunks ∧ Run.Each execute KeepsOffsets .new chunks := by
  induction chunks using List.reverseRecOn with
  | nil => exact ⟨Run.each_nil _, Run.each_nil _⟩
  | append_singleton chunks chunk ih =>
    rw [List.flatten_append, List.flatten_singleton, List.length_append] at h
    obtain ⟨hkeeps, hoffsets⟩ := ih (by omega)
    refine ⟨Run.each_concat.2 ⟨hkeeps, fun c _ _ => by omega⟩,
      Run.each_concat.2 ⟨hoffsets, fun c hc => ?_⟩⟩
    obtain ⟨s, -, hbetween⟩ := (executeAll_agree between_new hkeeps hoffsets).ok_left hc
    have hle := executeAll_overflowData_le (n := 0) hc (fun u hu => by cases hu)
    exact keepsOffsets_of_length hbetween hle (by omega)

theorem inRange_of_length {chunks : List Bytes} (h : chunks.flatten.length < 2 ^ 31) :
    InRange chunks := by
  refine ⟨(each_of_length h).1, ?_⟩
  rintro done later rfl -
  exact (each_of_length h).2.left

/-- The run over a document below 2 GiB ends between two calls. -/
theorem executeAll_between {chunks : List Bytes} (h : chunks.flatten.length < 2 ^ 31) :
    Run.Agree Between (new.executeAll chunks) (({} : Scanner).feedAll chunks.flatten) :=
  executeAll_agree between_new (each_of_length h).1 (each_of_length h).2

/-- What a run shows: the callbacks and the final state, or the fault and the callbacks before. -/
def outcome (x : Except Stop ESIParser) : Except Stop (List Callback × State) :=
  x.map fun c => (c.out.callbacks, c.cs)

/-- The scanner's account of a document. -/
def Scanner.parse (d : Bytes) : Except Stop (List Callback × State) :=
  (({} : Scanner).feedAll d).map fun s => (s.finish.out.callbacks, s.cs)

theorem outcome_parse {chunks : List Bytes} (h : InRange chunks) :
    outcome (parse chunks) = Scanner.parse chunks.flatten := by
  have hagree := executeAll_mirrors h
  rw [parse, Scanner.parse]
  revert hagree
  generalize new.executeAll chunks = x
  generalize Scanner.feedAll _ _ = y
  intro hagree
  cases hagree with
  | error e => rfl
  | ok hok =>
    have hout := hok.same.out
    have hcs := hok.same.cs
    simp only [outcome, finish, flushOutput, Scanner.finish, ← hout, ← hcs, Bind.bind, Except.bind,
      pure, Except.pure, Except.map]

/-- How a document is cut into chunks makes no difference. -/
theorem parse_chunks (chunks : List Bytes) (h : chunks.flatten.length < 2 ^ 31) :
    outcome (parse chunks) = outcome (parse [chunks.flatten]) := by
  have hone : [chunks.flatten].flatten = chunks.flatten := by simp
  rw [outcome_parse (inRange_of_length h), outcome_parse (inRange_of_length (hone.symm ▸ h)), hone]

/-- Cuts inside a tag and behind it. -/
theorem parse_chunks_cut :
    outcome (parse [[60, 101], [115, 105, 58, 97, 62], [120]]) =
      outcome (parse [[60, 101, 115, 105, 58, 97, 62, 120]]) :=
  parse_chunks [[60, 101], [115, 105, 58, 97, 62], [120]] (by decide)

end ESIParser

end NginxEsi
