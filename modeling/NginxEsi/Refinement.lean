import NginxEsi.Stage

/-!
# The parser refines the scanner

`Same` relates the fields that a parser and a scanner share, and `Points` says that the pointers
in use point to the scanner's texts in the buffer being scanned.  One byte of the machine agrees
with `Scanner.feed` (`step_agree`), a call of `esi_parser_execute` agrees with feeding the chunk
(`execute_agree`), and so does any number of calls (`executeAll_agree`), as long as no size or
offset leaves the range of `int` (`Fits`).
-/

namespace NginxEsi

/-! ## Trimming in the buffer -/

/-- The text `t` stands at offset `i` of `u`. -/
def StandsAt (u : Bytes) (i : ℕ) (t : Bytes) : Prop := ∃ a w, u = a ++ t ++ w ∧ a.length = i

namespace StandsAt

variable {u t : Bytes} {i : ℕ}

theorem append (h : StandsAt u i t) (v : Bytes) : StandsAt (u ++ v) i t := by
  obtain ⟨a, w, rfl, ha⟩ := h
  exact ⟨a, w ++ v, by simp, ha⟩

theorem le (h : StandsAt u i t) : i + t.length ≤ u.length := by
  obtain ⟨a, w, rfl, rfl⟩ := h
  simp only [List.length_append]
  omega

theorem text (h : StandsAt u i t) : (Ptr.at i).text u t.length = .ok t := by
  have hle := h.le
  obtain ⟨a, w, rfl, rfl⟩ := h
  rw [Ptr.text, if_pos hle, List.append_assoc, List.drop_left, List.take_left]

/-- The byte at a position of the text. -/
theorem load {l r : Bytes} {c : UInt8} (h : StandsAt u i (l ++ c :: r)) :
    (Ptr.at (i + l.length)).load u = .ok c := by
  obtain ⟨a, w, rfl, rfl⟩ := h
  have : (a ++ (l ++ c :: r) ++ w)[a.length + l.length]? = some c := by
    simp
  simp only [Ptr.load, this]

end StandsAt

/-- `ltrim_pointer` with `bounds` not before the end of the text; the byte after the text can be
read. -/
theorem ltrimPointer_eq {data : Bytes} {p : ℕ} : ∀ {t : Bytes} {i : ℕ} {c : UInt8},
    StandsAt data i (t ++ [c]) → i + t.length ≤ p →
    ltrimPointer data (.at p) (.at i) t.length =
      .ok (.at (i + (t.takeWhile isLtrim).length), (trimLeft t).length)
  | [], i, c, h, _ => by
    have := StandsAt.load (l := []) h
    simp only [List.length_nil, Nat.add_zero] at this
    simp [ltrimPointer, this, trimLeft, Bind.bind, Except.bind, pure, Except.pure]
  | b :: t, i, c, h, hp => by
    have hb := StandsAt.load (l := []) h
    simp only [List.length_nil, Nat.add_zero] at hb
    simp only [List.length_cons] at hp ⊢
    simp only [ltrimPointer, hb, Bind.bind, Except.bind]
    have hne : Ptr.at i ≠ .at p := by
      intro e
      injection e
      omega
    by_cases hc : isLtrim b = true
    · have h' : StandsAt data (i + 1) (t ++ [c]) := by
        obtain ⟨a, w, rfl, rfl⟩ := h
        exact ⟨a ++ [b], w, by simp, by simp⟩
      rw [if_pos ⟨hc, hne⟩]
      simp only [Ptr.add]
      rw [ltrimPointer_eq h' (by omega)]
      simp only [List.takeWhile_cons, hc, if_true, List.length_cons, trimLeft, List.dropWhile_cons,
        Except.ok.injEq, Prod.mk.injEq, Ptr.at.injEq, and_true]
      omega
    · rw [if_neg (by simp [hc])]
      simp [hc, trimLeft, pure, Except.pure]

theorem loadLast_succ (data : Bytes) (i len : ℕ) :
    (Ptr.at i).loadLast data (len + 1) = (Ptr.at (i + len)).load data := by
  cases i <;> simp [Ptr.loadLast]

/-- `rtrim_pointer`; an empty text has its `bounds` on the byte before it. -/
theorem rtrimPointer_eq {data t : Bytes} {i : ℕ} (h : StandsAt data i t) (hi : t = [] → 0 < i) :
    rtrimPointer data (.at i) t.length = .ok (trimRight t).length := by
  cases t with
  | nil =>
    obtain ⟨k, rfl⟩ : ∃ k, i = k + 1 := ⟨i - 1, by have := hi rfl; omega⟩
    have hk : k < data.length := by
      have := h.le
      simp only [List.length_nil] at this
      omega
    simp [rtrimPointer, Ptr.loadLast, Ptr.load, List.getElem?_eq_getElem hk, trimRight, Bind.bind,
      Except.bind, pure, Except.pure]
  | cons c t =>
    induction t using List.reverseRecOn with
    | nil =>
      have := StandsAt.load (l := []) h
      simp only [List.length_nil, Nat.add_zero] at this
      simp [rtrimPointer, loadLast_succ, this, trimRight, Bind.bind, Except.bind, pure, Except.pure]
    | append_singleton t d ih =>
      have hd : (Ptr.at (i + (t.length + 1))).load data = .ok d :=
        StandsAt.load (l := c :: t) (by simpa using h)
      have h' : StandsAt data i (c :: t) := by
        obtain ⟨a, w, rfl, rfl⟩ := h
        exact ⟨a, d :: w, by simp, rfl⟩
      simp only [List.length_cons, List.length_append, List.length_nil, Nat.zero_add] at ih ⊢
      simp only [rtrimPointer, loadLast_succ, hd, Bind.bind, Except.bind]
      by_cases hc : isRtrim d = true
      · rw [if_pos hc, ih h' (by simp), trimRight, trimRight, List.rdropWhile_concat_pos _ _ _ hc]
      · rw [if_neg hc, trimRight, List.rdropWhile_concat_neg _ _ _ hc]
        simp [pure, Except.pure]

theorem trimRight_isPrefix : ∀ t : Bytes, trimRight t <+: t
  | [] => List.nil_prefix
  | c :: t => (List.prefix_cons_inj c).2 (List.rdropWhile_prefix _ t)

/-- Both trims, for a text that ends before the position `p`. -/
theorem trimPointer_eq {u t : Bytes} {i : ℕ} (ch : UInt8) (rest : Bytes) (h : StandsAt u i t)
    (hi : t = [] → 0 < i) :
    ∃ j, trimPointer (u ++ ch :: rest) u.length (.at i) t.length =
      .ok (.at j, (trim t).length) ∧ StandsAt u j (trim t) := by
  set k := (t.takeWhile isLtrim).length with hk
  have hsplit : t = t.takeWhile isLtrim ++ trimLeft t := (List.takeWhile_append_dropWhile).symm
  have hleft : StandsAt u (i + k) (trimLeft t) := by
    obtain ⟨a, w, hu, rfl⟩ := h
    refine ⟨a ++ t.takeWhile isLtrim, w, ?_, by simp [hk]⟩
    calc u = a ++ t ++ w := hu
      _ = a ++ (t.takeWhile isLtrim ++ trimLeft t) ++ w := by rw [← hsplit]
      _ = a ++ t.takeWhile isLtrim ++ trimLeft t ++ w := by simp only [List.append_assoc]
  have hpos : trimLeft t = [] → 0 < i + k := by
    intro e
    rw [e, List.append_nil] at hsplit
    rcases t with _ | ⟨c, t⟩
    · have := hi rfl
      omega
    · have : (c :: t).length = k := by rw [hk, ← hsplit]
      simp only [List.length_cons] at this
      omega
  have hread : ∃ c, StandsAt (u ++ ch :: rest) i (t ++ [c]) := by
    obtain ⟨a, w, rfl, rfl⟩ := h
    rcases w with _ | ⟨c, w⟩
    · exact ⟨ch, a, rest, by simp, rfl⟩
    · exact ⟨c, a, w ++ ch :: rest, by simp, rfl⟩
  obtain ⟨c, hread⟩ := hread
  refine ⟨i + k, ?_, ?_⟩
  · simp only [trimPointer, ltrimPointer_eq hread h.le, Bind.bind, Except.bind]
    rw [← hk, rtrimPointer_eq (hleft.append _) hpos]
    rfl
  · obtain ⟨v, hv⟩ := trimRight_isPrefix (trimLeft t)
    obtain ⟨a, w, hu, ha⟩ := hleft
    exact ⟨a, v ++ w, by rw [hu, ← hv]; simp [trim], ha⟩

/-! ## One byte -/

/-- The fields that a parser and a scanner share, between two bytes. -/
structure Same (c : ESIParser) (s : Scanner) : Prop where
  cs : c.cs = s.cs
  prevState : c.prevState = s.cs
  echobuffer : c.echobuffer = s.held
  out : c.out = s.out
  attributes : c.attributes = s.attributes

/-- In the state `q`, with `u` the part of the buffer that is already consumed, the pointers in use
point to the scanner's texts. -/
structure Points (q : State) (c : ESIParser) (u : Bytes) (s : Scanner) : Prop where
  mark : q.marked = true → ∃ a, u = a ++ s.since ∧ c.mark = .at a.length
  tagText_none : q.named = true → s.name = none → c.tagText = .null
  tagText_some : q.named = true → ∀ n, s.name = some n →
    ∃ i, c.tagText = .at i ∧ c.tagTextLength = n.length ∧ StandsAt u i n
  attrKey : q.keyed = true →
    ∃ i, c.attrKey = .at i ∧ c.attrKeyLength = s.key.length ∧ StandsAt u i s.key

theorem Points.advance {q : State} {c : ESIParser} {u : Bytes} {s : Scanner} (h : Points q c u s)
    (ch : UInt8) : Points q c (u ++ [ch]) (s.advance ch) where
  mark hq := by
    obtain ⟨a, rfl, ha⟩ := h.mark hq
    exact ⟨a, by simp [Scanner.advance], ha⟩
  tagText_none := h.tagText_none
  tagText_some hq n hn := by
    obtain ⟨i, hi, hl, hs⟩ := h.tagText_some hq n hn
    exact ⟨i, hi, hl, hs.append _⟩
  attrKey hq := by
    obtain ⟨i, hi, hl, hs⟩ := h.attrKey hq
    exact ⟨i, hi, hl, hs.append _⟩

namespace ESIParser

/-- The parser without the capacity of its echo buffer and without the accesses. -/
def core (c : ESIParser) : ESIParser :=
  { c with echobufferAllocated := 0, echobufferSize := 0, accesses := [] }

theorem core_echoChar (c : ESIParser) (ch : UInt8) :
    (c.echoChar ch).core = { c.core with out := c.out.echoChar ch } := rfl

theorem core_foldl_echoChar {α : Type} (f : ESIParser → α → ESIParser) (g : α → UInt8)
    (hf : ∀ c e, (f c e).core = { c.core with out := c.out.echoChar (g e) }) :
    ∀ (l : List α) (c : ESIParser),
      (l.foldl f c).core = { c.core with out := (l.map g).foldl Output.echoChar c.out }
  | [], _ => rfl
  | e :: l, c => by
    have hout : (f c e).out = c.out.echoChar (g e) := congrArg ESIParser.out (hf c e)
    rw [List.foldl_cons, core_foldl_echoChar f g hf l (f c e), hf, hout]
    rfl

theorem core_echoBuffer (c : ESIParser) :
    c.echoBuffer.core = { c.core with out := c.echobuffer.foldl Output.echoChar c.out } := by
  have h := core_foldl_echoChar
    (fun p (e : UInt8 × ℕ) => (p.access e.2 p.echobufferSize).echoChar e.1) Prod.fst
    (fun c e => rfl) c.echobuffer.zipIdx c
  rwa [List.zipIdx_map_fst] at h

/-- `action echo`. -/
theorem core_echo (c : ESIParser) (ch : UInt8) :
    (c.echo ch).core = { c.core with
      prevState := c.cs
      echobuffer := if c.cs = .s0 then [] else c.echobuffer ++ [ch]
      out :=
        if c.cs = .s0 ∧ c.prevState ≠ .s12 ∧ c.prevState ≠ .s7 then
          (c.echobuffer ++ [ch]).foldl Output.echoChar c.out
        else c.out } := by
  by_cases h0 : c.cs = .s0
  · by_cases hp : c.prevState ≠ .s12 ∧ c.prevState ≠ .s7
    · set x := if c.echobuffer ≠ [] then c.echoBuffer else c with hx
      have hcore : x.core = { c.core with out := c.echobuffer.foldl Output.echoChar c.out } := by
        by_cases he : c.echobuffer = []
        · rw [hx, if_neg (not_not.2 he), he]
          rfl
        · rw [hx, if_pos he, core_echoBuffer]
      have hcs : x.cs = c.cs := by
        change x.core.cs = c.cs
        rw [hcore]
        rfl
      have hout : x.out = c.echobuffer.foldl Output.echoChar c.out := by
        change x.core.out = _
        rw [hcore]
      have hecho : (c.echo ch).core =
          { x.core with out := x.out.echoChar ch, echobuffer := [], prevState := x.cs } := by
        simp only [echo, if_pos h0, if_pos hp, ← hx]
        dsimp only [core, echoChar, access, echobufferClear]
      rw [hecho, hcore, hcs, hout, if_pos h0, if_pos ⟨h0, hp⟩, List.foldl_append]
      rfl
    · rw [if_pos h0, if_neg fun h => hp h.2]
      simp only [echo, if_pos h0, if_neg hp]
      rfl
  · rw [if_neg h0, if_neg fun h => h0 h.1]
    simp only [echo, if_neg h0, concatToEchobuffer]
    split_ifs <;> rfl

section echo

variable (c : ESIParser) (ch : UInt8)

theorem echo_cs : (c.echo ch).cs = c.cs := by
  have h := congrArg ESIParser.cs (core_echo c ch)
  exact h

theorem echo_mark : (c.echo ch).mark = c.mark := by
  have h := congrArg ESIParser.mark (core_echo c ch)
  exact h

theorem echo_tagText : (c.echo ch).tagText = c.tagText := by
  have h := congrArg ESIParser.tagText (core_echo c ch)
  exact h

theorem echo_tagTextLength : (c.echo ch).tagTextLength = c.tagTextLength := by
  have h := congrArg ESIParser.tagTextLength (core_echo c ch)
  exact h

theorem echo_attrKey : (c.echo ch).attrKey = c.attrKey := by
  have h := congrArg ESIParser.attrKey (core_echo c ch)
  exact h

theorem echo_attrKeyLength : (c.echo ch).attrKeyLength = c.attrKeyLength := by
  have h := congrArg ESIParser.attrKeyLength (core_echo c ch)
  exact h

theorem echo_attributes : (c.echo ch).attributes = c.attributes := by
  have h := congrArg ESIParser.attributes (core_echo c ch)
  exact h

theorem echo_overflowData : (c.echo ch).overflowData = c.overflowData := by
  have h := congrArg ESIParser.overflowData (core_echo c ch)
  exact h

theorem echo_prevState : (c.echo ch).prevState = c.cs := by
  have h := congrArg ESIParser.prevState (core_echo c ch)
  exact h

theorem echo_echobuffer :
    (c.echo ch).echobuffer = if c.cs = .s0 then [] else c.echobuffer ++ [ch] := by
  have h := congrArg ESIParser.echobuffer (core_echo c ch)
  exact h

theorem echo_out : (c.echo ch).out =
    if c.cs = .s0 ∧ c.prevState ≠ .s12 ∧ c.prevState ≠ .s7 then
      (c.echobuffer ++ [ch]).foldl Output.echoChar c.out
    else c.out := by
  have h := congrArg ESIParser.out (core_echo c ch)
  exact h

end echo

end ESIParser

theorem Same.enter {c : ESIParser} {s : Scanner} (h : Same c s) (cs : State) (ch : UInt8) :
    Same ({ c with cs := cs }.echo ch) (s.enter cs ch) := by
  refine ⟨?_, ?_, ?_, ?_, ?_⟩
  · rw [ESIParser.echo_cs, s.enter_cs]
  · rw [ESIParser.echo_prevState, s.enter_cs]
  · rw [ESIParser.echo_echobuffer]
    simp only [h.echobuffer, Scanner.enter, Scanner.echo]
    split_ifs <;> rfl
  · rw [ESIParser.echo_out]
    simp only [h.echobuffer, h.out, h.prevState, Scanner.enter, Scanner.echo]
    split_ifs <;> first | rfl | tauto
  · rw [ESIParser.echo_attributes, s.enter_attributes]
    exact h.attributes

/-- Moving pointers to a scanner that differs in none of the texts pointed to. -/
theorem Points.enter {q : State} {c : ESIParser} {u : Bytes} {s : Scanner} (h : Points q c u s)
    (cs : State) (ch : UInt8) : Points q ({ c with cs := cs }.echo ch) u (s.enter cs ch) := by
  refine ⟨?_, ?_, ?_, ?_⟩
  · simpa only [ESIParser.echo_mark, Scanner.enter_since] using h.mark
  · simpa only [ESIParser.echo_tagText, Scanner.enter_name] using h.tagText_none
  · simpa only [ESIParser.echo_tagText, ESIParser.echo_tagTextLength, Scanner.enter_name] using
      h.tagText_some
  · simpa only [ESIParser.echo_attrKey, ESIParser.echo_attrKeyLength, Scanner.enter_key] using
      h.attrKey

/-! ## The actions -/

section actions

variable {q : State} {c : ESIParser} {u rest : Bytes} {ch : UInt8} {s : Scanner}

theorem check_ok {α : Type} (c : ESIParser) (x : α) : c.check (.ok x) = .ok x := rfl

/-- The distance from `k` bytes behind the mark to the position. -/
theorem distance_mark {a since : Bytes} {k : ℕ} (hu : u = a ++ since) (hk : k ≤ since.length) :
    ((Ptr.at a.length).add k).distance u.length = .ok (since.drop k).length := by
  rw [Ptr.add, Ptr.distance, if_pos (by rw [hu, List.length_append]; omega), List.length_drop, hu,
    List.length_append]
  congr 1
  omega

theorem standsAt_mark {a since : Bytes} {k : ℕ} (hu : u = a ++ since) (hk : k ≤ since.length) :
    StandsAt u (a.length + k) (since.drop k) :=
  ⟨a ++ since.take k, [], by simp [hu], by simp [hk]⟩

/-- The name of a tag without attributes, `k` bytes behind the mark. -/
theorem Points.takeName_eq (ch : UInt8) (rest : Bytes) (k : ℕ) (hmarked : q.marked = true)
    (hk : k < s.since.length) (hpts : Points q c u s) :
    ∃ j, c.takeName (u ++ ch :: rest) u.length k =
      .ok (trim (s.since.drop k), { c.flushOutput with
        tagText := .at j, tagTextLength := (trim (s.since.drop k)).length
        mark := .at u.length }) ∧
      StandsAt u j (trim (s.since.drop k)) := by
  obtain ⟨a, hu, hmark⟩ := hpts.mark hmarked
  have hne : s.since.drop k ≠ [] := by
    rw [← List.length_pos_iff, List.length_drop]
    omega
  obtain ⟨j, hj, hs⟩ := trimPointer_eq ch rest (standsAt_mark hu hk.le)
    (fun h => absurd h hne)
  have hdist := distance_mark hu hk.le
  refine ⟨j, ?_, hs⟩
  simp only [ESIParser.takeName, hmark, hdist, check_ok, Bind.bind, Except.bind]
  rw [Ptr.add, hj]
  simp only [check_ok, (hs.append (ch :: rest)).text]
  rfl

theorem trimPointer_null (data : Bytes) (p len : ℕ) :
    trimPointer data p .null len = .error .nullDereference := by
  cases len <;> rfl

/-- An action has left the parser and the scanner in step, in the state `cs`. -/
def Acted (cs : State) (u : Bytes) (c c' : ESIParser) (m : Scanner) : Prop :=
  Same c' m ∧ Points cs c' u m ∧ c'.overflowData = c.overflowData

variable {cs : State}

/-- The two actions that complete a tag with attributes. -/
theorem completeTag_agree (withEnd : Bool) (hq : q.named = true)
    (hkey : cs.keyed = true → q.keyed = true)
    (hname : ∀ n, s.name = some n → IsTagName n) (hsame : Same c s) (hpts : Points q c u s) :
    Run.Agree (Acted cs u c) (c.completeTag (u ++ ch :: rest) u.length withEnd)
      (s.completeTag withEnd) := by
  cases hn : s.name with
  | none =>
    rw [Scanner.completeTag_none hn, ESIParser.completeTag, hpts.tagText_none hq hn,
      trimPointer_null]
    simp only [ESIParser.check, Except.mapError, Bind.bind, Except.bind, hsame.out]
    exact .error _
  | some n =>
    obtain ⟨i, hi, hl, hs⟩ := hpts.tagText_some hq n hn
    obtain ⟨j, hj, hs'⟩ := trimPointer_eq ch rest hs
      (fun h => absurd h (hname n hn).ne_nil)
    simp only [ESIParser.completeTag, hi, hl, hj, check_ok, Bind.bind, Except.bind,
      (hs'.append (ch :: rest)).text, Scanner.completeTag, hn, ESIParser.report,
      ESIParser.flushOutput, ESIParser.echobufferClear, Scanner.report, ← hsame.out,
      ← hsame.attributes, Output.flush_flush]
    have hkeys : cs.keyed = true → ∃ i, c.attrKey = .at i ∧ c.attrKeyLength = s.key.length ∧
        StandsAt u i s.key := fun h => hpts.attrKey (hkey h)
    cases withEnd with
    | false =>
      simp only [Bool.false_eq_true, if_false]
      exact .ok ⟨⟨hsame.cs, hsame.prevState, rfl, rfl, rfl⟩,
        ⟨fun _ => ⟨u, (List.append_nil u).symm, rfl⟩, fun _ _ => rfl, fun _ _ h => (by cases h),
          hkeys⟩, rfl⟩
    | true =>
      simp only [if_true]
      exact .ok ⟨⟨hsame.cs, hsame.prevState, rfl, rfl, rfl⟩,
        ⟨fun _ => ⟨u, (List.append_nil u).symm, rfl⟩, fun _ _ => rfl, fun _ _ h => (by cases h),
          hkeys⟩, rfl⟩

/-- A tag without attributes has been reported, and its name `n` stands at `j`. -/
theorem acted_name {n : Bytes} {j : ℕ} {as as' : List ESIAttribute} (t : Callback)
    (hs : StandsAt u j n) (hkey : cs.keyed = true → q.keyed = true) (hsame : Same c s)
    (hpts : Points q c u s) (has : as = as') :
    Acted cs u c
      { (ESIParser.report { c.flushOutput with
          tagText := .at j, tagTextLength := n.length, mark := .at u.length } t).echobufferClear with
        attributes := as }
      { s.report t with name := some n, since := [], held := [], attributes := as' } := by
  refine ⟨⟨hsame.cs, hsame.prevState, rfl, ?_, has⟩,
    ⟨fun _ => ⟨u, (List.append_nil u).symm, rfl⟩, fun _ h => ?_, fun _ m h => ?_, fun h => ?_⟩, rfl⟩
  · simp [ESIParser.report, ESIParser.flushOutput, ESIParser.echobufferClear, Scanner.report,
      hsame.out]
  · cases h
  · obtain rfl := Option.some.inj h
    exact ⟨j, rfl, rfl, hs⟩
  · exact hpts.attrKey (hkey h)

theorem blockEndTag_agree (hmarked : q.marked = true) (hk : 2 < s.since.length)
    (hkey : cs.keyed = true → q.keyed = true) (hsame : Same c s) (hpts : Points q c u s) :
    Run.Agree (Acted cs u c) (c.blockEndTag (u ++ ch :: rest) u.length)
      (s.act q ch .blockEndTag) := by
  obtain ⟨j, hj, hs⟩ := hpts.takeName_eq ch rest 2 hmarked hk
  simp only [ESIParser.blockEndTag, hj, Bind.bind, Except.bind]
  exact .ok (acted_name _ hs hkey hsame hpts hsame.attributes)

theorem blockStartTag_agree (hmarked : q.marked = true) (hk : 0 < s.since.length)
    (hkey : cs.keyed = true → q.keyed = true) (hsame : Same c s) (hpts : Points q c u s) :
    Run.Agree (Acted cs u c) (c.blockStartTag (u ++ ch :: rest) u.length)
      (s.act q ch .blockStartTag) := by
  obtain ⟨j, hj, hs⟩ := hpts.takeName_eq ch rest 0 hmarked hk
  rw [List.drop_zero] at hj hs
  simp only [ESIParser.blockStartTag, hj, Bind.bind, Except.bind]
  exact .ok (acted_name _ hs hkey hsame hpts rfl)

theorem seeStartTag_agree (hmarked : q.marked = true) (hk : 1 ≤ s.since.length)
    (hkey : cs.keyed = true → q.keyed = true) (hsame : Same c s) (hpts : Points q c u s) :
    Run.Agree (Acted cs u c) (c.seeStartTag u.length) (s.act q ch .seeStartTag) := by
  obtain ⟨a, hu, hmark⟩ := hpts.mark hmarked
  simp only [ESIParser.seeStartTag, hmark, distance_mark hu hk, check_ok, Bind.bind, Except.bind]
  refine .ok ⟨⟨hsame.1, hsame.2, hsame.3, hsame.4, hsame.5⟩,
    ⟨fun _ => ⟨u, (List.append_nil u).symm, rfl⟩, fun _ h => ?_, fun _ n h => ?_, fun h => ?_⟩, rfl⟩
  · cases h
  · obtain rfl := Option.some.inj h
    exact ⟨a.length + 1, rfl, rfl, standsAt_mark hu hk⟩
  · exact hpts.attrKey (hkey h)

/-- The text since the mark, trimmed in the buffer. -/
theorem Points.trim_mark (ch : UInt8) (rest : Bytes) (hmarked : q.marked = true)
    (hne : s.since ≠ []) (hpts : Points q c u s) :
    ∃ j, (do
        let length ← c.check (c.mark.distance u.length)
        c.check (trimPointer (u ++ ch :: rest) u.length c.mark length)) =
        .ok (.at j, (trim s.since).length) ∧ StandsAt u j (trim s.since) := by
  obtain ⟨a, hu, hmark⟩ := hpts.mark hmarked
  have hdist := distance_mark hu (Nat.zero_le s.since.length)
  obtain ⟨j, hj, hs⟩ := trimPointer_eq ch rest (standsAt_mark hu (Nat.zero_le _))
    (fun h => absurd h hne)
  simp only [Ptr.add, Nat.add_zero, List.drop_zero] at hdist hj hs
  refine ⟨j, ?_, hs⟩
  simp only [hmark, hdist, check_ok, Bind.bind, Except.bind, hj]

theorem seeAttributeKey_agree (hmarked : q.marked = true) (hne : s.since ≠ [])
    (hname : cs.named = true → q.named = true) (hsame : Same c s) (hpts : Points q c u s) :
    Run.Agree (Acted cs u c) (c.seeAttributeKey (u ++ ch :: rest) u.length)
      (s.act q ch .seeAttributeKey) := by
  obtain ⟨j, hj, hs⟩ := hpts.trim_mark ch rest hmarked hne
  have hact : c.seeAttributeKey (u ++ ch :: rest) u.length = .ok { c with
      attrKey := .at j, attrKeyLength := (trim s.since).length, mark := .at u.length } := by
    rw [ESIParser.seeAttributeKey, ← bind_assoc, hj]
    rfl
  rw [hact]
  refine .ok ⟨⟨hsame.1, hsame.2, hsame.3, hsame.4, hsame.5⟩,
    ⟨fun _ => ⟨u, (List.append_nil u).symm, rfl⟩, fun h => ?_, fun h => ?_,
      fun _ => ⟨j, rfl, rfl, hs⟩⟩, rfl⟩
  · exact hpts.tagText_none (hname h)
  · exact hpts.tagText_some (hname h)

theorem seeAttributeValue_agree (hkeyed : q.keyed = true) (hne : s.since ≠ [])
    (hname : cs.named = true → q.named = true) (hsame : Same c s) (hpts : Points q c u s) :
    Run.Agree (Acted cs u c) (c.seeAttributeValue (u ++ ch :: rest) u.length)
      (s.act q ch .seeAttributeValue) := by
  obtain ⟨j, hj, hs⟩ := hpts.trim_mark ch rest (State.marked_of_keyed hkeyed) hne
  obtain ⟨k, hk, hklen, hks⟩ := hpts.attrKey hkeyed
  have hact : c.seeAttributeValue (u ++ ch :: rest) u.length = .ok { c with
      attrValue := .at j, attrValueLength := (trim s.since).length, mark := .at u.length
      attributes := c.attributes ++ [⟨s.key, trim s.since⟩] } := by
    rw [ESIParser.seeAttributeValue, ← bind_assoc, hj]
    simp only [hk, hklen, (hks.append (ch :: rest)).text, (hs.append (ch :: rest)).text, check_ok,
      Bind.bind, Except.bind]
    rfl
  rw [hact]
  refine .ok ⟨⟨hsame.cs, hsame.prevState, hsame.echobuffer, hsame.out, ?_⟩,
    ⟨fun _ => ⟨u, (List.append_nil u).symm, rfl⟩, fun h => ?_, fun h => ?_,
      fun _ => ⟨k, hk, hklen, hks⟩⟩, rfl⟩
  · exact congrArg (· ++ _) hsame.attributes
  · exact hpts.tagText_none (hname h)
  · exact hpts.tagText_some (hname h)

/-- A step of the action list `f` out of the state `q`. -/
theorem act_agree (ch : UInt8) (rest : Bytes) (f : ActionList) (hflow : Flow q s.cs f)
    (hfits : (stage q).Fits s.since)
    (hne : q.marked = true → s.since ≠ [])
    (hname : q.named = true → ∀ n, s.name = some n → IsTagName n)
    (hsame : Same c s) (hpts : Points q c u s) :
    Run.Agree (Acted s.cs u c) (c.act (u ++ ch :: rest) u.length ch (Scanner.main f))
      (s.act q ch (Scanner.main f)) := by
  have hfinds := hflow.finds
  have hpos : q.marked = true → 0 < s.since.length := fun h => List.length_pos_iff.2 (hne h)
  cases f with
  | f0 | f10 =>
    exact .ok ⟨hsame, ⟨fun h => hpts.mark (hflow.mark h rfl),
      fun h => hpts.tagText_none (hflow.name h rfl), fun h => hpts.tagText_some (hflow.name h rfl),
      fun h => hpts.attrKey (hflow.key h (by decide))⟩, rfl⟩
  | f1 | f12 =>
    exact .ok ⟨⟨hsame.1, hsame.2, hsame.3, hsame.4, hsame.5⟩,
      ⟨fun _ => ⟨u, (List.append_nil u).symm, rfl⟩, fun h => hpts.tagText_none (hflow.name h rfl),
        fun h => hpts.tagText_some (hflow.name h rfl),
        fun h => hpts.attrKey (hflow.key h (by decide))⟩, rfl⟩
  | f2 =>
    obtain ⟨l, hl, ht⟩ : (Stage.name tagClose).Fits s.since := hfinds ▸ hfits
    exact blockEndTag_agree (State.marked_of_stage hfinds) (by rw [ht]; simp [tagClose])
      (fun h => hflow.key h (by decide)) hsame hpts
  | f3 =>
    exact seeStartTag_agree (State.marked_of_stage hfinds) (hpos (State.marked_of_stage hfinds))
      (fun h => hflow.key h (by decide)) hsame hpts
  | f4 =>
    exact blockStartTag_agree (State.marked_of_stage hfinds) (hpos (State.marked_of_stage hfinds))
      (fun h => hflow.key h (by decide)) hsame hpts
  | f5 =>
    exact completeTag_agree false hfinds (fun h => hflow.key h (by decide)) (hname hfinds) hsame
      hpts
  | f8 =>
    exact completeTag_agree true hfinds (fun h => hflow.key h (by decide)) (hname hfinds) hsame
      hpts
  | f6 => exact seeAttributeKey_agree hfinds (hne hfinds) (fun h => hflow.name h rfl) hsame hpts
  | f7 | f11 =>
    exact seeAttributeValue_agree hfinds (hne (State.marked_of_keyed hfinds))
      (fun h => hflow.name h rfl) hsame hpts

end actions

/-- One byte: jump and echo, then the action of the list. -/
theorem ESIParser.step_eq (data : Bytes) (p : ℕ) (ch : UInt8) (c : ESIParser) :
    c.step data p ch = ({ c with cs := (transition c.cs ch).goto.1 }.echo ch).act data p ch
      (Scanner.main (transition c.cs ch).goto.2) := by
  unfold step
  generalize (transition c.cs ch).goto = t
  obtain ⟨cs, f⟩ := t
  cases f
  case f0 | f1 | f10 | f12 => rfl
  case f11 =>
    -- the `finish` behind the action is no action
    simp only [ActionList.actions, List.foldlM_cons, List.foldlM_nil, bind_pure]
    change (act data p ch _ .seeAttributeValue >>= fun c => .ok c) = _
    rw [show (fun c : ESIParser => (Except.ok c : Except Stop ESIParser)) = pure from rfl, bind_pure]
    rfl
  all_goals
    simp only [ActionList.actions, List.foldlM_cons, List.foldlM_nil, bind_pure]
    rfl

/-- The parser and the scanner stand at the same position, `u` into the buffer. -/
structure Linked (o : Option Bytes) (u : Bytes) (c : ESIParser) (s : Scanner) : Prop where
  inv : s.Inv
  same : Same c s
  points : Points s.cs c u s
  overflowData : c.overflowData = o

theorem step_agree {o : Option Bytes} {u : Bytes} {c : ESIParser} {s : Scanner} (ch : UInt8)
    (rest : Bytes) (h : Linked o u c s) :
    Run.Agree (Linked o (u ++ [ch])) (c.step (u ++ ch :: rest) u.length ch) (s.feed ch) := by
  have hflow := flow_transition s.cs ch
  have hne : s.cs.marked = true → s.since ≠ [] :=
    fun hq => h.inv.since_ne (State.idle_of_marked hq)
  have hact := act_agree ch rest (transition s.cs ch).goto.2
    ((s.enter_cs (transition s.cs ch).goto.1 ch).symm ▸ hflow)
    (by simpa using h.inv.fits) (by simpa using hne)
    (by simpa using h.inv.isTagName) (h.same.enter _ ch) (h.points.enter _ ch)
  have hinv : ∀ s', s.feed ch = .ok s' → s'.Inv := fun s' => h.inv.feed
  rw [Scanner.feed_eq] at hinv
  rw [ESIParser.step_eq, h.same.cs, Scanner.feed_eq]
  revert hact hinv
  generalize ESIParser.act _ _ _ _ _ = x
  generalize hy : Scanner.act _ _ _ _ = y
  intro hact hinv
  cases hact with
  | error e => exact .error e
  | @ok c' m hok =>
    obtain ⟨hsame, hpts, ho⟩ := hok
    have hcs : m.cs = _ := Scanner.act_cs (by cases (transition s.cs ch).goto.2 <;> simp [Scanner.main]) hy
    refine .ok ⟨hinv _ rfl, ⟨hsame.cs, hsame.prevState, hsame.echobuffer, hsame.out,
      hsame.attributes⟩, (hcs ▸ hpts).advance ch, ?_⟩
    rw [ho, ESIParser.echo_overflowData]
    exact h.overflowData

/-- The machine over the next part of a buffer. -/
theorem exec_agree {o : Option Bytes} (v : Bytes) : ∀ (part : Bytes) {u : Bytes} {c : ESIParser}
    {s : Scanner}, Linked o u c s →
      Run.Agree (Linked o (u ++ part)) (c.exec (u ++ part ++ v) part u.length) (s.feedAll part)
  | [], u, c, s, h => by
    rw [List.append_nil]
    exact .ok h
  | ch :: part, u, c, s, h => by
    have ih : ∀ c' s', Linked o (u ++ [ch]) c' s' →
        Run.Agree (Linked o (u ++ ch :: part))
          (c'.exec (u ++ ch :: part ++ v) part (u.length + 1)) (s'.feedAll part) := by
      intro c' s' h'
      have := exec_agree v part h'
      rwa [List.length_append, List.append_assoc u, List.singleton_append] at this
    have hstep := step_agree ch (part ++ v) h
    rw [← List.cons_append, ← List.append_assoc] at hstep
    exact hstep.bind ih

end NginxEsi
