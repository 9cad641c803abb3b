import Mathlib.Data.List.Infix
import NginxEsi.Attributes
import NginxEsi.Turns

/-!
# Which attributes a tag is given

The attributes collected so far live across candidates: a candidate that is given up leaves them in
the list, and the next tag is told of them.  `Trail` follows the positions in the document of the
mark, of the `<` of the last tag name and of every key and value; the parser's attributes are the
texts at these positions.  A start handler is told only of attributes between the `<` of its tag and
the `>` that completes it, exactly when nothing was left over as the name of the tag was read and
every value since then has a key of its own (`startTag_isolated`).
-/

namespace NginxEsi

/-! ## Positions -/

/-- The bytes from `start` up to `stop`. -/
structure Span where
  start : ℕ
  stop : ℕ
  deriving DecidableEq, Repr

def Span.read (d : Bytes) (p : Span) : Bytes := (d.drop p.start).take (p.stop - p.start)

/-- The key and the value of an attribute, before they are trimmed. -/
structure AttrSpan where
  key : Span
  value : Span
  deriving DecidableEq, Repr

def AttrSpan.read (d : Bytes) (e : AttrSpan) : ESIAttribute :=
  ⟨trim (e.key.read d), trim (e.value.read d)⟩

/-- Key and value lie behind the position `i` and in front of the position `j`. -/
def AttrSpan.Within (i j : ℕ) (e : AttrSpan) : Prop :=
  i < e.key.start ∧ e.key.stop ≤ j ∧ i < e.value.start ∧ e.value.stop ≤ j

instance (i j : ℕ) (e : AttrSpan) : Decidable (e.Within i j) :=
  inferInstanceAs (Decidable (_ ∧ _))

/-- The machine, its position, and the positions that it has saved; `begins` is that of the `<` in
front of the last tag name, unless the name is that of an end tag or has been used up. -/
structure Trail where
  cs : State := esiStart
  pos : ℕ := 0
  mark : ℕ := 0
  begins : Option ℕ := none
  key : Span := ⟨0, 0⟩
  attributes : List AttrSpan := []
  deriving DecidableEq, Repr

namespace Trail

/-- What a list does to the positions. -/
def act (t : Trail) : ActionList → Trail
  | .f0 | .f10 => t
  | .f1 | .f12 => { t with mark := t.pos }
  | .f2 => { t with begins := none, mark := t.pos }
  | .f3 => { t with begins := some t.mark, mark := t.pos }
  | .f4 => { t with begins := some t.mark, mark := t.pos, attributes := [] }
  | .f5 | .f8 => { t with begins := none, mark := t.pos, attributes := [] }
  | .f6 => { t with key := ⟨t.mark, t.pos⟩, mark := t.pos }
  | .f7 | .f11 =>
    { t with attributes := t.attributes ++ [⟨t.key, ⟨t.mark, t.pos⟩⟩], mark := t.pos }

def next (t : Trail) (b : UInt8) : Trail :=
  { t.act (t.cs.list b) with cs := t.cs.next b, pos := t.pos + 1 }

/-- Where the tag begins whose start callback the list makes. -/
def tag (t : Trail) (f : ActionList) : Option ℕ := if f = .f4 then some t.mark else t.begins

/-- The attributes of this callback. -/
def passed (t : Trail) (f : ActionList) : List AttrSpan := if f = .f4 then [] else t.attributes

end Trail

/-- The positions behind a text. -/
def trail (d : Bytes) : Trail := d.foldl Trail.next {}

theorem trail_concat (d : Bytes) (b : UInt8) : trail (d ++ [b]) = (trail d).next b := by
  rw [trail, List.foldl_append]
  rfl

theorem Span.read_append {p : Span} {d : Bytes} (h : p.stop ≤ d.length) (w : Bytes) :
    p.read (d ++ w) = p.read d := by
  unfold read
  rcases Nat.lt_or_ge d.length p.start with hlt | hle
  · have hzero : p.stop - p.start = 0 := by omega
    rw [hzero, List.take_zero, List.take_zero]
  · rw [List.drop_append_of_le_length hle, List.take_append_of_le_length]
    rw [List.length_drop]
    omega

/-- The text since the mark. -/
theorem Span.read_last {d : Bytes} {i : ℕ} : Span.read d ⟨i, d.length⟩ = d.drop i := by
  rw [read, List.take_of_length_le (List.length_drop ..).le]

theorem AttrSpan.read_append {e : AttrSpan} {d : Bytes} (hkey : e.key.stop ≤ d.length)
    (hvalue : e.value.stop ≤ d.length) (w : Bytes) : e.read (d ++ w) = e.read d := by
  rw [read, read, Span.read_append hkey, Span.read_append hvalue]

/-! ## The order of the positions -/

/-- The key stands in front of the value, and both in front of the position `n`. -/
structure AttrSpan.Ordered (n : ℕ) (e : AttrSpan) : Prop where
  key : e.key.start ≤ e.key.stop
  between : e.key.stop ≤ e.value.start
  value : e.value.start ≤ e.value.stop
  stop : e.value.stop ≤ n

theorem AttrSpan.Ordered.mono {n n' : ℕ} {e : AttrSpan} (h : e.Ordered n) (hn : n ≤ n') :
    e.Ordered n' :=
  ⟨h.key, h.between, h.value, h.stop.trans hn⟩

namespace Trail

/-- What was read earlier stands in front of what was read later. -/
structure Ordered (t : Trail) : Prop where
  mark : t.mark ≤ t.pos
  key : t.key.start ≤ t.key.stop
  stop : t.key.stop ≤ t.mark
  attributes : ∀ e ∈ t.attributes, e.Ordered t.mark

theorem Ordered.attributes_eq_nil_iff {t : Trail} (h : t.Ordered) :
    t.attributes = [] ↔ ∀ e ∈ t.attributes, t.mark < e.key.start := by
  refine ⟨fun hnil e he => ?_, fun hall => ?_⟩
  · rw [hnil] at he
    cases he
  · refine List.eq_nil_iff_forall_not_mem.2 fun e he => ?_
    obtain ⟨hkey, hbetween, hvalue, hstop⟩ := h.attributes e he
    have hlt := hall e he
    omega

theorem act_mark (t : Trail) (f : ActionList) :
    (t.act f).mark = if f.keepsMark then t.mark else t.pos := by
  cases f <;> rfl

theorem mark_le_act {t : Trail} (h : t.mark ≤ t.pos) (f : ActionList) : t.mark ≤ (t.act f).mark := by
  rw [act_mark]
  split_ifs
  · exact Nat.le_refl _
  · exact h

theorem Ordered.next {t : Trail} (h : t.Ordered) (b : UInt8) : (t.next b).Ordered := by
  obtain ⟨hmark, hkey, hstop, hattr⟩ := h
  have hle := mark_le_act hmark (t.cs.list b)
  have hold : ∀ e ∈ t.attributes, e.Ordered (t.act (t.cs.list b)).mark :=
    fun e he => (hattr e he).mono hle
  unfold Trail.next
  generalize t.cs.list b = f at hle hold
  refine ⟨?_, ?_, ?_, ?_⟩
  · change (t.act f).mark ≤ t.pos + 1
    rw [act_mark]
    split_ifs <;> omega
  · change (t.act f).key.start ≤ (t.act f).key.stop
    cases f with
    | f6 => exact hmark
    | _ => exact hkey
  · change (t.act f).key.stop ≤ (t.act f).mark
    cases f with
    | f6 => exact Nat.le_refl _
    | _ => exact hstop.trans hle
  · change ∀ e ∈ (t.act f).attributes, _
    cases f with
    | f4 | f5 | f8 => simp [Trail.act]
    | f7 | f11 =>
      intro e he
      rcases List.mem_append.1 he with he | he
      · exact hold e he
      · rw [List.mem_singleton.1 he]
        exact ⟨hkey, hstop, hmark, Nat.le_refl _⟩
    | _ => exact hold

end Trail

theorem trail_ordered (d : Bytes) : (trail d).Ordered ∧ (trail d).pos = d.length := by
  induction d using List.reverseRecOn with
  | nil => exact ⟨⟨Nat.le_refl 0, Nat.le_refl 0, Nat.le_refl 0, by simp [trail]⟩, rfl⟩
  | append_singleton d b ih =>
    rw [trail_concat, List.length_append]
    exact ⟨ih.1.next b, congrArg (· + 1) ih.2⟩

/-! ## The trail of the scanner -/

/-- The scanner behind the text `d` has the texts at the positions. -/
structure Locates (d : Bytes) (s : Scanner) : Prop where
  cs : s.cs = (trail d).cs
  since : s.since = d.drop (trail d).mark
  key : s.key = trim ((trail d).key.read d)
  attributes : s.attributes = (trail d).attributes.map (AttrSpan.read d)
  name : ∀ i, (trail d).begins = some i → i < (trail d).mark ∧
    ∃ n, s.name = some n ∧ IsTagName n ∧ 60 :: n <+: d.drop i

theorem locates_new : Locates [] {} where
  cs := rfl
  since := rfl
  key := rfl
  attributes := rfl
  name i h := by cases h

section feed

variable {d : Bytes} {s s' : Scanner} {b : UInt8}

/-- The text since the mark as a span. -/
theorem Locates.read_since (h : Locates d s) (w : Bytes) :
    Span.read (d ++ w) ⟨(trail d).mark, (trail d).pos⟩ = s.since := by
  obtain ⟨-, hpos⟩ := trail_ordered d
  rw [Span.read_append hpos.le, hpos, Span.read_last, h.since]

theorem Locates.read_key (h : Locates d s) (w : Bytes) :
    trim ((trail d).key.read (d ++ w)) = s.key := by
  obtain ⟨hord, hpos⟩ := trail_ordered d
  rw [Span.read_append (hord.stop.trans (hord.mark.trans hpos.le)), h.key]

theorem Locates.read_attributes (h : Locates d s) (w : Bytes) :
    (trail d).attributes.map (AttrSpan.read (d ++ w)) = s.attributes := by
  obtain ⟨hord, hpos⟩ := trail_ordered d
  rw [h.attributes]
  refine List.map_congr_left fun e he => ?_
  obtain ⟨-, hbetween, hvalue, hstop⟩ := hord.attributes e he
  have hmark := hord.mark
  exact AttrSpan.read_append (by omega) (by omega) w

/-- A tag name that the scanner reads stands behind the `<` at the mark. -/
theorem Locates.name_read (h : Locates d s) (hinv : s.Inv) (hstage : stage s.cs = .name tagOpen) :
    (trail d).mark < (trail d).pos ∧
      ∃ n, s.since = 60 :: n ∧ IsTagName n ∧ 60 :: n <+: d.drop (trail d).mark := by
  have hfits := hinv.fits
  rw [hstage] at hfits
  obtain ⟨l, hl, hl'⟩ := hfits
  refine ⟨?_, esiColon ++ l, hl', ⟨l, hl, rfl⟩, ?_⟩
  · rw [(trail_ordered d).2]
    by_contra hge
    rw [h.since, List.drop_of_length_le (Nat.not_lt.1 hge)] at hl'
    cases hl'
  · rw [← h.since, hl']
    exact List.prefix_rfl

/-- The last tag name that was read stands behind its `<`. -/
theorem Locates.name_act (h : Locates d s) (hinv : s.Inv) {f : ActionList}
    (hfinds : Finds s.cs (Scanner.main f)) (i : ℕ) (hi : ((trail d).act f).begins = some i) :
    i < ((trail d).act f).mark ∧
      ∃ n, s.nameAfter f = some n ∧ IsTagName n ∧ 60 :: n <+: d.drop i := by
  have hle := Trail.mark_le_act (trail_ordered d).1.mark f
  cases f with
  | f2 | f5 | f8 => cases hi
  | f3 =>
    obtain ⟨hlt, n, hsince, hn, hprefix⟩ := h.name_read hinv hfinds
    obtain rfl := Option.some.inj hi
    exact ⟨hlt, n, by rw [Scanner.nameAfter, hsince]; rfl, hn, hprefix⟩
  | f4 =>
    obtain ⟨hlt, n, hsince, hn, hprefix⟩ := h.name_read hinv hfinds
    obtain rfl := Option.some.inj hi
    refine ⟨hlt, n, ?_, hn, hprefix⟩
    have htrim : trim (60 :: n) = trim n := rfl
    rw [Scanner.nameAfter, hsince, htrim, hn.trim_eq]
  | _ =>
    obtain ⟨hlt, hname⟩ := h.name i hi
    exact ⟨hlt.trans_le hle, hname⟩

theorem Locates.feed (h : Locates d s) (hinv : s.Inv) (hs : s.feed b = .ok s') :
    Locates (d ++ [b]) s' := by
  obtain ⟨hord, hpos⟩ := trail_ordered d
  have hsince := Scanner.feed_since hs
  have hkey := Scanner.feed_key hs
  have hattr := Scanner.feed_attributes hs
  have hname := Scanner.feed_nameAfter hs
  have hfinds : Finds s.cs (Scanner.main (s.cs.list b)) := (flow_transition s.cs b).finds
  have hbegins := h.name_act hinv hfinds
  have hact := (trail d).act_mark (s.cs.list b)
  have htrail : trail (d ++ [b]) =
      { (trail d).act (s.cs.list b) with cs := s.cs.next b, pos := (trail d).pos + 1 } := by
    rw [trail_concat, Trail.next, h.cs]
  have hcs := Scanner.feed_cs hs
  generalize s.cs.list b = f at hsince hkey hattr hname hbegins hact htrail
  constructor
  case cs => rw [htrail, hcs]
  case since =>
    rw [htrail, hsince]
    change _ = (d ++ [b]).drop ((trail d).act f).mark
    rw [hact]
    split_ifs
    · rw [List.drop_append_of_le_length (hord.mark.trans hpos.le), h.since]
    · rw [hpos, List.drop_left, List.nil_append]
  case key =>
    rw [htrail, hkey]
    change _ = trim (((trail d).act f).key.read (d ++ [b]))
    cases f with
    | f6 =>
      change trim s.since = trim (Span.read (d ++ [b]) ⟨(trail d).mark, (trail d).pos⟩)
      rw [h.read_since]
    | _ => exact (h.read_key [b]).symm
  case attributes =>
    rw [htrail, hattr]
    change _ = ((trail d).act f).attributes.map (AttrSpan.read (d ++ [b]))
    cases f with
    | f4 | f5 | f8 => rfl
    | f7 | f11 =>
      change _ = List.map (AttrSpan.read (d ++ [b]))
        ((trail d).attributes ++ [⟨(trail d).key, ⟨(trail d).mark, (trail d).pos⟩⟩])
      rw [List.map_append, h.read_attributes, List.map_singleton, AttrSpan.read, h.read_since,
        h.read_key]
      rfl
    | _ => exact (h.read_attributes [b]).symm
  case name =>
    rw [htrail, hname]
    intro i hi
    obtain ⟨hlt, n, hn, htag, hprefix⟩ := hbegins i hi
    exact ⟨hlt, n, hn, htag, hprefix.trans (List.IsPrefix.drop (List.prefix_append d [b]) i)⟩

end feed

/-! ## Attributes left over -/

/-- The machine, whether an attribute is pending, whether a key has been read since the last tag
name, and whether a pending attribute or its key was read before that name. -/
structure Watch where
  cs : State := esiStart
  pending : Bool := false
  keyRead : Bool := false
  foreign : Bool := false
  deriving DecidableEq, Repr

namespace Watch

def act (w : Watch) : ActionList → Watch
  | .f3 => { w with keyRead := false, foreign := w.pending }
  | .f4 => { w with pending := false, keyRead := false, foreign := false }
  | .f5 | .f8 => { w with pending := false, foreign := false }
  | .f6 => { w with keyRead := true }
  | .f7 | .f11 => { w with pending := true, foreign := w.foreign || !w.keyRead }
  | _ => w

def next (w : Watch) (b : UInt8) : Watch := { w.act (w.cs.list b) with cs := w.cs.next b }

end Watch

/-- The watch behind a text. -/
def watch (d : Bytes) : Watch := d.foldl Watch.next {}

theorem watch_concat (d : Bytes) (b : UInt8) : watch (d ++ [b]) = (watch d).next b := by
  rw [watch, List.foldl_append]
  rfl

/-- What the watch tells about the positions. -/
structure Tracks (w : Watch) (t : Trail) : Prop where
  cs : w.cs = t.cs
  pending : w.pending = false ↔ t.attributes = []
  keyRead : ∀ i, t.begins = some i → if w.keyRead then i < t.key.start else t.key.stop ≤ i
  foreign : ∀ i, t.begins = some i → (w.foreign = false ↔ ∀ e ∈ t.attributes, i < e.key.start)

theorem tracks_new : Tracks {} {} where
  cs := rfl
  pending := ⟨fun _ => rfl, fun _ => rfl⟩
  keyRead i h := by cases h
  foreign i h := by cases h

theorem Tracks.act {w : Watch} {t : Trail} (h : Tracks w t) (ho : t.Ordered)
    (hbegins : ∀ i, t.begins = some i → i < t.mark) (f : ActionList) :
    Tracks (w.act f) (t.act f) := by
  obtain ⟨hcs, hpending, hkeyRead, hforeign⟩ := h
  cases f with
  | f0 | f10 | f1 | f12 => exact ⟨hcs, hpending, hkeyRead, hforeign⟩
  | f2 => exact ⟨hcs, hpending, fun i hi => (by cases hi), fun i hi => (by cases hi)⟩
  | f5 | f8 => exact ⟨hcs, by simp [Watch.act, Trail.act], fun i hi => (by cases hi),
      fun i hi => (by cases hi)⟩
  | f4 =>
    refine ⟨hcs, by simp [Watch.act, Trail.act], fun i hi => ?_, fun i hi => ?_⟩
    · obtain rfl := Option.some.inj hi
      exact ho.stop
    · simp [Watch.act, Trail.act]
  | f3 =>
    refine ⟨hcs, hpending, fun i hi => ?_, fun i hi => ?_⟩
    · obtain rfl := Option.some.inj hi
      exact ho.stop
    · -- everything collected so far stands in front of the mark
      obtain rfl := Option.some.inj hi
      exact hpending.trans ho.attributes_eq_nil_iff
  | f6 =>
    refine ⟨hcs, hpending, fun i hi => ?_, hforeign⟩
    exact hbegins i hi
  | f7 | f11 =>
    refine ⟨hcs, by simp [Watch.act, Trail.act], hkeyRead, fun i hi => ?_⟩
    have hkey : w.keyRead = true ↔ i < t.key.start := by
      have hread := hkeyRead i hi
      have hle := ho.key
      cases hw : w.keyRead with
      | true =>
        rw [hw, if_pos rfl] at hread
        exact ⟨fun _ => hread, fun _ => rfl⟩
      | false =>
        rw [hw, if_neg (by decide)] at hread
        exact ⟨fun h => (by cases h), fun h => (by omega)⟩
    simp only [Watch.act, Trail.act, Bool.or_eq_false_iff, Bool.not_eq_false', List.forall_mem_append,
      List.forall_mem_singleton]
    exact and_congr (hforeign i hi) hkey

theorem Tracks.next {w : Watch} {t : Trail} (h : Tracks w t) (ho : t.Ordered)
    (hbegins : ∀ i, t.begins = some i → i < t.mark) (b : UInt8) : Tracks (w.next b) (t.next b) := by
  obtain ⟨-, hpending, hkeyRead, hforeign⟩ := h.act ho hbegins (t.cs.list b)
  rw [Watch.next, h.cs]
  exact ⟨rfl, hpending, hkeyRead, hforeign⟩

theorem Scanner.feedAll_locates {d : Bytes} {s : Scanner} (h : ({} : Scanner).feedAll d = .ok s) :
    Locates d s ∧ Tracks (watch d) (trail d) := by
  have hrun := Run.invariant
    (I := fun d (s : Scanner) => s.Inv ∧ Locates d s ∧ Tracks (watch d) (trail d)) ?_ (u := [])
    ⟨Scanner.inv_new, locates_new, tracks_new⟩ h
  · exact hrun.2
  · rintro d s b s' ⟨hinv, hloc, htracks⟩ hs
    refine ⟨hinv.feed hs, hloc.feed hinv hs, ?_⟩
    rw [watch_concat, trail_concat]
    exact htracks.next (trail_ordered d).1 (fun i hi => (hloc.name i hi).1) b

/-! ## Start callbacks -/

theorem AttrSpan.within_iff {i n : ℕ} {e : AttrSpan} (h : e.Ordered n) :
    e.Within i n ↔ i < e.key.start := by
  obtain ⟨hkey, hbetween, hvalue, hstop⟩ := h
  refine ⟨fun h => h.1, fun h => ⟨h, ?_, ?_, hstop⟩⟩
  · omega
  · omega

/-- The start callback of a list, behind the text `d`. -/
theorem Locates.startTag {d : Bytes} {s : Scanner} {b : UInt8} {ts : List Callback} {name : Bytes}
    {as : List ESIAttribute} (h : Locates d s) (htracks : Tracks (watch d) (trail d))
    (hinv : s.Inv) (hcalls : s.Calls (s.cs.list b) ts) (ht : .startTag name as ∈ ts) :
    as = ((trail d).passed (s.cs.list b)).map (AttrSpan.read d) ∧
      ∀ i, (trail d).tag (s.cs.list b) = some i → IsTagName name ∧ 60 :: name <+: d.drop i ∧
        ((∀ e ∈ (trail d).passed (s.cs.list b), e.Within i d.length) ↔
          ((s.cs.list b).completes = true → (watch d).foreign = false)) := by
  have hfinds : Finds s.cs (Scanner.main (s.cs.list b)) := (flow_transition s.cs b).finds
  obtain ⟨hord, hpos⟩ := trail_ordered d
  rcases hcalls.startTag ht with ⟨hf, rfl, rfl⟩ | ⟨hf, ⟨n, hn, rfl⟩, rfl⟩
  · rw [hf] at hfinds ⊢
    refine ⟨rfl, fun i hi => ?_⟩
    obtain rfl := Option.some.inj hi
    obtain ⟨-, n, hsince, hname, hprefix⟩ := h.name_read hinv hfinds
    have htrim : trim (60 :: n) = trim n := rfl
    rw [hsince, htrim, hname.trim_eq]
    exact ⟨hname, hprefix, fun _ h => (by cases h), fun _ e he => (by cases he)⟩
  · have hne : s.cs.list b ≠ .f4 := by
      intro hf4
      rw [hf4] at hf
      cases hf
    rw [Trail.passed, Trail.tag, if_neg hne, if_neg hne]
    refine ⟨h.attributes, fun i hi => ?_⟩
    obtain ⟨-, n', hn', hname, hprefix⟩ := h.name i hi
    obtain rfl : n = n' := Option.some.inj (hn.symm.trans hn')
    rw [hname.trim_eq]
    refine ⟨hname, hprefix, ?_⟩
    have hwithin : ∀ e ∈ (trail d).attributes, e.Within i d.length ↔ i < e.key.start :=
      fun e he => AttrSpan.within_iff ((hord.attributes e he).mono (hord.mark.trans hpos.le))
    rw [forall₂_congr hwithin, ← htracks.foreign i hi]
    exact ⟨fun h _ => h, fun h => h hf⟩

namespace ESIParser

/-- A tag callback at a turn comes from the scanner. -/
theorem Makes.scanner {done : List Bytes} {chunk u : Bytes} {b : UInt8} {t : Callback}
    (h : Makes done chunk u b t) (hr : InRange (done ++ [chunk])) :
    ∃ s ts, ({} : Scanner).feedAll (done.flatten ++ u) = .ok s ∧ s.Calls (s.cs.list b) ts ∧
      t ∈ ts := by
  obtain ⟨v, data, p, m, ts, rfl, hreach, hts, ht⟩ := h
  obtain ⟨o, pre, s, rfl, hdata, hs, hlinked⟩ := hreach.linked hr
  obtain rfl := hdata (b :: v) rfl
  cases hstep : m.step (pre ++ b :: v) pre.length b with
  | error stop =>
    rw [hstep, callbacksOf, step_error hstep] at hts
    rw [List.self_eq_append_right.1 hts] at ht
    cases ht
  | ok m' =>
    rw [hstep] at hts
    obtain ⟨s', hfeed, hlinked'⟩ := (step_agree b v hlinked).ok_left hstep
    obtain ⟨ts', hcalls, hts'⟩ := Scanner.feed_tagCalls hfeed
    rw [callbacksOf, hlinked'.same.out, hlinked.same.out, hts'] at hts
    exact ⟨s, ts', hs, hcalls, List.append_cancel_left hts ▸ ht⟩

/-- In every run, every start callback is made at a turn of the machine.  It is told the attributes
at the positions passed, and they lie between the `<` of its tag and the `>` that completes it,
exactly when the tag has none left over. -/
theorem startTag_isolated (chunks : List Bytes) (hr : InRange chunks) :
    (∀ t ∈ tagCalls (callbacksOf (new.executeAll chunks)), ∃ done chunk later u b,
      chunks = done ++ chunk :: later ∧ Makes done chunk u b t) ∧
    ∀ done chunk later u b name as d f, chunks = done ++ chunk :: later →
      Makes done chunk u b (.startTag name as) → d = done.flatten ++ u → f = (trail d).cs.list b →
      as = ((trail d).passed f).map (AttrSpan.read d) ∧
        ∀ i, (trail d).tag f = some i → IsTagName name ∧ 60 :: name <+: d.drop i ∧
          ((∀ e ∈ (trail d).passed f, e.Within i d.length) ↔
            (f.completes = true → (watch d).foreign = false)) := by
  refine ⟨fun t ht => exists_makes ht, ?_⟩
  rintro done chunk later u b name as d f rfl hmakes rfl rfl
  have hrange : InRange (done ++ [chunk]) := by
    rw [← List.singleton_append, ← List.append_assoc] at hr
    exact hr.left
  obtain ⟨s, ts, hs, hcalls, ht⟩ := hmakes.scanner hrange
  obtain ⟨hloc, htracks⟩ := Scanner.feedAll_locates hs
  rw [← hloc.cs]
  exact hloc.startTag htracks (Scanner.inv_new.feedAll hs) hcalls ht

/-- The last turn of one call on a fresh parser. -/
theorem makes_single {u : Bytes} {b : UInt8} {t : Callback} (ts₀ ts : List Callback)
    (h : ((new.initMark 0).exec (u ++ [b]) u 0).map (fun m => (tagCalls m.out.callbacks,
      tagCalls (callbacksOf (m.step (u ++ [b]) u.length b)))) = .ok (ts₀, ts₀ ++ ts))
    (ht : t ∈ ts) : Makes [] (u ++ [b]) u b t := by
  obtain ⟨m, hm, hfields⟩ := Run.map_ok h
  obtain ⟨rfl, hts⟩ := Prod.mk.inj hfields
  refine ⟨[], u ++ [b], u.length, m, ts, rfl, ⟨new, new.initMark 0, 0, rfl, by simp, ?_, rfl,
    List.prefix_append u [b], hm, (Nat.zero_add _).symm⟩, hts, ht⟩
  rintro ⟨hcs, -⟩
  cases hcs

/-- `<esi:a b="c"/>` -/
theorem startTag_isolated_inline :
    (∀ e ∈ (trail [60, 101, 115, 105, 58, 97, 32, 98, 61, 34, 99, 34, 47]).passed .f8,
      e.Within 0 13) ↔ ((ActionList.f8).completes = true →
        (watch [60, 101, 115, 105, 58, 97, 32, 98, 61, 34, 99, 34, 47]).foreign = false) := by
  let u : Bytes := [60, 101, 115, 105, 58, 97, 32, 98, 61, 34, 99, 34, 47]
  have hmakes : Makes [] (u ++ [62]) u 62 (.startTag [101, 115, 105, 58, 97] [⟨[98], [99]⟩]) :=
    makes_single [] [.startTag [101, 115, 105, 58, 97] [⟨[98], [99]⟩],
      .endTag [101, 115, 105, 58, 97]] (by decide +kernel) List.mem_cons_self
  exact (((startTag_isolated [u ++ [62]] (inRange_of_length (by decide))).2 [] (u ++ [62]) [] u 62
    _ _ u .f8 rfl hmakes rfl (by decide +kernel)).2 0 (by decide +kernel)).2.2

/-- In `<esi:a b="c"!<esi:d e="f"/>` the handler is told of `b` as an attribute of `esi:d`. -/
theorem startTag_leaks : ¬ ∀ (chunks done : List Bytes) (chunk : Bytes) (later : List Bytes)
    (u : Bytes) (b : UInt8) (name : Bytes) (as : List ESIAttribute) (d : Bytes) (f : ActionList),
    chunks = done ++ chunk :: later → Makes done chunk u b (.startTag name as) →
    d = done.flatten ++ u → f = (trail d).cs.list b → ∀ i, (trail d).tag f = some i →
    as = ((trail d).passed f).map (AttrSpan.read d) ∧ ∀ e ∈ (trail d).passed f, e.Within i d.length := by
  intro h
  let u : Bytes := [60, 101, 115, 105, 58, 97, 32, 98, 61, 34, 99, 34, 33,
    60, 101, 115, 105, 58, 100, 32, 101, 61, 34, 102, 34, 47]
  have hmakes : Makes [] (u ++ [62]) u 62
      (.startTag [101, 115, 105, 58, 100] [⟨[98], [99]⟩, ⟨[101], [102]⟩]) :=
    makes_single [] [.startTag [101, 115, 105, 58, 100] [⟨[98], [99]⟩, ⟨[101], [102]⟩],
      .endTag [101, 115, 105, 58, 100]] (by decide +kernel) List.mem_cons_self
  obtain ⟨-, hwithin⟩ := h [u ++ [62]] [] (u ++ [62]) [] u 62 _ _ u .f8 rfl hmakes rfl
    (by decide +kernel) 13 (by decide +kernel)
  have hfirst : ¬ (⟨⟨6, 8⟩, ⟨8, 11⟩⟩ : AttrSpan).Within 13 u.length := by decide
  exact hfirst (hwithin _ (by decide +kernel))

end ESIParser

end NginxEsi
