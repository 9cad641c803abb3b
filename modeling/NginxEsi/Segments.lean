import NginxEsi.Rejected

/-!
# Documents built from segments

A document is rendered from text, start tags, end tags, inline tags and block tags with attributes.
Every part carries the condition that the grammar of `common.rl` puts on it, so a `Segment` is
well formed by construction.  Parsing a rendered document gives the events of its segments back
(`parse_render`).
-/

namespace NginxEsi

/-! ## Segments -/

/-- A tag name behind `esi:`. -/
abbrev Letters := { n : Bytes // IsLetters n }

/-- Any white space. -/
abbrev Space := { w : Bytes // ∀ b ∈ w, isspace b = true }

/-- `[a-zA-Z_\-]`. -/
def isKeyStart (c : UInt8) : Bool :=
  isLower c || (65 ≤ c && c ≤ 90) || c == 95 || c == 45

/-- `[a-zA-Z_\-0-9]`. -/
def isKeyChar (c : UInt8) : Bool := isKeyStart c || (48 ≤ c && c ≤ 57)

/-- An `attr_key` that is followed by `=`. -/
structure AttrKey where
  first : UInt8
  others : Bytes
  isKeyStart_first : isKeyStart first = true
  isKeyChar_others : ∀ b ∈ others, isKeyChar b = true

def AttrKey.render (k : AttrKey) : Bytes := k.first :: k.others

inductive Quote where
  | double | single
  deriving DecidableEq, Repr

def Quote.byte : Quote → UInt8
  | .double => 34
  | .single => 39

/-- `key = "value"`. -/
structure Attr where
  key : AttrKey
  gap : Space
  quote : Quote
  value : Bytes
  value_ok : ∀ b ∈ value, b ≠ quote.byte ∧ b ≠ 60
  last_ok : value.getLast? ≠ some 92

def Attr.render (a : Attr) : Bytes :=
  a.key.render ++ [61] ++ a.gap.1 ++ [a.quote.byte] ++ a.value ++ [a.quote.byte]

/-- What a start handler is told about the attribute: the value is trimmed. -/
def Attr.reported (a : Attr) : ESIAttribute := ⟨a.key.render, trim a.value⟩

/-- A piece of a document.  The white space behind the tag name has a first byte of its own. -/
inductive Segment where
  | text (t : Bytes) (free : TagFree t) (complete : ¬ Pending t)
  | startTag (name : Letters)
  | endTag (name : Letters)
  | inlineTag (name : Letters) (first : { b : UInt8 // isspace b = true }) (space : Space)
      (attributes : List (Attr × Space))
  | blockTag (name : Letters) (first : { b : UInt8 // isspace b = true }) (space : Space)
      (attributes : List (Attr × Space)) (last : Attr)

/-- Attributes, each followed by white space. -/
def renderAttributes (l : List (Attr × Space)) : Bytes := l.flatMap fun e => e.1.render ++ e.2.1

namespace Segment

def render : Segment → Bytes
  | text t _ _ => t
  | startTag n => tagOpen ++ n.1 ++ [62]
  | endTag n => tagClose ++ n.1 ++ [62]
  | inlineTag n b w as => tagOpen ++ n.1 ++ [b.1] ++ w.1 ++ renderAttributes as ++ [47, 62]
  | blockTag n b w as a => tagOpen ++ n.1 ++ [b.1] ++ w.1 ++ renderAttributes as ++ a.render ++ [62]

def events : Segment → List Event
  | text t _ _ => t.map .byte
  | startTag n => [.startTag (esiColon ++ n.1) []]
  | endTag n => [.endTag (esiColon ++ n.1)]
  | inlineTag n _ _ as =>
    [.startTag (esiColon ++ n.1) (as.map fun e => e.1.reported), .endTag (esiColon ++ n.1)]
  | blockTag n _ _ as a =>
    [.startTag (esiColon ++ n.1) ((as.map fun e => e.1.reported) ++ [a.reported])]

end Segment

/-! ## Transitions on classes of bytes -/

theorem forall_byte {P : UInt8 → Prop} (h : ∀ n < 256, P (UInt8.ofNat n)) (b : UInt8) : P b := by
  have hb := h b.toNat b.toNat_lt
  rwa [UInt8.ofNat_toNat] at hb

/-- What opens a tag. -/
inductive Bracket where
  | opening
  | closing

namespace Bracket

def text : Bracket → Bytes
  | opening => tagOpen
  | closing => tagClose

/-- The state behind the text. -/
def read : Bracket → State
  | opening => .s11
  | closing => .s6

/-- The state in a name. -/
def named : Bracket → State
  | opening => .s12
  | closing => .s7

end Bracket

theorem letter_next (k : Bracket) : ∀ b : UInt8, isLower b = true →
    (k.read.next b = k.named ∧ k.read.list b = .f0) ∧
      (k.named.next b = k.named ∧ k.named.list b = .f0) := by
  cases k
  · exact forall_byte (by decide +kernel)
  · exact forall_byte (by decide +kernel)

theorem space_next : ∀ b : UInt8, isspace b = true →
    (State.s12.next b = .s13 ∧ State.s12.list b = .f3) ∧
      (State.s13.next b = .s14 ∧ State.s13.list b = .f0) ∧
      (State.s14.next b = .s14 ∧ State.s14.list b = .f0) ∧
      (State.s16.next b = .s16 ∧ State.s16.list b = .f0) :=
  forall_byte (by decide +kernel)

theorem keyStart_next : ∀ b : UInt8, isKeyStart b = true →
    (State.s13.next b = .s15 ∧ State.s13.list b = .f0) ∧
      (State.s14.next b = .s15 ∧ State.s14.list b = .f0) :=
  forall_byte (by decide +kernel)

theorem keyChar_next : ∀ b : UInt8, isKeyChar b = true →
    State.s15.next b = .s15 ∧ State.s15.list b = .f0 :=
  forall_byte (by decide +kernel)

/-- The state inside a value, and the one behind a backslash in it. -/
def Quote.inside : Quote → State
  | .double => .s17
  | .single => .s27

def Quote.escaped : Quote → State
  | .double => .s20
  | .single => .s30

theorem value_next (q : Quote) : ∀ b : UInt8, b ≠ q.byte ∧ b ≠ 60 →
    (q.inside.next b = (if b = 92 then q.escaped else q.inside) ∧ q.inside.list b = .f0) ∧
      (q.escaped.next b = (if b = 92 then q.escaped else q.inside) ∧ q.escaped.list b = .f0) := by
  cases q
  · exact forall_byte (by decide +kernel)
  · exact forall_byte (by decide +kernel)

/-! ## The scanner inside a tag -/

namespace Scanner

variable {s s' : Scanner} {b : UInt8} {u : Bytes}

/-- A byte that does not lead to state 0 is held. -/
theorem feed_of_next {q : State} {f : ActionList} (hq : s.cs.next b = q) (hf : s.cs.list b = f)
    (h0 : q ≠ .s0) :
    s.feed b = (act s.cs b { s with cs := q, held := s.held ++ [b] } (main f)).map (advance b) := by
  rw [feed_eq, ← enter_of_ne b s h0, ← hq, ← hf]
  rfl

/-- Inside a tag and between its borders nothing but the state and the texts grows. -/
def Keeps (q : State) (b : UInt8) : Prop := q.list b = .f0 ∧ q.next b ≠ .s0

theorem feedAll_keeps (h : Run.Along State.next Keeps s.cs u) :
    s.feedAll u = .ok { s with
      cs := u.foldl State.next s.cs, held := s.held ++ u, since := s.since ++ u } := by
  induction u generalizing s with
  | nil => simp [feedAll, pure, Except.pure]
  | cons b u ih =>
    obtain ⟨⟨hlist, hne⟩, h⟩ := Run.along_cons.1 h
    have hfeed : s.feed b = .ok { s with
        cs := s.cs.next b, held := s.held ++ [b], since := s.since ++ [b] } := by
      rw [feed_of_next rfl hlist hne]
      rfl
    have hrest := ih (s := { s with
      cs := s.cs.next b, held := s.held ++ [b], since := s.since ++ [b] }) h
    refine (Run.cons_ok.2 ⟨_, hfeed, hrest⟩).trans ?_
    simp

theorem keeps_cons {q q' : State} (hnext : q.next b = q' ∧ q.list b = .f0) (hne : q' ≠ .s0)
    (h : Run.Along State.next Keeps q' u) : Run.Along State.next Keeps q (b :: u) := by
  obtain ⟨rfl, hlist⟩ := hnext
  exact Run.along_cons.2 ⟨⟨hlist, hne⟩, h⟩

/-- A class of bytes that leave the state as it is. -/
theorem keeps_class {q : State} {C : UInt8 → Prop} (hne : q ≠ .s0)
    (hstep : ∀ b, C b → q.next b = q ∧ q.list b = .f0) (hu : ∀ b ∈ u, C b) :
    Run.Along State.next Keeps q u ∧ u.foldl State.next q = q := by
  refine Run.Along.of_closed (S := fun q' => q' = q) (fun q' b hq hb => ?_) rfl hu
  subst hq
  obtain ⟨hnext, hlist⟩ := hstep b hb
  exact ⟨⟨hlist, by rwa [hnext]⟩, hnext⟩

theorem report_cs (c : Callback) (s : Scanner) : (s.report c).cs = s.cs := rfl

theorem report_attributes (c : Callback) (s : Scanner) : (s.report c).attributes = s.attributes :=
  rfl

theorem report_events (c : Callback) (s : Scanner) :
    (s.report c).out.events = s.out.events ++ c.events :=
  Output.call_flush_events s.out c

theorem feedAll_singleton (s : Scanner) (b : UInt8) : s.feedAll [b] = s.feed b := by
  rw [feedAll, List.foldlM_cons]
  cases s.feed b <;> rfl

/-- Between two segments. -/
structure Ready (s : Scanner) : Prop where
  rest : s.cs.rest = true
  held : s.held = []
  attributes : s.attributes = []

theorem ready_new : ({} : Scanner).Ready := ⟨rfl, rfl, rfl⟩

/-- Between tags a candidate begins at every `<`. -/
theorem textual_begin : ∀ q : State, q.textual = true →
    q.next 60 = .s1 ∧ ((q.list 60) = .f1 ∨ (q.list 60) = .f12) := by
  decide +kernel

theorem keeps_bracket (k : Bracket) : Run.Along State.next Keeps .s1 (k.text.drop 1) ∧
    (k.text.drop 1).foldl State.next .s1 = k.read := by
  unfold Keeps
  cases k <;> decide +kernel

theorem keeps_letters (k : Bracket) {n : Bytes} (h : IsLetters n) :
    Run.Along State.next Keeps k.read n ∧ n.foldl State.next k.read = k.named := by
  obtain ⟨hne, hn⟩ := h
  obtain ⟨b, u, rfl⟩ := List.exists_cons_of_ne_nil hne
  obtain ⟨hb, hn⟩ := List.forall_mem_cons.1 hn
  have hnamed : k.named ≠ .s0 := by cases k <;> decide
  obtain ⟨hfirst, -⟩ := letter_next k b hb
  obtain ⟨hkeeps, hend⟩ := keeps_class hnamed (fun b hb => (letter_next k b hb).2) hn
  rw [List.foldl_cons, hfirst.1]
  exact ⟨keeps_cons hfirst hnamed hkeeps, hend⟩

/-- The text `t` of a candidate has been read from `s` on. -/
structure Reads (s : Scanner) (q : State) (t : Bytes) (s' : Scanner) : Prop where
  cs : s'.cs = q
  since : s'.since = t
  out : s'.out = s.out
  attributes : s'.attributes = s.attributes

theorem feed_begin (h : s.cs.textual = true) :
    ∃ s', s.feed 60 = .ok s' ∧ Reads s .s1 [60] s' := by
  obtain ⟨hnext, hlist⟩ := textual_begin s.cs h
  rcases hlist with hlist | hlist
  · rw [feed_of_next hnext hlist (by decide)]
    exact ⟨_, rfl, rfl, rfl, rfl, rfl⟩
  · rw [feed_of_next hnext hlist (by decide)]
    exact ⟨_, rfl, rfl, rfl, rfl, rfl⟩

/-- The rest of a candidate. -/
theorem Reads.feedAll {m : Scanner} {q : State} {t : Bytes} (h : Reads s q t m)
    (hu : Run.Along State.next Keeps q u) :
    ∃ s', m.feedAll u = .ok s' ∧ Reads s (u.foldl State.next q) (t ++ u) s' := by
  obtain rfl : m.cs = q := h.cs
  exact ⟨_, feedAll_keeps hu, rfl, by rw [h.since], h.out, h.attributes⟩

/-- `<esi:N` and `</esi:N` -/
theorem feedAll_name (h : s.cs.textual = true) (k : Bracket) (n : Letters) :
    ∃ s', s.feedAll (k.text ++ n.1) = .ok s' ∧ Reads s k.named (k.text ++ n.1) s' := by
  have htext : k.text = 60 :: k.text.drop 1 := by cases k <;> rfl
  obtain ⟨hbracket, hread⟩ := keeps_bracket k
  obtain ⟨hletters, hnamed⟩ := keeps_letters k n.2
  obtain ⟨m, hm, h₁⟩ := feed_begin h
  obtain ⟨m', hm', h₂⟩ := h₁.feedAll hbracket
  rw [hread] at h₂
  obtain ⟨s', hs', h₃⟩ := h₂.feedAll hletters
  rw [hnamed] at h₃
  rw [htext]
  exact ⟨s', Run.append_ok.2 ⟨m', Run.cons_ok.2 ⟨m, hm, hm'⟩, hs'⟩, h₃⟩

theorem trim_opening (n : Letters) : trim (Bracket.opening.text ++ n.1) = esiColon ++ n.1 := by
  rw [← trim_name n.2]
  rfl

/-- `<esi:N>` -/
theorem feedAll_startTag (h : s.cs.textual = true) (n : Letters) :
    ∃ s', s.feedAll (tagOpen ++ n.1 ++ [62]) = .ok s' ∧ s'.Ready ∧
      s'.out.events = s.out.events ++ [.startTag (esiColon ++ n.1) []] := by
  obtain ⟨m, hm, hreads⟩ := feedAll_name h .opening n
  have hnext : m.cs.next 62 = .s79 ∧ m.cs.list 62 = .f4 := by
    rw [hreads.cs]
    decide +kernel
  have hfeed := feed_of_next hnext.1 hnext.2 (by decide)
  refine ⟨_, Run.concat_ok.2 ⟨m, hm, hfeed⟩, ⟨rfl, rfl, rfl⟩, ?_⟩
  change (m.report (.startTag (trim m.since) [])).out.events = _
  rw [report_events, hreads.out, hreads.since, trim_opening]
  rfl

/-- `</esi:N>` -/
theorem Ready.feedAll_endTag (h : s.Ready) (n : Letters) :
    ∃ s', s.feedAll (tagClose ++ n.1 ++ [62]) = .ok s' ∧ s'.Ready ∧
      s'.out.events = s.out.events ++ [.endTag (esiColon ++ n.1)] := by
  obtain ⟨m, hm, hreads⟩ := feedAll_name (State.rest_textual h.rest) .closing n
  have hnext : (transition m.cs 62).goto = (.s0, .f2) := by
    rw [hreads.cs]
    decide +kernel
  have hfeed : m.feed 62 = .ok (advance 62 { (m.enter .s0 62).report
      (.endTag (trim (m.since.drop 2))) with
        name := some (trim (m.since.drop 2)), since := [], held := [] }) := by
    rw [feed_eq, hnext, ← enter_since .s0 62 m]
    rfl
  have hdrop : trim (m.since.drop 2) = esiColon ++ n.1 := by
    rw [hreads.since]
    exact trim_name n.2
  refine ⟨_, Run.concat_ok.2 ⟨m, hm, hfeed⟩, ⟨?_, rfl, ?_⟩, ?_⟩
  · dsimp only [advance]
    rw [report_cs, enter_cs]
    rfl
  · dsimp only [advance]
    rw [report_attributes, enter_attributes, hreads.attributes, h.attributes]
  · dsimp only [advance]
    rw [report_events, hdrop, enter_zero_of_name 62 m (.inr hreads.cs), hreads.out]
    rfl

/-! ## Attributes -/

/-- Behind the name of a tag or behind an attribute, with the output `o` from before the tag. -/
structure Inside (n : Letters) (as : List ESIAttribute) (o : Output) (s : Scanner) : Prop where
  cs : s.cs = .s13 ∨ s.cs = .s14
  name : s.name = some (esiColon ++ n.1)
  since : ∀ b ∈ s.since, isLtrim b = true
  attributes : s.attributes = as
  out : s.out = o

theorem isLtrim_of_isspace {b : UInt8} (h : isspace b = true) : isLtrim b = true := by
  simp [isLtrim, h]

theorem trimLeft_append {w t : Bytes} (h : ∀ b ∈ w, isLtrim b = true) :
    trimLeft (w ++ t) = trimLeft t := by
  unfold trimLeft
  rw [List.dropWhile_append, if_pos]
  rw [List.isEmpty_iff, List.dropWhile_eq_nil_iff]
  exact h

theorem trim_append {w t : Bytes} (h : ∀ b ∈ w, isLtrim b = true) : trim (w ++ t) = trim t := by
  rw [trim, trimLeft_append h, trim]

theorem keyStart_not_isLtrim : ∀ b : UInt8, isKeyStart b = true → isLtrim b = false :=
  forall_byte (by decide +kernel)

theorem keyChar_not_isRtrim : ∀ b : UInt8, isKeyChar b = true → isRtrim b = false :=
  forall_byte (by decide +kernel)

theorem trim_key (k : AttrKey) : trim k.render = k.render := by
  rw [trim, AttrKey.render, trimLeft_cons_of_not (keyStart_not_isLtrim _ k.isKeyStart_first),
    trimRight]
  congr 1
  rw [List.rdropWhile_eq_self_iff]
  intro hne
  have hlast := k.isKeyChar_others _ (List.getLast_mem hne)
  rw [keyChar_not_isRtrim _ hlast]
  exact Bool.false_ne_true

theorem Inside.feedAll_space {n : Letters} {as : List ESIAttribute} {o : Output}
    (h : s.Inside n as o) (w : Space) :
    ∃ s', s.feedAll w.1 = .ok s' ∧ s'.Inside n as o := by
  obtain ⟨halong, hcs⟩ := Run.Along.of_closed (P := Keeps)
    (S := fun q => q = .s13 ∨ q = .s14) (C := fun b => isspace b = true) (fun q b hq hb => by
      obtain ⟨-, ⟨h13, hl13⟩, ⟨h14, hl14⟩, -⟩ := space_next b hb
      rcases hq with rfl | rfl
      · exact ⟨⟨hl13, by rw [h13]; decide⟩, .inr h13⟩
      · exact ⟨⟨hl14, by rw [h14]; decide⟩, .inr h14⟩) h.cs w.2
  refine ⟨_, feedAll_keeps halong, hcs, h.name, fun b hb => ?_, h.attributes, h.out⟩
  rcases List.mem_append.1 hb with hb | hb
  · exact h.since b hb
  · exact isLtrim_of_isspace (w.2 b hb)

/-- `<esi:N` and white space -/
theorem Ready.feedAll_inside (h : s.Ready) (n : Letters) (b : { b : UInt8 // isspace b = true })
    (w : Space) :
    ∃ s', s.feedAll (tagOpen ++ n.1 ++ [b.1] ++ w.1) = .ok s' ∧ s'.Inside n [] s.out := by
  obtain ⟨m, hm, hreads⟩ := feedAll_name (State.rest_textual h.rest) .opening n
  have hnext : m.cs.next b = .s13 ∧ m.cs.list b = .f3 := by
    rw [hreads.cs]
    exact (space_next b b.2).1
  have hfeed := feed_of_next hnext.1 hnext.2 (by decide)
  have hinside : Inside n [] s.out (advance b.1 { m with
      cs := .s13, held := m.held ++ [b.1], name := some (m.since.drop 1), since := [] }) := by
    refine ⟨.inl rfl, ?_, fun c hc => ?_, hreads.attributes.trans h.attributes, hreads.out⟩
    · change some (m.since.drop 1) = _
      rw [hreads.since]
      rfl
    · rw [List.mem_singleton.1 hc]
      exact isLtrim_of_isspace b.2
  obtain ⟨s', hs', hin⟩ := hinside.feedAll_space w
  exact ⟨s', Run.append_ok.2 ⟨_, Run.concat_ok.2 ⟨m, hm, hfeed⟩, hs'⟩, hin⟩

theorem keeps_key {q : State} (hq : q = .s13 ∨ q = .s14) (k : AttrKey) :
    Run.Along State.next Keeps q k.render ∧ k.render.foldl State.next q = .s15 := by
  obtain ⟨h13, h14⟩ := keyStart_next k.first k.isKeyStart_first
  have hfirst : q.next k.first = .s15 ∧ q.list k.first = .f0 := by
    rcases hq with rfl | rfl
    · exact h13
    · exact h14
  obtain ⟨halong, hend⟩ := keeps_class (q := .s15) (by decide) keyChar_next k.isKeyChar_others
  rw [AttrKey.render, List.foldl_cons, hfirst.1]
  exact ⟨keeps_cons hfirst (by decide) halong, hend⟩

theorem keeps_gap (w : Space) :
    Run.Along State.next Keeps .s16 w.1 ∧ w.1.foldl State.next State.s16 = .s16 :=
  keeps_class (by decide) (fun b hb => (space_next b hb).2.2.2) w.2

theorem keeps_value {q : Quote} {v : Bytes} (hv : ∀ b ∈ v, b ≠ q.byte ∧ b ≠ 60) :
    Run.Along State.next Keeps q.inside v ∧
      v.foldl State.next q.inside = if v.getLast? = some 92 then q.escaped else q.inside := by
  induction v using List.reverseRecOn with
  | nil => exact ⟨Run.along_nil _, rfl⟩
  | append_singleton v b ih =>
    obtain ⟨halong, hend⟩ := ih fun c hc => hv c (List.mem_append_left _ hc)
    obtain ⟨hin, hesc⟩ := value_next q b (hv b (by simp))
    have hstep : (v.foldl State.next q.inside).list b = .f0 ∧
        (v.foldl State.next q.inside).next b = if b = 92 then q.escaped else q.inside := by
      rw [hend]
      split_ifs with hlast
      · exact ⟨hesc.2, hesc.1.trans (by simp_all)⟩
      · exact ⟨hesc.2, hesc.1.trans (by simp_all)⟩
      · exact ⟨hin.2, hin.1.trans (by simp_all)⟩
      · exact ⟨hin.2, hin.1.trans (by simp_all)⟩
    have hne : (v.foldl State.next q.inside).next b ≠ .s0 := by
      rw [hstep.2]
      cases q <;> split_ifs <;> decide
    refine ⟨Run.along_append.2 ⟨halong, Run.along_cons.2 ⟨⟨hstep.1, hne⟩, Run.along_nil _⟩⟩, ?_⟩
    rw [List.foldl_append, List.foldl_cons, List.foldl_nil, hstep.2, List.getLast?_concat]
    simp

theorem quote_next (q : Quote) :
    (State.s16.next q.byte = q.inside ∧ State.s16.list q.byte = .f0) ∧
      (q.inside.next q.byte = .s13 ∧ q.inside.list q.byte = .f7) ∧ q.inside ≠ .s0 ∧
        isLtrim q.byte = true := by
  cases q <;> decide +kernel

/-- Behind the `=` of an attribute, up to its closing quote. -/
theorem keeps_attr (a : Attr) :
    Run.Along State.next Keeps .s16 (a.gap.1 ++ a.quote.byte :: a.value) ∧
      (a.gap.1 ++ a.quote.byte :: a.value).foldl State.next State.s16 = a.quote.inside := by
  obtain ⟨hgap, hgap'⟩ := keeps_gap a.gap
  obtain ⟨hvalue, hvalue'⟩ := keeps_value a.value_ok
  obtain ⟨hquote, -, hne, -⟩ := quote_next a.quote
  rw [if_neg a.last_ok] at hvalue'
  rw [List.foldl_append, hgap', List.foldl_cons, hquote.1]
  refine ⟨Run.along_append.2 ⟨hgap, ?_⟩, hvalue'⟩
  rw [hgap']
  exact keeps_cons hquote hne hvalue

theorem trim_value (a : Attr) :
    trim ([61] ++ (a.gap.1 ++ a.quote.byte :: a.value)) = trim a.value := by
  have hsplit : [61] ++ (a.gap.1 ++ a.quote.byte :: a.value) =
      ([61] ++ a.gap.1 ++ [a.quote.byte]) ++ a.value := by
    simp
  rw [hsplit]
  apply trim_append
  intro b hb
  rcases List.mem_append.1 hb with hb | hb
  · rcases List.mem_append.1 hb with hb | hb
    · rw [List.mem_singleton.1 hb]
      rfl
    · exact isLtrim_of_isspace (a.gap.2 b hb)
  · rw [List.mem_singleton.1 hb]
    exact (quote_next a.quote).2.2.2

/-- Behind `key=`. -/
structure Keyed (n : Letters) (k : AttrKey) (as : List ESIAttribute) (o : Output) (s : Scanner) :
    Prop where
  cs : s.cs = .s16
  name : s.name = some (esiColon ++ n.1)
  key : s.key = k.render
  since : s.since = [61]
  attributes : s.attributes = as
  out : s.out = o

theorem Inside.feedAll_key {n : Letters} {as : List ESIAttribute} {o : Output}
    (h : s.Inside n as o) (k : AttrKey) :
    ∃ s', s.feedAll (k.render ++ [61]) = .ok s' ∧ s'.Keyed n k as o := by
  obtain ⟨hkey, hkey'⟩ := keeps_key h.cs k
  have hm := feedAll_keeps hkey
  rw [hkey'] at hm
  have heq : State.s15.next 61 = .s16 ∧ State.s15.list 61 = .f6 := by decide +kernel
  have hfeed := feed_of_next (s := { s with
    cs := .s15, held := s.held ++ k.render, since := s.since ++ k.render }) heq.1 heq.2 (by decide)
  refine ⟨_, Run.concat_ok.2 ⟨_, hm, hfeed⟩, rfl, h.name, ?_, rfl,
    h.attributes, h.out⟩
  change trim (s.since ++ k.render) = _
  rw [trim_append h.since, trim_key]

theorem Inside.feedAll_attr {n : Letters} {as : List ESIAttribute} {o : Output}
    (h : s.Inside n as o) (a : Attr) :
    ∃ s', s.feedAll a.render = .ok s' ∧ s'.Inside n (as ++ [a.reported]) o ∧ s'.cs = .s13 := by
  obtain ⟨m, hm, hkeyed⟩ := h.feedAll_key a.key
  obtain ⟨hval, hval'⟩ := keeps_attr a
  rw [← hkeyed.cs] at hval hval'
  have hm' := feedAll_keeps hval
  rw [hval'] at hm'
  obtain ⟨-, ⟨hnext, hlist⟩, -, hltrim⟩ := quote_next a.quote
  have hclose := feed_of_next (s := { m with
    cs := a.quote.inside, held := m.held ++ (a.gap.1 ++ a.quote.byte :: a.value)
    since := m.since ++ (a.gap.1 ++ a.quote.byte :: a.value) }) hnext hlist (by decide)
  have hrender : a.render = (a.key.render ++ [61]) ++ ((a.gap.1 ++ a.quote.byte :: a.value) ++
      [a.quote.byte]) := by
    simp [Attr.render]
  rw [← feedAll_singleton] at hclose
  have hrun := Run.append_ok.2 ⟨m, hm, Run.append_ok.2 ⟨_, hm', hclose⟩⟩
  rw [← hrender] at hrun
  refine ⟨_, hrun, ⟨.inl rfl, hkeyed.name, fun b hb => ?_, ?_, hkeyed.out⟩, rfl⟩
  · rw [List.mem_singleton.1 hb]
    exact hltrim
  · change m.attributes ++ [⟨m.key, trim (m.since ++ (a.gap.1 ++ a.quote.byte :: a.value))⟩] = _
    rw [hkeyed.attributes, hkeyed.key, hkeyed.since, trim_value]
    rfl

theorem Inside.feedAll_attributes {n : Letters} {o : Output} (l : List (Attr × Space)) :
    ∀ {s : Scanner} {as : List ESIAttribute}, s.Inside n as o →
      ∃ s', s.feedAll (renderAttributes l) = .ok s' ∧
        s'.Inside n (as ++ l.map fun e => e.1.reported) o := by
  induction l with
  | nil => exact fun {s} {as} h => ⟨s, rfl, by simpa using h⟩
  | cons e l ih =>
    intro s as h
    obtain ⟨m, hm, h₁, -⟩ := h.feedAll_attr e.1
    obtain ⟨m', hm', h₂⟩ := h₁.feedAll_space e.2
    obtain ⟨s', hs', h₃⟩ := ih h₂
    refine ⟨s', ?_, by simpa using h₃⟩
    rw [renderAttributes, List.flatMap_cons, List.append_assoc]
    exact Run.append_ok.2 ⟨m, hm, Run.append_ok.2 ⟨m', hm', hs'⟩⟩

/-! ## The ends of tags with attributes -/

/-- The callbacks of a completed tag. -/
theorem completeTag_ready {n : Letters} (hname : s.name = some (esiColon ++ n.1)) (withEnd : Bool)
    (hcs : s.cs = .s79) :
    ∃ m, s.completeTag withEnd = .ok m ∧ (m.advance b).Ready ∧ m.out.events = s.out.events ++
      .startTag (esiColon ++ n.1) s.attributes ::
        if withEnd then [.endTag (esiColon ++ n.1)] else [] := by
  have hready : ∀ t : Scanner, t.cs = s.cs → (advance b
      { t with attributes := [], name := none, since := [], held := [] }).Ready := by
    intro t ht
    refine ⟨?_, rfl, rfl⟩
    change t.cs.rest = true
    rw [ht, hcs]
    rfl
  simp only [completeTag, hname, trim_name n.2]
  refine ⟨_, rfl, hready _ ?_, ?_⟩
  · split_ifs
    · rw [report_cs, report_cs]
    · rw [report_cs]
  · dsimp only
    split_ifs
    · rw [report_events, report_events, List.append_assoc]
      rfl
    · exact report_events _ s

/-- `/>` -/
theorem Inside.feedAll_inline {n : Letters} {as : List ESIAttribute} {o : Output}
    (h : s.Inside n as o) :
    ∃ s', s.feedAll [47, 62] = .ok s' ∧ s'.Ready ∧ s'.out.events = o.events ++
      [.startTag (esiColon ++ n.1) as, .endTag (esiColon ++ n.1)] := by
  have hslash : s.cs.next 47 = .s74 ∧ s.cs.list 47 = .f0 := by
    rcases h.cs with hcs | hcs <;> rw [hcs] <;> decide +kernel
  have hfirst := feed_of_next hslash.1 hslash.2 (by decide)
  have hend : State.s74.next 62 = .s79 ∧ State.s74.list 62 = .f8 := by decide +kernel
  have hlast := feed_of_next (s := { s with
    cs := .s74, held := s.held ++ [47], since := s.since ++ [47] }) hend.1 hend.2 (by decide)
  obtain ⟨m, hm, hready, hevents⟩ := completeTag_ready (b := 62) (n := n) (s := { s with
    cs := .s79, held := s.held ++ [47] ++ [62], since := s.since ++ [47] }) h.name true rfl
  refine ⟨_, Run.cons_ok.2 ⟨_, hfirst, Run.cons_ok.2 ⟨_, hlast.trans ?_, rfl⟩⟩, hready, ?_⟩
  · change Except.map _ (completeTag true _) = _
    rw [hm]
    rfl
  · change m.out.events = _
    rw [hevents, h.attributes, h.out]
    rfl

/-- `>`, directly behind the first white space or an attribute -/
theorem Inside.feedAll_block {n : Letters} {as : List ESIAttribute} {o : Output}
    (h : s.Inside n as o) (hcs : s.cs = .s13) :
    ∃ s', s.feedAll [62] = .ok s' ∧ s'.Ready ∧
      s'.out.events = o.events ++ [.startTag (esiColon ++ n.1) as] := by
  have hend : s.cs.next 62 = .s79 ∧ s.cs.list 62 = .f5 := by
    rw [hcs]
    decide +kernel
  have hlast := feed_of_next hend.1 hend.2 (by decide)
  obtain ⟨m, hm, hready, hevents⟩ := completeTag_ready (b := 62) (n := n) (s := { s with
    cs := .s79, held := s.held ++ [62] }) h.name false rfl
  refine ⟨_, Run.cons_ok.2 ⟨_, hlast.trans ?_, rfl⟩, hready, ?_⟩
  · change Except.map _ (completeTag false _) = _
    rw [hm]
    rfl
  · change m.out.events = _
    rw [hevents, h.attributes, h.out]
    rfl

/-! ## Segments -/

/-- One segment, from rest to rest. -/
theorem Ready.feedAll_segment (h : s.Ready) (seg : Segment) :
    ∃ s', s.feedAll seg.render = .ok s' ∧ s'.Ready ∧
      s'.out.events = s.out.events ++ seg.events := by
  cases seg with
  | text t free complete =>
    obtain ⟨s', hs', hrest, hheld, hout, hattr⟩ := feedAll_text h.rest h.held free complete
    refine ⟨s', hs', ⟨hrest, hheld, hattr.trans h.attributes⟩, ?_⟩
    rw [hout, Output.foldl_echoChar_events]
    rfl
  | startTag n => exact feedAll_startTag (State.rest_textual h.rest) n
  | endTag n => exact h.feedAll_endTag n
  | inlineTag n b w l =>
    obtain ⟨m₁, hm₁, hin₁⟩ := h.feedAll_inside n b w
    obtain ⟨m₂, hm₂, hin₂⟩ := hin₁.feedAll_attributes l
    obtain ⟨s', hs', hready, hevents⟩ := hin₂.feedAll_inline
    exact ⟨s', Run.append_ok.2 ⟨m₂, Run.append_ok.2 ⟨m₁, hm₁, hm₂⟩, hs'⟩, hready, hevents⟩
  | blockTag n b w l a =>
    obtain ⟨m₁, hm₁, hin₁⟩ := h.feedAll_inside n b w
    obtain ⟨m₂, hm₂, hin₂⟩ := hin₁.feedAll_attributes l
    obtain ⟨m₃, hm₃, hin₃, hcs⟩ := hin₂.feedAll_attr a
    obtain ⟨s', hs', hready, hevents⟩ := hin₃.feedAll_block hcs
    exact ⟨s', Run.append_ok.2 ⟨m₃, Run.append_ok.2 ⟨m₂, Run.append_ok.2 ⟨m₁, hm₁, hm₂⟩, hm₃⟩,
      hs'⟩, hready, hevents⟩

/-- A whole document. -/
theorem Ready.feedAll_render (segs : List Segment) : ∀ {s : Scanner}, s.Ready →
    ∃ s', s.feedAll (segs.flatMap Segment.render) = .ok s' ∧ s'.Ready ∧
      s'.out.events = s.out.events ++ segs.flatMap Segment.events := by
  induction segs with
  | nil => exact fun {s} h => ⟨s, rfl, h, by simp⟩
  | cons seg segs ih =>
    intro s h
    obtain ⟨m, hm, hready, hevents⟩ := h.feedAll_segment seg
    obtain ⟨s', hs', hready', hevents'⟩ := ih hready
    refine ⟨s', ?_, hready', ?_⟩
    · rw [List.flatMap_cons]
      exact Run.append_ok.2 ⟨m, hm, hs'⟩
    · rw [hevents', hevents, List.flatMap_cons, List.append_assoc]

end Scanner

namespace ESIParser

theorem inRange_single (doc : Bytes) : InRange [doc] := by
  refine ⟨Run.each_cons.2 ⟨fun hfast => ?_, fun _ _ => Run.each_nil _⟩, ?_⟩
  · cases hfast.1
  intro done later hl hne
  -- the only call is the last one
  rcases List.append_eq_singleton_iff.1 hl.symm with ⟨rfl, -⟩ | ⟨-, rfl⟩
  · exact Run.each_nil _
  · exact absurd rfl hne

/-- One call on a fresh parser follows the scanner, whatever the length of the document. -/
theorem outcome_parse_single (doc : Bytes) : outcome (parse [doc]) = Scanner.parse doc := by
  rw [outcome_parse (inRange_single doc), List.flatten_singleton]

/-- What the scanner makes of a document, one call on a fresh parser makes of it. -/
theorem parse_scanner {doc : Bytes} {s : Scanner} (h : ({} : Scanner).feedAll doc = .ok s) :
    ∃ c, parse [doc] = .ok c ∧ events c.out.callbacks = s.out.events := by
  have houtcome := outcome_parse_single doc
  rw [Scanner.parse, h] at houtcome
  obtain ⟨c, hc, hfields⟩ := Run.map_ok houtcome
  refine ⟨c, hc, ?_⟩
  rw [(Prod.mk.inj hfields).1]
  exact Output.events_flush s.out

theorem scanner_of_parse {doc : Bytes} {c : ESIParser} (h : parse [doc] = .ok c) :
    ∃ s, ({} : Scanner).feedAll doc = .ok s ∧
      tagCalls c.out.callbacks = tagCalls s.out.callbacks := by
  have houtcome := outcome_parse_single doc
  rw [h] at houtcome
  obtain ⟨s, hs, hfields⟩ := Run.map_ok houtcome.symm
  refine ⟨s, hs, ?_⟩
  rw [← (Prod.mk.inj hfields).1]
  exact Output.flush_tagCalls s.out

/-- A rendered document, fed to a fresh parser in one call, gives its segments back: the tag
callbacks with their names and attributes in order, and the text between them. -/
theorem parse_render (segs : List Segment) :
    ∃ c, parse [segs.flatMap Segment.render] = .ok c ∧
      events c.out.callbacks = segs.flatMap Segment.events := by
  obtain ⟨s, hs, -, hevents⟩ := Scanner.ready_new.feedAll_render segs
  obtain ⟨c, hc, hevents'⟩ := parse_scanner hs
  exact ⟨c, hc, hevents'.trans hevents⟩

end ESIParser

end NginxEsi
