import Mathlib.Data.List.DropRight
import NginxEsi.Compiled
import NginxEsi.Isolation
import NginxEsi.Room
import NginxEsi.Segments

/-!
# Tokens

What becomes of every byte.  The grammar says behind which bytes a tag has been begun, and behind
which ones a tag is complete.  A token ends where a tag is complete, or where none is begun any
more: it is a tag that is reported, with the name and the attributes that stand in the document, or
text that is sent, or a candidate that is lost.  A document is a sequence of tokens and what is
still held behind them in one way only, and the callbacks of the run are those of the tokens, in
order (`parse_tokens`).
-/

namespace NginxEsi

open BranchTable

/-! ## What the grammar says of a text -/

namespace Grammar

/-- The action is due when the text has been read. -/
def Due (a : Action) (w : Bytes) : Prop := w ∈ anything * a.upTo

/-- The text ends inside a tag. -/
def InTag (w : Bytes) : Prop := ∃ p : Position, p ≠ .text ∧ p ≠ .final ∧ w ∈ p.before

/-- The text ends with a tag that is complete: an action is due that calls a tag handler. -/
def Completes (w : Bytes) : Prop := ∃ a : Action, a.handlers ≠ [] ∧ Due a w

/-- The text ends with `<esi:N` or `</esi:N`. -/
def BehindName (w : Bytes) : Prop := w ∈ Position.openName.before ∨ w ∈ Position.closeName.before

/-- The last byte of the text is the one behind a tag name. -/
def Names (w : Bytes) : Prop := Due .seeStartTag w ∨ Due .blockStartTag w ∨ Due .blockEndTag w

/-- The text ends with a tag with attributes, which uses the name up. -/
def UsesName (w : Bytes) : Prop := Due .seeEndTag w ∨ Due .seeBlockStartWithAttributes w

/-- The name of the tag whose letters the text ends with. -/
def tagName (w : Bytes) : Bytes := esiColon ++ w.rtakeWhile isLower

/-- `P` holds behind every byte of `u`, which follows the text `d`. -/
def Behind (P : Bytes → Prop) (d u : Bytes) : Prop := ∀ v, v ≠ [] → v <+: u → P (d ++ v)

/-- The last name in the text that has not been used up. -/
def LastName (w name : Bytes) : Prop := ∃ p c z, w = p ++ [c] ++ z ∧ name = tagName p ∧
  Names (p ++ [c]) ∧ Behind (fun w => ¬ Names w ∧ ¬ UsesName w) (p ++ [c]) z

end Grammar

open Grammar

/-- The bytes `u` behind `d` stand inside a tag, and none of them completes one. -/
def Held (d u : Bytes) : Prop := Behind (fun w => InTag w ∧ ¬ Completes w) d u

/-- The attributes collected behind the text, from their places in it. -/
def attributesOf (w : Bytes) : List ESIAttribute := (trail w).attributes.map (AttrSpan.read w)

/-- The name of the tag that an action completes behind `w`. -/
def CompletedName (w name : Bytes) : Action → Prop
  | .blockStartTag | .blockEndTag => name = tagName w
  | _ => LastName w name

/-- The callbacks of this tag. -/
def tagEvents (w name : Bytes) : Action → List Event
  | .blockStartTag => [.startTag name []]
  | .blockEndTag => [.endTag name]
  | .seeBlockStartWithAttributes => [.startTag name (attributesOf w)]
  | .seeEndTag => [.startTag name (attributesOf w), .endTag name]
  | _ => []

/-- What the byte `b` makes of the bytes that are held at the end of the text `w`. -/
inductive Outcome (w : Bytes) (b : UInt8) where
  | text (outside : ¬ InTag (w ++ [b])) (incomplete : ¬ Completes (w ++ [b]))
      (name : ¬ BehindName w)
  | lost (outside : ¬ InTag (w ++ [b])) (incomplete : ¬ Completes (w ++ [b]))
      (name : BehindName w)
  | tag (a : Action) (name : Bytes) (handlers : a.handlers ≠ []) (due : Due a (w ++ [b]))
      (named : CompletedName w name a)

/-- The callbacks for the bytes `u` that are held at the end of `w`. -/
def Outcome.events {w : Bytes} {b : UInt8} (u : Bytes) : Outcome w b → List Event
  | .text _ _ _ => (u ++ [b]).map .byte
  | .lost _ _ _ => []
  | .tag a name _ _ _ => tagEvents w name a

/-- A token behind the text `d`. -/
structure Token (d : Bytes) where
  held : Bytes
  last : UInt8
  isHeld : Held d held
  outcome : Outcome (d ++ held) last

namespace Token

variable {d : Bytes}

def bytes (t : Token d) : Bytes := t.held ++ [t.last]

def events (t : Token d) : List Event := t.outcome.events t.held

end Token

/-- The text is a sequence of tokens with these callbacks. -/
inductive Tokens : Bytes → List Event → Prop
  | nil : Tokens [] []
  | concat {d : Bytes} {E : List Event} (h : Tokens d E) (t : Token d) :
      Tokens (d ++ t.bytes) (E ++ t.events)

/-- The document `w` is a sequence of tokens with the callbacks `E`, and `u` held behind them. -/
def Tokenised (w : Bytes) (E : List Event) (u : Bytes) : Prop :=
  ∃ d, w = d ++ u ∧ Tokens d E ∧ Held d u

/-! ## One way to cut -/

namespace Grammar

variable {P : Bytes → Prop} {d u w : Bytes} {b : UInt8}

theorem behind_nil : Behind P d [] := fun _ hne hv => absurd (List.prefix_nil.1 hv) hne

theorem Behind.concat (h : Behind P d u) (hb : P (d ++ u ++ [b])) : Behind P d (u ++ [b]) := by
  intro v hne hv
  rcases List.prefix_concat_iff.1 hv with rfl | hv
  · rwa [← List.append_assoc]
  · exact h v hne hv

theorem not_due_nil (a : Action) : ¬ Due a [] := a.nil_notMem_upTo

open Classical in
/-- The actions that are due are those of the list. -/
theorem due_concat {a : Action} :
    Due a (w ++ [b]) ↔ a ∈ ((w.foldl State.next esiStart).list b).actions := by
  have horder : a ∈ Action.order := by cases a <;> decide
  rw [actions_eq, List.mem_filter, decide_eq_true_iff, and_iff_right horder]
  rfl

/-- One handler action is due at a time. -/
theorem Due.unique {a a' : Action} (h : Due a w) (h' : Due a' w) (ha : a.handlers ≠ [])
    (ha' : a'.handlers ≠ []) : a = a' := by
  have hlist : ∀ f : ActionList, ∀ a ∈ f.actions, ∀ a' ∈ f.actions, a.handlers ≠ [] →
      a'.handlers ≠ [] → a = a' := by
    intro f
    cases f <;> decide
  rcases w.eq_nil_or_concat' with rfl | ⟨v, b, rfl⟩
  · exact absurd h (not_due_nil a)
  · exact hlist _ a (due_concat.1 h) a' (due_concat.1 h') ha ha'

theorem LastName.unique {name name' : Bytes} (h : LastName w name) (h' : LastName w name') :
    name = name' := by
  obtain ⟨p, c, z, rfl, rfl, hnames, hz⟩ := h
  obtain ⟨p', c', z', heq, rfl, hnames', hz'⟩ := h'
  -- the name that ends later would be one behind the other
  rcases List.append_eq_append_iff.1 heq with ⟨v, hp, rfl⟩ | ⟨v, hp, rfl⟩
  · by_cases hv : v = []
    · rw [hv, List.append_nil] at hp
      rw [(List.append_inj' hp rfl).1]
    · rw [hp] at hnames'
      exact absurd hnames' (hz v hv (List.prefix_append _ _)).1
  · by_cases hv : v = []
    · rw [hv, List.append_nil] at hp
      rw [(List.append_inj' hp rfl).1]
    · rw [hp] at hnames
      exact absurd hnames (hz' v hv (List.prefix_append _ _)).1

end Grammar

section Unique

variable {d d' u u' : Bytes} {E E' : List Event}

theorem CompletedName.unique {w name name' : Bytes} {a : Action} (h : CompletedName w name a)
    (h' : CompletedName w name' a) : name = name' := by
  cases a with
  | blockStartTag | blockEndTag => exact Eq.trans h (Eq.symm h')
  | _ => exact LastName.unique h h'

namespace Token

/-- Behind a token nothing is held. -/
theorem not_isHeld (t : Token d) : ¬ (InTag (d ++ t.bytes) ∧ ¬ Completes (d ++ t.bytes)) := by
  obtain ⟨held, last, -, outcome⟩ := t
  rw [bytes, ← List.append_assoc]
  rintro ⟨hinTag, hincomplete⟩
  cases outcome with
  | text outside | lost outside => exact outside hinTag
  | tag a name handlers due => exact hincomplete ⟨a, handlers, due⟩

theorem events_eq {t t' : Token d} :
    t.held = t'.held → t.last = t'.last → t.events = t'.events := by
  obtain ⟨held, last, -, outcome⟩ := t
  obtain ⟨held', last', -, outcome'⟩ := t'
  intro hheld hlast
  obtain rfl : held = held' := hheld
  obtain rfl : last = last' := hlast
  cases outcome with
  | text outside incomplete name =>
    cases outcome' with
    | text => rfl
    | lost _ _ name' => exact absurd name' name
    | tag a _ handlers due => exact absurd ⟨a, handlers, due⟩ incomplete
  | lost outside incomplete name =>
    cases outcome' with
    | text _ _ name' => exact absurd name name'
    | lost => rfl
    | tag a _ handlers due => exact absurd ⟨a, handlers, due⟩ incomplete
  | tag a name handlers due named =>
    cases outcome' with
    | text _ incomplete => exact absurd ⟨a, handlers, due⟩ incomplete
    | lost _ incomplete => exact absurd ⟨a, handlers, due⟩ incomplete
    | tag a' name' handlers' due' named' =>
      obtain rfl := due.unique due' handlers handlers'
      obtain rfl := named.unique named'
      rfl

end Token

theorem Tokens.not_held (h : Tokens d E) {v : Bytes} (hd : d = d' ++ v) (hv : v ≠ []) :
    ¬ Held d' v := by
  intro hheld
  have hlast := hheld v hv List.prefix_rfl
  rw [← hd] at hlast
  cases h with
  | nil => exact hv (List.append_eq_nil_iff.1 hd.symm).2
  | concat h t => exact t.not_isHeld hlast

/-- The tokens end where what is held begins. -/
theorem Tokens.cut (h : Tokens d E) (h' : Tokens d' E') (hu : Held d u) (hu' : Held d' u')
    (heq : d ++ u = d' ++ u') : d = d' ∧ u = u' := by
  rcases List.append_eq_append_iff.1 heq with ⟨v, hd, rfl⟩ | ⟨v, hd, rfl⟩
  · by_cases hv : v = []
    · subst hv
      exact ⟨by rw [hd, List.append_nil], rfl⟩
    · exact absurd (fun x hne hx => hu x hne (hx.trans (List.prefix_append _ _)))
        (h'.not_held hd hv)
  · by_cases hv : v = []
    · subst hv
      exact ⟨by rw [hd, List.append_nil], rfl⟩
    · exact absurd (fun x hne hx => hu' x hne (hx.trans (List.prefix_append _ _)))
        (h.not_held hd hv)

theorem Tokens.events_unique (h : Tokens d E) (h' : Tokens d E') : E = E' := by
  induction h generalizing E' with
  | nil =>
    generalize hd : ([] : Bytes) = d at h'
    cases h' with
    | nil => rfl
    | concat h t => simp [Token.bytes] at hd
  | @concat d E h t ih =>
    generalize hd : d ++ t.bytes = w at h'
    cases h' with
    | nil => simp [Token.bytes] at hd
    | @concat d' E' h' t' =>
      rw [Token.bytes, Token.bytes, ← List.append_assoc, ← List.append_assoc] at hd
      obtain ⟨hfront, hlast⟩ := List.append_inj' hd rfl
      obtain ⟨rfl, hheld⟩ := h.cut h' t.isHeld t'.isHeld hfront
      rw [ih h', Token.events_eq hheld (List.singleton_inj.1 hlast)]

theorem Tokenised.unique {w : Bytes} (h : Tokenised w E u) (h' : Tokenised w E' u') :
    E = E' ∧ u = u' := by
  obtain ⟨d, rfl, htokens, hheld⟩ := h
  obtain ⟨d', heq, htokens', hheld'⟩ := h'
  obtain ⟨rfl, rfl⟩ := htokens.cut htokens' hheld hheld' heq
  exact ⟨htokens.events_unique htokens', rfl⟩

end Unique

/-! ## The table -/

namespace Grammar

variable {w : Bytes} {b : UInt8}

theorem completes_concat :
    Completes (w ++ [b]) ↔ ((w.foldl State.next esiStart).list b).silent = false := by
  have hlist : ∀ f : ActionList, (∃ a ∈ f.actions, a.handlers ≠ []) ↔ f.silent = false := by
    intro f
    cases f <;> decide
  rw [← hlist, Completes]
  exact exists_congr fun a => by rw [due_concat, and_comm]

theorem names_concat :
    Names (w ++ [b]) ↔ ((w.foldl State.next esiStart).list b).names = true := by
  rw [Names, due_concat, due_concat, due_concat]
  cases (w.foldl State.next esiStart).list b <;> decide

theorem usesName_concat :
    UsesName (w ++ [b]) ↔ ((w.foldl State.next esiStart).list b).completes = true := by
  rw [UsesName, due_concat, due_concat]
  cases (w.foldl State.next esiStart).list b <;> decide

theorem inTag_iff : InTag w ↔ (w.foldl State.next esiStart).rest = false := by
  have hstate : ∀ q : State, (∃ p ∈ q.positions, p ≠ .text ∧ p ≠ .final) ↔ q.rest = false := by
    decide +kernel
  rw [← hstate, InTag]
  exact exists_congr fun p => by rw [← State.mem_positions]; tauto

theorem behindName_iff : BehindName w ↔
    .openName ∈ (w.foldl State.next esiStart).positions ∨
      .closeName ∈ (w.foldl State.next esiStart).positions := by
  rw [BehindName, State.mem_positions, State.mem_positions]

end Grammar

/-- What an edge of the table says about the end of a token. -/
structure Leads (s cs : State) (f : ActionList) : Prop where
  rest : f.silent = true → cs ≠ .s0 → cs.rest = false
  name : f.silent = true → cs = .s0 →
    (.openName ∈ s.positions ∨ .closeName ∈ s.positions ↔ s = .s12 ∨ s = .s7)
  calls : f.silent = false → cs = .s0 → s = .s12 ∨ s = .s7

instance (s cs : State) (f : ActionList) : Decidable (Leads s cs f) :=
  decidable_of_iff
    ((f.silent = true → cs ≠ .s0 → cs.rest = false) ∧
      (f.silent = true → cs = .s0 →
        (.openName ∈ s.positions ∨ .closeName ∈ s.positions ↔ s = .s12 ∨ s = .s7)) ∧
      (f.silent = false → cs = .s0 → s = .s12 ∨ s = .s7))
    ⟨fun ⟨h₁, h₂, h₃⟩ => ⟨h₁, h₂, h₃⟩, fun h => ⟨h.1, h.2, h.3⟩⟩

theorem leads_edges : ∀ s, ∀ e ∈ (row s).edges, Leads s e.2.goto.1 e.2.goto.2 := by
  decide +kernel

theorem leads_transition (s : State) (b : UInt8) : Leads s (s.next b) (s.list b) :=
  forall_transition_target (P := fun s t => Leads s t.goto.1 t.goto.2) leads_edges s b

theorem trail_cs (w : Bytes) : (trail w).cs = w.foldl State.next esiStart := by
  induction w using List.reverseRecOn with
  | nil => rfl
  | append_singleton w b ih =>
    rw [trail_concat, List.foldl_append, ← ih]
    rfl

/-- The letters behind a bracket. -/
theorem tagName_append (x : Bytes) (k : Bracket) {n : Bytes} (hn : IsLetters n) :
    tagName (x ++ k.text ++ n) = esiColon ++ n := by
  obtain ⟨y, hy⟩ : ∃ y, x ++ k.text = y ++ [58] := by
    cases k with
    | opening => exact ⟨x ++ tagOpen.dropLast, by rw [List.append_assoc]; rfl⟩
    | closing => exact ⟨x ++ tagClose.dropLast, by rw [List.append_assoc]; rfl⟩
  rw [tagName, hy]
  congr 1
  obtain ⟨-, hn⟩ := hn
  induction n using List.reverseRecOn with
  | nil =>
    rw [List.append_nil]
    exact List.rtakeWhile_concat_neg _ _ _ (by decide)
  | append_singleton n b ih =>
    obtain ⟨hn, hb⟩ := List.forall_mem_append.1 hn
    have hlower : isLower b = true := hb b (List.mem_singleton_self b)
    rw [← List.append_assoc, List.rtakeWhile_concat_pos _ _ _ hlower, ih hn]

namespace Scanner

variable {w : Bytes} {s s' m : Scanner} {b : UInt8}

/-! ## One byte -/

/-- Where a tag is complete, the echo sends nothing. -/
theorem enter_events_of_calls (hcalls : (s.cs.list b).silent = false) :
    (s.enter (s.cs.next b) b).out = s.out := by
  by_cases h0 : s.cs.next b = .s0
  · rw [h0, enter_zero_of_name b s ((leads_transition s.cs b).calls hcalls h0)]
  · rw [enter_of_ne b s h0]

/-- A list that is not silent makes its callbacks and holds nothing. -/
theorem act_events {previous : State} (f : ActionList) (h : s.act previous b (main f) = .ok m)
    (hcalls : f.silent = false) : m.held = [] ∧
      ∃ ts, s.Calls f ts ∧ m.out.events = s.out.events ++ NginxEsi.events ts := by
  cases f with
  | f2 | f4 =>
    obtain rfl := Except.ok.inj h
    exact ⟨rfl, _, rfl, report_events _ s⟩
  | f5 =>
    obtain ⟨n, hn, rfl⟩ := completeTag_ok h
    exact ⟨rfl, _, ⟨n, hn, rfl⟩, report_events _ s⟩
  | f8 =>
    obtain ⟨n, hn, rfl⟩ := completeTag_ok h
    refine ⟨rfl, _, ⟨n, hn, rfl⟩, ?_⟩
    dsimp only
    rw [if_pos rfl, report_events, report_events, List.append_assoc]
    rfl
  | _ => cases hcalls

theorem feed_calls (h : s.feed b = .ok s') (hcalls : (s.cs.list b).silent = false) :
    s'.held = [] ∧ ∃ ts, s.Calls (s.cs.list b) ts ∧
      s'.out.events = s.out.events ++ NginxEsi.events ts := by
  obtain ⟨m, hm, rfl⟩ := feed_ok h
  obtain ⟨hheld, ts, hts, hevents⟩ := act_events _ hm hcalls
  have hout := enter_events_of_calls hcalls
  refine ⟨hheld, ts, ?_, ?_⟩
  · unfold Calls at hts ⊢
    rwa [enter_since, enter_name, enter_attributes] at hts
  · rw [← hout]
    exact hevents

/-- The text `w` that the scanner has read is a sequence of tokens and what it holds. -/
structure Tokenises (w : Bytes) (s : Scanner) : Prop where
  inv : s.Inv
  locates : Locates w s
  name : ∀ n, s.name = some n → LastName w n
  tokens : Tokenised w s.out.events s.held

theorem tokenises_new : Tokenises [] {} where
  inv := inv_new
  locates := locates_new
  name n h := by cases h
  tokens := ⟨[], rfl, .nil, behind_nil⟩

namespace Tokenises

theorem cs (h : s.Tokenises w) : s.cs = w.foldl State.next esiStart :=
  h.locates.cs.trans (trail_cs w)

/-- The name of a candidate stands at the end of the text. -/
theorem since (h : s.Tokenises w) {k : Bracket} (hk : stage s.cs = .name k.text) :
    ∃ n, IsLetters n ∧ s.since = k.text ++ n ∧ tagName w = esiColon ++ n := by
  have hfits := h.inv.fits
  rw [hk] at hfits
  obtain ⟨n, hn, hsince⟩ := hfits
  have hw := List.take_append_drop (trail w).mark w
  rw [← h.locates.since, hsince, ← List.append_assoc] at hw
  exact ⟨n, hn, hsince, by rw [← hw, tagName_append _ k hn]⟩

/-- A tag name is the last one when its end has been read. -/
theorem name_feed (h : s.Tokenises w) (hs : s.feed b = .ok s') (n : Bytes)
    (hn : s'.name = some n) : LastName (w ++ [b]) n := by
  have hfinds : Finds s.cs (main (s.cs.list b)) := (flow_transition s.cs b).finds
  have hnames : Names (w ++ [b]) ↔ (s.cs.list b).names = true := by rw [names_concat, ← h.cs]
  have huses : UsesName (w ++ [b]) ↔ (s.cs.list b).completes = true := by
    rw [usesName_concat, ← h.cs]
  have hnew : (s.cs.list b).names = true → n = tagName w → LastName (w ++ [b]) n :=
    fun hf hn => ⟨w, b, [], (List.append_nil _).symm, hn, hnames.2 hf, behind_nil⟩
  have hold : (s.cs.list b).names = false → (s.cs.list b).completes = false → s.name = some n →
      LastName (w ++ [b]) n := by
    intro hf hf' hn
    obtain ⟨p, c, z, rfl, hname, hp, hz⟩ := h.name n hn
    refine ⟨p, c, z ++ [b], List.append_assoc _ _ _, hname, hp, hz.concat ⟨?_, ?_⟩⟩
    · rw [hnames, hf]
      exact Bool.false_ne_true
    · rw [huses, hf']
      exact Bool.false_ne_true
  rw [feed_nameAfter hs] at hn
  generalize s.cs.list b = f at hfinds hn hnew hold
  cases f with
  | f2 =>
    obtain ⟨l, hl, hsince, hname⟩ := h.since (k := .closing) hfinds
    obtain rfl := Option.some.inj hn
    refine hnew rfl ?_
    rw [hname, hsince]
    exact trim_name hl
  | f3 =>
    obtain ⟨l, hl, hsince, hname⟩ := h.since (k := .opening) hfinds
    obtain rfl := Option.some.inj hn
    refine hnew rfl ?_
    rw [hname, hsince]
    rfl
  | f4 =>
    obtain ⟨l, hl, hsince, hname⟩ := h.since (k := .opening) hfinds
    obtain rfl := Option.some.inj hn
    refine hnew rfl ?_
    rw [hname, hsince, trim_opening ⟨l, hl⟩]
  | f5 | f8 => cases hn
  | _ => exact hold rfl rfl hn

/-- A token ends at the byte. -/
theorem concat (h : s.Tokenises w) (o : Outcome w b) (hheld : s'.held = [])
    (hevents : s'.out.events = s.out.events ++ o.events s.held) :
    Tokenised (w ++ [b]) s'.out.events s'.held := by
  obtain ⟨d, rfl, htokens, hisHeld⟩ := h.tokens
  refine ⟨d ++ (s.held ++ [b]), ?_, ?_, ?_⟩
  · rw [hheld, List.append_nil, List.append_assoc]
  · rw [hevents]
    exact htokens.concat ⟨s.held, b, hisHeld, o⟩
  · rw [hheld]
    exact behind_nil

theorem tokens_of_silent (h : s.Tokenises w) (hs : s.feed b = .ok s')
    (hsilent : (s.cs.list b).silent = true) : Tokenised (w ++ [b]) s'.out.events s'.held := by
  obtain ⟨m, hm, -, hheld, hout, -⟩ := feed_silent hsilent
  obtain rfl := Except.ok.inj (hm.symm.trans hs)
  have hleads := leads_transition s.cs b
  have hnext : (w ++ [b]).foldl State.next esiStart = s.cs.next b := by
    rw [List.foldl_append, ← h.cs]
    rfl
  have hincomplete : ¬ Completes (w ++ [b]) := by
    rw [completes_concat, ← h.cs, hsilent]
    exact Bool.false_ne_true.symm
  by_cases h0 : s.cs.next b = .s0
  · have houtside : ¬ InTag (w ++ [b]) := by
      rw [inTag_iff, hnext, h0]
      exact Bool.false_ne_true.symm
    have hname := hleads.name hsilent h0
    rw [h.cs, ← behindName_iff, ← h.cs] at hname
    rw [h0, enter_zero_held] at hheld
    by_cases hlost : s.cs = .s12 ∨ s.cs = .s7
    · refine h.concat (.lost houtside hincomplete (hname.2 hlost)) hheld ?_
      rw [hout, h0, enter_zero_of_name b s hlost]
      exact (List.append_nil _).symm
    · refine h.concat (.text houtside hincomplete fun hn => hlost (hname.1 hn)) hheld ?_
      rw [hout, h0, enter_zero b s (not_or.1 hlost)]
      exact Output.foldl_echoChar_events _ _
  · obtain ⟨d, rfl, htokens, hisHeld⟩ := h.tokens
    rw [enter_of_ne b s h0] at hheld hout
    rw [hheld, hout]
    refine ⟨d, List.append_assoc _ _ _, htokens, hisHeld.concat ⟨?_, hincomplete⟩⟩
    rw [inTag_iff, hnext]
    exact hleads.rest hsilent h0

theorem tokens_of_calls (h : s.Tokenises w) (hs : s.feed b = .ok s')
    (hcalls : (s.cs.list b).silent = false) : Tokenised (w ++ [b]) s'.out.events s'.held := by
  have hfinds : Finds s.cs (main (s.cs.list b)) := (flow_transition s.cs b).finds
  have hdue : ∀ a ∈ (s.cs.list b).actions, Due a (w ++ [b]) := by
    intro a ha
    rwa [due_concat, ← h.cs]
  obtain ⟨hheld, ts, hts, hevents⟩ := feed_calls hs hcalls
  have hattributes : s.attributes = attributesOf w := h.locates.attributes
  -- the name that the scanner has is a tag name
  have hname : ∀ n, s.cs.named = true → s.name = some n → trim n = n :=
    fun n hnamed hn => (h.inv.isTagName hnamed n hn).trim_eq
  generalize s.cs.list b = f at hfinds hdue hts hcalls
  cases f with
  | f2 =>
    obtain ⟨l, hl, hsince, hw⟩ := h.since (k := .closing) hfinds
    obtain rfl : ts = _ := hts
    refine h.concat (.tag .blockEndTag (tagName w) (by decide) (hdue _ (by decide)) rfl) hheld ?_
    have hreported : trim (s.since.drop 2) = tagName w := by
      rw [hsince, hw]
      exact trim_name hl
    rw [hevents, hreported]
    rfl
  | f4 =>
    obtain ⟨l, hl, hsince, hw⟩ := h.since (k := .opening) hfinds
    obtain rfl : ts = _ := hts
    refine h.concat (.tag .blockStartTag (tagName w) (by decide) (hdue _ (by decide)) rfl) hheld ?_
    have hreported : trim s.since = tagName w := by rw [hsince, hw, trim_opening ⟨l, hl⟩]
    rw [hevents, hreported]
    rfl
  | f5 =>
    obtain ⟨n, hn, rfl⟩ := hts
    refine h.concat (.tag .seeBlockStartWithAttributes n (by decide) (hdue _ (by decide))
      (h.name n hn)) hheld ?_
    rw [hevents, hname n hfinds hn, hattributes]
    rfl
  | f8 =>
    obtain ⟨n, hn, rfl⟩ := hts
    refine h.concat (.tag .seeEndTag n (by decide) (hdue _ (by decide)) (h.name n hn)) hheld ?_
    rw [hevents, hname n hfinds hn, hattributes]
    rfl
  | _ => cases hcalls

theorem feed (h : s.Tokenises w) (hs : s.feed b = .ok s') : s'.Tokenises (w ++ [b]) := by
  refine ⟨h.inv.feed hs, h.locates.feed h.inv hs, h.name_feed hs, ?_⟩
  cases hsilent : (s.cs.list b).silent with
  | true => exact h.tokens_of_silent hs hsilent
  | false => exact h.tokens_of_calls hs hsilent

end Tokenises

/-! ## Runs -/

theorem feedAll_tokenises (h : ({} : Scanner).feedAll w = .ok s) : s.Tokenises w :=
  Run.invariant (I := fun w s => s.Tokenises w) (fun _ _ _ _ hs h => hs.feed h) (u := [])
    tokenises_new h

end Scanner

namespace ESIParser

theorem executeAll_tokenised {chunks : List Bytes} {c : ESIParser}
    (h : new.executeAll chunks = .ok c) (hlen : chunks.flatten.length < 2 ^ 31) :
    Tokenised chunks.flatten (events c.finish.out.callbacks) c.echobuffer := by
  obtain ⟨s, hs, hbetween⟩ := (executeAll_between hlen).ok_left h
  have htokens := (Scanner.feedAll_tokenises hs).tokens
  rw [← hbetween.same.out, ← hbetween.same.echobuffer, ← Output.events_flush] at htokens
  exact htokens

/-- However a document below 2 GiB is cut into chunks, if the parser runs to its end, the callbacks
are those of its tokens and the echo buffer is what is held behind them. -/
theorem parse_tokens (chunks : List Bytes) (c : ESIParser) (h : parseBounded chunks = .ok c)
    (hlen : chunks.flatten.length < 2 ^ 31) (E : List Event) (u : Bytes) :
    Tokenised chunks.flatten E u ↔ E = events c.out.callbacks ∧ u = c.echobuffer := by
  obtain ⟨m, hm, hfinish⟩ := Run.bind_ok (parseBounded_ok h).1
  obtain rfl : m.finish = c := Except.ok.inj hfinish
  have htokens := executeAll_tokenised hm hlen
  refine ⟨fun h => h.unique htokens, ?_⟩
  rintro ⟨rfl, rfl⟩
  exact htokens

/-- `<<esi:a>b` in two chunks, and `</e` in the second one. -/
theorem parse_tokens_held :
    let chunks : List Bytes := [[60, 60, 101, 115, 105], [58, 97, 62, 98, 60, 47, 101]]
    ∀ E u, Tokenised chunks.flatten E u ↔
      E = [.startTag (esiColon ++ [97]) [], .byte 98] ∧ u = [60, 47, 101] := by
  intro chunks E u
  have hrun : (parseBounded chunks).map (fun c => (events c.out.callbacks, c.echobuffer)) =
      .ok ([.startTag (esiColon ++ [97]) [], .byte 98], [60, 47, 101]) := by
    decide +kernel
  obtain ⟨c, hc, hfields⟩ := Run.map_ok hrun
  obtain ⟨hevents, hheld⟩ := Prod.mk.inj hfields
  rw [← hevents, ← hheld]
  exact parse_tokens chunks c hc (by decide) E u

end ESIParser

end NginxEsi
