import NginxEsi.Attributes
import NginxEsi.Grammar

/-!
# The compiled machine and its grammar

Ragel compiles the state chart of `common.rl` into the 80 states of `Machine.lean`.  A state stands
for the places in the expressions where the text so far may be (`State.positions`), and its action
lists run what the grammar embeds there, so along every text the generated scanner runs the actions
of the grammar (`actions_eq`).
-/

namespace NginxEsi

open Automaton Computability BranchTable Grammar

/-! ## One byte of each kind -/

/-- The single codes that some row tests. -/
def testedCodes : List ℕ := [32, 34, 39, 45, 47, 58, 60, 61, 62, 92, 95, 101, 105, 115]

/-- The ranges that some row tests. -/
def testedRanges : List (ℕ × ℕ) := [(9, 13), (48, 57), (65, 90), (97, 122)]

/-- The byte that stands for all bytes which pass the same tests. -/
def sample (b : UInt8) : UInt8 :=
  if b.toNat ∈ testedCodes then b
  else match testedRanges.find? fun e => e.1.ble b.toNat && b.toNat.ble e.2 with
    | some e => UInt8.ofNat e.1
    | none => 0

def samples : List UInt8 :=
  [32, 34, 39, 45, 47, 58, 60, 61, 62, 92, 95, 101, 105, 115, 9, 48, 65, 97, 0]

theorem sample_mem : ∀ b, sample b ∈ samples := forall_byte (by decide +kernel)

theorem sample_singles : ∀ b, ∀ c ∈ testedCodes, (c == b.toNat) = (c == (sample b).toNat) :=
  forall_byte (by decide +kernel)

theorem sample_ranges : ∀ b, ∀ e ∈ testedRanges, (e.1.ble b.toNat && b.toNat.ble e.2) =
    (e.1.ble (sample b).toNat && (sample b).toNat.ble e.2) :=
  forall_byte (by decide +kernel)

theorem sample_classes : ∀ b, isspace b = isspace (sample b) ∧ isLower b = isLower (sample b) ∧
    isKeyStart b = isKeyStart (sample b) ∧ isKeyChar b = isKeyChar (sample b) :=
  forall_byte (by decide +kernel)

theorem sample_beq {c : UInt8} (h : c.toNat ∈ testedCodes) (b : UInt8) :
    (b == c) = (sample b == c) := by
  have hb := sample_singles b _ h
  rw [Bool.eq_iff_iff, beq_iff_eq, beq_iff_eq, UInt8.toNat_inj, UInt8.toNat_inj] at hb
  rw [Bool.eq_iff_iff, beq_iff_eq, beq_iff_eq, eq_comm, hb, eq_comm]

theorem transition_sample (s : State) (b : UInt8) : transition s b = transition s (sample b) := by
  have hsingles : ∀ s, ∀ e ∈ (row s).singles, e.1 ∈ testedCodes := by decide
  have hranges : ∀ s, ∀ e ∈ (row s).ranges, (e.1, e.2.1) ∈ testedRanges := by decide
  exact Row.select_congr (fun e he => sample_singles b e.1 (hsingles s e he))
    fun e he => sample_ranges b (e.1, e.2.1) (hranges s e he)

theorem State.next_sample (s : State) (b : UInt8) : s.next b = s.next (sample b) := by
  rw [next, next, transition_sample]

theorem State.list_sample (s : State) (b : UInt8) : s.list b = s.list (sample b) := by
  rw [list, list, transition_sample]

namespace Position

theorem outgoing_sample (p : Position) (b : UInt8) : ∀ e ∈ p.outgoing, e.1 b = e.1 (sample b) := by
  obtain ⟨hspace, hlower, hstart, hchar⟩ := sample_classes b
  have hbeq : ∀ c : UInt8, c.toNat ∈ testedCodes → (b == c) = (sample b == c) :=
    fun c hc => sample_beq hc b
  rcases p with _ | _ | _ | _ | _ | _ | _ | _ | _ | _ | _ | _ | _ | _ | _ | _ | _ | (_ | _) |
    (_ | _) | _ | _ <;>
  simp (disch := decide) only [outgoing, List.forall_mem_cons, List.not_mem_nil, false_imp_iff,
    implies_true, and_self, bne, Quote.byte, hspace, hlower, hstart, hchar, hbeq]

end Position

/-! ## The positions of a state -/

/-- The position outside values: the candidate of a tag. -/
def State.candidate : State → List Position
  | .s1 | .s18 | .s28 | .s45 => [.lt]
  | .s8 | .s69 | .s36 | .s58 => [.openE]
  | .s9 | .s70 | .s37 | .s59 => [.openS]
  | .s10 | .s71 | .s38 | .s60 => [.openI]
  | .s11 | .s72 | .s39 | .s61 => [.openColon]
  | .s12 | .s73 | .s40 | .s62 => [.openName]
  | .s2 | .s19 | .s29 | .s46 => [.closeSlash]
  | .s3 | .s64 | .s31 | .s53 => [.closeE]
  | .s4 | .s65 | .s32 | .s54 => [.closeS]
  | .s5 | .s66 | .s33 | .s55 => [.closeI]
  | .s6 | .s67 | .s34 | .s56 => [.closeColon]
  | .s7 | .s68 | .s35 | .s57 => [.closeName]
  | .s13 | .s21 | .s26 | .s48 => [.attributes]
  | .s14 | .s22 | .s41 | .s49 => [.gap]
  | .s15 | .s23 | .s42 | .s50 => [.key]
  | .s16 | .s24 | .s43 | .s51 => [.equals]
  | .s74 | .s63 | .s44 | .s52 => [.slash]
  | .s79 | .s78 | .s76 | .s77 => [.final]
  | .s20 => [.escape .double]
  | .s30 => [.escape .single]
  | .s47 => [.escape .double, .escape .single]
  | .s0 | .s75 | .s17 | .s25 | .s27 => []

/-- The values that are open: a quote may also be text of a value of the other kind. -/
def State.values : State → List Position
  | .s17 | .s18 | .s19 | .s20 | .s21 | .s22 | .s23 | .s24 | .s63 | .s64 | .s65 | .s66 | .s67 | .s68
  | .s69 | .s70 | .s71 | .s72 | .s73 | .s78 => [.value .double]
  | .s26 | .s27 | .s28 | .s29 | .s30 | .s31 | .s32 | .s33 | .s34 | .s35 | .s36 | .s37 | .s38
  | .s39 | .s40 | .s41 | .s42 | .s43 | .s44 | .s76 => [.value .single]
  | .s25 | .s45 | .s46 | .s47 | .s48 | .s49 | .s50 | .s51 | .s52 | .s53 | .s54 | .s55 | .s56
  | .s57 | .s58 | .s59 | .s60 | .s61 | .s62 | .s77 => [.value .double, .value .single]
  | _ => []

/-- The positions that a state stands for. -/
def State.positions (s : State) : List Position := .text :: s.candidate ++ s.values

namespace State

open Position

theorem targets_subset : ∀ s, ∀ b ∈ samples, ∀ p ∈ positions s,
    Arrows.targets outgoing p b ⊆ positions (s.next b) := by
  decide +kernel

theorem subset_targets : ∀ s, ∀ b ∈ samples, ∀ q ∈ positions (State.next s b),
    ∃ p ∈ positions s, q ∈ Arrows.targets outgoing p b := by
  decide +kernel

/-- The generated states are the sets of positions that texts lead to. -/
theorem positions_tracks : Arrows.Tracks outgoing text State.next esiStart positions :=
  .of_samples sample (fun _ => List.mem_singleton) next_sample outgoing_sample
    (fun s b => targets_subset s _ (sample_mem b)) fun s b => subset_targets s _ (sample_mem b)

theorem mem_positions (w : Bytes) (p : Position) :
    p ∈ positions (w.foldl State.next esiStart) ↔ w ∈ p.before :=
  positions_tracks.mem_iff_mem before_solves w p

end State

/-! ## The actions -/

namespace Action

/-- The places where the grammar embeds an action, each with the bytes that run it. -/
def triggers : Action → List (Position × (UInt8 → Bool))
  | echo => [(.text, fun _ => true)]
  | begin => [(.text, (· == 60))]
  | finish => [(.final, fun _ => true)]
  | seeStartTag => [(.openName, isspace)]
  | seeEndTag => [(.slash, (· == 62))]
  | seeBlockStartWithAttributes => [(.attributes, (· == 62))]
  | seeAttributeKey => [(.key, (· == 61))]
  | seeAttributeValue =>
    [(.value .double, (· == Quote.double.byte)), (.value .single, (· == Quote.single.byte))]
  | blockStartTag => [(.openName, (· == 62))]
  | blockEndTag => [(.closeName, (· == 62))]

/-- An action list keeps this order. -/
def order : List Action :=
  [echo, begin, seeStartTag, seeEndTag, seeBlockStartWithAttributes, seeAttributeKey,
    seeAttributeValue, blockStartTag, blockEndTag, finish]

/-- The byte runs the action at one of the positions. -/
def due (a : Action) (s : State) (b : UInt8) : Bool :=
  a.triggers.any fun t => decide (t.1 ∈ s.positions) && t.2 b

theorem triggers_sample (a : Action) (b : UInt8) : ∀ t ∈ a.triggers, t.2 b = t.2 (sample b) := by
  have hspace := (sample_classes b).1
  have hbeq : ∀ c : UInt8, c.toNat ∈ testedCodes → (b == c) = (sample b == c) :=
    fun c hc => sample_beq hc b
  cases a <;>
  simp (disch := decide) only [triggers, List.forall_mem_cons, List.not_mem_nil, false_imp_iff,
    implies_true, and_self, Quote.byte, hspace, hbeq]

theorem due_sample (a : Action) (s : State) (b : UInt8) : a.due s b = a.due s (sample b) := by
  rw [due, due, Bool.eq_iff_iff, List.any_eq_true, List.any_eq_true]
  exact exists_congr fun t => and_congr_right fun ht => by rw [a.triggers_sample b t ht]

open Position in
/-- The texts behind which an action is due. -/
theorem concat_mem_upTo (a : Action) (w : Bytes) (b : UInt8) :
    w ++ [b] ∈ anything * a.upTo ↔ ∃ t ∈ a.triggers, w ∈ t.1.before ∧ t.2 b = true := by
  have hword : word [47, 62] = byte 47 * byte 62 := by
    rw [← word_singleton, ← word_concat, List.singleton_append]
  cases a <;>
  simp only [triggers, List.exists_mem_cons_iff, List.not_mem_nil, false_and, exists_false,
    or_false, before, ← concat_mem_mul_letter, ← Language.mem_add, upTo, attrValue, attrValueq,
    blockTag, Grammar.blockStartTag, Grammar.blockEndTag, inlineTag, endAttribute, space, hword,
    byte, mul_assoc, mul_add]

theorem nil_notMem_upTo (a : Action) : [] ∉ anything * a.upTo := by
  have hword : word [47, 62] = byte 47 * byte 62 := by
    rw [← word_singleton, ← word_concat, List.singleton_append]
  cases a <;>
  simp only [upTo, attrValue, attrValueq, blockTag, Grammar.blockStartTag, Grammar.blockEndTag,
    inlineTag, endAttribute, space, hword, byte, mul_add, ← mul_assoc, Language.mem_add,
    nil_notMem_mul_letter, or_self, not_false_eq_true]

end Action

theorem ActionList.actions_due : ∀ s : State, ∀ b ∈ samples,
    (s.list b).actions = Action.order.filter fun a => a.due s b := by
  decide +kernel

open Classical in
/-- Along every text, the generated scanner runs the actions of the grammar. -/
theorem actions_eq (w : Bytes) (b : UInt8) : ((w.foldl State.next esiStart).list b).actions =
    Action.order.filter fun a => decide (w ++ [b] ∈ anything * a.upTo) := by
  rw [State.list_sample, ActionList.actions_due _ _ (sample_mem b)]
  refine List.filter_congr fun a _ => ?_
  rw [← a.due_sample, Action.due, Bool.eq_iff_iff, List.any_eq_true, decide_eq_true_iff,
    a.concat_mem_upTo]
  refine exists_congr fun t => and_congr_right fun _ => ?_
  rw [Bool.and_eq_true, decide_eq_true_iff, State.mem_positions]

/-! ## The callbacks of a run -/

/-- The tag handlers. -/
inductive Handler where
  | startTag | endTag
  deriving DecidableEq, Repr

/-- The tag handler that a callback calls. -/
def Callback.handler : Callback → Option Handler
  | .startTag _ _ => some .startTag
  | .endTag _ => some .endTag
  | .output _ => none

/-- The tag handlers that an action calls. -/
def Action.handlers : Action → List Handler
  | .seeEndTag => [.startTag, .endTag]
  | .seeBlockStartWithAttributes | .blockStartTag => [.startTag]
  | .blockEndTag => [.endTag]
  | _ => []

open Classical in
/-- The tag handlers that are due when a text has been read. -/
noncomputable def Grammar.handlers (u : Bytes) : List Handler :=
  (Action.order.filter fun a => decide (u ∈ anything * a.upTo)).flatMap Action.handlers

theorem Grammar.handlers_nil : Grammar.handlers [] = [] := by
  rw [Grammar.handlers, List.filter_eq_nil_iff.2, List.flatMap_nil]
  intro a _
  simpa using a.nil_notMem_upTo

theorem Scanner.Calls.handlers {s : Scanner} {f : ActionList} {ts : List Callback}
    (h : s.Calls f ts) : ts.filterMap Callback.handler = f.actions.flatMap Action.handlers := by
  cases f with
  | f5 | f8 =>
    obtain ⟨n, -, rfl⟩ := h
    rfl
  | _ =>
    obtain rfl := h
    rfl

/-- The scanner calls the tag handlers that the grammar asks for. -/
theorem Scanner.feedAll_handlers {u : Bytes} {s : Scanner} (h : ({} : Scanner).feedAll u = .ok s) :
    s.cs = u.foldl State.next esiStart ∧
      (tagCalls s.out.callbacks).filterMap Callback.handler =
        u.inits.flatMap Grammar.handlers := by
  induction u using List.reverseRecOn generalizing s with
  | nil =>
    cases h
    exact ⟨rfl, by simp [Grammar.handlers_nil, tagCalls]⟩
  | append_singleton u b ih =>
    obtain ⟨m, hm, h⟩ := Run.concat_ok.1 h
    obtain ⟨hcs, hcalls⟩ := ih hm
    obtain ⟨ts, hts, htags⟩ := feed_tagCalls h
    refine ⟨?_, ?_⟩
    · rw [feed_cs h, hcs, List.foldl_append, List.foldl_cons, List.foldl_nil]
    · rw [htags, List.filterMap_append, hcalls, hts.handlers, hcs, actions_eq]
      simp [Grammar.handlers]

theorem filterMap_handler (l : List Callback) :
    (tagCalls l).filterMap Callback.handler = l.filterMap Callback.handler := by
  rw [tagCalls, List.filterMap_filter]
  congr 1
  funext t
  cases t <;> rfl

/-- However a document is cut into chunks, the parser calls the tag handlers that the grammar asks
for behind each of its prefixes, in this order. -/
theorem parse_handlers (chunks : List Bytes) (c : ESIParser) (h : ESIParser.parse chunks = .ok c)
    (hlen : chunks.flatten.length < 2 ^ 31) :
    c.out.callbacks.filterMap Callback.handler = chunks.flatten.inits.flatMap Grammar.handlers := by
  have houtcome := ESIParser.outcome_parse (ESIParser.inRange_of_length hlen)
  rw [h] at houtcome
  obtain ⟨s, hs, hfields⟩ := Run.map_ok houtcome.symm
  rw [← (Scanner.feedAll_handlers hs).2, ← filterMap_handler, ← (Prod.mk.inj hfields).1]
  exact congrArg _ (Output.flush_tagCalls s.out)

/-- An inline tag, cut inside its name. -/
theorem parse_handlers_cut :
    [60, 101, 115, 105, 58, 97, 32, 47, 62].inits.flatMap Grammar.handlers =
      [.startTag, .endTag] :=
  (parse_handlers [[60, 101, 115, 105], [58, 97, 32, 47, 62]] _ rfl (by decide)).symm

end NginxEsi
