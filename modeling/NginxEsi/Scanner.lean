import Mathlib.Data.List.DropRight
import NginxEsi.Parser

/-!
# The scanner: the parser without buffers and pointers

The parser's purpose is a transducer of the byte stream: it consumes one byte at a time and makes
callbacks.  `Scanner` states this with the texts themselves in place of pointers into a buffer:
`since` is the text from the mark to the current position, `name` the text of the tag name and
`key` the text of the attribute key.  A scanner knows nothing of chunks, overflow data, offsets or
capacities, so it is indifferent to how its input arrives; that the parser refines it is shown in
`NginxEsi.Refinement`.
-/

namespace NginxEsi

/-! ## Trimming texts -/

/-- The text left by `ltrim_pointer`. -/
def trimLeft (t : Bytes) : Bytes := t.dropWhile isLtrim

/-- The text left by `rtrim_pointer`, which never drops the first byte. -/
def trimRight : Bytes → Bytes
  | [] => []
  | c :: t => c :: t.rdropWhile isRtrim

def trim (t : Bytes) : Bytes := trimRight (trimLeft t)

/-! ## The scanner -/

structure Scanner where
  cs : State := esiStart
  held : Bytes := []
  out : Output := {}
  since : Bytes := []
  name : Option Bytes := none
  key : Bytes := []
  attributes : List ESIAttribute := []
  deriving DecidableEq, Repr

namespace Scanner

/-- `action echo`, which sends held bytes on when the candidate they belong to is rejected. -/
def echo (previous : State) (b : UInt8) (s : Scanner) : Scanner :=
  if s.cs = .s0 then
    if previous ≠ .s12 ∧ previous ≠ .s7 then
      { s with held := [], out := (s.held ++ [b]).foldl Output.echoChar s.out }
    else { s with held := [] }
  else { s with held := s.held ++ [b] }

/-- A callback between two flushes. -/
def report (c : Callback) (s : Scanner) : Scanner :=
  { s with out := (s.out.flush.call c).flush }

/-- A tag with attributes is complete; without a name there is only the null pointer to report. -/
def completeTag (withEnd : Bool) (s : Scanner) : Except Stop Scanner :=
  match s.name with
  | none => .error ⟨.nullDereference, s.out.callbacks⟩
  | some n =>
    let s := s.report (.startTag (trim n) s.attributes)
    let s := if withEnd then s.report (.endTag (trim n)) else s
    .ok { s with attributes := [], name := none, since := [], held := [] }

/-- An action at a position; `since` still ends before it. -/
def act (previous : State) (b : UInt8) (s : Scanner) : Action → Except Stop Scanner
  | .echo => .ok (s.echo previous b)
  | .begin => .ok { s with since := [] }
  | .finish => .ok s
  | .seeStartTag => .ok { s with name := some (s.since.drop 1), since := [] }
  | .seeEndTag => s.completeTag true
  | .seeBlockStartWithAttributes => s.completeTag false
  | .seeAttributeKey => .ok { s with key := trim s.since, since := [] }
  | .seeAttributeValue =>
    .ok { s with attributes := s.attributes ++ [⟨s.key, trim s.since⟩], since := [] }
  | .blockStartTag =>
    .ok { s.report (.startTag (trim s.since) []) with
      name := some (trim s.since), since := [], attributes := [], held := [] }
  | .blockEndTag =>
    .ok { s.report (.endTag (trim (s.since.drop 2))) with
      name := some (trim (s.since.drop 2)), since := [], held := [] }

/-- The position moves past `b`. -/
def advance (b : UInt8) (s : Scanner) : Scanner := { s with since := s.since ++ [b] }

/-- Consumes one byte. -/
def feed (s : Scanner) (b : UInt8) : Except Stop Scanner := do
  let (cs, list) := (transition s.cs b).goto
  let s ← list.actions.foldlM (act s.cs b) { s with cs := cs }
  return s.advance b

/-- Consumes a text. -/
def feedAll (s : Scanner) (u : Bytes) : Except Stop Scanner := u.foldlM feed s

/-- `esi_parser_finish`. -/
def finish (s : Scanner) : Scanner := { s with out := s.out.flush }

/-! ## One byte -/

/-- The machine has jumped to `cs` and echoed `b`. -/
def enter (cs : State) (b : UInt8) (s : Scanner) : Scanner :=
  { s with cs := cs }.echo s.cs b

section enter

variable (cs : State) (b : UInt8) (s : Scanner)

@[simp] theorem enter_cs : (s.enter cs b).cs = cs := by
  simp only [enter, echo]
  split_ifs <;> rfl

@[simp] theorem enter_since : (s.enter cs b).since = s.since := by
  simp only [enter, echo]
  split_ifs <;> rfl

@[simp] theorem enter_name : (s.enter cs b).name = s.name := by
  simp only [enter, echo]
  split_ifs <;> rfl

@[simp] theorem enter_key : (s.enter cs b).key = s.key := by
  simp only [enter, echo]
  split_ifs <;> rfl

@[simp] theorem enter_attributes : (s.enter cs b).attributes = s.attributes := by
  simp only [enter, echo]
  split_ifs <;> rfl

theorem enter_of_ne {cs : State} (h : cs ≠ .s0) :
    s.enter cs b = { s with cs := cs, held := s.held ++ [b] } := by
  simp only [enter, echo, if_neg h]

theorem enter_zero (h : s.cs ≠ .s12 ∧ s.cs ≠ .s7) :
    s.enter .s0 b =
      { s with cs := .s0, held := [], out := (s.held ++ [b]).foldl Output.echoChar s.out } := by
  simp only [enter, echo, if_true, if_pos h]

theorem enter_zero_of_name (h : s.cs = .s12 ∨ s.cs = .s7) :
    s.enter .s0 b = { s with cs := .s0, held := [] } := by
  have h' : ¬ (s.cs ≠ .s12 ∧ s.cs ≠ .s7) := by tauto
  simp only [enter, echo, if_true, if_neg h']

end enter

/-- The action that a list runs after the echo; `begin` and `finish` in one list act as the
first. -/
def main : ActionList → Action
  | .f0 | .f10 => .finish
  | .f1 | .f12 => .begin
  | .f2 => .blockEndTag
  | .f3 => .seeStartTag
  | .f4 => .blockStartTag
  | .f5 => .seeBlockStartWithAttributes
  | .f6 => .seeAttributeKey
  | .f7 | .f11 => .seeAttributeValue
  | .f8 => .seeEndTag

/-- One byte: jump and echo, run the action of the list, move on. -/
theorem feed_eq (s : Scanner) (b : UInt8) :
    s.feed b = ((s.enter (transition s.cs b).goto.1 b).act s.cs b (main (transition s.cs b).goto.2)).map
      (advance b) := by
  unfold feed
  generalize (transition s.cs b).goto = t
  obtain ⟨cs, f⟩ := t
  cases f
  case f5 | f8 =>
    simp only [ActionList.actions, List.foldlM_cons, List.foldlM_nil, main, act, enter]
    generalize hx : completeTag _ _ = x
    cases x <;> simp_all [Bind.bind, Except.bind, pure, Except.pure, Except.map]
  all_goals rfl

theorem feed_ok {s s' : Scanner} {b : UInt8} (h : s.feed b = .ok s') :
    ∃ m, (s.enter (transition s.cs b).goto.1 b).act s.cs b (main (transition s.cs b).goto.2) =
      .ok m ∧ s' = m.advance b := by
  rw [feed_eq] at h
  revert h
  generalize act _ _ _ _ = x
  intro h
  cases x with
  | error e => cases h
  | ok m => exact ⟨m, rfl, (Except.ok.inj h).symm⟩

section act

variable {previous : State} {b : UInt8} {s m : Scanner} {withEnd : Bool}

theorem completeTag_ok (h : s.completeTag withEnd = .ok m) :
    ∃ n, s.name = some n ∧ m = { (if withEnd then
        (s.report (.startTag (trim n) s.attributes)).report (.endTag (trim n))
      else s.report (.startTag (trim n) s.attributes)) with
        attributes := [], name := none, since := [], held := [] } := by
  unfold completeTag at h
  cases hn : s.name with
  | none => simp [hn] at h
  | some n =>
    simp only [hn, Except.ok.injEq] at h
    exact ⟨n, rfl, h.symm⟩

theorem completeTag_none (h : s.name = none) :
    s.completeTag withEnd = .error ⟨.nullDereference, s.out.callbacks⟩ := by
  simp [completeTag, h]

/-- A byte that fails completes a tag without a name, and has made no tag callback. -/
theorem feed_error {stop : Stop} (h : s.feed b = .error stop) :
    stop.callbacks = (s.enter (transition s.cs b).goto.1 b).out.callbacks := by
  rw [feed_eq] at h
  generalize s.enter (transition s.cs b).goto.1 b = t at h ⊢
  generalize (transition s.cs b).goto.2 = f at h
  cases f with
  | f5 | f8 =>
    dsimp only [main, act] at h
    cases hname : t.name with
    | none =>
      rw [completeTag_none hname] at h
      obtain rfl := Except.error.inj h
      rfl
    | some n =>
      rw [completeTag, hname] at h
      cases h
  | _ => cases h

theorem act_cs {a : Action} (ha : a ≠ .echo) (h : s.act previous b a = .ok m) : m.cs = s.cs := by
  cases a <;> first
    | exact absurd rfl ha
    | (obtain ⟨n, -, rfl⟩ := completeTag_ok h; split_ifs <;> rfl)
    | (obtain rfl := Except.ok.inj h; rfl)

end act

end Scanner

end NginxEsi
