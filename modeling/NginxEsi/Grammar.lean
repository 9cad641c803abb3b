import NginxEsi.Lib.Automaton
import NginxEsi.Segments

/-!
# The grammar of `common.rl`

The regular expressions and the state chart of `machine esi_common_parser` as languages, with one
language for each embedded action: the texts, from the start of a tag on, at whose last byte the
action runs (`Action.upTo`).  `Position` are the places inside these expressions, `outgoing` the
bytes that lead from one to another, and `Position.before` the texts in front of each; that they fit
together is `before_solves`.
-/

namespace NginxEsi

open Automaton Computability

namespace Grammar

/-! ## Expressions -/

/-- `l+`. -/
def plus (l : Language UInt8) : Language UInt8 := l * l∗

/-- `'c'`. -/
def byte (c : UInt8) : Language UInt8 := letter (· == c)

/-- `'w'`. -/
def word (w : Bytes) : Language UInt8 := {w}

/-- `/.*/`. -/
def anything : Language UInt8 := (letter fun _ => true)∗

/-- `[a-z]+`. -/
def name : Language UInt8 := plus (letter isLower)

def space : Language UInt8 := letter isspace

def attrKey : Language UInt8 := plus (letter isKeyStart) * (letter isKeyChar)∗

/-- What stands between the quotes of a value: escaped quotes and bytes that are no quotes. -/
def attrValueByte (q : Quote) : Language UInt8 := word [92, q.byte] + letter (· != q.byte)

/-- `attr_valueq1` and `attr_valueq2`. -/
def attrValueq (q : Quote) : Language UInt8 := byte q.byte * (attrValueByte q)∗ * byte q.byte

def attrValue : Language UInt8 := attrValueq .double + attrValueq .single

/-! ## The state chart -/

/-- From `start_attribute` back to it. -/
def attrPair : Language UInt8 := space∗ * attrKey * byte 61 * (space∗ * attrValue)

/-- From the start of a tag to `start_attribute`. -/
def startAttribute : Language UInt8 := word tagOpen * name * space * attrPair∗

/-- From the start of a tag to `end_attribute`. -/
def endAttribute : Language UInt8 := startAttribute * space∗ * attrKey * byte 61

def blockStartTag : Language UInt8 := word tagOpen * name * byte 62

def blockEndTag : Language UInt8 := word tagClose * name * byte 62

def inlineTag : Language UInt8 := startAttribute * space∗ * word [47, 62]

def blockTag : Language UInt8 := startAttribute * byte 62

/-- From the start of a tag to `final`. -/
def final : Language UInt8 := blockStartTag + inlineTag + blockTag

end Grammar

open Grammar

/-- The texts at whose last byte an action runs.  `finish` leaves the tag, so it runs at the byte
behind it. -/
def Action.upTo : Action → Language UInt8
  | .echo => letter fun _ => true
  | .begin => byte 60
  | .finish => final * letter fun _ => true
  | .seeStartTag => word tagOpen * name * space
  | .seeEndTag => inlineTag
  | .seeBlockStartWithAttributes => blockTag
  | .seeAttributeKey => endAttribute
  | .seeAttributeValue => endAttribute * (space∗ * attrValue)
  | .blockStartTag => Grammar.blockStartTag
  | .blockEndTag => Grammar.blockEndTag

/-! ## Positions -/

/-- A place in the expressions, named by what has just been read. -/
inductive Position where
  | text
  | lt
  | openE | openS | openI | openColon | openName
  | closeSlash | closeE | closeS | closeI | closeColon | closeName
  | attributes | gap | key | equals
  | value (q : Quote)
  | escape (q : Quote)
  | slash
  | final
  deriving DecidableEq, Repr

namespace Position

/-- The bytes that lead from a position to the next ones. -/
def outgoing : Arrows UInt8 Position
  | text => [(fun _ => true, text), ((· == 60), lt)]
  | lt => [((· == 101), openE), ((· == 47), closeSlash)]
  | openE => [((· == 115), openS)]
  | openS => [((· == 105), openI)]
  | openI => [((· == 58), openColon)]
  | openColon => [(isLower, openName)]
  | openName => [(isLower, openName), (isspace, attributes), ((· == 62), final)]
  | closeSlash => [((· == 101), closeE)]
  | closeE => [((· == 115), closeS)]
  | closeS => [((· == 105), closeI)]
  | closeI => [((· == 58), closeColon)]
  | closeColon => [(isLower, closeName)]
  | closeName => [(isLower, closeName)]
  | attributes => [(isspace, gap), (isKeyStart, key), ((· == 47), slash), ((· == 62), final)]
  | gap => [(isspace, gap), (isKeyStart, key), ((· == 47), slash)]
  | key => [(isKeyChar, key), ((· == 61), equals)]
  | equals =>
    [(isspace, equals), ((· == Quote.double.byte), value .double),
      ((· == Quote.single.byte), value .single)]
  | value q => [((· != q.byte), value q), ((· == 92), escape q), ((· == q.byte), attributes)]
  | escape q => [((· == q.byte), value q)]
  | slash => [((· == 62), final)]
  | final => []

/-- The texts that lead to a position, whatever stands in front of the tag. -/
def before : Position → Language UInt8
  | text => anything
  | lt => anything * word [60]
  | openE => anything * word [60, 101]
  | openS => anything * word [60, 101, 115]
  | openI => anything * word [60, 101, 115, 105]
  | openColon => anything * word tagOpen
  | openName => anything * (word tagOpen * name)
  | closeSlash => anything * word [60, 47]
  | closeE => anything * word [60, 47, 101]
  | closeS => anything * word [60, 47, 101, 115]
  | closeI => anything * word [60, 47, 101, 115, 105]
  | closeColon => anything * word tagClose
  | closeName => anything * (word tagClose * name)
  | attributes => anything * startAttribute
  | gap => anything * (startAttribute * plus space)
  | key => anything * (startAttribute * space∗ * attrKey)
  | equals => anything * (endAttribute * space∗)
  | value q => anything * (endAttribute * space∗ * (byte q.byte * (attrValueByte q)∗))
  | escape q => anything * (endAttribute * space∗ * (byte q.byte * (attrValueByte q)∗) * byte 92)
  | slash => anything * (startAttribute * space∗ * byte 47)
  | final => anything * Grammar.final

end Position

/-! ## Equations -/

namespace Grammar

section Equations

variable (L M : Language UInt8)

theorem mem_anything (w : Bytes) : w ∈ anything := by
  rw [anything, Language.mem_kstar]
  refine ⟨w.map fun b => [b], by simp [← List.flatMap_def], ?_⟩
  intro u hu
  obtain ⟨b, -, rfl⟩ := List.mem_map.1 hu
  exact ⟨b, rfl, rfl⟩

theorem word_concat (w : Bytes) (c : UInt8) : word (w ++ [c]) = word w * byte c := by
  ext u
  rw [Language.mem_mul]
  constructor
  · rintro rfl
    exact ⟨w, rfl, [c], ⟨c, beq_self_eq_true c, rfl⟩, rfl⟩
  · rintro ⟨v, rfl, x, ⟨b, hb, rfl⟩, rfl⟩
    rw [beq_iff_eq.1 hb]
    rfl

theorem mul_word_concat (w : Bytes) (c : UInt8) : L * word (w ++ [c]) = L * word w * byte c := by
  rw [word_concat, mul_assoc]

theorem word_singleton (c : UInt8) : word [c] = byte c := by
  have hone : word [] = 1 := rfl
  rw [← List.nil_append [c], word_concat, hone, one_mul]

/-- A repetition is empty or has a first round. -/
theorem mul_kstar_eq : L * M∗ = L + L * plus M := by
  rw [plus, ← Language.one_add_self_mul_kstar_eq_kstar, mul_add, mul_one,
    Language.one_add_self_mul_kstar_eq_kstar]

theorem mul_plus : L * plus M = L * M + L * plus M * M := by
  have h := mul_kstar (L * M) M
  rwa [mul_assoc L M M∗] at h

/-- Every byte of a key behind the first one may be a digit. -/
theorem attrKey_eq : attrKey = letter isKeyStart * (letter isKeyChar)∗ := by
  rw [attrKey, plus, mul_assoc, kstar_mul_kstar_of_le]
  exact letter_mono fun b hb => by rw [isKeyChar, hb, Bool.true_or]

/-- A pair ends with the quote of its value. -/
theorem mul_attrPair : L * attrPair =
    L * space∗ * attrKey * byte 61 * space∗ * (byte 34 * (attrValueByte .double)∗) * byte 34 +
      L * space∗ * attrKey * byte 61 * space∗ * (byte 39 * (attrValueByte .single)∗) * byte 39 := by
  simp only [attrPair, attrValue, attrValueq, Quote.byte, mul_add, mul_assoc]

end Equations

end Grammar

namespace Position

/-! ### The texts in front of a position -/

/-- The texts in front of a position by their last byte. -/
def arriving : Position → Language UInt8
  | text => 1 + before text * letter fun _ => true
  | lt => before text * byte 60
  | openE => before lt * byte 101
  | openS => before openE * byte 115
  | openI => before openS * byte 105
  | openColon => before openI * byte 58
  | openName => before openColon * letter isLower + before openName * letter isLower
  | closeSlash => before lt * byte 47
  | closeE => before closeSlash * byte 101
  | closeS => before closeE * byte 115
  | closeI => before closeS * byte 105
  | closeColon => before closeI * byte 58
  | closeName => before closeColon * letter isLower + before closeName * letter isLower
  | attributes =>
    before openName * space + (before (value .double) * byte 34 + before (value .single) * byte 39)
  | gap => before attributes * space + before gap * space
  | key => (before attributes + before gap) * letter isKeyStart + before key * letter isKeyChar
  | equals => before key * byte 61 + before equals * space
  | value q =>
    before equals * byte q.byte +
      (before (escape q) * byte q.byte + before (value q) * letter (· != q.byte))
  | escape q => before (value q) * byte 92
  | slash => (before attributes + before gap) * byte 47
  | final => (before openName + before slash + before attributes) * byte 62

theorem before_text : before text = arriving text := by
  have h := mul_kstar (1 : Language UInt8) (letter fun _ => true)
  rwa [one_mul] at h

theorem before_name (u : Bytes) : anything * (word u * name) =
    anything * word u * letter isLower + anything * (word u * name) * letter isLower := by
  have h := mul_plus (anything * word u) (letter isLower)
  rwa [mul_assoc anything] at h

theorem before_attributes : before attributes = arriving attributes := by
  have h := mul_kstar (anything * (word tagOpen * name * space)) attrPair
  rw [mul_attrPair] at h
  simpa only [before, arriving, endAttribute, startAttribute, Quote.byte, mul_assoc] using h

theorem before_gap : before gap = arriving gap := by
  simpa only [before, arriving, mul_assoc] using mul_plus (before attributes) space

/-- Behind a name or a pair and any white space. -/
theorem before_spaces : anything * (startAttribute * space∗) = before attributes + before gap := by
  simpa only [before, mul_assoc] using mul_kstar_eq (before attributes) space

theorem before_key : before key = arriving key := by
  have h := mul_kstar (anything * (startAttribute * space∗) * letter isKeyStart) (letter isKeyChar)
  rw [arriving, ← before_spaces]
  simpa only [before, attrKey_eq, mul_assoc] using h

theorem before_equals : before equals = arriving equals := by
  have h := mul_kstar (before key * byte 61) space
  simpa only [before, arriving, endAttribute, mul_assoc] using h

theorem before_value (q : Quote) : before (value q) = arriving (value q) := by
  have h := mul_kstar (before equals * byte q.byte) (attrValueByte q)
  have hword : word [92, q.byte] = byte 92 * byte q.byte := by
    rw [← word_singleton, ← word_concat, List.singleton_append]
  nth_rewrite 3 [attrValueByte] at h
  rw [hword] at h
  simpa only [before, arriving, mul_assoc, mul_add] using h

theorem before_slash : before slash = arriving slash := by
  rw [arriving, ← before_spaces]
  simp only [before, mul_assoc]

theorem before_final : before final = arriving final := by
  have hword : word [47, 62] = byte 47 * byte 62 := by
    rw [← word_singleton, ← word_concat, List.singleton_append]
  simp only [before, arriving, Grammar.final, blockStartTag, inlineTag, blockTag, hword, mul_add,
    add_mul, mul_assoc]

theorem before_eq : ∀ p, before p = arriving p
  | text => before_text
  | lt => by rw [arriving, before, before, word_singleton]
  | openE => mul_word_concat anything [60] 101
  | openS => mul_word_concat anything [60, 101] 115
  | openI => mul_word_concat anything [60, 101, 115] 105
  | openColon => mul_word_concat anything [60, 101, 115, 105] 58
  | openName => before_name tagOpen
  | closeSlash => mul_word_concat anything [60] 47
  | closeE => mul_word_concat anything [60, 47] 101
  | closeS => mul_word_concat anything [60, 47, 101] 115
  | closeI => mul_word_concat anything [60, 47, 101, 115] 105
  | closeColon => mul_word_concat anything [60, 47, 101, 115, 105] 58
  | closeName => before_name tagClose
  | attributes => before_attributes
  | gap => before_gap
  | key => before_key
  | equals => before_equals
  | value q => before_value q
  | escape q => by simp only [before, arriving, mul_assoc]
  | slash => before_slash
  | final => before_final

/-! ### The languages and the arrows -/

theorem exists_quote {P : Quote → Prop} : (∃ q, P q) ↔ P .double ∨ P .single := by
  constructor
  · rintro ⟨q, h⟩
    cases q
    exacts [.inl h, .inr h]
  · rintro (h | h)
    exacts [⟨_, h⟩, ⟨_, h⟩]

theorem exists_position {P : Position → Prop} : (∃ p, P p) ↔
    P text ∨ P lt ∨ P openE ∨ P openS ∨ P openI ∨ P openColon ∨ P openName ∨ P closeSlash ∨
      P closeE ∨ P closeS ∨ P closeI ∨ P closeColon ∨ P closeName ∨ P attributes ∨ P gap ∨ P key ∨
      P equals ∨ (∃ q, P (value q)) ∨ (∃ q, P (escape q)) ∨ P slash ∨ P final := by
  constructor
  · rintro ⟨p, hp⟩
    cases p <;> grind
  · grind

theorem nil_mem_before (p : Position) : [] ∈ before p ↔ p = text := by
  constructor
  · rw [before_eq]
    cases p <;> simp only [arriving, byte, space, Language.mem_add, nil_notMem_mul_letter, or_self,
      reduceCtorEq, imp_self, implies_true]
  · rintro rfl
    exact mem_anything []

/-- The bytes that a position is reached with are those that the other positions let out. -/
theorem concat_mem_before (q : Position) (w : Bytes) (b : UInt8) :
    w ++ [b] ∈ before q ↔ ∃ p, w ∈ before p ∧ outgoing.Leads p b q := by
  rw [before_eq, exists_position, exists_quote, exists_quote]
  rcases q with _ | _ | _ | _ | _ | _ | _ | _ | _ | _ | _ | _ | _ | _ | _ | _ | _ | (_ | _) |
    (_ | _) | _ | _ <;>
  · simp only [arriving, byte, space, add_mul, Language.mem_add, concat_mem_mul_letter, Quote.byte]
    simp [Arrows.Leads, outgoing, Quote.byte, Language.mem_one, or_assoc]
    try tauto

theorem before_solves : outgoing.Solves text before where
  nil := nil_mem_before
  concat := concat_mem_before

end Position

end NginxEsi
