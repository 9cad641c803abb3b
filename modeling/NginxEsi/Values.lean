import NginxEsi.Attributes
import NginxEsi.Segments

/-!
# Attribute values

The value of an attribute is the text from the mark to a quote, trimmed at both ends.  The mark
stands behind the key, unless it has been moved since: by a `<`, where the machine begins another
candidate, or by an escaped quote, which ends a value and is read as a part of it as well.  Behind a
mark moved into the value only a part of it is left, so the value is not reported as written
(`not_reportsValue`); otherwise it is reported up to the trimming (`reportsValue_iff_trim`).
-/

namespace NginxEsi

/-- `<esi:N k="v"/>` -/
def valueTag (n : Letters) (k : AttrKey) (q : Quote) (v : Bytes) : Bytes :=
  tagOpen ++ n.1 ++ [32] ++ (k.render ++ [61]) ++ (q.byte :: v) ++ [q.byte, 47, 62]

/-- The handlers are told of one inline tag `esi:N`, which has the attribute `k`, of value `v`, and
no other. -/
def ReportsValue (n : Letters) (k : AttrKey) (q : Quote) (v : Bytes) : Prop :=
  ∃ c, ESIParser.parse [valueTag n k q v] = .ok c ∧ tagCalls c.out.callbacks =
    [.startTag (esiColon ++ n.1) [⟨k.render, v⟩], .endTag (esiColon ++ n.1)]

theorem Quote.ne_byte (q : Quote) {b : UInt8} (hdouble : b ≠ 34) (hsingle : b ≠ 39) :
    b ≠ q.byte := by
  cases q
  · exact hdouble
  · exact hsingle

/-- A run in which other callbacks are made. -/
theorem ReportsValue.eq_of_run {n : Letters} {k : AttrKey} {q : Quote} {v : Bytes}
    {ts : List Callback} (h : ReportsValue n k q v)
    (hrun : (ESIParser.parse [valueTag n k q v]).map (fun c => tagCalls c.out.callbacks) = .ok ts) :
    ts = [.startTag (esiColon ++ n.1) [⟨k.render, v⟩], .endTag (esiColon ++ n.1)] := by
  obtain ⟨c, hc, htags⟩ := h
  exact (Run.of_map_ok hc hrun).symm.trans htags

/-! ## Lengths -/

theorem trim_length_le (t : Bytes) : (trim t).length ≤ t.length := by
  have hleft : (trimLeft t).length ≤ t.length := (List.dropWhile_suffix _).length_le
  unfold trim
  cases h : trimLeft t with
  | nil => exact Nat.zero_le _
  | cons c u =>
    rw [h] at hleft
    exact (Nat.succ_le_succ (List.rdropWhile_prefix _ u).length_le).trans hleft

/-- Nothing is trimmed off a text exactly when neither end is in the class of its side; the first
byte is never trimmed off from the right. -/
theorem trim_eq_self_iff (t : Bytes) : trim t = t ↔
    (∀ b ∈ t.head?, isLtrim b = false) ∧
      (2 ≤ t.length → ∀ b ∈ t.getLast?, isRtrim b = false) := by
  cases t with
  | nil => simp [trim, trimLeft, trimRight]
  | cons c t =>
    cases hc : isLtrim c with
    | true =>
      have hlen : (trim (c :: t)).length ≤ t.length := by
        have h := Scanner.trim_append (w := [c]) (t := t) (by simpa using hc)
        rw [List.singleton_append] at h
        rw [h]
        exact trim_length_le t
      refine ⟨fun h => ?_, fun h => ?_⟩
      · rw [h, List.length_cons] at hlen
        omega
      · simp [hc] at h
    | false =>
      rw [trim, trimLeft_cons_of_not hc, trimRight, List.cons_inj_right, List.rdropWhile_eq_self_iff]
      cases t using List.reverseRecOn with
      | nil => simp [hc]
      | append_singleton t d =>
        rw [← List.cons_append, List.getLast?_concat]
        simp [hc]

namespace Scanner

variable {s s' : Scanner} {w : Bytes} {P : ESIAttribute → Prop}

theorem feed_since_length {b : UInt8} (h : s.feed b = .ok s') :
    s'.since.length ≤ s.since.length + 1 := by
  rw [feed_since h, List.length_append]
  split_ifs <;> simp

/-- A value collected is no longer than the text since the mark. -/
theorem Recorded.feedAll_short {L : ℕ} : ∀ {w : Bytes} {s s' : Scanner},
    s.Recorded (fun a => a.value.length ≤ L) → s.since.length + w.length ≤ L + 1 →
    s.feedAll w = .ok s' → s'.Recorded fun a => a.value.length ≤ L
  | [], s, s', hs, _, h => by
    obtain rfl : s = s' := Except.ok.inj h
    exact hs
  | b :: w, s, s', hs, hlen, h => by
    obtain ⟨m, hm, h⟩ := Run.cons_ok.1 h
    rw [List.length_cons] at hlen
    have hm' := hs.feed hm fun _ => (trim_length_le s.since).trans (by omega)
    have hlen' := feed_since_length hm
    exact hm'.feedAll_short (by omega) h

/-- Without a quote nothing is collected. -/
theorem Recorded.feedAll_unquoted (hw : ∀ b ∈ w, b ≠ 34 ∧ b ≠ 39) (hs : s.Recorded P)
    (h : s.feedAll w = .ok s') : s'.Recorded P := by
  induction w generalizing s with
  | nil =>
    obtain rfl : s = s' := Except.ok.inj h
    exact hs
  | cons b w ih =>
    obtain ⟨hb, hw⟩ := List.forall_mem_cons.1 hw
    obtain ⟨m, hm, h⟩ := Run.cons_ok.1 h
    refine ih hw (hs.feed hm fun hcollects => ?_) h
    rcases State.quote_of_collects hcollects with rfl | rfl
    · exact absurd rfl hb.1
    · exact absurd rfl hb.2

/-- Inside the value of the tag, behind its part `v`, and nothing has been reported. -/
theorem feedAll_valueTag (n : Letters) (k : AttrKey) (q : Quote) {v : Bytes}
    (hv : ∀ b ∈ v, b ≠ q.byte ∧ b ≠ 60) :
    ∃ s, ({} : Scanner).feedAll (tagOpen ++ n.1 ++ [32] ++ (k.render ++ [61]) ++ (q.byte :: v)) =
        .ok s ∧ s.cs = (if v.getLast? = some 92 then q.escaped else q.inside) ∧
      trim s.since = trim v ∧ ∀ P, s.Recorded P := by
  obtain ⟨m₁, hm₁, hinside⟩ := ready_new.feedAll_inside n ⟨32, rfl⟩ ⟨[], by simp⟩
  obtain ⟨m₂, hm₂, hkeyed⟩ := hinside.feedAll_key k
  obtain ⟨halong, hcs⟩ := keeps_value hv
  obtain ⟨hquote, -, hne, hltrim⟩ := quote_next q
  have hvalue : Run.Along State.next Keeps m₂.cs (q.byte :: v) := by
    rw [hkeyed.cs]
    exact keeps_cons hquote hne halong
  rw [List.append_nil] at hm₁
  refine ⟨_, Run.append_ok.2 ⟨m₂, Run.append_ok.2 ⟨m₁, hm₁, hm₂⟩, feedAll_keeps hvalue⟩, ?_, ?_,
    fun P => ⟨?_, ?_⟩⟩
  · rw [hkeyed.cs, List.foldl_cons, hquote.1]
    exact hcs
  · change trim (m₂.since ++ q.byte :: v) = _
    rw [hkeyed.since]
    exact trim_append (w := [61, q.byte]) (by simpa using ⟨by decide, hltrim⟩)
  · change ∀ a ∈ m₂.attributes, _
    rw [hkeyed.attributes]
    simp
  · change ∀ name as, _ ∈ tagCalls m₂.out.callbacks → _
    rw [hkeyed.out]
    simp [tagCalls]

end Scanner

/-! ## When a value is reported -/

section

variable (n : Letters) (k : AttrKey) {q : Quote}

/-- A value without its quote, without `<` and without a backslash at its end is trimmed and
reported. -/
theorem reportsValue_iff_trim {v : Bytes} (hv : ∀ b ∈ v, b ≠ q.byte ∧ b ≠ 60)
    (hlast : v.getLast? ≠ some 92) : ReportsValue n k q v ↔ trim v = v := by
  let a : Attr := ⟨k, ⟨[], by simp⟩, q, v, hv, hlast⟩
  let seg : Segment := .inlineTag n ⟨32, rfl⟩ ⟨[], by simp⟩ [(a, ⟨[], by simp⟩)]
  obtain ⟨c, hc, hevents⟩ := ESIParser.parse_render [seg]
  have hdoc : [seg].flatMap Segment.render = valueTag n k q v := by
    simp [seg, a, Segment.render, renderAttributes, Attr.render, valueTag]
  have htags : tagCalls c.out.callbacks =
      [.startTag (esiColon ++ n.1) [⟨k.render, trim v⟩], .endTag (esiColon ++ n.1)] := by
    rw [tagCalls_eq_filterMap, hevents]
    rfl
  rw [hdoc] at hc
  constructor
  · rintro ⟨c', hc', htags'⟩
    obtain rfl : c = c' := Except.ok.inj (hc.symm.trans hc')
    rw [htags'] at htags
    simpa using htags.symm
  · intro htrim
    rw [htrim] at htags
    exact ⟨c, hc, htags⟩

/-- A value with a byte `b` inside at which the mark is moved is not reported. -/
theorem not_reportsValue {v₁ v₂ : Bytes} {b : UInt8} (hne : v₁ ≠ [])
    (hv₁ : ∀ c ∈ v₁, c ≠ q.byte ∧ c ≠ 60)
    (hmoved : ((if v₁.getLast? = some 92 then q.escaped else q.inside).list b).keepsMark = false) :
    ¬ ReportsValue n k q (v₁ ++ b :: v₂) := by
  rintro ⟨c, hc, htags⟩
  obtain ⟨s', hs', hout⟩ := ESIParser.scanner_of_parse hc
  have hsplit : valueTag n k q (v₁ ++ b :: v₂) =
      (tagOpen ++ n.1 ++ [32] ++ (k.render ++ [61]) ++ (q.byte :: v₁)) ++
        (b :: ((v₂ ++ [q.byte]) ++ [47, 62])) := by
    simp [valueTag]
  obtain ⟨s, hs, hcs, htrim, hnone⟩ := Scanner.feedAll_valueTag n k q hv₁
  rw [hsplit] at hs'
  obtain ⟨s₀, hs₀, h⟩ := Run.append_ok.1 hs'
  obtain rfl : s = s₀ := Except.ok.inj (hs.symm.trans hs₀)
  obtain ⟨m, hm, h⟩ := Run.cons_ok.1 h
  obtain ⟨m', hm', h⟩ := Run.append_ok.1 h
  have hpos : 0 < v₁.length := List.length_pos_iff.2 hne
  -- what is collected at `b` is a part of `v₁`
  have h₁ : m.Recorded fun a => a.value.length ≤ v₁.length + v₂.length := by
    refine (hnone _).feed hm fun _ => ?_
    change (trim s.since).length ≤ _
    rw [htrim]
    exact (trim_length_le v₁).trans (Nat.le_add_right _ _)
  -- and what is collected behind `b` begins there
  have hsince : m.since = [b] := by
    rw [Scanner.feed_since hm, hcs, hmoved]
    rfl
  have h₂ := h₁.feedAll_short (by rw [hsince, List.length_append]; simp; omega) hm'
  have h₃ := h₂.feedAll_unquoted (by decide +kernel) h
  have hlen := h₃.reported _ _ (by rw [← hout, htags]; exact List.mem_cons_self) _
    (List.mem_singleton.2 rfl)
  rw [List.length_append, List.length_cons] at hlen
  omega

end

/-! ## Markup in a value -/

/-- Neither end of `v` is white space, `=`, `<` or `>`. -/
def KeptEnds (v : Bytes) : Prop :=
  (∀ b ∈ v.head?, isspace b = false ∧ b ≠ 61 ∧ b ≠ 60 ∧ b ≠ 62) ∧
    ∀ b ∈ v.getLast?, isspace b = false ∧ b ≠ 61 ∧ b ≠ 60 ∧ b ≠ 62

instance (v : Bytes) : Decidable (KeptEnds v) := inferInstanceAs (Decidable (_ ∧ _))

/-- A `<` begins a candidate in every state. -/
theorem begins_open : ∀ s : State, (s.list 60).keepsMark = false := by
  decide +kernel

/-- A value without quotes and backslashes is data, exactly when it has no `<`. -/
theorem reportsValue_iff_not_mem (n : Letters) (k : AttrKey) (q : Quote) (v : Bytes)
    (hv : ∀ b ∈ v, b ≠ 0 ∧ b ≠ 92 ∧ b ≠ 34 ∧ b ≠ 39) (hends : KeptEnds v) :
    ReportsValue n k q v ↔ (60 : UInt8) ∉ v := by
  have hquote : ∀ b ∈ v, b ≠ q.byte := fun b hb => q.ne_byte (hv b hb).2.2.1 (hv b hb).2.2.2
  constructor
  · intro h hmem
    obtain ⟨v₁, v₂, rfl, hfirst⟩ := List.eq_append_cons_of_mem hmem
    have hv₁ : v₁ ≠ [] := by
      rintro rfl
      exact (hends.1 60 rfl).2.2.1 rfl
    refine not_reportsValue n k hv₁ (fun b hb => ⟨hquote b (List.mem_append_left _ hb), ?_⟩)
      (begins_open _) h
    rintro rfl
    exact hfirst hb
  · intro h
    refine (reportsValue_iff_trim n k (fun b hb => ⟨hquote b hb, ?_⟩) fun hlast => ?_).2 ?_
    · rintro rfl
      exact h hb
    · exact (hv 92 (List.mem_of_getLast? hlast)).2.1 rfl
    · rw [trim_eq_self_iff]
      refine ⟨fun b hb => ?_, fun _ b hb => ?_⟩
      · obtain ⟨hspace, heq, hlt, -⟩ := hends.1 b hb
        obtain ⟨-, -, hdouble, hsingle⟩ := hv b (List.mem_of_head? hb)
        simp [isLtrim, *]
      · obtain ⟨hspace, heq, -, hgt⟩ := hends.2 b hb
        obtain ⟨-, -, hdouble, hsingle⟩ := hv b (List.mem_of_getLast? hb)
        simp [isRtrim, *]

/-- `<esi:a k="b"/>` -/
theorem reportsValue_iff_not_mem_letter :
    ReportsValue ⟨[97], by decide +kernel⟩ ⟨107, [], by decide +kernel, by simp⟩ .double [98] ↔
      (60 : UInt8) ∉ [98] :=
  reportsValue_iff_not_mem _ _ .double [98] (by decide +kernel) (by decide +kernel)

/-- In `<esi:a k="a<b"/>` the value reported is `b`. -/
theorem markup_is_not_data : ¬ ∀ (n : Letters) (k : AttrKey) (q : Quote) (v : Bytes), v ≠ [] →
    (∀ b ∈ v, b ≠ 0 ∧ b ≠ 92 ∧ b ≠ 34 ∧ b ≠ 39) → KeptEnds v → ReportsValue n k q v := by
  intro h
  let n : Letters := ⟨[97], by decide +kernel⟩
  let k : AttrKey := ⟨107, [], by decide, by simp⟩
  have hvalue := h n k .double [97, 60, 98] (by decide +kernel) (by decide +kernel)
    (by decide +kernel)
  have hrun : (ESIParser.parse [valueTag n k .double [97, 60, 98]]).map
      (fun c => tagCalls c.out.callbacks) =
        .ok [.startTag [101, 115, 105, 58, 97] [⟨[107], [98]⟩], .endTag [101, 115, 105, 58, 97]] := by
    decide +kernel
  exact absurd (hvalue.eq_of_run hrun) (by decide)

/-! ## Escaped quotes -/

/-- `[a-zA-Z0-9]`. -/
def isAlnum (c : UInt8) : Bool := isLower c || (65 ≤ c && c ≤ 90) || (48 ≤ c && c ≤ 57)

/-- A letter or a digit, or a backslash and the quote. -/
inductive Piece where
  | char (c : { b : UInt8 // isAlnum b = true })
  | escape

def Piece.render (q : Quote) : Piece → Bytes
  | char c => [c.1]
  | escape => [92, q.byte]

theorem alnum_kept (q : Quote) : ∀ b : UInt8, isAlnum b = true →
    b ≠ q.byte ∧ b ≠ 60 ∧ b ≠ 92 ∧ isLtrim b = false ∧ isRtrim b = false := by
  cases q
  · exact forall_byte (by decide +kernel)
  · exact forall_byte (by decide +kernel)

/-- Behind a backslash the quote ends a value. -/
theorem escaped_quote (q : Quote) : (q.escaped.list q.byte).keepsMark = false := by
  cases q <;> decide +kernel

/-- Letters and digits in front of the first escape. -/
theorem exists_first_escape {q : Quote} {pieces : List Piece} (h : Piece.escape ∈ pieces) :
    ∃ u w, (∀ b ∈ u, isAlnum b = true) ∧
      pieces.flatMap (Piece.render q) = u ++ [92] ++ q.byte :: w := by
  induction pieces with
  | nil => cases h
  | cons piece pieces ih =>
    cases piece with
    | escape => exact ⟨[], _, by simp, by rw [List.flatMap_cons]; rfl⟩
    | char c =>
      obtain ⟨u, w, hu, hw⟩ := ih (by simpa using h)
      refine ⟨c.1 :: u, w, List.forall_mem_cons.2 ⟨c.2, hu⟩, ?_⟩
      rw [List.flatMap_cons, hw]
      rfl

theorem isAlnum_of_not_mem {q : Quote} {pieces : List Piece} (h : Piece.escape ∉ pieces) :
    ∀ b ∈ pieces.flatMap (Piece.render q), isAlnum b = true := by
  intro b hb
  obtain ⟨piece, hpiece, hb⟩ := List.mem_flatMap.1 hb
  cases piece with
  | escape => exact absurd hpiece h
  | char c =>
    rw [List.mem_singleton.1 hb]
    exact c.2

/-- A value in which quotes are escaped is reported as written exactly when it has no escape. -/
theorem reportsValue_iff_not_escape (n : Letters) (k : AttrKey) (q : Quote) (pieces : List Piece) :
    ReportsValue n k q (pieces.flatMap (Piece.render q)) ↔ Piece.escape ∉ pieces := by
  constructor
  · intro h hmem
    obtain ⟨u, w, hu, hw⟩ := exists_first_escape (q := q) hmem
    rw [hw] at h
    refine not_reportsValue n k (by simp) (fun b hb => ?_) ?_ h
    · rcases List.mem_append.1 hb with hb | hb
      · obtain ⟨hquote, hlt, -⟩ := alnum_kept q b (hu b hb)
        exact ⟨hquote, hlt⟩
      · rw [List.mem_singleton.1 hb]
        cases q <;> decide
    · rw [List.getLast?_concat, if_pos rfl]
      exact escaped_quote q
  · intro h
    have hkept := fun b hb => alnum_kept q b (isAlnum_of_not_mem (q := q) h b hb)
    refine (reportsValue_iff_trim n k (fun b hb => ⟨(hkept b hb).1, (hkept b hb).2.1⟩)
      fun hlast => ?_).2 ?_
    · exact (hkept 92 (List.mem_of_getLast? hlast)).2.2.1 rfl
    · rw [trim_eq_self_iff]
      exact ⟨fun b hb => (hkept b (List.mem_of_head? hb)).2.2.2.1,
        fun _ b hb => (hkept b (List.mem_of_getLast? hb)).2.2.2.2⟩

/-- In `<esi:a k="b\"c"/>` the attribute is reported twice, as `b\` and as `c`. -/
theorem escape_ends_value : ¬ ∀ (n : Letters) (k : AttrKey) (q : Quote) (pieces : List Piece),
    (∃ c, pieces.head? = some (.char c)) → (∃ c, pieces.getLast? = some (.char c)) →
    ReportsValue n k q (pieces.flatMap (Piece.render q)) := by
  intro h
  let n : Letters := ⟨[97], by decide +kernel⟩
  let k : AttrKey := ⟨107, [], by decide, by simp⟩
  have hvalue := h n k .double [.char ⟨98, rfl⟩, .escape, .char ⟨99, rfl⟩] ⟨_, rfl⟩ ⟨_, rfl⟩
  have hrun : (ESIParser.parse [valueTag n k .double [98, 92, 34, 99]]).map
      (fun c => tagCalls c.out.callbacks) =
        .ok [.startTag [101, 115, 105, 58, 97] [⟨[107], [98, 92]⟩, ⟨[107], [99]⟩],
          .endTag [101, 115, 105, 58, 97]] := by
    decide +kernel
  exact absurd (hvalue.eq_of_run hrun) (by decide)

/-! ## Values as written -/

/-- A value without markup and escapes is reported byte for byte, exactly when it does not begin or
end in a byte that is trimmed.  A value of one byte is trimmed on the left only. -/
theorem reportsValue_iff_ends (n : Letters) (k : AttrKey) (q : Quote) (v : Bytes)
    (hv : ∀ b ∈ v, b ≠ 0 ∧ b ≠ 34 ∧ b ≠ 39 ∧ b ≠ 60 ∧ b ≠ 92) :
    ReportsValue n k q v ↔
      (∀ b ∈ v.head?, isspace b = false ∧ b ≠ 61) ∧
        (2 ≤ v.length → ∀ b ∈ v.getLast?, isspace b = false ∧ b ≠ 61 ∧ b ≠ 62) := by
  have hquote : ∀ b ∈ v, b ≠ q.byte ∧ b ≠ 60 := by
    intro b hb
    obtain ⟨-, hdouble, hsingle, hlt, -⟩ := hv b hb
    exact ⟨q.ne_byte hdouble hsingle, hlt⟩
  have hlast : v.getLast? ≠ some 92 :=
    fun h => (hv 92 (List.mem_of_getLast? h)).2.2.2.2 rfl
  rw [reportsValue_iff_trim n k hquote hlast, trim_eq_self_iff]
  refine and_congr (forall₂_congr fun b hb => ?_) (imp_congr_right fun _ => forall₂_congr fun b hb => ?_)
  · obtain ⟨-, hdouble, hsingle, hlt, -⟩ := hv b (List.mem_of_head? hb)
    simp [isLtrim, *]
  · obtain ⟨-, hdouble, hsingle, -, -⟩ := hv b (List.mem_of_getLast? hb)
    simp [isRtrim, and_assoc, *]

/-- `<esi:a k="b"/>` -/
theorem reportsValue_iff_ends_letter :
    ReportsValue ⟨[97], by decide +kernel⟩ ⟨107, [], by decide +kernel, by simp⟩ .double [98] ↔
      (∀ b ∈ [98].head?, isspace b = false ∧ b ≠ 61) ∧
        (2 ≤ [98].length → ∀ b ∈ [98].getLast?, isspace b = false ∧ b ≠ 61 ∧ b ≠ 62) :=
  reportsValue_iff_ends _ _ .double [98] (by decide +kernel)

/-- In `<esi:a k="b="/>` the value reported is `b`. -/
theorem value_is_trimmed : ¬ ∀ (n : Letters) (k : AttrKey) (q : Quote) (v : Bytes),
    (∀ b ∈ v, b ≠ 0 ∧ b ≠ 34 ∧ b ≠ 39 ∧ b ≠ 60 ∧ b ≠ 92) → ReportsValue n k q v := by
  intro h
  let n : Letters := ⟨[97], by decide +kernel⟩
  let k : AttrKey := ⟨107, [], by decide, by simp⟩
  have hvalue := h n k .double [98, 61] (by decide +kernel)
  have hrun : (ESIParser.parse [valueTag n k .double [98, 61]]).map
      (fun c => tagCalls c.out.callbacks) =
        .ok [.startTag [101, 115, 105, 58, 97] [⟨[107], [98]⟩], .endTag [101, 115, 105, 58, 97]] := by
    decide +kernel
  exact absurd (hvalue.eq_of_run hrun) (by decide)

end NginxEsi
