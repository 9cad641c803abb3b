import NginxEsi.BareTags
import NginxEsi.Genuine
import NginxEsi.Provenance

/-!
# Attribute names

What a start handler is told as the name of an attribute is an `attr_key` of the grammar, whatever
the document is, and its value has nothing left to trim (`attributes_wellFormed`).  White space and
the quote of the value before are all that can stand between the mark and a key, also in the copies
of the states inside a value, and trimming takes them away.
-/

namespace NginxEsi

open BranchTable

/-- Inside a key, in the main loop and in the values. -/
def State.inKey : State → Bool
  | .s15 | .s23 | .s42 | .s50 => true
  | _ => false

def isKeyStartGuard : Guard → Bool
  | .single n => n == 95 || n == 45
  | .range lo hi => 65 ≤ lo && hi ≤ 90 || 97 ≤ lo && hi ≤ 122
  | .other => false

def isKeyCharGuard : Guard → Bool
  | .range lo hi => 48 ≤ lo && hi ≤ 57 || isKeyStartGuard (.range lo hi)
  | g => isKeyStartGuard g

theorem isKeyStart_of_guard {g : Guard} {b : UInt8} (hg : g.Holds b.toNat)
    (h : isKeyStartGuard g = true) : isKeyStart b = true := by
  cases g with
  | single n =>
    obtain rfl := Guard.eq_ofNat_of_holds hg
    simp only [isKeyStartGuard, Bool.or_eq_true, beq_iff_eq] at h
    rcases h with rfl | rfl
    · rfl
    · rfl
  | range lo hi =>
    obtain ⟨hlo, hhi⟩ := hg
    simp only [isKeyStartGuard, Bool.or_eq_true, Bool.and_eq_true, decide_eq_true_eq] at h
    simp only [isKeyStart, isLower, Bool.or_eq_true, Bool.and_eq_true, decide_eq_true_eq,
      UInt8.le_iff_toNat_le]
    rcases h with ⟨h₁, h₂⟩ | ⟨h₁, h₂⟩
    · exact .inl (.inl (.inr ⟨h₁.trans hlo, hhi.trans h₂⟩))
    · exact .inl (.inl (.inl ⟨h₁.trans hlo, hhi.trans h₂⟩))
  | other => cases h

theorem isKeyChar_of_guard {g : Guard} {b : UInt8} (hg : g.Holds b.toNat)
    (h : isKeyCharGuard g = true) : isKeyChar b = true := by
  rw [isKeyChar, Bool.or_eq_true]
  cases g with
  | single n => exact .inl (isKeyStart_of_guard hg h)
  | range lo hi =>
    rw [isKeyCharGuard, Bool.or_eq_true] at h
    rcases h with h | h
    · obtain ⟨hlo, hhi⟩ := hg
      simp only [Bool.and_eq_true, decide_eq_true_eq] at h
      refine .inr ?_
      simp only [Bool.and_eq_true, decide_eq_true_eq, UInt8.le_iff_toNat_le]
      exact ⟨h.1.trans hlo, hhi.trans h.2⟩
    · exact .inl (isKeyStart_of_guard hg h)
  | other => cases h

theorem isLtrim_of_isGap {b : UInt8} (h : IsGap b) : isLtrim b = true := by
  rcases h with h | rfl | rfl
  · exact Scanner.isLtrim_of_isspace h
  · rfl
  · rfl

/-- What an edge of the table says about the keys. -/
structure KeyEdge (s : State) (g : Guard) (cs : State) (f : ActionList) : Prop where
  inside : cs.inside = true → isGapGuard g = true ∧ (f.keepsMark = true → s.inside = true)
  inKey : cs.inKey = true → f.keepsMark = true ∧
    (s.inside = true ∧ isKeyStartGuard g = true ∨ s.inKey = true ∧ isKeyCharGuard g = true)
  ends : f = .f6 → s.inKey = true

instance (s : State) (g : Guard) (cs : State) (f : ActionList) : Decidable (KeyEdge s g cs f) :=
  decidable_of_iff
    ((cs.inside = true → isGapGuard g = true ∧ (f.keepsMark = true → s.inside = true)) ∧
      (cs.inKey = true → f.keepsMark = true ∧
        (s.inside = true ∧ isKeyStartGuard g = true ∨ s.inKey = true ∧ isKeyCharGuard g = true)) ∧
      (f = .f6 → s.inKey = true))
    ⟨fun ⟨h₁, h₂, h₃⟩ => ⟨h₁, h₂, h₃⟩, fun h => ⟨h.1, h.2, h.3⟩⟩

theorem keyEdge_edges : ∀ s, ∀ e ∈ (row s).edges, KeyEdge s e.1 e.2.goto.1 e.2.goto.2 := by
  decide +kernel

theorem keyEdge_transition (s : State) (b : UInt8) :
    ∃ g : Guard, g.Holds b.toNat ∧ KeyEdge s g (s.next b) (s.list b) :=
  forall_transition (P := fun s g t => KeyEdge s g t.goto.1 t.goto.2) keyEdge_edges s b

/-- One more byte in a key. -/
def AttrKey.push (k : AttrKey) (b : { b : UInt8 // isKeyChar b = true }) : AttrKey where
  first := k.first
  others := k.others ++ [b.1]
  isKeyStart_first := k.isKeyStart_first
  isKeyChar_others := List.forall_mem_append.2
    ⟨k.isKeyChar_others, List.forall_mem_singleton.2 b.2⟩

theorem AttrKey.push_render (k : AttrKey) (b : { b : UInt8 // isKeyChar b = true }) :
    (k.push b).render = k.render ++ [b.1] := rfl

/-- The name is a key of the grammar, and nothing is left to trim off the value. -/
structure ESIAttribute.WellFormed (a : ESIAttribute) : Prop where
  name : ∃ k : AttrKey, a.name = k.render
  value : trim a.value = a.value

/-- What is trimmed once is trimmed. -/
theorem trim_trim (t : Bytes) : trim (trim t) = trim t := by
  have hleft : trimLeft (trimLeft t) = trimLeft t := List.dropWhile_idempotent isLtrim t
  rw [trim, trim]
  cases h : trimLeft t with
  | nil => rfl
  | cons c u =>
    have hc : isLtrim c = false := by
      rw [Bool.eq_false_iff]
      intro hc
      rw [h] at hleft
      have hlen := congrArg List.length hleft
      rw [trimLeft, List.dropWhile_cons_of_pos hc] at hlen
      have hle := (List.dropWhile_suffix (p := isLtrim) (l := u)).length_le
      rw [List.length_cons] at hlen
      omega
    rw [trimRight, trimLeft_cons_of_not hc, trimRight, List.rdropWhile_idempotent]

theorem State.keyed_of_collects {q : State} {b : UInt8} (h : (q.list b).collects = true) :
    q.keyed = true := by
  have hfinds : Finds q (Scanner.main (q.list b)) := (flow_transition q b).finds
  cases hf : q.list b with
  | f7 | f11 =>
    rw [hf] at hfinds
    exact hfinds
  | _ =>
    rw [hf] at h
    cases h

/-! ## The key that is being read -/

/-- What the state says about the text `t` since the mark. -/
structure ReadsKey (q : State) (t : Bytes) : Prop where
  inside : q.inside = true → ∀ b ∈ t, isLtrim b = true
  inKey : q.inKey = true → ∃ (w : Bytes) (k : AttrKey), t = w ++ k.render ∧
    ∀ b ∈ w, isLtrim b = true

theorem ReadsKey.next {q : State} {t : Bytes} (h : ReadsKey q t) (b : UInt8) :
    ReadsKey (q.next b) ((if (q.list b).keepsMark then t else []) ++ [b]) := by
  obtain ⟨g, hg, hedge⟩ := keyEdge_transition q b
  refine ⟨fun hinside => ?_, fun hkey => ?_⟩
  · obtain ⟨hgap, hsource⟩ := hedge.inside hinside
    refine List.forall_mem_append.2 ⟨?_, List.forall_mem_singleton.2 ?_⟩
    · split_ifs with hmark
      · exact h.inside (hsource hmark)
      · exact List.forall_mem_nil _
    · exact isLtrim_of_isGap (isGap_of_isGapGuard hg hgap)
  · obtain ⟨hmark, hsource⟩ := hedge.inKey hkey
    rw [if_pos hmark]
    rcases hsource with ⟨hinside, hstart⟩ | ⟨hinKey, hchar⟩
    · exact ⟨t, ⟨b, [], isKeyStart_of_guard hg hstart, List.forall_mem_nil _⟩, rfl,
        h.inside hinside⟩
    · obtain ⟨w, k, rfl, hw⟩ := h.inKey hinKey
      refine ⟨w, k.push ⟨b, isKeyChar_of_guard hg hchar⟩, ?_, hw⟩
      rw [AttrKey.push_render, List.append_assoc]

namespace Scanner

variable {d : Bytes} {s s' : Scanner} {b : UInt8}

/-- The key that is being read, and the one that was read last. -/
structure KeepsKey (s : Scanner) : Prop where
  reads : ReadsKey s.cs s.since
  key : s.cs.keyed = true → ∃ k : AttrKey, s.key = k.render

theorem keepsKey_new : ({} : Scanner).KeepsKey where
  reads := ⟨fun h => (by cases h), fun h => (by cases h)⟩
  key h := by cases h

theorem KeepsKey.feed (hs : s.KeepsKey) (h : s.feed b = .ok s') : s'.KeepsKey := by
  have hflow := flow_transition s.cs b
  obtain ⟨g, -, hedge⟩ := keyEdge_transition s.cs b
  constructor
  · rw [feed_cs h, feed_since h]
    exact hs.reads.next b
  · intro hkeyed
    rw [feed_cs h] at hkeyed
    rw [feed_key h]
    split_ifs with hf
    · obtain ⟨w, k, hsince, hw⟩ := hs.reads.inKey (hedge.ends hf)
      exact ⟨k, by rw [hsince, trim_append hw, trim_key]⟩
    · exact hs.key (hflow.key hkeyed hf)

/-- Every attribute collected or reported is well formed. -/
theorem feedAll_wellFormed (h : ({} : Scanner).feedAll d = .ok s) :
    s.KeepsKey ∧ s.Recorded ESIAttribute.WellFormed := by
  refine Run.invariant (I := fun _ s => s.KeepsKey ∧ s.Recorded ESIAttribute.WellFormed)
    (fun _ s _ _ hs h => ?_) (u := []) ⟨keepsKey_new, ?_, ?_⟩ h
  · refine ⟨hs.1.feed h, hs.2.feed h fun hcollects => ?_⟩
    exact ⟨hs.1.key (State.keyed_of_collects hcollects), trim_trim s.since⟩
  · exact fun a ha => (by cases ha)
  · exact fun name as hmem => (by cases hmem)

end Scanner

namespace ESIParser

/-- However a document is cut into chunks, and also if the run ends in a fault, every attribute that
a start handler is told is well formed. -/
theorem attributes_wellFormed (chunks : List Bytes) (hlen : chunks.flatten.length < 2 ^ 31)
    (name : Bytes) (as : List ESIAttribute)
    (hmem : .startTag name as ∈ callbacksOf (parse chunks)) (a : ESIAttribute) (ha : a ∈ as) :
    a.WellFormed :=
  parse_reported (P := fun _ => ESIAttribute.WellFormed) (fun _ _ _ h => h)
    (fun _ _ h => (Scanner.feedAll_wellFormed h).2) hlen hmem a ha

/-- `<esi:a b='<esi:c d="e"/>`, cut inside the inner tag. -/
theorem attributes_wellFormed_inner : ESIAttribute.WellFormed ⟨[100], [101]⟩ :=
  attributes_wellFormed
    [[60, 101, 115, 105, 58, 97, 32, 98, 61, 39, 60, 101, 115, 105],
      [58, 99, 32, 100, 61, 34, 101, 34, 47, 62]]
    (by decide) [101, 115, 105, 58, 99] [⟨[100], [101]⟩] (by decide +kernel) _
    (List.mem_singleton_self _)

end ESIParser

end NginxEsi
