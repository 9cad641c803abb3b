import NginxEsi.Overflow

/-!
# Pointers across calls

`mark` and `attr_key` are set in one call and used in a later one, after the overflow data has been
moved, and they are left dangling when it is freed.  Whenever an action uses one of them it lies in
the buffer being scanned, at or before the position (`pointers_valid`), as long as no offset leaves
the range of `int`.
-/

namespace NginxEsi

/-- How far behind `mark` the text starts that the list measures. -/
def ActionList.fromMark : ActionList → Option ℕ
  | .f2 => some 2
  | .f3 => some 1
  | .f4 | .f6 | .f7 | .f11 => some 0
  | _ => none

/-- The list reads `attr_key`. -/
def ActionList.usesKey : ActionList → Bool
  | .f7 | .f11 => true
  | _ => false

/-- The mark is in use, and the text behind it is long enough. -/
theorem fromMark_le {q : State} {s : Scanner} {f : ActionList} {k : ℕ}
    (hfinds : Finds q (Scanner.main f)) (hfits : (stage q).Fits s.since)
    (hne : q.marked = true → s.since ≠ []) (hk : f.fromMark = some k) :
    q.marked = true ∧ k < s.since.length := by
  have hpos : q.marked = true → 0 < s.since.length := fun h => List.length_pos_iff.2 (hne h)
  have hname : ∀ w, stage q = .name w → k < w.length → q.marked = true ∧ k < s.since.length := by
    intro w hw hlt
    rw [hw] at hfits
    obtain ⟨n, -, ht⟩ := hfits
    refine ⟨State.marked_of_stage hw, ?_⟩
    rw [ht, List.length_append]
    omega
  cases f with
  | f2 | f3 | f4 =>
    obtain rfl := Option.some.inj hk
    exact hname _ hfinds (by decide)
  | f6 =>
    obtain rfl := Option.some.inj hk
    exact ⟨hfinds, hpos hfinds⟩
  | f7 | f11 =>
    obtain rfl := Option.some.inj hk
    have hmarked := State.marked_of_keyed hfinds
    exact ⟨hmarked, hpos hmarked⟩
  | _ => cases hk

/-- A use of a pointer: the mark, `k` bytes before the text, or the attribute key. -/
theorem Linked.uses {o : Option Bytes} {v w : Bytes} {c : ESIParser} {s : Scanner} {b : UInt8}
    (h : Linked o v c s) :
    (∀ k, (c.cs.list b).fromMark = some k → ∃ i, c.mark = .at i ∧ i + k ≤ v.length ∧
      ∃ r, trimPointer ((v ++ b :: w).take (v.length + 1)) v.length (.at (i + k))
        (v.length - (i + k)) = .ok r) ∧
    ((c.cs.list b).usesKey = true → ∃ i, c.attrKey = .at i ∧ i + c.attrKeyLength ≤ v.length) := by
  have hfinds := (flow_transition s.cs b).finds
  change Finds s.cs (Scanner.main (s.cs.list b)) at hfinds
  rw [h.same.cs]
  constructor
  · intro k hk
    obtain ⟨hmarked, hlt⟩ := fromMark_le hfinds h.inv.fits
      (fun hq => h.inv.since_ne (State.idle_of_marked hq)) hk
    obtain ⟨a, hu, hmark⟩ := h.points.mark hmarked
    have hlen : (s.since.drop k).length = v.length - (a.length + k) := by
      rw [List.length_drop, hu, List.length_append]
      omega
    have hne : s.since.drop k ≠ [] := by
      rw [← List.length_pos_iff, List.length_drop]
      omega
    have htake : (v ++ b :: w).take (v.length + 1) = v ++ [b] := by
      rw [List.take_length_add_append]
      rfl
    obtain ⟨j, hj, -⟩ := trimPointer_eq b [] (standsAt_mark hu hlt.le) (fun h => absurd h hne)
    refine ⟨a.length, hmark, ?_, (.at j, (trim (s.since.drop k)).length), ?_⟩
    · rw [hu, List.length_append]
      omega
    · rw [htake, ← hlen]
      exact hj
  · intro hkey
    have hkeyed : s.cs.keyed = true := by
      revert hfinds hkey
      cases s.cs.list b <;> simp [ActionList.usesKey, Scanner.main, Finds]
    obtain ⟨i, hi, hlen, hs⟩ := h.points.attrKey hkeyed
    exact ⟨i, hi, hlen ▸ hs.le⟩

namespace ESIParser

/-- In a run below 2 GiB, the fields between two calls are as they should be, and every pointer that
an action uses lies in the buffer being scanned, at or before the position; so does every byte that
the trimming reads. -/
theorem pointers_valid (chunks : List Bytes) (h : chunks.flatten.length < 2 ^ 31) :
    (∀ done later c, chunks = done ++ later → new.executeAll done = .ok c →
      c.prevState = c.cs ∧ (c.overflowData ≠ none ↔ c.cs ≠ .s0 ∧ c.cs ≠ esiStart) ∧
        ∀ o, c.overflowData = some o → Since done o) ∧
    ∀ done chunk later u b v data p m, chunks = done ++ chunk :: later → chunk = u ++ b :: v →
      ReachesAt done chunk u data p m → p < data.length ∧
        (∀ k, (m.cs.list b).fromMark = some k → ∃ i, m.mark = .at i ∧ i + k ≤ p ∧
          ∃ r, trimPointer (data.take (p + 1)) p (.at (i + k)) (p - (i + k)) = .ok r) ∧
        ((m.cs.list b).usesKey = true → ∃ i, m.attrKey = .at i ∧ i + m.attrKeyLength ≤ p) := by
  constructor
  · rintro done later c - hc
    have hsaved := executeAll_saved hc
    refine ⟨hsaved.prevState, ?_, fun o ho => ?_⟩
    · rw [ne_eq, hsaved.overflowData, idle_eq_true, not_not, and_comm]
    · have hsince := executeAll_since hc
      rwa [ho] at hsince
  · rintro done chunk later u b v data p m rfl rfl hreach
    have hlen : (done ++ [u ++ b :: v]).flatten.length < 2 ^ 31 := by
      simp only [List.flatten_append, List.flatten_cons, List.flatten_nil, List.length_append,
        List.length_nil] at h ⊢
      omega
    obtain ⟨o, pre, s, rfl, hdata, -, hlinked⟩ := hreach.linked (inRange_of_length hlen)
    obtain rfl := hdata (b :: v) rfl
    refine ⟨?_, hlinked.uses⟩
    rw [List.length_append, List.length_cons]
    omega

/-- `</esi:a>` in two chunks, up to its last byte. -/
theorem pointers_valid_split :
    (∃ c, new.executeAll [[60, 47, 101, 115, 105, 58]] = .ok c ∧
      c.prevState = c.cs ∧ (c.overflowData ≠ none ↔ c.cs ≠ .s0 ∧ c.cs ≠ esiStart) ∧
        ∀ o, c.overflowData = some o → Since [[60, 47, 101, 115, 105, 58]] o) ∧
    ∃ data p m, ReachesAt [[60, 47, 101, 115, 105, 58]] [97, 62] [97] data p m ∧
      p < data.length ∧
        (∀ k, (m.cs.list 62).fromMark = some k → ∃ i, m.mark = .at i ∧ i + k ≤ p ∧
          ∃ r, trimPointer (data.take (p + 1)) p (.at (i + k)) (p - (i + k)) = .ok r) ∧
        ((m.cs.list 62).usesKey = true → ∃ i, m.attrKey = .at i ∧ i + m.attrKeyLength ≤ p) := by
  have h := pointers_valid [[60, 47, 101, 115, 105, 58], [97, 62]] (by decide)
  have hreach : ReachesAt [[60, 47, 101, 115, 105, 58]] [97, 62] [97] _ _ _ :=
    ⟨_, _, _, rfl, by simp, fun h => (by cases h.1), rfl, ⟨[62], rfl⟩, rfl, rfl⟩
  exact ⟨⟨_, rfl, h.1 [[60, 47, 101, 115, 105, 58]] [[97, 62]] _ rfl rfl⟩, _, _, _, hreach,
    h.2 [[60, 47, 101, 115, 105, 58]] [97, 62] [] [97] 62 [] _ _ _ rfl rfl hreach⟩

end ESIParser

end NginxEsi
