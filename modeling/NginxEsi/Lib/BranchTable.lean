import Mathlib.Data.List.Find

/-!
# Branch tables of generated scanners

A state of a generated scanner branches on the code of the next byte: first a list of single
codes, then a list of ranges, then everything else.  `Row.select` runs a row, and
`Row.select_mem_edges` says that whatever it selects stands in the finite list `Row.edges`, next to
a guard that the byte satisfies.  A property of all transitions is therefore checked on the edges,
without enumerating the bytes.
-/

namespace BranchTable

/-- One row: single codes, then ranges, then the default. -/
structure Row (τ : Type) where
  singles : List (ℕ × τ)
  ranges : List (ℕ × ℕ × τ)
  other : τ

/-- Why a target was selected. -/
inductive Guard where
  | single (code : ℕ)
  | range (lo hi : ℕ)
  | other
  deriving DecidableEq

/-- The bytes that a guard lets through; the default row keeps no record of what it excludes. -/
def Guard.Holds : Guard → ℕ → Prop
  | .single code, c => c = code
  | .range lo hi, c => lo ≤ c ∧ c ≤ hi
  | .other, _ => True

/-- The byte at a guard for a single code. -/
theorem Guard.eq_ofNat_of_holds {n : ℕ} {b : UInt8} (h : (Guard.single n).Holds b.toNat) :
    b = UInt8.ofNat n := by
  rw [← (show b.toNat = n from h), UInt8.ofNat_toNat]

namespace Row

variable {τ : Type}

/-- The target of the code `c`. -/
def select (r : Row τ) (c : ℕ) : τ :=
  match r.singles.find? fun e => e.1 == c with
  | some e => e.2
  | none =>
    match r.ranges.find? fun e => e.1.ble c && c.ble e.2.1 with
    | some e => e.2.2
    | none => r.other

/-- All targets of the row, each with its guard. -/
def edges (r : Row τ) : List (Guard × τ) :=
  r.singles.map (fun e => (.single e.1, e.2)) ++
    r.ranges.map (fun e => (.range e.1 e.2.1, e.2.2)) ++ [(.other, r.other)]

theorem select_mem_edges (r : Row τ) (c : ℕ) :
    ∃ g, (g, r.select c) ∈ r.edges ∧ g.Holds c := by
  unfold select edges
  cases hs : r.singles.find? fun e => e.1 == c with
  | some e =>
    refine ⟨.single e.1, ?_, ?_⟩
    · exact List.mem_append_left _ (List.mem_append_left _
        (List.mem_map.2 ⟨e, List.mem_of_find?_eq_some hs, rfl⟩))
    · have hc := List.find?_some hs
      exact (beq_iff_eq.1 hc).symm
  | none =>
    cases hr : r.ranges.find? fun e => e.1.ble c && c.ble e.2.1 with
    | some e =>
      refine ⟨.range e.1 e.2.1, ?_, ?_⟩
      · exact List.mem_append_left _ (List.mem_append_right _
          (List.mem_map.2 ⟨e, List.mem_of_find?_eq_some hr, rfl⟩))
      · simpa [Guard.Holds, Nat.ble_eq] using List.find?_some hr
    | none => exact ⟨.other, List.mem_append_right _ (List.mem_singleton_self _), trivial⟩

/-- Codes that pass the same tests select the same target. -/
theorem select_congr {r : Row τ} {c d : ℕ} (hs : ∀ e ∈ r.singles, (e.1 == c) = (e.1 == d))
    (hr : ∀ e ∈ r.ranges, (e.1.ble c && c.ble e.2.1) = (e.1.ble d && d.ble e.2.1)) :
    r.select c = r.select d := by
  unfold select
  rw [List.find?_congr hs, List.find?_congr hr]

/-- A property of guards and targets that holds of every edge holds of every selection. -/
theorem forall_select {P : Guard → τ → Prop} {r : Row τ} (h : ∀ e ∈ r.edges, P e.1 e.2) (c : ℕ) :
    ∃ g : Guard, g.Holds c ∧ P g (r.select c) := by
  obtain ⟨g, hg, hc⟩ := r.select_mem_edges c
  exact ⟨g, hc, h _ hg⟩

end Row

end BranchTable
