import Mathlib.Computability.NFA
import Mathlib.Order.CompletePartialOrder

/-!
# Automata and the languages in front of their states

An automaton is given by the arrows out of each state, each labelled with a class of letters.  The
words that lead to a state form a language, and these languages solve the right-linear equations of
the arrows: whatever solves the equations is what leads to the states (`Solves.mem_iff`).  A table
with one entry for each state and letter `Tracks` the automaton when each of its states knows the
set of states that the automaton may be in.
-/

namespace Automaton

open Computability

variable {α σ τ : Type}

/-! ## The last letter of a word -/

/-- The words of one letter of a class. -/
def letter (c : α → Bool) : Language α := {w | ∃ a, c a = true ∧ w = [a]}

section Letters

variable {c d : α → Bool} {L M : Language α} {w : List α} {a : α}

theorem nil_notMem_mul_letter : [] ∉ L * letter c := by
  rw [Language.mem_mul]
  rintro ⟨u, -, v, ⟨b, -, rfl⟩, huv⟩
  simp at huv

theorem concat_mem_mul_letter : w ++ [a] ∈ L * letter c ↔ w ∈ L ∧ c a = true := by
  rw [Language.mem_mul]
  constructor
  · rintro ⟨u, hu, v, ⟨b, hb, rfl⟩, huv⟩
    obtain ⟨rfl, rfl⟩ := List.append_singleton_inj.1 huv
    exact ⟨hu, hb⟩
  · rintro ⟨hw, ha⟩
    exact ⟨w, hw, [a], ⟨a, ha, rfl⟩, rfl⟩

/-- A repetition behind a language ends in its last round. -/
theorem mul_kstar (L M : Language α) : L * M∗ = L + L * M∗ * M := by
  rw [mul_assoc]
  nth_rewrite 1 [← Language.one_add_kstar_mul_self_eq_kstar M]
  rw [mul_add, mul_one]

theorem letter_mono (h : ∀ a, c a = true → d a = true) : letter c ≤ letter d := by
  rintro w ⟨a, ha, rfl⟩
  exact ⟨a, h a ha, rfl⟩

/-- A repetition in front of a weaker one is idle. -/
theorem kstar_mul_kstar_of_le (h : L ≤ M) : L∗ * M∗ = M∗ := by
  apply le_antisymm
  · exact (mul_le_mul_left (kstar_mono h) M∗).trans (kstar_mul_kstar M).le
  · exact le_mul_of_one_le_left' one_le_kstar

end Letters

/-! ## Arrows -/

/-- The arrows out of each state. -/
abbrev Arrows (α σ : Type) := σ → List ((α → Bool) × σ)

namespace Arrows

variable (arrows : Arrows α σ) (start : σ)

/-- There is an arrow that reads `a`. -/
def Leads (p : σ) (a : α) (q : σ) : Prop := ∃ e ∈ arrows p, e.1 a = true ∧ e.2 = q

/-- The states that the arrows lead to. -/
def targets (p : σ) (a : α) : List σ := ((arrows p).filter fun e => e.1 a).map Prod.snd

theorem mem_targets {p q : σ} {a : α} : q ∈ arrows.targets p a ↔ arrows.Leads p a q := by
  simp [targets, Leads, and_assoc]

/-- Letters that belong to the same classes lead to the same states. -/
theorem leads_congr {p q : σ} {a b : α} (h : ∀ e ∈ arrows p, e.1 a = e.1 b) :
    arrows.Leads p a q ↔ arrows.Leads p b q := by
  simp only [← mem_targets, targets, List.filter_congr h]

def nfa : NFA α σ where
  step p a := {q | arrows.Leads p a q}
  start := {start}
  accept := ∅

/-- One language for each state, so that a word belongs to the language of a state exactly when an
arrow with its last letter leads there from a state whose language has the rest. -/
structure Solves (L : σ → Language α) : Prop where
  nil : ∀ q, [] ∈ L q ↔ q = start
  concat : ∀ q w a, w ++ [a] ∈ L q ↔ ∃ p, w ∈ L p ∧ arrows.Leads p a q

/-- A deterministic table whose states know where the automaton may be. -/
structure Tracks (next : τ → α → τ) (t₀ : τ) (states : τ → List σ) : Prop where
  start : ∀ q, q ∈ states t₀ ↔ q = start
  next : ∀ t a q, q ∈ states (next t a) ↔ ∃ p ∈ states t, arrows.Leads p a q

variable {arrows start}

/-- The languages of a solution are the words that lead to the states. -/
theorem Solves.mem_iff {L : σ → Language α} (h : arrows.Solves start L) (w : List α) (q : σ) :
    w ∈ L q ↔ q ∈ (arrows.nfa start).eval w := by
  induction w using List.reverseRecOn generalizing q with
  | nil => exact h.nil q
  | append_singleton w a ih =>
    rw [h.concat, NFA.eval_append_singleton, NFA.mem_stepSet]
    exact exists_congr fun p => and_congr_left' (ih p)

theorem Tracks.mem_iff {next : τ → α → τ} {t₀ : τ} {states : τ → List σ}
    (h : arrows.Tracks start next t₀ states) (w : List α) (q : σ) :
    q ∈ states (w.foldl next t₀) ↔ q ∈ (arrows.nfa start).eval w := by
  induction w using List.reverseRecOn generalizing q with
  | nil => exact h.start q
  | append_singleton w a ih =>
    rw [List.foldl_append, List.foldl_cons, List.foldl_nil, h.next, NFA.eval_append_singleton,
      NFA.mem_stepSet]
    exact exists_congr fun p => and_congr_left' (ih p)

/-- A table is checked on one letter of each kind: on letters of a kind it goes to the same state,
and they belong to the same classes. -/
theorem Tracks.of_samples {next : τ → α → τ} {t₀ : τ} {states : τ → List σ} (sample : α → α)
    (hstart : ∀ q, q ∈ states t₀ ↔ q = start) (hnext : ∀ t a, next t a = next t (sample a))
    (harrows : ∀ p a, ∀ e ∈ arrows p, e.1 a = e.1 (sample a))
    (hsub : ∀ t a, ∀ p ∈ states t, arrows.targets p (sample a) ⊆ states (next t (sample a)))
    (hsup : ∀ t a, ∀ q ∈ states (next t (sample a)),
      ∃ p ∈ states t, q ∈ arrows.targets p (sample a)) :
    arrows.Tracks start next t₀ states where
  start := hstart
  next t a q := by
    rw [hnext]
    constructor
    · intro hq
      obtain ⟨p, hp, hpq⟩ := hsup t a q hq
      exact ⟨p, hp, (arrows.leads_congr (harrows p a)).2 (arrows.mem_targets.1 hpq)⟩
    · rintro ⟨p, hp, hpq⟩
      exact hsub t a p hp (arrows.mem_targets.2 ((arrows.leads_congr (harrows p a)).1 hpq))

/-- The table knows the languages. -/
theorem Tracks.mem_iff_mem {next : τ → α → τ} {t₀ : τ} {states : τ → List σ} {L : σ → Language α}
    (h : arrows.Tracks start next t₀ states) (hL : arrows.Solves start L) (w : List α) (q : σ) :
    q ∈ states (w.foldl next t₀) ↔ w ∈ L q := by
  rw [h.mem_iff, hL.mem_iff]

end Arrows

end Automaton
