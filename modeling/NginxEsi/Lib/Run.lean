import Mathlib.Data.List.Basic

/-!
# Runs of a step function that can fail

A run feeds a list of inputs to `step : σ → α → Except ε σ`; it is `List.foldlM`.  This file has
the rules that carry a property of one step to a whole run: invariants, which may mention the
inputs consumed so far, simulations, outcomes of two runs that agree (`Agree`), runs that a check
beside them stops (`Guards`), and conditions on every step of a run (`Each`).  A run of a step
function that cannot fail is `List.foldl`, and `Along` is the condition on each of its steps.  Where
the inputs come in chunks, `agree_flatten` compares the run over the chunks with the one over all
inputs.
-/

namespace Run

variable {σ τ α β ε : Type}

/-- Two outcomes agree: both runs failed in the same way, or both states are related. -/
inductive Agree (R : σ → τ → Prop) : Except ε σ → Except ε τ → Prop
  | ok {s : σ} {t : τ} (h : R s t) : Agree R (.ok s) (.ok t)
  | error (e : ε) : Agree R (.error e) (.error e)

theorem bind_ok {x : Except ε σ} {f : σ → Except ε τ} {t : τ} (h : x >>= f = .ok t) :
    ∃ s, x = .ok s ∧ f s = .ok t := by
  cases x with
  | error e => cases h
  | ok s => exact ⟨s, rfl, h⟩

theorem bind_error {x : Except ε σ} {f : σ → Except ε τ} {e : ε} (h : x >>= f = .error e) :
    x = .error e ∨ ∃ s, x = .ok s ∧ f s = .error e := by
  cases x with
  | error e' => exact .inl (congrArg Except.error (Except.error.inj h))
  | ok s => exact .inr ⟨s, rfl, h⟩

theorem map_ok {x : Except ε σ} {f : σ → τ} {t : τ} (h : x.map f = .ok t) :
    ∃ s, x = .ok s ∧ f s = t := by
  cases x with
  | error e => cases h
  | ok s => exact ⟨s, rfl, Except.ok.inj h⟩

instance decidableOk (x : Except ε σ) : Decidable (∃ s, x = .ok s) :=
  match x with
  | .ok s => .isTrue ⟨s, rfl⟩
  | .error _ => .isFalse fun ⟨_, h⟩ => by cases h

/-- What is computed from the final state of a successful run. -/
theorem of_map_ok {x : Except ε σ} {f : σ → τ} {s : σ} {t : τ} (hx : x = .ok s)
    (h : x.map f = .ok t) : f s = t := by
  obtain ⟨s', hs', ht⟩ := map_ok h
  obtain rfl : s = s' := Except.ok.inj (hx.symm.trans hs')
  exact ht

theorem mapError_ok {ε' : Type} {x : Except ε σ} {f : ε → ε'} {s : σ} (h : x.mapError f = .ok s) :
    x = .ok s := by
  cases x with
  | error e => cases h
  | ok t => exact congrArg Except.ok (Except.ok.inj h)

theorem mapError_error {ε' : Type} {x : Except ε σ} {f : ε → ε'} {e' : ε'}
    (h : x.mapError f = .error e') : ∃ e, x = .error e ∧ f e = e' := by
  cases x with
  | error e => exact ⟨e, rfl, Except.error.inj h⟩
  | ok t => cases h

theorem map_bind {ρ : Type} (x : Except ε σ) (f : σ → Except ε τ) (g : τ → ρ) :
    (x >>= f).map g = x >>= fun s => (f s).map g := by
  cases x <;> rfl

theorem bind_of_map {ρ : Type} (x : Except ε σ) (g : σ → τ) (f : τ → Except ε ρ) :
    x.map g >>= f = x >>= fun s => f (g s) := by
  cases x <;> rfl

theorem mapError_map {ε' : Type} (x : Except ε σ) (g : σ → τ) (f : ε → ε') :
    (x.map g).mapError f = (x.mapError f).map g := by
  cases x <;> rfl

theorem mapError_bind {ε' : Type} (x : Except ε σ) (g : σ → Except ε τ) (f : ε → ε') :
    (x >>= g).mapError f = x.mapError f >>= fun s => (g s).mapError f := by
  cases x <;> rfl

namespace Agree

variable {R : σ → τ → Prop}

theorem mono {S : σ → τ → Prop} {x : Except ε σ} {y : Except ε τ} (h : Agree R x y)
    (hRS : ∀ s t, R s t → S s t) : Agree S x y := by
  cases h with
  | ok h => exact .ok (hRS _ _ h)
  | error e => exact .error e

theorem bind {σ' τ' : Type} {R' : σ' → τ' → Prop} {x : Except ε σ} {y : Except ε τ}
    {f : σ → Except ε σ'} {g : τ → Except ε τ'} (h : Agree R x y)
    (hfg : ∀ s t, R s t → Agree R' (f s) (g t)) : Agree R' (x >>= f) (y >>= g) := by
  cases h with
  | ok h => exact hfg _ _ h
  | error e => exact .error e

theorem map {σ' τ' : Type} {R' : σ' → τ' → Prop} {x : Except ε σ} {y : Except ε τ} {f : σ → σ'}
    {g : τ → τ'} (h : Agree (fun s t => R' (f s) (g t)) x y) :
    Agree R' (x.map f) (y.map g) := by
  cases h with
  | ok h => exact .ok h
  | error e => exact .error e

theorem mapError {ε' : Type} {x : Except ε σ} {y : Except ε τ} (h : Agree R x y) (f : ε → ε') :
    Agree R (x.mapError f) (y.mapError f) := by
  cases h with
  | ok h => exact .ok h
  | error e => exact .error (f e)

theorem symm {x : Except ε σ} {y : Except ε τ} (h : Agree R x y) :
    Agree (fun t s => R s t) y x := by
  cases h with
  | ok h => exact .ok h
  | error e => exact .error e

theorem trans {ρ : Type} {S : τ → ρ → Prop} {x : Except ε σ} {y : Except ε τ} {z : Except ε ρ}
    (h : Agree R x y) (h' : Agree S y z) : Agree (fun s r => ∃ t, R s t ∧ S t r) x z := by
  cases h with
  | ok h =>
    cases h' with
    | ok h' => exact .ok ⟨_, h, h'⟩
  | error e =>
    cases h' with
    | error => exact .error e

/-- Where one run ends, the other one ends too. -/
theorem ok_left {x : Except ε σ} {y : Except ε τ} {s : σ} (h : Agree R x y) (hx : x = .ok s) :
    ∃ t, y = .ok t ∧ R s t := by
  subst hx
  cases h with
  | ok h => exact ⟨_, rfl, h⟩

theorem ok_right {x : Except ε σ} {y : Except ε τ} {t : τ} (h : Agree R x y) (hy : y = .ok t) :
    ∃ s, x = .ok s ∧ R s t :=
  h.symm.ok_left hy

theorem error_right {x : Except ε σ} {y : Except ε τ} {e : ε} (h : Agree R x y)
    (hy : y = .error e) : x = .error e := by
  subst hy
  cases h
  rfl

end Agree

section Invariants

variable {step : σ → α → Except ε σ}

theorem cons_ok {s s' : σ} {a : α} {l : List α} :
    (a :: l).foldlM step s = .ok s' ↔ ∃ m, step s a = .ok m ∧ l.foldlM step m = .ok s' := by
  rw [List.foldlM_cons]
  cases step s a with
  | error e => simp [Bind.bind, Except.bind]
  | ok m => simp [Bind.bind, Except.bind]

theorem append_ok {s s' : σ} {l₁ l₂ : List α} :
    (l₁ ++ l₂).foldlM step s = .ok s' ↔
      ∃ m, l₁.foldlM step s = .ok m ∧ l₂.foldlM step m = .ok s' := by
  rw [List.foldlM_append]
  cases l₁.foldlM step s with
  | error e => simp [Bind.bind, Except.bind]
  | ok m => simp [Bind.bind, Except.bind]

theorem append_of_ok {s m : σ} {l₁ l₂ : List α} (h : l₁.foldlM step s = .ok m) :
    (l₁ ++ l₂).foldlM step s = l₂.foldlM step m := by
  rw [List.foldlM_append, h]
  rfl

/-- One more step at the end. -/
theorem concat_ok {s s' : σ} {a : α} {l : List α} :
    (l ++ [a]).foldlM step s = .ok s' ↔ ∃ m, l.foldlM step s = .ok m ∧ step m a = .ok s' := by
  rw [append_ok]
  constructor
  · rintro ⟨m, hm, hlast⟩
    obtain ⟨m', hm', hend⟩ := cons_ok.1 hlast
    obtain rfl := Except.ok.inj hend
    exact ⟨m, hm, hm'⟩
  · rintro ⟨m, hm, ha⟩
    exact ⟨m, hm, cons_ok.2 ⟨s', ha, rfl⟩⟩

/-- What every step preserves, every run preserves.  The invariant may mention the inputs
consumed so far. -/
theorem invariant {I : List α → σ → Prop}
    (hstep : ∀ u s a s', I u s → step s a = .ok s' → I (u ++ [a]) s') :
    ∀ {l u : List α} {s s' : σ}, I u s → l.foldlM step s = .ok s' → I (u ++ l) s'
  | [], u, s, s', hI, h => by
    cases h
    simpa using hI
  | a :: l, u, s, s', hI, h => by
    obtain ⟨m, hm, h⟩ := cons_ok.1 h
    simpa using invariant hstep (hstep u s a m hI hm) h

/-- A run succeeds when each of its steps follows a step function that cannot fail. -/
theorem simulate {next : τ → α → τ} {S : τ → σ → Prop}
    (hstep : ∀ t s a, S t s → ∃ s', step s a = .ok s' ∧ S (next t a) s') {l : List α} {t : τ} {s : σ}
    (hS : S t s) : ∃ s', l.foldlM step s = .ok s' ∧ S (l.foldl next t) s' := by
  induction l generalizing t s with
  | nil => exact ⟨s, rfl, hS⟩
  | cons a l ih =>
    obtain ⟨m, hm, hS⟩ := hstep t s a hS
    obtain ⟨s', hrun, hS⟩ := ih hS
    exact ⟨s', cons_ok.2 ⟨m, hm, hrun⟩, hS⟩

end Invariants

section Guards

variable {κ δ : Type} {R : κ → σ → Prop}

/-- A run, the same run stopped where a check fails, and the check on its own: where the check
passes the two runs are the same, and the stopped run succeeds nowhere else. -/
structure Guards (R : κ → σ → Prop) (check : Except δ κ) (guarded run : Except ε σ) : Prop where
  passes : ∀ k, check = .ok k → guarded = run ∧ ∀ s, run = .ok s → R k s
  only : ∀ s, guarded = .ok s → ∃ k, check = .ok k

namespace Guards

theorem ok {k : κ} {s : σ} (h : R k s) :
    Guards R (.ok k : Except δ κ) (.ok s : Except ε σ) (.ok s) where
  passes k' hk := by
    obtain rfl := Except.ok.inj hk
    exact ⟨rfl, fun s' hs => Except.ok.inj hs ▸ h⟩
  only _ _ := ⟨k, rfl⟩

theorem stopped {d : δ} {e : ε} (run : Except ε σ) : Guards R (.error d) (.error e) run where
  passes _ hk := by cases hk
  only _ hs := by cases hs

/-- The check passes and the run is not stopped. -/
theorem of_ok {k : κ} {run : Except ε σ} (h : ∀ s, run = .ok s → R k s) :
    Guards R (.ok k : Except δ κ) run run where
  passes k' hk := by
    obtain rfl := Except.ok.inj hk
    exact ⟨rfl, h⟩
  only _ _ := ⟨k, rfl⟩

variable {check : Except δ κ} {guarded run : Except ε σ}

theorem mono {S : κ → σ → Prop} (h : Guards R check guarded run)
    (hRS : ∀ k s, run = .ok s → R k s → S k s) : Guards S check guarded run where
  passes k hk := ⟨(h.passes k hk).1, fun s hs => hRS k s hs ((h.passes k hk).2 s hs)⟩
  only := h.only

theorem guarded_ok (h : Guards R check guarded run) {s : σ} (hs : guarded = .ok s) :
    run = .ok s ∧ ∃ k, check = .ok k ∧ R k s := by
  obtain ⟨k, hk⟩ := h.only s hs
  obtain ⟨heq, hR⟩ := h.passes k hk
  rw [heq] at hs
  exact ⟨hs, k, hk, hR s hs⟩

theorem bind {κ' : Type} {R' : κ' → τ → Prop} {f : κ → Except δ κ'} {g g' : σ → Except ε τ}
    (h : Guards R check guarded run) (hstep : ∀ k s, R k s → Guards R' (f k) (g s) (g' s)) :
    Guards R' (check >>= f) (guarded >>= g) (run >>= g') where
  passes k' hk' := by
    obtain ⟨k, hk, hk'⟩ := bind_ok hk'
    obtain ⟨heq, hR⟩ := h.passes k hk
    rw [heq]
    cases run with
    | error e => exact ⟨rfl, fun s hs => by cases hs⟩
    | ok s => exact (hstep k s (hR s rfl)).passes k' hk'
  only t ht := by
    obtain ⟨s, hs, ht⟩ := bind_ok ht
    obtain ⟨-, k, hk, hR⟩ := h.guarded_ok hs
    obtain ⟨k', hk'⟩ := (hstep k s hR).only t ht
    exact ⟨k', by rw [hk]; exact hk'⟩

theorem foldlM {check : κ → α → Except δ κ} {guarded run : σ → α → Except ε σ}
    (hstep : ∀ k s a, R k s → Guards R (check k a) (guarded s a) (run s a)) {l : List α} {k : κ}
    {s : σ} (h : R k s) : Guards R (l.foldlM check k) (l.foldlM guarded s) (l.foldlM run s) := by
  induction l generalizing k s with
  | nil => exact .ok h
  | cons a l ih =>
    rw [List.foldlM_cons, List.foldlM_cons, List.foldlM_cons]
    exact (hstep k s a h).bind fun k s h => ih h

end Guards

end Guards

section Each

variable {step : σ → α → Except ε σ} {P Q : σ → α → Prop}

/-- Every step of the run over `l` from `s` that is reached satisfies `P`. -/
def Each (step : σ → α → Except ε σ) (P : σ → α → Prop) (s : σ) (l : List α) : Prop :=
  ∀ l₁ a l₂ m, l = l₁ ++ a :: l₂ → l₁.foldlM step s = .ok m → P m a

theorem each_nil (s : σ) : Each step P s [] := by
  intro l₁ a l₂ m h
  simp at h

theorem Each.left {s : σ} {l₁ l₂ : List α} (h : Each step P s (l₁ ++ l₂)) : Each step P s l₁ := by
  intro k₁ a k₂ m hl hm
  exact h k₁ a (k₂ ++ l₂) m (by rw [hl, List.append_assoc, List.cons_append]) hm

theorem each_cons {s : σ} {a : α} {l : List α} :
    Each step P s (a :: l) ↔ P s a ∧ ∀ m, step s a = .ok m → Each step P m l := by
  constructor
  · intro h
    refine ⟨h [] a l s rfl rfl, fun m hm l₁ b l₂ m' hl hm' => ?_⟩
    exact h (a :: l₁) b l₂ m' (by rw [hl, List.cons_append]) (cons_ok.2 ⟨m, hm, hm'⟩)
  · rintro ⟨hs, h⟩ l₁ b l₂ m' hl hm'
    cases l₁ with
    | nil =>
      obtain ⟨rfl, rfl⟩ := List.cons.inj hl
      cases hm'
      exact hs
    | cons c l₁ =>
      obtain ⟨rfl, rfl⟩ := List.cons.inj hl
      obtain ⟨m, hm, hm'⟩ := cons_ok.1 hm'
      exact h m hm l₁ b l₂ m' rfl hm'

theorem each_concat {s : σ} {a : α} {l : List α} :
    Each step P s (l ++ [a]) ↔ Each step P s l ∧ ∀ m, l.foldlM step s = .ok m → P m a := by
  refine ⟨fun h => ⟨h.left, fun m hm => h l a [] m rfl hm⟩, ?_⟩
  rintro ⟨h, hlast⟩ l₁ b l₂ m hl hm
  rcases l₂.eq_nil_or_concat' with rfl | ⟨l₂, c, rfl⟩
  · obtain ⟨rfl, hb⟩ := List.append_inj' hl rfl
    obtain rfl := List.singleton_inj.1 hb
    exact hlast m hm
  · rw [← List.cons_append, ← List.append_assoc] at hl
    exact h l₁ b l₂ m (List.append_inj' hl rfl).1 hm

/-- The same when the first step is known. -/
theorem each_cons_ok {s m : σ} {a : α} {l : List α} (hm : step s a = .ok m) :
    Each step P s (a :: l) ↔ P s a ∧ Each step P m l := by
  rw [each_cons, hm]
  refine and_congr_right fun _ => ⟨fun h => h m rfl, ?_⟩
  rintro h m' hm'
  obtain rfl := Except.ok.inj hm'
  exact h

/-- What holds behind every beginning of a run whose first step is known. -/
theorem prefixes_cons {R : List α → σ → Prop} {s m : σ} {a : α} {l : List α}
    (hm : step s a = .ok m) :
    (∀ done later s', a :: l = done ++ later → done.foldlM step s = .ok s' → R done s') ↔
      R [] s ∧ ∀ done later s', l = done ++ later → done.foldlM step m = .ok s' →
        R (a :: done) s' := by
  constructor
  · intro h
    refine ⟨h [] (a :: l) s rfl rfl, fun done later s' hl hrun => ?_⟩
    exact h (a :: done) later s' (by rw [hl, List.cons_append]) (cons_ok.2 ⟨m, hm, hrun⟩)
  · rintro ⟨hnil, h⟩ done later s' hl hrun
    cases done with
    | nil =>
      obtain rfl := Except.ok.inj hrun
      exact hnil
    | cons b done =>
      obtain ⟨rfl, rfl⟩ := List.cons.inj hl
      obtain ⟨m', hm', hrun⟩ := cons_ok.1 hrun
      obtain rfl := Except.ok.inj (hm.symm.trans hm')
      exact h done later s' rfl hrun

end Each

section Along

variable {next : σ → α → σ} {P Q : σ → α → Prop}

/-- Every step of the run over `l` from `s` satisfies `P`. -/
def Along (next : σ → α → σ) (P : σ → α → Prop) (s : σ) (l : List α) : Prop :=
  ∀ l₁ a l₂, l = l₁ ++ a :: l₂ → P (l₁.foldl next s) a

theorem along_nil (s : σ) : Along next P s [] := by
  intro l₁ a l₂ h
  simp at h

theorem along_cons {s : σ} {a : α} {l : List α} :
    Along next P s (a :: l) ↔ P s a ∧ Along next P (next s a) l := by
  constructor
  · intro h
    exact ⟨h [] a l rfl, fun l₁ b l₂ hl => h (a :: l₁) b l₂ (by rw [hl, List.cons_append])⟩
  · rintro ⟨hs, h⟩ l₁ b l₂ hl
    cases l₁ with
    | nil =>
      obtain ⟨rfl, rfl⟩ := List.cons.inj hl
      exact hs
    | cons c l₁ =>
      obtain ⟨rfl, rfl⟩ := List.cons.inj hl
      exact h l₁ b l₂ rfl

theorem along_append {s : σ} {l₁ l₂ : List α} :
    Along next P s (l₁ ++ l₂) ↔ Along next P s l₁ ∧ Along next P (l₁.foldl next s) l₂ := by
  induction l₁ generalizing s with
  | nil => simp [along_nil]
  | cons a l₁ ih => rw [List.cons_append, along_cons, ih, along_cons, List.foldl_cons, and_assoc]

instance decidableAlong [∀ s a, Decidable (P s a)] (s : σ) :
    (l : List α) → Decidable (Along next P s l)
  | [] => .isTrue (along_nil s)
  | a :: l =>
    have := decidableAlong (next s a) l
    decidable_of_iff _ along_cons.symm

/-- A run that stays inside a set of states. -/
theorem Along.of_closed {S : σ → Prop} {C : α → Prop}
    (hstep : ∀ s a, S s → C a → P s a ∧ S (next s a)) {s : σ} {l : List α} (hs : S s)
    (hl : ∀ a ∈ l, C a) : Along next P s l ∧ S (l.foldl next s) := by
  induction l generalizing s with
  | nil => exact ⟨along_nil s, hs⟩
  | cons a l ih =>
    obtain ⟨ha, hl⟩ := List.forall_mem_cons.1 hl
    obtain ⟨hP, hS⟩ := hstep s a hs ha
    obtain ⟨halong, hend⟩ := ih hS hl
    exact ⟨along_cons.2 ⟨hP, halong⟩, hend⟩

theorem Along.mono {s : σ} {l : List α} (h : Along next P s l) (hPQ : ∀ s a, P s a → Q s a) :
    Along next Q s l :=
  fun l₁ a l₂ hl => hPQ _ _ (h l₁ a l₂ hl)

end Along

section Chunks

variable {step : σ → List α → Except ε σ} {fine : τ → α → Except ε τ} {P : σ → List α → Prop}
variable {R : σ → τ → Prop}

/-- A step function that takes its inputs in chunks agrees with one that takes them one by one, when
each of its steps does. -/
theorem agree_flatten (hstep : ∀ s t a, R s t → P s a → Agree R (step s a) (a.foldlM fine t))
    {l : List (List α)} {s : σ} {t : τ} (hl : Each step P s l) (hR : R s t) :
    Agree R (l.foldlM step s) (l.flatten.foldlM fine t) := by
  induction l generalizing s t with
  | nil => exact .ok hR
  | cons a l ih =>
    obtain ⟨ha, hl⟩ := each_cons.1 hl
    rw [List.foldlM_cons, List.flatten_cons, List.foldlM_append]
    have hfirst := hstep s t a hR ha
    revert hl hfirst
    generalize step s a = x
    generalize a.foldlM fine t = y
    intro hl hfirst
    cases hfirst with
    | error e => exact .error e
    | ok hR => exact ih (hl _ rfl) hR

end Chunks

end Run
