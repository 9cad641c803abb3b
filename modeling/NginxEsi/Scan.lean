import NginxEsi.Text

/-!
# The fast path

`esi_parser_scan_for_start` looks for the start of a tag in a chunk that arrives in state 0.  It
follows the machine: whenever a candidate is pending, `f` is where it started and `s` is the last
byte.  A chunk in which it finds nothing is text that the machine would echo and leave in state 0.
-/

namespace NginxEsi

open BranchTable

/-- The states with a pending candidate that the scan follows. -/
def State.followed : State → Bool
  | .s1 | .s2 | .s3 | .s4 | .s5 | .s8 | .s9 | .s10 => true
  | _ => false

theorem followed_edges : ∀ s : State, s = .s0 ∨ s.followed = true → ∀ e ∈ (row s).edges,
    (e.2.goto.1 = .s0 ∧ e.2.goto.2.marking = true) ∨ e.1 = .single 60 ∨
      (e.1 = .single 58 ∧ s.followed = true) ∨
      (s.followed = true ∧ e.2.goto.1.followed = true ∧ e.2.goto.2.marking = true ∧
        (e.1 = .single 47 ∨ e.1 = .single 101 ∨ e.1 = .single 115 ∨ e.1 = .single 105)) := by
  decide +kernel

/-- What a byte does to a candidate that the scan follows. -/
theorem followed_next {s : State} (h : s = .s0 ∨ s.followed = true) (b : UInt8) :
    (s.next b = .s0 ∧ (s.list b).marking = true) ∨ b = 60 ∨ (b = 58 ∧ s.followed = true) ∨
      (s.followed = true ∧ (s.next b).followed = true ∧ (s.list b).marking = true ∧
        (b = 47 ∨ b = 101 ∨ b = 115 ∨ b = 105)) := by
  obtain ⟨g, hg, h'⟩ := forall_transition
    (P := fun s g t => s = .s0 ∨ s.followed = true →
      (t.goto.1 = .s0 ∧ t.goto.2.marking = true) ∨ g = .single 60 ∨
      (g = .single 58 ∧ s.followed = true) ∨
      (s.followed = true ∧ t.goto.1.followed = true ∧ t.goto.2.marking = true ∧
        (g = .single 47 ∨ g = .single 101 ∨ g = .single 115 ∨ g = .single 105)))
    (fun s e he hs => followed_edges s hs e he) s b
  rcases h' h with h0 | rfl | ⟨rfl, hf⟩ | ⟨hf, hn, hp, hi⟩
  · exact .inl h0
  · exact .inr (.inl (Guard.eq_ofNat_of_holds hg))
  · exact .inr (.inr (.inl ⟨Guard.eq_ofNat_of_holds hg, hf⟩))
  · refine .inr (.inr (.inr ⟨hf, hn, hp, ?_⟩))
    rcases hi with rfl | rfl | rfl | rfl
    · exact .inl (Guard.eq_ofNat_of_holds hg)
    · exact .inr (.inl (Guard.eq_ofNat_of_holds hg))
    · exact .inr (.inr (.inl (Guard.eq_ofNat_of_holds hg)))
    · exact .inr (.inr (.inr (Guard.eq_ofNat_of_holds hg)))

theorem followed_start : ∀ s : State, s = .s0 ∨ s.followed = true →
    s.next 60 = .s1 ∧ (s.list 60).marking = true := by
  decide +kernel

theorem State.followed_textual {s : State} (h : s = .s0 ∨ s.followed = true) :
    s.textual = true := by
  rcases h with rfl | h
  · rfl
  · cases s <;> trivial

/-- The variables of the scan at index `i`, when the machine is in the state `q`. -/
structure Follows (q : State) (i f s : ℤ) : Prop where
  nonneg : 0 ≤ i
  start : f = -2 ∨ 0 ≤ f
  state : q = .s0 ∨ (q.followed = true ∧ 0 ≤ f ∧ s = i - 1)

theorem scanFrom_text {u : Bytes} {q : State} {i f s : ℤ} (h : Follows q i f s)
    (hscan : scanFrom u i f s = -1) :
    u.foldl State.next q = .s0 ∧
      Run.Along State.next (fun q b => q.textual = true ∧ (q.list b).marking = true) q u := by
  induction u generalizing q i f s with
  | nil =>
    refine ⟨?_, Run.along_nil q⟩
    rcases h.state with h0 | ⟨-, hf, hs⟩
    · exact h0
    · have hi := h.nonneg
      rw [scanFrom, if_pos (by omega)] at hscan
      omega
  | cons b u ih =>
    have hi := h.nonneg
    have hstate : q = .s0 ∨ q.followed = true := h.state.imp id And.left
    -- the machine is back in state 0, whatever the scan does
    have hzero : ∀ f' s', (f' = -2 ∨ 0 ≤ f') → q.next b = .s0 → (q.list b).marking = true →
        scanFrom u (i + 1) f' s' = -1 → (b :: u).foldl State.next q = .s0 ∧
          Run.Along State.next (fun q b => q.textual = true ∧ (q.list b).marking = true) q
            (b :: u) := by
      intro f' s' hf' hn hp hscan'
      have h' := ih (q := q.next b) ⟨by omega, hf', .inl hn⟩ hscan'
      exact ⟨h'.1, Run.along_cons.2 ⟨⟨State.followed_textual hstate, hp⟩, h'.2⟩⟩
    rw [scanFrom] at hscan
    by_cases h60 : b = 60
    · subst h60
      obtain ⟨hn, hp⟩ := followed_start q hstate
      rw [if_pos rfl] at hscan
      have h' := ih (q := q.next 60) ⟨by omega, .inr hi, .inr ⟨by rw [hn]; rfl, hi, by omega⟩⟩ hscan
      exact ⟨h'.1, Run.along_cons.2 ⟨⟨State.followed_textual hstate, hp⟩, h'.2⟩⟩
    rw [if_neg h60] at hscan
    rcases followed_next hstate b with ⟨hn, hp⟩ | h' | ⟨rfl, hf⟩ | ⟨hf, hn, hp, hinner⟩
    · split_ifs at hscan with h₁ h₂ h₃ h₄
      · exact hzero f i h.start hn hp hscan
      · exact hzero f s h.start hn hp hscan
      · have := h.start
        omega
      · exact hzero f s h.start hn hp hscan
      · exact hzero (-2) (-2) (.inl rfl) hn hp hscan
    · exact absurd h' h60
    · -- the candidate is complete, and the scan reports it
      rcases h.state with rfl | ⟨-, hf', hs⟩
      · cases hf
      · rw [if_neg (by decide), if_pos rfl, if_pos ⟨hs, by omega⟩] at hscan
        omega
    · rcases h.state with rfl | ⟨-, hf', hs⟩
      · cases hf
      · rw [if_pos hinner, if_pos ⟨hs, by omega⟩] at hscan
        have h' := ih (q := q.next b) ⟨by omega, h.start, .inr ⟨hn, hf', by omega⟩⟩ hscan
        exact ⟨h'.1, Run.along_cons.2 ⟨⟨State.followed_textual hstate, hp⟩, h'.2⟩⟩

theorem toInt_of_lt {n : ℕ} (h : n < 2 ^ 31) : toInt n = n := by
  unfold toInt
  rw [Int.bmod_eq_of_le]
  · omega
  · omega

theorem intPart_of_lt {data : Bytes} (h : data.length < 2 ^ 31) : intPart data = data := by
  rw [intPart, toInt_of_lt h, Int.toNat_natCast, List.take_length]

/-- A chunk on the fast path is text that leaves state 0 as it is. -/
theorem scanForStart_text {data : Bytes} (h : data.length < 2 ^ 31) (hscan : scanForStart data = -1) :
    data.foldl State.next .s0 = .s0 ∧
      Run.Along State.next (fun q b => q.textual = true ∧ (q.list b).marking = true) .s0 data := by
  rw [scanForStart, intPart_of_lt h] at hscan
  exact scanFrom_text ⟨le_rfl, .inl rfl, .inl rfl⟩ hscan

/-! ## What the scan finds -/

def isScanned (b : UInt8) : Bool := b == 47 || b == 101 || b == 115 || b == 105

/-- Behind any of `/`, `e`, `s` and `i` there is a colon or the end. -/
def mayGoOn (u : Bytes) : Bool := (u.dropWhile isScanned).head?.all (· == 58)

/-- The scan takes the text for the start of a tag. -/
def mayStart : Bytes → Bool
  | [] => false
  | b :: u => b == 60 && mayGoOn u

/-- The first index where a tag may start, from `i` on. -/
def firstFrom (u : Bytes) (i : ℤ) : ℤ := (u.tails.findIdx? mayStart).elim (-1) fun k => i + k

theorem firstFrom_cons (b : UInt8) (u : Bytes) (i : ℤ) :
    firstFrom (b :: u) i = if mayStart (b :: u) then i else firstFrom u (i + 1) := by
  rw [firstFrom, show (b :: u).tails = (b :: u) :: u.tails from rfl, List.findIdx?_cons]
  by_cases h : mayStart (b :: u) = true
  · rw [if_pos h, if_pos h]
    exact Int.add_zero i
  · rw [if_neg h, if_neg h, firstFrom]
    cases u.tails.findIdx? mayStart with
    | none => rfl
    | some k =>
      change i + ((k + 1 : ℕ) : ℤ) = i + 1 + k
      omega

theorem mayGoOn_cons (b : UInt8) (u : Bytes) :
    mayGoOn (b :: u) = if isScanned b then mayGoOn u else b == 58 := by
  unfold mayGoOn
  rw [List.dropWhile_cons]
  split_ifs <;> rfl

/-- The loop outside a candidate, and inside one that started at `f`. -/
theorem scanFrom_eq (u : Bytes) {i : ℤ} (hi : 0 ≤ i) :
    scanFrom u i (-2) (-2) = firstFrom u i ∧
      ∀ f, f ≠ -2 → scanFrom u i f (i - 1) = if mayGoOn u then f else firstFrom u i := by
  induction u generalizing i with
  | nil =>
    refine ⟨rfl, fun f hf => ?_⟩
    rw [scanFrom, if_pos ⟨hf, by omega⟩]
    rfl
  | cons b u ih =>
    obtain ⟨hout, hin⟩ := ih (i := i + 1) (by omega)
    rw [Int.add_sub_cancel] at hin
    rw [firstFrom_cons]
    by_cases h60 : b = 60
    · -- a candidate starts, whether or not there was one
      subst h60
      have hstart (f s : ℤ) : scanFrom (60 :: u) i f s =
          if mayStart (60 :: u) then i else firstFrom u (i + 1) := by
        rw [scanFrom, if_pos rfl, hin i (by omega)]
        rfl
      refine ⟨hstart _ _, fun f _ => ?_⟩
      rw [hstart, mayGoOn_cons]
      rfl
    · have hmay : mayStart (b :: u) = false := by simp [mayStart, h60]
      rw [hmay, if_neg Bool.false_ne_true, scanFrom, if_neg h60]
      refine ⟨?_, fun f hf => ?_⟩
      · have hnone : ¬ ((-2 : ℤ) = i - 1 ∧ (-2 : ℤ) ≠ -2) := fun h => h.2 rfl
        rw [if_neg hnone, if_neg hnone, hout]
        split_ifs <;> rfl
      · have hsome : i - 1 = i - 1 ∧ f ≠ -2 := ⟨rfl, hf⟩
        rw [scanFrom, if_neg h60, if_pos hsome, if_pos hsome, hin f hf, hout, mayGoOn_cons]
        by_cases hscanned : b = 47 ∨ b = 101 ∨ b = 115 ∨ b = 105
        · have hb : isScanned b = true := by simpa [isScanned, or_assoc] using hscanned
          rw [if_pos hscanned, hb, if_pos rfl]
        · have hb : isScanned b = false := by simpa [isScanned, and_assoc] using hscanned
          rw [if_neg hscanned, hb, if_neg Bool.false_ne_true]
          by_cases h58 : b = 58
          · rw [if_pos h58, if_pos (beq_iff_eq.2 h58)]
          · rw [if_neg h58, if_neg (mt beq_iff_eq.1 h58)]

/-- In the first `(int)length` bytes of the buffer, the scan finds the first `<` with a colon or the
end of these bytes behind any of `/`, `e`, `s` and `i`. -/
theorem scanForStart_eq (data : Bytes) : scanForStart data =
    ((intPart data).tails.findIdx? mayStart).elim (-1) fun k => (k : ℤ) := by
  rw [scanForStart, (scanFrom_eq _ (Int.le_refl 0)).1, firstFrom]
  simp only [Int.zero_add]

end NginxEsi
