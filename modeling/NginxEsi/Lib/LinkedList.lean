import Mathlib.Data.List.Basic
import Mathlib.Data.List.Nodup
import Mathlib.Data.List.Perm.Subperm
import NginxEsi.Lib.Run

/-!
# Singly linked lists on a heap

A heap is the list of the cells allocated so far, and a pointer is an index into it or `none` for
`NULL`.  A freed cell is `none` and is not used again, so that every use of it is an error.
`Links h p l q` says that the nodes `l` are linked in `h` from `p` up to the pointer `q`; with
`none` for `q` they are the whole list at `p`.  Each loop over a list has one lemma that says what
it computes from `l`.
-/

namespace LinkedList

variable {α : Type}

inductive Fault where
  | null | freed | endless
  deriving DecidableEq, Repr

structure Node (α : Type) where
  val : α
  next : Option ℕ
  deriving DecidableEq, Repr

abbrev Heap (α : Type) := List (Option (Node α))

namespace Heap

/-! ## Operations -/

def get (h : Heap α) : Option ℕ → Except Fault (Node α)
  | none => .error .null
  | some i => match h[i]? with
    | some (some n) => .ok n
    | _ => .error .freed

/-- Replaces the node at a pointer; `none` frees it. -/
def update (h : Heap α) (p : Option ℕ) (f : Node α → Option (Node α)) : Except Fault (Heap α) :=
  match p with
  | none => .error .null
  | some i => match h[i]? with
    | some (some n) => .ok (h.set i (f n))
    | _ => .error .freed

def setNext (h : Heap α) (p next : Option ℕ) : Except Fault (Heap α) :=
  h.update p fun n => some { n with next := next }

def free (h : Heap α) (p : Option ℕ) : Except Fault (Heap α) := h.update p fun _ => none

/-- The last node of the list from `i` on. -/
def last : ℕ → Heap α → ℕ → Except Fault ℕ
  | 0, _, _ => .error .endless
  | fuel + 1, h, i => do
    match (← h.get (some i)).next with
    | none => return i
    | some j => last fuel h j

/-- Frees the nodes from `p` on. -/
def freeFrom : ℕ → Heap α → Option ℕ → Except Fault (Heap α)
  | _, h, none => .ok h
  | 0, _, some _ => .error .endless
  | fuel + 1, h, some i => do
    let n ← h.get (some i)
    freeFrom fuel (← h.free (some i)) n.next

/-- The first node from `p` on whose value satisfies `f`, with its predecessor. -/
def findFrom (f : α → Bool) : ℕ → Heap α → ℕ → Option ℕ → Except Fault (Option (ℕ × ℕ))
  | _, _, _, none => .ok none
  | 0, _, _, some _ => .error .endless
  | fuel + 1, h, prev, some i => do
    let n ← h.get (some i)
    if f n.val then return some (prev, i) else findFrom f fuel h i n.next

/-- The nodes from `p` on. -/
def nodes : ℕ → Heap α → Option ℕ → List (ℕ × α)
  | _, _, none => []
  | 0, _, some _ => []
  | fuel + 1, h, some i => match h.get (some i) with
    | .ok n => (i, n.val) :: nodes fuel h n.next
    | .error _ => []

/-- The heap without the nodes `l`. -/
def clear (h : Heap α) (l : List (ℕ × α)) : Heap α := l.foldl (fun h e => h.set e.1 none) h

variable {h : Heap α} {i : ℕ} {n : Node α}

theorem get_some (hi : h[i]? = some (some n)) : h.get (some i) = .ok n := by
  simp only [get, hi]

theorem update_some (hi : h[i]? = some (some n)) (f : Node α → Option (Node α)) :
    h.update (some i) f = .ok (h.set i (f n)) := by
  simp only [update, hi]

theorem setNext_some (hi : h[i]? = some (some n)) (next : Option ℕ) :
    h.setNext (some i) next = .ok (h.set i (some { n with next := next })) :=
  update_some hi _

theorem free_some (hi : h[i]? = some (some n)) : h.free (some i) = .ok (h.set i none) :=
  update_some hi _

theorem length_update {h' : Heap α} {p : Option ℕ} {f : Node α → Option (Node α)}
    (hu : h.update p f = .ok h') : h'.length = h.length := by
  cases p with
  | none => cases hu
  | some i =>
    rw [update] at hu
    split at hu
    · rw [← Except.ok.inj hu, List.length_set]
    · cases hu

/-- Every node freed in `h` is freed in `h'` too. -/
def KeepsFreed (h h' : Heap α) : Prop := ∀ i : ℕ, h[i]? = some none → h'[i]? = some none

namespace KeepsFreed

variable {h₁ h₂ h₃ : Heap α}

theorem refl (h : Heap α) : KeepsFreed h h := fun _ hi => hi

theorem trans (h₁₂ : KeepsFreed h₁ h₂) (h₂₃ : KeepsFreed h₂ h₃) : KeepsFreed h₁ h₃ :=
  fun i hi => h₂₃ i (h₁₂ i hi)

end KeepsFreed

theorem keepsFreed_alloc (h : Heap α) (n : Option (Node α)) : KeepsFreed h (h ++ [n]) := by
  intro i hi
  obtain ⟨hlt, -⟩ := List.getElem?_eq_some_iff.1 hi
  rw [List.getElem?_append_left hlt, hi]

/-- An update that succeeds is one of a live node. -/
theorem keepsFreed_update {h' : Heap α} {p : Option ℕ} {f : Node α → Option (Node α)}
    (hu : h.update p f = .ok h') : KeepsFreed h h' := by
  cases p with
  | none => cases hu
  | some i =>
    rw [update] at hu
    split at hu
    case h_1 n hn =>
      obtain rfl := Except.ok.inj hu
      intro j hj
      have hne : i ≠ j := by
        rintro rfl
        rw [hn] at hj
        cases hj
      rw [List.getElem?_set_ne hne, hj]
    case h_2 => cases hu

theorem keepsFreed_freeFrom {h' : Heap α} {p : Option ℕ} {fuel : ℕ}
    (hf : h.freeFrom fuel p = .ok h') : KeepsFreed h h' := by
  induction fuel generalizing h p with
  | zero =>
    cases p with
    | none =>
      obtain rfl := Except.ok.inj hf
      exact .refl h
    | some i => cases hf
  | succ fuel ih =>
    cases p with
    | none =>
      obtain rfl := Except.ok.inj hf
      exact .refl h
    | some i =>
      obtain ⟨n, -, hf⟩ := Run.bind_ok hf
      obtain ⟨h₁, hfree, hf⟩ := Run.bind_ok hf
      exact (keepsFreed_update hfree).trans (ih hf)

theorem length_clear (l : List (ℕ × α)) : (h.clear l).length = h.length := by
  induction l generalizing h with
  | nil => rfl
  | cons e l ih => exact (ih (h := h.set e.1 none)).trans List.length_set

theorem clear_cons (e : ℕ × α) (l : List (ℕ × α)) : h.clear (e :: l) = clear (h.set e.1 none) l :=
  rfl

theorem getElem?_clear {l : List (ℕ × α)} (hi : ∀ e ∈ l, e.1 ≠ i) : (h.clear l)[i]? = h[i]? := by
  induction l generalizing h with
  | nil => rfl
  | cons e l ih =>
    obtain ⟨he, hl⟩ := List.forall_mem_cons.1 hi
    rw [clear_cons, ih hl, List.getElem?_set_ne he]

/-! ### Live nodes -/

/-- How many nodes are not freed. -/
def live (h : Heap α) : ℕ := h.countP Option.isSome

theorem live_alloc (h : Heap α) (n : Node α) : live (h ++ [some n]) = h.live + 1 := by
  rw [live, List.countP_append]
  rfl

theorem live_set_some (hi : h[i]? = some (some n)) (n' : Node α) :
    live (h.set i (some n')) = h.live := by
  obtain ⟨hlt, hi⟩ := List.getElem?_eq_some_iff.1 hi
  have hpos : 0 < h.countP Option.isSome :=
    List.countP_pos_iff.2 ⟨some n, hi ▸ List.getElem_mem hlt, rfl⟩
  rw [live, List.countP_set hlt, hi, live]
  simp only [Option.isSome_some, if_true]
  omega

theorem live_set_none (hi : h[i]? = some (some n)) : live (h.set i none) + 1 = h.live := by
  obtain ⟨hlt, hi⟩ := List.getElem?_eq_some_iff.1 hi
  have hpos : 0 < h.countP Option.isSome :=
    List.countP_pos_iff.2 ⟨some n, hi ▸ List.getElem_mem hlt, rfl⟩
  rw [live, List.countP_set hlt, hi, live]
  simp only [Option.isSome_some, Option.isSome_none, if_true, Bool.false_eq_true, if_false]
  omega

theorem live_setNext {h' : Heap α} {p q : Option ℕ} (hs : h.setNext p q = .ok h') :
    h'.live = h.live := by
  cases p with
  | none => cases hs
  | some i =>
    rw [setNext, update] at hs
    split at hs
    case h_1 n hn =>
      obtain rfl := Except.ok.inj hs
      exact live_set_some hn _
    case h_2 => cases hs

end Heap

/-! ## Linked nodes -/

inductive Links (h : Heap α) : Option ℕ → List (ℕ × α) → Option ℕ → Prop
  | nil (p : Option ℕ) : Links h p [] p
  | cons {i : ℕ} {a : α} {p q : Option ℕ} {l : List (ℕ × α)} (hi : h[i]? = some (some ⟨a, p⟩))
      (tail : Links h p l q) : Links h (some i) ((i, a) :: l) q

variable {h h' : Heap α} {p q : Option ℕ} {i j : ℕ} {a b : α} {l l' l₁ l₂ : List (ℕ × α)}

theorem links_nil : Links h p [] q ↔ p = q := by
  constructor
  · intro hl
    cases hl
    rfl
  · rintro rfl
    exact .nil p

theorem links_cons :
    Links h p ((i, a) :: l) q ↔ p = some i ∧ ∃ m, h[i]? = some (some ⟨a, m⟩) ∧ Links h m l q := by
  constructor
  · intro hl
    cases hl with
    | cons hi tail => exact ⟨rfl, _, hi, tail⟩
  · rintro ⟨rfl, m, hi, tail⟩
    exact .cons hi tail

theorem links_append : Links h p (l₁ ++ l₂) q ↔ ∃ m, Links h p l₁ m ∧ Links h m l₂ q := by
  induction l₁ generalizing p with
  | nil => simp [links_nil]
  | cons e l₁ ih =>
    obtain ⟨i, a⟩ := e
    simp only [List.cons_append, links_cons, ih]
    constructor
    · rintro ⟨rfl, m, hi, k, h₁, h₂⟩
      exact ⟨k, ⟨rfl, m, hi, h₁⟩, h₂⟩
    · rintro ⟨k, ⟨rfl, m, hi, h₁⟩, h₂⟩
      exact ⟨rfl, m, hi, k, h₁, h₂⟩

namespace Links

/-- Nodes that keep their cells stay linked. -/
theorem frame (hl : Links h p l q) (heq : ∀ e ∈ l, h'[e.1]? = h[e.1]?) : Links h' p l q := by
  induction hl with
  | nil p => exact .nil p
  | cons hi _ ih =>
    obtain ⟨he, hl⟩ := List.forall_mem_cons.1 heq
    exact .cons (he.trans hi) (ih hl)

theorem lt_length (hl : Links h p l q) : ∀ e ∈ l, e.1 < h.length := by
  induction hl with
  | nil p => simp
  | cons hi _ ih => exact List.forall_mem_cons.2 ⟨(List.getElem?_eq_some_iff.1 hi).1, ih⟩

theorem unique (hl : Links h p l none) (hl' : Links h p l' none) : l = l' := by
  induction l generalizing p l' with
  | nil =>
    obtain rfl := links_nil.1 hl
    cases hl'
    rfl
  | cons e l ih =>
    obtain ⟨i, a⟩ := e
    obtain ⟨rfl, m, hi, tail⟩ := links_cons.1 hl
    cases hl' with
    | cons hi' tail' =>
      obtain ⟨rfl, rfl⟩ := Node.mk.inj (Option.some.inj (Option.some.inj (hi.symm.trans hi')))
      rw [ih tail tail']

/-- A list that ends has no node twice. -/
theorem nodup (hl : Links h p l none) : (l.map Prod.fst).Nodup := by
  induction l generalizing p with
  | nil => exact List.nodup_nil
  | cons e l ih =>
    obtain ⟨i, a⟩ := e
    obtain ⟨rfl, m, hi, tail⟩ := links_cons.1 hl
    refine List.nodup_cons.2 ⟨fun hmem => ?_, ih tail⟩
    -- a second visit of `i` would start the list all over again
    obtain ⟨⟨j, b⟩, he, rfl⟩ := List.mem_map.1 hmem
    obtain ⟨l₁, l₂, rfl⟩ := List.append_of_mem he
    obtain ⟨k, _, hrest⟩ := links_append.1 tail
    obtain ⟨rfl, -⟩ := links_cons.1 hrest
    have hlen := congrArg List.length (hl.unique hrest)
    simp only [List.length_cons, List.length_append] at hlen
    omega

/-- The nodes of a list are allocated and not freed. -/
theorem live (hl : Links h p l q) : ∀ e ∈ l, ∃ next, h[e.1]? = some (some ⟨e.2, next⟩) := by
  induction hl with
  | nil p => simp
  | cons hi _ ih => exact List.forall_mem_cons.2 ⟨⟨_, hi⟩, ih⟩

theorem length_le (hl : Links h p l none) : l.length ≤ h.length := by
  have hsub : l.map Prod.fst ⊆ List.range h.length := by
    intro i hi
    obtain ⟨e, he, rfl⟩ := List.mem_map.1 hi
    exact List.mem_range.2 (hl.lt_length e he)
  have hle := (hl.nodup.subperm hsub).length_le
  rwa [List.length_map, List.length_range] at hle

theorem not_mem_of_append (hl : Links h p (l₁ ++ l₂) none) : ∀ e ∈ l₁, ∀ e' ∈ l₂, e'.1 ≠ e.1 := by
  have hnodup := hl.nodup
  rw [List.map_append, List.nodup_append] at hnodup
  intro e he e' he'
  exact (hnodup.2.2 _ (List.mem_map_of_mem he) _ (List.mem_map_of_mem he')).symm

theorem not_mem_tail (hl : Links h p ((i, a) :: l) none) : ∀ e ∈ l, e.1 ≠ i := by
  have hnodup := hl.nodup
  rw [List.map_cons, List.nodup_cons] at hnodup
  intro e he heq
  exact hnodup.1 (List.mem_map.2 ⟨e, he, heq⟩)

/-- Freeing a list takes its nodes and no others. -/
theorem live_clear (hl : Links h p l none) : (h.clear l).live + l.length = h.live := by
  induction l generalizing h p with
  | nil => rfl
  | cons e l ih =>
    obtain ⟨i, a⟩ := e
    obtain ⟨-, m, hi, tail⟩ := links_cons.1 hl
    have tail' : Links (h.set i none) m l none :=
      tail.frame fun e he => List.getElem?_set_ne (hl.not_mem_tail e he).symm
    rw [Heap.clear_cons, List.length_cons, ← Heap.live_set_none hi, ← ih tail', Nat.add_assoc]

theorem getElem?_last (hl : Links h p (l ++ [(i, a)]) none) : h[i]? = some (some ⟨a, none⟩) := by
  obtain ⟨m, -, hlast⟩ := links_append.1 hl
  obtain ⟨-, k, hi, tail⟩ := links_cons.1 hlast
  obtain rfl := links_nil.1 tail
  exact hi

/-! ## What the loops compute -/

theorem last_eq {fuel : ℕ} (hl : Links h (some i) (l ++ [(j, a)]) none) (hf : l.length < fuel) :
    h.last fuel i = .ok j := by
  induction l generalizing i fuel with
  | nil =>
    obtain ⟨hij, m, hi, tail⟩ := links_cons.1 hl
    obtain rfl := Option.some.inj hij
    obtain rfl := links_nil.1 tail
    obtain ⟨fuel, rfl⟩ := Nat.exists_eq_add_of_lt hf
    simp [Heap.last, Heap.get_some hi, bind, Except.bind, pure, Except.pure]
  | cons e l ih =>
    obtain ⟨k, b⟩ := e
    obtain ⟨hik, m, hi, tail⟩ := links_cons.1 hl
    obtain rfl := Option.some.inj hik
    cases fuel with
    | zero => omega
    | succ fuel =>
      cases m with
      | none => cases l <;> cases tail
      | some m =>
        rw [Heap.last, Heap.get_some hi]
        exact ih tail (Nat.lt_of_succ_lt_succ hf)

theorem freeFrom_eq {fuel : ℕ} (hl : Links h p l none) (hf : l.length ≤ fuel) :
    h.freeFrom fuel p = .ok (h.clear l) := by
  induction l generalizing h p fuel with
  | nil =>
    obtain rfl := links_nil.1 hl
    cases fuel <;> rfl
  | cons e l ih =>
    obtain ⟨i, a⟩ := e
    obtain ⟨rfl, m, hi, tail⟩ := links_cons.1 hl
    cases fuel with
    | zero => exact absurd hf (by simp)
    | succ fuel =>
      have tail' : Links (h.set i none) m l none :=
        tail.frame fun e he => List.getElem?_set_ne (hl.not_mem_tail e he).symm
      simp only [Heap.freeFrom, Heap.get_some hi, Heap.free_some hi, bind, Except.bind]
      exact ih tail' (Nat.le_of_succ_le_succ hf)

theorem findFrom_none {f : α → Bool} {fuel : ℕ} (hl : Links h p l none) (hf : l.length ≤ fuel)
    (hall : ∀ e ∈ l, f e.2 = false) : h.findFrom f fuel i p = .ok none := by
  induction l generalizing p i fuel with
  | nil =>
    obtain rfl := links_nil.1 hl
    cases fuel <;> rfl
  | cons e l ih =>
    obtain ⟨j, a⟩ := e
    obtain ⟨rfl, m, hj, tail⟩ := links_cons.1 hl
    obtain ⟨ha, hall⟩ := List.forall_mem_cons.1 hall
    cases fuel with
    | zero => exact absurd hf (by simp)
    | succ fuel =>
      simp only [Heap.findFrom, Heap.get_some hj, bind, Except.bind, ha, Bool.false_eq_true,
        if_false]
      exact ih tail (Nat.le_of_succ_le_succ hf) hall

/-- The node found is the one behind the longest prefix without a hit. -/
theorem findFrom_some {f : α → Bool} {fuel : ℕ} (hl : Links h p (l₁ ++ (j, b) :: l₂) none)
    (hf : l₁.length < fuel) (hall : ∀ e ∈ l₁, f e.2 = false) (hb : f b = true) :
    h.findFrom f fuel i p =
      .ok (some ((i :: l₁.map Prod.fst).getLast (List.cons_ne_nil _ _), j)) := by
  induction l₁ generalizing p i fuel with
  | nil =>
    obtain ⟨rfl, m, hj, tail⟩ := links_cons.1 hl
    cases fuel with
    | zero => omega
    | succ fuel => simp [Heap.findFrom, Heap.get_some hj, bind, Except.bind, hb, pure, Except.pure]
  | cons e l₁ ih =>
    obtain ⟨k, c⟩ := e
    obtain ⟨rfl, m, hk, tail⟩ := links_cons.1 hl
    obtain ⟨hc, hall⟩ := List.forall_mem_cons.1 hall
    cases fuel with
    | zero => omega
    | succ fuel =>
      simp only [Heap.findFrom, Heap.get_some hk, bind, Except.bind, hc, Bool.false_eq_true,
        if_false]
      exact ih tail (Nat.lt_of_succ_lt_succ hf) hall

theorem nodes_eq {fuel : ℕ} (hl : Links h p l none) (hf : l.length ≤ fuel) :
    h.nodes fuel p = l := by
  induction l generalizing p fuel with
  | nil =>
    obtain rfl := links_nil.1 hl
    cases fuel <;> rfl
  | cons e l ih =>
    obtain ⟨i, a⟩ := e
    obtain ⟨rfl, m, hi, tail⟩ := links_cons.1 hl
    cases fuel with
    | zero => exact absurd hf (by simp)
    | succ fuel =>
      rw [Heap.nodes, Heap.get_some hi]
      exact congrArg _ (ih tail (Nat.le_of_succ_le_succ hf))

/-! ## Changes at the end of a list -/

theorem alloc (hl : Links h p l q) (c : Option (Node α)) : Links (h ++ [c]) p l q :=
  hl.frame fun e he => List.getElem?_append_left (hl.lt_length e he)

/-- The last node gets a new value. -/
theorem setLast (hl : Links h p (l ++ [(i, a)]) none) (b : α) :
    Links (h.set i (some ⟨b, none⟩)) p (l ++ [(i, b)]) none := by
  have hsep := hl.not_mem_of_append
  obtain ⟨hlt, -⟩ := List.getElem?_eq_some_iff.1 hl.getElem?_last
  obtain ⟨m, hinit, hlast⟩ := links_append.1 hl
  obtain ⟨rfl, -⟩ := links_cons.1 hlast
  refine links_append.2 ⟨some i, hinit.frame fun e he => ?_, .cons ?_ (.nil none)⟩
  · exact List.getElem?_set_ne (hsep e he _ (List.mem_singleton_self _))
  · exact List.getElem?_set_self hlt

/-- A new node behind the last one. -/
theorem push (hl : Links h p (l ++ [(i, a)]) none) (b : α) :
    Links ((h ++ [some (Node.mk b none)]).set i (some ⟨a, some h.length⟩)) p
      (l ++ [(i, a)] ++ [(h.length, b)]) none := by
  have hlt := hl.lt_length
  have hsep := hl.not_mem_of_append
  obtain ⟨m, hinit, hlast⟩ := links_append.1 (hl.alloc (some ⟨b, none⟩))
  obtain ⟨rfl, k, hi, tail⟩ := links_cons.1 hlast
  have hi' : i < h.length := hlt (i, a) (by simp)
  rw [List.append_assoc]
  refine links_append.2 ⟨some i, hinit.frame fun e he => ?_, .cons ?_ (.cons ?_ (.nil none))⟩
  · exact List.getElem?_set_ne (hsep e he _ (List.mem_singleton_self _))
  · exact List.getElem?_set_self (by rw [List.length_append]; omega)
  · rw [List.getElem?_set_ne (by omega), List.getElem?_concat_length]

/-- A walk to the last node and a new node behind it. -/
theorem link (hl : Links h (some i) l none) (b : α) :
    ∃ j h', Heap.last (h ++ [some (Node.mk b none)]).length (h ++ [some ⟨b, none⟩]) i = .ok j ∧
      Heap.setNext (h ++ [some ⟨b, none⟩]) (some j) (some h.length) = .ok h' ∧
      Links h' (some i) (l ++ [(h.length, b)]) none := by
  rcases l.eq_nil_or_concat' with rfl | ⟨l, ⟨j, a⟩, rfl⟩
  · cases hl
  have hlast := hl.getElem?_last
  obtain ⟨hlt, -⟩ := List.getElem?_eq_some_iff.1 hlast
  have hlast' : (h ++ [some (Node.mk b none)])[j]? = some (some ⟨a, none⟩) :=
    (List.getElem?_append_left hlt).trans hlast
  refine ⟨j, _, ?_, Heap.setNext_some hlast' _, hl.push b⟩
  apply (hl.alloc _).last_eq
  have hlen := hl.length_le
  rw [List.length_append, List.length_singleton] at hlen ⊢
  omega

/-- The list ends at one of its nodes once its pointer to the next one is cleared. -/
theorem cut (hl : Links h p (l₁ ++ [(j, b)] ++ l₂) none)
    (heq : ∀ e ∈ l₁ ++ [(j, b)], h'[e.1]? = h[e.1]?) :
    ∃ h'', h'.setNext (some j) none = .ok h'' ∧ Links h'' p (l₁ ++ [(j, b)]) none := by
  obtain ⟨m, hinit, -⟩ := links_append.1 hl
  have hsep : ∀ e ∈ l₁, j ≠ e.1 := by
    rw [List.append_assoc] at hl
    exact fun e he => hl.not_mem_of_append e he (j, b) List.mem_cons_self
  obtain ⟨k, h₁, hlast⟩ := links_append.1 (hinit.frame heq)
  obtain ⟨rfl, k, hj, -⟩ := links_cons.1 hlast
  obtain ⟨hlt, -⟩ := List.getElem?_eq_some_iff.1 hj
  refine ⟨_, Heap.setNext_some hj none, links_append.2 ⟨some j, h₁.frame fun e he => ?_,
    .cons ?_ (.nil none)⟩⟩
  · exact List.getElem?_set_ne (hsep e he)
  · exact List.getElem?_set_self hlt

end Links

end LinkedList
