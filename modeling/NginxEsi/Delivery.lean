import NginxEsi.Rejected
import NginxEsi.Room
import NginxEsi.Routing

/-!
# Delivery

A call of the body filter feeds the buffers of its input chain to the parser, whose handlers route
the text.  The handlers run behind the parser, so whatever each of them follows (`Simulates`) the
filter follows over all callbacks (`Reached`).  With the routing for this, the context stays in step
with all that the parser has reported since it was set up (`InStep`), and the loop of the filter
fails only where the parser does.
-/

namespace NginxEsi

open LinkedList

namespace ESIParser

theorem execute_callbacks {c c' : ESIParser} {chunk : Bytes} (h : c.execute chunk = .ok c') :
    c.out.callbacks <+: c'.out.callbacks := by
  rcases execute_cases h with ⟨-, rfl⟩ | ⟨-, hc'⟩ | ⟨m, u, m', -, -, -, hbare, hm', rfl⟩
  · exact List.prefix_rfl
  · rw [hc', echoChar_out]
    exact Output.callbacks_foldl_echoChar _ _
  · rw [leave_out, ← bare_out hbare]
    exact exec_callbacks hm'

theorem finish_callbacks (c : ESIParser) : c.out.callbacks <+: c.finish.out.callbacks :=
  Output.callbacks_flush c.out

end ESIParser

namespace Ctx

variable {r₀ : Routing} {parser p' : ESIParser} {ctx ctx' : Ctx} {stack : ℕ → NgxStr}

/-! ## The handlers behind the parser -/

section Simulation

variable {σ : Type} {next : σ → Callback → σ} {S : σ → Ctx → Prop} {n : ℕ} {s : σ} {chunk : Bytes}

/-- Every handler succeeds, and what it does to the context follows `next`. -/
def Simulates (stack : ℕ → NgxStr) (next : σ → Callback → σ) (S : σ → Ctx → Prop) : Prop :=
  ∀ s ctx c, S s ctx → ∃ ctx', Ctx.handle stack ctx c = .ok ctx' ∧ S (next s c) ctx'

/-- The context is in the relation with the state behind the callbacks that the parser has made so
far, but for the first `n`. -/
structure Reached (next : σ → Callback → σ) (S : σ → Ctx → Prop) (n : ℕ) (s : σ)
    (parser : ESIParser) (ctx : Ctx) : Prop where
  le : n ≤ parser.out.callbacks.length
  state : S ((parser.out.callbacks.drop n).foldl next s) ctx

theorem Reached.handleFrom (h : Reached next S n s parser ctx) (hsim : Simulates stack next S)
    (hpre : parser.out.callbacks <+: p'.out.callbacks) :
    ∃ ctx', ctx.handleFrom stack parser.out.callbacks.length p'.out.callbacks = .ok ctx' ∧
      Reached next S n s p' ctx' := by
  obtain ⟨l, hl⟩ := hpre
  obtain ⟨ctx', hok, hS⟩ := Run.simulate (l := l) hsim h.state
  refine ⟨ctx', ?_, ?_, ?_⟩
  · rw [Ctx.handleFrom, ← hl, List.drop_left]
    exact hok
  · rw [← hl, List.length_append]
    exact h.le.trans (Nat.le_add_right _ _)
  · rw [← hl, List.drop_append_of_le_length h.le, List.foldl_append]
    exact hS

theorem Reached.execute (h : Reached next S n s parser ctx) (hsim : Simulates stack next S)
    (hrun : parser.executeBounded chunk = .ok p') :
    ∃ ctx', ctx.execute stack parser chunk = .ok (p', ctx') ∧ Reached next S n s p' ctx' := by
  obtain ⟨ctx', hok, h'⟩ := h.handleFrom hsim
    (ESIParser.execute_callbacks (ESIParser.executeBounded_ok hrun))
  refine ⟨ctx', ?_, h'⟩
  simp only [Ctx.execute, hrun, hok, bind, Except.bind, pure, Except.pure]

/-- A fault of the parser is the only one. -/
theorem Reached.execute_error {stop : Stop} (h : Reached next S n s parser ctx)
    (hsim : Simulates stack next S) (hrun : parser.executeBounded chunk = .error stop) :
    ctx.execute stack parser chunk = .error (.parser stop.fault) := by
  obtain ⟨ctx', hok, -⟩ :=
    Run.simulate (l := stop.callbacks.drop parser.out.callbacks.length) hsim h.state
  simp only [Ctx.execute, hrun, Ctx.handleFrom, hok, bind, Except.bind]

theorem Reached.finish (h : Reached next S n s parser ctx) (hsim : Simulates stack next S) :
    ∃ ctx', ctx.finish stack parser = .ok (parser.finish, ctx') ∧
      Reached next S n s parser.finish ctx' := by
  obtain ⟨ctx', hok, h'⟩ := h.handleFrom hsim parser.finish_callbacks
  refine ⟨ctx', ?_, h'⟩
  simp only [Ctx.finish, hok, bind, Except.bind, pure, Except.pure]

end Simulation

/-- What the parser has reported so far is routed; `r₀` is the routing before its first callback. -/
def InStep (r₀ : Routing) (parser : ESIParser) (ctx : Ctx) : Prop :=
  ctx.Routes (parser.out.callbacks.foldl Routing.handle r₀)

theorem routes_simulate (stack : ℕ → NgxStr) :
    Simulates stack Routing.handle fun r ctx => ctx.Routes r :=
  fun _ _ c h => h.handle stack c

theorem inStep_iff :
    InStep r₀ parser ctx ↔ Reached Routing.handle (fun r ctx => ctx.Routes r) 0 r₀ parser ctx :=
  ⟨fun h => ⟨Nat.zero_le _, h⟩, fun h => h.state⟩

theorem InStep.execute {chunk : Bytes} (h : InStep r₀ parser ctx) (stack : ℕ → NgxStr)
    (hrun : parser.executeBounded chunk = .ok p') :
    ∃ ctx', ctx.execute stack parser chunk = .ok (p', ctx') ∧ InStep r₀ p' ctx' := by
  obtain ⟨ctx', hok, h'⟩ := (inStep_iff.1 h).execute (routes_simulate stack) hrun
  exact ⟨ctx', hok, inStep_iff.2 h'⟩

theorem execute_ok {chunk : Bytes} (h : ctx.execute stack parser chunk = .ok (p', ctx')) :
    parser.executeBounded chunk = .ok p' := by
  unfold Ctx.execute at h
  cases hrun : parser.executeBounded chunk with
  | error stop =>
    simp only [hrun] at h
    obtain ⟨m, -, h⟩ := Run.bind_ok h
    cases h
  | ok m =>
    simp only [hrun] at h
    obtain ⟨ctx'', -, h⟩ := Run.bind_ok h
    cases h
    rfl

theorem InStep.finish (h : InStep r₀ parser ctx) (stack : ℕ → NgxStr) :
    ∃ ctx', ctx.finish stack parser = .ok (parser.finish, ctx') ∧
      InStep r₀ parser.finish ctx' := by
  obtain ⟨ctx', hok, h'⟩ := (inStep_iff.1 h).finish (routes_simulate stack)
  exact ⟨ctx', hok, inStep_iff.2 h'⟩

theorem new_inStep : InStep .new .new new := new_routes

/-! ## The loop -/

/-- Buffers without `last_buf`. -/
def unmarked (chunks : List Bytes) : List Buf := chunks.map fun u => ⟨u, false⟩

/-- An input chain whose final buffer has `last_buf`. -/
def inputChain (init : List Bytes) (last : Bytes) : List Buf := unmarked init ++ [⟨last, true⟩]

theorem bodyFilterLoop_unmarked {chunks : List Bytes} (h : InStep r₀ parser ctx)
    (stack : ℕ → NgxStr) (input : List Buf) (hrun : parser.executeAllBounded chunks = .ok p') :
    ∃ ctx', InStep r₀ p' ctx' ∧ bodyFilterLoop stack parser ctx (unmarked chunks ++ input) =
      bodyFilterLoop stack p' ctx' input := by
  induction chunks generalizing parser ctx with
  | nil =>
    cases hrun
    exact ⟨ctx, h, rfl⟩
  | cons chunk chunks ih =>
    obtain ⟨m, hm, hrun⟩ := Run.cons_ok.1 hrun
    obtain ⟨ctx₁, hok, h₁⟩ := h.execute stack hm
    obtain ⟨ctx', h', hloop⟩ := ih h₁ hrun
    refine ⟨ctx', h', Eq.trans ?_ hloop⟩
    rw [unmarked, List.map_cons, List.cons_append, bodyFilterLoop, hok]
    rfl

/-- A loop that gets through has run the parser over its buffers. -/
theorem executeAll_of_loop {chunks : List Bytes} {input : List Buf} {x : Bool × ESIParser × Ctx}
    (h : bodyFilterLoop stack parser ctx (unmarked chunks ++ input) = .ok x) :
    ∃ m ctx', parser.executeAllBounded chunks = .ok m ∧
      bodyFilterLoop stack m ctx' input = .ok x := by
  induction chunks generalizing parser ctx with
  | nil => exact ⟨parser, ctx, rfl, h⟩
  | cons chunk chunks ih =>
    rw [unmarked, List.map_cons, List.cons_append, bodyFilterLoop] at h
    obtain ⟨⟨m, ctx₁⟩, hm, h⟩ := Run.bind_ok h
    obtain ⟨m', ctx', hm', hloop⟩ := ih h
    exact ⟨m', ctx', Run.cons_ok.2 ⟨m, execute_ok hm, hm'⟩, hloop⟩

theorem bodyFilterLoop_last {init : List Bytes} {last : Bytes} (h : InStep r₀ parser ctx)
    (stack : ℕ → NgxStr) (hrun : parser.executeAllBounded (init ++ [last]) = .ok p') :
    ∃ ctx', InStep r₀ p'.finish ctx' ∧
      bodyFilterLoop stack parser ctx (inputChain init last) = .ok (true, p'.finish, ctx') := by
  obtain ⟨m, hinit, hlast⟩ := Run.concat_ok.1 hrun
  obtain ⟨ctx₁, h₁, hloop⟩ := bodyFilterLoop_unmarked h stack [⟨last, true⟩] hinit
  obtain ⟨ctx₂, hok₂, h₂⟩ := h₁.execute stack hlast
  obtain ⟨ctx', hok, h'⟩ := h₂.finish stack
  refine ⟨ctx', h', hloop.trans ?_⟩
  simp only [bodyFilterLoop, hok₂, hok, bind, Except.bind, pure, Except.pure, if_true]

theorem executeAll_of_last {init : List Bytes} {last : Bytes} {x : Bool × ESIParser × Ctx}
    (h : bodyFilterLoop stack parser ctx (inputChain init last) = .ok x) :
    ∃ m, parser.executeAllBounded (init ++ [last]) = .ok m := by
  obtain ⟨m, ctx', hm, hloop⟩ := executeAll_of_loop h
  rw [bodyFilterLoop] at hloop
  obtain ⟨⟨m', ctx₁⟩, hm', -⟩ := Run.bind_ok hloop
  exact ⟨m', Run.concat_ok.2 ⟨m, hm, execute_ok hm'⟩⟩

/-! ## Behind the loop -/

/-- The bytes in the links reached from `ctx->chain`. -/
def bytes (ctx : Ctx) : Bytes := ctx.chainLinks.flatMap linkBytes

theorem bytes_of_links {l : List (ℕ × Option Buf)} (hl : Links ctx.links (some ctx.chain) l none) :
    ctx.bytes = l.flatMap linkBytes := by
  rw [bytes, chainLinks, hl.nodes_eq hl.length_le]

theorem Holds.bytes_eq {u : Bytes} (h : ctx.Holds u) : ctx.bytes = u := by
  obtain ⟨l, buf, hl, hu⟩ := h
  rw [bytes_of_links hl, hu]

theorem Routes.markLast {r : Routing} (h : ctx.Routes r) (hm : ctx.markLast = .ok ctx') :
    ctx'.Routes r := by
  obtain ⟨htags, hopen, hflags, l, buf, hl, hbytes⟩ := h
  have hlast := hl.getElem?_last
  simp only [Ctx.markLast, Heap.get_some hlast, memory_ok, bind, Except.bind] at hm
  cases buf with
  | none => cases hm
  | some buf =>
    simp only [Heap.update_some hlast, memory_ok, pure, Except.pure] at hm
    obtain rfl := Except.ok.inj hm
    refine ⟨htags, hopen, ⟨hflags.1, hflags.2, hflags.3⟩, l, _, hl.setLast _, ?_⟩
    rw [← hbytes, List.flatMap_append, List.flatMap_append]
    rfl

end Ctx

end NginxEsi
