import NginxEsi.Configuration
import NginxEsi.Downstream

/-!
# Responses

A response goes through the header filter once and then through the body filter, call after call.
If the configuration of its block selects it, the next body filter is handed what `Downstream` hands
over; all other responses are passed on as they come (`serve_downstream`).  For a filtered response
the calls must not write past the echo buffer, an include without a `src` must do no harm, and the
links of the output chain are fresh ones.
-/

namespace NginxEsi

/-- A response behind the header filter, with the chains that the body filter has passed on without
looking at them. -/
structure Response where
  request : Request
  passed : List (List Buf)

namespace Response

/-- `ngx_http_esi_body_filter`, with `header_only` and the input chain. -/
def ngxHttpEsiBodyFilter (stack : ℕ → NgxStr) (s : Response) (c : Bool × List Buf) :
    Except Crash Response :=
  match s.request.ctx with
  | none => .ok { s with passed := s.passed ++ [c.2] }
  | some ctx => do
    let ctx ← ctx.call stack c
    return { s with request := { s.request with ctx := some ctx } }

/-- The header filter, and the calls of the body filter behind it. -/
def serve (nginx : Nginx) (conf : LocConf) (stack : ℕ → NgxStr) (r : Request)
    (calls : List (Bool × List Buf)) : Except Crash Response := do
  let r ← ngxHttpEsiHeaderFilter nginx conf r
  calls.foldlM (ngxHttpEsiBodyFilter stack) ⟨r, []⟩

/-- The chains that the next body filter has been called with. -/
def handed (s : Response) : List (List Buf) :=
  s.passed ++ s.request.ctx.elim [] fun ctx => ctx.handed.map Handed.bufs

/-- The includes that were started. -/
def includes (s : Response) : List Include := s.request.ctx.elim [] Ctx.includes

variable {stack : ℕ → NgxStr} {calls : List (Bool × List Buf)} {r : Request}

theorem foldlM_of_none (hr : r.ctx = none) (passed : List (List Buf)) :
    calls.foldlM (ngxHttpEsiBodyFilter stack) ⟨r, passed⟩ =
      .ok ⟨r, passed ++ calls.map Prod.snd⟩ := by
  induction calls generalizing passed with
  | nil => rw [List.map_nil, List.append_nil]; rfl
  | cons c calls ih =>
    have hcall : ngxHttpEsiBodyFilter stack ⟨r, passed⟩ c = .ok ⟨r, passed ++ [c.2]⟩ := by
      rw [ngxHttpEsiBodyFilter, hr]
    have happend : passed ++ [c.2] ++ calls.map Prod.snd = passed ++ (c :: calls).map Prod.snd :=
      List.append_assoc _ _ _
    rw [List.foldlM_cons, hcall, ← happend]
    exact ih (passed ++ [c.2])

theorem foldlM_of_some (r : Request) (ctx : Ctx) (passed : List (List Buf)) :
    calls.foldlM (ngxHttpEsiBodyFilter stack) ⟨{ r with ctx := some ctx }, passed⟩ =
      (calls.foldlM (Ctx.call stack) ctx).map fun ctx => ⟨{ r with ctx := some ctx }, passed⟩ := by
  induction calls generalizing ctx with
  | nil => rfl
  | cons c calls ih =>
    rw [List.foldlM_cons, List.foldlM_cons, Run.map_bind, ngxHttpEsiBodyFilter]
    dsimp only
    cases ctx.call stack c with
    | error fault => rfl
    | ok ctx' => exact ih ctx'

/-- What becomes of a response, in whatever blocks it is served.  If it is not filtered, its chains
are passed on as they come.  If it is, and its calls read less than 2 GiB and write past no echo
buffer, the body filter fails where `Downstream` does and with the same fault, or it hands over the
same chains and requests the same uris. -/
theorem serve_downstream {nginx : Nginx} (h : nginx.Documented) (main : Block)
    {blocks : List Block} (hblocks : blocks ≠ []) (frees : Option Bytes → Prop)
    (stack : ℕ → NgxStr) (hstack : Harmless frees stack) (r : Request) (hr : r.ctx = none)
    (calls : List (Bool × List Buf)) :
    let served := serve nginx (inForce nginx main blocks) stack r calls
    (Filtered (main :: blocks) r → (calls.flatMap Relay.readBytes).length < 2 ^ 31 →
        Relay.Fits calls →
        Run.Agree (fun s d => s.handed = d.handed ∧
            Requested frees d.routing.included s.includes) served
          (calls.foldlM Downstream.call .new)) ∧
      (¬ Filtered (main :: blocks) r → served = .ok ⟨r, calls.map Prod.snd⟩) := by
  intro served
  constructor
  · intro hfiltered hlen hfits
    have hserved : served = (calls.foldlM (Ctx.call stack) Ctx.new).map fun ctx =>
        ⟨{ r.accept with ctx := some ctx }, []⟩ := by
      refine (congrArg (· >>= _) (headerFilter_of_filtered h hblocks hfiltered)).trans ?_
      exact foldlM_of_some r.accept Ctx.new []
    have hagree := Ctx.run_downstream stack calls hlen hfits
    rw [hserved]
    generalize calls.foldlM (Ctx.call stack) Ctx.new = x at hagree
    generalize calls.foldlM Downstream.call .new = y at hagree
    cases hagree with
    | error fault => exact .error fault
    | ok hdelivers =>
      obtain ⟨n, e, hdelivers⟩ := hdelivers
      exact .ok ⟨hdelivers.handed, hdelivers.requested hstack⟩
  · intro hfiltered
    refine (congrArg (· >>= _) (headerFilter_of_not h hblocks hfiltered)).trans ?_
    exact foldlM_of_none hr []

/-- `esi on`, a location in it, and `a<esi:vars>b</esi:vars>` as `text/html`. -/
theorem serve_downstream_location :
    let nginx : Nginx := ⟨fun conf prev default => some ((conf.or prev).getD default),
      fun conf prev default => some ((conf.or prev).getD default), compareBytes⟩
    let main : Block := ⟨some true, none, none, none, []⟩
    let location : Block := ⟨none, none, none, none, []⟩
    let r : Request := ⟨true, textHtml.1, -1, false, none, []⟩
    let calls := [(false, [Buf.mk (97 :: Ctx.bareElement .esiVars [98]) true])]
    ∃ s, serve nginx (inForce nginx main [location]) (fun _ => ⟨0, none⟩) r calls = .ok s ∧
      s.handed = [[⟨[97], false⟩, ⟨[98], true⟩]] ∧ s.includes = [] := by
  intro nginx main location r calls
  have hdocumented : nginx.Documented :=
    ⟨fun _ _ _ => rfl, fun _ _ _ => rfl, fun s t n _ _ => compareBytes_eq_zero s t.1 n⟩
  obtain ⟨hserved, -⟩ :=
    serve_downstream hdocumented main (List.cons_ne_nil location [])
      (fun data => data.isSome = true) (fun _ => ⟨0, none⟩) (fun _ => ⟨rfl, Bool.false_ne_true⟩)
      r rfl calls
  have hagree := hserved ⟨rfl, List.cons_ne_nil _ _, by decide, textHtml, List.mem_singleton_self _,
    List.prefix_rfl⟩ (by decide +kernel) (by decide +kernel)
  have hrun : (calls.foldlM Downstream.call .new).map (fun d => (d.handed, d.routing.included)) =
      .ok ([[⟨[97], false⟩, ⟨[98], true⟩]], []) := by
    decide +kernel
  obtain ⟨d, hd, heq⟩ := Run.map_ok hrun
  obtain ⟨hhanded, hincluded⟩ := Prod.mk.inj heq
  obtain ⟨s, hs, hserves, hrequested⟩ := hagree.ok_right hd
  have hattributes := hrequested.attributes
  rw [hincluded] at hattributes
  exact ⟨s, hs, hserves.trans hhanded, List.map_eq_nil_iff.1 hattributes⟩

end Response

end NginxEsi
