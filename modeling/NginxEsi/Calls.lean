import NginxEsi.Nesting

/-!
# Several calls of the body filter

A response may reach `ngx_http_esi_body_filter` in several calls.  The parser goes on where the last
call left it, but every call sets `root_tag` and `open_tag` to `NULL`.  As long as no element is
open where a call begins that changes nothing, and the output chain is the one of a single call
(`calls_bytes`).
-/

namespace NginxEsi

namespace Ctx

variable {chunks more : List Bytes} {ctx ctx' : Ctx} {stack : ℕ → NgxStr} {headerOnly : Bool}

/-- Some calls have passed the chunks to the parser, and no last buffer has been seen. -/
structure Between (chunks : List Bytes) (ctx : Ctx) : Prop where
  run : ESIParser.new.executeAllBounded chunks = .ok (ctx.parser.getD .new)
  inStep : InStep .new (ctx.parser.getD .new) ctx

theorem new_between : Between [] new := ⟨rfl, new_inStep⟩

/-- Without an open element there is nothing to reset. -/
theorem Routes.enter_eq {r : Routing} (h : ctx.Routes r) (hroot : ctx.rootTag = none) :
    ctx.enter = ctx := by
  obtain ⟨l, hl, -, hopen⟩ := h.tags
  rw [hroot] at hl
  obtain rfl := hl.unique (.nil none)
  have hnone : ctx.openTag = none := by
    rw [hopen]
    split_ifs <;> rfl
  cases ctx
  cases hroot
  cases hnone
  rfl

theorem ngxHttpEsiBodyFilter_ok {input : List Buf} (hne : input ≠ [])
    (h : ngxHttpEsiBodyFilter stack false ctx input = .ok ctx') :
    ∃ b parser ctx₁ ctx₂, ctx.bodyFilterInput stack input = .ok (b, parser, ctx₁) ∧
      ctx₁.markLast = .ok ctx₂ ∧ ctx' = { ctx₂ with
        parser := if b then none else some parser
        handed := ctx₂.handed ++ [.chain ctx₂.chainLinks] } := by
  rw [ngxHttpEsiBodyFilter, if_neg (by simp [hne])] at h
  obtain ⟨⟨b, parser, ctx₁⟩, hloop, h⟩ := Run.bind_ok h
  obtain ⟨ctx₂, hmark, h⟩ := Run.bind_ok h
  exact ⟨b, parser, ctx₁, ctx₂, hloop, hmark, (Except.ok.inj h).symm⟩

/-- The parser and what was handed over have no part in the routing. -/
theorem Routes.outside {r : Routing} (h : ctx.Routes r) (parser : Option ESIParser)
    (handed : List Handed) : Routes { ctx with parser := parser, handed := handed } r :=
  ⟨h.tags, h.isOpen, ⟨h.flags.1, h.flags.2, h.flags.3⟩, h.holds⟩

/-- What the filter does behind its loop does not change the routing. -/
theorem Routes.after {r : Routing} (h : ctx.Routes r) (hmark : ctx.markLast = .ok ctx')
    (parser : Option ESIParser) (handed : List Handed) :
    Routes { ctx' with parser := parser, handed := handed } r :=
  (h.markLast hmark).outside parser handed

theorem Between.call (h : Between chunks ctx) (hroot : unmarked more ≠ [] → ctx.rootTag = none)
    (hcall : ngxHttpEsiBodyFilter stack false ctx (unmarked more) = .ok ctx') :
    Between (chunks ++ more) ctx' := by
  by_cases hne : unmarked more = []
  · rw [ngxHttpEsiBodyFilter, if_pos (.inl hne)] at hcall
    obtain rfl := Except.ok.inj hcall
    obtain rfl := List.map_eq_nil_iff.1 hne
    rw [List.append_nil]
    exact ⟨h.run, h.inStep.outside _ _⟩
  · obtain ⟨b, parser, ctx₁, ctx₂, hloop, hmark, rfl⟩ := ngxHttpEsiBodyFilter_ok hne hcall
    rw [bodyFilterInput, h.inStep.enter_eq (hroot hne), ← List.append_nil (unmarked more)] at hloop
    obtain ⟨m, -, hm, -⟩ := executeAll_of_loop hloop
    obtain ⟨ctx₁', hstep, hloop'⟩ := bodyFilterLoop_unmarked h.inStep stack [] hm
    have heq := Except.ok.inj (hloop.symm.trans (hloop'.trans rfl))
    obtain ⟨rfl, hpair⟩ := Prod.mk.inj heq
    obtain ⟨rfl, rfl⟩ := Prod.mk.inj hpair
    exact ⟨Run.append_ok.2 ⟨_, h.run, hm⟩, hstep.after hmark _ _⟩

/-- The call with the last buffer completes the run of the parser. -/
theorem Between.lastCall {final : List Bytes} {last : Bytes} (h : Between chunks ctx)
    (hroot : ctx.rootTag = none)
    (hcall : ngxHttpEsiBodyFilter stack false ctx (inputChain final last) = .ok ctx') :
    ∃ c, ESIParser.parseBounded (chunks ++ final ++ [last]) = .ok c ∧
      ctx'.bytes = (c.out.callbacks.foldl Routing.handle .new).sent := by
  have hne : inputChain final last ≠ [] := List.append_ne_nil_of_right_ne_nil _ (by simp)
  obtain ⟨b, parser, ctx₁, ctx₂, hloop, hmark, rfl⟩ := ngxHttpEsiBodyFilter_ok hne hcall
  rw [bodyFilterInput, h.inStep.enter_eq hroot] at hloop
  obtain ⟨m, hm⟩ := executeAll_of_last hloop
  obtain ⟨ctx₁', hstep, hloop'⟩ := bodyFilterLoop_last h.inStep stack hm
  have heq := Except.ok.inj (hloop.symm.trans hloop')
  obtain ⟨rfl, hpair⟩ := Prod.mk.inj heq
  obtain ⟨rfl, rfl⟩ := Prod.mk.inj hpair
  refine ⟨m.finish, ?_, (hstep.after hmark _ _).holds.bytes_eq⟩
  have hrun : ESIParser.new.executeAllBounded (chunks ++ final ++ [last]) = .ok m := by
    rw [List.append_assoc]
    exact Run.append_ok.2 ⟨_, h.run, hm⟩
  rw [ESIParser.parseBounded, hrun]
  rfl

/-- No element is open where a call begins that has something to read. -/
def StartsClosed (ctx : Ctx) (input : List Buf) : Prop := input ≠ [] → ctx.rootTag = none

theorem calls_between {earlier : List (List Bytes)}
    (hcalls : (earlier.map unmarked).foldlM (ngxHttpEsiBodyFilter stack false) ctx = .ok ctx')
    (hroot : Run.Each (ngxHttpEsiBodyFilter stack false) StartsClosed ctx (earlier.map unmarked))
    (h : Between chunks ctx) : Between (chunks ++ earlier.flatten) ctx' := by
  induction earlier generalizing chunks ctx with
  | nil =>
    obtain rfl := Except.ok.inj hcalls
    simpa using h
  | cons more earlier ih =>
    rw [List.map_cons] at hcalls hroot
    obtain ⟨m, hm, hcalls⟩ := Run.cons_ok.1 hcalls
    obtain ⟨hstart, hroot⟩ := Run.each_cons.1 hroot
    have hnext := ih hcalls (hroot m hm) (h.call hstart hm)
    rwa [List.flatten_cons, ← List.append_assoc]

/-- A request without a body: every call passes its input on. -/
theorem headerOnly_bytes {calls : List (List Buf)}
    (h : calls.foldlM (ngxHttpEsiBodyFilter stack true) ctx = .ok ctx') :
    ctx'.bytes = ctx.bytes := by
  induction calls generalizing ctx with
  | nil =>
    obtain rfl := Except.ok.inj h
    rfl
  | cons input calls ih =>
    obtain ⟨m, hm, h⟩ := Run.cons_ok.1 h
    rw [ngxHttpEsiBodyFilter, if_pos (.inr rfl)] at hm
    obtain rfl := Except.ok.inj hm
    have hbytes := ih h
    exact hbytes

/-- An element without attributes around the text. -/
def bareElement (type : TagType) (text : Bytes) : Bytes :=
  (Segment.startTag type.letters).render ++ text ++ (Segment.endTag type.letters).render

/-- When no element is open at the start of a call, the calls leave in the output chain what one
call on the whole response does. -/
theorem calls_bytes (stack stack' : ℕ → NgxStr) (headerOnly : Bool) (earlier : List (List Bytes))
    (final : List Bytes) (last : Bytes) (init : List Bytes) (lastOne : Bytes) (ctx one : Ctx)
    (hbytes : (earlier.flatten ++ final ++ [last]).flatten = (init ++ [lastOne]).flatten)
    (hcalls : (earlier.map unmarked ++ [inputChain final last]).foldlM
      (ngxHttpEsiBodyFilter stack headerOnly) new = .ok ctx)
    (hone : ngxHttpEsiBodyFilter stack' headerOnly new (inputChain init lastOne) = .ok one)
    (hroot : Run.Each (ngxHttpEsiBodyFilter stack headerOnly) StartsClosed new
      (earlier.map unmarked ++ [inputChain final last]))
    (hrange : ESIParser.InRange (earlier.flatten ++ final ++ [last]))
    (hrangeOne : ESIParser.InRange (init ++ [lastOne])) :
    ctx.bytes = one.bytes := by
  cases headerOnly with
  | true =>
    have hone' : [inputChain init lastOne].foldlM (ngxHttpEsiBodyFilter stack' true) new =
        .ok one := Run.cons_ok.2 ⟨one, hone, rfl⟩
    rw [headerOnly_bytes hcalls, headerOnly_bytes hone']
  | false =>
    obtain ⟨m, hearlier, hlast⟩ := Run.concat_ok.1 hcalls
    have hbetween := calls_between hearlier hroot.left new_between
    have hne : inputChain final last ≠ [] := List.append_ne_nil_of_right_ne_nil _ (by simp)
    have hclosed : m.rootTag = none := hroot _ _ [] m rfl hearlier hne
    obtain ⟨c, hc, hctx⟩ := hbetween.lastCall hclosed hlast
    obtain ⟨c', hc', hone⟩ := new_between.lastCall rfl hone
    have hcallbacks : c.out.callbacks = c'.out.callbacks := by
      have h := ESIParser.outcome_parse hrange
      rw [hbytes, ← ESIParser.outcome_parse hrangeOne] at h
      rw [List.nil_append] at hc hc'
      rw [(ESIParser.parseBounded_ok hc).1, (ESIParser.parseBounded_ok hc').1] at h
      exact (Prod.mk.inj (Except.ok.inj h)).1
    rw [hctx, hone, hcallbacks]

/-- `a<esi:vars>b</esi:vars>` and `c` in two calls. -/
theorem calls_bytes_vars : ∃ ctx one,
    [unmarked [97 :: bareElement .esiVars [98]], inputChain [] [99]].foldlM
      (ngxHttpEsiBodyFilter (fun _ => ⟨0, none⟩) false) new = .ok ctx ∧
    ngxHttpEsiBodyFilter (fun _ => ⟨0, none⟩) false new
      (inputChain [] (97 :: bareElement .esiVars [98] ++ [99])) = .ok one ∧
    ctx.bytes = one.bytes := by
  have hfirst : (ngxHttpEsiBodyFilter (fun _ => ⟨0, none⟩) false new
      (unmarked [97 :: bareElement .esiVars [98]])).map Ctx.rootTag = .ok none := by decide +kernel
  have hcalls : ([unmarked [97 :: bareElement .esiVars [98]], inputChain [] [99]].foldlM
      (ngxHttpEsiBodyFilter (fun _ => ⟨0, none⟩) false) new).map Ctx.bytes = .ok [97, 98, 99] := by
    decide +kernel
  have hone : (ngxHttpEsiBodyFilter (fun _ => ⟨0, none⟩) false new
      (inputChain [] (97 :: bareElement .esiVars [98] ++ [99]))).map Ctx.bytes =
        .ok [97, 98, 99] := by
    decide +kernel
  obtain ⟨ctx, hctx, -⟩ := Run.map_ok hcalls
  obtain ⟨one, hone, -⟩ := Run.map_ok hone
  refine ⟨ctx, one, hctx, hone, calls_bytes (fun _ => ⟨0, none⟩) (fun _ => ⟨0, none⟩) false
    [[97 :: bareElement .esiVars [98]]] [] [99] [] _ ctx one (by decide) hctx hone ?_
    (ESIParser.inRange_of_length (by decide)) (ESIParser.inRange_of_length (by decide))⟩
  refine Run.each_cons.2 ⟨fun _ => rfl, fun m hm => Run.each_cons.2 ⟨fun _ => ?_, fun _ _ =>
    Run.each_nil _⟩⟩
  rw [hm] at hfirst
  exact Except.ok.inj hfirst

/-- `a<esi:remove>` in one call and `b</esi:remove>c` in the next one: `b` is sent. -/
theorem calls_lose_element : ¬ ∀ (stack stack' : ℕ → NgxStr) (headerOnly : Bool) (d : Content [])
    (earlier : List (List Bytes)) (final : List Bytes) (last : Bytes) (init : List Bytes)
    (lastOne : Bytes) (ctx one : Ctx),
    (earlier.flatten ++ final ++ [last]).flatten = d.render →
    (init ++ [lastOne]).flatten = d.render →
    (earlier.map unmarked ++ [inputChain final last]).foldlM
      (ngxHttpEsiBodyFilter stack headerOnly) new = .ok ctx →
    ngxHttpEsiBodyFilter stack' headerOnly new (inputChain init lastOne) = .ok one →
    ctx.bytes = one.bytes := by
  intro h
  have hcalls : (([[97 :: (bareElement .esiRemove []).take 12]].map unmarked ++
      [inputChain [] (98 :: (bareElement .esiRemove []).drop 12 ++ [99])]).foldlM
      (ngxHttpEsiBodyFilter (fun _ => ⟨0, none⟩) false) new).map Ctx.bytes = .ok [97, 98, 99] := by
    decide +kernel
  have hone : (ngxHttpEsiBodyFilter (fun _ => ⟨0, none⟩) false new
      (inputChain [] (97 :: bareElement .esiRemove [98] ++ [99]))).map Ctx.bytes =
        .ok [97, 99] := by
    decide +kernel
  obtain ⟨ctx, hctx, hbytes⟩ := Run.map_ok hcalls
  obtain ⟨one, hone, hbytesOne⟩ := Run.map_ok hone
  have heq := h _ _ false (.element ⟨[97], by decide⟩ .esiRemove List.not_mem_nil .bare
    (.last ⟨[98], by decide⟩) (.last ⟨[99], by decide⟩)) _ [] _ [] _ ctx one (by decide) (by decide)
    hctx hone
  rw [hbytes, hbytesOne] at heq
  exact absurd heq (by decide)

end Ctx

end NginxEsi
