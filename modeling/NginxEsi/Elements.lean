import Mathlib.Data.List.Induction
import NginxEsi.Routing

/-!
# The list of open elements

`ctx->root_tag` is meant to be the list of the open elements, outermost first, and `ctx->open_tag`
the innermost one.  An end tag searches the list from the root and closes the first element of its
type with everything behind it, so the list stays right as long as no element is closed inside
another one of its type (`listsOpen_iff`).  An end tag that finds no element sets `ctx->open_tag` to
`NULL` (`endTag_stray_iff`).
-/

namespace NginxEsi

open LinkedList

/-- A name that is taken for the type. -/
abbrev TagName (type : TagType) := { name : Bytes // esiTagStrToType name = some type }

/-- A call of one of the two tag handlers for a known type. -/
inductive TagEvent where
  | start (type : TagType) (name : TagName type) (attributes : List ESIAttribute)
  | stop (type : TagType) (name : TagName type)

namespace TagEvent

def callback : TagEvent → Callback
  | start _ name attributes => .startTag name.1 attributes
  | stop _ name => .endTag name.1

/-- The elements open behind a callback, with the tags made for them; `n` is the tag that the next
start callback makes.  An end callback that is not for the innermost element fails. -/
def nest : ℕ × List (ℕ × TagType) → TagEvent → Option (ℕ × List (ℕ × TagType))
  | (n, l), start type _ _ => some (n + 1, l ++ [(n, type)])
  | (n, l), stop type _ => if l.getLast?.map Prod.snd = some type then some (n, l.dropLast) else none

/-- Every end callback is for the innermost element, as in a well-nested sequence and in every
beginning of one.  The result is what is open at the end. -/
def nested (n : ℕ) (w : List TagEvent) : Option (ℕ × List (ℕ × TagType)) := w.foldlM nest (n, [])

theorem nested_concat (n : ℕ) (w : List TagEvent) (e : TagEvent) :
    nested n (w ++ [e]) = (nested n w).bind fun s => nest s e := by
  rw [nested, List.foldlM_append]
  change (nested n w >>= fun s => nest s e >>= pure) = _
  simp only [bind_pure]
  rfl

theorem nest_stop {n n' : ℕ} {l l' : List (ℕ × TagType)} {type : TagType} {name : TagName type}
    (h : nest (n, l) (stop type name) = some (n', l')) :
    n' = n ∧ ∃ i, l = l' ++ [(i, type)] := by
  rw [nest] at h
  split_ifs at h with hlast
  rw [Option.some.injEq, Prod.mk.injEq] at h
  obtain ⟨rfl, rfl⟩ := h
  refine ⟨rfl, ?_⟩
  rcases l.eq_nil_or_concat' with rfl | ⟨l, ⟨i, a⟩, rfl⟩
  · cases hlast
  · rw [List.getLast?_concat, Option.map_some, Option.some.injEq] at hlast
    obtain rfl : a = type := hlast
    exact ⟨i, by rw [List.dropLast_concat]⟩

theorem nested_left {n : ℕ} {w₁ w₂ : List TagEvent} (h : (nested n (w₁ ++ w₂)).isSome = true) :
    (nested n w₁).isSome = true := by
  rw [nested, List.foldlM_append] at h
  rw [nested]
  cases hw : w₁.foldlM nest (n, []) with
  | none =>
    rw [hw] at h
    cases h
  | some s => rfl

/-- An end callback of a nested sequence is for the innermost element. -/
theorem exists_innermost {n m : ℕ} {w₁ w₂ : List TagEvent} {l : List (ℕ × TagType)}
    {type : TagType} {name : TagName type}
    (h : (nested n (w₁ ++ stop type name :: w₂)).isSome = true) (hl : nested n w₁ = some (m, l)) :
    ∃ l' i, l = l' ++ [(i, type)] := by
  rw [← List.singleton_append, ← List.append_assoc] at h
  have hstop := nested_left h
  rw [nested_concat, hl, Option.bind_some] at hstop
  obtain ⟨⟨m', l'⟩, hstop⟩ := Option.isSome_iff_exists.1 hstop
  obtain ⟨-, i, hi⟩ := nest_stop hstop
  exact ⟨l', i, hi⟩

end TagEvent

namespace Ctx

open TagEvent

/-- The routing that has only the flags of the context. -/
def flagged (ctx : Ctx) : Routing :=
  ⟨[], false, ctx.exceptionRaised, ctx.ignoreTag, ctx.includes.map Include.attributes, []⟩

theorem flags_flagged (ctx : Ctx) : ctx.Flags ctx.flagged := ⟨rfl, rfl, rfl⟩

variable {ctx : Ctx} {l : List (ℕ × TagType)} {isOpen : Bool} {type : TagType}

theorem Opens.start (h : ctx.Opens l isOpen) (stack : ℕ → NgxStr) (name : TagName type)
    (attributes : List ESIAttribute) :
    ∃ ctx', ctx.esiParserStartTagCb stack name.1 attributes = .ok ctx' ∧
      ctx'.Opens (l ++ [(ctx.tags.length, type)]) true ∧ ctx'.tags.length = ctx.tags.length + 1 := by
  obtain ⟨ctx', hok, hopens, -, -, hlen⟩ :=
    startTag_ok h.links ctx.flags_flagged name.2 stack attributes
  exact ⟨ctx', hok, hopens, hlen⟩

theorem takeWhile_elements {l₁ l₂ : List (ℕ × TagType)} {next : ℕ} (h : ∀ e ∈ l₁, e.2 ≠ type) :
    (l₁ ++ (next, type) :: l₂).takeWhile (fun e => e.2 ≠ type) = l₁ := by
  rw [List.takeWhile_append_of_pos fun e he => decide_eq_true (h e he),
    List.takeWhile_cons_of_neg (by simp), List.append_nil]

/-- What an end tag does: the tags in front of the first one of its type stay. -/
theorem endTag_ok {r : Routing} (hl : Links ctx.tags ctx.rootTag l none) (hf : ctx.Flags r)
    (name : TagName type) :
    ∃ ctx', ctx.esiParserEndTagCb name.1 = .ok ctx' ∧ ctx'.tags.length = ctx.tags.length ∧
      ctx'.Flags (if type ∈ l.map Prod.snd then r.closed type else r) ∧
      (type ∈ l.map Prod.snd → ctx'.Opens (l.takeWhile fun e => e.2 ≠ type) true) ∧
      (type ∉ l.map Prod.snd →
        ctx' = { ctx with openTag := if l = [] then ctx.openTag else none }) := by
  by_cases hmem : type ∈ l.map Prod.snd
  · rw [if_pos hmem]
    obtain ⟨l₁, next, l₂, rfl, hl₁⟩ := exists_first hmem
    rw [takeWhile_elements hl₁]
    cases l₁ with
    | nil =>
      obtain ⟨ctx', hok, hopens, hflags, -, hlen⟩ := endTag_root hl hf name.2
      exact ⟨ctx', hok, hlen, hflags, fun _ => ⟨hopens.links, hopens.openTag⟩,
        fun h => absurd hmem h⟩
    | cons e l₁ =>
      obtain ⟨ha, hl₁⟩ := List.forall_mem_cons.1 hl₁
      obtain ⟨ctx', hok, hopens, hflags, -, hlen⟩ := endTag_child hl ha hl₁ hf name.2
      exact ⟨ctx', hok, hlen, hflags, fun _ => hopens, fun h => absurd hmem h⟩
  · rw [if_neg hmem]
    rcases l with - | ⟨⟨root, a⟩, l⟩
    · exact ⟨ctx, endTag_nil (links_nil.1 hl) name.1, rfl, hf, fun h => absurd h hmem, fun _ => rfl⟩
    · exact ⟨_, endTag_miss hl hmem name.2, rfl, ⟨hf.1, hf.2, hf.3⟩, fun h => absurd h hmem,
        fun _ => rfl⟩

/-- What an end tag leaves open: the elements in front of the first one of its type. -/
theorem Opens.stop (h : ctx.Opens l isOpen) (name : TagName type) :
    ∃ ctx', ctx.esiParserEndTagCb name.1 = .ok ctx' ∧ ctx'.tags.length = ctx.tags.length ∧
      (type ∈ l.map Prod.snd → ctx'.Opens (l.takeWhile fun e => e.2 ≠ type) true) ∧
      (type ∉ l.map Prod.snd →
        ctx' = { ctx with openTag := if l = [] then ctx.openTag else none }) := by
  obtain ⟨ctx', hok, hlen, -, hhit, hmiss⟩ := endTag_ok h.links ctx.flags_flagged name
  exact ⟨ctx', hok, hlen, hhit, hmiss⟩

/-- The end tag of the innermost element closes just that, unless another one of its type is
open. -/
theorem Opens.stop_innermost {i : ℕ} (h : ctx.Opens (l ++ [(i, type)]) isOpen)
    (name : TagName type) :
    ∃ ctx', ctx.esiParserEndTagCb name.1 = .ok ctx' ∧ ctx'.tags.length = ctx.tags.length ∧
      (ctx'.Opens l true ↔ type ∉ l.map Prod.snd) := by
  obtain ⟨ctx', hok, hlen, hhit, -⟩ := h.stop name
  have hopens := hhit (by simp)
  refine ⟨ctx', hok, hlen, fun hl hmem => ?_, fun hmiss => ?_⟩
  · obtain ⟨l₁, next, l₂, rfl, hl₁⟩ := exists_first hmem
    have htake := hopens.links.unique hl.links
    rw [List.append_assoc, List.cons_append, takeWhile_elements hl₁] at htake
    have hlength := congrArg List.length htake
    rw [List.length_append, List.length_cons] at hlength
    omega
  · rwa [takeWhile_elements fun e he heq => hmiss (List.mem_map.2 ⟨e, he, heq⟩)] at hopens

/-! ## Nested callbacks -/

/-- Behind the callbacks the list from `root_tag` is the stack of the elements open, and `open_tag`
the innermost one. -/
def ListsOpen (stack : ℕ → NgxStr) (ctx : Ctx) (w : List TagEvent) : Prop :=
  ∃ ctx' l, (w.map callback).foldlM (handle stack) ctx = .ok ctx' ∧
    nested ctx.tags.length w = some (ctx'.tags.length, l) ∧ ctx'.Opens l true

/-- One more callback. -/
theorem foldlM_handle_concat {stack : ℕ → NgxStr} {w : List TagEvent} {ctx' : Ctx}
    (h : (w.map callback).foldlM (handle stack) ctx = .ok ctx') (e : TagEvent) :
    ((w ++ [e]).map callback).foldlM (handle stack) ctx = ctx'.handle stack e.callback := by
  rw [List.map_append, List.foldlM_append, h]
  change ctx'.handle stack e.callback >>= pure = _
  exact bind_pure _

theorem ListsOpen.start {stack : ℕ → NgxStr} {w : List TagEvent} (h : ListsOpen stack ctx w)
    (name : TagName type) (attributes : List ESIAttribute) :
    ListsOpen stack ctx (w ++ [.start type name attributes]) := by
  obtain ⟨m, l, hrun, hnested, hopens⟩ := h
  obtain ⟨ctx', hok, hopens', hlen⟩ := hopens.start stack name attributes
  refine ⟨ctx', _, (foldlM_handle_concat hrun _).trans hok, ?_, hopens'⟩
  rw [nested_concat, hnested, hlen]
  rfl

/-- An end callback that is due keeps the list in step unless another element of its type is
open. -/
theorem ListsOpen.stop_iff {stack : ℕ → NgxStr} {w : List TagEvent} {n i : ℕ}
    (h : ListsOpen stack ctx w) (hnested : nested ctx.tags.length w = some (n, l ++ [(i, type)]))
    (name : TagName type) :
    ListsOpen stack ctx (w ++ [.stop type name]) ↔ type ∉ l.map Prod.snd := by
  obtain ⟨m, l₀, hrun, hnested₀, hopens⟩ := h
  obtain ⟨rfl, rfl⟩ := Prod.mk.inj (Option.some.inj (hnested₀.symm.trans hnested))
  obtain ⟨ctx', hok, hlen, hiff⟩ := hopens.stop_innermost name
  have hrun' := (foldlM_handle_concat hrun (.stop type name)).trans hok
  have hnested' : nested ctx.tags.length (w ++ [.stop type name]) = some (ctx'.tags.length, l) := by
    rw [nested_concat, hnested, hlen, Option.bind_some, nest, List.getLast?_concat,
      Option.map_some, if_pos rfl, List.dropLast_concat]
  rw [← hiff]
  constructor
  · rintro ⟨ctx'', l'', hrun'', hnested'', hopens''⟩
    obtain rfl := Except.ok.inj (hrun'.symm.trans hrun'')
    obtain ⟨-, rfl⟩ := Prod.mk.inj (Option.some.inj (hnested'.symm.trans hnested''))
    exact hopens''
  · exact fun hopens' => ⟨ctx', l, hrun', hnested', hopens'⟩

/-- For nested callbacks, the list from `root_tag` is always the stack of open elements, exactly
when no element is closed while another one of its type is open around it. -/
theorem listsOpen_iff (stack : ℕ → NgxStr) (ctx : Ctx) (hroot : ctx.rootTag = none)
    (hopen : ctx.openTag = none) (w : List TagEvent) (hw : (nested ctx.tags.length w).isSome = true) :
    (∀ w₁ w₂, w = w₁ ++ w₂ → ListsOpen stack ctx w₁) ↔
      ∀ w₁ type name w₂ n l, w = w₁ ++ .stop type name :: w₂ →
        nested ctx.tags.length w₁ = some (n, l) → type ∉ l.dropLast.map Prod.snd := by
  constructor
  · rintro h w₁ type name w₂ n l rfl hl
    obtain ⟨l, i, rfl⟩ := exists_innermost hw hl
    rw [List.dropLast_concat]
    have hbefore := h w₁ _ rfl
    exact (hbefore.stop_iff hl name).1 (h (w₁ ++ [.stop type name]) w₂ (by simp))
  · intro h w₁
    induction w₁ using List.reverseRecOn with
    | nil =>
      refine fun _ _ => ⟨ctx, [], rfl, rfl, ?_, hopen⟩
      rw [hroot]
      exact .nil none
    | append_singleton w₁ e ih =>
      intro w₂ hsplit
      rw [List.append_assoc, List.singleton_append] at hsplit
      have hbefore := ih _ hsplit
      cases e with
      | start type name attributes => exact hbefore.start name attributes
      | stop type name =>
        obtain ⟨m, l, -, hl, -⟩ := id hbefore
        subst hsplit
        obtain ⟨l, i, rfl⟩ := exists_innermost hw hl
        have hmiss := h w₁ type name w₂ _ _ rfl hl
        rw [List.dropLast_concat] at hmiss
        exact (hbefore.stop_iff hl name).2 hmiss

/-- An element `vars`. -/
theorem listsOpen_iff_vars :
    let name : TagName .esiVars := ⟨TagType.esiVars.name, rfl⟩
    let stack : ℕ → NgxStr := fun _ => ⟨0, none⟩
    (∀ w₁ w₂, [.start .esiVars name [], .stop .esiVars name] = w₁ ++ w₂ → ListsOpen stack new w₁) ↔
      ∀ w₁ type name' w₂ n l,
        [.start .esiVars name [], .stop .esiVars name] = w₁ ++ .stop type name' :: w₂ →
        nested 0 w₁ = some (n, l) → type ∉ l.dropLast.map Prod.snd :=
  listsOpen_iff _ new rfl rfl _ rfl

/-- The end of a `vars` inside a `vars` closes both. -/
theorem endTag_closes_root : ¬ ∀ (stack : ℕ → NgxStr) (ctx : Ctx), ctx.rootTag = none →
    ctx.openTag = none → ∀ w n, nested ctx.tags.length w = some (n, []) →
    ∀ w₁ w₂, w = w₁ ++ w₂ → ListsOpen stack ctx w₁ := by
  intro h
  let name : TagName .esiVars := ⟨TagType.esiVars.name, rfl⟩
  let w₁ : List TagEvent :=
    [.start .esiVars name [], .start .esiVars name [], .stop .esiVars name]
  obtain ⟨ctx', l, hrun, hnested, hopens⟩ :=
    h (fun _ => ⟨0, none⟩) new rfl rfl (w₁ ++ [.stop .esiVars name]) 2 rfl w₁ _ rfl
  have hnested' : nested 0 w₁ = some (2, [(0, .esiVars)]) := rfl
  obtain ⟨-, rfl⟩ := Prod.mk.inj (Option.some.inj (hnested.symm.trans hnested'))
  have hroot : ((w₁.map callback).foldlM (handle fun _ => ⟨0, none⟩) new).map rootTag = .ok none := by
    decide +kernel
  have hlinks := (links_cons.1 hopens.links).1
  rw [Run.of_map_ok hrun hroot] at hlinks
  cases hlinks

/-! ## Stray end tags -/

theorem Opens.handle {ctx' : Ctx} (h : ctx.Opens l isOpen) (stack : ℕ → NgxStr) (c : Callback)
    (hc : Ctx.handle stack ctx c = .ok ctx') : ∃ l' isOpen', ctx'.Opens l' isOpen' := by
  cases c with
  | startTag name attributes =>
    cases hname : esiTagStrToType name with
    | none =>
      rw [Ctx.handle, esiParserStartTagCb, hname] at hc
      obtain rfl := Except.ok.inj hc
      exact ⟨l, isOpen, h⟩
    | some type =>
      obtain ⟨m, hok, hopens, -⟩ := h.start stack ⟨name, hname⟩ attributes
      obtain rfl := Except.ok.inj (hok.symm.trans hc)
      exact ⟨_, _, hopens⟩
  | endTag name =>
    cases hname : esiTagStrToType name with
    | none =>
      rw [Ctx.handle, esiParserEndTagCb, hname] at hc
      obtain rfl := Except.ok.inj hc
      exact ⟨l, isOpen, h⟩
    | some type =>
      obtain ⟨m, hok, -, hhit, hmiss⟩ := h.stop ⟨name, hname⟩
      obtain rfl := Except.ok.inj (hok.symm.trans hc)
      by_cases hmem : type ∈ l.map Prod.snd
      · exact ⟨_, _, hhit hmem⟩
      · rw [hmiss hmem]
        split_ifs
        · exact ⟨l, isOpen, h⟩
        · exact ⟨l, false, h.links, rfl⟩
  | output data =>
    obtain ⟨buf, -, hc⟩ := Run.bind_ok hc
    cases buf with
    | none =>
      obtain rfl := Except.ok.inj hc
      exact ⟨l, isOpen, h⟩
    | some buf =>
      obtain ⟨⟨lastBuf, links⟩, -, hc⟩ := Run.bind_ok hc
      obtain rfl := Except.ok.inj hc
      exact ⟨l, isOpen, h.links, h.openTag⟩

/-- Whatever callbacks were made, a list of tags hangs at `root_tag`. -/
theorem exists_opens {stack : ℕ → NgxStr} {callbacks : List Callback} {ctx₀ : Ctx}
    (hroot : ctx₀.rootTag = none) (hopen : ctx₀.openTag = none)
    (hrun : callbacks.foldlM (handle stack) ctx₀ = .ok ctx) : ∃ l isOpen, ctx.Opens l isOpen := by
  refine Run.invariant (I := fun _ ctx => ∃ l isOpen, Opens ctx l isOpen)
    (fun _ _ c _ ⟨_, _, h⟩ hc => h.handle stack c hc) (u := []) ⟨[], false, ?_, hopen⟩ hrun
  rw [hroot]
  exact .nil none

/-- A stray end tag changes nothing exactly when `open_tag` is `NULL` already. -/
theorem endTag_stray_iff (stack : ℕ → NgxStr) (ctx₀ ctx : Ctx) (callbacks : List Callback)
    (hroot₀ : ctx₀.rootTag = none) (hopen₀ : ctx₀.openTag = none)
    (hrun : callbacks.foldlM (handle stack) ctx₀ = .ok ctx) (hroot : ctx.rootTag ≠ none) :
    ∃ l, Links ctx.tags ctx.rootTag l none ∧
      ∀ type (name : TagName type), type ∉ l.map Prod.snd →
        ∃ ctx', ctx.esiParserEndTagCb name.1 = .ok ctx' ∧
          ((ctx'.rootTag = ctx.rootTag ∧ Links ctx'.tags ctx'.rootTag l none ∧
            ctx'.openTag = ctx.openTag ∧ ∀ later : List Callback,
              later.foldlM (handle stack) ctx' = later.foldlM (handle stack) ctx) ↔
            ctx.openTag = none) := by
  obtain ⟨l, isOpen, hopens⟩ := exists_opens hroot₀ hopen₀ hrun
  refine ⟨l, hopens.links, fun type name hmiss => ?_⟩
  have hne : l ≠ [] := by
    rintro rfl
    exact hroot (links_nil.1 hopens.links)
  obtain ⟨ctx', hok, -, -, hctx'⟩ := hopens.stop name
  have hctx' := hctx' hmiss
  rw [if_neg hne] at hctx'
  subst hctx'
  refine ⟨_, hok, fun h => h.2.2.1.symm, fun hopen => ?_⟩
  have hsame : { ctx with openTag := none } = ctx := by
    rw [← hopen]
  rw [hsame]
  exact ⟨rfl, hopens.links, rfl, fun _ => rfl⟩

/-- Inside an element `remove`. -/
theorem endTag_stray_iff_remove :
    ∃ ctx, [Callback.startTag TagType.esiRemove.name []].foldlM (handle fun _ => ⟨0, none⟩) new =
        .ok ctx ∧
      ∃ l, Links ctx.tags ctx.rootTag l none ∧
        ∀ type (name : TagName type), type ∉ l.map Prod.snd →
          ∃ ctx', ctx.esiParserEndTagCb name.1 = .ok ctx' ∧
            ((ctx'.rootTag = ctx.rootTag ∧ Links ctx'.tags ctx'.rootTag l none ∧
              ctx'.openTag = ctx.openTag ∧ ∀ later : List Callback,
                later.foldlM (handle fun _ => ⟨0, none⟩) ctx' =
                  later.foldlM (handle fun _ => ⟨0, none⟩) ctx) ↔ ctx.openTag = none) :=
  ⟨_, rfl, endTag_stray_iff _ new _ [.startTag TagType.esiRemove.name []] rfl rfl rfl (by decide)⟩

/-- The end of a `vars` inside a `remove` sets `open_tag` to `NULL`. -/
theorem endTag_loses_open : ¬ ∀ (stack : ℕ → NgxStr) (ctx₀ ctx : Ctx) (callbacks : List Callback),
    ctx₀.rootTag = none → ctx₀.openTag = none → callbacks.foldlM (handle stack) ctx₀ = .ok ctx →
    ctx.rootTag ≠ none → ∀ l, Links ctx.tags ctx.rootTag l none →
    ∀ type (name : TagName type), type ∉ l.map Prod.snd →
      ∃ ctx', ctx.esiParserEndTagCb name.1 = .ok ctx' ∧ ctx'.rootTag = ctx.rootTag ∧
        Links ctx'.tags ctx'.rootTag l none ∧ ctx'.openTag = ctx.openTag ∧
        ∀ later : List Callback,
          later.foldlM (handle stack) ctx' = later.foldlM (handle stack) ctx := by
  intro h
  obtain ⟨ctx', hok, -, -, hopen, -⟩ := h (fun _ => ⟨0, none⟩) new _
    [.startTag TagType.esiRemove.name []] rfl rfl rfl (by decide) [(0, .esiRemove)]
    (.cons rfl (.nil none)) .esiVars ⟨TagType.esiVars.name, rfl⟩ (by decide)
  obtain rfl := Except.ok.inj hok
  cases hopen

end Ctx

end NginxEsi
