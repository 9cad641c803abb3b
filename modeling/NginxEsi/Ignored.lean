import Mathlib.Data.List.TakeWhile
import NginxEsi.Elements

/-!
# The ignore flag

An element `except` sets `ignore_tag`, so that the includes inside it are not requested, and the end
of an `except` clears the flag.  But an end tag closes the first element of its type and discards
those behind it, and neither does a discarded `except` clear the flag nor does the end of one
`except` care for another one.  The flag is right as long as no end tag discards an `except`
(`balanced_of_keeps`).
-/

namespace NginxEsi

open LinkedList

/-! ## The elements that an end tag discards -/

/-- The elements behind the first one of the type. -/
def behind (type : TagType) (l : List (ℕ × TagType)) : List (ℕ × TagType) :=
  (l.dropWhile fun e => e.2 ≠ type).tail

/-- Every `except` that is open is in the list. -/
def Listed (l opened : List (ℕ × TagType)) : Prop := ∀ e ∈ opened, e.2 = .esiExcept → e ∈ l

section Lists

variable {l opened : List (ℕ × TagType)} {type : TagType} {n : ℕ}

theorem takeWhile_eq_self (h : type ∉ l.map Prod.snd) : l.takeWhile (fun e => e.2 ≠ type) = l := by
  apply List.takeWhile_eq_self_iff.2
  intro e he
  exact decide_eq_true fun heq => h (List.mem_map.2 ⟨e, he, heq⟩)

theorem behind_eq_nil (h : type ∉ l.map Prod.snd) : behind type l = [] := by
  rw [behind, List.dropWhile_eq_nil_iff.2, List.tail_nil]
  intro e he
  exact decide_eq_true fun heq => h (List.mem_map.2 ⟨e, he, heq⟩)

theorem behind_elements {l₁ l₂ : List (ℕ × TagType)} (h : ∀ e ∈ l₁, e.2 ≠ type) :
    behind type (l₁ ++ (n, type) :: l₂) = l₂ := by
  rw [behind, List.dropWhile_append_of_pos fun e he => decide_eq_true (h e he),
    List.dropWhile_cons_of_neg (by simp), List.tail_cons]

theorem Listed.start (h : Listed l opened) : Listed (l ++ [(n, type)]) (opened ++ [(n, type)]) := by
  intro e he hexcept
  rcases List.mem_append.1 he with he | he
  · exact List.mem_append_left _ (h e he hexcept)
  · exact List.mem_append_right _ he

theorem Listed.of_start (h : Listed (l ++ [(n, type)]) (opened ++ [(n, type)]))
    (hfresh : ∀ e ∈ opened, e.1 ≠ n) : Listed l opened := by
  intro e he hexcept
  rcases List.mem_append.1 (h e (List.mem_append_left _ he) hexcept) with hl | hl
  · exact hl
  · rw [List.mem_singleton] at hl
    exact absurd (congrArg Prod.fst hl) (hfresh e he)

/-- An end tag that discards no `except` closes an `except` only when it is the last one open. -/
theorem Listed.stop (h : Listed l (opened ++ [(n, type)])) (hnodup : (opened ++ [(n, type)]).Nodup)
    (hkeeps : .esiExcept ∉ (behind type l).map Prod.snd) :
    Listed (l.takeWhile fun e => e.2 ≠ type) opened ∧
      (type = .esiExcept → .esiExcept ∈ l.map Prod.snd ∧ .esiExcept ∉ opened.map Prod.snd) := by
  have hlast : (n, type) ∉ opened := by
    intro hmem
    exact (List.nodup_append.1 hnodup).2.2 _ hmem _ (List.mem_singleton_self _) rfl
  have hopen : ∀ e ∈ opened, e.2 = .esiExcept → e ∈ l :=
    fun e he => h e (List.mem_append_left _ he)
  have hself : type = .esiExcept → (n, type) ∈ l :=
    h (n, type) (List.mem_append_right _ (List.mem_singleton_self _))
  by_cases hmem : type ∈ l.map Prod.snd
  · obtain ⟨l₁, next, l₂, rfl, hl₁⟩ := Ctx.exists_first hmem
    rw [behind_elements hl₁] at hkeeps
    rw [Ctx.takeWhile_elements hl₁]
    have hmiss : ∀ e ∈ l₂, e.2 ≠ .esiExcept := fun e he heq => hkeeps (List.mem_map.2 ⟨e, he, heq⟩)
    -- the first element of the type is no `except` unless it is the one that is closed
    have hfirst : ∀ e ∈ opened, e.2 = .esiExcept → e ∈ l₁ := by
      intro e he hexcept
      rcases List.mem_append.1 (hopen e he hexcept) with hl | hl
      · exact hl
      rcases List.mem_cons.1 hl with rfl | hl
      · have hn := hself hexcept
        rcases List.mem_append.1 hn with hn | hn
        · exact absurd rfl (hl₁ _ hn)
        rcases List.mem_cons.1 hn with hn | hn
        · rw [hn] at hlast
          exact absurd he hlast
        · exact absurd hexcept (hmiss (n, type) hn)
      · exact absurd hexcept (hmiss e hl)
    refine ⟨hfirst, ?_⟩
    rintro rfl
    refine ⟨hmem, fun hexcept => ?_⟩
    obtain ⟨e, he, heq⟩ := List.mem_map.1 hexcept
    exact hl₁ e (hfirst e he heq) heq
  · rw [takeWhile_eq_self hmem]
    refine ⟨hopen, fun htype => ?_⟩
    exact absurd (List.mem_map.2 ⟨_, hself htype, rfl⟩) hmem

/-- When the excepts that stay open are still listed, none of them was discarded, and neither was
the element that the end tag is for if it closed one at all. -/
theorem Listed.of_stop (h : Listed (l.takeWhile fun e => e.2 ≠ type) opened) (hnodup : l.Nodup)
    (hsub : l ⊆ opened ++ [(n, type)])
    (hclosed : type = .esiExcept → .esiExcept ∈ l.map Prod.snd ∧ .esiExcept ∉ opened.map Prod.snd) :
    Listed l (opened ++ [(n, type)]) ∧ .esiExcept ∉ (behind type l).map Prod.snd := by
  by_cases hmem : type ∈ l.map Prod.snd
  · obtain ⟨l₁, next, l₂, rfl, hl₁⟩ := Ctx.exists_first hmem
    rw [Ctx.takeWhile_elements hl₁] at h
    rw [behind_elements hl₁]
    have hsep := List.nodup_append.1 hnodup
    -- an `except` in front of the discarded elements is the one that the end tag is for
    have hfirst : type = .esiExcept → next = n := by
      intro htype
      rcases List.mem_append.1 (hsub (List.mem_append_right l₁ List.mem_cons_self)) with hn | hn
      · exact absurd (List.mem_map.2 ⟨_, hn, htype⟩) (hclosed htype).2
      · exact congrArg Prod.fst (List.mem_singleton.1 hn)
    refine ⟨fun e he hexcept => ?_, fun hexcept => ?_⟩
    · rcases List.mem_append.1 he with he | he
      · exact List.mem_append_left _ (h e he hexcept)
      · obtain rfl := List.mem_singleton.1 he
        rw [hfirst hexcept]
        exact List.mem_append_right _ List.mem_cons_self
    · obtain ⟨e, he, hexcept⟩ := List.mem_map.1 hexcept
      rcases List.mem_append.1 (hsub (List.mem_append_right l₁ (List.mem_cons_of_mem _ he)))
        with hopen | hopen
      · have hkept := h e hopen hexcept
        exact hsep.2.2 e hkept e (List.mem_cons_of_mem _ he) rfl
      · obtain rfl := List.mem_singleton.1 hopen
        rw [← hfirst hexcept] at he
        exact (List.nodup_cons.1 hsep.2.1).1 he
  · rw [takeWhile_eq_self hmem] at h
    rw [behind_eq_nil hmem]
    refine ⟨fun e he hexcept => ?_, List.not_mem_nil⟩
    rcases List.mem_append.1 he with he | he
    · exact h e he hexcept
    · obtain rfl := List.mem_singleton.1 he
      obtain ⟨hlisted, -⟩ := hclosed hexcept
      rw [← hexcept] at hlisted
      exact absurd hlisted hmem

end Lists

namespace Routing

variable {r : Routing}

theorem opened_flags (hexc : r.exceptionRaised = false) (type : TagType)
    (attributes : List ESIAttribute) :
    (r.opened type attributes).exceptionRaised = false ∧
      (r.opened type attributes).ignoreTag = (decide (type = .esiExcept) || r.ignoreTag) := by
  unfold opened
  cases type
  case esiExcept => simp [hexc]
  case esiInclude =>
    split_ifs
    · exact ⟨hexc, rfl⟩
    · exact ⟨hexc, rfl⟩
  all_goals exact ⟨by first | exact hexc | rfl, rfl⟩

theorem closed_flags (hexc : r.exceptionRaised = false) (type : TagType) :
    (r.closed type).exceptionRaised = false ∧
      (r.closed type).ignoreTag = (!decide (type = .esiExcept) && r.ignoreTag) := by
  unfold closed
  cases type
  case esiExcept => simp [hexc]
  all_goals exact ⟨by first | exact hexc | rfl, rfl⟩

/-- The flags behind an end tag, which closes something only where its type is listed. -/
theorem stopped_flags (r : Routing) (l : List (ℕ × TagType)) (type : TagType)
    (hexc : r.exceptionRaised = false) :
    (if type ∈ l.map Prod.snd then r.closed type else r).exceptionRaised = false ∧
      (if type ∈ l.map Prod.snd then r.closed type else r).ignoreTag =
        (!decide (type = .esiExcept ∧ .esiExcept ∈ l.map Prod.snd) && r.ignoreTag) := by
  have hclosed := closed_flags hexc type
  by_cases hmem : type ∈ l.map Prod.snd
  · rw [if_pos hmem, hclosed.2]
    refine ⟨hclosed.1, ?_⟩
    by_cases htype : type = .esiExcept
    · rw [htype] at hmem
      simp [htype, hmem]
    · simp [htype]
  · have hmiss : ¬ (type = .esiExcept ∧ .esiExcept ∈ l.map Prod.snd) := by
      rintro ⟨rfl, hl⟩
      exact hmem hl
    rw [if_neg hmem, decide_eq_false hmiss]
    exact ⟨hexc, rfl⟩

end Routing

namespace Ctx

open TagEvent

variable {stack : ℕ → NgxStr} {ctx ctx' : Ctx} {l opened : List (ℕ × TagType)} {type : TagType}

/-! ## The handlers -/

def handleTag (stack : ℕ → NgxStr) (ctx : Ctx) (e : TagEvent) : Except Crash Ctx :=
  ctx.handle stack e.callback

/-- The tags of `l` hang at `root_tag`, and each of them is for an element that is open. -/
structure Follows (ctx : Ctx) (l opened : List (ℕ × TagType)) : Prop where
  links : Links ctx.tags ctx.rootTag l none
  subset : l ⊆ opened
  nodup : opened.Nodup
  lt_length : ∀ e ∈ opened, e.1 < ctx.tags.length
  exceptionRaised : ctx.exceptionRaised = false

theorem Follows.start (h : ctx.Follows l opened) (stack : ℕ → NgxStr) (name : TagName type)
    (attributes : List ESIAttribute) :
    ∃ ctx', ctx.handleTag stack (.start type name attributes) = .ok ctx' ∧
      ctx'.Follows (l ++ [(ctx.tags.length, type)]) (opened ++ [(ctx.tags.length, type)]) ∧
      ctx'.tags.length = ctx.tags.length + 1 ∧
      ctx'.Flags (ctx.flagged.opened type attributes) := by
  obtain ⟨ctx', hok, hopens, hflags, -, hlen⟩ :=
    startTag_ok h.links ctx.flags_flagged name.2 stack attributes
  refine ⟨ctx', hok, ⟨hopens.links, ?_, ?_, ?_, ?_⟩, hlen, hflags⟩
  · exact List.append_subset.2 ⟨List.subset_append_of_subset_left _ h.subset,
      List.subset_append_right _ _⟩
  · refine List.nodup_append.2 ⟨h.nodup, List.nodup_singleton _, ?_⟩
    intro e he e' he' heq
    have hlt := h.lt_length e he
    rw [heq, List.mem_singleton.1 he'] at hlt
    exact absurd hlt (lt_irrefl _)
  · intro e he
    rw [hlen]
    rcases List.mem_append.1 he with he | he
    · exact Nat.lt_succ_of_lt (h.lt_length e he)
    · rw [List.mem_singleton.1 he]
      exact Nat.lt_succ_self _
  · rw [hflags.exceptionRaised]
    exact (Routing.opened_flags h.exceptionRaised type attributes).1

theorem Follows.stop {n : ℕ} (h : ctx.Follows l (opened ++ [(n, type)])) (stack : ℕ → NgxStr)
    (name : TagName type) :
    ∃ ctx', ctx.handleTag stack (.stop type name) = .ok ctx' ∧
      ctx'.Follows (l.takeWhile fun e => e.2 ≠ type) opened ∧
      ctx'.tags.length = ctx.tags.length ∧
      ctx'.ignoreTag =
        (!decide (type = .esiExcept ∧ .esiExcept ∈ l.map Prod.snd) && ctx.ignoreTag) := by
  obtain ⟨ctx', hok, hlen, hflags, hhit, hmiss⟩ := endTag_ok h.links ctx.flags_flagged name
  obtain ⟨hexc, hignore⟩ := ctx.flagged.stopped_flags l type h.exceptionRaised
  refine ⟨ctx', hok, ⟨?_, ?_, ?_, ?_, ?_⟩, hlen, hflags.ignoreTag.trans hignore⟩
  · by_cases hmem : type ∈ l.map Prod.snd
    · exact (hhit hmem).links
    · rw [takeWhile_eq_self hmem, hmiss hmem]
      exact h.links
  · intro e he
    have hfront := List.mem_takeWhile_imp he
    have hne : e.2 ≠ type := of_decide_eq_true hfront
    rcases List.mem_append.1 (h.subset (List.takeWhile_subset _ he)) with hopen | hopen
    · exact hopen
    · exact absurd (congrArg Prod.snd (List.mem_singleton.1 hopen)) hne
  · exact (List.nodup_append.1 h.nodup).1
  · intro e he
    rw [hlen]
    exact h.lt_length e (List.mem_append_left _ he)
  · exact hflags.exceptionRaised.trans hexc

/-! ## One step -/

/-- The elements in the list from `root_tag`. -/
def tagNodes (ctx : Ctx) : List (ℕ × TagType) := ctx.tags.nodes ctx.tags.length ctx.rootTag

/-- The end tag discards no `except` behind the element that it closes. -/
def KeepsExcepts (ctx : Ctx) : TagEvent → Prop
  | .start _ _ _ => True
  | .stop type _ => .esiExcept ∉ (behind type ctx.tagNodes).map Prod.snd

/-- The flag says whether an `except` is open. -/
def FlagRight (ctx : Ctx) (opened : List (ℕ × TagType)) : Prop :=
  ctx.ignoreTag = true ↔ .esiExcept ∈ opened.map Prod.snd

theorem except_mem_concat {n : ℕ} :
    .esiExcept ∈ (opened ++ [(n, type)]).map Prod.snd ↔
      .esiExcept ∈ opened.map Prod.snd ∨ type = .esiExcept := by
  rw [List.map_append, List.mem_append, List.map_singleton, List.mem_singleton, eq_comm (a := type)]

theorem Follows.tagNodes_eq (h : ctx.Follows l opened) : ctx.tagNodes = l :=
  h.links.nodes_eq h.links.length_le

/-- Where the flag is right, the end tag of the innermost element leaves it right and all excepts
listed exactly when they were listed before and none is discarded. -/
theorem Follows.stop_iff {n : ℕ} (h : ctx.Follows l (opened ++ [(n, type)]))
    (hright : ctx.FlagRight (opened ++ [(n, type)])) {ignoreTag : Bool}
    (hflag : ignoreTag =
      (!decide (type = .esiExcept ∧ .esiExcept ∈ l.map Prod.snd) && ctx.ignoreTag)) :
    Listed l (opened ++ [(n, type)]) ∧ .esiExcept ∉ (behind type l).map Prod.snd ↔
      Listed (l.takeWhile fun e => e.2 ≠ type) opened ∧
        (ignoreTag = true ↔ .esiExcept ∈ opened.map Prod.snd) := by
  rw [FlagRight, except_mem_concat] at hright
  constructor
  · rintro ⟨hlisted, hkeeps⟩
    obtain ⟨hlisted, hclosed⟩ := hlisted.stop h.nodup hkeeps
    refine ⟨hlisted, ?_⟩
    by_cases htype : type = .esiExcept
    · obtain ⟨hmem, hnone⟩ := hclosed htype
      simp [hflag, htype, hmem, hnone]
    · simpa [hflag, htype] using hright
  · rintro ⟨hlisted, hright'⟩
    have hnodup : l.Nodup := h.links.nodup.of_map
    refine hlisted.of_stop hnodup h.subset fun htype => ?_
    have hset : ctx.ignoreTag = true := hright.2 (.inr htype)
    have hmem : .esiExcept ∈ l.map Prod.snd := by
      by_contra hmiss
      -- the flag stays set, so another `except` is open, and that one is not listed either
      have hopen := hright'.1 (by simp [hflag, hmiss, hset])
      obtain ⟨e, he, hexcept⟩ := List.mem_map.1 hopen
      have hl := List.takeWhile_subset _ (hlisted e he hexcept)
      exact hmiss (List.mem_map.2 ⟨e, hl, hexcept⟩)
    refine ⟨hmem, fun hopen => ?_⟩
    have hkept := hright'.2 hopen
    simp [hflag, htype, hmem] at hkept

/-- What a callback of a nested sequence does, and that the same two things are equivalent. -/
theorem Follows.step {s : ℕ × List (ℕ × TagType)} {e : TagEvent} (h : ctx.Follows l opened)
    (stack : ℕ → NgxStr) (hnest : nest (ctx.tags.length, opened) e = some s) :
    ∃ ctx' l' opened', ctx.handleTag stack e = .ok ctx' ∧ s = (ctx'.tags.length, opened') ∧
      ctx'.Follows l' opened' ∧ (ctx.FlagRight opened →
        (Listed l opened ∧ ctx.KeepsExcepts e ↔ Listed l' opened' ∧ ctx'.FlagRight opened')) := by
  cases e with
  | start type name attributes =>
    obtain ⟨ctx', hok, hfollows, hlen, hflags⟩ := h.start stack name attributes
    have hs : s = (ctx'.tags.length, opened ++ [(ctx.tags.length, type)]) := by
      rw [hlen]
      exact (Option.some.inj hnest).symm
    refine ⟨ctx', _, _, hok, hs, hfollows, fun hright => ?_⟩
    have hright' : ctx'.FlagRight (opened ++ [(ctx.tags.length, type)]) := by
      rw [FlagRight, hflags.ignoreTag,
        (Routing.opened_flags (r := ctx.flagged) h.exceptionRaised type attributes).2,
        except_mem_concat, Bool.or_eq_true, decide_eq_true_iff, or_comm]
      exact or_congr_left hright
    constructor
    · exact fun hlisted => ⟨hlisted.1.start, hright'⟩
    · refine fun hlisted => ⟨hlisted.1.of_start fun e he heq => ?_, trivial⟩
      have hlt := h.lt_length e he
      omega
  | stop type name =>
    obtain ⟨n', opened'⟩ := s
    obtain ⟨rfl, n, rfl⟩ := nest_stop hnest
    obtain ⟨ctx', hok, hfollows, hlen, hflag⟩ := h.stop stack name
    refine ⟨ctx', _, opened', hok, by rw [hlen], hfollows, fun hright => ?_⟩
    rw [KeepsExcepts, h.tagNodes_eq]
    exact h.stop_iff hright hflag

/-! ## A whole run -/

/-- Behind the callbacks the flag is right; `opened` is what was open before them. -/
def RightAfter (stack : ℕ → NgxStr) (ctx : Ctx) (opened : List (ℕ × TagType)) (w : List TagEvent) :
    Prop :=
  ∃ ctx' opened', w.foldlM (handleTag stack) ctx = .ok ctx' ∧
    w.foldlM nest (ctx.tags.length, opened) = some (ctx'.tags.length, opened') ∧
    ctx'.FlagRight opened'

theorem rightAfter_nil : RightAfter stack ctx opened [] ↔ ctx.FlagRight opened := by
  constructor
  · rintro ⟨ctx', opened', hrun, hnest, hright⟩
    obtain rfl := Except.ok.inj hrun
    obtain ⟨-, rfl⟩ := Prod.mk.inj (Option.some.inj hnest)
    exact hright
  · exact fun hright => ⟨ctx, opened, rfl, rfl, hright⟩

theorem rightAfter_cons {opened' : List (ℕ × TagType)} {e : TagEvent} {w : List TagEvent}
    (hok : ctx.handleTag stack e = .ok ctx')
    (hnest : nest (ctx.tags.length, opened) e = some (ctx'.tags.length, opened')) :
    RightAfter stack ctx opened (e :: w) ↔ RightAfter stack ctx' opened' w := by
  rw [RightAfter, List.foldlM_cons, List.foldlM_cons, hok, hnest]
  rfl

theorem Follows.exists_run {w : List TagEvent} {s : ℕ × List (ℕ × TagType)}
    (h : ctx.Follows l opened) (stack : ℕ → NgxStr)
    (hw : w.foldlM nest (ctx.tags.length, opened) = some s) :
    ∃ ctx' l' opened', w.foldlM (handleTag stack) ctx = .ok ctx' ∧
      s = (ctx'.tags.length, opened') ∧ ctx'.Follows l' opened' := by
  induction w generalizing ctx l opened with
  | nil => exact ⟨ctx, l, opened, rfl, (Option.some.inj hw).symm, h⟩
  | cons e w ih =>
    rw [List.foldlM_cons] at hw
    obtain ⟨s₁, hnest, hw⟩ := Option.bind_eq_some_iff.1 hw
    obtain ⟨ctx₁, l₁, opened₁, hok, rfl, h₁, -⟩ := h.step stack hnest
    obtain ⟨ctx', l', opened', hrun, hs, h'⟩ := ih h₁ hw
    exact ⟨ctx', l', opened', Run.cons_ok.2 ⟨ctx₁, hok, hrun⟩, hs, h'⟩

/-- In a run that closes every element, the flag is always right exactly when it is right at the
start, with all excepts listed, and no end tag discards one. -/
theorem Follows.right_iff {w : List TagEvent} {m : ℕ} (h : ctx.Follows l opened)
    (stack : ℕ → NgxStr) (hw : w.foldlM nest (ctx.tags.length, opened) = some (m, [])) :
    (∀ w₁ w₂, w = w₁ ++ w₂ → RightAfter stack ctx opened w₁) ↔
      Listed l opened ∧ ctx.FlagRight opened ∧ Run.Each (handleTag stack) KeepsExcepts ctx w := by
  induction w generalizing ctx l opened with
  | nil =>
    obtain ⟨-, rfl⟩ := Prod.mk.inj (Option.some.inj hw)
    constructor
    · intro hall
      exact ⟨by simp [Listed], rightAfter_nil.1 (hall [] [] rfl), Run.each_nil _⟩
    · rintro ⟨-, hright, -⟩ w₁ w₂ hsplit
      obtain ⟨rfl, -⟩ := List.append_eq_nil_iff.1 hsplit.symm
      exact rightAfter_nil.2 hright
  | cons e w ih =>
    rw [List.foldlM_cons] at hw
    obtain ⟨s₁, hnest, hw⟩ := Option.bind_eq_some_iff.1 hw
    obtain ⟨ctx₁, l₁, opened₁, hok, rfl, h₁, hstep⟩ := h.step stack hnest
    have hcons := fun w₁ => rightAfter_cons (w := w₁) hok hnest
    rw [Run.each_cons_ok hok]
    constructor
    · intro hall
      have hright := rightAfter_nil.1 (hall [] _ rfl)
      obtain ⟨hlisted₁, hright₁, hlater⟩ := (ih h₁ hw).1 fun w₁ w₂ hsplit =>
        (hcons w₁).1 (hall (e :: w₁) w₂ (by rw [hsplit, List.cons_append]))
      obtain ⟨hlisted, hkeeps⟩ := (hstep hright).2 ⟨hlisted₁, hright₁⟩
      exact ⟨hlisted, hright, hkeeps, hlater⟩
    · rintro ⟨hlisted, hright, hkeeps, hlater⟩ w₁ w₂ hsplit
      obtain ⟨hlisted₁, hright₁⟩ := (hstep hright).1 ⟨hlisted, hkeeps⟩
      cases w₁ with
      | nil => exact rightAfter_nil.2 hright
      | cons e' w₁ =>
        obtain ⟨rfl, rfl⟩ := List.cons.inj hsplit
        exact (hcons w₁).2 ((ih h₁ hw).2 ⟨hlisted₁, hright₁, hlater⟩ w₁ w₂ rfl)

/-- The flag is clear behind the callbacks, and each include among them is requested if and only if
no `except` is open around it. -/
structure Balanced (stack : ℕ → NgxStr) (ctx : Ctx) (w : List TagEvent) : Prop where
  cleared : ∃ ctx', w.foldlM (handleTag stack) ctx = .ok ctx' ∧ ctx'.ignoreTag = false
  requested : ∀ w₁ (name : TagName .esiInclude) attributes w₂ s,
    w = w₁ ++ .start .esiInclude name attributes :: w₂ → nested ctx.tags.length w₁ = some s →
    ∃ ctx₁ ctx₂, w₁.foldlM (handleTag stack) ctx = .ok ctx₁ ∧
      ctx₁.handleTag stack (.start .esiInclude name attributes) = .ok ctx₂ ∧
      (ctx₂.includes.map Include.attributes =
          ctx₁.includes.map Include.attributes ++ [attributes] ↔
        .esiExcept ∉ s.2.map Prod.snd)

theorem start_follows (hroot : ctx.rootTag = none) (hexc : ctx.exceptionRaised = false) :
    ctx.Follows [] [] where
  links := by
    rw [hroot]
    exact .nil none
  subset := List.Subset.refl []
  nodup := List.nodup_nil
  lt_length := by simp
  exceptionRaised := hexc

/-- An include is requested when the flag is clear. -/
theorem Follows.include_iff (h : ctx.Follows l opened) (hright : ctx.FlagRight opened)
    (stack : ℕ → NgxStr) (name : TagName .esiInclude) (attributes : List ESIAttribute) :
    ∃ ctx', ctx.handleTag stack (.start .esiInclude name attributes) = .ok ctx' ∧
      (ctx'.includes.map Include.attributes =
          ctx.includes.map Include.attributes ++ [attributes] ↔
        .esiExcept ∉ opened.map Prod.snd) := by
  obtain ⟨ctx', hok, -, -, hflags⟩ := h.start stack name attributes
  refine ⟨ctx', hok, ?_⟩
  rw [hflags.included, ← not_congr hright]
  cases hign : ctx.ignoreTag <;> simp [Routing.opened, flagged, hign]

theorem balanced_of_right {w : List TagEvent} {m : ℕ} (hroot : ctx.rootTag = none)
    (hexc : ctx.exceptionRaised = false) (hw : nested ctx.tags.length w = some (m, []))
    (hright : ∀ w₁ w₂, w = w₁ ++ w₂ → RightAfter stack ctx [] w₁) : Balanced stack ctx w where
  cleared := by
    obtain ⟨ctx', opened', hrun, hnest, hflag⟩ := hright w [] (List.append_nil w).symm
    obtain ⟨-, rfl⟩ := Prod.mk.inj (Option.some.inj (hnest.symm.trans hw))
    exact ⟨ctx', hrun, eq_false_of_ne_true fun hset => absurd (hflag.1 hset) (by simp)⟩
  requested := by
    rintro w₁ name attributes w₂ s hsplit hs
    obtain ⟨ctx₁, l₁, opened₁, hrun, rfl, h₁⟩ :=
      (start_follows hroot hexc).exists_run stack hs
    obtain ⟨ctx', opened', hrun', hnest, hflag⟩ := hright w₁ _ hsplit
    obtain rfl := Except.ok.inj (hrun.symm.trans hrun')
    obtain ⟨-, rfl⟩ := Prod.mk.inj (Option.some.inj (hnest.symm.trans hs))
    obtain ⟨ctx₂, hok, hincludes⟩ := h₁.include_iff hflag stack name attributes
    exact ⟨ctx₁, ctx₂, hrun, hok, hincludes⟩

/-- When no end tag discards an `except`, the flag is balanced; and only then is it right behind
every callback. -/
theorem balanced_of_keeps (stack : ℕ → NgxStr) (ctx : Ctx) (hroot : ctx.rootTag = none)
    (hignore : ctx.ignoreTag = false) (hexc : ctx.exceptionRaised = false) (w : List TagEvent)
    (m : ℕ) (hw : nested ctx.tags.length w = some (m, [])) :
    (Run.Each (handleTag stack) KeepsExcepts ctx w → Balanced stack ctx w) ∧
      (Run.Each (handleTag stack) KeepsExcepts ctx w ↔
        ∀ w₁ w₂, w = w₁ ++ w₂ → RightAfter stack ctx [] w₁) := by
  have hiff := (start_follows hroot hexc).right_iff stack hw
  have hlisted : Listed [] [] := by simp [Listed]
  have hright : ctx.FlagRight [] := by simp [FlagRight, hignore]
  constructor
  · intro hkeeps
    exact balanced_of_right hroot hexc hw (hiff.2 ⟨hlisted, hright, hkeeps⟩)
  · constructor
    · exact fun hkeeps => hiff.2 ⟨hlisted, hright, hkeeps⟩
    · exact fun hall => (hiff.1 hall).2.2

/-- An `include` inside an `except`. -/
theorem balanced_of_keeps_include :
    let except : TagName .esiExcept := ⟨TagType.esiExcept.name, by decide +kernel⟩
    let name : TagName .esiInclude := ⟨TagType.esiInclude.name, by decide +kernel⟩
    let stack : ℕ → NgxStr := fun _ => ⟨0, none⟩
    let w : List TagEvent := [.start .esiExcept except [], .start .esiInclude name [],
      .stop .esiInclude name, .stop .esiExcept except]
    (Run.Each (handleTag stack) KeepsExcepts new w → Balanced stack new w) ∧
      (Run.Each (handleTag stack) KeepsExcepts new w ↔
        ∀ w₁ w₂, w = w₁ ++ w₂ → RightAfter stack new [] w₁) :=
  balanced_of_keeps _ new rfl rfl rfl _ 2 rfl

/-- The end of a `vars` inside an `except` inside another `vars` discards the `except`, and the flag
stays set. -/
theorem discarded_except : ¬ ∀ (stack : ℕ → NgxStr) (ctx : Ctx), ctx.rootTag = none →
    ctx.ignoreTag = false → ctx.exceptionRaised = false → ∀ (w : List TagEvent) (m : ℕ),
    nested ctx.tags.length w = some (m, []) → Balanced stack ctx w := by
  intro h
  let except : TagName .esiExcept := ⟨TagType.esiExcept.name, by decide +kernel⟩
  let vars : TagName .esiVars := ⟨TagType.esiVars.name, by decide +kernel⟩
  let w : List TagEvent := [.start .esiVars vars [], .start .esiExcept except [],
    .start .esiVars vars [], .stop .esiVars vars, .stop .esiExcept except, .stop .esiVars vars]
  obtain ⟨ctx', hrun, hclear⟩ := (h (fun _ => ⟨0, none⟩) new rfl rfl rfl w 3 rfl).cleared
  have hset : (w.foldlM (handleTag fun _ => ⟨0, none⟩) new).map ignoreTag = .ok true := by
    decide +kernel
  rw [Run.of_map_ok hrun hset] at hclear
  cases hclear

end Ctx

end NginxEsi
