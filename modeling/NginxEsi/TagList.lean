import NginxEsi.Elements

/-!
# The tag list

Whatever tag callbacks are made, in any order, the list from `root_tag` stays a list: it ends, and
all its tags are allocated and not freed (`tagList_of_tags`).  Every use of a freed tag is an error
of the model, so that a run which returns never read, wrote or freed a tag after it was freed.  For
this to mean something a freed tag must not come back, which `handle_frame` says of every
handler.
-/

namespace NginxEsi

open LinkedList

/-- A call of one of the two tag handlers. -/
def Callback.IsTag : Callback → Prop
  | .startTag _ _ | .endTag _ => True
  | .output _ => False

namespace Ctx

variable {stack : ℕ → NgxStr} {ctx ctx' : Ctx}

/-! ## What the handlers leave alone -/

/-- No freed tag is back, the output chain is as before, and nothing was handed over. -/
structure TagFrame (ctx ctx' : Ctx) : Prop where
  freed : Heap.KeepsFreed ctx.tags ctx'.tags
  chain : SameChain ctx ctx'
  handed : ctx'.handed = ctx.handed

theorem TagFrame.of_tags {tags : Heap TagType} (h : Heap.KeepsFreed ctx.tags tags)
    (htags : ctx'.tags = tags) (hchain : SameChain ctx ctx') (hhanded : ctx'.handed = ctx.handed) :
    TagFrame ctx ctx' := by
  rw [← htags] at h
  exact ⟨h, hchain, hhanded⟩

theorem TagFrame.refl (ctx : Ctx) : TagFrame ctx ctx := ⟨.refl _, ⟨rfl, rfl, rfl⟩, rfl⟩

theorem TagFrame.trans {ctx₁ ctx₂ ctx₃ : Ctx} (h : TagFrame ctx₁ ctx₂) (h' : TagFrame ctx₂ ctx₃) :
    TagFrame ctx₁ ctx₃ where
  freed := h.freed.trans h'.freed
  chain := ⟨h'.chain.1.trans h.chain.1, h'.chain.2.trans h.chain.2, h'.chain.3.trans h.chain.3⟩
  handed := h'.handed.trans h.handed

theorem tagFrame_esiTagFree {tag : ℕ} (h : ctx.esiTagFree tag = .ok ctx') : TagFrame ctx ctx' := by
  obtain ⟨node, -, h⟩ := Run.bind_ok h
  obtain ⟨tags, hbehind, h⟩ := Run.bind_ok h
  obtain ⟨tags', hfree, h⟩ := Run.bind_ok h
  obtain rfl := Except.ok.inj h
  have hfirst := Heap.keepsFreed_freeFrom (Run.mapError_ok hbehind)
  exact ⟨hfirst.trans (Heap.keepsFreed_update (Run.mapError_ok hfree)), ⟨rfl, rfl, rfl⟩, rfl⟩

theorem tagFrame_esiTagClose {tag : ℕ} (h : ctx.esiTagClose tag = .ok ctx') :
    TagFrame ctx ctx' := by
  obtain ⟨node, -, h⟩ := Run.bind_ok h
  -- the flags are set before the tag is freed
  cases hval : node.val <;> rw [hval] at h <;> have hfree := tagFrame_esiTagFree h
  case esiExcept =>
    refine .trans ⟨?_, ⟨?_, ?_, ?_⟩, ?_⟩ hfree
    · dsimp only
      split_ifs <;> exact .refl _
    all_goals
      dsimp only
      split_ifs <;> rfl
  case esiAttempt =>
    refine .trans ?_ hfree
    exact ⟨.refl _, ⟨rfl, rfl, rfl⟩, rfl⟩
  all_goals exact hfree

theorem tagFrame_esiTagCloseChildren {tag : ℕ} {type : TagType} {openTag : Option ℕ}
    (h : ctx.esiTagCloseChildren tag type = .ok (openTag, ctx')) : TagFrame ctx ctx' := by
  obtain ⟨node, -, h⟩ := Run.bind_ok h
  obtain ⟨found, -, h⟩ := Run.bind_ok h
  cases found with
  | none =>
    obtain ⟨-, rfl⟩ := Prod.mk.inj (Except.ok.inj h)
    exact .refl _
  | some found =>
    obtain ⟨ctx₁, hclose, h⟩ := Run.bind_ok h
    obtain ⟨tags, hnext, h⟩ := Run.bind_ok h
    obtain ⟨-, rfl⟩ := Prod.mk.inj (Except.ok.inj h)
    have hkeeps := Heap.keepsFreed_update (Run.mapError_ok hnext)
    exact (tagFrame_esiTagClose hclose).trans ⟨hkeeps, ⟨rfl, rfl, rfl⟩, rfl⟩

theorem tagFrame_startTag {name : Bytes} {attributes : List ESIAttribute}
    (h : ctx.esiParserStartTagCb stack name attributes = .ok ctx') : TagFrame ctx ctx' := by
  unfold esiParserStartTagCb at h
  cases hname : esiTagStrToType name with
  | none =>
    rw [hname] at h
    obtain rfl := Except.ok.inj h
    exact .refl _
  | some type =>
    rw [hname] at h
    dsimp only [esiTagNew] at h
    have hnew := Heap.keepsFreed_alloc ctx.tags (some ⟨type, none⟩)
    cases hroot : ctx.rootTag with
    | none =>
      rw [hroot] at h
      obtain ⟨ctx₁, hlink, h⟩ := Run.bind_ok h
      obtain rfl := Except.ok.inj hlink
      obtain ⟨htags, hchain, hhanded⟩ := esiTagOpen_frame h
      exact .of_tags hnew htags ⟨hchain.1, hchain.2, hchain.3⟩ hhanded
    | some root =>
      rw [hroot] at h
      obtain ⟨last, -, h⟩ := Run.bind_ok h
      obtain ⟨tags, hnext, h⟩ := Run.bind_ok h
      obtain ⟨ctx₁, hlink, h⟩ := Run.bind_ok h
      obtain rfl := Except.ok.inj hlink
      obtain ⟨htags, hchain, hhanded⟩ := esiTagOpen_frame h
      exact .of_tags (hnew.trans (Heap.keepsFreed_update (Run.mapError_ok hnext))) htags
        ⟨hchain.1, hchain.2, hchain.3⟩ hhanded

theorem tagFrame_endTag {name : Bytes} (h : ctx.esiParserEndTagCb name = .ok ctx') :
    TagFrame ctx ctx' := by
  unfold esiParserEndTagCb at h
  cases hname : esiTagStrToType name with
  | none =>
    rw [hname] at h
    obtain rfl := Except.ok.inj h
    exact .refl _
  | some type =>
    cases hroot : ctx.rootTag with
    | none =>
      rw [hname, hroot] at h
      obtain rfl := Except.ok.inj h
      exact .refl _
    | some root =>
      rw [hname, hroot] at h
      obtain ⟨node, -, h⟩ := Run.bind_ok h
      split_ifs at h with htype
      · obtain ⟨ctx₁, hclose, h⟩ := Run.bind_ok h
        obtain rfl := Except.ok.inj h
        exact (tagFrame_esiTagClose hclose).trans ⟨.refl _, ⟨rfl, rfl, rfl⟩, rfl⟩
      · obtain ⟨⟨openTag, ctx₁⟩, hclose, h⟩ := Run.bind_ok h
        obtain rfl := Except.ok.inj h
        exact (tagFrame_esiTagCloseChildren hclose).trans ⟨.refl _, ⟨rfl, rfl, rfl⟩, rfl⟩

theorem output_frame {data : Bytes} (h : ctx.esiParserOutputCb data = .ok ctx') :
    ctx'.tags = ctx.tags ∧ ctx'.handed = ctx.handed := by
  obtain ⟨buf, -, h⟩ := Run.bind_ok h
  cases buf with
  | none =>
    obtain rfl := Except.ok.inj h
    exact ⟨rfl, rfl⟩
  | some buf =>
    obtain ⟨⟨lastBuf, links⟩, -, h⟩ := Run.bind_ok h
    obtain rfl := Except.ok.inj h
    exact ⟨rfl, rfl⟩

/-- No handler brings a freed tag back or hands anything over. -/
theorem handle_frame {c : Callback} (h : ctx.handle stack c = .ok ctx') :
    Heap.KeepsFreed ctx.tags ctx'.tags ∧ ctx'.handed = ctx.handed := by
  cases c with
  | startTag name attributes => exact ⟨(tagFrame_startTag h).freed, (tagFrame_startTag h).handed⟩
  | endTag name => exact ⟨(tagFrame_endTag h).freed, (tagFrame_endTag h).handed⟩
  | output data =>
    obtain ⟨htags, hhanded⟩ := output_frame h
    rw [htags]
    exact ⟨.refl _, hhanded⟩

theorem handle_run_frame {callbacks : List Callback}
    (h : callbacks.foldlM (handle stack) ctx = .ok ctx') :
    Heap.KeepsFreed ctx.tags ctx'.tags ∧ ctx'.handed = ctx.handed := by
  refine Run.invariant (I := fun _ ctx' => Heap.KeepsFreed ctx.tags ctx'.tags ∧
    ctx'.handed = ctx.handed) ?_ (u := []) ⟨.refl _, rfl⟩ h
  intro _ _ _ _ hbefore hc
  obtain ⟨hfreed, hhanded⟩ := handle_frame hc
  exact ⟨hbefore.1.trans hfreed, hhanded.trans hbefore.2⟩

/-! ## The list -/

/-- The tags `l` hang at `root_tag` one behind the other, each of them once and none of them freed;
`open_tag` is `NULL` or the last one. -/
structure TagList (ctx : Ctx) (l : List (ℕ × TagType)) : Prop where
  links : Links ctx.tags ctx.rootTag l none
  nodup : (l.map Prod.fst).Nodup
  live : ∀ e ∈ l, ∃ next, ctx.tags[e.1]? = some (some ⟨e.2, next⟩)
  openTag : ctx.openTag = none ∨ ctx.openTag = (l.map Prod.fst).getLast?
  openTag_of_nil : ctx.rootTag = none → ctx.openTag = none

theorem Opens.tagList {l : List (ℕ × TagType)} {isOpen : Bool} (h : ctx.Opens l isOpen) :
    ctx.TagList l where
  links := h.links
  nodup := h.links.nodup
  live := h.links.live
  openTag := by
    rw [h.openTag]
    cases isOpen with
    | true => exact .inr rfl
    | false => exact .inl rfl
  openTag_of_nil := by
    intro hroot
    have hl := h.links
    rw [hroot] at hl
    obtain rfl := hl.unique (.nil none)
    rw [h.openTag]
    cases isOpen <;> rfl

theorem Opens.exists_handle {l : List (ℕ × TagType)} {isOpen : Bool} (h : ctx.Opens l isOpen)
    (stack : ℕ → NgxStr) {c : Callback} (hc : c.IsTag) : ∃ ctx', ctx.handle stack c = .ok ctx' := by
  cases c with
  | startTag name attributes =>
    cases hname : esiTagStrToType name with
    | none => exact ⟨ctx, by rw [Ctx.handle, esiParserStartTagCb, hname]⟩
    | some type =>
      obtain ⟨ctx', hok, -⟩ := h.start stack ⟨name, hname⟩ attributes
      exact ⟨ctx', hok⟩
  | endTag name =>
    cases hname : esiTagStrToType name with
    | none => exact ⟨ctx, by rw [Ctx.handle, esiParserEndTagCb, hname]⟩
    | some type =>
      obtain ⟨ctx', hok, -⟩ := h.stop ⟨name, hname⟩
      exact ⟨ctx', hok⟩
  | output data => exact hc.elim

theorem Opens.exists_run {l : List (ℕ × TagType)} {isOpen : Bool} {callbacks : List Callback}
    (h : ctx.Opens l isOpen) (stack : ℕ → NgxStr) (htags : ∀ c ∈ callbacks, c.IsTag) :
    ∃ ctx' l' isOpen', callbacks.foldlM (Ctx.handle stack) ctx = .ok ctx' ∧
      ctx'.Opens l' isOpen' := by
  induction callbacks generalizing ctx l isOpen with
  | nil => exact ⟨ctx, l, isOpen, rfl, h⟩
  | cons c callbacks ih =>
    obtain ⟨hc, htags⟩ := List.forall_mem_cons.1 htags
    obtain ⟨m, hm⟩ := h.exists_handle stack hc
    obtain ⟨l₁, isOpen₁, h₁⟩ := h.handle stack c hm
    obtain ⟨ctx', l', isOpen', hrun, h'⟩ := ih h₁ htags
    exact ⟨ctx', l', isOpen', Run.cons_ok.2 ⟨m, hm, hrun⟩, h'⟩

/-- After any tag callbacks the list from `root_tag` is sound, and every tag that was freed on the
way is still freed. -/
theorem tagList_of_tags (stack : ℕ → NgxStr) (ctx : Ctx) (hroot : ctx.rootTag = none)
    (hopen : ctx.openTag = none) (callbacks : List Callback) (htags : ∀ c ∈ callbacks, c.IsTag) :
    ∃ ctx' l, callbacks.foldlM (handle stack) ctx = .ok ctx' ∧ ctx'.TagList l ∧
      ∀ done later ctx₁, callbacks = done ++ later → done.foldlM (handle stack) ctx = .ok ctx₁ →
        Heap.KeepsFreed ctx₁.tags ctx'.tags := by
  have hnone : ctx.Opens [] false := by
    refine ⟨?_, hopen⟩
    rw [hroot]
    exact .nil none
  obtain ⟨ctx', l, isOpen, hrun, h⟩ := hnone.exists_run stack htags
  refine ⟨ctx', l, hrun, h.tagList, ?_⟩
  rintro done later ctx₁ rfl hdone
  obtain ⟨m, hm, hlater⟩ := Run.append_ok.1 hrun
  obtain rfl := Except.ok.inj (hm.symm.trans hdone)
  exact (handle_run_frame hlater).1

/-- A `vars` around a `remove`, with the end tags in the wrong order. -/
theorem tagList_of_tags_crossed :
    let callbacks : List Callback := [.startTag TagType.esiVars.name [],
      .startTag TagType.esiRemove.name [], .endTag TagType.esiVars.name,
      .endTag TagType.esiRemove.name]
    ∃ ctx' l, callbacks.foldlM (handle fun _ => ⟨0, none⟩) new = .ok ctx' ∧ ctx'.TagList l ∧
      ∀ done later ctx₁, callbacks = done ++ later →
        done.foldlM (handle fun _ => ⟨0, none⟩) new = .ok ctx₁ →
        Heap.KeepsFreed ctx₁.tags ctx'.tags :=
  tagList_of_tags _ new rfl rfl _ (by simp [Callback.IsTag])

end Ctx

end NginxEsi
