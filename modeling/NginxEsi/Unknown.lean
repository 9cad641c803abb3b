import NginxEsi.Routing
import NginxEsi.Segments

/-!
# Unknown tags

`esi_tag_str_to_type` compares a name with each of the seven known ones up to the length of the
name, so it takes every beginning of a known name for that name (`esiTagStrToType_eq_none_iff`).
The tag handlers leave a tag alone exactly when its name is no such beginning (`inert_iff`).
-/

namespace NginxEsi

open LinkedList

/-! ## The comparison -/

theorem strncmpEq_iff {s t : Bytes} (ht : 0 ∉ t) : strncmpEq s t = true ↔ t <+: s := by
  induction t generalizing s with
  | nil => simp [strncmpEq]
  | cons c t ih =>
    obtain ⟨hc, ht⟩ := not_or.1 (mt List.mem_cons.2 ht)
    cases s with
    | nil => simpa [strncmpEq] using Ne.symm hc
    | cons a s =>
      rw [strncmpEq, Bool.and_eq_true, beq_iff_eq, ih ht, List.cons_prefix_cons]
      exact and_congr_left fun _ => eq_comm

theorem TagType.mem_all (type : TagType) : type ∈ TagType.all := by
  cases type <;> decide

theorem esiTagStrToType_eq_none_iff {name : Bytes} (hname : 0 ∉ name) :
    esiTagStrToType name = none ↔ ∀ type : TagType, ¬ name <+: type.name := by
  rw [esiTagStrToType, List.find?_eq_none]
  constructor
  · intro h type hpre
    exact h type type.mem_all ((strncmpEq_iff hname).2 hpre)
  · intro h type _ heq
    exact h type ((strncmpEq_iff hname).1 heq)

theorem esiTagStrToType_name (type : TagType) : esiTagStrToType type.name = some type := by
  cases type <;> decide +kernel

/-- No name contains the byte that ends a C string. -/
theorem zero_not_mem_name (n : Letters) : 0 ∉ esiColon ++ n.1 := by
  intro h
  rcases List.mem_append.1 h with h | h
  · exact absurd h (by decide)
  · exact absurd (n.2.2 0 h) (by decide)

/-! ## The handlers -/

namespace Ctx

/-- The tags and the flags are as before, and no subrequest was made. -/
structure SameTags (ctx ctx' : Ctx) : Prop where
  rootTag : ctx'.rootTag = ctx.rootTag
  openTag : ctx'.openTag = ctx.openTag
  tags : ctx'.tags = ctx.tags
  exceptionRaised : ctx'.exceptionRaised = ctx.exceptionRaised
  ignoreTag : ctx'.ignoreTag = ctx.ignoreTag
  includes : ctx'.includes = ctx.includes

theorem SameTags.refl (ctx : Ctx) : SameTags ctx ctx := ⟨rfl, rfl, rfl, rfl, rfl, rfl⟩

/-- Both tag handlers return and leave the tags of the context alone. -/
structure Inert (stack : ℕ → NgxStr) (name : Bytes) (attributes : List ESIAttribute) (ctx : Ctx) :
    Prop where
  start : ∃ ctx', ctx.esiParserStartTagCb stack name attributes = .ok ctx' ∧ SameTags ctx ctx'
  stop : ∃ ctx', ctx.esiParserEndTagCb name = .ok ctx' ∧ SameTags ctx ctx'

variable {stack : ℕ → NgxStr} {name : Bytes} {attributes : List ESIAttribute} {ctx ctx' : Ctx}

/-- A start tag with a known type makes a new tag, whatever the context. -/
theorem startTag_length {type : TagType} (hname : esiTagStrToType name = some type)
    (h : ctx.esiParserStartTagCb stack name attributes = .ok ctx') :
    ctx'.tags.length = ctx.tags.length + 1 := by
  unfold esiParserStartTagCb at h
  rw [hname] at h
  dsimp only [esiTagNew] at h
  cases hroot : ctx.rootTag with
  | none =>
    rw [hroot] at h
    obtain ⟨ctx₁, hlink, h⟩ := Run.bind_ok h
    obtain rfl := Except.ok.inj hlink
    rw [(esiTagOpen_frame h).1]
    exact List.length_append
  | some root =>
    rw [hroot] at h
    obtain ⟨last, -, h⟩ := Run.bind_ok h
    obtain ⟨tags, hnext, h⟩ := Run.bind_ok h
    obtain ⟨ctx₁, hlink, h⟩ := Run.bind_ok h
    obtain rfl := Except.ok.inj hlink
    rw [(esiTagOpen_frame h).1]
    exact (Heap.length_update (Run.mapError_ok hnext)).trans List.length_append

theorem inert_of_none (hname : esiTagStrToType name = none) : Inert stack name attributes ctx := by
  refine ⟨⟨ctx, ?_, .refl ctx⟩, ⟨ctx, ?_, .refl ctx⟩⟩
  · rw [esiParserStartTagCb, hname]
  · rw [esiParserEndTagCb, hname]

/-- Every known name is taken for its own type, and a tag with another name is left alone exactly
when the name is not the beginning of a known one. -/
theorem inert_iff (stack : ℕ → NgxStr) (n : Letters) (attributes : List ESIAttribute) (ctx : Ctx) :
    (∀ type : TagType, esiTagStrToType type.name = some type) ∧
      (Inert stack (esiColon ++ n.1) attributes ctx ↔
        ∀ type : TagType, ¬ esiColon ++ n.1 <+: type.name) := by
  refine ⟨esiTagStrToType_name, ?_⟩
  rw [← esiTagStrToType_eq_none_iff (zero_not_mem_name n)]
  constructor
  · rintro ⟨⟨ctx', hstart, hsame⟩, -⟩
    cases hname : esiTagStrToType (esiColon ++ n.1) with
    | none => rfl
    | some type =>
      have hlength := startTag_length hname hstart
      rw [hsame.tags] at hlength
      omega
  · exact inert_of_none

/-- `esi:a` is taken for `esi:attempt`. -/
theorem beginning_not_inert : ¬ ((∀ type : TagType, esiTagStrToType type.name = some type) ∧
    ∀ (stack : ℕ → NgxStr) (n : Letters), (∀ type : TagType, esiColon ++ n.1 ≠ type.name) →
      ∀ (attributes : List ESIAttribute) (ctx : Ctx),
        Inert stack (esiColon ++ n.1) attributes ctx) := by
  rintro ⟨-, h⟩
  have hn : ∀ type : TagType, esiColon ++ [97] ≠ type.name := by
    intro type
    cases type <;> decide +kernel
  obtain ⟨⟨ctx', hstart, hsame⟩, -⟩ := h (fun _ => ⟨0, none⟩) ⟨[97], by decide +kernel⟩ hn [] new
  have hname : esiTagStrToType (esiColon ++ [97]) = some .esiAttempt := by decide +kernel
  have hlength := startTag_length hname hstart
  rw [hsame.tags] at hlength
  omega

end Ctx

end NginxEsi
