import NginxEsi.Nesting

/-!
# Removed content

Text inside `remove`, or inside `except` while no exception has been raised, is not meant to reach
the output.  The filter asks only the innermost element, so text of a `vars` or `attempt` element
inside them does (`Content.Leaks`).  Without such an element the output does not depend on any text
that is to be suppressed, and with one it does (`appended_variant_iff`); both documents are cut into
buffers within the range of `int` and with room in the echo buffer.
-/

namespace NginxEsi

/-- Text inside the elements is to be suppressed. -/
def Suppressed (opened : List TagType) : Prop := .esiRemove ∈ opened ∨ .esiExcept ∈ opened

instance (opened : List TagType) : Decidable (Suppressed opened) :=
  inferInstanceAs (Decidable (_ ∨ _))

namespace Content

variable {opened : List TagType}

/-- The same tags in the same order; texts differ only where they are to be suppressed. -/
inductive Variant : {opened : List TagType} → Content opened → Content opened → Prop
  | last {opened : List TagType} {t t' : CharData} (h : Suppressed opened ∨ t = t') :
      Variant (last t : Content opened) (last t')
  | inline {opened : List TagType} {t t' : CharData} {type : TagType} {fresh : type ∉ opened}
      {first : { b : UInt8 // isspace b = true }} {space : Space} {attributes : List (Attr × Space)}
      {rest rest' : Content opened} (h : Suppressed opened ∨ t = t') (hrest : Variant rest rest') :
      Variant (inline t type fresh first space attributes rest)
        (inline t' type fresh first space attributes rest')
  | element {opened : List TagType} {t t' : CharData} {type : TagType} {fresh : type ∉ opened}
      {opening : Opening} {inner inner' : Content (opened ++ [type])} {rest rest' : Content opened}
      (h : Suppressed opened ∨ t = t') (hinner : Variant inner inner')
      (hrest : Variant rest rest') :
      Variant (element t type fresh opening inner rest)
        (element t' type fresh opening inner' rest')

/-- A `vars` or `attempt` element lies inside `remove` or `except`. -/
def Leaks {opened : List TagType} : Content opened → Prop
  | last _ => False
  | inline _ _ _ _ _ _ rest => rest.Leaks
  | element _ type _ _ inner rest =>
    (Suppressed opened ∧ (type = .esiVars ∨ type = .esiAttempt)) ∨ inner.Leaks ∨ rest.Leaks

theorem Variant.refl (d : Content opened) : Variant d d := by
  induction d with
  | last t => exact .last (.inr rfl)
  | inline t type fresh first space attributes rest ih => exact .inline (.inr rfl) ih
  | element t type fresh opening inner rest ihInner ihRest =>
    exact .element (.inr rfl) ihInner ihRest

theorem showsIn_concat {type : TagType} :
    ShowsIn (opened ++ [type]) ↔ type = .esiVars ∨ type = .esiAttempt := by
  unfold ShowsIn
  rw [List.getLast?_concat]
  simp

/-- Below a `vars` or `attempt` element only the elements around it suppress. -/
theorem suppressed_of_concat {type : TagType} (h : Suppressed (opened ++ [type]))
    (htype : type = .esiVars ∨ type = .esiAttempt) : Suppressed opened := by
  unfold Suppressed at h ⊢
  rcases htype with rfl | rfl
  · simpa using h
  · simpa using h

theorem shownText_eq {t t' : CharData} (h : Suppressed opened ∨ t = t')
    (hopened : Suppressed opened → ¬ ShowsIn opened) :
    (if ShowsIn opened then t'.1 else []) = if ShowsIn opened then t.1 else [] := by
  rcases h with h | rfl
  · rw [if_neg (hopened h), if_neg (hopened h)]
  · rfl

theorem Variant.shown_eq {d d' : Content opened} (h : Variant d d') (hd : ¬ d.Leaks)
    (hopened : Suppressed opened → ¬ ShowsIn opened) : d'.shown = d.shown := by
  induction h with
  | last h => exact shownText_eq h hopened
  | inline h hrest ih => rw [shown, shown, shownText_eq h hopened, ih hd hopened]
  | element h hinner hrest ihInner ihRest =>
    rw [Leaks, not_or, not_or] at hd
    obtain ⟨hhere, hdInner, hdRest⟩ := hd
    rw [shown, shown, shownText_eq h hopened, ihRest hdRest hopened,
      ihInner hdInner fun hsup hshows =>
        hhere ⟨suppressed_of_concat hsup (showsIn_concat.1 hshows), showsIn_concat.1 hshows⟩]

/-! ## A variant that shows more -/

def CharData.more (t : CharData) : CharData :=
  ⟨97 :: t.1, List.not_mem_cons_of_ne_of_not_mem (by decide) t.2⟩

/-- One more byte in the first text. -/
def more {opened : List TagType} : Content opened → Content opened
  | last t => last (CharData.more t)
  | inline t type fresh first space attributes rest =>
    inline (CharData.more t) type fresh first space attributes rest
  | element t type fresh opening inner rest =>
    element (CharData.more t) type fresh opening inner rest

theorem variant_more (d : Content opened) (h : Suppressed opened) : Variant d d.more := by
  cases d with
  | last t => exact .last (.inl h)
  | inline t type fresh first space attributes rest => exact .inline (.inl h) (.refl rest)
  | element t type fresh opening inner rest => exact .element (.inl h) (.refl inner) (.refl rest)

theorem shown_more (d : Content opened) (h : ShowsIn opened) :
    d.more.shown.length = d.shown.length + 1 := by
  cases d with
  | last t => simp [more, shown, h, CharData.more]
  | inline t type fresh first space attributes rest =>
    simp only [more, shown, if_pos h, CharData.more, List.length_append, List.length_cons]
    omega
  | element t type fresh opening inner rest =>
    simp only [more, shown, if_pos h, CharData.more, List.length_append, List.length_cons]
    omega

theorem Leaks.exists_variant {d : Content opened} (h : d.Leaks) :
    ∃ d', Variant d d' ∧ d'.shown.length = d.shown.length + 1 := by
  induction d with
  | last t => exact h.elim
  | inline t type fresh first space attributes rest ih =>
    obtain ⟨rest', hrest, hlen⟩ := ih h
    refine ⟨_, .inline (.inr rfl) hrest, ?_⟩
    rw [shown, shown, List.length_append, List.length_append, hlen, Nat.add_assoc]
  | element t type fresh opening inner rest ihInner ihRest =>
    rcases h with ⟨hsup, htype⟩ | h | h
    · have hsup' : Suppressed (_ ++ [type]) :=
        hsup.imp (List.mem_append_left _) (List.mem_append_left _)
      have hlen := shown_more inner (showsIn_concat.2 htype)
      refine ⟨_, .element (.inr rfl) (variant_more inner hsup') (.refl rest), ?_⟩
      simp only [shown, List.length_append, hlen]
      omega
    · obtain ⟨inner', hinner, hlen⟩ := ihInner h
      refine ⟨_, .element (.inr rfl) hinner (.refl rest), ?_⟩
      simp only [shown, List.length_append, hlen]
      omega
    · obtain ⟨rest', hrest, hlen⟩ := ihRest h
      refine ⟨_, .element (.inr rfl) (.refl inner) hrest, ?_⟩
      simp only [shown, List.length_append, hlen]
      omega

end Content

/-! ## Two runs -/

namespace Ctx

/-- The bytes that one call of the filter on a fresh context places in `ctx->chain`. -/
def appended (stack : ℕ → NgxStr) (input : List Buf) : Except Crash Bytes :=
  (new.bodyFilterInput stack input).map fun x => x.2.2.bytes

theorem appended_content (stack : ℕ → NgxStr) (d : Content []) {init : List Bytes} {last : Bytes}
    (hcut : (init ++ [last]).flatten = d.render)
    (hrange : ESIParser.InRange (init ++ [last])) (hfits : EchoFits (init ++ [last])) :
    appended stack (inputChain init last) = .ok d.shown := by
  obtain ⟨parser, ctx, hok, hroutes⟩ := bodyFilterInput_routes stack d.segments hcut hrange hfits
  rw [appended, hok, Except.map, hroutes.holds.bytes_eq, (Routing.new_at.foldl_content d).2]
  rfl

theorem appended_single (stack : ℕ → NgxStr) (d : Content []) :
    appended stack (inputChain [] d.render) = .ok d.shown :=
  appended_content stack d List.flatten_singleton (ESIParser.inRange_single _) (echoFits_single _)

/-- Suppressed text makes no difference to the output exactly when no `vars` or `attempt` element
lies inside `remove` or `except`. -/
theorem appended_variant_iff (d : Content []) :
    (∀ (d' : Content []) (stack stack' : ℕ → NgxStr) (init init' : List Bytes) (last last' : Bytes),
      d.Variant d' → (init ++ [last]).flatten = d.render → (init' ++ [last']).flatten = d'.render →
      ESIParser.InRange (init ++ [last]) → EchoFits (init ++ [last]) →
      ESIParser.InRange (init' ++ [last']) → EchoFits (init' ++ [last']) →
      appended stack (inputChain init last) = appended stack' (inputChain init' last')) ↔
      ¬ d.Leaks := by
  constructor
  · intro h hd
    obtain ⟨d', hvariant, hlen⟩ := hd.exists_variant
    have heq := h d' (fun _ => ⟨0, none⟩) (fun _ => ⟨0, none⟩) [] [] d.render d'.render hvariant
      List.flatten_singleton List.flatten_singleton (ESIParser.inRange_single _) (echoFits_single _)
      (ESIParser.inRange_single _) (echoFits_single _)
    rw [appended_single, appended_single] at heq
    rw [Except.ok.inj heq] at hlen
    omega
  · intro hd d' stack stack' init init' last last' hvariant hcut hcut' hrange hfits hrange' hfits'
    rw [appended_content stack d hcut hrange hfits, appended_content stack' d' hcut' hrange' hfits',
      hvariant.shown_eq hd fun h => by simp [Suppressed] at h]

/-- `<esi:remove><esi:vars>`, the text, and the two end tags. -/
def removedVars (t : CharData) : Content [] :=
  .element ⟨[], List.not_mem_nil⟩ .esiRemove List.not_mem_nil .bare
    (.element ⟨[], List.not_mem_nil⟩ .esiVars (by decide) .bare (.last t)
      (.last ⟨[], List.not_mem_nil⟩))
    (.last ⟨[], List.not_mem_nil⟩)

/-- The texts `a` and `b` in it come out. -/
theorem appended_leaks : ¬ ∀ (d d' : Content []) (stack stack' : ℕ → NgxStr)
    (init init' : List Bytes) (last last' : Bytes), d.Variant d' →
    (init ++ [last]).flatten = d.render → (init' ++ [last']).flatten = d'.render →
    appended stack (inputChain init last) = appended stack' (inputChain init' last') := by
  intro h
  have hvariant : (removedVars ⟨[97], by decide⟩).Variant (removedVars ⟨[98], by decide⟩) :=
    .element (.inr rfl) (.element (.inr rfl) (.last (.inl (by decide))) (.refl _)) (.refl _)
  have heq := h _ _ (fun _ => ⟨0, none⟩) (fun _ => ⟨0, none⟩) [] [] _ _ hvariant
    List.flatten_singleton List.flatten_singleton
  rw [appended_single, appended_single] at heq
  exact absurd (Except.ok.inj heq) (by decide)

end Ctx

end NginxEsi
