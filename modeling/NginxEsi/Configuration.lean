import Mathlib.Data.List.Induction
import NginxEsi.Filter

/-!
# Which responses are filtered

The directives of the module, the configuration of a block and of the blocks around it, and
`ngx_http_esi_header_filter`, which decides about a response (`header_filter_decides`).

* What the code uses of nginx is a parameter, and `Documented` is what it relies on.
* The arguments of a directive are C strings.
* `none` is the value `NGX_CONF_UNSET` of a setting.
* Allocations succeed.
-/

namespace NginxEsi

/-- A string without the byte that ends it. -/
abbrev CString := { s : Bytes // (0 : UInt8) ∉ s }

/-- `text/html`. -/
def textHtml : CString := ⟨[116, 101, 120, 116, 47, 104, 116, 109, 108], by decide⟩

/-! ## nginx -/

/-- `ngx_conf_merge_value`, `ngx_conf_merge_size_value` and `ngx_strncasecmp`. -/
structure Nginx where
  confMergeValue : Option Bool → Option Bool → Bool → Option Bool
  confMergeSizeValue : Option ℕ → Option ℕ → ℕ → Option ℕ
  strncasecmp : Bytes → Bytes → ℕ → ℤ

/-- The lower-case letter of an upper-case one. -/
def lower (b : UInt8) : UInt8 := if 65 ≤ b && b ≤ 90 then b + 32 else b

/-- A setting that is not there comes from the block around, or is the default; strings are compared
without regard to case. -/
structure Nginx.Documented (nginx : Nginx) : Prop where
  mergeValue : ∀ conf prev default,
    nginx.confMergeValue conf prev default = some ((conf.or prev).getD default)
  mergeSizeValue : ∀ conf prev default,
    nginx.confMergeSizeValue conf prev default = some ((conf.or prev).getD default)
  strncasecmp : ∀ (s : Bytes) (t : CString) (n : ℕ), n ≤ s.length → n ≤ t.1.length →
    (nginx.strncasecmp s t.1 n = 0 ↔ (s.take n).map lower = (t.1.take n).map lower)

/-! ## The configuration -/

/-- `ngx_http_esi_loc_conf_t`. -/
structure LocConf where
  enable : Option Bool
  silentErrors : Option Bool
  types : Option (List CString)
  minFileChunk : Option ℕ
  maxDepth : Option ℕ
  deriving DecidableEq

/-- The turn of the loop of `ngx_http_esi_types` for one argument. -/
def pushType (types : List CString) (value : CString) : List CString :=
  if value = textHtml then types else types ++ [value]

/-- `ngx_http_esi_types`. -/
def ngxHttpEsiTypes (conf : LocConf) (args : List CString) : LocConf :=
  { conf with types := some (args.foldl pushType (conf.types.getD [textHtml])) }

/-- `ngx_http_esi_create_loc_conf`. -/
def ngxHttpEsiCreateLocConf : LocConf := ⟨none, none, none, none, none⟩

/-- `ngx_http_esi_merge_loc_conf`. -/
def ngxHttpEsiMergeLocConf (nginx : Nginx) (prev conf : LocConf) : LocConf where
  enable := nginx.confMergeValue conf.enable prev.enable false
  silentErrors := nginx.confMergeValue conf.silentErrors prev.silentErrors false
  minFileChunk := nginx.confMergeSizeValue conf.minFileChunk prev.minFileChunk 1024
  maxDepth := nginx.confMergeSizeValue conf.maxDepth prev.maxDepth 256
  types := match conf.types with
    | some types => some types
    | none => match prev.types with
      | none => some [textHtml]
      | some types => some types

/-- The directives in a block of the configuration: the values that nginx's own handlers store, and
the arguments of each `esi_types`. -/
structure Block where
  enable : Option Bool
  silentErrors : Option Bool
  minFileChunk : Option ℕ
  maxDepth : Option ℕ
  types : List (List CString)

/-- The configuration of a block, as its directives leave it. -/
def Block.locConf (b : Block) : LocConf :=
  b.types.foldl ngxHttpEsiTypes { ngxHttpEsiCreateLocConf with
    enable := b.enable
    silentErrors := b.silentErrors
    minFileChunk := b.minFileChunk
    maxDepth := b.maxDepth }

/-- The configuration of the last block, after nginx has merged those around it, outermost first. -/
def inForce (nginx : Nginx) (main : Block) (blocks : List Block) : LocConf :=
  blocks.foldl (fun prev b => ngxHttpEsiMergeLocConf nginx prev b.locConf) main.locConf

/-! ## The header filter -/

/-- The headers that `ngx_http_clear_content_length` and `ngx_http_clear_last_modified` clear. -/
inductive Header where
  | contentLength | lastModified
  deriving DecidableEq, Repr

/-- What the filters read and set of an `ngx_http_request_t`, and the headers cleared. -/
structure Request where
  isMain : Bool
  contentType : Bytes
  contentLengthN : ℤ
  filterNeedInMemory : Bool
  ctx : Option Ctx
  cleared : List Header

/-- `ngx_http_esi_header_filter`, up to the call of the next filter. -/
def ngxHttpEsiHeaderFilter (nginx : Nginx) (conf : LocConf) (r : Request) :
    Except Crash Request :=
  if conf.enable = some false ∨ r.contentType.length = 0 ∨ r.contentLengthN = 0 then .ok r
  else match conf.types with
    | none => .error (.memory .null)
    | some types =>
      if types.any fun type => type.1.length ≤ r.contentType.length &&
          nginx.strncasecmp r.contentType type.1 type.1.length == 0 then
        .ok { r with
          ctx := some Ctx.new
          filterNeedInMemory := true
          cleared := if r.isMain then r.cleared ++ [.contentLength, .lastModified]
            else r.cleared }
      else .ok r

/-! ## Settings -/

/-- What the innermost block with a setting has for it. -/
def innermost {α : Type} (f : Block → Option α) (path : List Block) : Option α :=
  path.reverse.findSome? f

theorem innermost_concat {α : Type} (f : Block → Option α) (path : List Block) (b : Block) :
    innermost f (path ++ [b]) = (f b).or (innermost f path) := by
  rw [innermost, innermost, List.reverse_append, List.reverse_singleton, List.singleton_append,
    List.findSome?_cons]
  cases f b <;> rfl

/-- The types that a block lists. -/
def Block.listed (b : Block) : Option (List CString) :=
  if b.types = [] then none else some (textHtml :: b.types.flatten.filter (· ≠ textHtml))

theorem foldl_pushType (args types : List CString) :
    args.foldl pushType types = types ++ args.filter (· ≠ textHtml) := by
  induction args generalizing types with
  | nil => simp
  | cons value args ih =>
    rw [List.foldl_cons, ih, pushType]
    by_cases hvalue : value = textHtml
    · simp [hvalue]
    · simp [hvalue]

theorem foldl_types (lines : List (List CString)) (conf : LocConf) :
    lines.foldl ngxHttpEsiTypes conf = { conf with
      types := if lines = [] then conf.types
        else some (conf.types.getD [textHtml] ++ lines.flatten.filter (· ≠ textHtml)) } := by
  induction lines generalizing conf with
  | nil => rfl
  | cons args lines ih =>
    rw [List.foldl_cons, ih, ngxHttpEsiTypes, foldl_pushType]
    by_cases hlines : lines = []
    · simp [hlines]
    · simp [hlines]

theorem Block.locConf_eq (b : Block) :
    b.locConf = ⟨b.enable, b.silentErrors, b.listed, b.minFileChunk, b.maxDepth⟩ := by
  rw [locConf, foldl_types, listed]
  rfl

theorem ngxHttpEsiMergeLocConf_types (nginx : Nginx) (prev conf : LocConf) :
    (ngxHttpEsiMergeLocConf nginx prev conf).types =
      some ((conf.types.or prev.types).getD [textHtml]) := by
  rw [ngxHttpEsiMergeLocConf]
  cases conf.types with
  | some types => rfl
  | none => cases prev.types <;> rfl

theorem inForce_concat (nginx : Nginx) (main b : Block) (blocks : List Block) :
    inForce nginx main (blocks ++ [b]) =
      ngxHttpEsiMergeLocConf nginx (inForce nginx main blocks) b.locConf := by
  rw [inForce, List.foldl_append]
  rfl

/-- A setting that merges as nginx merges is in force as the innermost block that has it says. -/
theorem inForce_setting {α : Type} {nginx : Nginx} {setting : LocConf → Option α}
    {f : Block → Option α} {default : α} (hlocal : ∀ b, setting b.locConf = f b)
    (hmerge : ∀ prev conf, setting (ngxHttpEsiMergeLocConf nginx prev conf) =
      some (((setting conf).or (setting prev)).getD default))
    (main : Block) (blocks : List Block) :
    (setting (inForce nginx main blocks)).getD default =
        (innermost f (main :: blocks)).getD default ∧
      (blocks ≠ [] → (setting (inForce nginx main blocks)).isSome = true) := by
  induction blocks using List.reverseRecOn with
  | nil =>
    have hinnermost : innermost f [main] = f main := by
      rw [innermost, List.reverse_singleton, List.findSome?_cons]
      cases f main <;> rfl
    rw [show inForce nginx main [] = main.locConf from rfl, hlocal, hinnermost]
    exact ⟨rfl, fun h => absurd rfl h⟩
  | append_singleton blocks b ih =>
    obtain ⟨hprev, -⟩ := ih
    rw [← List.cons_append, innermost_concat, inForce_concat, hmerge, hlocal]
    refine ⟨?_, fun _ => rfl⟩
    rw [Option.getD_some]
    cases f b with
    | some value => rfl
    | none => exact hprev

theorem inForce_setting_eq {α : Type} {nginx : Nginx} {setting : LocConf → Option α}
    {f : Block → Option α} {default : α} (hlocal : ∀ b, setting b.locConf = f b)
    (hmerge : ∀ prev conf, setting (ngxHttpEsiMergeLocConf nginx prev conf) =
      some (((setting conf).or (setting prev)).getD default))
    (main : Block) {blocks : List Block} (hblocks : blocks ≠ []) :
    setting (inForce nginx main blocks) = some ((innermost f (main :: blocks)).getD default) := by
  obtain ⟨hvalue, hsome⟩ := inForce_setting hlocal hmerge main blocks
  obtain ⟨value, hset⟩ := Option.isSome_iff_exists.1 (hsome hblocks)
  rw [← hvalue, hset, Option.getD_some]

/-- What is in force in a block with one around it: for each setting what the innermost block with
it has, or the default. -/
theorem inForce_eq {nginx : Nginx} (h : nginx.Documented) (main : Block) {blocks : List Block}
    (hblocks : blocks ≠ []) : inForce nginx main blocks = {
      enable := some ((innermost Block.enable (main :: blocks)).getD false)
      silentErrors := some ((innermost Block.silentErrors (main :: blocks)).getD false)
      types := some ((innermost Block.listed (main :: blocks)).getD [textHtml])
      minFileChunk := some ((innermost Block.minFileChunk (main :: blocks)).getD 1024)
      maxDepth := some ((innermost Block.maxDepth (main :: blocks)).getD 256) } := by
  have henable := inForce_setting_eq (fun b => congrArg LocConf.enable b.locConf_eq)
    (fun _ _ => h.mergeValue _ _ false) main hblocks
  have hsilent := inForce_setting_eq (fun b => congrArg LocConf.silentErrors b.locConf_eq)
    (fun _ _ => h.mergeValue _ _ false) main hblocks
  have htypes := inForce_setting_eq (fun b => congrArg LocConf.types b.locConf_eq)
    (ngxHttpEsiMergeLocConf_types nginx) main hblocks
  have hchunk := inForce_setting_eq (fun b => congrArg LocConf.minFileChunk b.locConf_eq)
    (fun _ _ => h.mergeSizeValue _ _ 1024) main hblocks
  have hdepth := inForce_setting_eq (fun b => congrArg LocConf.maxDepth b.locConf_eq)
    (fun _ _ => h.mergeSizeValue _ _ 256) main hblocks
  rw [← henable, ← hsilent, ← htypes, ← hchunk, ← hdepth]

/-! ## The decision -/

/-- The content type begins with the type, in upper or lower case. -/
def Starts (contentType : Bytes) (type : CString) : Prop :=
  type.1.map lower <+: contentType.map lower

theorem starts_iff {contentType : Bytes} {type : CString} : Starts contentType type ↔
    type.1.length ≤ contentType.length ∧
      (contentType.take type.1.length).map lower = type.1.map lower := by
  rw [Starts, List.prefix_iff_eq_take, List.length_map, ← List.map_take]
  constructor
  · intro h
    have hlength := congrArg List.length h
    simp only [List.length_map, List.length_take] at hlength
    exact ⟨by omega, h.symm⟩
  · rintro ⟨-, h⟩
    exact h.symm

/-- The test of the header filter for one type. -/
theorem Nginx.Documented.matches_iff {nginx : Nginx} (h : nginx.Documented) (contentType : Bytes)
    (type : CString) : (type.1.length ≤ contentType.length &&
        nginx.strncasecmp contentType type.1 type.1.length == 0) = true ↔
      Starts contentType type := by
  rw [starts_iff, Bool.and_eq_true, decide_eq_true_iff, beq_iff_eq, and_congr_right_iff]
  intro hlength
  rw [h.strncasecmp _ _ _ hlength le_rfl, List.take_length]

/-- A response is filtered when the innermost `esi` is on, it may have a body, and its content type
begins with one of the types of the innermost `esi_types`. -/
structure Filtered (path : List Block) (r : Request) : Prop where
  enable : (innermost Block.enable path).getD false = true
  contentType : r.contentType ≠ []
  contentLength : r.contentLengthN ≠ 0
  types : ∃ type ∈ (innermost Block.listed path).getD [textHtml], Starts r.contentType type

/-- What the header filter makes of a response that is filtered. -/
def Request.accept (r : Request) : Request :=
  { r with
    ctx := some Ctx.new
    filterNeedInMemory := true
    cleared := if r.isMain then r.cleared ++ [.contentLength, .lastModified] else r.cleared }

theorem Nginx.Documented.any_iff {nginx : Nginx} (h : nginx.Documented) (contentType : Bytes)
    (types : List CString) : (types.any fun type => type.1.length ≤ contentType.length &&
        nginx.strncasecmp contentType type.1 type.1.length == 0) = true ↔
      ∃ type ∈ types, Starts contentType type := by
  rw [List.any_eq_true]
  exact exists_congr fun type => and_congr_right fun _ => h.matches_iff _ _

section Decision

variable {nginx : Nginx} {main : Block} {blocks : List Block} {r : Request}

theorem headerFilter_of_filtered (h : nginx.Documented) (hblocks : blocks ≠ [])
    (hfiltered : Filtered (main :: blocks) r) :
    ngxHttpEsiHeaderFilter nginx (inForce nginx main blocks) r = .ok r.accept := by
  rw [ngxHttpEsiHeaderFilter, inForce_eq h main hblocks]
  dsimp only
  rw [if_neg]
  · rw [if_pos ((h.any_iff _ _).2 hfiltered.types)]
    rfl
  · rw [hfiltered.enable]
    rintro (hoff | hempty | hzero)
    · exact absurd hoff (by decide)
    · exact hfiltered.contentType (List.length_eq_zero_iff.1 hempty)
    · exact hfiltered.contentLength hzero

theorem headerFilter_of_not (h : nginx.Documented) (hblocks : blocks ≠ [])
    (hfiltered : ¬ Filtered (main :: blocks) r) :
    ngxHttpEsiHeaderFilter nginx (inForce nginx main blocks) r = .ok r := by
  rw [ngxHttpEsiHeaderFilter, inForce_eq h main hblocks]
  dsimp only
  by_cases hskip : some ((innermost Block.enable (main :: blocks)).getD false) = some false ∨
      r.contentType.length = 0 ∨ r.contentLengthN = 0
  · rw [if_pos hskip]
  · rw [if_neg hskip]
    simp only [not_or] at hskip
    obtain ⟨henable, hlength, hbody⟩ := hskip
    rw [if_neg fun hany => hfiltered ⟨?_, ?_, hbody, (h.any_iff _ _).1 hany⟩]
    · exact Bool.eq_true_of_not_eq_false fun hoff => henable (congrArg some hoff)
    · exact fun hempty => hlength (List.length_eq_zero_iff.2 hempty)

end Decision

/-- Which responses the header filter sets up, in whatever blocks they are served; it leaves all
others alone. -/
theorem header_filter_decides {nginx : Nginx} (h : nginx.Documented) (main : Block)
    {blocks : List Block} (hblocks : blocks ≠ []) (r : Request) :
    (Filtered (main :: blocks) r →
        ngxHttpEsiHeaderFilter nginx (inForce nginx main blocks) r = .ok r.accept) ∧
      (¬ Filtered (main :: blocks) r →
        ngxHttpEsiHeaderFilter nginx (inForce nginx main blocks) r = .ok r) :=
  ⟨headerFilter_of_filtered h hblocks, headerFilter_of_not h hblocks⟩

/-- `ngx_strncasecmp` on two strings of `n` bytes at least. -/
def compareBytes (s t : Bytes) (n : ℕ) : ℤ :=
  if (s.take n).map lower = (t.take n).map lower then 0 else 1

theorem compareBytes_eq_zero (s t : Bytes) (n : ℕ) :
    compareBytes s t n = 0 ↔ (s.take n).map lower = (t.take n).map lower := by
  unfold compareBytes
  split_ifs with h
  · exact iff_of_true rfl h
  · exact iff_of_false Int.one_ne_zero h

/-- `esi on` around a location, and `esi_types text/xml` in it: `Text/XML; x` of a subrequest. -/
theorem header_filter_decides_location :
    ngxHttpEsiHeaderFilter ⟨fun conf prev default => some ((conf.or prev).getD default),
        fun conf prev default => some ((conf.or prev).getD default), compareBytes⟩
      (inForce ⟨fun conf prev default => some ((conf.or prev).getD default),
        fun conf prev default => some ((conf.or prev).getD default), compareBytes⟩
        ⟨some true, none, none, none, []⟩ [⟨none, none, none, none,
          [[⟨[116, 101, 120, 116, 47, 120, 109, 108], by decide⟩]]⟩])
      ⟨false, [84, 101, 120, 116, 47, 88, 77, 76, 59, 32, 120], -1, false, none, []⟩ =
    .ok ⟨false, [84, 101, 120, 116, 47, 88, 77, 76, 59, 32, 120], -1, true, some Ctx.new, []⟩ := by
  refine (header_filter_decides ⟨fun _ _ _ => rfl, fun _ _ _ => rfl,
    fun s t n _ _ => compareBytes_eq_zero s t.1 n⟩ _ (by decide) _).1
    ⟨by decide, by decide, by decide, ?_⟩
  exact ⟨⟨[116, 101, 120, 116, 47, 120, 109, 108], by decide⟩, by decide, [59, 32, 120],
    by decide⟩

end NginxEsi
