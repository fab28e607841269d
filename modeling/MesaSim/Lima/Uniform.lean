import MesaSim.Lima.State

/-!
# Uniform uploads

`lima_update_gp_uniform` and `lima_update_pp_uniform` (`brw_nir_lower_cs_intrinsics.c:1084–1161`)
build the vertex and fragment uniform buffers from the current constant buffers, viewport
transform and vertex shader; `lima_draw_vbo_update` calls them only when the dirty flags
say their inputs changed. The state setters of `lima_state.c` are not in this source; they
are modelled from the spec, each marking the flags the external interface names.
-/

namespace MesaSim.Lima

/-- `lima_update_gp_uniform`: the first `MIN2(vs->uniform_size, ccb->size)` bytes of the vertex
constant buffer, then the viewport scale and translate, then the shader constants, in a
buffer of `uniform_size + constant_size + 32` bytes. -/
def limaUpdateGpUniform (ccb : ConstantBuffer) (vp : Viewport) (vs : VsShaderState) :
    GpUniform :=
  let uniformSize := min vs.uniformSize ccb.size
  { constBuff := ccb.buffer.map (·.take uniformSize)
    scale := vp.scale
    translate := vp.translate
    constant := vs.constant.map (·.take vs.constantSize)
    size := uniformSize + vs.constantSize + 32 }

/-- The `i`-th little-endian `float` of a constant buffer's bytes. -/
def floatAt (b : List (BitVec 8)) (i : Nat) : BitVec 32 :=
  b.getD (4 * i + 3) 0 ++ b.getD (4 * i + 2) 0 ++ b.getD (4 * i + 1) 0 ++ b.getD (4 * i) 0

/-- `lima_update_pp_uniform`: nothing without a fragment constant buffer, else its
`size / sizeof(float)` floats converted by `_mesa_float_to_half`. -/
def limaUpdatePpUniform (floatToHalf : BitVec 32 → BitVec 16) (ccb : ConstantBuffer) :
    Option PpUniform :=
  ccb.buffer.map fun b => ⟨(List.range (ccb.size / 4)).map fun i => floatToHalf (floatAt b i)⟩

/-- The gp-uniform step of `lima_draw_vbo_update` (`:1271–1277`). -/
def gpUniformStep (ctx : Context) : Context :=
  if (ctx.dirty.constBuff ∧ ctx.vertexCb.dirty) ∨ ctx.dirty.viewport ∨ ctx.dirty.compiledVs then
    { ctx with
      gpUniform := some (limaUpdateGpUniform ctx.vertexCb ctx.viewport ctx.vs)
      vertexCb := { ctx.vertexCb with dirty := false } }
  else ctx

/-- The pp-uniform step of `lima_draw_vbo_update` (`:1283–1287`); without a buffer the
upload function returns early and the old buffer stays. -/
def ppUniformStep (floatToHalf : BitVec 32 → BitVec 16) (ctx : Context) : Context :=
  if ctx.dirty.constBuff ∧ ctx.fragmentCb.dirty then
    { ctx with
      ppUniform := (limaUpdatePpUniform floatToHalf ctx.fragmentCb).or ctx.ppUniform
      fragmentCb := { ctx.fragmentCb with dirty := false } }
  else ctx

/-- The gp-uniform step changes only the gp uniforms and the vertex buffer's dirty bit. -/
theorem gpUniformStep_eq (ctx : Context) :
    gpUniformStep ctx =
      let c := (ctx.dirty.constBuff ∧ ctx.vertexCb.dirty) ∨ ctx.dirty.viewport ∨ ctx.dirty.compiledVs
      { ctx with
        gpUniform := if c then some (limaUpdateGpUniform ctx.vertexCb ctx.viewport ctx.vs)
          else ctx.gpUniform
        vertexCb := { ctx.vertexCb with dirty := if c then false else ctx.vertexCb.dirty } } := by
  unfold gpUniformStep; dsimp only; split_ifs <;> rfl

/-- The pp-uniform step changes only the pp uniforms and the fragment buffer's dirty bit. -/
theorem ppUniformStep_eq (floatToHalf : BitVec 32 → BitVec 16) (ctx : Context) :
    ppUniformStep floatToHalf ctx =
      let c := ctx.dirty.constBuff ∧ ctx.fragmentCb.dirty
      { ctx with
        ppUniform := if c then (limaUpdatePpUniform floatToHalf ctx.fragmentCb).or ctx.ppUniform
          else ctx.ppUniform
        fragmentCb := { ctx.fragmentCb with dirty := if c then false else ctx.fragmentCb.dirty } } := by
  unfold ppUniformStep; dsimp only; split_ifs <;> rfl

/-- The two shader stages with constant buffers. -/
inductive ShaderStage
  | vertex
  | fragment
  deriving DecidableEq, Repr

/-- Modelled from the spec: `set_constant_buffer` binds a user buffer of the given size, or
none, and sets `LIMA_CONTEXT_DIRTY_CONST_BUFF` and the stage's `const_buffer.dirty`. -/
def limaSetConstantBuffer (stage : ShaderStage) (cb : Option (List (BitVec 8) × Nat))
    (ctx : Context) : Context :=
  let so : ConstantBuffer := ⟨cb.map (·.1), (cb.map (·.2)).getD 0, true⟩
  let ctx := { ctx with dirty := { ctx.dirty with constBuff := true } }
  match stage with
  | .vertex => { ctx with vertexCb := so }
  | .fragment => { ctx with fragmentCb := so }

/-- Modelled from the spec: `set_viewport_states` sets the viewport and
`LIMA_CONTEXT_DIRTY_VIEWPORT`. -/
def limaSetViewport (vp : Viewport) (ctx : Context) : Context :=
  { ctx with viewport := vp, dirty := { ctx.dirty with viewport := true } }

/-- Modelled from the spec: `lima_update_vs_state` installs the shader it compiled, if any,
and a change of the compiled vertex shader sets `LIMA_CONTEXT_DIRTY_COMPILED_VS`. -/
def limaUpdateVsState (compiled : Option VsShaderState) (ctx : Context) : Context :=
  match compiled with
  | some v => if v = ctx.vs then ctx else
      { ctx with vs := v, dirty := { ctx.dirty with compiledVs := true } }
  | none => ctx

/-! ### Freshness -/

/-- The uploaded gp uniforms are what `lima_update_gp_uniform` builds from the current state. -/
def GpFresh (ctx : Context) : Prop :=
  ctx.gpUniform = some (limaUpdateGpUniform ctx.vertexCb ctx.viewport ctx.vs)

/-- With a fragment constant buffer bound, the uploaded pp uniforms are what
`lima_update_pp_uniform` builds from it. -/
def PpFresh (floatToHalf : BitVec 32 → BitVec 16) (ctx : Context) : Prop :=
  ctx.fragmentCb.buffer.isSome → ctx.ppUniform = limaUpdatePpUniform floatToHalf ctx.fragmentCb

/-- Every stale upload has the flags set that make the next draw rebuild it. -/
def UniformInv (floatToHalf : BitVec 32 → BitVec 16) (ctx : Context) : Prop :=
  (GpFresh ctx ∨ (ctx.dirty.constBuff ∧ ctx.vertexCb.dirty) ∨ ctx.dirty.viewport ∨
      ctx.dirty.compiledVs) ∧
    (PpFresh floatToHalf ctx ∨ (ctx.dirty.constBuff ∧ ctx.fragmentCb.dirty))

section Steps

variable {floatToHalf : BitVec 32 → BitVec 16}

theorem limaUpdatePpUniform_dirty (ccb : ConstantBuffer) (d : Bool) :
    limaUpdatePpUniform floatToHalf { ccb with dirty := d } = limaUpdatePpUniform floatToHalf ccb :=
  rfl

/-- After the gp-uniform step the gp uniforms are fresh, and the pp side is untouched. -/
theorem gpUniformStep_fresh {ctx : Context} (h : UniformInv floatToHalf ctx) :
    GpFresh (gpUniformStep ctx) ∧
      (PpFresh floatToHalf (gpUniformStep ctx) ∨
        ((gpUniformStep ctx).dirty.constBuff ∧ (gpUniformStep ctx).fragmentCb.dirty)) := by
  unfold gpUniformStep
  split
  · exact ⟨rfl, h.2⟩
  · refine ⟨?_, h.2⟩
    rcases h.1 with h1 | h1 | h1 | h1
    · exact h1
    all_goals simp_all

/-- After the pp-uniform step the pp uniforms are fresh; the gp side keeps its freshness. -/
theorem ppUniformStep_fresh {ctx : Context} (hg : GpFresh ctx)
    (hp : PpFresh floatToHalf ctx ∨ (ctx.dirty.constBuff ∧ ctx.fragmentCb.dirty)) :
    GpFresh (ppUniformStep floatToHalf ctx) ∧ PpFresh floatToHalf (ppUniformStep floatToHalf ctx) := by
  unfold ppUniformStep
  split
  · refine ⟨hg, fun hb => ?_⟩
    simp only [limaUpdatePpUniform_dirty] at hb ⊢
    obtain ⟨b, hb⟩ := Option.isSome_iff_exists.mp hb
    simp [limaUpdatePpUniform, hb]
  · refine ⟨hg, ?_⟩
    rcases hp with hp | hp
    · exact hp
    · simp_all

end Steps

end MesaSim.Lima
