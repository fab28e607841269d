import MesaSim.Lima.Job
import MesaSim.Lima.Uniform

/-!
# The draw path and runs of the context

`lima_pack_plbu_cmd` (its scissor and damage part), `lima_draw_vbo_update`,
`lima_draw_vbo_indexed`, `lima_draw_vbo_count` and `lima_draw_vbo`
(`brw_nir_lower_cs_intrinsics.c:560–645`, `:1247–1430`), and a run: a sequence of state
changes, clears, draws and flushes applied to a context. Gallium's helpers (`u_trim_pipe_prim`,
`u_split_draw`, `_mesa_float_to_half`) and the outcome of shader compilation are inputs.
-/

namespace MesaSim.Lima

/-- `u_split_draw(info, max_verts, &count, &step)` under the contract lima relies on: a count
within the limit is drawn whole; a larger one is cut, for a positive limit, into a first
sub-draw within the limit and a positive step to the next. -/
structure SplitDraw where
  split : DrawInfo → Nat → Nat → Nat × Nat
  fits : ∀ info m c, c ≤ m → split info m c = (c, c)
  cuts : ∀ info m c, 0 < m → m < c →
    0 < (split info m c).2 ∧ (split info m c).2 ≤ (split info m c).1 ∧ (split info m c).1 ≤ m

/-- Under lima's limit `max_verts = 65535`, a nonzero count always advances by a positive
step. -/
theorem SplitDraw.step_pos (s : SplitDraw) (info : DrawInfo) {count : Nat} (h : count ≠ 0) :
    0 < (s.split info 65535 count).2 := by
  by_cases hc : count ≤ 65535
  · rw [s.fits info 65535 count hc]; omega
  · exact (s.cuts info 65535 count (by omega) (by omega)).1

/-- The Gallium constants and helpers this core calls. -/
structure Gallium where
  bits : ClearBits
  floatToHalf : BitVec 32 → BitVec 16
  trimPipePrim : Nat → BitVec 32 → Option (BitVec 32)
  splitDraw : SplitDraw

/-- One `draw_vbo` call with a single draw, and what the external shader and index code
returns for it: whether the fragment and vertex shader states update, the vertex shader
compiled for it, and the index buffer's object. -/
structure DrawCall where
  info : DrawInfo
  draw : DrawStartCount
  fsOk : Bool
  vsOk : Bool
  compiledVs : Option VsShaderState
  indexBo : Bo
  deriving DecidableEq, Repr

/-- `lima_pack_plbu_cmd`, its scissor and damage part (`:603–612`). -/
def limaPackPlbuCmd (draw : DrawStartCount) (ctx : Context) : Context :=
  let (ctx, job) := limaJobGet ctx
  let c := ctx.clippedScissor
  { ctx with job := some { job with
      plbuCmds := job.plbuCmds ++ [⟨c.minx, c.maxx, c.miny, c.maxy, draw⟩]
      damageRect :=
        limaDamageRectUnion job.damageRect (u32 c.minx) (u32 c.maxx) (u32 c.miny) (u32 c.maxy) } }

/-- The `buffers` a draw writes (`:1256–1265`). -/
def drawBuffers (bits : ClearBits) (ctx : Context) : BitVec 32 :=
  (if ctx.framebuffer.zsbufBo.isSome ∧ ctx.depthEnabled then bits.depth else 0) |||
    (if ctx.framebuffer.zsbufBo.isSome ∧ (ctx.stencilEnabled.1 ∨ ctx.stencilEnabled.2) then
      bits.stencil else 0) |||
    (if ctx.framebuffer.nrCbufs ≠ 0 then bits.color0 else 0)

/-- `lima_draw_vbo_update` (`:1247–1300`). -/
def limaDrawVboUpdate (g : Gallium) (draw : DrawStartCount) (ctx : Context) : Context :=
  let ctx := limaUpdateJobWb g.bits .draw (drawBuffers g.bits ctx) ctx
  let ctx := ppUniformStep g.floatToHalf (gpUniformStep ctx)
  let ctx := limaPackPlbuCmd draw ctx
  { ctx with
    dirty := Dirty.none
    drawLog := ctx.drawLog ++
      [⟨ctx.gpUniform, ctx.ppUniform, ctx.vertexCb, ctx.fragmentCb, ctx.viewport, ctx.vs⟩] }

/-- `lima_draw_vbo_count` (`:1346–1371`): the loop over the sub-draws `u_split_draw` cuts. -/
def limaDrawVboCount (g : Gallium) (info : DrawInfo) (start : BitVec 32) (count : Nat)
    (ctx : Context) : Context :=
  if count = 0 then ctx
  else
    let ctx := limaDrawVboUpdate g ⟨start, BitVec.ofNat 32 (g.splitDraw.split info 65535 count).1⟩ ctx
    limaDrawVboCount g info (start + BitVec.ofNat 32 (g.splitDraw.split info 65535 count).2)
      (count - (g.splitDraw.split info 65535 count).2) ctx
termination_by count
decreasing_by have := g.splitDraw.step_pos info ‹_›; omega

/-- `lima_job_add_bo(job, pipe, bo, LIMA_SUBMIT_BO_READ)` on the current job, for each
`(pipe, bo)` in turn. -/
def limaJobAddReads (reads : List (Pipe × Bo)) (ctx : Context) : Context :=
  let (ctx, job) := limaJobGet ctx
  { ctx with job := some { job with bos := job.bos ++ reads.map fun r => .addBo r.1 r.2 .read } }

/-- `lima_draw_vbo_indexed` (`:1302–1344`): the index range and its cache are external; the
index buffer is added to both pipes, then one update. -/
def limaDrawVboIndexed (g : Gallium) (indexBo : Bo) (draw : DrawStartCount) (ctx : Context) :
    Context :=
  limaDrawVboUpdate g draw (limaJobAddReads [(.gp, indexBo), (.pp, indexBo)] ctx)

/-- `lima_draw_vbo` (`:1373–1430`) for one draw, with its early returns. -/
def limaDrawVbo (g : Gallium) (d : DrawCall) (ctx : Context) : Context :=
  match g.trimPipePrim d.info.mode d.draw.count with
  | none => ctx
  | some count =>
    if !(ctx.bindFs && ctx.bindVs) then ctx else
    let ctx := { ctx with clippedScissor :=
      limaClipScissorToViewport ctx.framebuffer ctx.scissorEnabled ctx.scissor ctx.viewport }
    if limaIsScissorZero ctx.clippedScissor then ctx else
    if !d.fsOk then ctx else
    let ctx := limaUpdateVsState d.compiledVs ctx
    if !d.vsOk then ctx else
    let ctx := limaJobAddReads [(.gp, ctx.vs.bo), (.pp, ctx.fsBo)] ctx
    if d.info.indexSize ≠ 0 then limaDrawVboIndexed g d.indexBo ⟨d.draw.start, count⟩ ctx
    else limaDrawVboCount g d.info d.draw.start count.toNat ctx

/-- The calls the caller makes. The setters are modelled from the spec: each stores its state
and marks its dirty flag (only the flags this core reads are kept). -/
inductive Op
  | setConstantBuffer (stage : ShaderStage) (cb : Option (List (BitVec 8) × Nat))
  | setViewport (vp : Viewport)
  | setScissor (s : ScissorState)
  | bindRasterizer (scissor : Bool)
  | bindZsa (depth : Bool) (stencil : Bool × Bool)
  | bindShaders (vs fs : Bool) (fsBo : Bo)
  | clear (buffers : BitVec 32) (color : List (BitVec 32)) (depth : BitVec 64) (stencil : Nat)
  | draw (d : DrawCall)
  | setFramebuffer (fb : Framebuffer)
  | flush

/-- One call. -/
def limaStep (g : Gallium) (ctx : Context) : Op → Context
  | .setConstantBuffer stage cb => limaSetConstantBuffer stage cb ctx
  | .setViewport vp => limaSetViewport vp ctx
  | .setScissor s => { ctx with scissor := s }
  | .bindRasterizer scissor => { ctx with scissorEnabled := scissor }
  | .bindZsa depth stencil => { ctx with depthEnabled := depth, stencilEnabled := stencil }
  | .bindShaders vs fs fsBo => { ctx with bindVs := vs, bindFs := fs, fsBo := fsBo }
  | .clear buffers color depth stencil => limaClear g.bits buffers color depth stencil ctx
  | .draw d => limaDrawVbo g d ctx
  | .setFramebuffer fb => limaSetFramebufferState fb ctx
  | .flush => limaDoJob ctx

/-- Every job of a context: the submitted ones, then the pending one. -/
def Context.allJobs (ctx : Context) : List Job := ctx.submitted ++ ctx.job.toList

/-! ### What one draw appends -/

/-- `lima_pack_plbu_cmd` appends exactly one PLBU command, for the clipped scissor, to the job
`lima_job_get` gives. -/
theorem limaPackPlbuCmd_plbuCmds (draw : DrawStartCount) (ctx : Context) :
    (limaPackPlbuCmd draw ctx).job.map Job.plbuCmds = some ((limaJobGet ctx).2.plbuCmds ++
      [⟨ctx.clippedScissor.minx, ctx.clippedScissor.maxx, ctx.clippedScissor.miny,
        ctx.clippedScissor.maxy, draw⟩]) := by
  simp only [limaPackPlbuCmd, limaJobGet_fst, Option.map_some']

/-- `lima_draw_vbo_update` logs exactly one draw: the uniform buffers and caller state it leaves
in the context. -/
theorem limaDrawVboUpdate_drawLog (g : Gallium) (draw : DrawStartCount) (ctx : Context) :
    let c := limaDrawVboUpdate g draw ctx
    c.drawLog = ctx.drawLog ++ [⟨c.gpUniform, c.ppUniform, c.vertexCb, c.fragmentCb, c.viewport,
      c.vs⟩] := by
  simp [limaDrawVboUpdate, limaPackPlbuCmd, limaUpdateJobWb, gpUniformStep_eq, ppUniformStep_eq]

/-! ### Properties kept along runs

Each property of whole runs below is proved by showing that every call keeps it; these lemmas
reduce that to the steps of the draw path. -/

section Preservation

variable (g : Gallium) (P : Context → Prop)

/-- A property every sub-draw's update keeps holds after a split draw. -/
theorem limaDrawVboCount_preserves (hupd : ∀ d ctx, P ctx → P (limaDrawVboUpdate g d ctx))
    (info : DrawInfo) (start : BitVec 32) (count : Nat) (ctx : Context) (h : P ctx) :
    P (limaDrawVboCount g info start count ctx) := by
  induction start, count, ctx using limaDrawVboCount.induct g info with
  | case1 start ctx => rwa [limaDrawVboCount, if_pos rfl]
  | case2 start count ctx hc _ ih =>
    rw [limaDrawVboCount, if_neg hc]
    exact ih (hupd _ _ h)

/-- A property kept by each step of the draw path holds after `lima_draw_vbo`, whichever
early return it takes. -/
theorem limaDrawVbo_preserves
    (hclip : ∀ ctx s, P ctx → P { ctx with clippedScissor := s })
    (hvs : ∀ ctx v, P ctx → P (limaUpdateVsState v ctx))
    (hreads : ∀ ctx rs, P ctx → P (limaJobAddReads rs ctx))
    (hupd : ∀ d ctx, P ctx → P (limaDrawVboUpdate g d ctx)) (d : DrawCall) (ctx : Context)
    (h : P ctx) : P (limaDrawVbo g d ctx) := by
  have h₁ := hclip ctx
    (limaClipScissorToViewport ctx.framebuffer ctx.scissorEnabled ctx.scissor ctx.viewport) h
  have h₂ := hvs _ d.compiledVs h₁
  have h₃ := fun rs => hreads _ rs h₂
  unfold limaDrawVbo limaDrawVboIndexed
  dsimp only
  split
  · exact h
  · split_ifs
    all_goals first
      | exact h | exact h₁ | exact h₂ | exact hupd _ _ (hreads _ _ (h₃ _))
      | exact limaDrawVboCount_preserves g P hupd _ _ _ _ (h₃ _)

end Preservation

end MesaSim.Lima
