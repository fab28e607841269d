import Mathlib.Tactic.Ring

/-!
# Lima context and job state

The part of `struct lima_context` and `struct lima_job` that the draw packer of
`brw_nir_lower_cs_intrinsics.c:296–1436` reads and writes: the bound pipeline state, the
dirty flags, the uploaded uniform buffers, and the jobs with the buffer objects they
reference. Flags are the structured bitset the spec describes; Gallium's `PIPE_CLEAR_*`
values are not in this source and are a parameter (`ClearBits`). A job records the calls it
receives from this core (`lima_job_add_bo`, the `write_jobs` insertions, the hazard flushes)
in order, so that properties over whole runs can be stated on them.
-/

namespace MesaSim.Lima

/-- A buffer object, by identity. -/
structure Bo where
  handle : Nat
  deriving DecidableEq, Repr

/-- `PIPE_CLEAR_DEPTH`, `PIPE_CLEAR_STENCIL`, `PIPE_CLEAR_COLOR0` of `p_defines.h`. -/
structure ClearBits where
  depth : BitVec 32
  stencil : BitVec 32
  color0 : BitVec 32

/-- `pipe_scissor_state`: four 16-bit unsigned bit-fields. -/
structure ScissorState where
  minx : BitVec 16
  miny : BitVec 16
  maxx : BitVec 16
  maxy : BitVec 16
  deriving DecidableEq, Repr

/-- The framebuffer of `lima_context_framebuffer`: size (`uint16_t`) and the buffer objects
of `cbufs[0]` and `zsbuf`, with the surfaces' `reload` masks. -/
structure Framebuffer where
  width : BitVec 16
  height : BitVec 16
  nrCbufs : Nat
  cbufBo : Bo
  zsbufBo : Option Bo
  deriving DecidableEq, Repr

/-- The `float` bounds of `lima_context_viewport_state`, taken integral, and its transform. -/
structure Viewport where
  left : Int
  right : Int
  bottom : Int
  top : Int
  scale : List (BitVec 32)
  translate : List (BitVec 32)
  deriving DecidableEq, Repr

/-- `lima_context_constant_buffer`: the user buffer, its size in bytes, its own dirty bit. -/
structure ConstantBuffer where
  buffer : Option (List (BitVec 8))
  size : Nat
  dirty : Bool
  deriving DecidableEq, Repr

/-- The compiled vertex shader: its buffer object and the fields `lima_update_gp_uniform`
reads. -/
structure VsShaderState where
  bo : Bo
  uniformSize : Nat
  constant : Option (List (BitVec 8))
  constantSize : Nat
  deriving DecidableEq, Repr

/-- The `ctx->dirty` bits this core reads or sets. -/
structure Dirty where
  clear : Bool
  compiledVs : Bool
  viewport : Bool
  constBuff : Bool
  deriving DecidableEq, Repr

/-- All bits cleared, as `ctx->dirty = 0` leaves them. -/
def Dirty.none : Dirty := ⟨false, false, false, false⟩

/-- `LIMA_PIPE_GP` and `LIMA_PIPE_PP`. -/
inductive Pipe
  | gp
  | pp
  deriving DecidableEq, Repr

/-- `LIMA_SUBMIT_BO_READ` and `LIMA_SUBMIT_BO_WRITE`. -/
inductive Access
  | read
  | write
  deriving DecidableEq, Repr

/-- A call this core makes on behalf of a job, in the order it makes them. -/
inductive JobEvent
  /-- `lima_flush_job_accessing_bo(ctx, bo, true)`. -/
  | flushAccessing (bo : Bo)
  /-- `_mesa_hash_table_insert(ctx->write_jobs, res, job)`. -/
  | writeJob (bo : Bo)
  /-- `lima_job_add_bo(job, pipe, bo, flags)`. -/
  | addBo (pipe : Pipe) (bo : Bo) (access : Access)
  deriving DecidableEq, Repr

/-- Clears and draws, the two operations that register their buffers with a job. -/
inductive OpKind
  | clear
  | draw
  deriving DecidableEq, Repr

/-- One `lima_update_job_wb` call: which operation made it, its `buffers` mask, and the
calls it made. -/
structure WbRecord where
  kind : OpKind
  buffers : BitVec 32
  color : List JobEvent
  zs : List JobEvent
  deriving DecidableEq, Repr

/-- The `pipe_draw_info` fields this core reads. -/
structure DrawInfo where
  mode : Nat
  indexSize : Nat
  deriving DecidableEq, Repr

/-- `pipe_draw_start_count`. -/
structure DrawStartCount where
  start : BitVec 32
  count : BitVec 32
  deriving DecidableEq, Repr

/-- What `lima_pack_plbu_cmd` emits that this model reads back: the arguments of
`PLBU_CMD_SCISSORS`, in the macro's order, and the draw it was packed for. -/
structure PlbuCmd where
  scissorMinx : BitVec 16
  scissorMaxx : BitVec 16
  scissorMiny : BitVec 16
  scissorMaxy : BitVec 16
  draw : DrawStartCount
  deriving DecidableEq, Repr

/-- `struct lima_job_clear`; the colour and depth arrive as the caller's `float`/`double`
bit patterns, packed by Gallium's `float_to_ubyte`/`util_pack_z` outside this core. -/
structure JobClear where
  buffers : BitVec 32
  color : Option (List (BitVec 32))
  depth : Option (BitVec 64)
  stencil : Option Nat
  deriving DecidableEq, Repr

/-- `struct lima_job`: its framebuffer key, `resolve`, `damage_rect`, the clear and the PLBU
commands of its draws. The last two fields record, in order, the `lima_update_job_wb` calls
made for it and its other `lima_job_add_bo` calls. -/
structure Job where
  id : Nat
  key : Framebuffer
  resolve : BitVec 32
  damageRect : ScissorState
  clear : JobClear
  plbuCmds : List PlbuCmd
  wb : List WbRecord
  bos : List JobEvent
  deriving DecidableEq, Repr

/-- The uniform buffers in `ctx->buffer_state`, as the upload functions built them. -/
structure GpUniform where
  constBuff : Option (List (BitVec 8))
  scale : List (BitVec 32)
  translate : List (BitVec 32)
  constant : Option (List (BitVec 8))
  size : Nat
  deriving DecidableEq, Repr

/-- The `fp16` words of the fragment uniforms. -/
structure PpUniform where
  words : List (BitVec 16)
  deriving DecidableEq, Repr

/-- What one `lima_draw_vbo_update` call used: the uniform buffers its commands point at, and
the state the caller had set when it ran. -/
structure DrawSnapshot where
  gpUniform : Option GpUniform
  ppUniform : Option PpUniform
  vertexCb : ConstantBuffer
  fragmentCb : ConstantBuffer
  viewport : Viewport
  vs : VsShaderState
  deriving DecidableEq, Repr

/-- The part of `struct lima_context` the draw packer reads and writes; `drawLog` records
each `lima_draw_vbo_update` call. -/
structure Context where
  framebuffer : Framebuffer
  scissorEnabled : Bool
  scissor : ScissorState
  viewport : Viewport
  depthEnabled : Bool
  stencilEnabled : Bool × Bool
  vertexCb : ConstantBuffer
  fragmentCb : ConstantBuffer
  bindVs : Bool
  bindFs : Bool
  vs : VsShaderState
  fsBo : Bo
  dirty : Dirty
  cbufReload : BitVec 32
  zsbufReload : BitVec 32
  clippedScissor : ScissorState
  damageInit : ScissorState
  gpUniform : Option GpUniform
  ppUniform : Option PpUniform
  job : Option Job
  submitted : List Job
  nextJobId : Nat
  writeJobs : List (Bo × Nat)
  drawLog : List DrawSnapshot
  deriving Repr

end MesaSim.Lima
