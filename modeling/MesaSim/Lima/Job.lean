import MesaSim.Lima.Scissor

/-!
# Jobs: write-back registration, damage and clears

`lima_update_job_wb`, `lima_damage_rect_union` and `lima_clear`
(`brw_nir_lower_cs_intrinsics.c:339–435`), over the job lifecycle of `lima_job.c`. That file
is not in this source; its functions are modelled from the spec: one pending job at a time,
created by the first call that needs it after the previous one was flushed, flushed by
`lima_do_job`. The calls `lima_update_job_wb` makes (hazard flush, `write_jobs` insertion,
`lima_job_add_bo`) are kept in the job's `wb` record, one entry per call.
-/

namespace MesaSim.Lima

/-- Modelled from the spec: `lima_job_create`, a job with nothing recorded yet whose damage
rectangle starts at `damage`. -/
def Job.fresh (id : Nat) (fb : Framebuffer) (damage : ScissorState) : Job :=
  ⟨id, fb, 0, damage, ⟨0, none, none, none⟩, [], [], []⟩

/-- Modelled from the spec: `lima_job_get` returns the pending job, and creates one when the
previous job was flushed. -/
def limaJobGet (ctx : Context) : Context × Job :=
  match ctx.job with
  | some j => (ctx, j)
  | none =>
    let j := Job.fresh ctx.nextJobId ctx.framebuffer ctx.damageInit
    ({ ctx with job := some j, nextJobId := ctx.nextJobId + 1 }, j)

/-- Modelled from the spec: a job has a pending draw once a draw has packed its PLBU
commands into it. -/
def limaJobHasDrawPending (job : Job) : Bool := !job.plbuCmds.isEmpty

/-- Modelled from the spec: `lima_do_job` submits the pending job. -/
def limaDoJob (ctx : Context) : Context :=
  match ctx.job with
  | some j => { ctx with job := none, submitted := ctx.submitted ++ [j] }
  | none => ctx

/-- Modelled from the spec: binding another framebuffer ends the current job, so that a job
keeps one framebuffer for its life. -/
def limaSetFramebufferState (fb : Framebuffer) (ctx : Context) : Context :=
  { limaDoJob ctx with framebuffer := fb }

/-- The calls of one branch of `lima_update_job_wb` (`:345–361`), for an attachment whose
buffer object is `bo` when attached and whose clear bits are `mask`: flush the other jobs
using it, record the job in `write_jobs`, add it as a PP write. -/
def wbAttach (bo : Option Bo) (mask buffers resolve : BitVec 32) : List JobEvent :=
  match bo with
  | some b =>
    if buffers &&& mask ≠ 0 ∧ resolve &&& mask = 0 then
      [.flushAccessing b, .writeJob b, .addBo .pp b .write]
    else []
  | none => []

/-- `_mesa_hash_table_insert(ctx->write_jobs, res, job)` for each insertion in `events`. -/
def insertWriteJobs (id : Nat) : List JobEvent → List (Bo × Nat) → List (Bo × Nat)
  | [], ws => ws
  | .writeJob b :: es, ws => insertWriteJobs id es ((b, id) :: ws.filter (·.1 ≠ b))
  | _ :: es, ws => insertWriteJobs id es ws

/-- The colour attachment `lima_update_job_wb` tests: `cbufs[0]` when `nr_cbufs` is set. -/
def Framebuffer.colorBo (fb : Framebuffer) : Option Bo :=
  if fb.nrCbufs = 0 then none else some fb.cbufBo

/-- `lima_update_job_wb` (`:339–364`); `kind` names the operation making the call. -/
def limaUpdateJobWb (bits : ClearBits) (kind : OpKind) (buffers : BitVec 32) (ctx : Context) :
    Context :=
  let (ctx, job) := limaJobGet ctx
  let color := wbAttach ctx.framebuffer.colorBo bits.color0 buffers job.resolve
  let zs := wbAttach ctx.framebuffer.zsbufBo (bits.depth ||| bits.stencil) buffers job.resolve
  { ctx with
    job := some { job with
      resolve := job.resolve ||| buffers
      wb := job.wb ++ [⟨kind, buffers, color, zs⟩] }
    writeJobs := insertWriteJobs job.id zs (insertWriteJobs job.id color ctx.writeJobs) }

/-- A 16-bit field passed as an `unsigned` argument. -/
def u32 (x : BitVec 16) : BitVec 32 := x.setWidth 32

/-- `lima_damage_rect_union` (`:366–375`): `MIN2`/`MAX2` of each field with an `unsigned`
argument, stored back into the 16-bit field. -/
def limaDamageRectUnion (rect : ScissorState) (minx maxx miny maxy : BitVec 32) :
    ScissorState :=
  { minx := BitVec.ofNat 16 (min rect.minx.toNat minx.toNat)
    miny := BitVec.ofNat 16 (min rect.miny.toNat miny.toNat)
    maxx := BitVec.ofNat 16 (max rect.maxx.toNat maxx.toNat)
    maxy := BitVec.ofNat 16 (max rect.maxy.toNat maxy.toNat) }

/-- The clear record `lima_clear` fills in (`:400–428`): the caller's colour and depth are kept
as given, and a value whose buffer is not cleared keeps the old one. -/
def JobClear.update (bits : ClearBits) (buffers : BitVec 32) (color : List (BitVec 32))
    (depth : BitVec 64) (stencil : Nat) (old : JobClear) : JobClear :=
  { buffers := buffers
    color := if buffers &&& bits.color0 ≠ 0 then some color else old.color
    depth := if buffers &&& bits.depth ≠ 0 then some depth else old.depth
    stencil := if buffers &&& bits.stencil ≠ 0 then some stencil else old.stencil }

/-- `lima_clear` from `lima_update_job_wb` on (`:391–435`), once the job it lands in has no
pending draw. -/
def limaClearJob (bits : ClearBits) (buffers : BitVec 32) (color : List (BitVec 32))
    (depth : BitVec 64) (stencil : Nat) (ctx : Context) : Context :=
  let ctx := limaUpdateJobWb bits .clear buffers ctx
  let fb := ctx.framebuffer
  let (ctx, job) := limaJobGet ctx
  let zsReload :=
    if fb.zsbufBo.isSome ∧ buffers &&& bits.depth ≠ 0 then ctx.zsbufReload &&& ~~~bits.depth
    else ctx.zsbufReload
  { ctx with
    cbufReload := if fb.nrCbufs ≠ 0 ∧ buffers &&& bits.color0 ≠ 0 then
        ctx.cbufReload &&& ~~~bits.color0 else ctx.cbufReload
    zsbufReload := if fb.zsbufBo.isSome ∧ buffers &&& bits.stencil ≠ 0 then
        zsReload &&& ~~~bits.stencil else zsReload
    dirty := { ctx.dirty with clear := true }
    job := some { job with
      clear := job.clear.update bits buffers color depth stencil
      damageRect := limaDamageRectUnion job.damageRect 0 (u32 fb.width) 0 (u32 fb.height) } }

/-- `lima_clear` (`:377–435`): a job with a pending draw is flushed first, so that clears are
coalesced only ahead of the draws. -/
def limaClear (bits : ClearBits) (buffers : BitVec 32) (color : List (BitVec 32))
    (depth : BitVec 64) (stencil : Nat) (ctx : Context) : Context :=
  let (ctx, job) := limaJobGet ctx
  let ctx := if limaJobHasDrawPending job then limaDoJob ctx else ctx
  limaClearJob bits buffers color depth stencil ctx

/-! ### What `lima_job_get`, `lima_do_job` and `lima_update_job_wb` change -/

/-- `lima_job_get` changes only the pending job and the id counter. -/
@[simp] theorem limaJobGet_fst (ctx : Context) :
    (limaJobGet ctx).1 =
      { ctx with
        job := some (limaJobGet ctx).2
        nextJobId := ctx.nextJobId + (if ctx.job.isSome then 0 else 1) } := by
  cases ctx; unfold limaJobGet; split <;> simp_all

/-- The pending job, or a fresh one for the current framebuffer. -/
@[simp] theorem limaJobGet_snd (ctx : Context) :
    (limaJobGet ctx).2 = ctx.job.getD (Job.fresh ctx.nextJobId ctx.framebuffer ctx.damageInit) := by
  unfold limaJobGet; split <;> simp_all

/-- `lima_do_job` moves the pending job, if any, to the submitted ones. -/
@[simp] theorem limaDoJob_eq (ctx : Context) :
    limaDoJob ctx = { ctx with job := none, submitted := ctx.submitted ++ ctx.job.toList } := by
  cases ctx; unfold limaDoJob; split <;> simp_all

/-- `lima_update_job_wb` appends exactly one write-back record, of its kind and buffers, to the
job `lima_job_get` gives; each attachment is registered only if `resolve` did not yet hold it. -/
theorem limaUpdateJobWb_wb (bits : ClearBits) (kind : OpKind) (buffers : BitVec 32)
    (ctx : Context) :
    (limaUpdateJobWb bits kind buffers ctx).job.map Job.wb = some ((limaJobGet ctx).2.wb ++
      [⟨kind, buffers, wbAttach ctx.framebuffer.colorBo bits.color0 buffers (limaJobGet ctx).2.resolve,
        wbAttach ctx.framebuffer.zsbufBo (bits.depth ||| bits.stencil) buffers
          (limaJobGet ctx).2.resolve⟩]) := by
  simp only [limaUpdateJobWb, limaJobGet_fst, Option.map_some']

/-! ### Damage as a bounding box -/

/-- The bounding box of two rectangles. -/
def ScissorState.union (a b : ScissorState) : ScissorState :=
  ⟨BitVec.ofNat 16 (min a.minx.toNat b.minx.toNat), BitVec.ofNat 16 (min a.miny.toNat b.miny.toNat),
    BitVec.ofNat 16 (max a.maxx.toNat b.maxx.toNat), BitVec.ofNat 16 (max a.maxy.toNat b.maxy.toNat)⟩

/-- The call sites' argument order `(minx, maxx, miny, maxy)` makes the union a bounding box. -/
theorem limaDamageRectUnion_eq_union (rect r : ScissorState) :
    limaDamageRectUnion rect (u32 r.minx) (u32 r.maxx) (u32 r.miny) (u32 r.maxy) =
      rect.union r := by
  have h (x : BitVec 16) : (u32 x).toNat = x.toNat := by
    rw [u32, BitVec.toNat_setWidth, Nat.mod_eq_of_lt (by have := x.isLt; omega)]
  simp only [limaDamageRectUnion, ScissorState.union, h]

section Union

variable (a b : ScissorState)

/-! A union's fields never wrap: each is one of its arguments'. -/

end Union

end MesaSim.Lima
