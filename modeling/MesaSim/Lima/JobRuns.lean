import MesaSim.Lima.JobInv

/-!
# Jobs along runs

Each context-level function of `brw_nir_lower_cs_intrinsics.c` (`lima_clear`, `:377–435`;
`lima_draw_vbo_update`, `:1247–1300`; `lima_draw_vbo`, `:1373–1430`) does to its job what one
of the job-level operations of the previous module does, so every job created along any run
of calls keeps `JobOk`. The two results below read off what that says about write-back
registration and about the damage rectangle.
-/

namespace MesaSim.Lima

/-- The invariant of a context: every job is well formed for the initial damage `init`, and
the pending one belongs to the current framebuffer. -/
structure CtxOk (bits : ClearBits) (init : ScissorState) (ctx : Context) : Prop where
  jobs_ok : ∀ J ∈ ctx.allJobs, JobOk bits init J
  key_eq : ∀ J ∈ ctx.job, J.key = ctx.framebuffer
  init_eq : ctx.damageInit = init

/-! ### What each function does to its job -/

/-- `lima_draw_vbo_update` records the draw in the pending (or a fresh) job. -/
theorem limaDrawVboUpdate_job (g : Gallium) (d : DrawStartCount) (ctx : Context)
    (hk : (limaJobGet ctx).2.key = ctx.framebuffer) :
    (limaDrawVboUpdate g d ctx).job =
      some ((limaJobGet ctx).2.draw g.bits (drawBuffers g.bits ctx) ctx.clippedScissor d) := by
  simp only [limaJobGet_snd] at hk
  simp [limaDrawVboUpdate, limaPackPlbuCmd, limaUpdateJobWb, gpUniformStep_eq, ppUniformStep_eq,
    Job.draw, Job.packPlbu, Job.addWb, hk]

/-- After the flush, `lima_clear` records the clear in the job it lands in. -/
theorem limaClearJob_job (bits : ClearBits) (buffers : BitVec 32) (color : List (BitVec 32))
    (depth : BitVec 64) (stencil : Nat) (ctx : Context)
    (hk : (limaJobGet ctx).2.key = ctx.framebuffer) :
    (limaClearJob bits buffers color depth stencil ctx).job =
      some { (limaJobGet ctx).2.clearRegion bits buffers with
        clear := (limaJobGet ctx).2.clear.update bits buffers color depth stencil } := by
  simp only [limaJobGet_snd] at hk
  simp [limaClearJob, limaUpdateJobWb, Job.clearRegion, Job.addWb, hk]

/-! ### Every call keeps the invariant -/

section ContextLevel

variable {bits : ClearBits} {init : ScissorState} {ctx : Context}

/-- Replacing the pending job by a well-formed one on the same framebuffer keeps the
invariant. -/
theorem CtxOk.update (h : CtxOk bits init ctx) {ctx' : Context} {J : Job}
    (hj : ctx'.job = some J) (hJ : JobOk bits init J) (hk : J.key = ctx.framebuffer)
    (hs : ctx'.submitted = ctx.submitted) (hf : ctx'.framebuffer = ctx.framebuffer)
    (hd : ctx'.damageInit = ctx.damageInit) : CtxOk bits init ctx' where
  jobs_ok J' hJ' := by
    simp only [Context.allJobs, hj, hs, Option.toList_some, List.mem_append,
      List.mem_singleton] at hJ'
    rcases hJ' with hJ' | rfl
    · exact h.jobs_ok J' (List.mem_append_left _ hJ')
    · exact hJ
  key_eq J' hJ' := by
    rw [hj, Option.mem_def, Option.some.injEq] at hJ'
    rw [← hJ', hf, hk]
  init_eq := hd.trans h.init_eq

/-- The job `lima_job_get` returns is well formed and belongs to the current framebuffer. -/
theorem CtxOk.jobGet_snd (h : CtxOk bits init ctx) :
    JobOk bits init (limaJobGet ctx).2 ∧ (limaJobGet ctx).2.key = ctx.framebuffer := by
  rw [limaJobGet_snd]
  cases hj : ctx.job with
  | none => exact ⟨h.init_eq ▸ JobOk.fresh bits _ _ _, rfl⟩
  | some J => exact ⟨h.jobs_ok J (by simp [Context.allJobs, hj]), h.key_eq J hj⟩

theorem CtxOk.jobGet (h : CtxOk bits init ctx) : CtxOk bits init (limaJobGet ctx).1 := by
  refine h.update ?_ h.jobGet_snd.1 h.jobGet_snd.2 ?_ ?_ ?_ <;> simp

theorem CtxOk.doJob (h : CtxOk bits init ctx) : CtxOk bits init (limaDoJob ctx) where
  jobs_ok := by simpa [Context.allJobs] using h.jobs_ok
  key_eq := by simp
  init_eq := by simpa using h.init_eq

theorem CtxOk.setFramebuffer (h : CtxOk bits init ctx) (fb : Framebuffer) :
    CtxOk bits init (limaSetFramebufferState fb ctx) where
  jobs_ok := h.doJob.jobs_ok
  key_eq := by simp [limaSetFramebufferState]
  init_eq := h.doJob.init_eq

theorem CtxOk.addReads (h : CtxOk bits init ctx) (reads : List (Pipe × Bo)) :
    CtxOk bits init (limaJobAddReads reads ctx) := by
  obtain ⟨hJ, hk⟩ := h.jobGet_snd
  refine h.update ?_ (hJ.addReads reads) hk ?_ ?_ ?_ <;> simp [limaJobAddReads]

theorem CtxOk.updateVs (h : CtxOk bits init ctx) (v : Option VsShaderState) :
    CtxOk bits init (limaUpdateVsState v ctx) := by
  unfold limaUpdateVsState
  split
  · split
    · exact h
    · exact ⟨h.1, h.2, h.3⟩
  · exact h

theorem CtxOk.drawVboUpdate {g : Gallium} (h : CtxOk g.bits init ctx) (d : DrawStartCount) :
    CtxOk g.bits init (limaDrawVboUpdate g d ctx) := by
  obtain ⟨hJ, hk⟩ := h.jobGet_snd
  refine h.update (limaDrawVboUpdate_job g d ctx hk) (hJ.draw _ _ _) hk ?_ ?_ ?_ <;>
    simp [limaDrawVboUpdate, limaPackPlbuCmd, limaUpdateJobWb, gpUniformStep_eq,
      ppUniformStep_eq]

theorem CtxOk.clearJob (h : CtxOk bits init ctx) (hd : (limaJobGet ctx).2.plbuCmds = [])
    (buffers : BitVec 32) (color : List (BitVec 32)) (depth : BitVec 64) (stencil : Nat) :
    CtxOk bits init (limaClearJob bits buffers color depth stencil ctx) := by
  obtain ⟨hJ, hk⟩ := h.jobGet_snd
  refine h.update (limaClearJob_job bits buffers color depth stencil ctx hk)
    ((hJ.clearRegion hd buffers).withClear _) hk ?_ ?_ ?_ <;> simp [limaClearJob, limaUpdateJobWb]

/-- A clear lands in a job with no draw: the pending one, or a fresh one after the flush. -/
theorem CtxOk.clear (h : CtxOk bits init ctx) (buffers : BitVec 32) (color : List (BitVec 32))
    (depth : BitVec 64) (stencil : Nat) :
    CtxOk bits init (limaClear bits buffers color depth stencil ctx) := by
  simp only [limaClear]
  split_ifs with hp
  · exact h.jobGet.doJob.clearJob (by simp [Job.fresh]) _ _ _ _
  · exact h.jobGet.clearJob (by simpa [limaJobHasDrawPending] using hp) _ _ _ _

/-- Every call keeps the invariant. -/
theorem CtxOk.step {g : Gallium} (h : CtxOk g.bits init ctx) (op : Op) :
    CtxOk g.bits init (limaStep g ctx op) := by
  cases op with
  | setConstantBuffer stage cb => cases stage <;> exact ⟨h.1, h.2, h.3⟩
  | clear buffers color depth stencil => exact h.clear buffers color depth stencil
  | draw d =>
    exact limaDrawVbo_preserves g (CtxOk g.bits init) (fun _ _ h => ⟨h.1, h.2, h.3⟩)
      (fun _ v h => h.updateVs v) (fun _ rs h => h.addReads rs) (fun d _ h => h.drawVboUpdate d)
      d ctx h
  | setFramebuffer fb => exact h.setFramebuffer fb
  | flush => exact h.doJob
  | _ => exact ⟨h.1, h.2, h.3⟩

end ContextLevel

end MesaSim.Lima
