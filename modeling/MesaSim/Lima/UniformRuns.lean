import MesaSim.Lima.Draw

/-!
# Uniform uploads along runs

`lima_draw_vbo_update` rebuilds the gp and pp uniform buffers only when the dirty flags say
their inputs changed (`brw_nir_lower_cs_intrinsics.c:1271–1287`) and clears every flag when it
ends (`:1299`). With setters that flag what they change, `UniformInv` holds after every call,
including draws `lima_draw_vbo` returns from early and draws `lima_draw_vbo_count` splits, so
no draw of a run uses a stale upload.
-/

namespace MesaSim.Lima

/-- What one `lima_draw_vbo_update` call used is what the upload functions build from the state
it drew with. -/
def DrawSnapshot.Fresh (floatToHalf : BitVec 32 → BitVec 16) (s : DrawSnapshot) : Prop :=
  s.gpUniform = some (limaUpdateGpUniform s.vertexCb s.viewport s.vs) ∧
    (s.fragmentCb.buffer.isSome → s.ppUniform = limaUpdatePpUniform floatToHalf s.fragmentCb)

/-- The uniform invariant, and every draw logged after `log` fresh. -/
def FreshSince (floatToHalf : BitVec 32 → BitVec 16) (log : List DrawSnapshot) (ctx : Context) :
    Prop :=
  UniformInv floatToHalf ctx ∧ ∃ new, ctx.drawLog = log ++ new ∧ ∀ s ∈ new, s.Fresh floatToHalf

section Steps

variable {floatToHalf : BitVec 32 → BitVec 16} {log : List DrawSnapshot} {ctx : Context}

theorem FreshSince.setConstantBuffer (h : FreshSince floatToHalf log ctx) (stage : ShaderStage)
    (cb : Option (List (BitVec 8) × Nat)) :
    FreshSince floatToHalf log (limaSetConstantBuffer stage cb ctx) := by
  obtain ⟨⟨hg, hp⟩, hl⟩ := h
  cases stage
  · exact ⟨⟨Or.inr (Or.inl ⟨rfl, rfl⟩), hp.imp id fun hp => ⟨rfl, hp.2⟩⟩, hl⟩
  · exact ⟨⟨hg.imp id (Or.imp (fun hg => ⟨rfl, hg.2⟩) id), Or.inr ⟨rfl, rfl⟩⟩, hl⟩

theorem FreshSince.setViewport (h : FreshSince floatToHalf log ctx) (vp : Viewport) :
    FreshSince floatToHalf log (limaSetViewport vp ctx) :=
  ⟨⟨Or.inr (Or.inr (Or.inl rfl)), h.1.2⟩, h.2⟩

theorem FreshSince.updateVs (h : FreshSince floatToHalf log ctx) (v : Option VsShaderState) :
    FreshSince floatToHalf log (limaUpdateVsState v ctx) := by
  unfold limaUpdateVsState
  split
  · split
    · exact h
    · exact ⟨⟨Or.inr (Or.inr (Or.inr rfl)), h.1.2⟩, h.2⟩
  · exact h

theorem FreshSince.jobGet (h : FreshSince floatToHalf log ctx) :
    FreshSince floatToHalf log (limaJobGet ctx).1 := by
  rw [limaJobGet_fst]; exact h

theorem FreshSince.doJob (h : FreshSince floatToHalf log ctx) :
    FreshSince floatToHalf log (limaDoJob ctx) := by
  rw [limaDoJob_eq]; exact h

theorem FreshSince.clearJob (h : FreshSince floatToHalf log ctx) (bits : ClearBits)
    (buffers : BitVec 32) (color : List (BitVec 32)) (depth : BitVec 64) (stencil : Nat) :
    FreshSince floatToHalf log (limaClearJob bits buffers color depth stencil ctx) := by
  simp only [limaClearJob, limaUpdateJobWb, limaJobGet_fst]; exact h

/-- The job bookkeeping of a clear leaves the uniform state and the draw log alone. -/
theorem FreshSince.clear (h : FreshSince floatToHalf log ctx) (bits : ClearBits)
    (buffers : BitVec 32) (color : List (BitVec 32)) (depth : BitVec 64) (stencil : Nat) :
    FreshSince floatToHalf log (limaClear bits buffers color depth stencil ctx) := by
  simp only [limaClear]
  split_ifs
  · exact h.jobGet.doJob.clearJob _ _ _ _ _
  · exact h.jobGet.clearJob _ _ _ _ _

theorem FreshSince.addReads (h : FreshSince floatToHalf log ctx) (reads : List (Pipe × Bo)) :
    FreshSince floatToHalf log (limaJobAddReads reads ctx) := by
  simp only [limaJobAddReads, limaJobGet_fst]
  exact h

/-- After `lima_draw_vbo_update` both uploads are fresh, and so is the draw it logged. -/
theorem FreshSince.drawVboUpdate {g : Gallium} (h : FreshSince g.floatToHalf log ctx)
    (d : DrawStartCount) : FreshSince g.floatToHalf log (limaDrawVboUpdate g d ctx) := by
  obtain ⟨hu, new, hlog, hnew⟩ := h
  have hu₁ : UniformInv g.floatToHalf (limaUpdateJobWb g.bits .draw (drawBuffers g.bits ctx) ctx) :=
    by simp only [limaUpdateJobWb, limaJobGet_fst]; exact hu
  obtain ⟨hg, hp⟩ := ppUniformStep_fresh (gpUniformStep_fresh hu₁).1 (gpUniformStep_fresh hu₁).2
  -- the uploads the draw leaves, and logs, are the ones its two steps built
  have hfresh : GpFresh (limaDrawVboUpdate g d ctx) ∧
      PpFresh g.floatToHalf (limaDrawVboUpdate g d ctx) := by
    simp only [limaDrawVboUpdate, limaPackPlbuCmd, limaJobGet_fst]; exact ⟨hg, hp⟩
  refine ⟨⟨.inl hfresh.1, .inl hfresh.2⟩, new ++ [_],
    by rw [limaDrawVboUpdate_drawLog, hlog, List.append_assoc], ?_⟩
  simp only [List.mem_append, List.mem_singleton]
  rintro s (hs | rfl)
  · exact hnew s hs
  · exact hfresh

/-- Every call keeps the invariant and logs only fresh draws. -/
theorem FreshSince.step {g : Gallium} (h : FreshSince g.floatToHalf log ctx) (op : Op) :
    FreshSince g.floatToHalf log (limaStep g ctx op) := by
  cases op with
  | setConstantBuffer stage cb => exact h.setConstantBuffer stage cb
  | setViewport vp => exact h.setViewport vp
  | clear buffers color depth stencil => exact h.clear g.bits buffers color depth stencil
  | draw d =>
    exact limaDrawVbo_preserves g (FreshSince g.floatToHalf log) (fun _ _ h => h)
      (fun _ v h => h.updateVs v) (fun _ rs h => h.addReads rs) (fun d _ h => h.drawVboUpdate d)
      d ctx h
  | setFramebuffer fb =>
    simp only [limaStep, limaSetFramebufferState, limaDoJob_eq]; exact h
  | flush => simp only [limaStep, limaDoJob_eq]; exact h
  | _ => exact h

end Steps

end MesaSim.Lima
