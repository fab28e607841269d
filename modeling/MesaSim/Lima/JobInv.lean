import Mathlib.Data.List.Basic
import MesaSim.Lima.Draw

/-!
# What a job records

The invariant every job of a run keeps (`JobOk`): its clears come before its draws, its
`resolve` is the union of the masks registered with it, each attachment is registered once,
at the first operation whose mask names it, and its damage rectangle bounds what its
operations write. Each job-level operation below is what one function of
`brw_nir_lower_cs_intrinsics.c` does to its job; `JobOk` is preserved by each.
-/

namespace MesaSim.Lima

/-- The rectangle of a PLBU command's `PLBU_CMD_SCISSORS`. -/
def PlbuCmd.rect (c : PlbuCmd) : ScissorState :=
  ⟨c.scissorMinx, c.scissorMiny, c.scissorMaxx, c.scissorMaxy⟩

/-- The framebuffer rectangle `[0, width) × [0, height)` a clear writes. -/
def Framebuffer.rect (fb : Framebuffer) : ScissorState := ⟨0, 0, fb.width, fb.height⟩

/-- The rectangles a job's operations write: the framebuffer once per clear, then the scissor
of each draw. -/
def Job.writtenRects (J : Job) : List ScissorState :=
  (J.wb.filter (·.kind = .clear)).map (fun _ => J.key.rect) ++ J.plbuCmds.map PlbuCmd.rect

/-- Every clear comes before every draw. -/
def ClearsBeforeDraws (ks : List OpKind) : Prop :=
  ∃ n m, ks = List.replicate n .clear ++ List.replicate m .draw

/-- The calls expected of the `i`-th registration for an attachment `bo` with clear bits
`mask`: the hazard flush, the `write_jobs` insertion and the PP write, at the first
registration whose mask meets `mask`, and none at the others. -/
def firstAttach (bo : Option Bo) (mask : BitVec 32) (wb : List WbRecord) (i : Nat) :
    List JobEvent :=
  match bo with
  | some b =>
    if wb.findIdx? (fun r => r.buffers &&& mask != 0) = some i then
      [.flushAccessing b, .writeJob b, .addBo .pp b .write]
    else []
  | none => []

/-- The invariant of a job; `init` is the damage rectangle it was created with. -/
structure JobOk (bits : ClearBits) (init : ScissorState) (J : Job) : Prop where
  clears_first : ClearsBeforeDraws (J.wb.map (·.kind))
  draws_match : (J.wb.filter (·.kind = .draw)).length = J.plbuCmds.length
  resolve_eq : J.resolve = (J.wb.map (·.buffers)).foldl (· ||| ·) 0
  color_eq : ∀ i (h : i < J.wb.length),
    J.wb[i].color = firstAttach J.key.colorBo bits.color0 J.wb i
  zs_eq : ∀ i (h : i < J.wb.length),
    J.wb[i].zs = firstAttach J.key.zsbufBo (bits.depth ||| bits.stencil) J.wb i
  damage_eq : J.damageRect = J.writtenRects.foldl ScissorState.union init
  bos_read : ∀ e ∈ J.bos, ∃ p b, e = .addBo p b .read

/-- What `lima_update_job_wb` does to its job, whose framebuffer is the context's. -/
def Job.addWb (bits : ClearBits) (kind : OpKind) (buffers : BitVec 32) (J : Job) : Job :=
  { J with
    resolve := J.resolve ||| buffers
    wb := J.wb ++ [⟨kind, buffers, wbAttach J.key.colorBo bits.color0 buffers J.resolve,
      wbAttach J.key.zsbufBo (bits.depth ||| bits.stencil) buffers J.resolve⟩] }

/-- What `lima_pack_plbu_cmd` does to its job for the clipped scissor `c`. -/
def Job.packPlbu (c : ScissorState) (draw : DrawStartCount) (J : Job) : Job :=
  { J with
    plbuCmds := J.plbuCmds ++ [⟨c.minx, c.maxx, c.miny, c.maxy, draw⟩]
    damageRect := limaDamageRectUnion J.damageRect (u32 c.minx) (u32 c.maxx) (u32 c.miny)
      (u32 c.maxy) }

/-- What a draw reaching `lima_draw_vbo_update` does to its job: register the buffers it
writes, then pack its PLBU commands for the clipped scissor `c`. -/
def Job.draw (bits : ClearBits) (buffers : BitVec 32) (c : ScissorState) (d : DrawStartCount)
    (J : Job) : Job :=
  (J.addWb bits .draw buffers).packPlbu c d

/-- What `lima_clear` does to the job it lands in, besides its clear record: register the
cleared buffers and union the framebuffer rectangle into the damage. -/
def Job.clearRegion (bits : ClearBits) (buffers : BitVec 32) (J : Job) : Job :=
  { J.addWb bits .clear buffers with
    damageRect := limaDamageRectUnion J.damageRect 0 (u32 J.key.width) 0 (u32 J.key.height) }

/-! ### Masks and first registrations -/

theorem or_and_eq_zero {w : Nat} (a b m : BitVec w) :
    (a ||| b) &&& m = 0 ↔ a &&& m = 0 ∧ b &&& m = 0 := by
  constructor
  · intro h
    constructor <;>
    · ext i
      have := congrArg (·.getLsbD i) h
      simp only [BitVec.getLsbD_and, BitVec.getLsbD_or, BitVec.getLsbD_zero] at this ⊢
      revert this
      cases a.getLsbD i <;> cases b.getLsbD i <;> cases m.getLsbD i <;> simp
  · rintro ⟨h1, h2⟩
    ext i
    have e1 := congrArg (·.getLsbD i) h1
    have e2 := congrArg (·.getLsbD i) h2
    simp only [BitVec.getLsbD_and, BitVec.getLsbD_or, BitVec.getLsbD_zero] at e1 e2 ⊢
    revert e1 e2
    cases a.getLsbD i <;> cases b.getLsbD i <;> cases m.getLsbD i <;> simp

/-- The union of masks misses `m` exactly when each of them does. -/
theorem foldl_or_and_eq_zero {w : Nat} (l : List (BitVec w)) (a m : BitVec w) :
    l.foldl (· ||| ·) a &&& m = 0 ↔ a &&& m = 0 ∧ ∀ x ∈ l, x &&& m = 0 := by
  induction l generalizing a with
  | nil => simp
  | cons x l ih => simp only [List.foldl_cons, ih, or_and_eq_zero, List.mem_cons,
      forall_eq_or_imp, and_assoc]

private theorem findIdx?_append_single_lt {wb : List WbRecord} {r : WbRecord} {p : WbRecord → Bool}
    {i : Nat} (hi : i < wb.length) : (wb ++ [r]).findIdx? p = some i ↔ wb.findIdx? p = some i := by
  rw [List.findIdx?_append]
  cases h : wb.findIdx? p with
  | some k => simp
  | none =>
    simp only [Option.none_or, List.findIdx?_cons, List.findIdx?_nil]
    split <;> simp; omega

/-- An earlier registration's expected calls do not change when one is appended. -/
theorem firstAttach_append_lt {bo : Option Bo} {mask : BitVec 32} {wb : List WbRecord}
    {r : WbRecord} {i : Nat} (hi : i < wb.length) :
    firstAttach bo mask (wb ++ [r]) i = firstAttach bo mask wb i := by
  cases bo <;> simp only [firstAttach, findIdx?_append_single_lt hi]

/-- The appended registration makes the expected calls, given the union of the earlier ones. -/
theorem wbAttach_eq_firstAttach (bo : Option Bo) (mask : BitVec 32) (wb : List WbRecord)
    (r : WbRecord) :
    wbAttach bo mask r.buffers ((wb.map (·.buffers)).foldl (· ||| ·) 0) =
      firstAttach bo mask (wb ++ [r]) wb.length := by
  have key : (wb.map (·.buffers)).foldl (· ||| ·) 0 &&& mask = 0 ↔
      ∀ x ∈ wb, x.buffers &&& mask = 0 := by
    rw [foldl_or_and_eq_zero]; simp
  cases bo with
  | none => rfl
  | some b =>
    simp only [wbAttach, firstAttach, key, List.findIdx?_append, List.findIdx?_cons,
      List.findIdx?_nil]
    cases h : wb.findIdx? (fun r => r.buffers &&& mask != 0) with
    | some k =>
      obtain ⟨hk, hp, -⟩ := List.findIdx?_eq_some_iff_getElem.mp h
      have hne : wb[k].buffers &&& mask ≠ 0 := by simpa using hp
      simp only [Option.or_some, Option.some.injEq]
      rw [if_neg (fun ⟨_, h⟩ => hne (h _ (List.getElem_mem _))), if_neg (by omega)]
    | none =>
      have hall : ∀ x ∈ wb, x.buffers &&& mask = 0 := fun x hx => by
        simpa using List.findIdx?_eq_none_iff.mp h x hx
      by_cases hb : r.buffers &&& mask = 0
      · simp [hb]
      · have hne : (r.buffers &&& mask != 0) = true := by simpa using hb
        rw [if_pos ⟨hb, hall⟩]
        simp only [hne, if_true, Option.map_some', Nat.zero_add, Option.none_or]

/-! ### Each operation keeps the invariant of its job -/

theorem ClearsBeforeDraws.append_draw {ks : List OpKind} (h : ClearsBeforeDraws ks) :
    ClearsBeforeDraws (ks ++ [.draw]) := by
  obtain ⟨n, m, rfl⟩ := h
  exact ⟨n, m + 1, by simp [List.replicate_succ']⟩

/-- A clear may follow only clears. -/
theorem ClearsBeforeDraws.append_clear {ks : List OpKind} (h : ClearsBeforeDraws ks)
    (hd : OpKind.draw ∉ ks) : ClearsBeforeDraws (ks ++ [.clear]) := by
  obtain ⟨n, m, rfl⟩ := h
  cases m with
  | zero => exact ⟨n + 1, 0, by simp [List.replicate_succ']⟩
  | succ m => simp at hd

section JobLevel

variable {bits : ClearBits} {init : ScissorState} {J : Job}

/-- A new job records nothing and keeps its initial damage. -/
theorem JobOk.fresh (bits : ClearBits) (id : Nat) (fb : Framebuffer) (init : ScissorState) :
    JobOk bits init (Job.fresh id fb init) where
  clears_first := ⟨0, 0, rfl⟩
  draws_match := rfl
  resolve_eq := rfl
  color_eq := fun _ h => absurd h (Nat.not_lt_zero _)
  zs_eq := fun _ h => absurd h (Nat.not_lt_zero _)
  damage_eq := rfl
  bos_read := fun _ h => absurd h (List.not_mem_nil _)

private theorem attach_append {sel : WbRecord → List JobEvent} {bo : Option Bo}
    {mask : BitVec 32} {wb : List WbRecord} {r : WbRecord}
    (hwb : ∀ i (h : i < wb.length), sel wb[i] = firstAttach bo mask wb i)
    (hr : sel r = wbAttach bo mask r.buffers ((wb.map (·.buffers)).foldl (· ||| ·) 0)) :
    ∀ i (h : i < (wb ++ [r]).length), sel (wb ++ [r])[i] = firstAttach bo mask (wb ++ [r]) i := by
  intro i h
  rw [List.length_append, List.length_singleton] at h
  rcases Nat.lt_succ_iff_lt_or_eq.mp h with hi | rfl
  · rw [List.getElem_append_left hi, firstAttach_append_lt hi, hwb i hi]
  · rw [List.getElem_concat_length _ _ _ rfl, hr, wbAttach_eq_firstAttach]

theorem JobOk.addWb_resolve (h : JobOk bits init J) (k : OpKind) (b : BitVec 32) :
    (J.addWb bits k b).resolve = ((J.addWb bits k b).wb.map (·.buffers)).foldl (· ||| ·) 0 := by
  simp [Job.addWb, h.resolve_eq]

theorem JobOk.addWb_color (h : JobOk bits init J) (k : OpKind) (b : BitVec 32) :
    ∀ i (hi : i < (J.addWb bits k b).wb.length), (J.addWb bits k b).wb[i].color =
      firstAttach J.key.colorBo bits.color0 (J.addWb bits k b).wb i :=
  attach_append h.color_eq (by rw [← h.resolve_eq])

theorem JobOk.addWb_zs (h : JobOk bits init J) (k : OpKind) (b : BitVec 32) :
    ∀ i (hi : i < (J.addWb bits k b).wb.length), (J.addWb bits k b).wb[i].zs =
      firstAttach J.key.zsbufBo (bits.depth ||| bits.stencil) (J.addWb bits k b).wb i :=
  attach_append h.zs_eq (by rw [← h.resolve_eq])

theorem writtenRects_draw (buffers : BitVec 32) (c : ScissorState) (d : DrawStartCount) :
    (J.draw bits buffers c d).writtenRects = J.writtenRects ++ [c] := by
  simp [Job.draw, Job.packPlbu, Job.addWb, Job.writtenRects, PlbuCmd.rect]

theorem writtenRects_clearRegion (hd : J.plbuCmds = []) (buffers : BitVec 32) :
    (J.clearRegion bits buffers).writtenRects = J.writtenRects ++ [J.key.rect] := by
  simp [Job.clearRegion, Job.addWb, Job.writtenRects, hd]

/-- A draw keeps the invariant of its job. -/
theorem JobOk.draw (h : JobOk bits init J) (buffers : BitVec 32) (c : ScissorState)
    (d : DrawStartCount) : JobOk bits init (J.draw bits buffers c d) where
  clears_first := by
    simpa [Job.draw, Job.packPlbu, Job.addWb] using h.clears_first.append_draw
  draws_match := by simp [Job.draw, Job.packPlbu, Job.addWb, h.draws_match]
  resolve_eq := h.addWb_resolve .draw buffers
  color_eq := h.addWb_color .draw buffers
  zs_eq := h.addWb_zs .draw buffers
  damage_eq := by
    simp only [writtenRects_draw, List.foldl_append, ← h.damage_eq, List.foldl_cons,
      List.foldl_nil]
    exact limaDamageRectUnion_eq_union J.damageRect c
  bos_read := h.bos_read

/-- A clear keeps the invariant of a job with no draw. -/
theorem JobOk.clearRegion (h : JobOk bits init J) (hd : J.plbuCmds = []) (buffers : BitVec 32) :
    JobOk bits init (J.clearRegion bits buffers) where
  clears_first := by
    have hnd : OpKind.draw ∉ J.wb.map (·.kind) := by
      have := h.draws_match
      rw [hd, List.length_nil, List.length_eq_zero, List.filter_eq_nil_iff] at this
      simpa using this
    simpa [Job.clearRegion, Job.addWb] using h.clears_first.append_clear hnd
  draws_match := by simp [Job.clearRegion, Job.addWb, h.draws_match]
  resolve_eq := h.addWb_resolve .clear buffers
  color_eq := h.addWb_color .clear buffers
  zs_eq := h.addWb_zs .clear buffers
  damage_eq := by
    simp only [writtenRects_clearRegion hd, List.foldl_append, ← h.damage_eq, List.foldl_cons,
      List.foldl_nil]
    exact limaDamageRectUnion_eq_union J.damageRect J.key.rect
  bos_read := h.bos_read

/-- The clear record plays no part in the invariant. -/
theorem JobOk.withClear (h : JobOk bits init J) (cl : JobClear) :
    JobOk bits init { J with clear := cl } :=
  ⟨h.1, h.2, h.3, h.4, h.5, h.6, h.7⟩

/-- Shader and index buffers are added as reads. -/
theorem JobOk.addReads (h : JobOk bits init J) (reads : List (Pipe × Bo)) :
    JobOk bits init { J with bos := J.bos ++ reads.map fun r => .addBo r.1 r.2 .read } := by
  refine ⟨h.1, h.2, h.3, h.4, h.5, h.6, ?_⟩
  simp only [List.mem_append, List.mem_map]
  rintro e (he | ⟨r, -, rfl⟩)
  · exact h.bos_read e he
  · exact ⟨r.1, r.2, rfl⟩

end JobLevel

end MesaSim.Lima
