import MesaSim.Rt.Code
import MesaSim.Nir.Defer

/-!
# The ray-tracing walk as a recorded walk

The body of the walk of `lower_rt_intrinsics_impl` (`brw_nir_lower_rt_intrinsics.c:94–377`) by
the branch of its `switch` an instruction takes, and the obligations of `MesaSim.Nir.Defer` for
it: renaming an instruction's sources renames what the body keeps and inserts, a rewrite replaces
the instruction's own value, everywhere, by a new value or one of the preamble's, and the walk's
stack offset and base address stay such values. The one source the inserted code reads is the
offset of a `load_uniform` that is not a constant, which the rewrites so far may have renamed; its
recorded form looks the constant up at the renamed value.
-/

namespace MesaSim.Rt
open MesaSim.Nir

/-! ### The branches of the walk -/

/-- The branch of the `switch` of the walk (`:102–370`) an instruction takes, with what the
branch reads of it. -/
inductive RtBranch
  | keep
  | stackPush (range : BitVec 32)
  | resume (range : BitVec 32)
  | scratchBasePtr (d : Def)
  | uniform (d : Def) (src : Nat) (ix : Indices)
  | sysval (op : IntrinsicOp) (d : Def) (ix : Indices)

/-- The branch an instruction takes: an intrinsic's case, and whether it has the destination and
source the case reads. -/
def rtBranch (stage : Stage) : Instr → RtBranch
  | .intrinsic op dest srcs ix =>
    match rtCase op, dest, srcs with
    | .stackPush, _, _ => .stackPush ix.range
    | .resume, _, _ => .resume ix.range
    | .scratchBasePtr, some d, _ => .scratchBasePtr d
    | .uniform, some d, src :: _ => if stage = .compute then .keep else .uniform d src ix
    | .sysval, some d, _ => .sysval op d ix
    | _, _, _ => .keep
  | _ => .keep

/-- The branch of an instruction whose sources are renamed by `f`. -/
def RtBranch.mapSrc (f : Nat → Nat) : RtBranch → RtBranch
  | .keep => .keep
  | .stackPush range => .stackPush range
  | .resume range => .resume range
  | .scratchBasePtr d => .scratchBasePtr d
  | .uniform d src ix => .uniform d (f src) ix
  | .sysval op d ix => .sysval op d ix

theorem rtBranch_mapSrcs (stage : Stage) (f : Nat → Nat) (i : Instr) :
    rtBranch stage (i.mapSrcs f) = (rtBranch stage i).mapSrc f := by
  cases i with
  | intrinsic op dest srcs ix =>
    cases hc : rtCase op <;> rcases dest with _ | d <;> rcases srcs with _ | ⟨src, srcs⟩ <;>
      simp only [Instr.mapSrcs, rtBranch, List.map, hc] <;> try rfl
    split <;> rfl
  | _ => rfl

/-- What an instruction is, given the branch it takes. -/
inductive RtBranchOf (stage : Stage) : Instr → RtBranch → Prop
  | notIntrinsic {i : Instr} : i.intrinsic? = none → RtBranchOf stage i .keep
  /-- A case that needs a destination, without one. -/
  | noDest {op srcs ix} : rtCase op ≠ .stackPush → rtCase op ≠ .resume →
      RtBranchOf stage (.intrinsic op none srcs ix) .keep
  /-- A `load_uniform` without its offset source. -/
  | noSrc {op d ix} : rtCase op = .uniform → RtBranchOf stage (.intrinsic op (some d) [] ix) .keep
  /-- A `load_uniform` of the compute-stage trampoline. -/
  | trampoline {op d src srcs ix} : rtCase op = .uniform → stage = .compute →
      RtBranchOf stage (.intrinsic op (some d) (src :: srcs) ix) .keep
  | stackPush {op dest srcs ix} : rtCase op = .stackPush →
      RtBranchOf stage (.intrinsic op dest srcs ix) (.stackPush ix.range)
  | resume {op dest srcs ix} : rtCase op = .resume →
      RtBranchOf stage (.intrinsic op dest srcs ix) (.resume ix.range)
  | scratchBasePtr {op d srcs ix} : rtCase op = .scratchBasePtr →
      RtBranchOf stage (.intrinsic op (some d) srcs ix) (.scratchBasePtr d)
  | uniform {op d src srcs ix} : rtCase op = .uniform → stage ≠ .compute →
      RtBranchOf stage (.intrinsic op (some d) (src :: srcs) ix) (.uniform d src ix)
  | sysval {op d srcs ix} : rtCase op = .sysval →
      RtBranchOf stage (.intrinsic op (some d) srcs ix) (.sysval op d ix)

theorem rtBranchOf (stage : Stage) (i : Instr) : RtBranchOf stage i (rtBranch stage i) := by
  cases i with
  | intrinsic op dest srcs ix =>
    cases hc : rtCase op <;> rcases dest with _ | d <;> rcases srcs with _ | ⟨src, srcs⟩ <;>
      simp only [rtBranch, hc]
    all_goals first
      | exact .stackPush hc | exact .resume hc | exact .noSrc hc | exact .scratchBasePtr hc
      | exact .sysval hc | exact .noDest (by rw [hc]; decide) (by rw [hc]; decide)
      | (split
         · exact .trampoline hc ‹_›
         · exact .uniform hc ‹_›)
  | _ => exact .notIntrinsic rfl

/-- The decision at a system value: replaced by it, or kept where it stays NULL. -/
def sysvalVisit (i : Instr) (d : Def) : Option Def → Visit
  | some v => replaced d v
  | none => ⟨some i, none⟩

/-- The walk body, branch by branch. -/
def rtVisit (E : RtEnv) (stage : Stage) (P : RtPreamble) (srcConst : Nat → Option Nat) (i : Instr)
    (st : RtState) : RtBranch → BuildM (Visit × RtState)
  | .keep => pure (⟨some i, none⟩, st)
  | .stackPush range => (fun _ => (⟨none, none⟩, st)) <$> stackPush P st range
  | .resume range => (fun st' => (⟨none, none⟩, st')) <$> resume P st range
  | .scratchBasePtr d => pure (replaced d st.stackBaseAddr, st)
  | .uniform d src ix => (fun v => (replaced d v, st)) <$> lowerLoadUniform E d src (srcConst src) ix
  | .sysval op d ix => (fun v? => (sysvalVisit i d v?, st)) <$> rtSysval E stage P op ix

/-- The walk body is `rtVisit` at the instruction's branch. -/
theorem lowerRtIntrinsicsInstr_eq (E : RtEnv) (stage : Stage) (P : RtPreamble)
    (srcConst : Nat → Option Nat) (i : Instr) (st : RtState) :
    lowerRtIntrinsicsInstr E stage P srcConst i st = rtVisit E stage P srcConst i st (rtBranch stage i) := by
  cases i with
  | intrinsic op dest srcs ix =>
    cases hc : rtCase op <;> rcases dest with _ | d <;> rcases srcs with _ | ⟨src, srcs⟩ <;>
      simp only [lowerRtIntrinsicsInstr, rtBranch, hc] <;> try rfl
    all_goals first
      | (split <;> rfl)
      | (funext b; simp only [rtVisit, bind, StateT.bind, Functor.map, StateT.map]; split
         rename_i v _ _; cases v <;> rfl)
  | _ => rfl

section Apply

variable (E : RtEnv) (stage : Stage) (P : RtPreamble) (c : Nat → Option Nat) (i : Instr) (st : RtState)
  (b : Builder)

theorem rtVisit_stackPush_apply (range : BitVec 32) :
    rtVisit E stage P c i st (.stackPush range) b = ((⟨none, none⟩, st), (stackPush P st range b).2) := rfl

theorem rtVisit_resume_apply (range : BitVec 32) :
    rtVisit E stage P c i st (.resume range) b =
      ((⟨none, none⟩, (resume P st range b).1), (resume P st range b).2) := rfl

theorem rtVisit_uniform_apply (d : Def) (src : Nat) (ix : Indices) :
    rtVisit E stage P c i st (.uniform d src ix) b =
      ((replaced d (lowerLoadUniform E d src (c src) ix b).1, st), (lowerLoadUniform E d src (c src) ix b).2) :=
  rfl

theorem rtVisit_sysval_apply (op : IntrinsicOp) (d : Def) (ix : Indices) :
    rtVisit E stage P c i st (.sysval op d ix) b =
      ((sysvalVisit i d (rtSysval E stage P op ix b).1, st), (rtSysval E stage P op ix b).2) := rfl

end Apply

/-! ### Renaming sources -/

/-- A run of the walk body with the instruction it keeps and the code it inserts renamed. -/
def renamedRun (f : Nat → Nat) (r : (Visit × RtState) × Builder) : (Visit × RtState) × Builder :=
  ((r.1.1.mapSrcs f, r.1.2), ⟨r.2.ssaAlloc, r.2.emitted.map (·.mapSrcs f)⟩)

section Rename

variable {E : RtEnv} {stage : Stage} {P : RtPreamble} {R : Nat → Prop} {n : Nat} {st : RtState}
  {f : Nat → Nat}

/-- Renaming the sources of the visited instruction renames what the body keeps and inserts,
when the renaming leaves alone every value of `R`, which holds of the preamble's values, of the
walk's and of those allocated from the cursor on; the constant of a source is looked up at the
renamed value. -/
theorem lowerRtIntrinsicsInstr_rename (hE : E.Ok) (hP : ∀ v ∈ P.defs, R v.index) (hs : st.Avail R)
    (hn : ∀ x, n ≤ x → R x) (hf : ∀ x, R x → f x = x) (c : Nat → Option Nat) (i : Instr) :
    lowerRtIntrinsicsInstr E stage P c (i.mapSrcs f) st ⟨n, []⟩ =
      renamedRun f (lowerRtIntrinsicsInstr E stage P (c ∘ f) i st ⟨n, []⟩) := by
  have hz : R P.hotzoneAddr.index := hP _ (by simp [RtPreamble.defs])
  have ht : R P.threadStackBaseAddr.index := hP _ (by simp [RtPreamble.defs])
  rw [lowerRtIntrinsicsInstr_eq, lowerRtIntrinsicsInstr_eq, rtBranch_mapSrcs]
  cases rtBranch stage i with
  | keep => rfl
  | stackPush range =>
    rw [RtBranch.mapSrc, rtVisit_stackPush_apply, rtVisit_stackPush_apply, renamedRun,
      Inserted.run_mapSrcs (stackPush_builds hz hs.offset range) hn hf]
    rfl
  | resume range =>
    rw [RtBranch.mapSrc, rtVisit_resume_apply, rtVisit_resume_apply, renamedRun,
      Inserted.run_mapSrcs (resume_builds hz ht hs range) hn hf]
    rfl
  | scratchBasePtr d => rfl
  | uniform d src ix =>
    rw [RtBranch.mapSrc, rtVisit_uniform_apply, rtVisit_uniform_apply, renamedRun, Function.comp]
    cases c (f src) with
    | some k =>
      rw [Inserted.run_mapSrcs (lowerLoadUniform_builds (S := fun _ => False) (c := some k) nofun).toBuilds
        hn hf]
      rfl
    | none =>
      rw [lowerLoadUniform_none_rename fun x hx => hf x (hn x hx)]
      rfl
  | sysval op d ix =>
    rw [RtBranch.mapSrc, rtVisit_sysval_apply, rtVisit_sysval_apply]
    simp only [renamedRun, Inserted.run_mapSrcs (rtSysval_builds hE hP op ix).toBuilds hn hf]
    cases (rtSysval E stage P op ix ⟨n, []⟩).1 <;> rfl

end Rename

/-! ### What one visit does -/

section Inversion

variable {E : RtEnv} {stage : Stage} {P : RtPreamble} {c : Nat → Option Nat} {i : Instr} {st : RtState}
  {b : Builder}

/-- A visit's rewrite replaces the visited instruction's value, everywhere, by the stack base
address, the value of a `load_uniform`, or a system value. -/
theorem lowerRtIntrinsicsInstr_rewrite {r : Rewrite}
    (h : (lowerRtIntrinsicsInstr E stage P c i st b).1.1.rewrite = some r) :
    ∃ d v, i.dest? = some d ∧ r = .all d.index v.index ∧
      ((rtBranch stage i = .scratchBasePtr d ∧ v = st.stackBaseAddr) ∨
        (∃ src ix, rtBranch stage i = .uniform d src ix ∧ v = (lowerLoadUniform E d src (c src) ix b).1) ∨
        (∃ op ix, rtBranch stage i = .sysval op d ix ∧ (rtSysval E stage P op ix b).1 = some v)) := by
  rw [lowerRtIntrinsicsInstr_eq] at h
  have hb := rtBranchOf stage i
  generalize rtBranch stage i = br at h hb ⊢
  cases hb with
  | scratchBasePtr =>
    cases h
    exact ⟨_, _, rfl, rfl, .inl ⟨rfl, rfl⟩⟩
  | uniform =>
    cases h
    exact ⟨_, _, rfl, rfl, .inr (.inl ⟨_, _, rfl, rfl⟩)⟩
  | @sysval op d srcs ix =>
    rw [rtVisit_sysval_apply] at h
    cases hv : (rtSysval E stage P op ix b).1 with
    | none => simp [hv, sysvalVisit] at h
    | some v =>
      simp only [hv, sysvalVisit, replaced, Option.some.injEq] at h
      exact ⟨d, v, rfl, h.symm, .inr (.inr ⟨op, ix, rfl, hv⟩)⟩
  | _ => cases h

/-- Only a resume moves the stack base offset and address. -/
theorem lowerRtIntrinsicsInstr_state :
    (lowerRtIntrinsicsInstr E stage P c i st b).1.2 = st ∨
      ∃ range, rtBranch stage i = .resume range ∧
        (lowerRtIntrinsicsInstr E stage P c i st b).1.2 = (resume P st range b).1 := by
  rw [lowerRtIntrinsicsInstr_eq]
  cases rtBranch stage i with
  | resume range => exact .inr ⟨range, rfl, rfl⟩
  | sysval op d ix => exact .inl rfl
  | _ => exact .inl rfl

theorem rtCase_of_keeps {op : IntrinsicOp} (h : RtKeeps op) : rtCase op = .sysval := by
  cases op <;> first | rfl | cases h

theorem rtSysval_of_keeps {op : IntrinsicOp} (h : RtKeeps op) (ix : Indices) :
    rtSysval E stage P op ix = pure none := by
  cases op <;> first | rfl | cases h

/-- An instruction of no kind the `switch` handles is kept as it is, with nothing inserted. -/
theorem lowerRtIntrinsicsInstr_of_keeps (h : ∀ op, i.intrinsic? = some op → RtKeeps op) :
    lowerRtIntrinsicsInstr E stage P c i st b = ((⟨some i, none⟩, st), b) := by
  cases i with
  | intrinsic op dest srcs ix =>
    have hk := h op rfl
    rcases dest with _ | d <;> simp only [lowerRtIntrinsicsInstr, rtCase_of_keeps hk]
    · rfl
    · rw [rtSysval_of_keeps hk]
      rfl
  | _ => rfl

/-- A visit inserts code calling no handled intrinsic and reading values of `R`, which holds of
the preamble's values, of the walk's, and of the offset of a `load_uniform` that is not a
constant. -/
theorem lowerRtIntrinsicsInstr_builds {R : Nat → Prop} (hE : E.Ok) (hP : ∀ v ∈ P.defs, R v.index)
    (hs : st.Avail R) (hsrc : ∀ d src ix, rtBranch stage i = .uniform d src ix → c src = none → R src) :
    Builds (Inserted R RtWalkCall) (lowerRtIntrinsicsInstr E stage P c i st) (fun _ => True) := by
  have hz : R P.hotzoneAddr.index := hP _ (by simp [RtPreamble.defs])
  have ht : R P.threadStackBaseAddr.index := hP _ (by simp [RtPreamble.defs])
  rw [lowerRtIntrinsicsInstr_eq]
  generalize rtBranch stage i = br at hsrc
  cases br with
  | keep | scratchBasePtr _ => exact .pure trivial
  | stackPush range => exact .map (stackPush_builds hz hs.offset range) fun _ _ => trivial
  | resume range => exact .map (resume_builds hz ht hs range) fun _ _ => trivial
  | uniform d src ix =>
    exact .map (lowerLoadUniform_builds (S := fun _ => False) (hsrc d src ix rfl)).toBuilds fun _ _ => trivial
  | sysval op d ix => exact .map (rtSysval_builds hE hP op ix).toBuilds fun _ _ => trivial

end Inversion

/-! ### The deferred walk -/

/-- The walk body as the recorded walk runs it: `nir_src_is_const` looks at a source as the
rewrites made so far, `f`, have renamed it. -/
def lowerRtIntrinsicsBodyD (E : RtEnv) (stage : Stage) (P : RtPreamble) (input : Nat → Option Nat)
    (f : Nat → Nat) (i : Instr) (st : RtState) : BuildM (Visit × RtState) :=
  withInsertedConsts (lowerRtIntrinsicsInstr E stage P (st.srcConst input ∘ f) i st)

@[simp] theorem constsOf_map_mapSrcs (f : Nat → Nat) (code : List Instr) :
    constsOf (code.map (·.mapSrcs f)) = constsOf code := by
  induction code with
  | nil => rfl
  | cons j code ih =>
    cases j with
    | loadConst d v => cases v <;> simp_all [constsOf, Instr.mapSrcs]
    | _ => simp_all [constsOf, Instr.mapSrcs]

theorem withInsertedConsts_apply (m : BuildM (Visit × RtState)) (n : Nat) :
    withInsertedConsts m ⟨n, []⟩ =
      (((m ⟨n, []⟩).1.1, { (m ⟨n, []⟩).1.2 with consts := (m ⟨n, []⟩).1.2.consts ++ constsOf (m ⟨n, []⟩).2.emitted }),
        (m ⟨n, []⟩).2) := rfl

/-- The value of a `load_uniform` is defined after the cursor it starts at. -/
theorem lowerLoadUniform_new {E : RtEnv} {n : Nat} (d : Def) (src : Nat) (k : Option Nat)
    (ix : Indices) : n ≤ (lowerLoadUniform E d src k ix ⟨n, []⟩).1.index := by
  cases k with
  | some k =>
    exact (Inserted.run (lowerLoadUniform_builds (S := fun _ => False) (c := some k) nofun).toBuildsDef
      (R := (n ≤ ·)) fun _ h => h).2.1
  | none => exact lowerLoadUniform_none_new d src ix n

/-- The walk body of the pass meets what the recorded walk needs, in a function whose
`ssa_alloc` was `n₀` on entry and where the preamble's values are new or `pinned`. -/
theorem lowerRtIntrinsicsBody_deferrable {E : RtEnv} {stage : Stage} {P : RtPreamble} {n₀ : Nat}
    {pinned : Nat → Prop} (hE : E.Ok) (hP : ∀ v ∈ P.defs, n₀ ≤ v.index ∨ pinned v.index)
    (input : Nat → Option Nat) :
    Deferrable (RtState.Avail fun x => n₀ ≤ x ∨ pinned x) n₀ pinned
      (lowerRtIntrinsicsBody E stage P input) (lowerRtIntrinsicsBodyD E stage P input) id where
  natural := by
    intro f i st n hst hn hf _
    simp only [lowerRtIntrinsicsBody, lowerRtIntrinsicsBodyD, withInsertedConsts_apply,
      lowerRtIntrinsicsInstr_rename hE hP hst (fun x hx => .inl (le_trans hn hx)) hf, renamedRun,
      constsOf_map_mapSrcs]
  rewrites_own := by
    intro f i st n r hst hn h
    obtain ⟨d, v, hd, rfl, hv⟩ := lowerRtIntrinsicsInstr_rewrite h
    refine ⟨⟨d, hd, rfl⟩, ?_⟩
    rcases hv with ⟨-, rfl⟩ | ⟨src, ix, -, rfl⟩ | ⟨op, ix, -, hv⟩
    · exact hst.addr
    · exact .inl (le_trans hn (lowerLoadUniform_new d src _ ix))
    · exact (Inserted.run (rtSysval_builds (R := fun x => n₀ ≤ x ∨ pinned x) hE hP op ix).toBuilds
        fun x hx => .inl (le_trans hn hx)).2.1 v (Option.mem_toList.2 hv)
  after_reads := by
    intro f i st n d v _ _ h
    obtain ⟨_, _, _, h, -⟩ := lowerRtIntrinsicsInstr_rewrite h
    cases h
  alloc_mono := by
    intro f i st n _ _
    exact (Inserted.run (lowerRtIntrinsicsInstr_builds (R := fun _ => True) hE (fun _ _ => trivial)
      ⟨trivial, trivial⟩ fun _ _ _ _ _ => trivial) fun _ _ => trivial).1
  inv_visit := by
    intro f i st n hst hn
    suffices h : (lowerRtIntrinsicsInstr E stage P (st.srcConst input ∘ f) i st ⟨n, []⟩).1.2.Avail
        fun x => n₀ ≤ x ∨ pinned x from ⟨h.offset, h.addr⟩
    rcases @lowerRtIntrinsicsInstr_state E stage P (st.srcConst input ∘ f) i st ⟨n, []⟩
      with h | ⟨range, -, h⟩
    · rw [h]; exact hst
    · rw [h]
      exact (Inserted.run (resume_builds (hP _ (by simp [RtPreamble.defs]))
        (hP _ (by simp [RtPreamble.defs])) hst range) fun x hx => .inl (le_trans hn hx)).2.1
  inv_enter := fun _ h => h

end MesaSim.Rt
