import MesaSim.Nir.Exec
import MesaSim.Rt.Lower

/-!
# The ray-tracing stack through the hotzone

The stack offset of a ray-tracing thread lives in the first dword of its hotzone. Every shader
invocation reads it in its preamble (`brw_nir_lower_rt_intrinsics.c:56–57`, `:84–87`); a resume
shader's `btd_resume_intel` moves it down by the caller's stack size and stores it back
(`:119–134`), and a `btd_stack_push_intel` stores the callee's offset, the current one plus the
caller's stack size (`:108–117`). The scratch base of an invocation, `load_scratch_base_ptr`, is
the thread's stack base plus its offset.

The first part runs that code on the semantics of `MesaSim.Nir.Exec`: one invocation's stack
code leaves in the hotzone its frame plus what it pushes, and changes no other byte. The second
part states the protocol over the runs of a thread, on numbers: in every run in which calls are
well nested, each continuation works in the frame of the invocation that called, every call
returns the hotzone to where it started, and a callee and what it calls stay above the frame the
caller pushed. The last part connects the two: the machines the code leaves along a run give
each invocation the frame the protocol does.
-/

namespace MesaSim.Rt
open MesaSim.Nir

/-- The range a stack intrinsic moves the stack by: `nir_intrinsic_range` when positive
(`:109–110`, `:125–126`), else nothing. -/
def stackRange (range : BitVec 32) : Nat := if 0 < range.toInt then range.toNat else 0

theorem stackRange_lt (range : BitVec 32) : stackRange range < 2 ^ 31 := by
  unfold stackRange
  split_ifs with h
  · have := BitVec.toInt_eq_toNat_cond range
    split_ifs at this <;> omega
  · norm_num

/-- The offset after a `btd_resume_intel` of `range` from offset `o`: moved down by the range,
modulo 2³². -/
def resumeOffset (o : Nat) (range : BitVec 32) : Nat := (o + (2 ^ 32 - stackRange range)) % 2 ^ 32

/-- The values of the walk's stack state: the hotzone address `h`, the thread's stack base `t`,
`stack_base_offset = o` and `stack_base_addr = t + o`. -/
def stackVals (P : RtPreamble) (st : RtState) (h t o : Nat) : List (Def × Val) :=
  [(P.hotzoneAddr, ⟨64, [h]⟩), (P.threadStackBaseAddr, ⟨64, [t]⟩),
    (st.stackBaseOffset, ⟨32, [o]⟩), (st.stackBaseAddr, ⟨64, [(t + o) % 2 ^ 64]⟩)]

/-- One shader invocation of a thread as the stack sees it: its stage, the range of the
`btd_resume_intel` it starts with and that of the `btd_stack_push_intel` it ends with; a range
that is not positive moves nothing, and stands for an invocation without one or with an empty
frame. -/
structure StackStep where
  stage : Stage
  resume : BitVec 32
  push : BitVec 32
  deriving DecidableEq, Repr

/-- The hotzone's first dword after an invocation that found `hz` there: its frame plus what it
pushes for its callee. -/
def hotzoneAfter (hz : Nat) (s : StackStep) : Nat :=
  (resumeOffset hz s.resume + stackRange s.push) % 2 ^ 32

section Code

variable (M : Machine) (P : RtPreamble) (st : RtState) (range : BitVec 32) {h t o : Nat}

/-- `btd_stack_push_intel` of a positive range stores `stack_base_offset + range` in the
hotzone's first dword; otherwise it does nothing. -/
theorem stackPush_runs (hw : st.stackBaseOffset.bitSize = 32) (ho : o < 2 ^ 32) :
    Runs M (stackVals P st h t o) (stackPush P st range)
      (if 0 < range.toInt then M.writeLE (BitVec.ofNat 64 h) ((o + range.toNat) % 2 ^ 32) 4
        else M) fun _ => [] := by
  unfold stackPush
  split_ifs with hr
  · have e : M.storeGlobal (BitVec.ofNat 64 h) ⟨32, [(o + range.toNat) % 2 ^ 32]⟩ 1 =
        M.writeLE (BitVec.ofNat 64 h) ((o + range.toNat) % 2 ^ 32) 4 := by
      simp [M.storeGlobal_one]
    rw [← e]
    refine (Runs.of_computes ((nirIaddImm_computes range.toNat hw ho).weaken
      (by simp [-List.subset_cons_of_subset, stackVals]))).bind fun c _ => ?_
    exact (nirStoreGlobal_runs M P.hotzoneAddr c 1 (A := h)).weaken
      (by simp [-List.subset_cons_of_subset, stackVals])
  · exact Runs.pure () (List.nil_subset _)

/-- `btd_resume_intel` of a positive range moves `stack_base_offset` down by it, stores it in the
hotzone's first dword and recomputes `stack_base_addr`; otherwise it does nothing. -/
theorem resume_runs (hw : st.stackBaseOffset.bitSize = 32)
    (ht : P.threadStackBaseAddr.bitSize = 64) (ho : o < 2 ^ 32) :
    Runs M (stackVals P st h t o) (resume P st range)
      (if 0 < range.toInt then M.writeLE (BitVec.ofNat 64 h) (resumeOffset o range) 4 else M)
      fun st' => stackVals P st' h t (resumeOffset o range) := by
  unfold resume
  split_ifs with hr
  · have hS := stackRange_lt range
    have hoff : (o + (2 ^ 64 - range.toNat)) % 2 ^ 32 = resumeOffset o range := by
      simp only [resumeOffset, stackRange, if_pos hr] at hS ⊢
      omega
    have hlt : resumeOffset o range < 2 ^ 32 := Nat.mod_lt _ (by norm_num)
    have e : M.storeGlobal (BitVec.ofNat 64 h) ⟨32, [resumeOffset o range]⟩ 1 =
        M.writeLE (BitVec.ofNat 64 h) (resumeOffset o range) 4 := by
      simp [M.storeGlobal_one]
    rw [← e]
    refine (Runs.of_computes (((nirIaddImm_computes _ hw ho).weaken
      (by simp [-List.subset_cons_of_subset, stackVals])).congr_val (by rw [hoff]))).bind
      fun c hc => ?_
    refine ((nirStoreGlobal_runs M P.hotzoneAddr c 1 (A := h)
      (v := ⟨32, [resumeOffset o range]⟩)).weaken
      (by simp [-List.subset_cons_of_subset, stackVals])).bind fun _ _ => ?_
    refine (Runs.of_computes ((nirAlu_computes .u2u64 [(c, ⟨32, [resumeOffset o range]⟩)]
      (c := [resumeOffset o range]) (by
        show some [_ % 2 ^ 64] = _; rw [Nat.mod_eq_of_lt (by omega)])).weaken
      (by simp))).bind fun u _ => ?_
    refine (Runs.of_computes ((nirIadd_computes (x := t) (y := resumeOffset o range) (u := 64)
      ht).weaken (by simp [-List.subset_cons_of_subset, stackVals]))).bind fun a _ => ?_
    exact Runs.pure _ (by simp [-List.subset_cons_of_subset, stackVals])
  · have hS : stackRange range = 0 := if_neg hr
    rw [show resumeOffset o range = o by rw [resumeOffset, hS]; omega]
    exact Runs.pure _ (List.Subset.refl _)

end Code

/-! ### One invocation -/

/-- `M'` is `M` but for the hotzone's first dword at `H`, the only bytes the stack intrinsics
write. -/
def SameOutsideHotzone (H : BitVec 64) (M M' : Machine) : Prop :=
  M'.sysval = M.sysval ∧ ∀ a, 4 ≤ (a - H).toNat → M'.mem a = M.mem a

namespace SameOutsideHotzone

variable {H : BitVec 64} {M M₁ M₂ : Machine}

theorem refl (M : Machine) : SameOutsideHotzone H M M := ⟨rfl, fun _ _ => rfl⟩

theorem trans (h₁ : SameOutsideHotzone H M M₁) (h₂ : SameOutsideHotzone H M₁ M₂) :
    SameOutsideHotzone H M M₂ :=
  ⟨h₂.1.trans h₁.1, fun a ha => (h₂.2 a ha).trans (h₁.2 a ha)⟩

theorem writeLE (M : Machine) (v : Nat) : SameOutsideHotzone H M (M.writeLE H v 4) :=
  ⟨M.writeLE_sysval _ _ _, fun a ha => by rw [M.writeLE_mem (by decide), if_neg (by omega)]⟩

end SameOutsideHotzone

/-- What the stack code needs of the helpers of `brw_nir_rt_builder.h` on the machines of a
thread, which differ from `M₀` at most in the hotzone's first dword: the hotzone lies at `h` and
the thread's stack at `t`, and the dispatch globals and the records load without storing. -/
structure RtEnv.StackOk (E : RtEnv) (M₀ : Machine) (h t : Nat) : Prop where
  hotzone : ∀ M, SameOutsideHotzone (BitVec.ofNat 64 h) M₀ M →
    Computes M [] E.swHotzoneAddr ⟨64, [h]⟩
  stack : ∀ M, SameOutsideHotzone (BitVec.ofNat 64 h) M₀ M → Computes M [] E.swStackAddr ⟨64, [t]⟩
  globals : ∀ M, SameOutsideHotzone (BitVec.ofNat 64 h) M₀ M →
    Runs M [] E.loadGlobals M fun _ => []
  memHit : ∀ M, SameOutsideHotzone (BitVec.ofNat 64 h) M₀ M →
    ∀ c, Runs M [] (E.loadMemHit c) M fun _ => []
  memRay : ∀ M, SameOutsideHotzone (BitVec.ofNat 64 h) M₀ M →
    ∀ l, Runs M [] (E.loadMemRay l) M fun _ => []

section Preamble

variable {E : RtEnv} {M₀ M : Machine} {h t : Nat} (hE : E.StackOk M₀ h t)
  (hM : SameOutsideHotzone (BitVec.ofNat 64 h) M₀ M)
include hE hM

theorem loadRecords_runs (stage : Stage) : Runs M [] (loadRecords E stage) M fun _ => [] := by
  have ray : ∀ l ins, Runs M ins (E.loadMemRay l) M fun _ => [] := fun l _ =>
    (hE.memRay M hM l).weaken (List.nil_subset _)
  unfold loadRecords
  split
  all_goals first
    | exact (hE.memHit M hM _).bind fun _ _ => (ray _ _).bind fun _ _ => (ray _ _).bind
        fun _ _ => Runs.pure _ (List.nil_subset _)
    | exact (ray _ _).bind fun _ _ => Runs.pure _ (List.nil_subset _)
    | exact Runs.pure _ (List.nil_subset _)

/-- The preamble's stack values: `stack_base_offset` is the hotzone's first dword and
`stack_base_addr` the thread's stack base plus it (`:56–57`, `:84–87`); the hotzone's four
dwords are loaded as they are. -/
theorem rtPreamble_runs (stage : Stage) :
    Runs M [] (rtPreamble E stage) M fun r =>
      stackVals r.1 ⟨r.2.1, r.2.2, []⟩ h t (M.readLE (BitVec.ofNat 64 h) 4) ++
        [(r.1.hotzone, ⟨32, M.load (BitVec.ofNat 64 h) 4 32⟩)] := by
  have hlt := M.readLE_lt (BitVec.ofNat 64 h) 4
  refine (hE.globals M hM).bind fun globals _ => ?_
  refine (Runs.of_computes ((hE.hotzone M hM).weaken (List.nil_subset _))).bind fun za _ => ?_
  refine (Runs.of_computes ((nirIntrinsic_computes .loadGlobal [(za, ⟨64, [h]⟩)] .none
    (n := 4) (s := 32) rfl).weaken (by simp))).bind fun zone hzone => ?_
  refine ((loadRecords_runs hE hM stage).weaken (List.nil_subset _)).bind fun records _ => ?_
  refine (Runs.of_computes ((hE.stack M hM).weaken (List.nil_subset _))).bind fun ts hts => ?_
  refine (Runs.of_computes (((nirAlu_computes (.mov [0])
    [(zone, ⟨32, M.load (BitVec.ofNat 64 h) 4 32⟩)] (n := 1) (s := zone.bitSize)
    (c := [M.readLE (BitVec.ofNat 64 h) 4])
    (by show some [(M.load (BitVec.ofNat 64 h) (3 + 1) 32).getD 0 0] = _
        rw [M.load_getD_zero])).weaken (by simp)).congr_val
    (by simp at hzone; rw [hzone]))).bind fun off _ => ?_
  refine (Runs.of_computes ((nirAlu_computes .u2u64
    [(off, ⟨32, [M.readLE (BitVec.ofNat 64 h) 4]⟩)] (c := [M.readLE (BitVec.ofNat 64 h) 4]) (by
      show some [_ % 2 ^ 64] = _; rw [Nat.mod_eq_of_lt (by omega)])).weaken (by simp))).bind
    fun u _ => ?_
  refine (Runs.of_computes ((nirIadd_computes (x := t) (y := M.readLE (BitVec.ofNat 64 h) 4)
    (u := 64) (by simpa using hts)).weaken (by simp))).bind fun addr _ => ?_
  exact Runs.pure _ (by simp [-List.subset_cons_of_subset, stackVals])

end Preamble

/-- The stack values an invocation works with: `stack_base_offset = f` and `stack_base_addr`, the
thread's stack base `t` plus it. -/
def stackOuts (t f : Nat) (st : RtState) : List (Def × Val) :=
  [(st.stackBaseOffset, ⟨32, [f]⟩), (st.stackBaseAddr, ⟨64, [(t + f) % 2 ^ 64]⟩)]

/-- The stack code of one invocation in the order the walk inserts it: the preamble, the
`btd_resume_intel` the invocation starts with (`:121–124`: the first intrinsic the walk meets)
and the `btd_stack_push_intel` of the call it ends with. The result is the walk's stack state
after the resume, which `load_scratch_base_ptr` reads. -/
def invocationStack (E : RtEnv) (s : StackStep) : BuildM RtState := do
  let r ← rtPreamble E s.stage
  let st ← resume r.1 ⟨r.2.1, r.2.2, []⟩ s.resume
  stackPush r.1 st s.push
  pure st

/-- The stack code of one invocation up to its call: the preamble and the `btd_resume_intel` it
starts with. The result is the preamble and the walk's stack state after the resume. -/
def invocationResume (E : RtEnv) (s : StackStep) : BuildM (RtPreamble × RtState) := do
  let r ← rtPreamble E s.stage
  let st ← resume r.1 ⟨r.2.1, r.2.2, []⟩ s.resume
  pure (r.1, st)

theorem invocationStack_eq (E : RtEnv) (s : StackStep) :
    invocationStack E s = invocationResume E s >>= fun r => stackPush r.1 r.2 s.push >>= fun _ =>
      pure r.2 := rfl

/-- The memory an invocation's resume leaves: its frame in the hotzone's first dword. -/
def resumeMachine (M : Machine) (h : Nat) (s : StackStep) : Machine :=
  if 0 < s.resume.toInt then
    M.writeLE (BitVec.ofNat 64 h) (resumeOffset (M.readLE (BitVec.ofNat 64 h) 4) s.resume) 4
  else M

/-- The memory one invocation's stack code leaves: the resume's store, then the push's. -/
def invocationMachine (M : Machine) (h : Nat) (s : StackStep) : Machine :=
  let f := resumeOffset (M.readLE (BitVec.ofNat 64 h) 4) s.resume
  let M₁ := resumeMachine M h s
  if 0 < s.push.toInt then M₁.writeLE (BitVec.ofNat 64 h) ((f + s.push.toNat) % 2 ^ 32) 4
  else M₁

/-- An invocation's code up to its call works in the frame the hotzone's first dword gives, moved
down by what it resumes, and leaves that frame there. -/
theorem invocationResume_runs {E : RtEnv} {M₀ M : Machine} {h t : Nat} (hE : E.StackOk M₀ h t)
    (hM : SameOutsideHotzone (BitVec.ofNat 64 h) M₀ M) (s : StackStep) :
    Runs M [] (invocationResume E s) (resumeMachine M h s) fun r =>
      stackVals r.1 r.2 h t (resumeOffset (M.readLE (BitVec.ofNat 64 h) 4) s.resume) := by
  refine (rtPreamble_runs hE hM s.stage).bind fun r hr => ?_
  simp only [stackVals, List.cons_append, List.mem_cons, List.singleton_append,
    forall_eq_or_imp] at hr
  exact ((resume_runs M r.1 ⟨r.2.1, r.2.2, []⟩ s.resume (h := h) (t := t) hr.2.2.1 hr.2.1
    (M.readLE_lt _ 4)).weaken (by simp [-List.subset_cons_of_subset, stackVals])).bind
    fun st _ => Runs.pure (r.1, st) (List.subset_append_left _ _)

/-- One invocation's stack code works in the frame the hotzone's first dword gives, moved down by
what it resumes. -/
theorem invocationStack_runs {E : RtEnv} {M₀ M : Machine} {h t : Nat} (hE : E.StackOk M₀ h t)
    (hM : SameOutsideHotzone (BitVec.ofNat 64 h) M₀ M) (s : StackStep) :
    Runs M [] (invocationStack E s) (invocationMachine M h s)
      (stackOuts t (resumeOffset (M.readLE (BitVec.ofNat 64 h) 4) s.resume)) := by
  rw [invocationStack_eq]
  refine (invocationResume_runs hE hM s).bind fun r hr => ?_
  simp only [stackVals, List.mem_cons, forall_eq_or_imp] at hr
  exact ((stackPush_runs _ r.1 r.2 s.push (h := h) (t := t)
    (o := resumeOffset (M.readLE (BitVec.ofNat 64 h) 4) s.resume) hr.2.2.1
    (Nat.mod_lt _ (by norm_num))).weaken (List.subset_append_left _ _)).bind fun _ _ =>
    Runs.pure r.2 (by simp [stackOuts, stackVals])

/-- What invocation `s`, run on the memory `M`, does in the frame `f`: its code up to its call
computes `stack_base_offset = f` and `stack_base_addr`, the thread's stack base plus `f`, which the
pass gives every `load_scratch_base_ptr` of the invocation, and leaves `f` in the hotzone's first
dword; its whole stack code computes the same two. -/
structure WorksIn (E : RtEnv) (h t : Nat) (M : Machine) (s : StackStep) (f : Nat) : Prop where
  resume : Runs M [] (invocationResume E s) (resumeMachine M h s) fun r => stackVals r.1 r.2 h t f
  hotzone : (resumeMachine M h s).readLE (BitVec.ofNat 64 h) 4 = f
  stack : Runs M [] (invocationStack E s) (invocationMachine M h s) (stackOuts t f)

theorem resumeMachine_readLE (M : Machine) (h : Nat) (s : StackStep) :
    (resumeMachine M h s).readLE (BitVec.ofNat 64 h) 4 =
      resumeOffset (M.readLE (BitVec.ofNat 64 h) 4) s.resume := by
  have hlt := M.readLE_lt (BitVec.ofNat 64 h) 4
  unfold resumeMachine resumeOffset
  split_ifs with hr
  · rw [M.readLE_writeLE (by decide)]
    omega
  · rw [stackRange, if_neg hr]
    omega

theorem invocationMachine_readLE (M : Machine) (h : Nat) (s : StackStep) :
    (invocationMachine M h s).readLE (BitVec.ofNat 64 h) 4 =
      hotzoneAfter (M.readLE (BitVec.ofNat 64 h) 4) s := by
  have hf := Nat.mod_lt (M.readLE (BitVec.ofNat 64 h) 4 + (2 ^ 32 - stackRange s.resume))
    (show 2 ^ 32 > 0 by norm_num)
  have hr := resumeMachine_readLE M h s
  simp only [invocationMachine, hotzoneAfter, resumeOffset] at hf hr ⊢
  split_ifs with hp
  · rw [Machine.readLE_writeLE _ (by decide), show stackRange s.push = s.push.toNat from if_pos hp]
    omega
  · rw [hr, show stackRange s.push = 0 from if_neg hp]
    omega

/-- Every invocation works in the frame the hotzone's first dword gives, moved down by what it
resumes. -/
theorem worksIn_of_stackOk {E : RtEnv} {M₀ M : Machine} {h t : Nat} (hE : E.StackOk M₀ h t)
    (hM : SameOutsideHotzone (BitVec.ofNat 64 h) M₀ M) (s : StackStep) :
    WorksIn E h t M s (resumeOffset (M.readLE (BitVec.ofNat 64 h) 4) s.resume) :=
  ⟨invocationResume_runs hE hM s, resumeMachine_readLE M h s, invocationStack_runs hE hM s⟩

theorem resumeMachine_same (M : Machine) (h : Nat) (s : StackStep) :
    SameOutsideHotzone (BitVec.ofNat 64 h) M (resumeMachine M h s) := by
  unfold resumeMachine
  split_ifs
  exacts [.writeLE _ _, .refl _]

theorem invocationMachine_same (M : Machine) (h : Nat) (s : StackStep) :
    SameOutsideHotzone (BitVec.ofNat 64 h) M (invocationMachine M h s) := by
  unfold invocationMachine
  split_ifs
  exacts [(resumeMachine_same M h s).trans (.writeLE _ _), resumeMachine_same M h s]

/-! ### The protocol over a thread's runs -/

/-- The frame of each invocation of a run, from the hotzone's first dword `hz` on. -/
def runFrames : Nat → List StackStep → List Nat
  | _, [] => []
  | hz, s :: run => resumeOffset hz s.resume :: runFrames (hotzoneAfter hz s) run

/-- The hotzone's first dword after a run. -/
def runHotzone : Nat → List StackStep → Nat
  | hz, [] => hz
  | hz, s :: run => runHotzone (hotzoneAfter hz s) run

theorem runHotzone_append (hz : Nat) (run run' : List StackStep) :
    runHotzone hz (run ++ run') = runHotzone (runHotzone hz run) run' := by
  induction run generalizing hz with
  | nil => rfl
  | cons s run ih => exact ih _

theorem runFrames_append (hz : Nat) (run run' : List StackStep) :
    runFrames hz (run ++ run') = runFrames hz run ++ runFrames (runHotzone hz run) run' := by
  induction run generalizing hz with
  | nil => rfl
  | cons s run ih => exact congrArg (_ :: ·) (ih _)

theorem runFrames_length (hz : Nat) (run : List StackStep) :
    (runFrames hz run).length = run.length := by
  induction run generalizing hz with
  | nil => rfl
  | cons s run ih => exact congrArg (· + 1) (ih _)

/-- Invocation `i` of a run works in the frame the hotzone holds after the invocations before it,
moved down by what it resumes. -/
theorem runFrames_getElem? {run : List StackStep} {i : Nat} (hi : i < run.length) (hz : Nat) :
    (runFrames hz run)[i]? = some (resumeOffset (runHotzone hz (run.take i)) run[i].resume) := by
  induction run generalizing hz i with
  | nil => exact absurd hi (Nat.not_lt_zero _)
  | cons s run ih =>
    cases i with
    | zero => rw [runFrames, List.getElem?_cons_zero]; rfl
    | succ i =>
      rw [runFrames, List.getElem?_cons_succ]
      exact ih (Nat.lt_of_succ_lt_succ hi) _

/-- A continuation that resumes what its caller pushed works in its caller's frame. -/
theorem resumeOffset_hotzoneAfter {s c : StackStep} (hs : stackRange c.resume = stackRange s.push)
    (hz : Nat) : resumeOffset (hotzoneAfter hz s) c.resume = resumeOffset hz s.resume := by
  have := stackRange_lt s.push
  simp only [hotzoneAfter, resumeOffset, hs]
  omega

/-- The invocations one shader call runs on its thread, in order. Its first invocation, which
resumes `R`, either returns, pushing nothing, or calls with the frame `S` it pushes, of any size;
the callee's call runs next, and then the call goes on in the continuation, which resumes `S`. -/
inductive CallRun : Nat → List StackStep → Prop
  | ret {s : StackStep} : stackRange s.push = 0 → CallRun (stackRange s.resume) [s]
  | call {s : StackStep} {callee cont : List StackStep} :
      CallRun 0 callee → CallRun (stackRange s.push) cont →
      CallRun (stackRange s.resume) (s :: (callee ++ cont))

/-- The sum of the ranges a run pushes: a bound on how far above its start its frames reach. -/
def pushTotal : List StackStep → Nat
  | [] => 0
  | s :: run => stackRange s.push + pushTotal run

theorem pushTotal_append (run run' : List StackStep) :
    pushTotal (run ++ run') = pushTotal run + pushTotal run' := by
  induction run with
  | nil => simp [pushTotal]
  | cons s run ih => rw [List.cons_append, pushTotal, pushTotal, ih, Nat.add_assoc]

theorem pushTotal_call (s : StackStep) (callee cont : List StackStep) :
    pushTotal (s :: (callee ++ cont)) = stackRange s.push + pushTotal callee + pushTotal cont := by
  rw [pushTotal, pushTotal_append, Nat.add_assoc]

namespace CallRun

variable {R : Nat} {run : List StackStep}

/-- A call's first invocation resumes its range. -/
theorem head (h : CallRun R run) : ∃ s rest, run = s :: rest ∧ stackRange s.resume = R := by
  cases h
  exacts [⟨_, _, rfl, rfl⟩, ⟨_, _, rfl, rfl⟩]

/-- A call returns the hotzone to the frame of its first invocation: the dword it started with,
moved down by what that invocation resumed. -/
theorem runHotzone_eq (h : CallRun R run) {hz : Nat} (hz32 : hz < 2 ^ 32) :
    runHotzone hz run = (hz + (2 ^ 32 - R)) % 2 ^ 32 := by
  induction h generalizing hz with
  | ret hp => simp only [runHotzone, hotzoneAfter, hp, Nat.add_zero, resumeOffset, Nat.mod_mod]
  | @call s callee cont _ _ ihc ihk =>
    have hS := stackRange_lt s.push
    rw [runHotzone, runHotzone_append,
      ihc (show hotzoneAfter hz s < 2 ^ 32 from Nat.mod_lt _ (by norm_num)),
      ihk (Nat.mod_lt _ (by norm_num))]
    simp only [hotzoneAfter, resumeOffset]
    omega

/-- A callee's call gives the hotzone back as its caller left it. -/
theorem runHotzone_callee (h : CallRun 0 run) (hz : Nat) (s : StackStep) :
    runHotzone (hotzoneAfter hz s) run = hotzoneAfter hz s := by
  rw [h.runHotzone_eq (show hotzoneAfter hz s < 2 ^ 32 from Nat.mod_lt _ (by norm_num)),
    hotzoneAfter]
  omega

/-- The frames of a call whose first invocation works at `b`, while its pushes keep them below
2³²: none lies below `b`, none above `b` plus all it pushes. -/
theorem frames_bounds (h : CallRun R run) {b : Nat} (hR : R < 2 ^ 31)
    (hb : b + pushTotal run < 2 ^ 32) :
    ∀ f ∈ runFrames ((b + R) % 2 ^ 32) run, b ≤ f ∧ f ≤ b + pushTotal run := by
  induction h generalizing b with
  | ret hp =>
    intro f hf
    simp only [runFrames, List.mem_singleton, resumeOffset] at hf
    omega
  | @call s callee cont hc hk ihc ihk =>
    have hS := stackRange_lt s.push
    rw [pushTotal_call] at hb ⊢
    have hx : hotzoneAfter ((b + stackRange s.resume) % 2 ^ 32) s =
        (b + stackRange s.push + 0) % 2 ^ 32 := by
      simp only [hotzoneAfter, resumeOffset]
      omega
    have hy : runHotzone ((b + stackRange s.push + 0) % 2 ^ 32) callee =
        (b + stackRange s.push) % 2 ^ 32 := by
      rw [hc.runHotzone_eq (Nat.mod_lt _ (by norm_num))]
      omega
    intro f hf
    simp only [runFrames, List.mem_cons, runFrames_append, List.mem_append, hx, hy] at hf
    rcases hf with rfl | hf | hf
    · simp only [resumeOffset]; omega
    · have := ihc (b := b + stackRange s.push) (by norm_num) (by omega) f hf
      omega
    · have := ihk (b := b) hS (by omega) f hf
      omega

/-- Invocation `j` of a call's run continues invocation `i`: `i` calls, and `j` runs after its
callee's whole call, in `i`'s shader, resuming the frame `i` pushed. The pairs are the call's own
and, by the same rule, those of every call nested in its callee's call or its continuation's. -/
inductive Continues : Nat → List StackStep → Nat → Nat → Prop
  | here {s : StackStep} {callee cont : List StackStep} : CallRun 0 callee →
      CallRun (stackRange s.push) cont →
      Continues (stackRange s.resume) (s :: (callee ++ cont)) 0 (callee.length + 1)
  | inCallee {s : StackStep} {callee cont : List StackStep} {i j : Nat} :
      Continues 0 callee i j → CallRun (stackRange s.push) cont →
      Continues (stackRange s.resume) (s :: (callee ++ cont)) (i + 1) (j + 1)
  | inCont {s : StackStep} {callee cont : List StackStep} {i j : Nat} : CallRun 0 callee →
      Continues (stackRange s.push) cont i j →
      Continues (stackRange s.resume) (s :: (callee ++ cont)) (i + callee.length + 1)
        (j + callee.length + 1)

namespace Continues

variable {i j : Nat}

/-- The pairs are those of a call's run. -/
theorem callRun (h : Continues R run i j) : CallRun R run := by
  induction h with
  | here hc hk => exact .call hc hk
  | inCallee _ hk ih => exact .call ih hk
  | inCont hc _ ih => exact .call hc ih

/-- A call comes before its continuation, and both are invocations of the run. -/
theorem lt_length (h : Continues R run i j) : i < j ∧ j < run.length := by
  induction h with
  | here _ hk =>
    obtain ⟨_, _, rfl, -⟩ := hk.head
    simp only [List.length_cons, List.length_append]
    omega
  | inCallee _ _ ih => simp only [List.length_cons, List.length_append]; omega
  | inCont _ _ ih => simp only [List.length_cons, List.length_append]; omega

/-- A continuation works in the frame of the invocation whose call it continues, from any
hotzone the call starts with. -/
theorem frames_eq (h : Continues R run i j) {hz : Nat} (hz32 : hz < 2 ^ 32) :
    (runFrames hz run)[j]? = (runFrames hz run)[i]? := by
  induction h generalizing hz with
  | @here s callee cont hc hk =>
    obtain ⟨c, cont, rfl, hs⟩ := hk.head
    rw [runFrames, runFrames_append, hc.runHotzone_callee, List.getElem?_cons_succ,
      List.getElem?_append_right (by rw [runFrames_length]), runFrames_length, Nat.sub_self,
      runFrames, List.getElem?_cons_zero, List.getElem?_cons_zero, resumeOffset_hotzoneAfter hs]
  | @inCallee s callee cont i j hij _ ih =>
    have hlen := runFrames_length (hotzoneAfter hz s) callee
    have hlt := hij.lt_length
    rw [runFrames, runFrames_append, List.getElem?_cons_succ, List.getElem?_cons_succ,
      List.getElem?_append_left (by omega), List.getElem?_append_left (by omega)]
    exact ih (Nat.mod_lt _ (by norm_num))
  | @inCont s callee cont i j hc _ ih =>
    have hlen := runFrames_length (hotzoneAfter hz s) callee
    rw [runFrames, runFrames_append, List.getElem?_cons_succ, List.getElem?_cons_succ,
      List.getElem?_append_right (by omega), List.getElem?_append_right (by omega), hlen,
      Nat.add_sub_cancel, Nat.add_sub_cancel, hc.runHotzone_callee]
    exact ih (Nat.mod_lt _ (by norm_num))

end Continues

end CallRun

/-- Stack safety: while offsets stay below 2³², a callee and every invocation its call leads to
work at or above the offset its caller pushed, the end of the caller's frame, so never in it. -/
theorem CallRun.callee_above {s : StackStep} {callee : List StackStep}
    (hc : CallRun 0 callee) {hz : Nat}
    (hwrap : resumeOffset hz s.resume + stackRange s.push + pushTotal callee < 2 ^ 32) :
    ∀ f ∈ runFrames (hotzoneAfter hz s) callee,
      resumeOffset hz s.resume + stackRange s.push ≤ f := by
  intro f hf
  have hx : hotzoneAfter hz s = (resumeOffset hz s.resume + stackRange s.push + 0) % 2 ^ 32 := rfl
  rw [hx] at hf
  exact (hc.frames_bounds (by norm_num) hwrap f hf).1

/-! ### The code along a thread's runs -/

/-- The memory after a run of invocations, each on what the ones before it left. -/
def runMachine (h : Nat) : Machine → List StackStep → Machine
  | M, [] => M
  | M, s :: run => runMachine h (invocationMachine M h s) run

section Run

variable (h : Nat)

theorem runMachine_append (M : Machine) (run run' : List StackStep) :
    runMachine h M (run ++ run') = runMachine h (runMachine h M run) run' := by
  induction run generalizing M with
  | nil => rfl
  | cons s run ih => exact ih _

theorem runMachine_readLE (M : Machine) (run : List StackStep) :
    (runMachine h M run).readLE (BitVec.ofNat 64 h) 4 =
      runHotzone (M.readLE (BitVec.ofNat 64 h) 4) run := by
  induction run generalizing M with
  | nil => rfl
  | cons s run ih => rw [runMachine, ih, invocationMachine_readLE]; rfl

theorem runMachine_same (M : Machine) (run : List StackStep) :
    SameOutsideHotzone (BitVec.ofNat 64 h) M (runMachine h M run) := by
  induction run generalizing M with
  | nil => exact .refl _
  | cons s run ih => exact (invocationMachine_same M h s).trans (ih _)

/-- The frame invocation `i` of a run works in, after the invocations before it, is among the
run's frames. -/
theorem resumeOffset_mem_runFrames {run : List StackStep} {i : Nat} (hi : i < run.length)
    (hz : Nat) : resumeOffset (runHotzone hz (run.take i)) run[i].resume ∈ runFrames hz run :=
  List.getElem?_mem (runFrames_getElem? hi hz)

/-- The memory a run leaves after invocation `i` is the one its code leaves from the memory
before it. -/
theorem runMachine_take_succ (M : Machine) {run : List StackStep} {i : Nat} (hi : i < run.length) :
    runMachine h M (run.take (i + 1)) =
      invocationMachine (runMachine h M (run.take i)) h run[i] := by
  rw [List.take_succ, List.getElem?_eq_getElem hi, Option.toList_some, runMachine_append]
  rfl

end Run

/-- Header helpers that compute the hotzone and stack addresses as constants and load nothing. -/
def constStackEnv (h t : Nat) : RtEnv :=
  let z : Def := ⟨0, 1, 32⟩
  ⟨pure ⟨z, z, z, z, z, z, z, z, z, z, z⟩, nirImmIntN h 64, fun _ => pure ⟨z, z, z, z, z, z, z⟩,
    fun _ => pure ⟨z, z, z, z, z⟩, nirImmIntN t 64, fun _ => pure ⟨[], [], z, z⟩, 3, 0xf, 0xe, 128,
    0, 0, false⟩

theorem constStackEnv_stackOk (M₀ : Machine) {h t : Nat} (hh : h < 2 ^ 64) (ht : t < 2 ^ 64) :
    (constStackEnv h t).StackOk M₀ h t where
  hotzone _ _ := (nirImmIntN_computes h 64 []).congr_val (by rw [Nat.mod_eq_of_lt hh])
  stack _ _ := (nirImmIntN_computes t 64 []).congr_val (by rw [Nat.mod_eq_of_lt ht])
  globals _ _ := Runs.pure _ (List.nil_subset _)
  memHit _ _ _ := Runs.pure _ (List.nil_subset _)
  memRay _ _ _ := Runs.pure _ (List.nil_subset _)

/-- A ray-generation shader that calls with a 16-byte frame, a closest-hit shader that returns,
and the ray-generation shader's continuation, which resumes the 16 bytes. -/
theorem callRun_raygen_closestHit :
    CallRun 0 [⟨.closestHit, 0, 0⟩] ∧ CallRun (stackRange 16) [⟨.raygen, 16, 0⟩] ∧
      CallRun 0 [⟨.raygen, 0, 16⟩, ⟨.closestHit, 0, 0⟩, ⟨.raygen, 16, 0⟩] :=
  have hc : CallRun 0 [⟨.closestHit, 0, 0⟩] :=
    CallRun.ret (s := ⟨.closestHit, 0, 0⟩) (by decide)
  have hk : CallRun (stackRange 16) [⟨.raygen, 16, 0⟩] :=
    CallRun.ret (s := ⟨.raygen, 16, 0⟩) (by decide)
  ⟨hc, hk, CallRun.call (s := ⟨.raygen, 0, 16⟩) hc hk⟩

/-! ### What the stack code guarantees along a thread's runs -/

section Thread

variable {E : RtEnv} {M₀ : Machine} {h t : Nat}

/-- Invocation `i` of a run, on the memory the invocations before it left, runs its stack code
to the memory the run leaves after it, in the frame the hotzone holds when it starts. -/
theorem runMachine_runs (hE : E.StackOk M₀ h t) {M : Machine}
    (hM : SameOutsideHotzone (BitVec.ofNat 64 h) M₀ M) {run : List StackStep} {i : Nat}
    (hi : i < run.length) :
    Runs (runMachine h M (run.take i)) [] (invocationStack E run[i])
      (runMachine h M (run.take (i + 1)))
      (stackOuts t (resumeOffset ((runMachine h M (run.take i)).readLE (BitVec.ofNat 64 h) 4)
        run[i].resume)) := by
  rw [runMachine_take_succ h _ hi]
  exact invocationStack_runs hE (hM.trans (runMachine_same h _ _)) _

/-- The memories a run of the code goes through are the ones `runMachine` gives: each
invocation's code, run on what the ones before it left, leaves what the summary says. -/
theorem runMachine_of_runs (hE : E.StackOk M₀ h t) {run : List StackStep} {Ms : Nat → Machine}
    (h0 : Ms 0 = M₀)
    (hrun : ∀ i (hi : i < run.length), ∃ outs : RtState → List (Def × Val),
      Runs (Ms i) [] (invocationStack E run[i]) (Ms (i + 1)) outs) :
    ∀ i ≤ run.length, Ms i = runMachine h M₀ (run.take i)
  | 0, _ => h0
  | i + 1, hi => by
    obtain ⟨_, hr⟩ := hrun i hi
    rw [runMachine_of_runs hE h0 hrun i (Nat.le_of_succ_le hi)] at hr
    exact hr.machine_eq (runMachine_runs hE (.refl _) hi)

/-- A call as the code runs it: every invocation's inserted stack code runs on the memory the
ones before it left, and any run of that code leaves in the hotzone the frame the call's first
invocation worked in, the offset it found moved down by what that invocation resumed. A callee's
call leaves it as it found it. -/
theorem CallRun.runMachine_hotzone (hE : E.StackOk M₀ h t) {R : Nat} {run : List StackStep}
    (hc : CallRun R run) :
    (∀ i (hi : i < run.length), Runs (runMachine h M₀ (run.take i)) [] (invocationStack E run[i])
      (runMachine h M₀ (run.take (i + 1)))
      (stackOuts t (resumeOffset ((runMachine h M₀ (run.take i)).readLE (BitVec.ofNat 64 h) 4)
        run[i].resume))) ∧
    ∀ Ms : Nat → Machine, Ms 0 = M₀ →
      (∀ i (hi : i < run.length), ∃ outs : RtState → List (Def × Val),
        Runs (Ms i) [] (invocationStack E run[i]) (Ms (i + 1)) outs) →
      (Ms run.length).readLE (BitVec.ofNat 64 h) 4 =
        (M₀.readLE (BitVec.ofNat 64 h) 4 + (2 ^ 32 - R)) % 2 ^ 32 := by
  refine ⟨fun i hi => runMachine_runs hE (.refl _) hi, fun Ms h0 hrun => ?_⟩
  rw [runMachine_of_runs hE h0 hrun _ le_rfl, List.take_length, runMachine_readLE,
    hc.runHotzone_eq (M₀.readLE_lt _ 4)]

theorem CallRun.runMachine_hotzone_raygen :
    let M : Machine := ⟨fun _ => 0, fun _ _ _ => 0⟩
    let E := constStackEnv 0x1000 0x8000
    let run : List StackStep := [⟨.raygen, 0, 16⟩, ⟨.closestHit, 0, 0⟩, ⟨.raygen, 16, 0⟩]
    E.StackOk M 0x1000 0x8000 ∧ CallRun 0 run ∧
      (∀ i (hi : i < run.length), Runs (runMachine 0x1000 M (run.take i)) []
        (invocationStack E run[i]) (runMachine 0x1000 M (run.take (i + 1)))
        (stackOuts 0x8000 (resumeOffset
          ((runMachine 0x1000 M (run.take i)).readLE (BitVec.ofNat 64 0x1000) 4) run[i].resume))) ∧
      ∀ Ms : Nat → Machine, Ms 0 = M →
        (∀ i (hi : i < run.length), ∃ outs : RtState → List (Def × Val),
          Runs (Ms i) [] (invocationStack E run[i]) (Ms (i + 1)) outs) →
        (Ms run.length).readLE (BitVec.ofNat 64 0x1000) 4 =
          (M.readLE (BitVec.ofNat 64 0x1000) 4 + (2 ^ 32 - 0)) % 2 ^ 32 :=
  have hE := constStackEnv_stackOk ⟨fun _ => 0, fun _ _ _ => 0⟩ (h := 0x1000) (t := 0x8000)
    (by decide) (by decide)
  ⟨hE, callRun_raygen_closestHit.2.2, CallRun.runMachine_hotzone hE callRun_raygen_closestHit.2.2⟩

/-- The continuation of a call, run on the memory the caller and the whole callee call left,
works at the caller's stack offset and scratch base, however deep the callee's own calls went. -/
theorem CallRun.cont_stack (hE : E.StackOk M₀ h t) {s c : StackStep} {callee cont : List StackStep}
    (hc : CallRun 0 callee) (hk : CallRun (stackRange s.push) (c :: cont)) :
    Runs (runMachine h M₀ (s :: callee)) [] (invocationStack E c)
      (runMachine h M₀ (s :: callee ++ [c]))
      (stackOuts t (resumeOffset (M₀.readLE (BitVec.ofNat 64 h) 4) s.resume)) := by
  obtain ⟨_, _, he, hs⟩ := hk.head
  obtain ⟨rfl, -⟩ := List.cons.inj he
  have hoff :
      resumeOffset ((runMachine h M₀ (s :: callee)).readLE (BitVec.ofNat 64 h) 4) c.resume =
      resumeOffset (M₀.readLE (BitVec.ofNat 64 h) 4) s.resume := by
    rw [runMachine, runMachine_readLE, invocationMachine_readLE, hc.runHotzone_callee,
      resumeOffset_hotzoneAfter hs]
  rw [runMachine_append, ← hoff]
  exact invocationStack_runs hE (runMachine_same h M₀ _) c

theorem CallRun.cont_stack_raygen :
    let M : Machine := ⟨fun _ => 0, fun _ _ _ => 0⟩
    (constStackEnv 0x1000 0x8000).StackOk M 0x1000 0x8000 ∧ CallRun 0 [⟨.closestHit, 0, 0⟩] ∧
      CallRun (stackRange 16) [⟨.raygen, 16, 0⟩] ∧
      Runs (runMachine 0x1000 M [⟨.raygen, 0, 16⟩, ⟨.closestHit, 0, 0⟩]) []
        (invocationStack (constStackEnv 0x1000 0x8000) ⟨.raygen, 16, 0⟩)
        (runMachine 0x1000 M ([⟨.raygen, 0, 16⟩, ⟨.closestHit, 0, 0⟩] ++ [⟨.raygen, 16, 0⟩]))
        (stackOuts 0x8000 (resumeOffset (M.readLE (BitVec.ofNat 64 0x1000) 4) 0)) :=
  have hE := constStackEnv_stackOk ⟨fun _ => 0, fun _ _ _ => 0⟩ (h := 0x1000) (t := 0x8000)
    (by decide) (by decide)
  ⟨hE, callRun_raygen_closestHit.1, callRun_raygen_closestHit.2.1,
    CallRun.cont_stack hE callRun_raygen_closestHit.1 callRun_raygen_closestHit.2.1⟩

/-- Stack safety: while offsets stay below 2³², every invocation of a callee's call, run on the
memory the invocations before it left, works at a stack offset at or above the end of its
caller's frame. -/
theorem CallRun.callee_stack_above (hE : E.StackOk M₀ h t) {s : StackStep}
    {callee : List StackStep} (hc : CallRun 0 callee)
    (hwrap : resumeOffset (M₀.readLE (BitVec.ofNat 64 h) 4) s.resume + stackRange s.push +
      pushTotal callee < 2 ^ 32) {i : Nat} (hi : i < callee.length) :
    ∃ o, resumeOffset (M₀.readLE (BitVec.ofNat 64 h) 4) s.resume + stackRange s.push ≤ o ∧
      Runs (runMachine h M₀ (s :: callee.take i)) [] (invocationStack E callee[i])
        (runMachine h M₀ (s :: callee.take (i + 1))) (stackOuts t o) := by
  refine ⟨resumeOffset ((runMachine h M₀ (s :: callee.take i)).readLE (BitVec.ofNat 64 h) 4)
    callee[i].resume, hc.callee_above hwrap _ ?_, ?_⟩
  · rw [runMachine, runMachine_readLE, invocationMachine_readLE]
    exact resumeOffset_mem_runFrames hi _
  · exact runMachine_runs hE (invocationMachine_same _ _ _) hi

theorem CallRun.callee_stack_above_raygen :
    let M : Machine := ⟨fun _ => 0, fun _ _ _ => 0⟩
    let callee : List StackStep := [⟨.closestHit, 0, 0⟩]
    (constStackEnv 0x1000 0x8000).StackOk M 0x1000 0x8000 ∧ CallRun 0 callee ∧
      resumeOffset (M.readLE (BitVec.ofNat 64 0x1000) 4) 0 + stackRange 16 + pushTotal callee <
        2 ^ 32 ∧ 0 < callee.length ∧
      ∃ o, resumeOffset (M.readLE (BitVec.ofNat 64 0x1000) 4) 0 + stackRange 16 ≤ o ∧
        Runs (runMachine 0x1000 M (⟨.raygen, 0, 16⟩ :: callee.take 0)) []
          (invocationStack (constStackEnv 0x1000 0x8000) ⟨.closestHit, 0, 0⟩)
          (runMachine 0x1000 M (⟨.raygen, 0, 16⟩ :: callee.take (0 + 1))) (stackOuts 0x8000 o) :=
  have hE := constStackEnv_stackOk ⟨fun _ => 0, fun _ _ _ => 0⟩ (h := 0x1000) (t := 0x8000)
    (by decide) (by decide)
  ⟨hE, callRun_raygen_closestHit.1, by decide, by decide,
    CallRun.callee_stack_above (s := ⟨.raygen, 0, 16⟩) hE callRun_raygen_closestHit.1
      (by decide) (i := 0) (by decide)⟩

/-- Every call of a run, however deep among the calls it nests in: the continuation, run on the
memory the invocations before it left, works in the frame of the invocation whose call it
continues. Its resume leaves in the hotzone's first dword what the caller's left there before its
push, and each `load_scratch_base_ptr` of either reads the same `stack_base_addr`. -/
theorem CallRun.Continues.worksIn_caller_frame (hE : E.StackOk M₀ h t) {R i j : Nat}
    {run : List StackStep} (hc : CallRun.Continues R run i j) :
    ∃ (hi : i < run.length) (hj : j < run.length) (f : Nat),
      WorksIn E h t (runMachine h M₀ (run.take i)) run[i] f ∧
      WorksIn E h t (runMachine h M₀ (run.take j)) run[j] f := by
  obtain ⟨hij, hj⟩ := hc.lt_length
  have hi := hij.trans hj
  have hw : ∀ k (hk : k < run.length), WorksIn E h t (runMachine h M₀ (run.take k)) run[k]
      (resumeOffset (runHotzone (M₀.readLE (BitVec.ofNat 64 h) 4) (run.take k)) run[k].resume) :=
    fun k _ => by
      rw [← runMachine_readLE]
      exact worksIn_of_stackOk hE (runMachine_same h M₀ _) _
  have hf := hc.frames_eq (M₀.readLE_lt (BitVec.ofNat 64 h) 4)
  rw [runFrames_getElem? hi, runFrames_getElem? hj, Option.some.injEq] at hf
  exact ⟨hi, hj, _, hw i hi, hf ▸ hw j hj⟩

/-- A ray-generation shader calls a closest-hit shader with a 16-byte frame, which calls a miss
shader with an 8-byte one; the closest-hit shader's continuation, the fourth invocation, works in
the frame of the second. -/
theorem CallRun.Continues.worksIn_caller_frame_nested :
    let M : Machine := ⟨fun _ => 0, fun _ _ _ => 0⟩
    let E := constStackEnv 0x1000 0x8000
    let run : List StackStep := [⟨.raygen, 0, 16⟩, ⟨.closestHit, 0, 8⟩, ⟨.miss, 0, 0⟩,
      ⟨.closestHit, 8, 0⟩, ⟨.raygen, 16, 0⟩]
    E.StackOk M 0x1000 0x8000 ∧ CallRun.Continues 0 run 1 3 ∧
      ∃ (hi : 1 < run.length) (hj : 3 < run.length) (f : Nat),
        WorksIn E 0x1000 0x8000 (runMachine 0x1000 M (run.take 1)) run[1] f ∧
        WorksIn E 0x1000 0x8000 (runMachine 0x1000 M (run.take 3)) run[3] f :=
  have hE := constStackEnv_stackOk ⟨fun _ => 0, fun _ _ _ => 0⟩ (h := 0x1000) (t := 0x8000)
    (by decide) (by decide)
  have hin :
      CallRun.Continues 0 [⟨.closestHit, 0, 8⟩, ⟨.miss, 0, 0⟩, ⟨.closestHit, 8, 0⟩] 0 2 :=
    .here (s := ⟨.closestHit, 0, 8⟩) (.ret (s := ⟨.miss, 0, 0⟩) (by decide))
      (.ret (s := ⟨.closestHit, 8, 0⟩) (by decide))
  have hc : CallRun.Continues 0 [⟨.raygen, 0, 16⟩, ⟨.closestHit, 0, 8⟩, ⟨.miss, 0, 0⟩,
      ⟨.closestHit, 8, 0⟩, ⟨.raygen, 16, 0⟩] 1 3 :=
    .inCallee (s := ⟨.raygen, 0, 16⟩) hin (.ret (s := ⟨.raygen, 16, 0⟩) (by decide))
  ⟨hE, hc, CallRun.Continues.worksIn_caller_frame hE hc⟩

end Thread

end MesaSim.Rt
