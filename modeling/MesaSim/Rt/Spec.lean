import MesaSim.Rt.Deferred

/-!
# What `brw_nir_lower_rt_intrinsics` does to a function

Read off the recorded walk of `MesaSim.Rt.Deferred`. `lower_rt_intrinsics_impl`
(`brw_nir_lower_rt_intrinsics.c:46–381`) inserts its preamble at the top of the entry block
(`:53–89`) and walks the function so extended: each instruction becomes one piece of the result
as `RtLowersInstr` says, given the stack base address current at it, and every use of a removed
value is rewritten once to its replacement. For a function whose intrinsics its stage provides
and whose resumes lie in its entry block (`RtReady`), no intrinsic of a kind the walk handles is
left but the `load_uniform` of the launch trampoline (`:139–140`), and each replacement is
defined by the code inserted in the removed instruction's place or by a piece of the entry block
before it (the preamble, or the code of a resume), so that it dominates every former use. The
assertion that a resume comes before every `load_scratch_base_ptr` (`:122`) is not needed for
this.
-/

namespace MesaSim.Rt
open MesaSim.Nir

/-! ### What the walk needs of a function -/

/-- The records of the preamble: the world-space and object-space MemRay and the MemHit. -/
inductive RtRecord
  | worldRay
  | objectRay
  | hit
  deriving DecidableEq, Repr

/-- Whether a stage's preamble loads a record (`:64–82`). -/
def stageLoads : Stage → RtRecord → Bool
  | .anyHit, _ | .closestHit, _ | .intersection, _ => true
  | .miss, .worldRay => true
  | _, _ => false

/-- Whether the preamble holds a record. -/
def RtPreamble.has (P : RtPreamble) : RtRecord → Bool
  | .worldRay => P.worldRayIn.isSome
  | .objectRay => P.objectRayIn.isSome
  | .hit => P.hitIn.isSome

/-- The preamble holds every record its stage loads. -/
def RtPreamble.Provides (stage : Stage) (P : RtPreamble) : Prop :=
  ∀ r, stageLoads stage r → P.has r

/-- The record a system value is read from (`:195–366`); `t_max` is the world ray's in a miss
shader and the hit's otherwise. -/
def sysvalRecord (stage : Stage) : IntrinsicOp → Option RtRecord
  | .loadRayWorldOrigin | .loadRayWorldDirection | .loadRayTMin | .loadRayFlags => some .worldRay
  | .loadRayTMax => some (if stage = .miss then .worldRay else .hit)
  | .loadRayObjectOrigin | .loadRayObjectDirection => some .objectRay
  | .loadPrimitiveId | .loadInstanceId | .loadRayObjectToWorld | .loadRayWorldToObject
  | .loadRayHitKind | .loadRayGeometryIndex | .loadRayInstanceCustomIndex | .loadLeafProceduralIntel
  | .loadLeafOpaqueIntel => some .hit
  | _ => none

/-- `load_ray_object_to_world` and `load_ray_world_to_object`, which read one column of a
transform. -/
def readsColumn : IntrinsicOp → Bool
  | .loadRayObjectToWorld | .loadRayWorldToObject => true
  | _ => false

/-- Whether a stage provides a system value: it loads the record the value is read from, and a
column of a transform is one of its four. -/
def rtProvides (stage : Stage) (op : IntrinsicOp) (ix : Indices) : Bool :=
  (sysvalRecord stage op).all (stageLoads stage) && (!readsColumn op || decide (ix.column < 4))

/-- What the walk needs of an instruction, as NIR's table of intrinsics has it: the destination
and the offset each case reads (`load_uniform` outside the launch trampoline), and a system value
its stage provides. -/
def rtInstrReady (stage : Stage) : Instr → Bool
  | .intrinsic op dest srcs ix =>
    match rtCase op with
    | .stackPush | .resume => true
    | .scratchBasePtr => dest.isSome
    | .uniform => decide (stage = .compute) || (dest.isSome && !srcs.isEmpty)
    | .sysval => !rtHandles op || (dest.isSome && rtProvides stage op ix)
  | _ => true

/-- Whether an instruction is a `btd_resume_intel`. -/
def isResume (i : Instr) : Bool :=
  match i.intrinsic? with
  | some op => decide (rtCase op = .resume)
  | none => false

/-- What the pass needs of a function: SSA form, instructions the walk is ready for, and every
`btd_resume_intel` in the entry block (`:121`). -/
structure RtReady (stage : Stage) (impl : Impl) : Prop where
  ssa : impl.SsaOk
  instrs : ∀ blk ∈ impl.blocks, ∀ i ∈ blk, rtInstrReady stage i
  resumes : ∀ blk ∈ impl.blocks.drop 1, ∀ i ∈ blk, isResume i = false

instance (stage : Stage) (impl : Impl) : Decidable (RtReady stage impl) :=
  decidable_of_iff (impl.SsaOk ∧ (∀ blk ∈ impl.blocks, ∀ i ∈ blk, rtInstrReady stage i) ∧
      ∀ blk ∈ impl.blocks.drop 1, ∀ i ∈ blk, isResume i = false)
    ⟨fun h => ⟨h.1, h.2.1, h.2.2⟩, fun h => ⟨h.ssa, h.instrs, h.resumes⟩⟩

/-! ### How the walk lowers an instruction -/

/-- Code calling no intrinsic the walk handles. -/
def CodeKeeps (code : List Instr) : Prop := ∀ j ∈ code, ∀ op, j.intrinsic? = some op → RtKeeps op

/-- An instruction the walk passes over: it calls no intrinsic the walk handles, or is a
`load_uniform` of the launch trampoline (`:139–140`). -/
def RtPassesOver (stage : Stage) (i : Instr) : Prop :=
  ∀ op, i.intrinsic? = some op → RtKeeps op ∨ rtCase op = .uniform ∧ stage = .compute

/-- A value defined by an instruction of some code. -/
def DefinedIn (code : List Instr) (v : Def) : Prop := ∃ j ∈ code, j.dest? = some v

/-- How the walk lowers one instruction (`:94–377`), `a` being the stack base address current at
it and `a'` the one after it: the piece of the result the instruction becomes. -/
inductive RtLowersInstr (stage : Stage) (P : RtPreamble) (a : Def) : Instr → Piece → Def → Prop
  /-- An instruction the walk passes over stays as it is. -/
  | kept {i} : RtPassesOver stage i → RtLowersInstr stage P a i ⟨some i, [], none⟩ a
  /-- `btd_stack_push_intel` is removed, and the code storing the callee's stack offset inserted
  in its place (`:108–117`). -/
  | stackPush {op dest srcs ix code} : rtCase op = .stackPush → CodeKeeps code →
      RtLowersInstr stage P a (.intrinsic op dest srcs ix) ⟨none, code, none⟩ a
  /-- `btd_resume_intel` is removed, and the code moving the stack offset inserted in its place;
  the stack base address after it is the one before or a value that code defines (`:119–134`). -/
  | resume {op dest srcs ix code a'} : rtCase op = .resume → CodeKeeps code →
      a' = a ∨ DefinedIn code a' →
      RtLowersInstr stage P a (.intrinsic op dest srcs ix) ⟨none, code, none⟩ a'
  /-- `load_scratch_base_ptr` is replaced by the current stack base address (`:102–106`). -/
  | scratchBasePtr {op d srcs ix} : rtCase op = .scratchBasePtr →
      RtLowersInstr stage P a (.intrinsic op (some d) srcs ix) ⟨none, [], some (.all d.index a.index)⟩ a
  /-- A system value or a `load_uniform` is replaced by one of the preamble's values or a value
  the code inserted in its place defines (`:136–377`). -/
  | replaced {op d srcs ix code v} : rtHandles op → rtCase op = .uniform ∨ rtCase op = .sysval →
      CodeKeeps code → v ∈ P.defs ∨ DefinedIn code v →
      RtLowersInstr stage P a (.intrinsic op (some d) srcs ix) ⟨none, code, some (.all d.index v.index)⟩ a

/-- How the walk lowers a block, the stack base address going from `a` to `a'`. -/
inductive RtLowersBlock (stage : Stage) (P : RtPreamble) : Def → Block → List Piece → Def → Prop
  | nil {a} : RtLowersBlock stage P a [] [] a
  | cons {a i p a₁ blk ps a'} : RtLowersInstr stage P a i p a₁ → RtLowersBlock stage P a₁ blk ps a' →
      RtLowersBlock stage P a (i :: blk) (p :: ps) a'

/-- How the walk lowers the blocks, the stack base address carried from each to the next. -/
inductive RtLowersBlocks (stage : Stage) (P : RtPreamble) : Def → List Block → List (List Piece) → Prop
  | nil {a} : RtLowersBlocks stage P a [] []
  | cons {a blk ps a₁ blks pss} : RtLowersBlock stage P a blk ps a₁ →
      RtLowersBlocks stage P a₁ blks pss → RtLowersBlocks stage P a (blk :: blks) (ps :: pss)

/-- The value a piece's rewrite sends uses to is defined by the piece's own code or by one of the
pieces `before`. -/
def ReplacedFrom (before : List Piece) (p : Piece) : Prop :=
  ∀ r, p.rewrite = some r → r.pair.2 ∈ defsOf p.code ∨ r.pair.2 ∈ before.flatMap Piece.defs

/-- Where the replacements of a lowered function are defined, the preamble's pieces `pre` put
first: in the entry block, by a piece's own code or by a piece before it; in any other block, by
a piece's own code or by a piece of the entry block. -/
def DefinedBefore (pre : List Piece) : List (List Piece) → Prop
  | [] => True
  | ps :: pss => (∀ qs p rs, ps = qs ++ p :: rs → ReplacedFrom (pre ++ qs) p) ∧
      ∀ ps' ∈ pss, ∀ p ∈ ps', ReplacedFrom (pre ++ ps) p

/-- `impl'` is `impl` lowered by the pass with the preamble `r` (its values, initial stack offset
and base address, and code): each value the preamble hands the walk, and its stack base address,
is defined by an instruction of its code calling no intrinsic the walk handles; the preamble's
instructions, leaving the stack base address as it is, and then the function's became pieces as
`RtLowersInstr` says; every use of a replaced value was rewritten once, to its replacement,
defined where `DefinedBefore` says; and no intrinsic the walk handles is left but the
trampoline's `load_uniform`. -/
structure RtLowered (stage : Stage) (r : (RtPreamble × Def × Def) × Builder) (impl impl' : Impl) :
    Prop where
  preamble : ∀ v ∈ r.1.1.defs ++ [r.1.2.2], ∃ j ∈ r.2.emitted, j.dest? = some v ∧
    ∀ op, j.intrinsic? = some op → RtKeeps op
  pieces : ∃ pre pss, RtLowersBlock stage r.1.1 r.1.2.2 r.2.emitted pre r.1.2.2 ∧
    RtLowersBlocks stage r.1.1 r.1.2.2 impl.blocks pss ∧
    impl'.blocks = (insertAtStart pre pss).map
      (realizeBlock (applyRewrites (rewritesOf (insertAtStart pre pss).flatten))) ∧
    RewritesHit (insertAtStart pre pss) ∧ DefinedBefore pre pss
  no_handled : ∀ blk ∈ impl'.blocks, ∀ j ∈ blk, RtPassesOver stage j

/-! ### One visit -/

section Visit

variable {E : RtEnv} {stage : Stage} {P : RtPreamble}

/-- Code the walk's helpers insert calls no intrinsic the walk handles. -/
theorem codeKeeps_run {α : Type} {m : BuildM α} {post : α → Prop}
    (h : Builds (Inserted (fun _ => True) RtWalkCall) m post) (n : Nat) :
    CodeKeeps (m ⟨n, []⟩).2.emitted :=
  fun j hj op hop => ((Inserted.run h fun _ _ => trivial).2.2 j hj).2 op hop

/-- A value a helper returns is given beforehand or defined by the code it inserts. -/
theorem definedIn_run {α : Type} {m : BuildM α} {vals : α → List Def} {S : Def → Prop}
    (h : BuildsIn (Inserted (fun _ => True) RtWalkCall) S RtKeeps m vals (fun _ => True))
    (n : Nat) : ∀ v ∈ vals (m ⟨n, []⟩).1, S v ∨ DefinedIn (m ⟨n, []⟩).2.emitted v :=
  fun v hv =>
  ((h ⟨n, []⟩ ⟨fun _ _ => trivial, fun _ h => nomatch h⟩).2.2 v hv).2.imp_right
    fun ⟨j, hj, hd, _⟩ => ⟨j, by simpa [Builder.newCode] using hj, hd⟩

theorem isSome_map_some {α : Type} (m : BuildM α) (b : Builder) : ((some <$> m) b).1.isSome :=
  rfl

theorem isSome_bind_map_some {α β : Type} (m : BuildM α) (k : α → BuildM β) (b : Builder) :
    ((m >>= fun a => some <$> k a) b).1.isSome :=
  rfl

/-- A system value its stage provides has a replacement. -/
theorem rtSysval_isSome (hE : E.Ok) (hP : P.Provides stage) {op : IntrinsicOp} {ix : Indices}
    (hh : rtHandles op) (hc : rtCase op = .sysval) (hpr : rtProvides stage op ix) (b : Builder) :
    (rtSysval E stage P op ix b).1.isSome := by
  have hrec : ∀ r, sysvalRecord stage op = some r → P.has r := fun r h => hP r (by
    simp only [rtProvides, h, Option.all_some, Bool.and_eq_true] at hpr
    exact hpr.1)
  have hcol : readsColumn op → ix.column < 4 := fun h => by
    simp only [rtProvides, h, Bool.not_true, Bool.false_or, Bool.and_eq_true,
      decide_eq_true_eq] at hpr
    exact hpr.2
  have hleaf : ∀ (hit : MemHitDefs) (field : InstanceLeafDefs → Option Def),
      (∀ leaf, (E.loadBvhInstanceLeaf hit.instLeafPtr b).1 = leaf → (field leaf).isSome) →
      (instanceLeafField E (some hit) field b).1.isSome := fun _ _ h => h _ rfl
  cases op <;> first | rfl | exact absurd hh Bool.false_ne_true | exact absurd hc (by decide) | skip
  all_goals dsimp only [rtSysval]
  case loadRayWorldOrigin | loadRayWorldDirection | loadRayTMin =>
    exact Option.isSome_map'.trans (hrec .worldRay rfl)
  case loadRayObjectOrigin | loadRayObjectDirection =>
    exact Option.isSome_map'.trans (hrec .objectRay rfl)
  case loadRayTMax =>
    by_cases hm : stage = .miss
    · rw [if_pos hm]
      exact Option.isSome_map'.trans (hrec .worldRay (congrArg some (if_pos hm)))
    · rw [if_neg hm]
      exact Option.isSome_map'.trans (hrec .hit (congrArg some (if_neg hm)))
  case loadRayFlags =>
    obtain ⟨ray, hray⟩ := Option.isSome_iff_exists.1 (hrec .worldRay rfl)
    rw [hray]
    exact isSome_map_some _ _
  case loadInstanceId | loadRayInstanceCustomIndex =>
    obtain ⟨hit, hhit⟩ := Option.isSome_iff_exists.1 (hrec .hit rfl)
    rw [hhit]
    exact hleaf _ _ fun _ _ => rfl
  case loadRayObjectToWorld | loadRayWorldToObject =>
    obtain ⟨hit, hhit⟩ := Option.isSome_iff_exists.1 (hrec .hit rfl)
    rw [if_pos (hcol rfl), hhit]
    refine hleaf _ _ fun leaf hl => ?_
    have hlen := hE.columns hit.instLeafPtr b
    rw [hl] at hlen
    simp [List.get?_eq_getElem?, hlen.1, hlen.2, hcol rfl]
  all_goals
    obtain ⟨hit, hhit⟩ := Option.isSome_iff_exists.1 (hrec .hit rfl)
    rw [hhit]
  case loadRayGeometryIndex => exact isSome_bind_map_some _ _ _
  all_goals exact isSome_map_some _ _

/-- An instruction without a destination that the walk is ready for is one it passes over. -/
theorem rtPassesOver_noDest {op : IntrinsicOp} {srcs : List Nat} {ix : Indices}
    (hi : rtInstrReady stage (.intrinsic op none srcs ix)) (h₁ : rtCase op ≠ .stackPush)
    (h₂ : rtCase op ≠ .resume) : RtPassesOver stage (.intrinsic op none srcs ix) := by
  rintro _ ⟨⟩
  cases hc : rtCase op with
  | stackPush => exact absurd hc h₁
  | resume => exact absurd hc h₂
  | scratchBasePtr => simp [rtInstrReady, hc] at hi
  | uniform => exact .inr ⟨rfl, by simpa [rtInstrReady, hc] using hi⟩
  | sysval => exact .inl (by simpa [rtInstrReady, hc] using hi)

theorem rtHandles_of_uniform {op : IntrinsicOp} (hc : rtCase op = .uniform) : rtHandles op := by
  cases op <;> first | rfl | cases hc

/-- Visiting an instruction the walk is ready for lowers it as `RtLowersInstr` says. -/
theorem lowerRtIntrinsicsInstr_lowers (hE : E.Ok) (hP : P.Provides stage) {i : Instr}
    (hi : rtInstrReady stage i) (c : Nat → Option Nat) (st : RtState) (n : Nat) :
    RtLowersInstr stage P st.stackBaseAddr i
      (pieceOf (lowerRtIntrinsicsInstr E stage P c i st ⟨n, []⟩))
      (lowerRtIntrinsicsInstr E stage P c i st ⟨n, []⟩).1.2.stackBaseAddr := by
  rw [lowerRtIntrinsicsInstr_eq]
  have hb := rtBranchOf stage i
  generalize rtBranch stage i = br at hb ⊢
  cases hb with
  | notIntrinsic h => exact .kept fun op h' => nomatch h.symm.trans h'
  | noDest h₁ h₂ => exact .kept (rtPassesOver_noDest hi h₁ h₂)
  | noSrc hc =>
    simp only [rtInstrReady, hc, Option.isSome_some, List.isEmpty_nil, Bool.not_true,
      Bool.and_false, Bool.or_false, decide_eq_true_eq] at hi
    exact .kept fun op h => .inr ⟨Option.some.inj h ▸ hc, hi⟩
  | trampoline hc hs => exact .kept fun op h => .inr ⟨Option.some.inj h ▸ hc, hs⟩
  | stackPush hc =>
    rw [rtVisit_stackPush_apply]
    exact .stackPush hc (codeKeeps_run (stackPush_builds trivial trivial _) n)
  | resume hc =>
    rw [rtVisit_resume_apply]
    exact .resume hc (codeKeeps_run (resume_builds trivial trivial ⟨trivial, trivial⟩ _) n)
      (definedIn_run (resume_addr trivial trivial ⟨trivial, trivial⟩ _) n _ (.head _))
  | scratchBasePtr hc => exact .scratchBasePtr hc
  | uniform hc _ =>
    rw [rtVisit_uniform_apply]
    exact .replaced (rtHandles_of_uniform hc) (.inl hc)
      (codeKeeps_run (lowerLoadUniform_builds (S := fun _ => False) fun _ => trivial).toBuilds n)
      (.inr ((definedIn_run (lowerLoadUniform_builds (S := fun _ => False) fun _ => trivial) n _
        (.head _)).resolve_left id))
  | @sysval op d srcs ix hc =>
    rw [rtVisit_sysval_apply]
    cases hh : rtHandles op
    · rw [rtSysval_of_keeps hh]
      exact .kept fun _ h => .inl (Option.some.inj h ▸ hh)
    · have hpr : rtProvides stage op ix := by simpa [rtInstrReady, hc, hh] using hi
      obtain ⟨v, hv⟩ := Option.isSome_iff_exists.1 (rtSysval_isSome hE hP hh hc hpr ⟨n, []⟩)
      have hb := @rtSysval_builds E stage (fun _ => True) hE P (fun _ _ => trivial) op ix
      have hsrc := definedIn_run hb n v (by rw [hv]; exact List.mem_singleton_self _)
      rw [hv]
      exact .replaced hh (.inr hc) (codeKeeps_run hb.toBuilds n) hsrc

end Visit

/-! ### The recorded walk -/

section Walk

variable {E : RtEnv} {stage : Stage} {P : RtPreamble}

/-- Along a block the walk is ready for, the recorded walk lowers each instruction as
`RtLowersInstr` says, from the stack base address its state holds. -/
theorem recordBlock_lowers (hE : E.Ok) (hP : P.Provides stage) (input : Nat → Option Nat) :
    ∀ blk : Block, (∀ i ∈ blk, rtInstrReady stage i) →
      ∀ (st : RtState) (n : Nat) (rws : List (Nat × Nat)),
      RtLowersBlock stage P st.stackBaseAddr blk
        (recordBlock (lowerRtIntrinsicsBodyD E stage P input) blk st n rws).1
        (recordBlock (lowerRtIntrinsicsBodyD E stage P input) blk st n rws).2.1.stackBaseAddr
  | [], _, _, _, _ => .nil
  | i :: blk, h, st, n, rws =>
    .cons (lowerRtIntrinsicsInstr_lowers hE hP (h i (.head _))
        (st.srcConst input ∘ applyRewrites rws) st n)
      (recordBlock_lowers hE hP input blk (fun j hj => h j (.tail _ hj))
        (lowerRtIntrinsicsBodyD E stage P input (applyRewrites rws) i st ⟨n, []⟩).1.2 _ _)

theorem recordBlocks_lowers (hE : E.Ok) (hP : P.Provides stage) (input : Nat → Option Nat) :
    ∀ blks : List Block, (∀ blk ∈ blks, ∀ i ∈ blk, rtInstrReady stage i) →
      ∀ (st : RtState) (n : Nat) (rws : List (Nat × Nat)),
      RtLowersBlocks stage P st.stackBaseAddr blks
        (recordBlocks (lowerRtIntrinsicsBodyD E stage P input) id blks st n rws).1
  | [], _, _, _, _ => .nil
  | blk :: blks, h, st, n, rws =>
    .cons (recordBlock_lowers hE hP input blk (h blk (.head _)) st n rws)
      (recordBlocks_lowers hE hP input blks (fun b hb => h b (.tail _ hb)) _ _ _)

end Walk

/-! ### Reading the description -/

section Lowers

variable {stage : Stage} {P : RtPreamble}

theorem DefinedIn.mem_defsOf {code : List Instr} {v : Def} (h : DefinedIn code v) :
    v.index ∈ defsOf code :=
  let ⟨j, hj, hd⟩ := h
  List.mem_filterMap.2 ⟨j, hj, by simp [hd]⟩

theorem mem_flatMap_defs_append_left {before : List Piece} {x : Nat}
    (h : x ∈ before.flatMap Piece.defs) (after : List Piece) :
    x ∈ (before ++ after).flatMap Piece.defs := by
  rw [List.flatMap_append]
  exact List.mem_append_left _ h

/-- What a lowered instruction keeps and inserts calls no intrinsic the walk handles, but the
trampoline's `load_uniform`. -/
theorem RtLowersInstr.passesOver {a a' : Def} {i : Instr} {p : Piece}
    (h : RtLowersInstr stage P a i p a') :
    ∀ j ∈ p.self.toList ++ p.code, RtPassesOver stage j := by
  cases h with
  | kept hk => rintro j (_ | ⟨_, ⟨⟩⟩); exact hk
  | scratchBasePtr => exact fun _ h => nomatch h
  | stackPush _ hc | resume _ hc _ | replaced _ _ hc _ =>
    exact fun j hj op hop => .inl (hc j (by simpa using hj) op hop)

theorem RtLowersBlock.passesOver {a a' : Def} {blk : Block} {ps : List Piece}
    (h : RtLowersBlock stage P a blk ps a') :
    ∀ p ∈ ps, ∀ j ∈ p.self.toList ++ p.code, RtPassesOver stage j := by
  induction h with
  | nil => exact fun _ h => nomatch h
  | cons hi _ ih =>
    rintro p (_ | ⟨_, hp⟩)
    exacts [hi.passesOver, ih p hp]

theorem RtLowersBlocks.passesOver {a : Def} {blks : List Block} {pss : List (List Piece)}
    (h : RtLowersBlocks stage P a blks pss) :
    ∀ ps ∈ pss, ∀ p ∈ ps, ∀ j ∈ p.self.toList ++ p.code, RtPassesOver stage j := by
  induction h with
  | nil => exact fun _ h => nomatch h
  | cons hb _ ih =>
    rintro ps (_ | ⟨_, hps⟩)
    exacts [hb.passesOver, ih ps hps]

/-- Only a resume moves the stack base address. -/
theorem RtLowersInstr.addr_eq {a a' : Def} {i : Instr} {p : Piece}
    (h : RtLowersInstr stage P a i p a') (hr : isResume i = false) : a' = a := by
  cases h with
  | resume hc => simp [isResume, Instr.intrinsic?, hc] at hr
  | _ => rfl

/-- An instruction calling no intrinsic the walk handles is kept, so the value it defines is
still defined. -/
theorem RtLowersInstr.eq_kept {a a' : Def} {i : Instr} {p : Piece}
    (h : RtLowersInstr stage P a i p a') (hk : ∀ op, i.intrinsic? = some op → RtKeeps op) :
    p = ⟨some i, [], none⟩ := by
  cases h with
  | kept => rfl
  | stackPush hc | resume hc | scratchBasePtr hc =>
    exact absurd (rtCase_of_keeps (hk _ rfl)) (by rw [hc]; decide)
  | replaced hh => exact absurd (hk _ rfl) (by simp [RtKeeps, hh])

theorem RtLowersBlock.mem_defs_of_keeps {a a' : Def} {blk : Block} {ps : List Piece}
    (h : RtLowersBlock stage P a blk ps a') {j : Instr} (hj : j ∈ blk)
    (hk : ∀ op, j.intrinsic? = some op → RtKeeps op) {v : Def} (hv : j.dest? = some v) :
    v.index ∈ ps.flatMap Piece.defs := by
  induction h with
  | nil => cases hj
  | cons hi _ ih =>
    rw [List.flatMap_cons]
    rcases List.mem_cons.1 hj with rfl | hj
    · rw [hi.eq_kept hk]
      exact List.mem_append_left _ (by simp [Piece.defs, hv])
    · exact List.mem_append_right _ (ih hj)

/-- A block with no resume leaves the stack base address alone. -/
theorem RtLowersBlock.addr_eq {a a' : Def} {blk : Block} {ps : List Piece}
    (h : RtLowersBlock stage P a blk ps a') (hr : ∀ i ∈ blk, isResume i = false) : a' = a := by
  induction h with
  | nil => rfl
  | cons hi _ ih => exact (ih fun j hj => hr j (.tail _ hj)).trans (hi.addr_eq (hr _ (.head _)))

section Replaced

/-! Where the replacements are defined, given pieces `before` that define the preamble's values. -/

variable {before : List Piece} (hP : ∀ v ∈ P.defs, v.index ∈ before.flatMap Piece.defs)
include hP

/-- One lowered instruction: its replacement is defined by its own code or by the pieces
`before` it, given that they define the preamble's values and the current stack base address;
and the stack base address after it is defined by them or by it. -/
theorem RtLowersInstr.replacedFrom {a a' : Def} {i : Instr} {p : Piece}
    (h : RtLowersInstr stage P a i p a') (ha : a.index ∈ before.flatMap Piece.defs) :
    ReplacedFrom before p ∧ a'.index ∈ (before ++ [p]).flatMap Piece.defs := by
  have hold := mem_flatMap_defs_append_left ha [p]
  cases h with
  | kept | stackPush => exact ⟨(fun _ h => nomatch h), hold⟩
  | resume _ _ ha' =>
    refine ⟨(fun _ h => nomatch h), ?_⟩
    rcases ha' with rfl | ha'
    · exact hold
    · simpa [Piece.defs] using .inr ha'.mem_defsOf
  | scratchBasePtr => exact ⟨fun r hr => by cases hr; exact .inr ha, hold⟩
  | replaced _ _ _ hv =>
    refine ⟨fun r hr => ?_, hold⟩
    cases hr
    exact hv.imp (fun hv => hP _ hv) DefinedIn.mem_defsOf |>.symm

/-- Along a lowered block, each replacement is defined by its piece's own code or by a piece
before it, given that the pieces `before` the block define the preamble's values and the stack
base address at its start; so is the stack base address at its end. -/
theorem RtLowersBlock.replacedFrom {a a' : Def} {blk : Block} {ps : List Piece}
    (h : RtLowersBlock stage P a blk ps a') (ha : a.index ∈ before.flatMap Piece.defs) :
    (∀ qs p rs, ps = qs ++ p :: rs → ReplacedFrom (before ++ qs) p) ∧
      a'.index ∈ (before ++ ps).flatMap Piece.defs := by
  induction h generalizing before with
  | nil => exact ⟨fun qs p rs h => by simp at h, by simpa using ha⟩
  | @cons a i p a₁ blk ps a' hi _ ih =>
    obtain ⟨hp, ha₁⟩ := hi.replacedFrom hP ha
    obtain ⟨ih₁, ih₂⟩ := ih (fun v hv => mem_flatMap_defs_append_left (hP v hv) [p]) ha₁
    refine ⟨fun qs q rs hq => ?_, by simpa using ih₂⟩
    cases qs with
    | nil =>
      obtain ⟨rfl, -⟩ := List.cons.inj hq
      simpa using hp
    | cons q' qs =>
      obtain ⟨rfl, hq'⟩ := List.cons.inj hq
      simpa using ih₁ qs q rs hq'

/-- In a block with no resume, each replacement is defined by its piece's own code or by the
pieces `before` the block. -/
theorem RtLowersBlock.replacedFrom_of_noResume {a a' : Def} {blk : Block} {ps : List Piece}
    (h : RtLowersBlock stage P a blk ps a') (hr : ∀ i ∈ blk, isResume i = false)
    (ha : a.index ∈ before.flatMap Piece.defs) :
    ∀ p ∈ ps, ReplacedFrom before p := by
  induction h with
  | nil => exact fun _ h => nomatch h
  | cons hi _ ih =>
    obtain rfl := hi.addr_eq (hr _ (.head _))
    rintro p (_ | ⟨_, hp⟩)
    exacts [(hi.replacedFrom hP ha).1, ih (fun j hj => hr j (.tail _ hj)) ha p hp]

theorem RtLowersBlocks.replacedFrom_of_noResume {a : Def} {blks : List Block}
    {pss : List (List Piece)} (h : RtLowersBlocks stage P a blks pss)
    (hr : ∀ blk ∈ blks, ∀ i ∈ blk, isResume i = false)
    (ha : a.index ∈ before.flatMap Piece.defs) :
    ∀ ps ∈ pss, ∀ p ∈ ps, ReplacedFrom before p := by
  induction h with
  | nil => exact fun _ h => nomatch h
  | cons hb _ ih =>
    obtain rfl := hb.addr_eq (hr _ (.head _))
    rintro ps (_ | ⟨_, hps⟩)
    exacts [hb.replacedFrom_of_noResume hP (hr _ (.head _)) ha,
      ih (fun b hb => hr b (.tail _ hb)) ha ps hps]

end Replaced

/-- A block of two parts is lowered part by part. -/
theorem RtLowersBlock.append {a a' : Def} {blk₁ blk₂ : Block} {ps : List Piece}
    (h : RtLowersBlock stage P a (blk₁ ++ blk₂) ps a') :
    ∃ ps₁ ps₂ a₁, ps = ps₁ ++ ps₂ ∧ RtLowersBlock stage P a blk₁ ps₁ a₁ ∧
      RtLowersBlock stage P a₁ blk₂ ps₂ a' := by
  induction blk₁ generalizing a ps with
  | nil => exact ⟨[], ps, a, rfl, .nil, h⟩
  | cons i blk₁ ih =>
    cases h with
    | cons hi hrest =>
      obtain ⟨ps₁, ps₂, a₁, rfl, h₁, h₂⟩ := ih hrest
      exact ⟨_ :: ps₁, ps₂, a₁, rfl, .cons hi h₁, h₂⟩

/-- The blocks of a function with code inserted at the top of its entry block, lowered: the
pieces of that code, which has no resume, put before those of the entry block. -/
theorem RtLowersBlocks.insertAtStart {a : Def} {pre : Block} {blks : List Block}
    {pss : List (List Piece)} (h : RtLowersBlocks stage P a (insertAtStart pre blks) pss)
    (hr : ∀ i ∈ pre, isResume i = false) :
    ∃ psPre pss', pss = insertAtStart psPre pss' ∧ RtLowersBlock stage P a pre psPre a ∧
      RtLowersBlocks stage P a blks pss' := by
  cases blks with
  | nil =>
    rw [Rt.insertAtStart] at h
    obtain _ | ⟨hb, _ | _⟩ := h
    obtain rfl := hb.addr_eq hr
    exact ⟨_, [], rfl, hb, .nil⟩
  | cons b blks =>
    rw [Rt.insertAtStart] at h
    obtain _ | ⟨hb, hrest⟩ := h
    obtain ⟨ps₁, ps₂, a₁, rfl, h₁, h₂⟩ := hb.append
    obtain rfl := h₁.addr_eq hr
    exact ⟨ps₁, ps₂ :: _, rfl, h₁, .cons h₂ hrest⟩

/-- The replacements of the blocks of a function are defined where `DefinedBefore` says, given
pieces `pre` before them that define the preamble's values and the initial stack base address,
if no block but the entry block has a resume. -/
theorem RtLowersBlocks.definedBefore {a : Def} {blks : List Block} {pss : List (List Piece)}
    (h : RtLowersBlocks stage P a blks pss)
    (hr : ∀ blk ∈ blks.drop 1, ∀ i ∈ blk, isResume i = false) {pre : List Piece}
    (hP : ∀ v ∈ P.defs, v.index ∈ pre.flatMap Piece.defs)
    (ha : a.index ∈ pre.flatMap Piece.defs) : DefinedBefore pre pss := by
  cases h with
  | nil => trivial
  | cons hb hbs =>
    obtain ⟨h₁, h₂⟩ := hb.replacedFrom hP ha
    exact ⟨h₁, hbs.replacedFrom_of_noResume
      (fun v hv => mem_flatMap_defs_append_left (hP v hv) _) hr h₂⟩

end Lowers

/-! ### The preamble -/

section Preamble

variable {E : RtEnv}

/-- The preamble holds every record its stage loads. -/
theorem rtPreamble_provides (E : RtEnv) (stage : Stage) (b : Builder) :
    (rtPreamble E stage b).1.1.Provides stage := by
  intro r hr
  cases stage <;> cases r <;> first | rfl | exact absurd hr Bool.false_ne_true

/-- The preamble's code: built from the cursor on; calling no intrinsic the walk handles but
system values of the dispatch globals that define a value; defining each value it hands the walk,
and its initial stack offset and base address, by an instruction calling none. -/
theorem rtPreamble_code (hE : E.Ok) (stage : Stage) (n : Nat) :
    Builder.Grows ⟨n, []⟩ (rtPreamble E stage ⟨n, []⟩).2 ∧
      (∀ j ∈ (rtPreamble E stage ⟨n, []⟩).2.emitted, ∀ op, j.intrinsic? = some op →
        RtPreambleCall op j.dest?.isSome) ∧
      ∀ v ∈ (rtPreamble E stage ⟨n, []⟩).1.1.defs ++
          [(rtPreamble E stage ⟨n, []⟩).1.2.1, (rtPreamble E stage ⟨n, []⟩).1.2.2],
        ∃ j ∈ (rtPreamble E stage ⟨n, []⟩).2.emitted, j.dest? = some v ∧
          ∀ op, j.intrinsic? = some op → RtKeeps op := by
  obtain ⟨hins, hg, hv⟩ := @rtPreamble_builds E stage (fun _ => True) (fun _ => False) hE
    ⟨n, []⟩ ⟨fun _ _ => trivial, fun _ h => nomatch h⟩
  exact ⟨hg, fun j hj => (hins.code_ok j hj).2, fun v hv' => ((hv v hv').2.resolve_left id).imp
    fun j hj => ⟨by simpa [Builder.newCode] using hj.1, hj.2⟩⟩

theorem rtGlobalsSysval_spec {op : IntrinsicOp} (h : rtGlobalsSysval op) :
    rtHandles op ∧ rtCase op = .sysval ∧ ∀ stage ix, rtProvides stage op ix := by
  cases op <;> first | exact ⟨rfl, rfl, fun _ _ => rfl⟩ | exact absurd h Bool.false_ne_true

/-- An instruction of the preamble is one the walk is ready for, and no resume. -/
theorem rtInstrReady_of_preambleCall (stage : Stage) {j : Instr}
    (h : ∀ op, j.intrinsic? = some op → RtPreambleCall op j.dest?.isSome) :
    rtInstrReady stage j ∧ isResume j = false := by
  cases j with
  | intrinsic op dest srcs ix =>
    rcases h op rfl with hk | ⟨hg, hd⟩
    · have hk' : rtHandles op = false := hk
      simp [rtInstrReady, isResume, Instr.intrinsic?, rtCase_of_keeps hk, hk']
    · obtain ⟨hh, hc, hpr⟩ := rtGlobalsSysval_spec hg
      simp only [Instr.dest?] at hd
      simp [rtInstrReady, isResume, Instr.intrinsic?, hc, hh, hd, hpr]
  | _ => exact ⟨rfl, rfl⟩

theorem flatten_insertAtStart {α : Type} (code : List α) (bs : List (List α)) :
    (insertAtStart code bs).flatten = code ++ bs.flatten := by
  cases bs <;> simp [insertAtStart]

/-- Code built from `ssa_alloc` on and inserted at the top of the entry block keeps a function in
SSA form. -/
theorem ssaOk_insertAtStart {impl : Impl} (h : impl.SsaOk) {b : Builder}
    (hg : Builder.Grows ⟨impl.ssaAlloc, []⟩ b) :
    Impl.SsaOk ⟨insertAtStart b.emitted impl.blocks, b.ssaAlloc⟩ := by
  have hnd : (defsOf b.emitted).Nodup := hg.defs_nodup
  have hr : ∀ x ∈ defsOf b.emitted, impl.ssaAlloc ≤ x ∧ x < b.ssaAlloc := hg.defs_range
  constructor <;> simp only [flatten_insertAtStart, defsOf_append]
  · exact List.nodup_append.2
      ⟨hnd, h.nodup, fun x hx hx' => absurd (h.lt x hx') (not_lt.2 (hr x hx).1)⟩
  · intro x hx
    rcases List.mem_append.1 hx with hx | hx
    exacts [(hr x hx).2, lt_of_lt_of_le (h.lt x hx) hg.alloc_le]

end Preamble

/-! ### The pass -/

section Pass

variable {E : RtEnv} {stage : Stage}

/-- `lower_rt_intrinsics_impl` on a function in SSA form is its recorded walk, realized: the walk
of the function with the preamble at the top of its entry block, from the preamble's stack offset
and base address; each rewrite then sends its value where it asked. -/
theorem lowerRtIntrinsicsImpl_eq_realize (hE : E.Ok) {impl : Impl} (h : impl.SsaOk) :
    let r := rtPreamble E stage ⟨impl.ssaAlloc, []⟩
    let w := recordBlocks (lowerRtIntrinsicsBodyD E stage r.1.1 (inputConsts impl)) id
      (insertAtStart r.2.emitted impl.blocks) ⟨r.1.2.1, r.1.2.2, constsOf r.2.emitted⟩
      r.2.ssaAlloc []
    lowerRtIntrinsicsImpl E stage impl = (realizeRecord w).1 ∧ RewritesHit w.1 := by
  intro r w
  obtain ⟨hg, -, hdef⟩ := rtPreamble_code hE stage impl.ssaAlloc
  have hssa := ssaOk_insertAtStart h hg
  set pinned : Nat → Prop := fun x => ∃ v ∈ r.1.1.defs ++ [r.1.2.1, r.1.2.2], v.index = x
  have hP : ∀ v ∈ r.1.1.defs, r.2.ssaAlloc ≤ v.index ∨ pinned v.index :=
    fun v hv => .inr ⟨v, List.mem_append_left _ hv, rfl⟩
  have hpin : ∀ i ∈ (insertAtStart r.2.emitted impl.blocks).flatten,
      PinKept (RtState.Avail fun x => r.2.ssaAlloc ≤ x ∨ pinned x) r.2.ssaAlloc pinned
        (lowerRtIntrinsicsBodyD E stage r.1.1 (inputConsts impl)) i := by
    rintro i hi d hd ⟨v, hv, hvd⟩ f s n - -
    obtain ⟨j, hj, hjd, hjk⟩ := hdef v hv
    obtain rfl := eq_of_dest_index hssa.nodup hi
      (by rw [flatten_insertAtStart]; exact List.mem_append_left _ hj) hd hjd hvd.symm
    show (lowerRtIntrinsicsInstr E stage r.1.1 _ i s ⟨n, []⟩).1.1.rewrite = none
    rw [lowerRtIntrinsicsInstr_of_keeps hjk]
  obtain ⟨heq, hrw⟩ := walkImpl_eq_realize
    (lowerRtIntrinsicsBody_deferrable hE hP (inputConsts impl)) hssa hpin
    ⟨r.1.2.1, r.1.2.2, constsOf r.2.emitted⟩
    ⟨.inr ⟨_, by simp, rfl⟩, .inr ⟨_, by simp, rfl⟩⟩
  exact ⟨congrArg Prod.fst heq, hrw⟩

/-- `lower_rt_intrinsics_impl` lowers a function ready for it as `RtLowered` says. -/
theorem lowerRtIntrinsicsImpl_lowers (hE : E.Ok) {impl : Impl} (h : RtReady stage impl) :
    RtLowered stage (rtPreamble E stage ⟨impl.ssaAlloc, []⟩) impl (lowerRtIntrinsicsImpl E stage impl) := by
  obtain ⟨heq, hrw⟩ := @lowerRtIntrinsicsImpl_eq_realize E stage hE impl h.ssa
  obtain ⟨-, hcode, hdef⟩ := rtPreamble_code hE stage impl.ssaAlloc
  set r := rtPreamble E stage ⟨impl.ssaAlloc, []⟩
  have hpre : ∀ j ∈ r.2.emitted, rtInstrReady stage j ∧ isResume j = false :=
    fun j hj => rtInstrReady_of_preambleCall stage (hcode j hj)
  have hready : ∀ blk ∈ insertAtStart r.2.emitted impl.blocks, ∀ i ∈ blk,
      rtInstrReady stage i := by
    intro blk hblk i hi
    have hi' : i ∈ (insertAtStart r.2.emitted impl.blocks).flatten :=
      List.mem_flatten.2 ⟨blk, hblk, hi⟩
    rw [flatten_insertAtStart, List.mem_append, List.mem_flatten] at hi'
    rcases hi' with hi' | ⟨b, hb, hi'⟩
    exacts [(hpre i hi').1, h.instrs b hb i hi']
  have hl := recordBlocks_lowers hE (rtPreamble_provides E stage ⟨impl.ssaAlloc, []⟩)
    (inputConsts impl) _ hready ⟨r.1.2.1, r.1.2.2, constsOf r.2.emitted⟩ r.2.ssaAlloc []
  obtain ⟨psPre, pss, hpss, hpre', hblks⟩ := hl.insertAtStart fun i hi => (hpre i hi).2
  have hkept : ∀ v ∈ r.1.1.defs ++ [r.1.2.1, r.1.2.2], v.index ∈ psPre.flatMap Piece.defs :=
      fun v hv => by
    obtain ⟨j, hj, hjd, hjk⟩ := hdef v hv
    exact hpre'.mem_defs_of_keeps hj hjk hjd
  rw [heq]
  refine ⟨fun v hv => hdef v ?_, ⟨psPre, pss, hpre', hblks, by rw [← hpss]; rfl, hpss ▸ hrw,
    hblks.definedBefore h.resumes (fun v hv => hkept v (List.mem_append_left _ hv))
      (hkept _ (by simp))⟩, ?_⟩
  · rcases List.mem_append.1 hv with hv | hv
    · exact List.mem_append_left _ hv
    · exact List.mem_append_right _ (List.mem_cons_of_mem _ hv)
  · intro blk hblk j hj op hop
    obtain ⟨ps, hps, rfl⟩ := List.mem_map.1 hblk
    obtain ⟨p, hp, k, hk, f, rfl⟩ := mem_realizeBlock hj
    exact hl.passesOver ps hps p hp k hk op (by simpa using hop)

end Pass

/-! ### A closest-hit shader -/

/-- Helpers of `brw_nir_rt_builder.h` that load each record as one constant for all its fields:
the simplest that meet `RtEnv.Ok`. -/
def constRtEnv : RtEnv where
  loadGlobals := do
    let x ← nirImmIntN 0 64
    pure ⟨x, x, x, x, x, x, x, x, x, x, x⟩
  swHotzoneAddr := nirImmIntN 0 64
  loadMemHit _ := do
    let x ← nirImmIntN 0 32
    pure ⟨x, x, x, x, x, x, x⟩
  loadMemRay _ := do
    let x ← nirImmIntN 0 32
    pure ⟨x, x, x, x, x⟩
  swStackAddr := nirImmIntN 0 64
  loadBvhInstanceLeaf _ := do
    let x ← nirImmIntN 0 32
    pure ⟨[x, x, x, x], [x, x, x, x], x, x⟩
  bvhNodeTypeProcedural := 3
  hitKindFrontFace := 0xf
  hitKindBackFace := 0xe
  pushConstOffset := 128
  relocResumeSbtAddrLow := 0
  relocResumeSbtAddrHigh := 0
  lowerBitops := false

theorem constRtEnv_ok : constRtEnv.Ok where
  loadGlobals _ _ _ _ := .bindIn Inserted.nirImmIntNIn fun x hx => .pure fun v hv => by
    obtain rfl : v = x := by simpa [RtGlobalsDefs.defs] using hv
    exact ⟨hx v (.head _), .inr (.head _)⟩
  swHotzoneAddr _ _ _ _ := Inserted.nirImmIntNIn
  loadMemHit _ _ _ _ _ := .bindIn Inserted.nirImmIntNIn fun x hx => .pure fun v hv => by
    obtain rfl : v = x := by simpa [MemHitDefs.defs] using hv
    exact ⟨hx v (.head _), .inr (.head _)⟩
  loadMemRay _ _ _ _ _ := .bindIn Inserted.nirImmIntNIn fun x hx => .pure fun v hv => by
    obtain rfl : v = x := by simpa [MemRayDefs.defs] using hv
    exact ⟨hx v (.head _), .inr (.head _)⟩
  swStackAddr _ _ _ _ := Inserted.nirImmIntNIn
  loadBvhInstanceLeaf _ _ _ _ _ := .bindIn Inserted.nirImmIntNIn fun x hx => .pure fun v hv => by
    obtain rfl : v = x := by simpa [InstanceLeafDefs.defs] using hv
    exact ⟨hx v (.head _), .inr (.head _)⟩
  columns _ _ := ⟨rfl, rfl⟩

/-- A closest-hit shader that resumes a 16-byte frame, reads the world-space origin and its stack
base, and calls with the frame pushed again; in a later block it reads `t_max` and the stack
base. -/
theorem lowerRtIntrinsicsImpl_lowers_closestHit :
    let impl : Impl := ⟨[[.intrinsic .btdResumeIntel none [] { Indices.none with range := 16 },
        .intrinsic .loadRayWorldOrigin (some ⟨0, 3, 32⟩) [] .none,
        .intrinsic .loadScratchBasePtr (some ⟨1, 1, 64⟩) [] { Indices.none with base := 1 },
        .other none [0, 1],
        .intrinsic .btdStackPushIntel none [] { Indices.none with range := 16 }],
      [.intrinsic .loadRayTMax (some ⟨2, 1, 32⟩) [] .none,
        .intrinsic .loadScratchBasePtr (some ⟨3, 1, 64⟩) [] { Indices.none with base := 1 },
        .other none [2, 3]]], 4⟩
    RtReady .closestHit impl ∧
      RtLowered .closestHit (rtPreamble constRtEnv .closestHit ⟨impl.ssaAlloc, []⟩) impl
        (lowerRtIntrinsicsImpl constRtEnv .closestHit impl) :=
  ⟨by decide, lowerRtIntrinsicsImpl_lowers constRtEnv_ok (by decide)⟩

end MesaSim.Rt
