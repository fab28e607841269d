import MesaSim.Cs.Deferred

/-!
# What `brw_nir_lower_cs_intrinsics` does to a shader

Read off the recorded walk of `MesaSim.Cs.Deferred`: block by block, each instruction of the
input becomes one piece of the output as `CsLowersBlock` describes (kept, narrowed with its
zero extension after it, or replaced by code computing its value in its place, the pair
`(local_index, local_id)` once per block at its first use), and every use of a replaced
value is rewritten once to its replacement.
-/

namespace MesaSim.Cs
open MesaSim.Nir

/-- The piece of a replaced intrinsic with destination `d` (`:187–193`): the code computing
its value `v`, then a zero extension to the 64-bit value `w` if `d` is 64-bit, and the
rewrite of `d` to the result. -/
def replacedPiece (code : List Instr) (d v : Def) (w : Nat) : Piece :=
  if d.bitSize = 64 then
    ⟨none, code ++ [.alu .u2u64 ⟨w, v.numComponents, 64⟩ [v.index]], some (.all d.index w)⟩
  else ⟨none, code, some (.all d.index v.index)⟩

/-- How the pass lowers a block, instruction by instruction: `pair` is the
`(local_index, local_id)` the block has computed so far, `none` before its first
`load_local_invocation_index` or `load_local_invocation_id`. -/
inductive CsLowersBlock (cs : CsInfo) : Option (Def × Def) → Block → List Piece → Prop
  | nil {pair} : CsLowersBlock cs pair [] []
  /-- An instruction the pass leaves alone is kept. -/
  | kept {pair i blk ps} : CsKept i → CsLowersBlock cs pair blk ps →
      CsLowersBlock cs pair (i :: blk) (⟨some i, [], none⟩ :: ps)
  /-- A 64-bit `load_local_group_size`, `load_work_group_id` or `load_num_work_groups` becomes
  a 32-bit load followed by its zero extension `w`, which every use but that one reads. -/
  | narrow {pair op d srcs ix blk ps} (w : Nat) : csCase op = .narrow → d.bitSize = 64 →
      CsLowersBlock cs pair blk ps →
      CsLowersBlock cs pair (.intrinsic op (some d) srcs ix :: blk)
        (⟨some (.intrinsic op (some { d with bitSize := 32 }) srcs ix),
          [.alu .u2u64 ⟨w, d.numComponents, 64⟩ [d.index]], some (.after d.index w)⟩ :: ps)
  /-- The block's first `load_local_invocation_index` or `load_local_invocation_id` is replaced,
  in its place, by the code computing the pair, which the rest of the block reuses. -/
  | firstLocalId {op d srcs ix blk ps} (isId : Bool) (m w : Nat) : csCase op = .localIds isId →
      CsLowersBlock cs (some (computeLocalIds cs ⟨m, []⟩).1) blk ps →
      CsLowersBlock cs none (.intrinsic op (some d) srcs ix :: blk)
        (replacedPiece (computeLocalIds cs ⟨m, []⟩).2.emitted d
          (if isId then (computeLocalIds cs ⟨m, []⟩).1.2 else (computeLocalIds cs ⟨m, []⟩).1.1) w :: ps)
  /-- A later one reads the pair already computed, inserting no code but a zero extension. -/
  | localId {pair op d srcs ix blk ps} (isId : Bool) (w : Nat) : csCase op = .localIds isId →
      CsLowersBlock cs (some pair) blk ps →
      CsLowersBlock cs (some pair) (.intrinsic op (some d) srcs ix :: blk)
        (replacedPiece [] d (if isId then pair.2 else pair.1) w :: ps)
  /-- `load_num_subgroups` is replaced, in its place, by the rounded-up division. -/
  | numSubgroups {pair op d srcs ix blk ps} (m w : Nat) : csCase op = .numSubgroups →
      CsLowersBlock cs pair blk ps →
      CsLowersBlock cs pair (.intrinsic op (some d) srcs ix :: blk)
        (replacedPiece (computeNumSubgroups cs ⟨m, []⟩).2.emitted d (computeNumSubgroups cs ⟨m, []⟩).1 w
          :: ps)

/-- Whether an instruction is a `load_local_invocation_index`, `load_local_invocation_id` or
`load_num_subgroups`. -/
def loadsRemoved (i : Instr) : Bool :=
  match i.intrinsic? with
  | some op => csRemoves op
  | none => false

@[simp] theorem loadsRemoved_mapSrcs (f : Nat → Nat) (i : Instr) :
    loadsRemoved (i.mapSrcs f) = loadsRemoved i := by
  simp [loadsRemoved]

theorem loadsRemoved_eq_false {i : Instr} (h : ∀ op, i.intrinsic? = some op → csRemoves op = false) :
    loadsRemoved i = false := by
  unfold loadsRemoved
  split
  · exact h _ ‹_›
  · rfl

/-- The loads the pass removes define a value, as NIR's table of intrinsics requires. -/
def RemovedLoadsDefine (blk : Block) : Prop := ∀ i ∈ blk, loadsRemoved i = true → i.dest?.isSome

instance : DecidablePred RemovedLoadsDefine :=
  fun blk => inferInstanceAs (Decidable (∀ i ∈ blk, loadsRemoved i = true → i.dest?.isSome))

/-- What the pass needs of a function: SSA form, and a value defined by each load it removes. -/
structure CsReady (impl : Impl) : Prop where
  ssa : impl.SsaOk
  dests : ∀ blk ∈ impl.blocks, RemovedLoadsDefine blk

instance (impl : Impl) : Decidable (CsReady impl) :=
  decidable_of_iff (impl.SsaOk ∧ ∀ blk ∈ impl.blocks, RemovedLoadsDefine blk)
    ⟨fun h => ⟨h.1, h.2⟩, fun h => ⟨h.1, h.2⟩⟩

/-- `impl'` is `impl` lowered by the pass: each block became the pieces `CsLowersBlock`
describes, starting with no pair; every use of a replaced value was rewritten once, to its
replacement, but in the zero extension inserted after a narrowed load; and no
`load_local_invocation_index`, `load_local_invocation_id` or `load_num_subgroups` is left. -/
structure CsLowered (cs : CsInfo) (impl impl' : Impl) : Prop where
  pieces : ∃ ps : List (List Piece), List.Forall₂ (CsLowersBlock cs none) impl.blocks ps ∧
    impl'.blocks = ps.map (realizeBlock (applyRewrites (rewritesOf ps.flatten))) ∧
    ∀ d w, (d, w) ∈ rewritesOf ps.flatten → applyRewrites (rewritesOf ps.flatten) d = w
  no_removed : ∀ blk ∈ impl'.blocks, ∀ j ∈ blk, loadsRemoved j = false

/-! ### The recorded pieces -/

theorem pieceOf_replaceIntrinsic (d v : Def) (st : CsState) (b : Builder) :
    pieceOf (replaceIntrinsic d v st b) = replacedPiece b.emitted d v b.ssaAlloc := by
  rw [replaceIntrinsic_apply, replacedPiece]
  split <;> rfl

@[simp] theorem replaceIntrinsic_state (d v : Def) (st : CsState) (b : Builder) :
    (replaceIntrinsic d v st b).1.2 = { st with progress := true } := by
  rw [replaceIntrinsic_apply]
  split <;> rfl

theorem lowerCsIntrinsicsConvertInstr_localIds (cs : CsInfo) {op : IntrinsicOp} {isId : Bool}
    (hc : csCase op = .localIds isId) (d : Def) (srcs : List Nat) (ix : Indices) (st : CsState)
    (b : Builder) :
    lowerCsIntrinsicsConvertInstr cs (.intrinsic op (some d) srcs ix) st b =
      replaceIntrinsic d (if isId then (localIds cs st b).1.2 else (localIds cs st b).1.1)
        { st with cache := some (localIds cs st b).1 } (localIds cs st b).2 := by
  simp only [lowerCsIntrinsicsConvertInstr, hc]
  rfl

theorem lowerCsIntrinsicsConvertInstr_numSubgroups (cs : CsInfo) {op : IntrinsicOp}
    (hc : csCase op = .numSubgroups) (d : Def) (srcs : List Nat) (ix : Indices) (st : CsState)
    (b : Builder) :
    lowerCsIntrinsicsConvertInstr cs (.intrinsic op (some d) srcs ix) st b =
      replaceIntrinsic d (computeNumSubgroups cs b).1 st (computeNumSubgroups cs b).2 := by
  simp only [lowerCsIntrinsicsConvertInstr, hc]
  rfl

/-- Along a block, the recorded walk lowers each instruction as `CsLowersBlock` says, from
the pair the state holds. -/
theorem recordBlock_lowers (cs : CsInfo) (blk : Block) :
    ∀ (st : CsState) (n : Nat) (rws : List (Nat × Nat)),
      CsLowersBlock cs st.cache blk (recordBlock (fun _ => lowerCsIntrinsicsConvertInstr cs) blk st n rws).1 := by
  induction blk with
  | nil => exact fun _ _ _ => .nil
  | cons i blk ih =>
    intro st n rws
    simp only [recordBlock]
    rcases csKept_or i with hk | ⟨op, d, srcs, ix, rfl, hc, h64⟩ | ⟨op, d, srcs, ix, rfl, hrem⟩
    · rw [lowerCsIntrinsicsConvertInstr_kept cs hk]
      exact .kept hk (ih st n _)
    · rw [lowerCsIntrinsicsConvertInstr_narrow cs hc h64]
      exact .narrow n hc h64 (ih st (n + 1) _)
    · cases hc : csCase op with
      | localIds isId =>
        rw [lowerCsIntrinsicsConvertInstr_localIds cs hc]
        cases hcache : st.cache with
        | none =>
          simp only [localIds, hcache, pieceOf_replaceIntrinsic, replaceIntrinsic_state]
          exact .firstLocalId isId n _ hc (ih ⟨some _, true⟩ _ _)
        | some p =>
          simp only [localIds, hcache, pieceOf_replaceIntrinsic, replaceIntrinsic_state]
          exact .localId isId _ hc (ih ⟨some p, true⟩ _ _)
      | numSubgroups =>
        rw [lowerCsIntrinsicsConvertInstr_numSubgroups cs hc, pieceOf_replaceIntrinsic,
          replaceIntrinsic_state]
        exact .numSubgroups n _ hc (ih { st with progress := true } _ _)
      | narrow | skip => simp [csRemoves, hc] at hrem

theorem recordBlocks_lowers (cs : CsInfo) (blks : List Block) :
    ∀ (st : CsState) (n : Nat) (rws : List (Nat × Nat)), List.Forall₂ (CsLowersBlock cs none) blks
      (recordBlocks (fun _ => lowerCsIntrinsicsConvertInstr cs) enterBlock blks st n rws).1 := by
  induction blks with
  | nil => exact fun _ _ _ => .nil
  | cons blk blks ih =>
    exact fun st n rws => .cons (recordBlock_lowers cs blk (enterBlock st) n rws) (ih _ _ _)

/-! ### No removed intrinsic is left -/

/-- A kept instruction is not one the pass removes, if those define a value. -/
theorem CsKept.not_loadsRemoved {i : Instr} (hk : CsKept i)
    (hd : loadsRemoved i = true → i.dest?.isSome) : loadsRemoved i = false := by
  rcases i with ⟨op, _ | d, srcs, ix⟩ | _ | _ | _
  · cases h : loadsRemoved (.intrinsic op none srcs ix)
    · rfl
    · simpa [Instr.dest?] using hd h
  · exact loadsRemoved_eq_false fun _ h => by cases h; exact (hk _ _ _ _ rfl).1
  all_goals rfl

theorem replacedPiece_loadsRemoved {code : List Instr} (hcode : ∀ j ∈ code, loadsRemoved j = false)
    (d v : Def) (w : Nat) :
    ∀ j ∈ (replacedPiece code d v w).self.toList ++ (replacedPiece code d v w).code,
      loadsRemoved j = false := by
  intro j hj
  unfold replacedPiece at hj
  split at hj <;>
    simp only [Option.toList, List.nil_append, List.mem_append, List.mem_singleton] at hj
  · rcases hj with hj | rfl
    · exact hcode j hj
    · rfl
  · exact hcode j hj

/-- Code checked against `Inserted` with `CsKeeps` loads no removed value. -/
theorem inserted_loadsRemoved {α : Type} {m : BuildM α} {post : α → Prop} {n : Nat}
    (h : Builds (Inserted (n ≤ ·) fun op _ => CsKeeps op) m post) : ∀ j ∈ (m ⟨n, []⟩).2.emitted, loadsRemoved j = false :=
  fun j hj => loadsRemoved_eq_false ((Inserted.run h fun _ hx => hx).2.2 j hj).2

/-- What a lowered block keeps and inserts loads none of the removed values. -/
theorem CsLowersBlock.pieces_loadsRemoved {cs : CsInfo} {pair : Option (Def × Def)} {blk : Block}
    {ps : List Piece} (h : CsLowersBlock cs pair blk ps) (hd : RemovedLoadsDefine blk) :
    ∀ p ∈ ps, ∀ j ∈ p.self.toList ++ p.code, loadsRemoved j = false := by
  induction h with
  | nil => intro p hp; cases hp
  | kept hk _ ih =>
    rintro p (_ | ⟨_, hp⟩)
    · simp only [Option.toList, List.append_nil, List.mem_singleton]
      rintro j rfl
      exact hk.not_loadsRemoved (hd _ (.head _))
    · exact ih (fun i hi => hd i (.tail _ hi)) p hp
  | narrow w hc _ _ ih =>
    rintro p (_ | ⟨_, hp⟩)
    · simp only [Option.toList, List.singleton_append, List.mem_cons, List.mem_singleton,
        List.not_mem_nil, or_false]
      rintro j (rfl | rfl)
      · simp [loadsRemoved, Instr.intrinsic?, csRemoves, hc]
      · rfl
    · exact ih (fun i hi => hd i (.tail _ hi)) p hp
  | firstLocalId isId m w _ _ ih =>
    rintro p (_ | ⟨_, hp⟩)
    · exact replacedPiece_loadsRemoved (inserted_loadsRemoved (computeLocalIds_builds cs m)) _ _ _
    · exact ih (fun i hi => hd i (.tail _ hi)) p hp
  | localId isId w _ _ ih =>
    rintro p (_ | ⟨_, hp⟩)
    · refine replacedPiece_loadsRemoved ?_ _ _ _
      exact fun _ h => nomatch h
    · exact ih (fun i hi => hd i (.tail _ hi)) p hp
  | numSubgroups m w _ _ ih =>
    rintro p (_ | ⟨_, hp⟩)
    · exact replacedPiece_loadsRemoved (inserted_loadsRemoved (computeNumSubgroups_builds cs m)) _ _ _
    · exact ih (fun i hi => hd i (.tail _ hi)) p hp

/-- Realizing pieces renames sources only: what they load stays what it was. -/
theorem realizeBlock_loadsRemoved {ps : List Piece}
    (hps : ∀ p ∈ ps, ∀ j ∈ p.self.toList ++ p.code, loadsRemoved j = false) (τ : Nat → Nat) :
    ∀ j ∈ realizeBlock τ ps, loadsRemoved j = false := by
  intro j hj
  obtain ⟨p, hp, hj⟩ := List.mem_flatMap.1 hj
  unfold Piece.realize at hj
  rcases List.mem_append.1 hj with hj | hj
  · obtain ⟨j', hj', rfl⟩ := List.mem_map.1 hj
    simpa using hps p hp j' (List.mem_append_left _ hj')
  · split at hj
    · exact hps p hp j (List.mem_append_right _ hj)
    · obtain ⟨j', hj', rfl⟩ := List.mem_map.1 hj
      simpa using hps p hp j' (List.mem_append_right _ hj')

theorem forall₂_pieces_loadsRemoved {cs : CsInfo} {blks : List Block} {ps : List (List Piece)}
    (h : List.Forall₂ (CsLowersBlock cs none) blks ps) (hd : ∀ blk ∈ blks, RemovedLoadsDefine blk) :
    ∀ p ∈ ps, ∀ q ∈ p, ∀ j ∈ q.self.toList ++ q.code, loadsRemoved j = false := by
  induction h with
  | nil => exact fun _ h => nomatch h
  | cons hb _ ih =>
    rintro p (_ | ⟨_, hp⟩)
    · exact hb.pieces_loadsRemoved (hd _ (.head _))
    · exact ih (fun b hb => hd b (.tail _ hb)) p hp

/-! ### The pass -/

/-- `lower_cs_intrinsics_convert_impl` lowers a function ready for it, from any state. -/
theorem lowerCsIntrinsicsConvertImpl_lowers (cs : CsInfo) {impl : Impl} (h : CsReady impl)
    (st : CsState) : CsLowered cs impl (lowerCsIntrinsicsConvertImpl cs impl st).1 := by
  obtain ⟨heq, hrw⟩ :=
    walkImpl_eq_realize (lowerCsIntrinsicsConvertInstr_deferrable cs impl.ssaAlloc) h.ssa
      (fun _ _ _ _ h => h.elim) st fun _ h => nomatch h
  have hl := recordBlocks_lowers cs impl.blocks st impl.ssaAlloc []
  rw [lowerCsIntrinsicsConvertImpl, heq]
  refine ⟨⟨_, hl, rfl, hrw⟩, fun blk hblk j hj => ?_⟩
  obtain ⟨p, hp, rfl⟩ := List.mem_map.1 hblk
  exact realizeBlock_loadsRemoved (forall₂_pieces_loadsRemoved hl h.dests p hp) _ j hj

@[simp] theorem lowerCsFunctions_none (cs : CsInfo) (fs : List (Option Impl)) (st : CsState) :
    (lowerCsFunctions cs (none :: fs) st).1 = none :: (lowerCsFunctions cs fs st).1 := rfl

@[simp] theorem lowerCsFunctions_some (cs : CsInfo) (impl : Impl) (fs : List (Option Impl))
    (st : CsState) :
    (lowerCsFunctions cs (some impl :: fs) st).1 = some (lowerCsIntrinsicsConvertImpl cs impl st).1 ::
      (lowerCsFunctions cs fs (lowerCsIntrinsicsConvertImpl cs impl st).2).1 := rfl

/-- The loop over the functions lowers each one with an implementation. -/
theorem lowerCsFunctions_lowers (cs : CsInfo) :
    ∀ (fs : List (Option Impl)) (st : CsState), (∀ f ∈ fs, ∀ impl ∈ f, CsReady impl) →
      List.Forall₂ (Option.Rel (CsLowered cs)) fs (lowerCsFunctions cs fs st).1
  | [], _, _ => .nil
  | none :: fs, st, h => by
    rw [lowerCsFunctions_none]
    exact .cons .none (lowerCsFunctions_lowers cs fs st fun f hf => h f (.tail _ hf))
  | some impl :: fs, st, h => by
    rw [lowerCsFunctions_some]
    exact .cons (.some (lowerCsIntrinsicsConvertImpl_lowers cs (h _ (.head _) impl rfl) st))
      (lowerCsFunctions_lowers cs fs _ fun f hf => h f (.tail _ hf))

/-- `brw_nir_lower_cs_intrinsics` lowers every function of a shader whose functions are ready
for it. -/
theorem brwNirLowerCsIntrinsics_lowers (nir : Shader) (h : ∀ f ∈ nir.functions, ∀ impl ∈ f, CsReady impl) :
    List.Forall₂ (Option.Rel (CsLowered nir.cs)) nir.functions (brwNirLowerCsIntrinsics nir).1.functions :=
  lowerCsFunctions_lowers nir.cs nir.functions ⟨none, false⟩ h

/-- A compute shader reading `gl_LocalInvocationID` twice and `gl_LocalInvocationIndex` once in
one block, the index in 64 bits. -/
theorem brwNirLowerCsIntrinsics_lowers_localIds :
    let nir : Shader := ⟨.compute, ⟨false, (8, 4, 1), .none⟩,
      [some ⟨[[.intrinsic .loadLocalInvocationId (some ⟨0, 3, 32⟩) [] .none,
        .intrinsic .loadLocalInvocationIndex (some ⟨1, 1, 64⟩) [] .none,
        .intrinsic .loadLocalInvocationId (some ⟨2, 3, 32⟩) [] .none,
        .other none [0, 1, 2]]], 3⟩]⟩
    (∀ f ∈ nir.functions, ∀ impl ∈ f, CsReady impl) ∧
      List.Forall₂ (Option.Rel (CsLowered nir.cs)) nir.functions (brwNirLowerCsIntrinsics nir).1.functions :=
  ⟨by decide, brwNirLowerCsIntrinsics_lowers _ (by decide)⟩

end MesaSim.Cs
