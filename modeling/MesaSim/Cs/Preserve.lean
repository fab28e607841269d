import MesaSim.Cs.Values

/-!
# `brw_nir_lower_cs_intrinsics` keeps the meaning of the shader

Run on an invocation dispatched in linear order (`LinearThread`), the function
`lower_cs_intrinsics_convert_impl` produces (`brw_nir_lower_cs_intrinsics.c:199–210`) does what
the input did, along any path through its blocks: every store writes the same bytes, and every
value the input computes is computed too, under its own name if the pass keeps the instruction
defining it, else at the value its uses were rewritten to. Outside the quad layout, whose code the
value semantics does not run.

The proof follows the recorded walk of `MesaSim.Cs.Deferred`, block by block and piece by piece.
A kept instruction runs on renamed sources as it ran; a narrowed load and its zero extension give
the 64-bit value the load gave, since it fits 32 bits; a removed load's code computes, at its
rewrite target, the value the load gave (`MesaSim.Cs.Values`). The inserted code writes only
values from the cursor's `ssa_alloc` on; a rewrite target it writes belongs to its own piece, or
is the block's `(local_index, local_id)`, read only by loads of the same kind.
-/

namespace MesaSim.Cs
open MesaSim.Nir

/-! ### One visit -/

/-- The system values the pass narrows or replaces load what the machine holds. -/
theorem evalIntrinsic_sysval {op : IntrinsicOp} (h : csCase op ≠ .skip) (M : Machine)
    (n s : Nat) (vs : List Val) (ix : Indices) :
    evalIntrinsic M op n s vs ix = some ((List.range n).map fun i => M.sysval op ix i % 2 ^ s) := by
  unfold evalIntrinsic
  split <;> first | rfl | exact (h rfl).elim

theorem replaceIntrinsic_grows (d v : Def) (st : CsState) (b : Builder) :
    b.Grows (replaceIntrinsic d v st b).2 := by
  rw [replaceIntrinsic_apply]
  split_ifs
  · exact b.grows_insert _ _ (Nat.le_succ _) fun _ h => by
      cases h; exact ⟨rfl, Nat.lt_succ_self _⟩
  · exact Builder.Grows.refl b

/-- A cursor with nothing inserted yet, from which on every value is new. -/
theorem inserted_cursor (n : Nat) : Inserted (n ≤ ·) (fun op _ => CsKeeps op) ⟨n, []⟩ :=
  ⟨fun _ h => h, fun _ h => nomatch h⟩

/-- A visit only appends code, defining values from the cursor's `ssa_alloc` on. -/
theorem lowerCsIntrinsicsConvertInstr_grows (cs : CsInfo) (i : Instr) (st : CsState) (n : Nat) :
    (⟨n, []⟩ : Builder).Grows (lowerCsIntrinsicsConvertInstr cs i st ⟨n, []⟩).2 := by
  have hinv := inserted_cursor n
  rcases csKept_or i with
    hk | ⟨op, d, srcs, ix, rfl, hc, h64⟩ | ⟨op, d, srcs, ix, rfl, hrem⟩
  · rw [lowerCsIntrinsicsConvertInstr_kept cs hk]
    exact Builder.Grows.refl _
  · rw [lowerCsIntrinsicsConvertInstr_narrow cs hc h64]
    exact Builder.grows_insert ⟨n, []⟩ _ _ (Nat.le_succ _) fun _ h => by
      cases h; exact ⟨rfl, Nat.lt_succ_self _⟩
  · cases hc : csCase op with
    | localIds isId =>
      rw [lowerCsIntrinsicsConvertInstr_localIds cs hc]
      refine Builder.Grows.trans ?_ (replaceIntrinsic_grows _ _ _ _)
      unfold localIds
      cases st.cache with
      | some p => exact Builder.Grows.refl _
      | none => exact ((computeLocalIds_builds cs n) _ hinv).2.1
    | numSubgroups =>
      rw [lowerCsIntrinsicsConvertInstr_numSubgroups cs hc]
      exact ((computeNumSubgroups_builds cs n) _ hinv).2.1.trans (replaceIntrinsic_grows _ _ _ _)
    | narrow | skip => simp [csRemoves, hc] at hrem

/-! ### Values that depend on the system values only -/

section Sysvals

variable {M M' : Machine} (h : M.sysval = M'.sysval)
include h

theorem sysval32_congr (op : IntrinsicOp) (i : Nat) : sysval32 M op i = sysval32 M' op i := by
  unfold sysval32; rw [h]

theorem threadLinear_congr : threadLinear M = threadLinear M' := by
  simp only [threadLinear, sysval32_congr h]

theorem groupSize_congr (cs : CsInfo) : groupSize cs M = groupSize cs M' := by
  simp only [groupSize, sysval32_congr h]

theorem groupInvocations_congr (cs : CsInfo) : groupInvocations cs M = groupInvocations cs M' := by
  simp only [groupInvocations, groupSize_congr h]

theorem sysvalVal_congr (op : IntrinsicOp) (d : Def) (ix : Indices) :
    sysvalVal M op d ix = sysvalVal M' op d ix := by
  unfold sysvalVal; rw [h]

end Sysvals

/-! ### A removed load -/

/-- The block's cached `(local_index, local_id)`, if any: values from `n₀` on and below `n`,
holding the index and ID the code computes on `M`. -/
def CacheHolds (cs : CsInfo) (M : Machine) (n₀ n : Nat) (env : Env) (st : CsState) : Prop :=
  ∀ p, st.cache = some p → n₀ ≤ p.1.index ∧ n₀ ≤ p.2.index ∧
    Has ⟨n, []⟩ env p.1 ⟨32, [(threadLinear M).toNat]⟩ ∧
    Has ⟨n, []⟩ env p.2 (idVal (linearLocalIdIndex (threadLinear M) (groupSize cs M).x
      (groupSize cs M).y).1)

/-- What every destination of a removed load is, as NIR's table of intrinsics has it: 32 or 64
bits, three components for `load_local_invocation_id` and one for the others. -/
def RemovedDest (op : IntrinsicOp) (d : Def) : Prop :=
  (d.bitSize = 32 ∨ d.bitSize = 64) ∧
    d.numComponents = if op = .loadLocalInvocationId then 3 else 1

instance (op : IntrinsicOp) (d : Def) : Decidable (RemovedDest op d) :=
  inferInstanceAs (Decidable ((d.bitSize = 32 ∨ d.bitSize = 64) ∧
    d.numComponents = if op = .loadLocalInvocationId then 3 else 1))

/-- An instruction that is a load the pass removes has a destination as `RemovedDest` says. -/
def RemovedDestOk : Instr → Prop
  | .intrinsic op (some d) _ _ => csRemoves op → RemovedDest op d
  | _ => True

instance : DecidablePred RemovedDestOk
  | .intrinsic op (some d) _ _ => inferInstanceAs (Decidable (csRemoves op → RemovedDest op d))
  | .intrinsic _ none _ _ | .alu .. | .loadConst .. | .other .. => inferInstanceAs (Decidable True)

section Removed

variable {cs : CsInfo} {M₀ M : Machine}

/-- The end of a lowered case after code run from the cursor to `b₁`: the replacement, widened,
at the rewrite target, and the cached pair kept. -/
theorem replaceIntrinsic_after_runs {n₀ : Nat} {b₁ : Builder} {env env₁ : Env}
    (hp : List.IsPrefix [] b₁.emitted) (he : execCode M b₁.emitted env = some (M, env₁))
    (d : Def) {v : Def} {c : List Nat} (hv : Has b₁ env₁ v ⟨32, c⟩) (st : CsState)
    (hc : CacheHolds cs M₀ n₀ b₁.ssaAlloc env₁ st) :
    ∃ w env', (replaceIntrinsic d v st b₁).1.1.rewrite = some (.all d.index w) ∧
      execCode M (replaceIntrinsic d v st b₁).2.emitted env = some (M, env') ∧
      env' w = some (widen d.bitSize ⟨32, c⟩) ∧
      CacheHolds cs M₀ n₀ (replaceIntrinsic d v st b₁).2.ssaAlloc env'
        (replaceIntrinsic d v st b₁).1.2 := by
  obtain ⟨hp₂, w, env₂, hrw, he₂, hf₂, hw⟩ :=
    replaceIntrinsic_runs (M := M) d st b₁ env₁ hv
  refine ⟨w, env₂, hrw, ?_, hw, ?_⟩
  · have e := Builder.newCode_trans
      (show List.IsPrefix (⟨0, []⟩ : Builder).emitted _ from hp) hp₂
    simp only [Builder.newCode, List.length_nil, List.drop_zero] at e
    rw [e, execCode_append, he, Option.some_bind]
    exact he₂
  · rw [replaceIntrinsic_state]
    intro p hp'
    obtain ⟨h₁, h₂, h₃, h₄⟩ := hc p hp'
    exact ⟨h₁, h₂, hf₂.has (b := b₁) h₃, hf₂.has (b := b₁) h₄⟩

variable (hT : LinearThread cs M₀) (hg : cs.derivativeGroup ≠ .quads)
  (hM : M.sysval = M₀.sysval)
include hT hg hM

/-- The code of a removed load computes, at its rewrite target, the value the load gave; a
block's first `load_local_invocation_index` or `load_local_invocation_id` leaves the pair it
computes cached. -/
theorem removed_runs {op : IntrinsicOp} (hrem : csRemoves op) {d : Def} (hd : RemovedDest op d)
    (srcs : List Nat) (ix : Indices) {st : CsState} {n₀ n : Nat} (hn : n₀ ≤ n) {env : Env}
    (hc : CacheHolds cs M₀ n₀ n env st) :
    ∃ w env', (lowerCsIntrinsicsConvertInstr cs (.intrinsic op (some d) srcs ix) st
        ⟨n, []⟩).1.1.rewrite = some (.all d.index w) ∧
      execCode M (lowerCsIntrinsicsConvertInstr cs (.intrinsic op (some d) srcs ix) st
        ⟨n, []⟩).2.emitted env = some (M, env') ∧
      env' w = some (sysvalVal M₀ op d ix) ∧
      CacheHolds cs M₀ n₀ (lowerCsIntrinsicsConvertInstr cs (.intrinsic op (some d) srcs ix) st
        ⟨n, []⟩).2.ssaAlloc env'
        (lowerCsIntrinsicsConvertInstr cs (.intrinsic op (some d) srcs ix) st ⟨n, []⟩).1.2 := by
  have hinv := inserted_cursor n
  cases hcase : csCase op with
  | localIds isId =>
    rw [lowerCsIntrinsicsConvertInstr_localIds cs hcase]
    have hop := csCase_localIds hcase
    cases hst : st.cache with
    | none =>
      simp only [localIds, hst]
      obtain ⟨hp, env₁, he, -, hall⟩ := computeLocalIds_runs (M := M) cs hg ⟨n, []⟩ env
        fun _ h => nomatch h
      have hnew := ((computeLocalIds_builds cs n) _ hinv).2.2
      rw [threadLinear_congr hM, groupSize_congr hM] at hall
      have hc₁ : CacheHolds cs M₀ n₀ (computeLocalIds cs ⟨n, []⟩).2.ssaAlloc env₁
          { st with cache := some (computeLocalIds cs ⟨n, []⟩).1 } := by
        rintro p ⟨⟩
        exact ⟨hn.trans hnew.1, hn.trans hnew.2, hall _ (.head _), hall _ (.tail _ (.head _))⟩
      cases isId <;> simp only [Bool.false_eq_true, ↓reduceIte] at hop ⊢ <;> subst hop
      · obtain ⟨w, env', hrw, he', hw, hc'⟩ :=
          replaceIntrinsic_after_runs hp he d (hall _ (.head _)) _ hc₁
        exact ⟨w, env', hrw, he', hw.trans (congrArg _ (hT.index_val hd.1 hd.2 ix)), hc'⟩
      · obtain ⟨w, env', hrw, he', hw, hc'⟩ :=
          replaceIntrinsic_after_runs hp he d (hall _ (.tail _ (.head _))) _ hc₁
        exact ⟨w, env', hrw, he', hw.trans (congrArg _ (hT.id_val hd.1 hd.2 ix)), hc'⟩
    | some p =>
      simp only [localIds, hst]
      obtain ⟨-, -, h₁, h₂⟩ := hc p hst
      have hc₁ : CacheHolds cs M₀ n₀ n env { st with cache := some p } := by
        rintro q ⟨⟩
        exact hc p hst
      have hp : List.IsPrefix [] (⟨n, []⟩ : Builder).emitted := List.nil_prefix
      cases isId <;> simp only [Bool.false_eq_true, ↓reduceIte] at hop ⊢ <;> subst hop
      · obtain ⟨w, env', hrw, he', hw, hc'⟩ :=
          replaceIntrinsic_after_runs hp rfl d h₁ _ hc₁
        exact ⟨w, env', hrw, he', hw.trans (congrArg _ (hT.index_val hd.1 hd.2 ix)), hc'⟩
      · obtain ⟨w, env', hrw, he', hw, hc'⟩ :=
          replaceIntrinsic_after_runs hp rfl d h₂ _ hc₁
        exact ⟨w, env', hrw, he', hw.trans (congrArg _ (hT.id_val hd.1 hd.2 ix)), hc'⟩
  | numSubgroups =>
    obtain rfl := csCase_numSubgroups hcase
    rw [lowerCsIntrinsicsConvertInstr_numSubgroups cs hcase]
    obtain ⟨hp, env₁, he, hf, hv⟩ :=
      computeNumSubgroups_computes (M := M) cs [] ⟨n, []⟩ env fun _ h => nomatch h
    rw [groupInvocations_congr hM, sysval32_congr hM] at hv
    obtain ⟨w, env', hrw, he', hw, hc'⟩ := replaceIntrinsic_after_runs hp
      (execCode_of_evalCode he) d hv st
      fun p hp' => (hc p hp').imp id (.imp id (.imp (hf.has ·) (hf.has ·)))
    exact ⟨w, env', hrw, he', hw.trans (congrArg _ (hT.numSubgroups_val hd.1 hd.2 ix)), hc'⟩
  | narrow | skip => simp [csRemoves, hcase] at hrem

end Removed

/-! ### Where the rewrites go -/

theorem localIds_none (cs : CsInfo) {st : CsState} (h : st.cache = none) :
    localIds cs st = computeLocalIds cs := by
  simp only [localIds, h]

theorem localIds_some (cs : CsInfo) {st : CsState} {p : Def × Def} (h : st.cache = some p)
    (b : Builder) : localIds cs st b = (p, b) := by
  simp only [localIds, h]
  rfl

/-- `x` is the value of a load of `op` in `code` narrower than 64 bits: its uses read the
block's cached value itself. -/
def Loads32 (code : List Instr) (op : IntrinsicOp) (x : Nat) : Prop :=
  ∃ d srcs ix, Instr.intrinsic op (some d) srcs ix ∈ code ∧ d.index = x ∧ d.bitSize ≠ 64

theorem Loads32.mono {code code' : List Instr} {op : IntrinsicOp} {x : Nat}
    (h : Loads32 code op x) (hs : code ⊆ code') : Loads32 code' op x :=
  let ⟨d, srcs, ix, hm, hx, h64⟩ := h
  ⟨d, srcs, ix, hs hm, hx, h64⟩

section Targets

variable {cs : CsInfo} (hg : cs.derivativeGroup ≠ .quads)
include hg

/-- The pair the code of `:73–149` returns is below the `ssa_alloc` it ends with (read off its
run on any machine). -/
theorem computeLocalIds_lt (n : Nat) :
    (computeLocalIds cs ⟨n, []⟩).1.1.index < (computeLocalIds cs ⟨n, []⟩).2.ssaAlloc ∧
      (computeLocalIds cs ⟨n, []⟩).1.2.index < (computeLocalIds cs ⟨n, []⟩).2.ssaAlloc := by
  obtain ⟨-, _, -, -, h⟩ := computeLocalIds_runs (M := ⟨fun _ => 0, fun _ _ _ => 0⟩) cs hg
    ⟨n, []⟩ (fun _ => none) fun _ h => nomatch h
  exact ⟨(h _ (.head _)).1, (h _ (.tail _ (.head _))).1⟩

omit hg in
theorem computeNumSubgroups_lt (n : Nat) :
    (computeNumSubgroups cs ⟨n, []⟩).1.index <
      (computeNumSubgroups cs ⟨n, []⟩).2.ssaAlloc := by
  obtain ⟨-, _, -, -, h⟩ := computeNumSubgroups_computes (M := ⟨fun _ => 0, fun _ _ _ => 0⟩)
    cs [] ⟨n, []⟩ (fun _ => none) fun _ h => nomatch h
  exact h.1

/-- A visit keeps the block's cached pair, or caches the one it computes for the block's first
`load_local_invocation_index` or `load_local_invocation_id`, of values it defines. -/
theorem lowerCsIntrinsicsConvertInstr_cache (i : Instr) (st : CsState) (n : Nat) :
    (lowerCsIntrinsicsConvertInstr cs i st ⟨n, []⟩).1.2.cache = st.cache ∨
      ∃ p, (lowerCsIntrinsicsConvertInstr cs i st ⟨n, []⟩).1.2.cache = some p ∧
        n ≤ p.1.index ∧
          p.1.index < (lowerCsIntrinsicsConvertInstr cs i st ⟨n, []⟩).2.ssaAlloc ∧
        n ≤ p.2.index ∧
          p.2.index < (lowerCsIntrinsicsConvertInstr cs i st ⟨n, []⟩).2.ssaAlloc := by
  have hinv := inserted_cursor n
  rcases csKept_or i with
    hk | ⟨op, d, srcs, ix, rfl, hc, h64⟩ | ⟨op, d, srcs, ix, rfl, hrem⟩
  · rw [lowerCsIntrinsicsConvertInstr_kept cs hk]
    exact .inl rfl
  · rw [lowerCsIntrinsicsConvertInstr_narrow cs hc h64]
    exact .inl rfl
  · cases hcase : csCase op with
    | localIds isId =>
      rw [lowerCsIntrinsicsConvertInstr_localIds cs hcase, replaceIntrinsic_state]
      cases hst : st.cache with
      | none =>
        rw [localIds_none cs hst]
        have hgr := replaceIntrinsic_grows d (if isId then (computeLocalIds cs ⟨n, []⟩).1.2
          else (computeLocalIds cs ⟨n, []⟩).1.1)
          { st with cache := some (computeLocalIds cs ⟨n, []⟩).1 }
          (computeLocalIds cs ⟨n, []⟩).2
        obtain ⟨-, -, h₁, h₂⟩ := computeLocalIds_builds cs n _ hinv
        obtain ⟨l₁, l₂⟩ := computeLocalIds_lt hg n
        exact .inr ⟨_, rfl, h₁, l₁.trans_le hgr.alloc_le, h₂, l₂.trans_le hgr.alloc_le⟩
      | some p => exact .inl (by rw [localIds_some cs hst])
    | numSubgroups =>
      rw [lowerCsIntrinsicsConvertInstr_numSubgroups cs hcase, replaceIntrinsic_state]
      exact .inl rfl
    | narrow | skip => simp [csRemoves, hcase] at hrem

/-- Where the rewrite of a removed load sends its value: to a value its visit defines, or, for a
32-bit `load_local_invocation_index` or `load_local_invocation_id` after the block's first, to
the cached pair's. -/
theorem removed_target {op : IntrinsicOp} (hrem : csRemoves op) (d : Def) (srcs : List Nat)
    (ix : Indices) (st : CsState) (n : Nat) {w : Nat}
    (h : (lowerCsIntrinsicsConvertInstr cs (.intrinsic op (some d) srcs ix) st
      ⟨n, []⟩).1.1.rewrite = some (.all d.index w)) :
    n ≤ w ∧ w < (lowerCsIntrinsicsConvertInstr cs (.intrinsic op (some d) srcs ix) st
        ⟨n, []⟩).2.ssaAlloc ∨
      ∃ p, st.cache = some p ∧ d.bitSize ≠ 64 ∧
        (op = .loadLocalInvocationIndex ∧ w = p.1.index ∨
          op = .loadLocalInvocationId ∧ w = p.2.index) := by
  have hinv := inserted_cursor n
  cases hcase : csCase op with
  | localIds isId =>
    have hop := csCase_localIds hcase
    rw [lowerCsIntrinsicsConvertInstr_localIds cs hcase, replaceIntrinsic_apply] at h ⊢
    cases hst : st.cache with
    | none =>
      rw [localIds_none cs hst] at h ⊢
      obtain ⟨-, hgr, h₁, h₂⟩ := computeLocalIds_builds cs n _ hinv
      obtain ⟨l₁, l₂⟩ := computeLocalIds_lt hg n
      by_cases h64 : d.bitSize = 64
      · rw [if_pos h64] at h ⊢
        cases h
        exact .inl ⟨hgr.alloc_le, Nat.lt_succ_self _⟩
      · rw [if_neg h64] at h ⊢
        cases h
        cases isId
        exacts [.inl ⟨h₁, l₁⟩, .inl ⟨h₂, l₂⟩]
    | some p =>
      rw [localIds_some cs hst] at h ⊢
      by_cases h64 : d.bitSize = 64
      · rw [if_pos h64] at h ⊢
        cases h
        exact .inl ⟨le_rfl, Nat.lt_succ_self _⟩
      · rw [if_neg h64] at h
        cases h
        cases isId
        exacts [.inr ⟨p, rfl, h64, .inl ⟨hop, rfl⟩⟩,
          .inr ⟨p, rfl, h64, .inr ⟨hop, rfl⟩⟩]
  | numSubgroups =>
    rw [lowerCsIntrinsicsConvertInstr_numSubgroups cs hcase, replaceIntrinsic_apply] at h ⊢
    obtain ⟨-, hgr, h₁⟩ := computeNumSubgroups_builds cs n _ hinv
    by_cases h64 : d.bitSize = 64
    · rw [if_pos h64] at h ⊢
      cases h
      exact .inl ⟨hgr.alloc_le, Nat.lt_succ_self _⟩
    · rw [if_neg h64] at h ⊢
      cases h
      exact .inl ⟨h₁, computeNumSubgroups_lt n⟩
  | narrow | skip => simp [csRemoves, hcase] at hrem

omit hg in
theorem mem_rewrite_toList {o : Option Rewrite} {r : Nat × Nat}
    (h : r ∈ (o.map Rewrite.pair).toList) : ∃ rw, o = some rw ∧ rw.pair = r := by
  cases o with
  | none => cases h
  | some rw => exact ⟨rw, rfl, (List.mem_singleton.1 h).symm⟩

/-- What a visit's rewrite replaces and where it sends it: the value of a load the visit removes
or of a 64-bit load it narrows, to a value the visit defines or to the block's cached pair. -/
theorem lowerCsIntrinsicsConvertInstr_target (i : Instr) (st : CsState) (n : Nat)
    {r : Nat × Nat}
    (h : r ∈ ((lowerCsIntrinsicsConvertInstr cs i st ⟨n, []⟩).1.1.rewrite.map
      Rewrite.pair).toList) :
    (∃ op d srcs ix, i = .intrinsic op (some d) srcs ix ∧ d.index = r.1 ∧
      (csRemoves op ∨ csCase op = .narrow ∧ d.bitSize = 64)) ∧
    (n ≤ r.2 ∧ r.2 < (lowerCsIntrinsicsConvertInstr cs i st ⟨n, []⟩).2.ssaAlloc ∨
      ∃ p, st.cache = some p ∧
        (r.2 = p.1.index ∧ Loads32 [i] .loadLocalInvocationIndex r.1 ∨
          r.2 = p.2.index ∧ Loads32 [i] .loadLocalInvocationId r.1)) := by
  obtain ⟨rw, hrw, rfl⟩ := mem_rewrite_toList h
  rcases csKept_or i with
    hk | ⟨op, d, srcs, ix, rfl, hc, h64⟩ | ⟨op, d, srcs, ix, rfl, hrem⟩
  · rw [lowerCsIntrinsicsConvertInstr_kept cs hk] at hrw
    cases hrw
  · rw [lowerCsIntrinsicsConvertInstr_narrow cs hc h64] at hrw ⊢
    cases hrw
    exact ⟨⟨op, d, srcs, ix, rfl, rfl, .inr ⟨hc, h64⟩⟩,
      .inl ⟨le_rfl, Nat.lt_succ_self n⟩⟩
  · obtain ⟨w, hself, -⟩ := lowerCsIntrinsicsConvertInstr_removes cs hrem d srcs ix
      (show st.CacheNew 0 from fun _ _ => ⟨Nat.zero_le _, Nat.zero_le _⟩) (Nat.zero_le n)
    rw [hself] at hrw
    cases hrw
    refine ⟨⟨op, d, srcs, ix, rfl, rfl, .inl hrem⟩, ?_⟩
    rcases removed_target hg hrem d srcs ix st n (by rw [hself]) with
      h' | ⟨p, hp, h64, ⟨rfl, hw⟩ | ⟨rfl, hw⟩⟩
    · exact .inl h'
    · exact .inr ⟨p, hp, .inl ⟨hw, d, srcs, ix, .head _, rfl, h64⟩⟩
    · exact .inr ⟨p, hp, .inr ⟨hw, d, srcs, ix, .head _, rfl, h64⟩⟩

end Targets

/-! ### One instruction -/

/-- The run of the lowered code holds, at its renamed index, every value the input's run holds;
the input defines only values below `n₀`. -/
def Renamed (n₀ : Nat) (τ : Nat → Nat) (env env' : Env) : Prop :=
  ∀ x v, env x = some v → x < n₀ ∧ env' (τ x) = some v

/-- Every load of `code` the pass removes holds the system value it loads. -/
def LoadsHold (M₀ : Machine) (code : List Instr) (env : Env) : Prop :=
  ∀ op d srcs ix, Instr.intrinsic op (some d) srcs ix ∈ code → csRemoves op →
    ∀ v, env d.index = some v → v = sysvalVal M₀ op d ix

/-- A load the pass narrows or removes runs as it loads, leaving memory alone. -/
theorem execInstr_sysval {op : IntrinsicOp} (h : csCase op ≠ .skip) {M M₁ : Machine}
    {env env₁ : Env} {d : Def} {srcs : List Nat} {ix : Indices}
    (hrun : execInstr M env (.intrinsic op (some d) srcs ix) = some (M₁, env₁)) :
    (∃ vs, readSrcs env srcs = some vs) ∧ M₁ = M ∧
      env₁ = setVal env d.index (sysvalVal M op d ix) := by
  rw [execInstr_of_not_store fun _ _ h => by cases h] at hrun
  obtain ⟨env₂, he, hr⟩ := Option.map_eq_some'.1 hrun
  cases hr
  obtain ⟨vs, hvs, he⟩ := Option.bind_eq_some.1 he
  rw [evalIntrinsic_sysval h, Option.map_some', Option.some.injEq] at he
  exact ⟨⟨vs, hvs⟩, rfl, he.symm⟩

theorem csCase_ne_skip {op : IntrinsicOp} (h : csRemoves op) : csCase op ≠ .skip := fun hc => by
  simp [csRemoves, hc] at h

/-- A step of the input keeps its removed loads at their system values. -/
theorem LoadsHold.step {M₀ M M₁ : Machine} {code : List Instr} (hnd : (defsOf code).Nodup)
    {env env₁ : Env} (hL : LoadsHold M₀ code env) {i : Instr} (hi : i ∈ code)
    (hM : M.sysval = M₀.sysval) (hrun : execInstr M env i = some (M₁, env₁)) :
    LoadsHold M₀ code env₁ := by
  intro op d srcs ix hj hrem v hv
  by_cases hdef : ∃ a, i.dest? = some a ∧ a.index = d.index
  · obtain ⟨a, ha, hab⟩ := hdef
    obtain rfl := eq_of_dest_index hnd hi hj ha rfl hab
    obtain ⟨-, -, rfl⟩ := execInstr_sysval (csCase_ne_skip hrem) hrun
    rw [setVal_self, Option.some.injEq] at hv
    rw [← hv, sysvalVal_congr hM]
  · rw [(execInstr_frame hrun).2 d.index fun a ha h => hdef ⟨a, ha, h.symm⟩] at hv
    exact hL op d srcs ix hj hrem v hv

section Step

variable {cs : CsInfo} {M₀ : Machine} (hT : LinearThread cs M₀)
  (hg : cs.derivativeGroup ≠ .quads) {code : List Instr} {n₀ : Nat}
  (hlt : ∀ x ∈ defsOf code, x < n₀)
  (hdest : ∀ op d srcs ix, Instr.intrinsic op (some d) srcs ix ∈ code → csRemoves op →
    RemovedDest op d)
  {τ : Nat → Nat} (hold : ∀ x, τ x < n₀ → τ x = x)
  (hnew : ∀ y, n₀ ≤ y → τ y = y)
  (hkept : ∀ i ∈ code, CsKept i → ∀ d, i.dest? = some d → τ d.index = d.index)

include hT hdest in
/-- A 32-bit `load_local_invocation_index` holds the index the inserted code computes. -/
theorem Loads32.index_val {env : Env} (hL : LoadsHold M₀ code env) {x : Nat}
    (hx : Loads32 code .loadLocalInvocationIndex x) {v : Val} (hv : env x = some v) :
    v = ⟨32, [(threadLinear M₀).toNat]⟩ := by
  obtain ⟨d, srcs, ix, hm, rfl, h64⟩ := hx
  have hd := hdest _ _ _ _ hm rfl
  rw [hL _ _ _ _ hm rfl v hv, ← hT.index_val hd.1 hd.2 ix, widen, if_neg h64]

include hT hdest in
/-- A 32-bit `load_local_invocation_id` holds the ID the inserted code computes. -/
theorem Loads32.id_val {env : Env} (hL : LoadsHold M₀ code env) {x : Nat}
    (hx : Loads32 code .loadLocalInvocationId x) {v : Val} (hv : env x = some v) :
    v = idVal
      (linearLocalIdIndex (threadLinear M₀) (groupSize cs M₀).x (groupSize cs M₀).y).1 := by
  obtain ⟨d, srcs, ix, hm, rfl, h64⟩ := hx
  have hd := hdest _ _ _ _ hm rfl
  rw [hL _ _ _ _ hm rfl v hv, ← hT.id_val hd.1 hd.2 ix, widen, if_neg h64]

include hT hg hlt hdest hold hnew hkept in
/-- One visit simulates one step of the input: its piece, realized, runs from a renamed
environment to one renaming the input's next, keeping the block's cached pair; the rewrites
the visit asks for are applied, and any value the piece defines is one the visit rewrote to, or
the pair it caches for later 32-bit loads. -/
theorem lowerCsIntrinsicsConvertInstr_runs {i : Instr} (hi : i ∈ code) {st : CsState} {n : Nat}
    (hn : n₀ ≤ n) {M : Machine} (hM : M.sysval = M₀.sysval) {env env' : Env}
    (hc : CacheHolds cs M₀ n₀ n env' st) (hR : Renamed n₀ τ env env')
    (hL : LoadsHold M₀ code env)
    (hhit : ∀ r ∈ ((lowerCsIntrinsicsConvertInstr cs i st ⟨n, []⟩).1.1.rewrite.map
      Rewrite.pair).toList, τ r.1 = r.2)
    (hown : ∀ x < n₀, n ≤ τ x →
      τ x < (lowerCsIntrinsicsConvertInstr cs i st ⟨n, []⟩).2.ssaAlloc →
      (x, τ x) ∈ ((lowerCsIntrinsicsConvertInstr cs i st ⟨n, []⟩).1.1.rewrite.map
        Rewrite.pair).toList ∨
      ∃ p, (lowerCsIntrinsicsConvertInstr cs i st ⟨n, []⟩).1.2.cache = some p ∧
        (τ x = p.1.index ∧ Loads32 code .loadLocalInvocationIndex x ∨
          τ x = p.2.index ∧ Loads32 code .loadLocalInvocationId x))
    {M₁ : Machine} {env₁ : Env} (hrun : execInstr M env i = some (M₁, env₁)) :
    ∃ env₁', execCode M
        ((pieceOf (lowerCsIntrinsicsConvertInstr cs i st ⟨n, []⟩)).realize τ) env' =
          some (M₁, env₁') ∧ Renamed n₀ τ env₁ env₁' ∧
      CacheHolds cs M₀ n₀ (lowerCsIntrinsicsConvertInstr cs i st ⟨n, []⟩).2.ssaAlloc env₁'
        (lowerCsIntrinsicsConvertInstr cs i st ⟨n, []⟩).1.2 := by
  have hdef : ∀ {d : Def}, i.dest? = some d → d.index < n₀ :=
    fun hd => hlt _ (List.mem_filterMap.2 ⟨i, hi, by simp [hd]⟩)
  rcases csKept_or i with
    hk | ⟨op, d, srcs, ix, rfl, hcase, h64⟩ | ⟨op, d, srcs, ix, rfl, hrem⟩
  · -- kept: the instruction itself, on renamed sources
    rw [lowerCsIntrinsicsConvertInstr_kept cs hk]
    obtain ⟨env₁', he, hdst, hoth⟩ := execInstr_mapSrcs hrun
      (show ∀ x ∈ i.srcs, ∀ v, env x = some v → env' (τ x) = some v from
        fun x _ v hv => (hR x v hv).2)
    refine ⟨env₁', by simp only [pieceOf, Piece.realize, Piece.frozen]; simp [execCode, he], ?_,
      fun p hp => ?_⟩
    · intro x v hv
      by_cases hx : ∃ d, i.dest? = some d ∧ x = d.index
      · obtain ⟨d, hd, rfl⟩ := hx
        exact ⟨hdef hd, by rw [hkept i hi hk d hd, hdst d hd, hv]⟩
      · rw [(execInstr_frame hrun).2 x fun d hd h => hx ⟨d, hd, h⟩] at hv
        obtain ⟨h₁, h₂⟩ := hR x v hv
        refine ⟨h₁, ?_⟩
        rw [hoth _ fun d hd h => hx ⟨d, hd, ?_⟩, h₂]
        exact (hold x (h ▸ hdef hd)).symm.trans h
    · obtain ⟨h₁, h₂, h₃, h₄⟩ := hc p hp
      have hne : ∀ (y : Def), n₀ ≤ y.index → ∀ d, i.dest? = some d →
          y.index ≠ d.index := fun y hy d hd h => absurd (hdef hd) (by omega)
      exact ⟨h₁, h₂, ⟨h₃.1, h₃.2.1, (hoth _ (hne _ h₁)).trans h₃.2.2⟩,
        ⟨h₄.1, h₄.2.1, (hoth _ (hne _ h₂)).trans h₄.2.2⟩⟩
  · -- narrowed: the 32-bit load, then its zero extension at `n`
    rw [lowerCsIntrinsicsConvertInstr_narrow cs hcase h64] at hhit hown ⊢
    obtain ⟨⟨vs, hvs⟩, hM₁, rfl⟩ := execInstr_sysval (by rw [hcase]; decide) hrun
    subst M₁
    have hτd : τ d.index = n := hhit _ (.head _)
    have hd : d.index < n₀ := hdef rfl
    have hfit : ∀ j, M.sysval op ix j % 2 ^ 32 % 2 ^ 64 = M.sysval op ix j % 2 ^ 64 := fun j => by
      have := hT.narrow_lt op hcase ix j
      rw [← hM] at this
      rw [Nat.mod_eq_of_lt this, Nat.mod_eq_of_lt (this.trans (by decide))]
    refine ⟨setVal (setVal env' d.index ⟨32, (List.range d.numComponents).map fun j =>
        M.sysval op ix j % 2 ^ 32⟩) n ⟨64, ((List.range d.numComponents).map fun j =>
        M.sysval op ix j % 2 ^ 32).map (· % 2 ^ 64)⟩, ?_, ?_, fun p hp => ?_⟩
    · show execCode M ([Instr.intrinsic op (some { d with bitSize := 32 }) (srcs.map τ) ix] ++
        [.alu .u2u64 ⟨n, d.numComponents, 64⟩ [d.index]]) env' = _
      simp only [List.singleton_append, execCode, execInstr, evalInstr,
        readSrcs_map hvs fun x _ v hv => (hR x v hv).2, Option.some_bind,
        evalIntrinsic_sysval (by rw [hcase]; decide), Option.map_some', readSrcs, setVal_self]
      rfl
    · intro x v hv
      by_cases hx : x = d.index
      · subst hx
        rw [setVal_self, Option.some.injEq] at hv
        subst hv
        refine ⟨hd, ?_⟩
        rw [hτd, setVal_self, sysvalVal, h64, List.map_map]
        simp only [Function.comp_def, hfit]
      · rw [setVal_of_ne _ hx] at hv
        obtain ⟨h₁, h₂⟩ := hR x v hv
        have hn' : τ x ≠ n := fun h => by
          rcases hown x h₁ h.ge (h ▸ Nat.lt_succ_self n) with hm | ⟨p, hp, hk⟩
          · exact hx (Prod.mk.inj (List.mem_singleton.1 hm)).1
          · obtain ⟨-, -, h₃, h₄⟩ := hc p hp
            rcases hk with ⟨he, -⟩ | ⟨he, -⟩
            · exact absurd (show p.1.index < n from h₃.1) (by omega)
            · exact absurd (show p.2.index < n from h₄.1) (by omega)
        have hd' : τ x ≠ d.index := fun h => hx ((hold x (h ▸ hd)).symm.trans h)
        exact ⟨h₁, by rw [setVal_of_ne _ hn', setVal_of_ne _ hd', h₂]⟩
    · obtain ⟨h₁, h₂, h₃, h₄⟩ := hc p hp
      have hkeep : ∀ (a b : Val) (y : Def), n₀ ≤ y.index → y.index < n →
          setVal (setVal env' d.index a) n b y.index = env' y.index := fun a b y h h' => by
        rw [setVal_of_ne _ (by omega), setVal_of_ne _ (by omega)]
      exact ⟨h₁, h₂,
        ⟨Nat.lt_succ_of_lt h₃.1, h₃.2.1, (hkeep _ _ _ h₁ h₃.1).trans h₃.2.2⟩,
        ⟨Nat.lt_succ_of_lt h₄.1, h₄.2.1, (hkeep _ _ _ h₂ h₄.1).trans h₄.2.2⟩⟩
  · -- removed: the code computing the value at the rewrite's target
    obtain ⟨w, env₂, hrw, he, hw, hc'⟩ :=
      removed_runs hT hg hM hrem (hdest _ _ _ _ hi hrem) srcs ix hn hc
    obtain ⟨-, hM₁, rfl⟩ := execInstr_sysval (csCase_ne_skip hrem) hrun
    subst M₁
    obtain ⟨w', hself, -, -, hcode, -⟩ :=
      lowerCsIntrinsicsConvertInstr_removes cs hrem d srcs ix
      (show st.CacheNew n₀ from fun p hp => ⟨(hc p hp).1, (hc p hp).2.1⟩) hn
    have hreal : (pieceOf (lowerCsIntrinsicsConvertInstr cs (.intrinsic op (some d) srcs ix) st
        ⟨n, []⟩)).realize τ =
        (lowerCsIntrinsicsConvertInstr cs (.intrinsic op (some d) srcs ix) st
          ⟨n, []⟩).2.emitted := by
      simp only [pieceOf, Piece.realize, hself, Piece.frozen, Option.toList, List.map_nil,
        List.nil_append, Bool.false_eq_true, ↓reduceIte]
      exact (List.map_congr_left fun j hj => Instr.mapSrcs_eq_self fun x hx =>
        hnew x ((hcode j hj).1 x hx)).trans (List.map_id _)
    have hτd : τ d.index = w := hhit (d.index, w) (by rw [hrw]; exact .head _)
    refine ⟨env₂, hreal ▸ he, fun x v hv => ?_, hc'⟩
    by_cases hx : x = d.index
    · subst hx
      rw [setVal_self, Option.some.injEq] at hv
      subst hv
      exact ⟨hdef rfl, by rw [hτd, hw, sysvalVal_congr hM]⟩
    · rw [setVal_of_ne _ hx] at hv
      obtain ⟨h₁, h₂⟩ := hR x v hv
      refine ⟨h₁, ?_⟩
      by_cases hd : τ x ∈ defsOf
        (lowerCsIntrinsicsConvertInstr cs (.intrinsic op (some d) srcs ix) st ⟨n, []⟩).2.emitted
      · -- a value the inserted code defines: the visit's target, or the pair it caches
        have hr := (lowerCsIntrinsicsConvertInstr_grows cs _ st n).defs_range _ hd
        rcases hown x h₁ hr.1 hr.2 with hm | ⟨p, hp, hk⟩
        · rw [hrw] at hm
          exact absurd (Prod.mk.inj (List.mem_singleton.1 hm)).1 hx
        · obtain ⟨-, -, h₃, h₄⟩ := hc' p hp
          rcases hk with ⟨he', hk⟩ | ⟨he', hk⟩
          · rw [he', h₃.2.2, hk.index_val hT hdest hL hv]
          · rw [he', h₄.2.2, hk.id_val hT hdest hL hv]
      · rw [(execCode_frame he).2 _ hd, h₂]

end Step

end MesaSim.Cs
