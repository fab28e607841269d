import MesaSim.Cs.Lower
import MesaSim.Nir.Defer
import MesaSim.Nir.Build

/-!
# `brw_nir_lower_cs_intrinsics`, with its rewrites deferred

The body of the walk of `lower_cs_intrinsics_convert_block` (`brw_nir_lower_cs_intrinsics.c:46–194`)
meets what `MesaSim.Nir.Defer` needs of a walk body: it keeps an instruction, narrows it and
inserts its zero extension, or removes it for a value computed by code that reads only new
values. So the lowered function is the recorded walk of the input with every rewrite applied
once at the end, which is where the properties of the pass are read off.
-/

namespace MesaSim.Cs
open MesaSim.Nir

/-- The intrinsics the pass removes: `load_local_invocation_index`, `load_local_invocation_id`
and `load_num_subgroups`. -/
def csRemoves (op : IntrinsicOp) : Bool :=
  match csCase op with
  | .localIds _ | .numSubgroups => true
  | _ => false

/-- The intrinsics the code the pass inserts may call: all but those it removes. -/
def CsKeeps (op : IntrinsicOp) : Prop := csRemoves op = false

/-- Code the pass inserts: it reads only values from `lo` on and loads none of the values the
pass removes. -/
def InsertedOk (lo : Nat) (code : List Instr) : Prop :=
  ∀ j ∈ code, (∀ x ∈ j.srcs, lo ≤ x) ∧ ∀ op, j.intrinsic? = some op → CsKeeps op

theorem InsertedOk.mono {lo lo' : Nat} {code : List Instr} (h : InsertedOk lo code) (hle : lo' ≤ lo) :
    InsertedOk lo' code :=
  fun j hj => ⟨fun x hx => le_trans hle ((h j hj).1 x hx), (h j hj).2⟩

/-- The block's cached `local_index` and `local_id`, if any, are values from `lo` on. -/
def CsState.CacheNew (lo : Nat) (st : CsState) : Prop :=
  ∀ p, st.cache = some p → lo ≤ p.1.index ∧ lo ≤ p.2.index

/-! ### The inserted code -/

theorem localSizeXY_builds (cs : CsInfo) (lo : Nat) :
    Builds (Inserted (lo ≤ ·) fun op _ => CsKeeps op) (localSizeXY cs) (fun p => Def.New lo p.1 ∧ Def.New lo p.2) := by
  unfold localSizeXY
  refine .ite (fun _ => ?_) fun _ => ?_
  · exact .bind (Inserted.nirIntrinsic rfl (by simp)) fun _ h =>
      .bind (Inserted.nirChannel h) fun _ hx => .bind (Inserted.nirChannel h) fun _ hy => .pure ⟨hx, hy⟩
  · exact .bind Inserted.nirImmIntN fun _ hx => .bind Inserted.nirImmIntN fun _ hy => .pure ⟨hx, hy⟩

/-- The computation of `local_index` and `local_id` calls only the intrinsics it may, and
returns two new values. -/
theorem computeLocalIds_builds (cs : CsInfo) (lo : Nat) :
    Builds (Inserted (lo ≤ ·) fun op _ => CsKeeps op) (computeLocalIds cs) (fun p => Def.New lo p.1 ∧ Def.New lo p.2) := by
  unfold computeLocalIds
  refine .bind (Inserted.nirIntrinsic rfl (by simp)) fun subgroupId h₁ =>
    .bind (Inserted.nirIntrinsic rfl (by simp)) fun simdWidth h₂ =>
    .bind (Inserted.nirAlu2 h₁ h₂) fun threadLocalId h₃ =>
    .bind (Inserted.nirIntrinsic rfl (by simp)) fun channel h₄ =>
    .bind (Inserted.nirAlu2 h₄ h₃) fun linear h₅ =>
    .bind (localSizeXY_builds cs lo) fun ⟨sizeX, sizeY⟩ ⟨h₆, h₇⟩ => .ite (fun _ => ?_) fun _ => ?_
  · exact .bind (Inserted.nirAlu2 h₅ h₆) fun idX hX =>
      .bind (Inserted.nirAlu2 h₅ h₆) fun q hq => .bind (Inserted.nirAlu2 hq h₇) fun idY hY =>
      .bind (Inserted.nirAlu2 h₆ h₇) fun xy hxy => .bind (Inserted.nirAlu2 h₅ hxy) fun idZ hZ =>
      .bind (Inserted.nirVec3 hX hY hZ) fun localId hid => .pure ⟨h₅, hid⟩
  · exact .bind Inserted.nirImmIntN fun one h₁ =>
      .bind (Inserted.nirAlu2 h₆ h₁) fun doubleSizeX hd =>
      .bind (Inserted.nirAlu2 h₅ hd) fun rowPairId hr => .bind (Inserted.nirAlu2 h₅ hd) fun yRowPairs hy =>
      .bind (Inserted.nirAlu2 hr h₁) fun a ha => .bind (Inserted.nirAlu2 hr h₁) fun c hc =>
      .bind Inserted.nirImmIntN fun m hm => .bind (Inserted.nirAlu2 hc hm) fun e he =>
      .bind (Inserted.nirAlu2 ha he) fun x hx => .bind (Inserted.nirAlu2 hy h₁) fun f hf =>
      .bind (Inserted.nirAlu2 hr h₁) fun g hg => .bind (Inserted.nirAlu2 hg h₁) fun k hk =>
      .bind (Inserted.nirAlu2 hf hk) fun y hy' => .bind (Inserted.nirAlu2 hy' h₇) fun u hu =>
      .bind (Inserted.nirAlu2 hy' h₇) fun w hw => .bind (Inserted.nirVec3 hx hu hw) fun localId hid =>
      .bind (Inserted.nirAlu2 hy' h₆) fun z hz => .bind (Inserted.nirAlu2 hx hz) fun localIndex hli =>
      .pure ⟨hli, hid⟩

theorem workgroupSize_builds (cs : CsInfo) (lo : Nat) :
    Builds (Inserted (lo ≤ ·) fun op _ => CsKeeps op) (workgroupSize cs) (Def.New lo) := by
  unfold workgroupSize
  refine .ite (fun _ => ?_) fun _ => Inserted.nirImmIntN
  exact .bind (Inserted.nirIntrinsic rfl (by simp)) fun _ h =>
    .bind (Inserted.nirChannel h) fun _ hx => .bind (Inserted.nirChannel h) fun _ hy =>
    .bind (Inserted.nirChannel h) fun _ hz => .bind (Inserted.nirAlu2 hx hy) fun _ hxy =>
    Inserted.nirAlu2 hxy hz

/-- The rounded-up division calls only the intrinsics it may, and returns a new value. -/
theorem computeNumSubgroups_builds (cs : CsInfo) (lo : Nat) :
    Builds (Inserted (lo ≤ ·) fun op _ => CsKeeps op) (computeNumSubgroups cs) (Def.New lo) :=
  .bind (workgroupSize_builds cs lo) fun _ hs => .bind (Inserted.nirIntrinsic rfl (by simp)) fun _ hw =>
    .bind (Inserted.nirAlu2 hs hw) fun _ h => .bind (Inserted.nirIaddImm h) fun _ ht =>
    Inserted.nirAlu2 ht hw

theorem localIds_builds (cs : CsInfo) {lo : Nat} {st : CsState} (hst : st.CacheNew lo) :
    Builds (Inserted (lo ≤ ·) fun op _ => CsKeeps op) (localIds cs st) (fun p => Def.New lo p.1 ∧ Def.New lo p.2) := by
  unfold localIds
  cases hc : st.cache with
  | some p => exact .pure (hst p hc)
  | none => exact computeLocalIds_builds cs lo

theorem replaceIntrinsic_apply (d v : Def) (st : CsState) (b : Builder) :
    replaceIntrinsic d v st b =
      if d.bitSize = 64 then
        ((⟨none, some (.all d.index b.ssaAlloc)⟩, { st with progress := true }),
          ⟨b.ssaAlloc + 1, b.emitted ++ [.alu .u2u64 ⟨b.ssaAlloc, v.numComponents, 64⟩ [v.index]]⟩)
      else ((⟨none, some (.all d.index v.index)⟩, { st with progress := true }), b) := by
  unfold replaceIntrinsic
  split <;> rfl

/-- The end of a lowered case removes the intrinsic for a new value, inserting at most a zero
extension of it. -/
theorem replaceIntrinsic_ok {lo : Nat} (d v : Def) (st : CsState) (b : Builder) (hv : lo ≤ v.index)
    (hb : lo ≤ b.ssaAlloc) (hcode : InsertedOk lo b.emitted) :
    (∃ w, (replaceIntrinsic d v st b).1 = (⟨none, some (.all d.index w)⟩, { st with progress := true }) ∧
      lo ≤ w) ∧ b.ssaAlloc ≤ (replaceIntrinsic d v st b).2.ssaAlloc ∧
      InsertedOk lo (replaceIntrinsic d v st b).2.emitted := by
  rw [replaceIntrinsic_apply]
  split
  · refine ⟨⟨_, rfl, hb⟩, Nat.le_succ _, fun j hj => ?_⟩
    rcases List.mem_append.1 hj with hj | hj
    · exact hcode j hj
    · simp only [List.mem_singleton] at hj
      subst hj
      exact ⟨by simpa [Instr.srcs] using hv, by simp [Instr.intrinsic?]⟩
  · exact ⟨⟨_, rfl, hv⟩, le_rfl, hcode⟩

/-! ### One visit -/

/-- An instruction the pass leaves alone: not an intrinsic it removes, nor a 64-bit load it
narrows. -/
def CsKept (i : Instr) : Prop :=
  ∀ op d srcs ix, i = .intrinsic op (some d) srcs ix → csRemoves op = false ∧
    (csCase op = .narrow → d.bitSize ≠ 64)

theorem CsKept.mapSrcs {i : Instr} (h : CsKept i) (f : Nat → Nat) : CsKept (i.mapSrcs f) := by
  rintro op d srcs ix he
  rcases i with ⟨op', _ | d', srcs', ix'⟩ | _ | _ | _ <;> simp only [Instr.mapSrcs] at he <;> cases he
  exact h _ _ _ _ rfl

theorem lowerCsIntrinsicsConvertInstr_kept (cs : CsInfo) {i : Instr} (h : CsKept i) (st : CsState)
    (b : Builder) : lowerCsIntrinsicsConvertInstr cs i st b = ((⟨some i, none⟩, st), b) := by
  rcases i with ⟨op, _ | d, srcs, ix⟩ | _ | _ | _
  · rfl
  · obtain ⟨hrem, hnarrow⟩ := h op d srcs ix rfl
    cases hc : csCase op with
    | narrow =>
      simp only [lowerCsIntrinsicsConvertInstr, hc, hnarrow hc, ↓reduceIte]
      rfl
    | skip =>
      simp only [lowerCsIntrinsicsConvertInstr, hc]
      rfl
    | localIds | numSubgroups => simp [csRemoves, hc] at hrem
  all_goals rfl

theorem lowerCsIntrinsicsConvertInstr_narrow (cs : CsInfo) {op : IntrinsicOp} {d : Def}
    (hc : csCase op = .narrow) (h64 : d.bitSize = 64) (srcs : List Nat) (ix : Indices) (st : CsState)
    (n : Nat) :
    lowerCsIntrinsicsConvertInstr cs (.intrinsic op (some d) srcs ix) st ⟨n, []⟩ =
      ((⟨some (.intrinsic op (some { d with bitSize := 32 }) srcs ix), some (.after d.index n)⟩, st),
        ⟨n + 1, [.alu .u2u64 ⟨n, d.numComponents, 64⟩ [d.index]]⟩) := by
  simp only [lowerCsIntrinsicsConvertInstr, hc, h64, ↓reduceIte]
  rfl

/-- The visit of an intrinsic the pass removes does not read its sources. -/
theorem lowerCsIntrinsicsConvertInstr_removes_srcs (cs : CsInfo) {op : IntrinsicOp}
    (hrem : csRemoves op) (d : Def) (srcs srcs' : List Nat) (ix : Indices) (st : CsState) :
    lowerCsIntrinsicsConvertInstr cs (.intrinsic op (some d) srcs ix) st =
      lowerCsIntrinsicsConvertInstr cs (.intrinsic op (some d) srcs' ix) st := by
  cases hc : csCase op <;> simp only [lowerCsIntrinsicsConvertInstr, hc] <;> simp [csRemoves, hc] at hrem

/-- The visit of an intrinsic the pass removes, at a cursor with next index `n` and with a
block cache of values from `lo ≤ n` on: it inserts code that reads only values from `lo` on,
and rewrites every use to a value from `lo` on. -/
theorem lowerCsIntrinsicsConvertInstr_removes (cs : CsInfo) {op : IntrinsicOp} (hrem : csRemoves op)
    (d : Def) (srcs : List Nat) (ix : Indices) {lo : Nat} {st : CsState} (hst : st.CacheNew lo) {n : Nat}
    (hn : lo ≤ n) :
    ∃ w, (lowerCsIntrinsicsConvertInstr cs (.intrinsic op (some d) srcs ix) st ⟨n, []⟩).1.1 =
        ⟨none, some (.all d.index w)⟩ ∧ lo ≤ w ∧
      n ≤ (lowerCsIntrinsicsConvertInstr cs (.intrinsic op (some d) srcs ix) st ⟨n, []⟩).2.ssaAlloc ∧
      InsertedOk lo (lowerCsIntrinsicsConvertInstr cs (.intrinsic op (some d) srcs ix) st ⟨n, []⟩).2.emitted ∧
      (lowerCsIntrinsicsConvertInstr cs (.intrinsic op (some d) srcs ix) st ⟨n, []⟩).1.2.CacheNew lo := by
  cases hc : csCase op with
  | localIds isId =>
    -- the pair of the block, then its widened component
    set r := localIds cs st ⟨n, []⟩
    have heq : lowerCsIntrinsicsConvertInstr cs (.intrinsic op (some d) srcs ix) st ⟨n, []⟩ =
        replaceIntrinsic d (if isId then r.1.2 else r.1.1) { st with cache := some r.1 } r.2 := by
      simp only [lowerCsIntrinsicsConvertInstr, hc]
      rfl
    obtain ⟨hr₁, ⟨hp₁, hp₂⟩, hr₂⟩ := Inserted.run (localIds_builds cs hst) fun _ hx => le_trans hn hx
    obtain ⟨⟨w, he, hw⟩, hr₃, hr₄⟩ := replaceIntrinsic_ok d (if isId then r.1.2 else r.1.1)
      { st with cache := some r.1 } r.2 (by split <;> assumption) (le_trans hn hr₁) hr₂
    rw [heq, he]
    exact ⟨w, rfl, hw, le_trans hr₁ hr₃, hr₄, fun p hp => by cases hp; exact ⟨hp₁, hp₂⟩⟩
  | numSubgroups =>
    set r := computeNumSubgroups cs ⟨n, []⟩
    have heq : lowerCsIntrinsicsConvertInstr cs (.intrinsic op (some d) srcs ix) st ⟨n, []⟩ =
        replaceIntrinsic d r.1 st r.2 := by
      simp only [lowerCsIntrinsicsConvertInstr, hc]
      rfl
    obtain ⟨hr₁, hv, hr₂⟩ := Inserted.run (computeNumSubgroups_builds cs lo) fun _ hx => le_trans hn hx
    obtain ⟨⟨w, he, hw⟩, hr₃, hr₄⟩ := replaceIntrinsic_ok d r.1 st r.2 hv (le_trans hn hr₁) hr₂
    rw [heq, he]
    exact ⟨w, rfl, hw, le_trans hr₁ hr₃, hr₄, hst⟩
  | narrow | skip => simp [csRemoves, hc] at hrem

/-- What one visit does: leave the instruction alone, narrow a 64-bit load, or remove an
intrinsic the pass lowers. -/
theorem csKept_or (i : Instr) : CsKept i ∨
    (∃ op d srcs ix, i = .intrinsic op (some d) srcs ix ∧ csCase op = .narrow ∧ d.bitSize = 64) ∨
    (∃ op d srcs ix, i = .intrinsic op (some d) srcs ix ∧ csRemoves op) := by
  rcases i with ⟨op, _ | d, srcs, ix⟩ | _ | _ | _
  · exact .inl fun _ _ _ _ h => nomatch h
  · by_cases hrem : csRemoves op
    · exact .inr (.inr ⟨op, d, srcs, ix, rfl, hrem⟩)
    · by_cases hn : csCase op = .narrow ∧ d.bitSize = 64
      · exact .inr (.inl ⟨op, d, srcs, ix, rfl, hn⟩)
      · refine .inl fun _ _ _ _ h => ?_
        cases h
        exact ⟨by simpa using hrem, fun hc h64 => hn ⟨hc, h64⟩⟩
  all_goals exact .inl fun _ _ _ _ h => nomatch h

/-- A removed intrinsic's visit, renamed, is itself: it keeps nothing and inserts code reading
only values a renaming of the old ones leaves alone. -/
private theorem removed_visit_renamed {lo : Nat} {f : Nat → Nat} (hf : ∀ x, lo ≤ x → f x = x)
    (r : (Visit × CsState) × Builder) (hself : r.1.1.self = none) (hcode : InsertedOk lo r.2.emitted) :
    ((r.1.1.mapSrcs f, r.1.2), (⟨r.2.ssaAlloc, r.2.emitted.map (·.mapSrcs f)⟩ : Builder)) = r := by
  obtain ⟨⟨⟨self, rw⟩, st⟩, ⟨alloc, code⟩⟩ := r
  simp only at hself hcode
  subst hself
  have : code.map (·.mapSrcs f) = code :=
    (List.map_congr_left fun j hj => Instr.mapSrcs_eq_self fun x hx => hf x ((hcode j hj).1 x hx)).trans
      (List.map_id _)
  simp [Visit.mapSrcs, this]

/-- The walk body of the pass meets what the recorded description needs, in a function whose
`ssa_alloc` was `n₀` on entry. -/
theorem lowerCsIntrinsicsConvertInstr_deferrable (cs : CsInfo) (n₀ : Nat) :
    Deferrable (CsState.CacheNew n₀) n₀ (fun _ => False) (lowerCsIntrinsicsConvertInstr cs)
      (fun _ => lowerCsIntrinsicsConvertInstr cs) enterBlock where
  natural := by
    intro f i st n hst hn hf hd
    rcases csKept_or i with hk | ⟨op, d, srcs, ix, rfl, hc, h64⟩ | ⟨op, d, srcs, ix, rfl, hrem⟩
    · rw [lowerCsIntrinsicsConvertInstr_kept cs (hk.mapSrcs f), lowerCsIntrinsicsConvertInstr_kept cs hk]
      rfl
    · simp only [Instr.mapSrcs, lowerCsIntrinsicsConvertInstr_narrow cs hc h64]
      simp [Visit.mapSrcs, Instr.mapSrcs, hd d rfl]
    · obtain ⟨w, hself, -, -, hcode, -⟩ := lowerCsIntrinsicsConvertInstr_removes cs hrem d srcs ix hst hn
      rw [Instr.mapSrcs, lowerCsIntrinsicsConvertInstr_removes_srcs cs hrem d _ srcs]
      exact (removed_visit_renamed (fun x hx => hf x (.inl hx)) _ (by rw [hself]) hcode).symm
  rewrites_own := by
    intro _ i st n r hst hn h
    rcases csKept_or i with hk | ⟨op, d, srcs, ix, rfl, hc, h64⟩ | ⟨op, d, srcs, ix, rfl, hrem⟩
    · rw [lowerCsIntrinsicsConvertInstr_kept cs hk] at h
      cases h
    · rw [lowerCsIntrinsicsConvertInstr_narrow cs hc h64] at h
      cases h
      exact ⟨⟨d, rfl, rfl⟩, .inl hn⟩
    · obtain ⟨w, hself, hw, -⟩ := lowerCsIntrinsicsConvertInstr_removes cs hrem d srcs ix hst hn
      rw [hself] at h
      cases h
      exact ⟨⟨d, rfl, rfl⟩, .inl hw⟩
  after_reads := by
    intro _ i st n d v hst hn h
    rcases csKept_or i with hk | ⟨op, d', srcs, ix, rfl, hc, h64⟩ | ⟨op, d', srcs, ix, rfl, hrem⟩
    · rw [lowerCsIntrinsicsConvertInstr_kept cs hk] at h
      cases h
    · rw [lowerCsIntrinsicsConvertInstr_narrow cs hc h64] at h ⊢
      cases h
      simp [Instr.srcs]
    · obtain ⟨w, hself, -⟩ := lowerCsIntrinsicsConvertInstr_removes cs hrem d' srcs ix hst hn
      rw [hself] at h
      cases h
  alloc_mono := by
    intro _ i st n hst hn
    rcases csKept_or i with hk | ⟨op, d, srcs, ix, rfl, hc, h64⟩ | ⟨op, d, srcs, ix, rfl, hrem⟩
    · rw [lowerCsIntrinsicsConvertInstr_kept cs hk]
    · rw [lowerCsIntrinsicsConvertInstr_narrow cs hc h64]
      exact Nat.le_succ n
    · exact (lowerCsIntrinsicsConvertInstr_removes cs hrem d srcs ix hst hn).choose_spec.2.2.1
  inv_visit := by
    intro _ i st n hst hn
    rcases csKept_or i with hk | ⟨op, d, srcs, ix, rfl, hc, h64⟩ | ⟨op, d, srcs, ix, rfl, hrem⟩
    · rwa [lowerCsIntrinsicsConvertInstr_kept cs hk]
    · rwa [lowerCsIntrinsicsConvertInstr_narrow cs hc h64]
    · exact (lowerCsIntrinsicsConvertInstr_removes cs hrem d srcs ix hst hn).choose_spec.2.2.2.2
  inv_enter := fun _ _ _ h => nomatch h

end MesaSim.Cs
