import MesaSim.Cs.Preserve
import Mathlib.Data.List.GetD

/-!
# `lower_cs_intrinsics_convert_impl` keeps the meaning of a function

On an invocation dispatched in linear order (`LinearThread`), outside the quad layout, the
function the pass produces (`brw_nir_lower_cs_intrinsics.c:199–210`) runs along any path through
its blocks as the input does: it leaves memory as the input leaves it, and holds every value the
input computes, under its own name but for the loads the pass narrows or removes, whose values
sit where their uses were rewritten to (`lowerCsIntrinsicsConvertImpl_preserves`).

The proof follows the recorded walk of `MesaSim.Nir.Defer`: a block of the input and its pieces
run in step (`recordBlock_runs`), one visit at a time (`lowerCsIntrinsicsConvertInstr_runs`), and
a path of blocks in step block by block (`execCode_flatMap_sim`). What keeps a visit's code from
overwriting a value renamed to is where the rewrites go (`recordBlock_targets`): to values the
visit's own block defines, in the range of indices its cursor covers, which no other block's
code touches.
-/

namespace MesaSim.Cs
open MesaSim.Nir

/-! ### The recorded blocks -/

/-- The visit as the recorded walk makes it: the pass's visit reads no rewrite. -/
def csVisit (cs : CsInfo) : (Nat → Nat) → Instr → CsState → BuildM (Visit × CsState) :=
  fun _ => lowerCsIntrinsicsConvertInstr cs

theorem recordBlock_cons (cs : CsInfo) (i : Instr) (blk : Block) (st : CsState) (n : Nat)
    (rws : List (Nat × Nat)) :
    recordBlock (csVisit cs) (i :: blk) st n rws =
      (pieceOf (lowerCsIntrinsicsConvertInstr cs i st ⟨n, []⟩) ::
        (recordBlock (csVisit cs) blk
          (lowerCsIntrinsicsConvertInstr cs i st ⟨n, []⟩).1.2
          (lowerCsIntrinsicsConvertInstr cs i st ⟨n, []⟩).2.ssaAlloc
          (rws ++ ((lowerCsIntrinsicsConvertInstr cs i st ⟨n, []⟩).1.1.rewrite.map
            Rewrite.pair).toList)).1,
        (recordBlock (csVisit cs) blk
          (lowerCsIntrinsicsConvertInstr cs i st ⟨n, []⟩).1.2
          (lowerCsIntrinsicsConvertInstr cs i st ⟨n, []⟩).2.ssaAlloc
          (rws ++ ((lowerCsIntrinsicsConvertInstr cs i st ⟨n, []⟩).1.1.rewrite.map
            Rewrite.pair).toList)).2) :=
  rfl

theorem recordBlock_alloc_le (cs : CsInfo) (blk : Block) :
    ∀ (st : CsState) (n : Nat) (rws : List (Nat × Nat)),
      n ≤ (recordBlock (csVisit cs) blk st n rws).2.2 := by
  induction blk with
  | nil => exact fun _ _ _ => le_rfl
  | cons i blk ih =>
    exact fun st n _ => (lowerCsIntrinsicsConvertInstr_grows cs i st n).alloc_le.trans (ih _ _ _)

section Targets

variable {cs : CsInfo} (hg : cs.derivativeGroup ≠ .quads)
include hg

/-- Where the rewrites recorded along a block go: from a load of the block the pass narrows or
removes, to a value the block's code defines, between the cursors it starts and ends at, or to
the pair cached before it, from a 32-bit load of that pair's kind. -/
theorem recordBlock_targets (blk : Block) :
    ∀ (st : CsState) (n : Nat) (rws : List (Nat × Nat)),
      ∀ r ∈ rewritesOf (recordBlock (csVisit cs) blk st n rws).1,
        (∃ op d srcs ix, Instr.intrinsic op (some d) srcs ix ∈ blk ∧ d.index = r.1 ∧
          (csRemoves op ∨ csCase op = .narrow ∧ d.bitSize = 64)) ∧
        (n ≤ r.2 ∧ r.2 < (recordBlock (csVisit cs) blk st n rws).2.2 ∨
          ∃ p, st.cache = some p ∧
            (r.2 = p.1.index ∧ Loads32 blk .loadLocalInvocationIndex r.1 ∨
              r.2 = p.2.index ∧ Loads32 blk .loadLocalInvocationId r.1)) := by
  induction blk with
  | nil => intro _ _ _ r hr; cases hr
  | cons i blk ih =>
    intro st n rws r hr
    rw [recordBlock_cons, rewritesOf_cons, List.mem_append] at hr
    rw [recordBlock_cons]
    rcases hr with hr | hr
    · -- the visit's own rewrite
      have hi : [i] ⊆ i :: blk := List.cons_subset.2 ⟨.head _, List.nil_subset _⟩
      obtain ⟨⟨op, d, srcs, ix, rfl, hd, hk⟩, ht⟩ :=
        lowerCsIntrinsicsConvertInstr_target hg i st n hr
      refine ⟨⟨op, d, srcs, ix, .head _, hd, hk⟩, ?_⟩
      rcases ht with ⟨h₁, h₂⟩ | ⟨p, hp, hl⟩
      · exact .inl ⟨h₁, h₂.trans_le (recordBlock_alloc_le cs blk _ _ _)⟩
      · exact .inr ⟨p, hp, hl.imp (.imp_right (·.mono hi)) (.imp_right (·.mono hi))⟩
    · -- a later one: the pair it reads is this visit's, or was cached before it
      obtain ⟨⟨op, d, srcs, ix, hm, hd, hk⟩, ht⟩ := ih _ _ _ r hr
      refine ⟨⟨op, d, srcs, ix, .tail _ hm, hd, hk⟩, ?_⟩
      rcases ht with ⟨h₁, h₂⟩ | ⟨p, hp, hl⟩
      · exact .inl ⟨(lowerCsIntrinsicsConvertInstr_grows cs i st n).alloc_le.trans h₁, h₂⟩
      · have hs : blk ⊆ i :: blk := List.subset_cons_self _ _
        rcases lowerCsIntrinsicsConvertInstr_cache hg i st n with
          hc | ⟨q, hq, b₁, b₂, b₃, b₄⟩
        · exact .inr ⟨p, hc.symm.trans hp,
            hl.imp (.imp_right (·.mono hs)) (.imp_right (·.mono hs))⟩
        · obtain rfl := Option.some.inj (hq.symm.trans hp)
          have hend := recordBlock_alloc_le cs blk
            (lowerCsIntrinsicsConvertInstr cs i st ⟨n, []⟩).1.2
            (lowerCsIntrinsicsConvertInstr cs i st ⟨n, []⟩).2.ssaAlloc
            (rws ++ ((lowerCsIntrinsicsConvertInstr cs i st ⟨n, []⟩).1.1.rewrite.map
              Rewrite.pair).toList)
          rcases hl with ⟨h, -⟩ | ⟨h, -⟩ <;> rw [h]
          · exact .inl ⟨b₁, b₂.trans_le hend⟩
          · exact .inl ⟨b₃, b₄.trans_le hend⟩

end Targets

/-! ### One block -/

section Block

variable {cs : CsInfo} {M₀ : Machine} (hT : LinearThread cs M₀)
  (hg : cs.derivativeGroup ≠ .quads) {code : List Instr} (hnd : (defsOf code).Nodup) {n₀ : Nat}
  (hlt : ∀ x ∈ defsOf code, x < n₀)
  (hdest : ∀ op d srcs ix, Instr.intrinsic op (some d) srcs ix ∈ code → csRemoves op →
    RemovedDest op d)
  {τ : Nat → Nat} (hold : ∀ x, τ x < n₀ → τ x = x)
  (hnew : ∀ y, n₀ ≤ y → τ y = y)
  (hkept : ∀ i ∈ code, CsKept i → ∀ d, i.dest? = some d → τ d.index = d.index)
include hT hg hnd hlt hdest hold hnew hkept

/-- A block of the input and its recorded pieces, realized under `τ`, run in step from renamed
environments, when `τ` applies the block's rewrites and renames a value into the range of the
block's cursor only by one of them. -/
theorem recordBlock_runs (blk : Block) (hblk : blk ⊆ code) :
    ∀ (st : CsState) (n : Nat) (rws : List (Nat × Nat)) (M : Machine) (env env' : Env)
      {M₁ : Machine} {env₁ : Env}, n₀ ≤ n → M.sysval = M₀.sysval →
      CacheHolds cs M₀ n₀ n env' st →
      Renamed n₀ τ env env' → LoadsHold M₀ code env →
      (∀ r ∈ rewritesOf (recordBlock (csVisit cs) blk st n rws).1,
        τ r.1 = r.2) →
      (∀ x < n₀, n ≤ τ x →
        τ x < (recordBlock (csVisit cs) blk st n rws).2.2 →
        (x, τ x) ∈ rewritesOf (recordBlock (csVisit cs) blk st n rws).1) →
      execCode M blk env = some (M₁, env₁) →
      ∃ env₁', execCode M (realizeBlock τ
          (recordBlock (csVisit cs) blk st n rws).1) env' =
          some (M₁, env₁') ∧
        Renamed n₀ τ env₁ env₁' ∧ LoadsHold M₀ code env₁ := by
  induction blk with
  | nil =>
    intro _ _ _ _ env env' _ _ _ _ _ hR hL _ _ hrun
    cases hrun
    exact ⟨env', rfl, hR, hL⟩
  | cons i blk ih =>
    intro st n rws M env env' M₁ env₁ hn hM hc hR hL hhit hrange hrun
    rw [recordBlock_cons, rewritesOf_cons] at hhit hrange
    rw [recordBlock_cons]
    obtain ⟨⟨M₂, env₂⟩, h₁, h₂⟩ := Option.bind_eq_some.1 hrun
    have hi : i ∈ code := hblk (.head _)
    have hn₁ := (lowerCsIntrinsicsConvertInstr_grows cs i st n).alloc_le
    have hend := recordBlock_alloc_le cs blk (lowerCsIntrinsicsConvertInstr cs i st ⟨n, []⟩).1.2
      (lowerCsIntrinsicsConvertInstr cs i st ⟨n, []⟩).2.ssaAlloc
      (rws ++ ((lowerCsIntrinsicsConvertInstr cs i st ⟨n, []⟩).1.1.rewrite.map
        Rewrite.pair).toList)
    -- the visit's own target lies below the cursor it ends at
    have hownlt : ∀ r ∈ ((lowerCsIntrinsicsConvertInstr cs i st ⟨n, []⟩).1.1.rewrite.map
        Rewrite.pair).toList,
        r.2 < (lowerCsIntrinsicsConvertInstr cs i st ⟨n, []⟩).2.ssaAlloc :=
      fun r hr => by
        rcases (lowerCsIntrinsicsConvertInstr_target hg i st n hr).2 with h | ⟨p, hp, h | h⟩
        · exact h.2
        · rw [h.1]; exact (hc p hp).2.2.1.1.trans_le hn₁
        · rw [h.1]; exact (hc p hp).2.2.2.1.trans_le hn₁
    obtain ⟨env₂', he₂, hR₂, hc₂⟩ :=
      lowerCsIntrinsicsConvertInstr_runs hT hg hlt hdest hold hnew hkept hi hn hM hc hR hL
        (fun r hr => hhit r (List.mem_append_left _ hr))
        (fun x hx h₁ h₂ => (List.mem_append.1 (hrange x hx h₁ (h₂.trans_le hend))).imp_right
          fun hr => by
            rcases (recordBlock_targets hg blk _ _ _ _ hr).2 with h | ⟨p, hp, hk⟩
            · exact absurd h.1 (not_le.2 h₂)
            · exact ⟨p, hp, hk.imp (.imp_right (·.mono fun _ h => hblk (.tail _ h)))
                (.imp_right (·.mono fun _ h => hblk (.tail _ h)))⟩) h₁
    obtain ⟨env₁', he₁, hR₁, hL₁⟩ :=
      ih (fun _ h => hblk (.tail _ h)) _ _ _ M₂ env₂ env₂' (hn.trans hn₁)
        ((execInstr_frame h₁).1.trans hM) hc₂ hR₂ (hL.step hnd hi hM h₁)
        (fun r hr => hhit r (List.mem_append_right _ hr))
        (fun x hx h₁ h₂ =>
          (List.mem_append.1 (hrange x hx (hn₁.trans h₁) h₂)).resolve_left
            fun hr => absurd (hownlt _ hr) (not_lt.2 h₁)) h₂
    refine ⟨env₁', ?_, hR₁, hL₁⟩
    show execCode M (_ ++ realizeBlock τ _) env' = _
    rw [execCode_append, he₂, Option.some_bind]
    exact he₁

end Block

/-! ### The walk over the blocks -/

theorem recordBlocks_cons (cs : CsInfo) (blk : Block) (blks : List Block) (s : CsState) (n : Nat)
    (rws : List (Nat × Nat)) :
    recordBlocks (csVisit cs) enterBlock (blk :: blks) s n rws =
      ((recordBlock (csVisit cs) blk (enterBlock s) n rws).1 ::
        (recordBlocks (csVisit cs) enterBlock blks
          (recordBlock (csVisit cs) blk (enterBlock s) n rws).2.1
          (recordBlock (csVisit cs) blk (enterBlock s) n rws).2.2
          (rws ++ rewritesOf (recordBlock (csVisit cs) blk
            (enterBlock s) n rws).1)).1,
        (recordBlocks (csVisit cs) enterBlock blks
          (recordBlock (csVisit cs) blk (enterBlock s) n rws).2.1
          (recordBlock (csVisit cs) blk (enterBlock s) n rws).2.2
          (rws ++ rewritesOf (recordBlock (csVisit cs) blk
            (enterBlock s) n rws).1)).2) :=
  rfl

theorem recordBlocks_length (cs : CsInfo) (blks : List Block) :
    ∀ (s : CsState) (n : Nat) (rws : List (Nat × Nat)),
      (recordBlocks (csVisit cs) enterBlock blks s n rws).1.length =
        blks.length := by
  induction blks with
  | nil => exact fun _ _ _ => rfl
  | cons blk blks ih => exact fun _ _ _ => congrArg Nat.succ (ih _ _ _)

theorem recordBlocks_alloc_le (cs : CsInfo) (blks : List Block) :
    ∀ (s : CsState) (n : Nat) (rws : List (Nat × Nat)),
      n ≤ (recordBlocks (csVisit cs) enterBlock blks s n rws).2.2 := by
  induction blks with
  | nil => exact fun _ _ _ => le_rfl
  | cons blk blks ih => exact fun _ _ _ => (recordBlock_alloc_le cs blk _ _ _).trans (ih _ _ _)

section Walk

variable {cs : CsInfo} (hg : cs.derivativeGroup ≠ .quads)
include hg

/-- The rewrites of a walk over blocks go from loads it narrows or removes to values defined from
the walk's start on, below where it ends: each block starts with no cached pair. -/
theorem recordBlocks_targets (blks : List Block) :
    ∀ (s : CsState) (n : Nat) (rws : List (Nat × Nat)),
      ∀ r ∈ rewritesOf (recordBlocks (csVisit cs) enterBlock blks s n
          rws).1.flatten,
        (∃ op d srcs ix, Instr.intrinsic op (some d) srcs ix ∈ blks.flatten ∧
          d.index = r.1 ∧ (csRemoves op ∨ csCase op = .narrow ∧ d.bitSize = 64)) ∧
        n ≤ r.2 ∧ r.2 < (recordBlocks (csVisit cs) enterBlock blks s n
          rws).2.2 := by
  induction blks with
  | nil => intro _ _ _ r hr; cases hr
  | cons blk blks ih =>
    intro s n rws r hr
    rw [recordBlocks_cons, List.flatten_cons, rewritesOf_append, List.mem_append] at hr
    rw [recordBlocks_cons]
    rcases hr with hr | hr
    · obtain ⟨⟨op, d, srcs, ix, hm, hd, hk⟩, ht⟩ := recordBlock_targets hg blk _ _ _ r hr
      refine ⟨⟨op, d, srcs, ix, List.mem_append_left _ hm, hd, hk⟩, ?_⟩
      rcases ht with ⟨h₁, h₂⟩ | ⟨p, hp, -⟩
      · exact ⟨h₁, h₂.trans_le (recordBlocks_alloc_le cs blks _ _ _)⟩
      · cases hp
    · obtain ⟨⟨op, d, srcs, ix, hm, hd, hk⟩, h₁, h₂⟩ := ih _ _ _ r hr
      exact ⟨⟨op, d, srcs, ix, List.mem_append_right _ hm, hd, hk⟩,
        (recordBlock_alloc_le cs blk _ _ _).trans h₁, h₂⟩

/-- Block `k` of a walk over blocks is recorded from a state with no cached pair, at a cursor
from the walk's start on; its rewrites are the walk's, and every other rewrite of the walk goes
outside the range its cursor covers. -/
theorem recordBlocks_getD (blks : List Block) :
    ∀ (s : CsState) (n : Nat) (rws : List (Nat × Nat)) (k : Nat), k < blks.length →
      ∃ s' c rws', n ≤ c ∧
        (recordBlocks (csVisit cs) enterBlock blks s n rws).1.getD k [] =
          (recordBlock (csVisit cs) (blks.getD k []) (enterBlock s') c
            rws').1 ∧
        (∀ r ∈ rewritesOf (recordBlock (csVisit cs) (blks.getD k [])
            (enterBlock s') c rws').1,
          r ∈ rewritesOf (recordBlocks (csVisit cs) enterBlock blks s n
            rws).1.flatten) ∧
        ∀ r ∈ rewritesOf (recordBlocks (csVisit cs) enterBlock blks s n
            rws).1.flatten,
          r ∈ rewritesOf (recordBlock (csVisit cs) (blks.getD k [])
              (enterBlock s') c rws').1 ∨ r.2 < c ∨
            (recordBlock (csVisit cs) (blks.getD k []) (enterBlock s') c
              rws').2.2 ≤ r.2 := by
  induction blks with
  | nil => intro _ _ _ k hk; exact absurd hk (Nat.not_lt_zero k)
  | cons blk blks ih =>
    intro s n rws k hk
    rw [recordBlocks_cons, List.flatten_cons, rewritesOf_append]
    cases k with
    | zero =>
      refine ⟨s, n, rws, le_rfl, rfl, fun r hr => List.mem_append_left _ hr, fun r hr => ?_⟩
      rcases List.mem_append.1 hr with h | h
      · exact .inl h
      · exact .inr (.inr (recordBlocks_targets hg blks _ _ _ r h).2.1)
    | succ k =>
      obtain ⟨s', c, rws', hc, heq, hin, hout⟩ := ih _ _ _ k (Nat.lt_of_succ_lt_succ hk)
      refine ⟨s', c, rws', (recordBlock_alloc_le cs blk _ _ _).trans hc, heq,
        fun r hr => List.mem_append_right _ (hin r hr), fun r hr => ?_⟩
      rcases List.mem_append.1 hr with h | h
      · rcases (recordBlock_targets hg blk _ _ _ r h).2 with ⟨-, h₂⟩ | ⟨p, hp, -⟩
        · exact .inr (.inl (h₂.trans_le hc))
        · cases hp
      · exact hout r h

end Walk

/-! ### The pass -/

/-- The pieces the pass records for a function, block by block. -/
def csPieces (cs : CsInfo) (impl : Impl) (st : CsState) : List (List Piece) :=
  (recordBlocks (csVisit cs) enterBlock impl.blocks st impl.ssaAlloc []).1

/-- Where the pass sends each value of a function: the rewrites it records, applied in order. -/
def csRenaming (cs : CsInfo) (impl : Impl) (st : CsState) : Nat → Nat :=
  applyRewrites (rewritesOf (csPieces cs impl st).flatten)

section Pass

variable {cs : CsInfo} (hg : cs.derivativeGroup ≠ .quads) {impl : Impl} (hready : CsReady impl)
  (st : CsState)

include hready in
/-- The function the pass produces is its recorded pieces realized under its renaming, which
sends each value it rewrites where the rewrite asked. -/
theorem lowerCsIntrinsicsConvertImpl_blocks :
    (lowerCsIntrinsicsConvertImpl cs impl st).1.blocks =
        (csPieces cs impl st).map (realizeBlock (csRenaming cs impl st)) ∧
      ∀ r ∈ rewritesOf (csPieces cs impl st).flatten, csRenaming cs impl st r.1 = r.2 := by
  obtain ⟨heq, hhit⟩ :=
    walkImpl_eq_realize (lowerCsIntrinsicsConvertInstr_deferrable cs impl.ssaAlloc) hready.ssa
      (fun _ _ _ _ h => h.elim) st fun _ h => nomatch h
  exact ⟨by rw [lowerCsIntrinsicsConvertImpl, heq]; rfl, fun r hr => hhit r.1 r.2 hr⟩

include hready in
/-- The renaming moves a value only by a rewrite the walk records. -/
theorem csRenaming_cases (x : Nat) :
    csRenaming cs impl st x = x ∨
      (x, csRenaming cs impl st x) ∈ rewritesOf (csPieces cs impl st).flatten := by
  by_cases hx : x ∈ (rewritesOf (csPieces cs impl st).flatten).map (·.1)
  · obtain ⟨r, hr, rfl⟩ := List.mem_map.1 hx
    exact .inr (by rw [(lowerCsIntrinsicsConvertImpl_blocks hready st).2 r hr]; exact hr)
  · exact .inl (applyRewrites_of_not_mem hx)

include hg hready

theorem csRenaming_old {x : Nat} (h : csRenaming cs impl st x < impl.ssaAlloc) :
    csRenaming cs impl st x = x :=
  (csRenaming_cases hready st x).resolve_right fun hr =>
    absurd (recordBlocks_targets hg _ _ _ _ _ hr).2.1 (not_le.2 h)

theorem csRenaming_moved {x : Nat} (h : csRenaming cs impl st x ≠ x) :
    ∃ op d srcs ix, Instr.intrinsic op (some d) srcs ix ∈ impl.blocks.flatten ∧
      d.index = x ∧ (csRemoves op ∨ csCase op = .narrow ∧ d.bitSize = 64) :=
  (recordBlocks_targets hg _ _ _ _ _ ((csRenaming_cases hready st x).resolve_left h)).1

theorem csRenaming_new {y : Nat} (h : impl.ssaAlloc ≤ y) : csRenaming cs impl st y = y := by
  by_contra hy
  obtain ⟨op, d, srcs, ix, hm, rfl, -⟩ := csRenaming_moved hg hready st hy
  exact absurd (hready.ssa.lt _ (List.mem_filterMap.2 ⟨_, hm, rfl⟩)) (not_lt.2 h)

theorem csRenaming_kept {i : Instr} (hi : i ∈ impl.blocks.flatten) (hk : CsKept i) {dd : Def}
    (hdd : i.dest? = some dd) : csRenaming cs impl st dd.index = dd.index := by
  by_contra hx
  obtain ⟨op, d, srcs, ix, hm, hd, hrem⟩ := csRenaming_moved hg hready st hx
  obtain rfl := eq_of_dest_index hready.ssa.nodup hi hm hdd rfl hd.symm
  obtain ⟨h₁, h₂⟩ := hk op d srcs ix rfl
  rcases hrem with h | ⟨hc, h64⟩
  · simp [h] at h₁
  · exact h₂ hc h64

variable {M : Machine} (hT : LinearThread cs M)
  (hdest : ∀ i ∈ impl.blocks.flatten, RemovedDestOk i)
include hT hdest

/-- One block of a function and the block the pass makes of it run in step, from environments
the renaming relates to ones it relates. -/
theorem lowerCsIntrinsicsConvertImpl_block_runs (k : Nat) {M₁ M₂ : Machine} {e e' e₁ : Env}
    (hM : M₁.sysval = M.sysval) (hR : Renamed impl.ssaAlloc (csRenaming cs impl st) e e')
    (hL : LoadsHold M impl.blocks.flatten e)
    (hrun : execCode M₁ (impl.blocks.getD k []) e = some (M₂, e₁)) :
    ∃ e₁', execCode M₁ ((lowerCsIntrinsicsConvertImpl cs impl st).1.blocks.getD k []) e' =
        some (M₂, e₁') ∧ Renamed impl.ssaAlloc (csRenaming cs impl st) e₁ e₁' ∧
      LoadsHold M impl.blocks.flatten e₁ := by
  obtain ⟨hout, hhit⟩ := @lowerCsIntrinsicsConvertImpl_blocks cs impl hready st
  have hget : ((csPieces cs impl st).map (realizeBlock (csRenaming cs impl st))).getD k [] =
      realizeBlock (csRenaming cs impl st) ((csPieces cs impl st).getD k []) :=
    List.getD_map _ [] _
  rw [hout, hget]
  by_cases hk : k < impl.blocks.length
  · obtain ⟨s', c, rws', hc, hgetk, hin, hout'⟩ :=
      recordBlocks_getD hg impl.blocks st impl.ssaAlloc [] k hk
    rw [csPieces, hgetk]
    have hsub : impl.blocks.getD k [] ⊆ impl.blocks.flatten := fun i hi =>
      List.mem_flatten.2 ⟨_, by rw [List.getD_eq_getElem _ _ hk]; exact List.getElem_mem hk, hi⟩
    obtain ⟨e₁', h₁, h₂, h₃⟩ := recordBlock_runs hT hg hready.ssa.nodup hready.ssa.lt
      (fun op d srcs ix hm => hdest _ hm) (fun _ => csRenaming_old hg hready st)
      (fun _ => csRenaming_new hg hready st) (fun _ hi hk _ => csRenaming_kept hg hready st hi hk)
      (impl.blocks.getD k []) hsub (enterBlock s') c rws' M₁ e e' hc hM
      (fun _ hp => nomatch hp) hR hL
      (fun r hr => hhit r (hin r hr))
      (fun x hx h₁ h₂ => by
        rcases csRenaming_cases hready st x with h | h
        · exact absurd (h ▸ h₁) (not_le.2 (hx.trans_le hc))
        · rcases hout' _ h with h' | h' | h'
          · exact h'
          · exact absurd h' (not_lt.2 h₁)
          · exact absurd h' (not_le.2 h₂)) hrun
    exact ⟨e₁', h₁, h₂, h₃⟩
  · rw [List.getD_eq_default _ _ (not_lt.1 hk)] at hrun
    rw [List.getD_eq_default _ _ (by rw [csPieces, recordBlocks_length]; exact not_lt.1 hk)]
    cases hrun
    exact ⟨e', rfl, hR, hL⟩

end Pass

/-- Along any path through its blocks, the function `lower_cs_intrinsics_convert_impl` produces
runs as the input does, on an invocation dispatched in linear order outside the quad layout: to
the same memory, holding every value the input holds, moved only if it is the value of a load
the pass removes or of a 64-bit load it narrows. The input is in SSA form with a value defined
by each load it removes, of the sizes NIR gives them. -/
theorem lowerCsIntrinsicsConvertImpl_preserves {cs : CsInfo} {M : Machine} (hT : LinearThread cs M)
    (hg : cs.derivativeGroup ≠ .quads) {impl : Impl} (hready : CsReady impl)
    (hdest : ∀ i ∈ impl.blocks.flatten, RemovedDestOk i) (st : CsState) (path : List Nat)
    {M' : Machine} {env : Env}
    (hrun : execCode M (path.flatMap (impl.blocks.getD · [])) (fun _ => none) = some (M', env)) :
    ∃ τ : Nat → Nat, (∀ x, τ x ≠ x → ∃ op d srcs ix, Instr.intrinsic op (some d) srcs ix ∈
        impl.blocks.flatten ∧ d.index = x ∧ (csRemoves op ∨ csCase op = .narrow ∧ d.bitSize = 64)) ∧
      ∃ env', execCode M (path.flatMap ((lowerCsIntrinsicsConvertImpl cs impl st).1.blocks.getD · []))
          (fun _ => none) = some (M', env') ∧ ∀ x v, env x = some v → env' (τ x) = some v := by
  refine ⟨csRenaming cs impl st, fun _ => csRenaming_moved hg hready st, ?_⟩
  -- block by block along the path, from empty environments
  obtain ⟨env', he, -, hR, -⟩ := execCode_flatMap_sim
    (fun M₁ e e' => M₁.sysval = M.sysval ∧
      Renamed impl.ssaAlloc (csRenaming cs impl st) e e' ∧ LoadsHold M impl.blocks.flatten e)
    (fun k M₁ e e' M₂ e₁ h hrun =>
      have ⟨e₁', h₁, h₂, h₃⟩ :=
        lowerCsIntrinsicsConvertImpl_block_runs hg hready st hT hdest k h.1 h.2.1 h.2.2 hrun
      ⟨e₁', h₁, (execCode_frame hrun).1.trans h.1, h₂, h₃⟩)
    path M (fun _ => none) (fun _ => none) M' env
    ⟨rfl, fun _ _ h => (nomatch h), fun _ _ _ _ _ _ _ h => nomatch h⟩ hrun
  exact ⟨env', he, fun x v hv => (hR x v hv).2⟩

/-- A kernel block storing its `gl_LocalInvocationIndex`, loaded as 64 bits, at address 256,
after loading the number of subgroups. -/
def storeLocalIndex : Impl :=
  ⟨[[.intrinsic .loadLocalInvocationIndex (some ⟨0, 1, 64⟩) [] .none,
    .intrinsic .loadNumSubgroups (some ⟨1, 1, 32⟩) [] .none,
    .loadConst ⟨2, 1, 64⟩ [256],
    .intrinsic .storeGlobal none [0, 2] ⟨0, 0, 0, 1⟩]], 3⟩

/-- Invocation 11 of an 8×4×1 workgroup runs the block twice round, as a loop would, and the
lowered block the same way. -/
theorem lowerCsIntrinsicsConvertImpl_preserves_storeLocalIndex :
    ∃ M' env, execCode invocation11 ([0, 0].flatMap (storeLocalIndex.blocks.getD · []))
        (fun _ => none) = some (M', env) ∧
      ∃ τ : Nat → Nat, (∀ x, τ x ≠ x → ∃ op d srcs ix, Instr.intrinsic op (some d) srcs ix ∈
          storeLocalIndex.blocks.flatten ∧ d.index = x ∧
            (csRemoves op ∨ csCase op = .narrow ∧ d.bitSize = 64)) ∧
        ∃ env', execCode invocation11 ([0, 0].flatMap ((lowerCsIntrinsicsConvertImpl
            ⟨false, (8, 4, 1), .none⟩ storeLocalIndex ⟨none, false⟩).1.blocks.getD · []))
            (fun _ => none) = some (M', env') ∧ ∀ x v, env x = some v → env' (τ x) = some v :=
  ⟨_, _, rfl, lowerCsIntrinsicsConvertImpl_preserves invocation11_linearThread (by decide)
    (by decide) (by decide) _ _ rfl⟩

end MesaSim.Cs
