import MesaSim.Nir.Walk
import Mathlib.Data.List.Nodup

/-!
# The walk with its rewrites deferred

The walk of `MesaSim.Nir.Walk` rewrites uses in place, over the whole function, while it goes.
This module describes its result without that: each visited instruction contributes a `Piece`
(the instruction if it stays, the code inserted after it, the rewrite asked for), computed
from the instruction as it was in the input, and every rewrite of the walk is applied once, at
the end, to all pieces but the code a `rewrite_uses_after` skips. The two agree
(`walkImpl_eq_realize`) when the input is in SSA form, each rewrite replaces the value of the
instruction being visited, and the body only carries the visited instruction's sources over
(`Deferrable`). A body that looks at what a source is (`nir_src_is_const`) sees it renamed in
the walk; the recorded walk runs a body `visitD f` told the renaming `f` made so far.
-/

namespace MesaSim.Nir

/-- One visit's share of the output: the instruction if it stays, the code inserted after it,
and the rewrite the body asked for. -/
structure Piece where
  self : Option Instr
  code : List Instr
  rewrite : Option Rewrite
  deriving DecidableEq, Repr

/-- The code a `rewrite_uses_after` skips: later rewrites do not reach it either. -/
def Piece.frozen (p : Piece) : Bool :=
  match p.rewrite with
  | some (.after _ _) => true
  | _ => false

/-- The instructions a piece ends up as once the rewrites `τ` of the walk are applied. -/
def Piece.realize (τ : Nat → Nat) (p : Piece) : List Instr :=
  p.self.toList.map (·.mapSrcs τ) ++ if p.frozen then p.code else p.code.map (·.mapSrcs τ)

/-- A block of pieces, realized. -/
def realizeBlock (τ : Nat → Nat) (ps : List Piece) : Block := ps.flatMap (·.realize τ)

/-- The rewrites of a walk, applied in the order they were made. -/
def applyRewrites (rws : List (Nat × Nat)) (x : Nat) : Nat :=
  rws.foldl (fun x r => if x = r.1 then r.2 else x) x

/-- The walk with its rewrites recorded rather than applied. -/
structure Defer where
  done : List (List Piece)
  out : List Piece
  todo : Block
  later : List Block
  ssaAlloc : Nat
  rws : List (Nat × Nat)
  deriving Repr

/-- Record the body's decision at one instruction. -/
def Defer.insert (D : Defer) (p : Piece) : Defer :=
  { D with out := D.out ++ [p], rws := D.rws ++ (p.rewrite.map Rewrite.pair).toList }

section Defer

variable {σ : Type} (visitD : (Nat → Nat) → Instr → σ → BuildM (Visit × σ))

/-- One visit, recorded. -/
def Defer.step (D : Defer) (s : σ) : Defer × σ :=
  match D.todo with
  | [] => (D, s)
  | i :: todo =>
    let r := visitD (applyRewrites D.rws) i s ⟨D.ssaAlloc, []⟩
    ({ D with todo := todo, ssaAlloc := r.2.ssaAlloc }.insert ⟨r.1.1.self, r.2.emitted, r.1.1.rewrite⟩,
      r.1.2)

/-- The visits of the `n` instructions left in the current block, recorded. -/
def Defer.block : Nat → Defer → σ → Defer × σ
  | 0, D, s => (D, s)
  | n + 1, D, s =>
    let r := D.step visitD s
    Defer.block n r.1 r.2

/-- The visits of the `n` blocks not reached yet, recorded. -/
def Defer.blocks (enter : σ → σ) : Nat → Defer → σ → Defer × σ
  | 0, D, s => (D, s)
  | n + 1, D, s =>
    match D.later with
    | [] => (D, s)
    | blk :: rest =>
      let r := Defer.block visitD blk.length { D with out := [], todo := blk, later := rest } (enter s)
      Defer.blocks enter n { r.1 with done := r.1.done ++ [r.1.out], out := [] } r.2

/-- The recorded walk of a function: its pieces block by block, its rewrites, the final
`ssa_alloc` and pass state. -/
def deferImpl (enter : σ → σ) (impl : Impl) (s : σ) : Defer × σ :=
  Defer.blocks visitD enter impl.blocks.length ⟨[], [], [], impl.blocks, impl.ssaAlloc, []⟩ s

end Defer

/-! ### Rewrites as one substitution -/

theorem applyRewrites_nil : applyRewrites [] = id := rfl

theorem applyRewrites_append_single (rws : List (Nat × Nat)) (d v x : Nat) :
    applyRewrites (rws ++ [(d, v)]) x =
      if applyRewrites rws x = d then v else applyRewrites rws x := by
  simp [applyRewrites, List.foldl_append]

/-- Values no rewrite replaces are left alone. -/
theorem applyRewrites_of_not_mem {rws : List (Nat × Nat)} {x : Nat} (h : x ∉ rws.map (·.1)) :
    applyRewrites rws x = x := by
  induction rws using List.reverseRecOn with
  | nil => rfl
  | append_singleton rws r ih =>
    obtain ⟨d, v⟩ := r
    simp only [List.map_append, List.mem_append, List.map_cons, List.map_nil,
      List.mem_singleton, not_or] at h
    rw [applyRewrites_append_single, ih h.1, if_neg h.2]

theorem mapSrcs_applyRewrites_append (rws : List (Nat × Nat)) (d v : Nat) (i : Instr) :
    (i.mapSrcs (applyRewrites rws)).rewriteUses d v =
      i.mapSrcs (applyRewrites (rws ++ [(d, v)])) := by
  rw [Instr.rewriteUses, Instr.mapSrcs_mapSrcs]
  congr 1
  funext x
  simp [applyRewrites_append_single]

theorem Piece.frozen_iff (p : Piece) : p.frozen = true ↔ ∃ d v, p.rewrite = some (.after d v) := by
  unfold Piece.frozen
  split <;> simp_all

/-- One more rewrite reaches every realized piece but the frozen code, which it must not
touch. -/
theorem realizeBlock_rewrite (rws : List (Nat × Nat)) (d v : Nat) (ps : List Piece)
    (hps : ∀ p ∈ ps, p.frozen → ∀ j ∈ p.code, d ∉ j.srcs) :
    (realizeBlock (applyRewrites rws) ps).map (·.rewriteUses d v) =
      realizeBlock (applyRewrites (rws ++ [(d, v)])) ps := by
  induction ps with
  | nil => rfl
  | cons p ps ih =>
    have hcode : p.frozen → p.code.map (·.rewriteUses d v) = p.code := fun hf =>
      (List.map_congr_left fun j hj => Instr.rewriteUses_of_not_mem (hps p (.head _) hf j hj)).trans
        (List.map_id _)
    simp only [realizeBlock, List.flatMap_cons, List.map_append] at ih ⊢
    rw [ih fun q hq => hps q (.tail _ hq)]
    unfold Piece.realize
    cases hf : p.frozen <;>
      simp [List.map_map, Function.comp_def, mapSrcs_applyRewrites_append, hcode, hf]

/-! ### The recorded walk, realized, is the eager one -/

/-- The eager walk `E` is the recorded walk `D` with its rewrites applied, to the pieces walked
and to the instructions not reached yet. -/
structure Realizes (E : Walk) (D : Defer) : Prop where
  done_eq : E.done = D.done.map (realizeBlock (applyRewrites D.rws))
  out_eq : E.out = realizeBlock (applyRewrites D.rws) D.out
  todo_eq : E.todo = D.todo.map (·.mapSrcs (applyRewrites D.rws))
  later_eq : E.later = D.later.map (·.map (·.mapSrcs (applyRewrites D.rws)))
  alloc_eq : E.ssaAlloc = D.ssaAlloc

/-- The values defined by the instructions the recorded walk has not reached. -/
def Defer.pending (D : Defer) : List Nat := defsOf (D.todo ++ D.later.flatten)

/-- What the recorded walk keeps true of a function in SSA form whose `ssa_alloc` was `n₀` on
entry, where the body may also read the `pinned` values: the values not reached yet are
distinct, old and not rewritten; each rewritten value is old, not pinned, rewritten once, and to
a new or pinned value; frozen code reads only its own instruction's value and new values. -/
structure Defer.Ok (n₀ : Nat) (pinned : Nat → Prop) (D : Defer) : Prop where
  alloc_ge : n₀ ≤ D.ssaAlloc
  rws_lt : ∀ r ∈ D.rws, r.1 < n₀
  rws_new : ∀ r ∈ D.rws, n₀ ≤ r.2 ∨ pinned r.2
  rws_unpinned : ∀ r ∈ D.rws, ¬pinned r.1
  rws_nodup : (D.rws.map (·.1)).Nodup
  pending_nodup : D.pending.Nodup
  pending_lt : ∀ x ∈ D.pending, x < n₀
  pending_new : ∀ x ∈ D.pending, x ∉ D.rws.map (·.1)
  frozen_ok : ∀ p ∈ D.done.flatten ++ D.out, ∀ d v, p.rewrite = some (.after d v) →
    d ∈ D.rws.map (·.1) ∧ ∀ j ∈ p.code, ∀ x ∈ j.srcs, x = d ∨ n₀ ≤ x

section Ok

variable {n₀ : Nat} {pinned : Nat → Prop} {D : Defer}

/-- No rewrite replaces a new or a pinned value. -/
theorem Defer.Ok.not_mem_rws (h : D.Ok n₀ pinned) {x : Nat} (hx : n₀ ≤ x ∨ pinned x) :
    x ∉ D.rws.map (·.1) := fun hm => by
  obtain ⟨r, hr, rfl⟩ := List.mem_map.1 hm
  exact hx.elim (fun hx => absurd (h.rws_lt r hr) (by omega)) (h.rws_unpinned r hr)

theorem Defer.Ok.applyRewrites_new (h : D.Ok n₀ pinned) {x : Nat} (hx : n₀ ≤ x ∨ pinned x) :
    applyRewrites D.rws x = x :=
  applyRewrites_of_not_mem (h.not_mem_rws hx)

/-- A value not reached yet is read by no frozen code. -/
theorem Defer.Ok.frozen_not_read (h : D.Ok n₀ pinned) {d : Nat}
    (hd : d ∈ D.pending) : ∀ p ∈ D.done.flatten ++ D.out, p.frozen → ∀ j ∈ p.code, d ∉ j.srcs := by
  intro p hp hf j hj hdj
  obtain ⟨d', v', hrw⟩ := (Piece.frozen_iff p).1 hf
  obtain ⟨hd', hsrc⟩ := h.frozen_ok p hp d' v' hrw
  rcases hsrc j hj d hdj with rfl | hge
  · exact h.pending_new d hd hd'
  · exact absurd (h.pending_lt d hd) (by omega)

theorem Defer.pending_of_todo_cons {i : Instr} {todo : Block} (hT : D.todo = i :: todo) :
    D.pending = (i.dest?.map (·.index)).toList ++ defsOf (todo ++ D.later.flatten) := by
  simp [Defer.pending, hT]

/-- Recording a visit whose rewrite, if any, replaces the visited instruction's value, not a
pinned one, and whose frozen code reads only that value and new ones keeps `Ok`. -/
theorem Defer.Ok.insert_next (h : D.Ok n₀ pinned) {i : Instr} {todo : Block}
    (hT : D.todo = i :: todo) {n : Nat} (hn : D.ssaAlloc ≤ n) (p : Piece)
    (hown : ∀ r, p.rewrite = some r →
      (∃ d, i.dest? = some d ∧ r.pair.1 = d.index) ∧ (n₀ ≤ r.pair.2 ∨ pinned r.pair.2))
    (hpin : ∀ r, p.rewrite = some r → ¬pinned r.pair.1)
    (hafter : ∀ d v, p.rewrite = some (.after d v) → ∀ j ∈ p.code, ∀ x ∈ j.srcs, x = d ∨ n₀ ≤ x) :
    ({ D with todo := todo, ssaAlloc := n }.insert p).Ok n₀ pinned := by
  have hP := Defer.pending_of_todo_cons hT
  have hnd := h.pending_nodup
  rw [hP, List.nodup_append] at hnd
  have hlt := h.pending_lt
  have hnew := h.pending_new
  rw [hP] at hlt hnew
  simp only [List.mem_append] at hlt hnew
  -- the rewrite, if any, replaces the visited instruction's value
  have hrw : ∀ r ∈ (p.rewrite.map Rewrite.pair).toList, r.1 ∈ (i.dest?.map (·.index)).toList ∧
      (n₀ ≤ r.2 ∨ pinned r.2) ∧ ¬pinned r.1 := by
    intro r hr
    obtain ⟨r', hr', rfl⟩ : ∃ r', p.rewrite = some r' ∧ r'.pair = r := by
      simpa [Option.mem_toList] using hr
    obtain ⟨⟨d, hd, he⟩, hfresh⟩ := hown r' hr'
    exact ⟨by simp [hd, he], hfresh, hpin r' hr'⟩
  have hrws : ∀ {Q : Nat × Nat → Prop}, (∀ r ∈ D.rws, Q r) →
      (∀ r ∈ (p.rewrite.map Rewrite.pair).toList, Q r) →
      ∀ r ∈ ({ D with todo := todo, ssaAlloc := n }.insert p).rws, Q r :=
    fun h₁ h₂ r hr => (List.mem_append.1 hr).elim (h₁ r) (h₂ r)
  refine ⟨le_trans h.alloc_ge hn, hrws h.rws_lt fun r hr => hlt _ (.inl (hrw r hr).1),
    hrws h.rws_new fun r hr => (hrw r hr).2.1, hrws h.rws_unpinned fun r hr => (hrw r hr).2.2, ?_,
    hnd.2.1, fun x hx => hlt x (.inr hx), ?_, ?_⟩
  · simp only [Defer.insert, List.map_append]
    refine List.nodup_append.2 ⟨h.rws_nodup, ?_, fun x hx hx' => ?_⟩
    · cases hp : p.rewrite <;> simp
    · obtain ⟨r, hr, rfl⟩ := List.mem_map.1 hx'
      exact hnew _ (.inl (hrw r hr).1) hx
  · intro x hx hm
    simp only [Defer.insert, List.map_append, List.mem_append] at hm
    rcases hm with hm | hm
    · exact hnew x (.inr hx) hm
    · obtain ⟨r, hr, rfl⟩ := List.mem_map.1 hm
      exact hnd.2.2 (hrw r hr).1 hx
  · simp only [Defer.insert, List.append_assoc, List.mem_append, List.mem_singleton]
    rintro q (hq | hq | rfl) d v hq'
    · obtain ⟨h1, h2⟩ := h.frozen_ok q (List.mem_append_left _ hq) d v hq'
      exact ⟨by simp only [List.map_append, List.mem_append]; exact .inl h1, h2⟩
    · obtain ⟨h1, h2⟩ := h.frozen_ok q (List.mem_append_right _ hq) d v hq'
      exact ⟨by simp only [List.map_append, List.mem_append]; exact .inl h1, h2⟩
    · refine ⟨?_, hafter d v hq'⟩
      simp [hq', Rewrite.pair]

end Ok

/-- A rewrite that no frozen piece reads reaches the blocks walked, the instructions not
reached and the later blocks as one more recorded rewrite. -/
theorem Realizes.rewriteUses_rest {E : Walk} {D : Defer} (h : Realizes E D) (d x : Nat)
    (hst : ∀ q ∈ D.done.flatten ++ D.out, q.frozen → ∀ j ∈ q.code, d ∉ j.srcs) :
    E.done.map (List.map (Instr.rewriteUses d x)) =
        D.done.map (realizeBlock (applyRewrites (D.rws ++ [(d, x)]))) ∧
      E.todo.map (Instr.rewriteUses d x) =
        D.todo.map (·.mapSrcs (applyRewrites (D.rws ++ [(d, x)]))) ∧
      E.later.map (List.map (Instr.rewriteUses d x)) =
        D.later.map (·.map (·.mapSrcs (applyRewrites (D.rws ++ [(d, x)])))) := by
  have hnext : ∀ blk : Block, (blk.map (·.mapSrcs (applyRewrites D.rws))).map
      (Instr.rewriteUses d x) = blk.map (·.mapSrcs (applyRewrites (D.rws ++ [(d, x)]))) :=
    fun _ => by simp [List.map_map, Function.comp_def, mapSrcs_applyRewrites_append]
  refine ⟨?_, by rw [h.todo_eq, hnext], ?_⟩
  · rw [h.done_eq, List.map_map]
    exact List.map_congr_left fun blk hblk => realizeBlock_rewrite _ _ _ _ fun q hq =>
      hst q (List.mem_append_left _ (List.mem_flatten.2 ⟨blk, hblk, hq⟩))
  · rw [h.later_eq, List.map_map]
    exact List.map_congr_left fun blk _ => hnext blk

/-- The eager walk inserts what the recorded walk records, renamed by the rewrites so far. -/
theorem Realizes.insert {E : Walk} {D : Defer} (h : Realizes E D) (p : Piece)
    (hstable : ∀ r, p.rewrite = some r →
      ∀ q ∈ D.done.flatten ++ D.out, q.frozen → ∀ j ∈ q.code, r.pair.1 ∉ j.srcs)
    (hcode : p.frozen → p.code.map (·.mapSrcs (applyRewrites D.rws)) = p.code) :
    Realizes (E.insert ⟨p.self.map (·.mapSrcs (applyRewrites D.rws)), p.rewrite⟩
      (p.code.map (·.mapSrcs (applyRewrites D.rws)))) (D.insert p) := by
  obtain ⟨self, code, rw⟩ := p
  have hself : ∀ τ : Nat → Nat, (self.map (·.mapSrcs τ)).toList = self.toList.map (·.mapSrcs τ) :=
    fun _ => by cases self <;> rfl
  rcases rw with _ | ⟨d, x⟩ | ⟨d, x⟩
  · refine ⟨?_, ?_, ?_, ?_, h.alloc_eq⟩
    · show E.done = D.done.map (realizeBlock (applyRewrites (D.rws ++ [])))
      rw [List.append_nil, h.done_eq]
    · show E.out ++ (self.map (Instr.mapSrcs (applyRewrites D.rws))).toList ++ code.map (Instr.mapSrcs (applyRewrites D.rws)) =
        realizeBlock (applyRewrites (D.rws ++ [])) (D.out ++ [⟨self, code, none⟩])
      simp [h.out_eq, realizeBlock, Piece.realize, Piece.frozen, hself]
    · show E.todo = D.todo.map (·.mapSrcs (applyRewrites (D.rws ++ [])))
      rw [List.append_nil, h.todo_eq]
    · show E.later = D.later.map (·.map (·.mapSrcs (applyRewrites (D.rws ++ []))))
      rw [List.append_nil, h.later_eq]
  · have hst : ∀ q ∈ D.done.flatten ++ D.out, q.frozen → ∀ j ∈ q.code, d ∉ j.srcs := hstable _ rfl
    obtain ⟨hdone, htodo, hlater⟩ := h.rewriteUses_rest d x hst
    refine ⟨hdone, ?_, htodo, hlater, h.alloc_eq⟩
    show (E.out ++ (self.map (Instr.mapSrcs (applyRewrites D.rws))).toList ++ code.map (Instr.mapSrcs (applyRewrites D.rws))).map (Instr.rewriteUses d x) =
      realizeBlock (applyRewrites (D.rws ++ [(d, x)])) (D.out ++ [⟨self, code, some (.all d x)⟩])
    rw [← realizeBlock_rewrite D.rws d x _ fun q hq => ?_]
    · simp [h.out_eq, realizeBlock, Piece.realize, Piece.frozen, hself]
    · rcases List.mem_append.1 hq with hq | hq
      · exact hst q (List.mem_append_right _ hq)
      · simp [List.mem_singleton.1 hq, Piece.frozen]
  · have hst : ∀ q ∈ D.done.flatten ++ D.out, q.frozen → ∀ j ∈ q.code, d ∉ j.srcs := hstable _ rfl
    obtain ⟨hdone, htodo, hlater⟩ := h.rewriteUses_rest d x hst
    refine ⟨hdone, ?_, htodo, hlater, h.alloc_eq⟩
    show (E.out ++ (self.map (Instr.mapSrcs (applyRewrites D.rws))).toList).map (Instr.rewriteUses d x) ++ code.map (Instr.mapSrcs (applyRewrites D.rws)) =
      realizeBlock (applyRewrites (D.rws ++ [(d, x)])) (D.out ++ [⟨self, code, some (.after d x)⟩])
    rw [List.map_append, h.out_eq,
      realizeBlock_rewrite D.rws d x _ fun q hq => hst q (List.mem_append_right _ hq), hcode rfl]
    simp [realizeBlock, Piece.realize, Piece.frozen, hself, List.map_map, Function.comp_def,
      mapSrcs_applyRewrites_append]

section Deferrable

variable {σ : Type} (inv : σ → Prop) (n₀ : Nat) (pinned : Nat → Prop)
  (visit : Instr → σ → BuildM (Visit × σ)) (visitD : (Nat → Nat) → Instr → σ → BuildM (Visit × σ))
  (enter : σ → σ)

/-- The decision with the kept instruction's sources renamed by `f`. -/
def Visit.mapSrcs (f : Nat → Nat) (v : Visit) : Visit := { v with self := v.self.map (·.mapSrcs f) }

/-- What the recorded description needs of a walk body `visit` and its recorded form `visitD`,
at pass states satisfying `inv` and in a function whose `ssa_alloc` was `n₀` on entry; besides
the visited instruction's sources, the body reads only new values and the `pinned` ones. -/
structure Deferrable : Prop where
  /-- The body only carries the visited instruction's sources over: on sources renamed by an `f`
  that keeps new and pinned values and the instruction's own value, it keeps and inserts what
  `visitD f` does on the original ones, renamed. -/
  natural : ∀ f i s n, inv s → n₀ ≤ n → (∀ x, n₀ ≤ x ∨ pinned x → f x = x) →
    (∀ d, i.dest? = some d → f d.index = d.index) →
    visit (i.mapSrcs f) s ⟨n, []⟩ =
      ((((visitD f i s ⟨n, []⟩).1.1.mapSrcs f), (visitD f i s ⟨n, []⟩).1.2),
        ⟨(visitD f i s ⟨n, []⟩).2.ssaAlloc, (visitD f i s ⟨n, []⟩).2.emitted.map (·.mapSrcs f)⟩)
  /-- A rewrite replaces the visited instruction's value by a new or a pinned value. -/
  rewrites_own : ∀ f i s n r, inv s → n₀ ≤ n → (visitD f i s ⟨n, []⟩).1.1.rewrite = some r →
    (∃ d, i.dest? = some d ∧ r.pair.1 = d.index) ∧ (n₀ ≤ r.pair.2 ∨ pinned r.pair.2)
  /-- The code a `rewrite_uses_after` skips reads only the replaced value and new values. -/
  after_reads : ∀ f i s n d v, inv s → n₀ ≤ n →
    (visitD f i s ⟨n, []⟩).1.1.rewrite = some (.after d v) →
    ∀ j ∈ (visitD f i s ⟨n, []⟩).2.emitted, ∀ x ∈ j.srcs, x = d ∨ n₀ ≤ x
  /-- The builder only allocates. -/
  alloc_mono : ∀ f i s n, inv s → n₀ ≤ n → n ≤ (visitD f i s ⟨n, []⟩).2.ssaAlloc
  inv_visit : ∀ f i s n, inv s → n₀ ≤ n → inv (visitD f i s ⟨n, []⟩).1.2
  /-- Entering a block keeps `inv`. -/
  inv_enter : ∀ s, inv s → inv (enter s)

/-- Visiting the instruction defining a pinned value asks for no rewrite. -/
def PinKept (i : Instr) : Prop :=
  ∀ d, i.dest? = some d → pinned d.index →
    ∀ f s n, inv s → n₀ ≤ n → (visitD f i s ⟨n, []⟩).1.1.rewrite = none

/-- The eager walk at `E` is the recorded walk at `D`, realized, with the same pass state; no
instruction left to visit rewrites a pinned value. -/
structure Tracks (E : Walk × σ) (D : Defer × σ) : Prop where
  state_eq : E.2 = D.2
  realizes : Realizes E.1 D.1
  ok : D.1.Ok n₀ pinned
  pins : ∀ i ∈ D.1.todo ++ D.1.later.flatten, PinKept inv n₀ pinned visitD i

variable {inv n₀ pinned visit visitD enter}

theorem Tracks.step (hv : Deferrable inv n₀ pinned visit visitD enter) {E : Walk × σ}
    {D : Defer × σ} (h : Tracks inv n₀ pinned visitD E D) (hs : inv D.2) :
    Tracks inv n₀ pinned visitD (E.1.step visit E.2) (D.1.step visitD D.2) ∧
      inv (D.1.step visitD D.2).2 := by
  rcases E with ⟨E, s⟩
  rcases D with ⟨D, t⟩
  obtain ⟨hst, hR, hD, hpins⟩ := h
  obtain rfl : s = t := hst
  dsimp only at hR hD hs hpins ⊢
  cases hT : D.todo with
  | nil =>
    have hE : E.todo = [] := by rw [hR.todo_eq, hT]; rfl
    simp only [Walk.step, Defer.step, hE, hT]
    exact ⟨⟨rfl, hR, hD, hpins⟩, hs⟩
  | cons i todo =>
    have hE : E.todo = i.mapSrcs (applyRewrites D.rws) :: todo.map (·.mapSrcs (applyRewrites D.rws)) := by
      rw [hR.todo_eq, hT]; rfl
    have hP := Defer.pending_of_todo_cons hT
    have hown : ∀ d, i.dest? = some d → applyRewrites D.rws d.index = d.index := fun d hd =>
      applyRewrites_of_not_mem (hD.pending_new _ (by simp [hP, hd]))
    have hnat := hv.natural _ i s D.ssaAlloc hs hD.alloc_ge (fun _ => hD.applyRewrites_new) hown
    have hkept := hpins i (by rw [hT]; exact .head _)
    simp only [Walk.step, Defer.step, hE, hT, hR.alloc_eq, hnat]
    set r := visitD (applyRewrites D.rws) i s ⟨D.ssaAlloc, []⟩ with hr
    -- the rewrite, if any, replaces `i`'s value, which no frozen code reads, no rewrite has
    -- touched and is not pinned
    have hpend : ∀ r', r.1.1.rewrite = some r' → r'.pair.1 ∈ D.pending := fun r' h' => by
      obtain ⟨⟨d, hd, he⟩, -⟩ := hv.rewrites_own _ i s _ r' hs hD.alloc_ge h'
      simp [hP, hd, he]
    have hpin : ∀ r', r.1.1.rewrite = some r' → ¬pinned r'.pair.1 := fun r' h' hp => by
      obtain ⟨⟨d, hd, he⟩, -⟩ := hv.rewrites_own _ i s _ r' hs hD.alloc_ge h'
      rw [hkept d hd (he ▸ hp) _ s _ hs hD.alloc_ge] at h'
      cases h'
    refine ⟨⟨rfl, ?_, hD.insert_next hT (hv.alloc_mono _ i s _ hs hD.alloc_ge) _
      (hv.rewrites_own _ i s _ · hs hD.alloc_ge) hpin
      (hv.after_reads _ i s _ · · hs hD.alloc_ge), fun j hj => hpins j (by rw [hT]; exact .tail _ hj)⟩,
      hv.inv_visit _ i s _ hs hD.alloc_ge⟩
    refine Realizes.insert
      (E := { E with todo := todo.map (Instr.mapSrcs (applyRewrites D.rws)), ssaAlloc := r.2.ssaAlloc })
      (D := { D with todo := todo, ssaAlloc := r.2.ssaAlloc })
      ⟨hR.done_eq, hR.out_eq, rfl, hR.later_eq, rfl⟩ ⟨r.1.1.self, r.2.emitted, r.1.1.rewrite⟩
      (fun r' h' => hD.frozen_not_read (hpend r' h')) fun hf => ?_
    obtain ⟨d, v, hdv⟩ := (Piece.frozen_iff _).1 hf
    have hd := hpend _ hdv
    refine List.map_congr_left (fun j hj => Instr.mapSrcs_eq_self fun x hx => ?_) |>.trans
      (List.map_id _)
    rcases hv.after_reads _ i s _ d v hs hD.alloc_ge hdv j hj x hx with rfl | hge
    · exact applyRewrites_of_not_mem (hD.pending_new _ hd)
    · exact hD.applyRewrites_new (.inl hge)

theorem Tracks.block (hv : Deferrable inv n₀ pinned visit visitD enter) :
    ∀ (n : Nat) {E : Walk × σ} {D : Defer × σ}, Tracks inv n₀ pinned visitD E D → inv D.2 →
      Tracks inv n₀ pinned visitD (Walk.block visit n E.1 E.2) (Defer.block visitD n D.1 D.2) ∧
        inv (Defer.block visitD n D.1 D.2).2
  | 0, _, _, h, hs => ⟨h, hs⟩
  | n + 1, _, _, h, hs => Tracks.block hv n (h.step hv hs).1 (h.step hv hs).2

/-- Entering the next block. -/
theorem Tracks.enterBlock {E : Walk} {D : Defer} {s : σ}
    (h : Tracks inv n₀ pinned visitD (E, s) (D, s)) {blk : Block} {rest : List Block}
    (hL : D.later = blk :: rest) (s' : σ) :
    Tracks inv n₀ pinned visitD
      ({ E with
          out := []
          todo := blk.map (Instr.mapSrcs (applyRewrites D.rws))
          later := rest.map (List.map (Instr.mapSrcs (applyRewrites D.rws))) }, s')
      ({ D with out := [], todo := blk, later := rest }, s') := by
  obtain ⟨-, hR, hD, hpins⟩ := h
  have hsub : List.Sublist (blk ++ rest.flatten) (D.todo ++ D.later.flatten) := by
    rw [hL, List.flatten_cons]
    exact List.sublist_append_right _ _
  have hsub' : List.Sublist ({ D with out := [], todo := blk, later := rest } : Defer).pending D.pending :=
    hsub.filterMap _
  refine ⟨rfl, ⟨hR.done_eq, rfl, rfl, rfl, hR.alloc_eq⟩,
    ⟨hD.alloc_ge, hD.rws_lt, hD.rws_new, hD.rws_unpinned, hD.rws_nodup, hD.pending_nodup.sublist hsub',
      fun x hx => hD.pending_lt x (hsub'.subset hx), fun x hx => hD.pending_new x (hsub'.subset hx),
      fun p hp => hD.frozen_ok p ?_⟩, fun i hi => hpins i (hsub.subset hi)⟩
  simp only [List.append_nil] at hp
  exact List.mem_append_left _ hp

/-- Leaving a block. -/
theorem Tracks.leaveBlock {E : Walk × σ} {D : Defer × σ} (h : Tracks inv n₀ pinned visitD E D) :
    Tracks inv n₀ pinned visitD ({ E.1 with done := E.1.done ++ [E.1.out], out := [] }, E.2)
      ({ D.1 with done := D.1.done ++ [D.1.out], out := [] }, D.2) := by
  obtain ⟨hst, hR, hD, hpins⟩ := h
  refine ⟨hst, ⟨by simp [hR.done_eq, hR.out_eq], rfl, hR.todo_eq, hR.later_eq, hR.alloc_eq⟩,
    ⟨hD.alloc_ge, hD.rws_lt, hD.rws_new, hD.rws_unpinned, hD.rws_nodup, hD.pending_nodup,
      hD.pending_lt, hD.pending_new, fun p hp => ?_⟩, hpins⟩
  simp only [List.flatten_append, List.flatten_cons, List.flatten_nil, List.append_nil] at hp
  exact hD.frozen_ok p hp

/-- The walk of the blocks not reached yet, from a pass state that entering a block takes into
`inv`. -/
theorem Tracks.blocks (hv : Deferrable inv n₀ pinned visit visitD enter) :
    ∀ (n : Nat) {E : Walk × σ} {D : Defer × σ}, Tracks inv n₀ pinned visitD E D → inv (enter D.2) →
      Tracks inv n₀ pinned visitD (Walk.blocks visit enter n E.1 E.2)
        (Defer.blocks visitD enter n D.1 D.2)
  | 0, _, _, h, _ => h
  | n + 1, (E, s), (D, t), h, hs => by
    obtain rfl : s = t := h.state_eq
    cases hL : D.later with
    | nil =>
      have hE : E.later = [] := by rw [h.realizes.later_eq, hL]; rfl
      simp only [Walk.blocks, Defer.blocks, hE, hL]
      exact h
    | cons blk rest =>
      have hE : E.later = blk.map (·.mapSrcs (applyRewrites D.rws)) ::
          rest.map (·.map (·.mapSrcs (applyRewrites D.rws))) := by
        rw [h.realizes.later_eq, hL]; rfl
      simp only [Walk.blocks, Defer.blocks, hE, hL, List.length_map]
      have hb := Tracks.block hv blk.length (h.enterBlock hL (enter s)) hs
      exact Tracks.blocks hv n hb.1.leaveBlock (hv.inv_enter _ hb.2)

end Deferrable

/-- Each rewrite of a recorded walk, applied with all the others, still sends its value where
it asked: the rewritten values are distinct and no rewrite goes to a rewritten value. -/
theorem applyRewrites_of_mem {rws : List (Nat × Nat)} (hnd : (rws.map (·.1)).Nodup)
    (hnew : ∀ r ∈ rws, r.2 ∉ rws.map (·.1)) {d w : Nat} (hmem : (d, w) ∈ rws) :
    applyRewrites rws d = w := by
  induction rws using List.reverseRecOn with
  | nil => cases hmem
  | append_singleton rws r ih =>
    obtain ⟨d', w'⟩ := r
    simp only [List.map_append, List.map_cons, List.map_nil, List.nodup_append, List.nodup_cons,
      List.not_mem_nil, not_false_eq_true, List.nodup_nil, and_self, List.disjoint_singleton,
      true_and] at hnd
    rw [applyRewrites_append_single]
    rcases List.mem_append.1 hmem with hm | hm
    · have hw : w ≠ d' := fun e => hnew (d, w) (List.mem_append_left _ hm) (by simp [e])
      rw [ih hnd.1 (fun r hr hr' => hnew r (List.mem_append_left _ hr)
        (by rw [List.map_append]; exact List.mem_append_left _ hr')) hm, if_neg hw]
    · obtain ⟨rfl, rfl⟩ := Prod.mk.inj (List.mem_singleton.1 hm)
      rw [applyRewrites_of_not_mem hnd.2, if_pos rfl]

/-! ### The recorded walk as a fold -/

/-- The rewrites some pieces asked for, in order. -/
def rewritesOf (ps : List Piece) : List (Nat × Nat) := ps.filterMap (·.rewrite.map Rewrite.pair)

@[simp] theorem rewritesOf_nil : rewritesOf [] = [] := rfl

@[simp] theorem rewritesOf_cons (p : Piece) (ps : List Piece) :
    rewritesOf (p :: ps) = (p.rewrite.map Rewrite.pair).toList ++ rewritesOf ps := by
  unfold rewritesOf; cases h : p.rewrite <;> simp [h]

@[simp] theorem rewritesOf_append (ps qs : List Piece) :
    rewritesOf (ps ++ qs) = rewritesOf ps ++ rewritesOf qs := List.filterMap_append ..

section Record

variable {σ : Type} (visitD : (Nat → Nat) → Instr → σ → BuildM (Visit × σ))

/-- The piece one visit records. -/
def pieceOf (r : (Visit × σ) × Builder) : Piece := ⟨r.1.1.self, r.2.emitted, r.1.1.rewrite⟩

/-- The pieces the body records along one block, from pass state `s`, next index `n` and the
rewrites `rws` made so far, with the pass state and next index it ends with. -/
def recordBlock : Block → σ → Nat → List (Nat × Nat) → List Piece × σ × Nat
  | [], s, n, _ => ([], s, n)
  | i :: is, s, n, rws =>
    let r := visitD (applyRewrites rws) i s ⟨n, []⟩
    let rest := recordBlock is r.1.2 r.2.ssaAlloc (rws ++ (r.1.1.rewrite.map Rewrite.pair).toList)
    (pieceOf r :: rest.1, rest.2)

/-- The pieces the body records along the blocks, entering each with `enter`. -/
def recordBlocks (enter : σ → σ) : List Block → σ → Nat → List (Nat × Nat) →
    List (List Piece) × σ × Nat
  | [], s, n, _ => ([], s, n)
  | blk :: blks, s, n, rws =>
    let r := recordBlock visitD blk (enter s) n rws
    let rest := recordBlocks enter blks r.2.1 r.2.2 (rws ++ rewritesOf r.1)
    (r.1 :: rest.1, rest.2)

/-- The function a recorded walk describes, with the pass state it ends in: its pieces with
all its rewrites applied. -/
def realizeRecord (r : List (List Piece) × σ × Nat) : Impl × σ :=
  (⟨r.1.map (realizeBlock (applyRewrites (rewritesOf r.1.flatten))), r.2.2⟩, r.2.1)

end Record

/-- Each rewrite of the pieces sends its value where it asked, all the others applied too. -/
def RewritesHit (ps : List (List Piece)) : Prop :=
  ∀ d w, (d, w) ∈ rewritesOf ps.flatten → applyRewrites (rewritesOf ps.flatten) d = w

/-- In SSA form, one instruction defines each value. -/
theorem eq_of_dest_index {code : List Instr} (hnd : (defsOf code).Nodup) {i j : Instr}
    (hi : i ∈ code) (hj : j ∈ code) {a b : Def} (ha : i.dest? = some a) (hb : j.dest? = some b)
    (hab : a.index = b.index) : i = j := by
  induction code with
  | nil => cases hi
  | cons k code ih =>
    rw [defsOf_cons, List.nodup_append] at hnd
    have hmem : ∀ {l : Instr} {c : Def}, l ∈ code → l.dest? = some c →
        c.index ∈ defsOf code := fun hl hc => List.mem_filterMap.2 ⟨_, hl, by simp [hc]⟩
    rcases List.mem_cons.1 hi with rfl | hi' <;> rcases List.mem_cons.1 hj with rfl | hj'
    · rfl
    · exact (hnd.2.2 (by simp [ha, hab]) (hmem hj' hb)).elim
    · exact (hnd.2.2 (by simp [hb, hab]) (hmem hi' ha)).elim
    · exact ih hnd.2.1 hi' hj'

/-- The values a piece defines: its instruction's, if kept, and its code's. -/
def Piece.defs (p : Piece) : List Nat := defsOf (p.self.toList ++ p.code)

/-- A realized instruction is an instruction of one of the pieces, its sources renamed. -/
theorem mem_realizeBlock {τ : Nat → Nat} {ps : List Piece} {j : Instr}
    (h : j ∈ realizeBlock τ ps) :
    ∃ p ∈ ps, ∃ k ∈ p.self.toList ++ p.code, ∃ f : Nat → Nat, j = k.mapSrcs f := by
  obtain ⟨p, hp, hj⟩ := List.mem_flatMap.1 h
  refine ⟨p, hp, ?_⟩
  unfold Piece.realize at hj
  rcases List.mem_append.1 hj with hj | hj
  · obtain ⟨k, hk, rfl⟩ := List.mem_map.1 hj
    exact ⟨k, List.mem_append_left _ hk, τ, rfl⟩
  · split at hj
    · exact ⟨j, List.mem_append_right _ hj, id, (Instr.mapSrcs_id j).symm⟩
    · obtain ⟨k, hk, rfl⟩ := List.mem_map.1 hj
      exact ⟨k, List.mem_append_right _ hk, τ, rfl⟩

theorem Defer.block_eq {σ : Type} (visitD : (Nat → Nat) → Instr → σ → BuildM (Visit × σ))
    (blk : Block) :
    ∀ (D : Defer) (s : σ), D.todo = blk →
      Defer.block visitD blk.length D s =
        ({ D with
            out := D.out ++ (recordBlock visitD blk s D.ssaAlloc D.rws).1
            todo := []
            ssaAlloc := (recordBlock visitD blk s D.ssaAlloc D.rws).2.2
            rws := D.rws ++ rewritesOf (recordBlock visitD blk s D.ssaAlloc D.rws).1 },
          (recordBlock visitD blk s D.ssaAlloc D.rws).2.1) := by
  induction blk with
  | nil => intro D s hT; simp [Defer.block, recordBlock, ← hT]
  | cons i is ih =>
    intro D s hT
    simp only [List.length_cons, Defer.block, Defer.step, hT]
    rw [ih _ _ rfl]
    simp [Defer.insert, recordBlock, pieceOf, List.append_assoc]

theorem Defer.blocks_eq {σ : Type} (visitD : (Nat → Nat) → Instr → σ → BuildM (Visit × σ))
    (enter : σ → σ) (blks : List Block) :
    ∀ (D : Defer) (s : σ), D.later = blks → D.out = [] → D.todo = [] →
      Defer.blocks visitD enter blks.length D s =
        ({ D with
            done := D.done ++ (recordBlocks visitD enter blks s D.ssaAlloc D.rws).1
            later := []
            ssaAlloc := (recordBlocks visitD enter blks s D.ssaAlloc D.rws).2.2
            rws := D.rws ++ rewritesOf (recordBlocks visitD enter blks s D.ssaAlloc D.rws).1.flatten },
          (recordBlocks visitD enter blks s D.ssaAlloc D.rws).2.1) := by
  induction blks with
  | nil => intro D s hL _ _; simp [Defer.blocks, recordBlocks, ← hL]
  | cons blk blks ih =>
    intro D s hL hO hT
    simp only [List.length_cons, Defer.blocks, hL]
    rw [Defer.block_eq visitD blk _ _ rfl, ih _ _ rfl rfl rfl]
    simp [recordBlocks, hO, hT, List.append_assoc]

/-- The walk of a function in SSA form by a deferrable body is its recorded walk, with every
rewrite applied once at the end; each rewrite then sends its value where it asked. -/
theorem walkImpl_eq_realize {σ : Type} {inv : σ → Prop} {pinned : Nat → Prop}
    {visit : Instr → σ → BuildM (Visit × σ)} {visitD : (Nat → Nat) → Instr → σ → BuildM (Visit × σ)}
    {enter : σ → σ} {impl : Impl} (hv : Deferrable inv impl.ssaAlloc pinned visit visitD enter)
    (himpl : impl.SsaOk) (hpin : ∀ i ∈ impl.blocks.flatten, PinKept inv impl.ssaAlloc pinned visitD i)
    (s : σ) (hs : inv (enter s)) :
    walkImpl visit enter impl s = realizeRecord (recordBlocks visitD enter impl.blocks s impl.ssaAlloc []) ∧
      RewritesHit (recordBlocks visitD enter impl.blocks s impl.ssaAlloc []).1 := by
  obtain ⟨blocks, n⟩ := impl
  have h0 : Tracks inv n pinned visitD (⟨[], [], [], blocks, n⟩, s) (⟨[], [], [], blocks, n, []⟩, s) :=
    ⟨rfl, ⟨rfl, rfl, rfl, by simp [applyRewrites_nil, Instr.mapSrcs_id], rfl⟩,
      ⟨le_rfl, by simp, by simp, by simp, by simp, by simpa [Defer.pending] using himpl.nodup,
        by simpa [Defer.pending] using himpl.lt, by simp, by simp⟩, by simpa using hpin⟩
  obtain ⟨hst, hR, hD, -⟩ := Tracks.blocks hv blocks.length h0 hs
  rw [Defer.blocks_eq visitD enter blocks _ _ rfl rfl rfl] at hst hR hD
  dsimp only at hst hR hD
  simp only [List.nil_append] at hst hR hD
  refine ⟨?_, fun d w hm => ?_⟩
  · simp only [walkImpl, realizeRecord, hR.done_eq, hR.alloc_eq, hst]
  · refine applyRewrites_of_mem hD.rws_nodup (fun r hr => hD.not_mem_rws (hD.rws_new r hr)) hm

end MesaSim.Nir
