import MesaSim.Nir.Ir

/-!
# Walking a function with `nir_foreach_instr_safe`

Both passes walk the blocks of a function in order (`nir_foreach_block`) and the instructions
of each block with `nir_foreach_instr_safe`, which fetches the next instruction before the
body runs: what the body inserts after the current instruction is not visited. At each
instruction the body may insert code after it, keep it (possibly changed) or remove it, and
rewrite the uses of its value: `nir_ssa_def_rewrite_uses` rewrites every use in the function,
`nir_ssa_def_rewrite_uses_after` every use but those in the code just inserted after the
instruction, which is all that lies between the definition and its new value.
-/

namespace MesaSim.Nir

/-- The rewrite of the uses of `d` to `v` that the body of a walk asks for. -/
inductive Rewrite
  /-- `nir_ssa_def_rewrite_uses(d, v)`. -/
  | all (d v : Nat)
  /-- `nir_ssa_def_rewrite_uses_after(d, v, last inserted instruction)`. -/
  | after (d v : Nat)
  deriving DecidableEq, Repr

/-- The value a rewrite replaces and the value it replaces it with. -/
def Rewrite.pair : Rewrite → Nat × Nat
  | all d v => (d, v)
  | after d v => (d, v)

/-- What the body of a walk decided at one instruction, besides the code it inserted after
it: the instruction itself if it stays, and the rewrite of uses, if any. -/
structure Visit where
  self : Option Instr
  rewrite : Option Rewrite
  deriving DecidableEq, Repr

/-- A function part-way through a walk: the blocks walked, the walked part of the current
block (with what was inserted), the rest of the current block, the blocks not reached yet. -/
structure Walk where
  done : List Block
  out : Block
  todo : Block
  later : List Block
  ssaAlloc : Nat
  deriving Repr

/-- Apply `f` to every instruction of the function. -/
def Walk.mapInstrs (f : Instr → Instr) (w : Walk) : Walk :=
  { w with
    done := w.done.map (·.map f)
    out := w.out.map f
    todo := w.todo.map f
    later := w.later.map (·.map f) }

/-- Apply the body's decision at one instruction: insert its code after it, apply its
rewrite, and drop the instruction if it goes. -/
def Walk.insert (w : Walk) (v : Visit) (code : List Instr) : Walk :=
  match v.rewrite with
  | none => { w with out := w.out ++ v.self.toList ++ code }
  | some (.all d x) => { w with out := w.out ++ v.self.toList ++ code }.mapInstrs (·.rewriteUses d x)
  | some (.after d x) =>
    let w := { w with out := w.out ++ v.self.toList }.mapInstrs (·.rewriteUses d x)
    { w with out := w.out ++ code }

section Walk

variable {σ : Type} (visit : Instr → σ → BuildM (Visit × σ))

/-- One iteration of `nir_foreach_instr_safe`: run the body on the first instruction not
walked yet, with a builder whose cursor is right after it. -/
def Walk.step (w : Walk) (s : σ) : Walk × σ :=
  match w.todo with
  | [] => (w, s)
  | i :: todo =>
    let r := visit i s ⟨w.ssaAlloc, []⟩
    ({ w with todo := todo, ssaAlloc := r.2.ssaAlloc }.insert r.1.1 r.2.emitted, r.1.2)

/-- `nir_foreach_instr_safe` over the `n` instructions left in the current block. -/
def Walk.block : Nat → Walk → σ → Walk × σ
  | 0, w, s => (w, s)
  | n + 1, w, s =>
    let r := w.step visit s
    Walk.block n r.1 r.2

/-- `nir_foreach_block` over the `n` blocks not reached yet; `enter` is what the pass does to
its state on entering a block. -/
def Walk.blocks (enter : σ → σ) : Nat → Walk → σ → Walk × σ
  | 0, w, s => (w, s)
  | n + 1, w, s =>
    match w.later with
    | [] => (w, s)
    | blk :: rest =>
      let r := Walk.block visit blk.length { w with out := [], todo := blk, later := rest } (enter s)
      Walk.blocks enter n { r.1 with done := r.1.done ++ [r.1.out], out := [] } r.2

/-- Walk a whole function implementation. -/
def walkImpl (enter : σ → σ) (impl : Impl) (s : σ) : Impl × σ :=
  let r := Walk.blocks visit enter impl.blocks.length ⟨[], [], [], impl.blocks, impl.ssaAlloc⟩ s
  (⟨r.1.done, r.1.ssaAlloc⟩, r.2)

end Walk

end MesaSim.Nir
