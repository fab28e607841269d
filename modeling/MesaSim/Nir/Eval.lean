import MesaSim.Nir.Build
import MesaSim.Nir.Alu

/-!
# Running the code the builder inserts

A value semantics for the straight-line code the lowering passes insert, so that what a lowered
intrinsic computes can be set against what it stood for. A run-time value is the width of its
components and their numbers; an environment gives the value of each SSA index computed so far.
The machine is what the code reads from outside it: global memory, one byte at each 64-bit
address, and the components of each system value. Global loads read packed little-endian
components; ALU operations follow the NIR opcode definitions, each result reduced to the width of
its destination, and `nir_extract_bits` reads its sources' bits laid one after the other.
Stores, the other instructions and the ALU operations left out stop the run.

`Computes M ins m v` is the specification of a value-building action: run from any builder and
environment in which the values `ins` have their given values, `m` only appends code, that code
evaluates, every value below the old `ssa_alloc` keeps its value, and the result has the value
`v`. It has one rule per construct of a `do` block and one per builder function the lowerings
use, so that what a lowered intrinsic computes is read off its code rule by rule.
-/

namespace MesaSim.Nir

/-- A run-time value: the width of its components and their numbers. -/
structure Val where
  bitSize : Nat
  comps : List Nat
  deriving DecidableEq, Repr

/-- The values computed so far, by SSA index. -/
abbrev Env := Nat → Option Val

/-- `env` with `v` as the value of index `x`. -/
def setVal (env : Env) (x : Nat) (v : Val) : Env := fun y => if y = x then some v else env y

@[simp] theorem setVal_self (env : Env) (x : Nat) (v : Val) : setVal env x v x = some v :=
  if_pos rfl

theorem setVal_of_ne {env : Env} {x y : Nat} (v : Val) (h : y ≠ x) : setVal env x v y = env y :=
  if_neg h

/-- What the code reads from outside it: global memory, a byte at each 64-bit address, and
component `i` of each system value, by intrinsic and constant indices. -/
structure Machine where
  mem : BitVec 64 → BitVec 8
  sysval : IntrinsicOp → Indices → Nat → Nat

namespace Machine

/-- The little-endian number of the `n` bytes of memory from `addr` on. -/
def readLE (M : Machine) (addr : BitVec 64) : Nat → Nat
  | 0 => 0
  | n + 1 => (M.mem addr).toNat + 256 * M.readLE (addr + 1) n

/-- A global load of `numComponents` packed little-endian components of `bitSize` bits at
`addr`. -/
def load (M : Machine) (addr : BitVec 64) (numComponents bitSize : Nat) : List Nat :=
  (List.range numComponents).map fun i =>
    M.readLE (addr + BitVec.ofNat 64 (i * (bitSize / 8))) (bitSize / 8)

/-- The address `load_btd_global_arg_addr_intel` yields. -/
def globalArgAddr (M : Machine) : BitVec 64 :=
  BitVec.ofNat 64 (M.sysval .loadBtdGlobalArgAddrIntel .none 0)

end Machine

/-- The number whose `bitSize`-bit digits, lowest first, are a value's components. -/
def Val.bits (v : Val) : Nat := v.comps.foldr (fun c acc => c + 2 ^ v.bitSize * acc) 0

/-- The bits of values laid one after the other, the first lowest, as `nir_extract_bits` reads
its sources. -/
def concatBits : List Val → Nat
  | [] => 0
  | v :: vs => v.bits + 2 ^ (v.bitSize * v.comps.length) * concatBits vs

/-- `nir_extract_bits`: `numComponents` components of `bitSize` bits of the sources' bits, from
bit `start` on. -/
def extractBits (vs : List Val) (start numComponents bitSize : Nat) : List Nat :=
  (List.range numComponents).map fun i => concatBits vs / 2 ^ (start + i * bitSize) % 2 ^ bitSize

/-- The components an ALU operation computes into a destination of `numComponents` components
of `bitSize` bits; `none` for an operation left out or the wrong number of sources. A one-bit
boolean is true when nonzero. -/
def evalAlu (op : AluOp) (numComponents bitSize : Nat) (vs : List Val) : Option (List Nat) :=
  match op, vs with
  | .iadd, [a, b] => some (List.zipWith (fun x y => (x + y) % 2 ^ bitSize) a.comps b.comps)
  | .imul, [a, b] => some (List.zipWith (fun x y => x * y % 2 ^ bitSize) a.comps b.comps)
  | .ishl, [a, b] =>
    some (List.zipWith (fun x y => x * 2 ^ (y % bitSize) % 2 ^ bitSize) a.comps b.comps)
  | .ishr, [a, b] => some (List.zipWith
      (fun x y => (ishr (BitVec.ofNat bitSize x) (BitVec.ofNat bitSize y)).toNat) a.comps b.comps)
  | .iand, [a, b] => some (List.zipWith (fun x y => x &&& y) a.comps b.comps)
  | .ior, [a, b] => some (List.zipWith (fun x y => x ||| y) a.comps b.comps)
  | .umod, [a, b] => some (List.zipWith (fun x y => if y = 0 then 0 else x % y) a.comps b.comps)
  | .udiv, [a, b] => some (List.zipWith (fun x y => if y = 0 then 0 else x / y) a.comps b.comps)
  | .ieq, [a, b] => some (List.zipWith (fun x y => if x = y then 1 else 0) a.comps b.comps)
  | .bcsel, [c, a, b] =>
    some (List.zipWith3 (fun x y z => if x ≠ 0 then y else z) c.comps a.comps b.comps)
  | .u2u32, [a] | .u2u64, [a] => some (a.comps.map (· % 2 ^ bitSize))
  | .i2b, [a] => some (a.comps.map fun x => if x = 0 then 0 else 1)
  | .pack64Split, [lo, hi] =>
    some (List.zipWith (fun x y => x % 2 ^ 32 + 2 ^ 32 * (y % 2 ^ 32)) lo.comps hi.comps)
  | .mov swizzle, [a] => some (swizzle.map (a.comps.getD · 0))
  | .vec _, vs => some (vs.map (·.comps.headD 0))
  | .extractBits start, vs => some (extractBits vs start numComponents bitSize)
  | _, _ => none

/-- The components an intrinsic with a destination computes: a global load reads memory at its
first source's address (the predicate of `load_global_const_block_intel` is not modelled: the
passes always pass `true`); a store defines nothing; any other intrinsic is a system value of the
machine, reduced to the width. -/
def evalIntrinsic (M : Machine) (op : IntrinsicOp) (numComponents bitSize : Nat) (vs : List Val)
    (ix : Indices) : Option (List Nat) :=
  match op, vs with
  | .loadGlobal, a :: _ | .loadGlobalConstant, a :: _ | .loadGlobalConstBlockIntel, a :: _ =>
    some (M.load (BitVec.ofNat 64 (a.comps.headD 0)) numComponents bitSize)
  | .loadGlobal, [] | .loadGlobalConstant, [] | .loadGlobalConstBlockIntel, [] | .storeGlobal, _ =>
    none
  | op, _ => some ((List.range numComponents).map fun i => M.sysval op ix i % 2 ^ bitSize)

/-- The values of the sources `xs`, if all are computed. -/
def readSrcs (env : Env) : List Nat → Option (List Val)
  | [] => some []
  | x :: xs => (env x).bind fun v => (readSrcs env xs).map (v :: ·)

/-- One instruction: the value it defines is added under its index. -/
def evalInstr (M : Machine) (env : Env) : Instr → Option Env
  | .loadConst d v => some (setVal env d.index ⟨d.bitSize, v⟩)
  | .alu op d srcs => (readSrcs env srcs).bind fun vs =>
    (evalAlu op d.numComponents d.bitSize vs).map fun c => setVal env d.index ⟨d.bitSize, c⟩
  | .intrinsic op (some d) srcs ix => (readSrcs env srcs).bind fun vs =>
    (evalIntrinsic M op d.numComponents d.bitSize vs ix).map fun c =>
      setVal env d.index ⟨d.bitSize, c⟩
  | .intrinsic _ none _ _ | .other _ _ => none

/-- Straight-line code, instruction by instruction. -/
def evalCode (M : Machine) : List Instr → Env → Option Env
  | [], env => some env
  | i :: is, env => (evalInstr M env i).bind (evalCode M is)

theorem evalCode_append (M : Machine) (is js : List Instr) (env : Env) :
    evalCode M (is ++ js) env = (evalCode M is env).bind (evalCode M js) := by
  induction is generalizing env with
  | nil => rfl
  | cons i is ih =>
    show (evalInstr M env i).bind (fun e => evalCode M (is ++ js) e) = _
    simp only [ih, evalCode, Option.bind_assoc]

/-! ### Builder code that computes a value -/

/-- `env` gives `x` the value `v` of its width, and `x` lies below `b`'s `ssa_alloc`. -/
def Has (b : Builder) (env : Env) (x : Def) (v : Val) : Prop :=
  x.index < b.ssaAlloc ∧ x.bitSize = v.bitSize ∧ env x.index = some v

/-- `b'`, `env'` extend `b`, `env`: no fewer values allocated, and every value below the old
`ssa_alloc` unchanged. -/
structure Frame (b : Builder) (env : Env) (b' : Builder) (env' : Env) : Prop where
  alloc_le : b.ssaAlloc ≤ b'.ssaAlloc
  agree : ∀ x < b.ssaAlloc, env' x = env x

namespace Frame

variable {b b₁ b₂ : Builder} {env env₁ env₂ : Env}

theorem refl (b : Builder) (env : Env) : Frame b env b env := ⟨le_rfl, fun _ _ => rfl⟩

theorem trans (h₁ : Frame b env b₁ env₁) (h₂ : Frame b₁ env₁ b₂ env₂) : Frame b env b₂ env₂ :=
  ⟨h₁.alloc_le.trans h₂.alloc_le, fun x hx =>
    (h₂.agree x (lt_of_lt_of_le hx h₁.alloc_le)).trans (h₁.agree x hx)⟩

theorem has (h : Frame b env b₁ env₁) {x : Def} {v : Val} (hx : Has b env x v) : Has b₁ env₁ x v :=
  ⟨lt_of_lt_of_le hx.1 h.alloc_le, hx.2.1, (h.agree _ hx.1).trans hx.2.2⟩

/-- Defining the value at `ssa_alloc` extends the frame. -/
theorem setVal (b : Builder) (env : Env) (v : Val) (emitted : List Instr) :
    Frame b env ⟨b.ssaAlloc + 1, emitted⟩ (MesaSim.Nir.setVal env b.ssaAlloc v) :=
  ⟨Nat.le_succ _, fun _ hx => setVal_of_ne v (Nat.ne_of_lt hx)⟩

end Frame

/-- Every value of `ins` has its given value. -/
def HasAll (b : Builder) (env : Env) (ins : List (Def × Val)) : Prop :=
  ∀ p ∈ ins, Has b env p.1 p.2

/-- The sources' values, read off the facts about them. -/
theorem readSrcs_of_hasAll {b : Builder} {env : Env} {ins : List (Def × Val)}
    (h : HasAll b env ins) : readSrcs env (ins.map (·.1.index)) = some (ins.map (·.2)) := by
  induction ins with
  | nil => rfl
  | cons p ins ih =>
    simp only [List.map_cons, readSrcs, (h p (List.mem_cons_self _ _)).2.2, Option.some_bind,
      ih fun q hq => h q (List.mem_cons_of_mem _ hq), Option.map_some']

/-- `m`, run from any builder and environment in which the values `ins` have their given values,
only appends code, which evaluates, keeping every value below the old `ssa_alloc`, to an
environment giving `m`'s result the value `v`. -/
def Computes (M : Machine) (ins : List (Def × Val)) (m : BuildM Def) (v : Val) : Prop :=
  ∀ b env, HasAll b env ins → List.IsPrefix b.emitted (m b).2.emitted ∧
    ∃ env', evalCode M (b.newCode (m b).2) env = some env' ∧ Frame b env (m b).2 env' ∧
      Has (m b).2 env' (m b).1 v

namespace Computes

variable {M : Machine} {ins ins' : List (Def × Val)} {m : BuildM Def} {v w : Val}

theorem weaken (h : Computes M ins m v) (hs : ins ⊆ ins') : Computes M ins' m v :=
  fun b env hin => h b env fun p hp => hin p (hs hp)

theorem congr_val {u : Val} (h : Computes M ins m v) (hv : v = u) : Computes M ins m u :=
  hv ▸ h

theorem pure {x : Def} (h : (x, v) ∈ ins) : Computes M ins (Pure.pure x) v :=
  fun b env hin => ⟨List.prefix_refl _, env,
    show evalCode M (b.newCode b) env = some env by rw [Builder.newCode_self]; rfl,
    Frame.refl b env, hin _ h⟩

/-- A value computed first is an input of the rest, of its width. -/
theorem bind {k : Def → BuildM Def} (hm : Computes M ins m v)
    (hk : ∀ d, d.bitSize = v.bitSize → Computes M ((d, v) :: ins) (k d) w) :
    Computes M ins (m >>= k) w := by
  intro b env hin
  obtain ⟨hp₁, env₁, he₁, hf₁, hd⟩ := hm b env hin
  have hall : HasAll (m b).2 env₁ (((m b).1, v) :: ins) := by
    rintro p (_ | ⟨_, hp⟩)
    exacts [hd, hf₁.has (hin p hp)]
  obtain ⟨hp₂, env₂, he₂, hf₂, hr⟩ := hk (m b).1 hd.2.1 (m b).2 env₁ hall
  refine ⟨hp₁.trans hp₂, env₂, ?_, hf₁.trans hf₂, hr⟩
  show evalCode M (b.newCode (k (m b).1 (m b).2).2) env = some env₂
  rw [Builder.newCode_trans hp₁ hp₂, evalCode_append, he₁, Option.some_bind, he₂]

/-- An instruction defining a fresh value of `s` bits with components `c`. -/
theorem insert {mk : Def → Instr} {n s : Nat} {c : List Nat}
    (h : ∀ b env, HasAll b env ins → evalInstr M env (mk ⟨b.ssaAlloc, n, s⟩) =
      some (setVal env b.ssaAlloc ⟨s, c⟩)) :
    Computes M ins (Builder.insert mk n s) ⟨s, c⟩ := by
  intro b env hin
  refine ⟨List.prefix_append _ _, _, ?_, Frame.setVal b env _ _, Nat.lt_succ_self _, rfl,
    setVal_self ..⟩
  simp only [Builder.insert_apply, Builder.newCode_append, evalCode, h b env hin, Option.some_bind]

end Computes

section Rules

variable {M : Machine}

theorem nirImmIntN_computes (x bitSize : Nat) (ins : List (Def × Val)) :
    Computes M ins (nirImmIntN x bitSize) ⟨bitSize, [x % 2 ^ bitSize]⟩ :=
  Computes.insert fun _ _ _ => rfl

/-- An ALU instruction over values whose sources are exactly `srcs`. -/
theorem nirAlu_computes (op : AluOp) (srcs : List (Def × Val)) {n s : Nat} {c : List Nat}
    (h : evalAlu op n s (srcs.map (·.2)) = some c) :
    Computes M srcs (nirAlu op (srcs.map (·.1)) n s) ⟨s, c⟩ :=
  Computes.insert fun b env hin => by
    simp only [evalInstr, List.map_map, Function.comp_def, readSrcs_of_hasAll hin,
      Option.some_bind, h, Option.map_some']

/-- An intrinsic with a destination, over sources `srcs`. -/
theorem nirIntrinsic_computes (op : IntrinsicOp) (srcs : List (Def × Val)) {n s : Nat}
    (ix : Indices) {c : List Nat} (h : evalIntrinsic M op n s (srcs.map (·.2)) ix = some c) :
    Computes M srcs (nirIntrinsic op n s (srcs.map (·.1)) ix) ⟨s, c⟩ :=
  Computes.insert fun b env hin => by
    simp only [evalInstr, List.map_map, Function.comp_def, readSrcs_of_hasAll hin,
      Option.some_bind, h, Option.map_some']

/-- `nir_iadd_imm` adds the immediate to a value below its width, modulo the width, whether or
not it emits an addition. -/
theorem nirIaddImm_computes {a : Def} {x w : Nat} (y : Nat) (hw : a.bitSize = w)
    (hx : x < 2 ^ w) :
    Computes M [(a, ⟨w, [x]⟩)] (nirIaddImm a y) ⟨w, [(x + y) % 2 ^ w]⟩ := by
  subst hw
  unfold nirIaddImm
  split_ifs with hy
  · rw [Nat.add_mod, hy, Nat.add_zero, Nat.mod_mod, Nat.mod_eq_of_lt hx]
    exact Computes.pure (List.mem_singleton_self _)
  · refine (nirImmIntN_computes _ _ _).bind fun c _ => ?_
    refine (nirAlu_computes .iadd [(a, ⟨a.bitSize, [x]⟩), (c, ⟨a.bitSize, [y % 2 ^ a.bitSize]⟩)]
      (congrArg (fun n => some [n]) (Nat.add_mod_mod x y _))).weaken (List.subset_def.2 (by simp))

theorem nirIadd_computes {a c : Def} {x y w u : Nat} (hw : a.bitSize = w) :
    Computes M [(a, ⟨w, [x]⟩), (c, ⟨u, [y]⟩)] (nirIadd a c) ⟨w, [(x + y) % 2 ^ w]⟩ := by
  subst hw
  exact nirAlu_computes .iadd [(a, _), (c, _)] rfl

end Rules

/-! ### Little-endian memory -/

namespace Machine

variable (M : Machine)

theorem readLE_lt (addr : BitVec 64) (n : Nat) : M.readLE addr n < 256 ^ n := by
  induction n generalizing addr with
  | zero => simp [readLE]
  | succ n ih =>
    have := (M.mem addr).isLt
    have := ih (addr + 1)
    rw [readLE, pow_succ]
    omega

/-- Reading `m + n` bytes is reading `m`, then `n` more above them. -/
theorem readLE_add (addr : BitVec 64) (m n : Nat) :
    M.readLE addr (m + n) = M.readLE addr m + 256 ^ m * M.readLE (addr + BitVec.ofNat 64 m) n := by
  induction m generalizing addr with
  | zero => simp [readLE]
  | succ m ih =>
    have ha : addr + 1 + BitVec.ofNat 64 m = addr + BitVec.ofNat 64 (m + 1) := by bv_omega
    rw [Nat.succ_add, readLE, readLE, ih, ha, pow_succ]
    ring

/-- The `k` bytes `j` bytes in, cut out of a longer read. -/
theorem readLE_div_mod (addr : BitVec 64) {N j k : Nat} (h : j + k ≤ N) :
    M.readLE addr N / 256 ^ j % 256 ^ k = M.readLE (addr + BitVec.ofNat 64 j) k := by
  obtain ⟨r, rfl⟩ := Nat.exists_eq_add_of_le h
  rw [Nat.add_assoc, M.readLE_add addr j, M.readLE_add _ k,
    Nat.add_mul_div_left _ _ (pow_pos (by norm_num) _), Nat.div_eq_of_lt (M.readLE_lt _ _),
    Nat.zero_add,
    Nat.add_mul_mod_self_left, Nat.mod_eq_of_lt (M.readLE_lt _ _)]

theorem load_succ (addr : BitVec 64) (n bitSize : Nat) :
    M.load addr (n + 1) bitSize =
      M.readLE addr (bitSize / 8) :: M.load (addr + BitVec.ofNat 64 (bitSize / 8)) n bitSize := by
  simp only [load, List.range_succ_eq_map, List.map_cons, List.map_map, Function.comp_def,
    Nat.zero_mul, BitVec.ofNat_eq_ofNat, BitVec.add_zero, Nat.succ_mul, BitVec.ofNat_add,
    BitVec.add_assoc, BitVec.add_comm (BitVec.ofNat 64 _) (BitVec.ofNat 64 (bitSize / 8))]

/-- The components of a load of `k`-byte components, as one number, are the bytes read. -/
theorem bits_load (addr : BitVec 64) (n k : Nat) :
    Val.bits ⟨8 * k, M.load addr n (8 * k)⟩ = M.readLE addr (n * k) := by
  induction n generalizing addr with
  | zero => simp [Val.bits, load, readLE]
  | succ n ih =>
    have hk : 8 * k / 8 = k := by omega
    have := ih (addr + BitVec.ofNat 64 k)
    simp only [Val.bits, List.foldr_cons] at this ⊢
    rw [load_succ, hk, List.foldr_cons, this, show (n + 1) * k = k + n * k by ring, M.readLE_add,
      pow_mul]
    norm_num

end Machine

end MesaSim.Nir
