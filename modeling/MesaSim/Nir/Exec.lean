import MesaSim.Nir.Eval

/-!
# Runs of inserted code with stores

The value semantics of `MesaSim.Nir.Eval` stops at a store. Here a run carries the machine as
well: `store_global` writes each component its write mask selects, `bit_size / 8` bytes
little-endian at the address plus the component's offset, and every other instruction is
evaluated as `evalInstr` does, against the memory as the stores before it left it. The ray
tracing pass's stack intrinsics are the only stores the two passes emit.

`Runs M ins m M' outs` is the specification of a builder action with effects: from any builder
and environment giving the values `ins`, `m` only appends code, which runs from `M` to `M'`,
keeps every value below the old `ssa_alloc`, and gives the values `outs` of its result. Code
without stores runs exactly as it evaluates (`Runs.of_computes`).
-/

namespace MesaSim.Nir

namespace Machine

/-- Memory with the byte `v % 256` at `addr`. -/
def setByte (M : Machine) (addr : BitVec 64) (v : Nat) : Machine :=
  { M with mem := fun a => if a = addr then BitVec.ofNat 8 v else M.mem a }

/-- Memory with the `n` bytes from `addr` on holding `v` little-endian, its low `8 * n` bits. -/
def writeLE (M : Machine) (addr : BitVec 64) (v : Nat) : Nat → Machine
  | 0 => M
  | n + 1 => (M.setByte addr v).writeLE (addr + 1) (v / 256) n

variable (M : Machine)

@[simp] theorem writeLE_sysval (addr : BitVec 64) (v n : Nat) :
    (M.writeLE addr v n).sysval = M.sysval := by
  induction n generalizing M addr v with
  | zero => rfl
  | succ n ih => exact ih _ _ _

/-- Byte `a` after a write of `n` bytes from `addr`: its byte of `v` if it lies among them,
else the old byte. -/
theorem writeLE_mem {n : Nat} (hn : n < 2 ^ 64) (addr : BitVec 64) (v : Nat) (a : BitVec 64) :
    (M.writeLE addr v n).mem a =
      if (a - addr).toNat < n then BitVec.ofNat 8 (v / 256 ^ (a - addr).toNat) else M.mem a := by
  induction n generalizing M addr v with
  | zero => simp [writeLE]
  | succ n ih =>
    rw [writeLE, ih _ (by omega)]
    by_cases ha : a = addr
    · subst ha
      have hlast : ¬(a - (a + 1)).toNat < n := by bv_omega
      rw [if_neg hlast]
      simp [setByte]
    · have hk : (a - addr).toNat = (a - (addr + 1)).toNat + 1 := by bv_omega
      rw [hk, pow_succ', ← Nat.div_div_eq_div_mul]
      simp [setByte, ha]

/-- A write is read back: the `n` bytes from `addr` hold the low `8 * n` bits of `v`. -/
theorem readLE_writeLE {n : Nat} (hn : n < 2 ^ 64) (addr : BitVec 64) (v : Nat) :
    (M.writeLE addr v n).readLE addr n = v % 256 ^ n := by
  induction n generalizing M addr v with
  | zero => simp [readLE, Nat.mod_one]
  | succ n ih =>
    have hlow : ((M.setByte addr v).writeLE (addr + 1) (v / 256) n).mem addr =
        BitVec.ofNat 8 v := by
      have hlast : ¬(addr - (addr + 1)).toNat < n := by bv_omega
      rw [writeLE_mem _ (by omega), if_neg hlast]
      simp [setByte]
    rw [writeLE, readLE, hlow, ih _ (by omega), BitVec.toNat_ofNat,
      show 256 ^ (n + 1) = 256 * 256 ^ n from pow_succ' _ _, Nat.mod_mul]

/-- Bytes a write does not reach keep their value: reading `k` bytes from `b`, none of them
among the `n` written from `addr`. -/
theorem readLE_writeLE_of_disjoint {n : Nat} (hn : n < 2 ^ 64) (addr : BitVec 64) (v : Nat)
    (b : BitVec 64) (k : Nat) (h : ∀ i < k, n ≤ (b + BitVec.ofNat 64 i - addr).toNat) :
    (M.writeLE addr v n).readLE b k = M.readLE b k := by
  induction k generalizing b with
  | zero => rfl
  | succ k ih =>
    have h0 : ¬(b - addr).toNat < n := by simpa using h 0 (by omega)
    have h1 : ∀ i < k, n ≤ (b + 1 + BitVec.ofNat 64 i - addr).toNat := fun i hi => by
      have e : b + 1 + BitVec.ofNat 64 i = b + BitVec.ofNat 64 (i + 1) := by bv_omega
      rw [e]; exact h (i + 1) (by omega)
    rw [readLE, readLE, writeLE_mem _ hn, if_neg h0, ih _ h1]

/-- The first component of a load. -/
theorem load_getD_zero (addr : BitVec 64) (n bitSize : Nat) :
    (M.load addr (n + 1) bitSize).getD 0 0 = M.readLE addr (bitSize / 8) := by
  rw [M.load_succ]; rfl

/-- `store_global` of `v` at `addr` (`nir_intrinsics.py`): each component the write mask
selects, `bitSize / 8` bytes little-endian at the address plus the component's offset, lowest
component first. -/
def storeGlobal (M : Machine) (addr : BitVec 64) (v : Val) (writeMask : Nat) : Machine :=
  (maskComponents writeMask).foldl (fun M i =>
    M.writeLE (addr + BitVec.ofNat 64 (i * (v.bitSize / 8))) (v.comps.getD i 0) (v.bitSize / 8)) M

/-- A store with write mask `0x1` writes its first component alone. -/
theorem storeGlobal_one (addr : BitVec 64) (v : Val) :
    M.storeGlobal addr v 1 = M.writeLE addr (v.comps.getD 0 0) (v.bitSize / 8) := by
  have hm : maskComponents 1 = [0] := by decide
  simp [storeGlobal, hm]

@[simp] theorem storeGlobal_sysval (addr : BitVec 64) (v : Val) (writeMask : Nat) :
    (M.storeGlobal addr v writeMask).sysval = M.sysval := by
  unfold storeGlobal
  induction maskComponents writeMask generalizing M with
  | nil => rfl
  | cons i is ih => exact (ih _).trans (writeLE_sysval ..)

end Machine

/-- One instruction run against the machine: a `store_global` writes memory and defines nothing,
every other instruction is evaluated against the current memory. -/
def execInstr (M : Machine) (env : Env) (i : Instr) : Option (Machine × Env) :=
  match i with
  | .intrinsic .storeGlobal none srcs ix =>
    match readSrcs env srcs with
    | some [v, addr] => some (M.storeGlobal (BitVec.ofNat 64 (addr.comps.headD 0)) v ix.writeMask, env)
    | _ => none
  | _ => (evalInstr M env i).map (M, ·)

/-- Straight-line code run instruction by instruction, each against the memory the stores
before it left. -/
def execCode : Machine → List Instr → Env → Option (Machine × Env)
  | M, [], env => some (M, env)
  | M, i :: is, env => (execInstr M env i).bind fun r => execCode r.1 is r.2

theorem execCode_append (M : Machine) (is js : List Instr) (env : Env) :
    execCode M (is ++ js) env = (execCode M is env).bind fun r => execCode r.1 js r.2 := by
  induction is generalizing M env with
  | nil => rfl
  | cons i is ih =>
    show (execInstr M env i).bind (fun r => execCode r.1 (is ++ js) r.2) = _
    simp only [ih, execCode, Option.bind_assoc]

/-- An instruction that evaluates is no store, and runs as it evaluates. -/
theorem execInstr_of_evalInstr {M : Machine} {env env' : Env} {i : Instr}
    (h : evalInstr M env i = some env') : execInstr M env i = some (M, env') := by
  unfold execInstr
  split
  · simp [evalInstr] at h
  · rw [h]; rfl

/-- Code that evaluates has no store, and runs as it evaluates, leaving memory alone. -/
theorem execCode_of_evalCode {M : Machine} {is : List Instr} {env env' : Env}
    (h : evalCode M is env = some env') : execCode M is env = some (M, env') := by
  induction is generalizing env with
  | nil => cases h; rfl
  | cons i is ih =>
    obtain ⟨e, he, hr⟩ := Option.bind_eq_some.1 h
    simp only [execCode, execInstr_of_evalInstr he, Option.some_bind, ih hr]

/-! ### What a run changes -/

/-- An instruction that evaluates changes no value but the one it defines. -/
theorem evalInstr_frame {M : Machine} {env env' : Env} {i : Instr}
    (h : evalInstr M env i = some env') (y : Nat) (hy : ∀ d, i.dest? = some d → y ≠ d.index) :
    env' y = env y := by
  cases i with
  | loadConst d v => cases h; exact setVal_of_ne _ (hy d rfl)
  | alu op d srcs =>
    obtain ⟨vs, -, h⟩ := Option.bind_eq_some.1 h
    obtain ⟨c, -, rfl⟩ := Option.map_eq_some'.1 h
    exact setVal_of_ne _ (hy d rfl)
  | intrinsic op d srcs ix =>
    cases d with
    | none => cases h
    | some d =>
      obtain ⟨vs, -, h⟩ := Option.bind_eq_some.1 h
      obtain ⟨c, -, rfl⟩ := Option.map_eq_some'.1 h
      exact setVal_of_ne _ (hy d rfl)
  | other => cases h

/-- An instruction that runs keeps the system values and changes no value but the one it
defines. -/
theorem execInstr_frame {M M' : Machine} {env env' : Env} {i : Instr}
    (h : execInstr M env i = some (M', env')) :
    M'.sysval = M.sysval ∧
      ∀ y, (∀ d, i.dest? = some d → y ≠ d.index) → env' y = env y := by
  unfold execInstr at h
  split at h
  · split at h
    · cases h
      exact ⟨M.storeGlobal_sysval .., fun _ _ => rfl⟩
    · cases h
  · obtain ⟨e, he, he'⟩ := Option.map_eq_some'.1 h
    cases he'
    exact ⟨rfl, evalInstr_frame he⟩

/-- Code that runs keeps the system values and changes no value it does not define. -/
theorem execCode_frame {M M' : Machine} {code : List Instr} {env env' : Env}
    (h : execCode M code env = some (M', env')) :
    M'.sysval = M.sysval ∧ ∀ y ∉ defsOf code, env' y = env y := by
  induction code generalizing M env with
  | nil => cases h; exact ⟨rfl, fun _ _ => rfl⟩
  | cons i is ih =>
    obtain ⟨⟨M₁, env₁⟩, h₁, h₂⟩ := Option.bind_eq_some.1 h
    obtain ⟨hs₁, he₁⟩ := execInstr_frame h₁
    obtain ⟨hs₂, he₂⟩ := ih h₂
    refine ⟨hs₂.trans hs₁, fun y hy => ?_⟩
    rw [defsOf_cons, List.mem_append, not_or] at hy
    exact (he₂ y hy.2).trans (he₁ y fun d hd => by rintro rfl; simp [hd] at hy)

/-- The sources' values, read at their new names. -/
theorem readSrcs_map {env env' : Env} {τ : Nat → Nat} {srcs : List Nat} {vs : List Val}
    (h : readSrcs env srcs = some vs)
    (hτ : ∀ x ∈ srcs, ∀ v, env x = some v → env' (τ x) = some v) :
    readSrcs env' (srcs.map τ) = some vs := by
  induction srcs generalizing vs with
  | nil => exact h
  | cons x xs ih =>
    obtain ⟨v, hv, h⟩ := Option.bind_eq_some.1 h
    obtain ⟨ws, hws, rfl⟩ := Option.map_eq_some'.1 h
    simp only [List.map_cons, readSrcs, hτ x (.head _) v hv, Option.some_bind,
      ih hws fun y hy => hτ y (.tail _ hy), Option.map_some']

/-- An instruction evaluated on renamed sources, in an environment holding each source's value
at its new name, defines the same value and nothing else. -/
theorem evalInstr_mapSrcs {M : Machine} {env env₁ env' : Env} {i : Instr} {τ : Nat → Nat}
    (h : evalInstr M env i = some env₁)
    (hτ : ∀ x ∈ i.srcs, ∀ v, env x = some v → env' (τ x) = some v) :
    ∃ env₁', evalInstr M env' (i.mapSrcs τ) = some env₁' ∧
      (∀ d, i.dest? = some d → env₁' d.index = env₁ d.index) ∧
      ∀ y, (∀ d, i.dest? = some d → y ≠ d.index) → env₁' y = env' y := by
  cases i with
  | loadConst d v =>
    cases h
    exact ⟨_, rfl, fun _ hd => by cases hd; simp, fun y hy => setVal_of_ne _ (hy d rfl)⟩
  | alu op d srcs =>
    obtain ⟨vs, hvs, h⟩ := Option.bind_eq_some.1 h
    obtain ⟨c, hc, rfl⟩ := Option.map_eq_some'.1 h
    refine ⟨setVal env' d.index ⟨d.bitSize, c⟩, ?_, fun _ hd => by cases hd; simp,
      fun y hy => setVal_of_ne _ (hy d rfl)⟩
    simp only [Instr.mapSrcs, evalInstr, readSrcs_map hvs hτ, Option.some_bind, hc,
      Option.map_some']
  | intrinsic op d srcs ix =>
    cases d with
    | none => cases h
    | some d =>
      obtain ⟨vs, hvs, h⟩ := Option.bind_eq_some.1 h
      obtain ⟨c, hc, rfl⟩ := Option.map_eq_some'.1 h
      refine ⟨setVal env' d.index ⟨d.bitSize, c⟩, ?_, fun _ hd => by cases hd; simp,
        fun y hy => setVal_of_ne _ (hy d rfl)⟩
      simp only [Instr.mapSrcs, evalInstr, readSrcs_map hvs hτ, Option.some_bind, hc,
        Option.map_some']
  | other => cases h

/-- Every instruction but `store_global` runs as it evaluates. -/
theorem execInstr_of_not_store {M : Machine} {env : Env} {i : Instr}
    (h : ∀ srcs ix, i ≠ .intrinsic .storeGlobal none srcs ix) :
    execInstr M env i = (evalInstr M env i).map (M, ·) := by
  unfold execInstr
  split
  · exact absurd rfl (h _ _)
  · rfl

/-- An instruction run on renamed sources, in an environment holding each source's value at its
new name, does what it did: the same store, or the same value defined. -/
theorem execInstr_mapSrcs {M M' : Machine} {env env₁ env' : Env} {i : Instr} {τ : Nat → Nat}
    (h : execInstr M env i = some (M', env₁))
    (hτ : ∀ x ∈ i.srcs, ∀ v, env x = some v → env' (τ x) = some v) :
    ∃ env₁', execInstr M env' (i.mapSrcs τ) = some (M', env₁') ∧
      (∀ d, i.dest? = some d → env₁' d.index = env₁ d.index) ∧
      ∀ y, (∀ d, i.dest? = some d → y ≠ d.index) → env₁' y = env' y := by
  by_cases hs : ∃ srcs ix, i = .intrinsic .storeGlobal none srcs ix
  · obtain ⟨srcs, ix, rfl⟩ := hs
    obtain ⟨vs, hvs⟩ := Option.isSome_iff_exists.1 (show (readSrcs env srcs).isSome by
      cases hr : readSrcs env srcs <;> simp_all [execInstr])
    have hvs' := readSrcs_map hvs hτ
    simp only [execInstr, hvs] at h
    rcases vs with _ | ⟨v, _ | ⟨addr, _ | _⟩⟩ <;> cases h
    refine ⟨env', ?_, fun _ hd => (by cases hd), fun _ _ => rfl⟩
    simp only [Instr.mapSrcs, execInstr, hvs']
  · push_neg at hs
    have hs' : ∀ srcs ix, i.mapSrcs τ ≠ .intrinsic .storeGlobal none srcs ix := by
      intro srcs ix he
      cases i with
      | intrinsic op d s x =>
        simp only [Instr.mapSrcs, Instr.intrinsic.injEq] at he
        obtain ⟨rfl, rfl, -, rfl⟩ := he
        exact hs s x rfl
      | _ => cases he
    rw [execInstr_of_not_store hs] at h
    obtain ⟨e, he, he'⟩ := Option.map_eq_some'.1 h
    cases he'
    obtain ⟨env₁', h₁, hd, hy⟩ := evalInstr_mapSrcs he hτ
    exact ⟨env₁', by rw [execInstr_of_not_store hs', h₁]; rfl, hd, hy⟩

/-- Code run along a path of blocks is simulated along the same path by blocks each of which
simulates its counterpart, for any relation `R` between the two runs. -/
theorem execCode_flatMap_sim {src tgt : Nat → List Instr} (R : Machine → Env → Env → Prop)
    (hblock : ∀ k M env env' M₁ env₁, R M env env' →
      execCode M (src k) env = some (M₁, env₁) →
      ∃ env₁', execCode M (tgt k) env' = some (M₁, env₁') ∧ R M₁ env₁ env₁')
    (path : List Nat) :
    ∀ M env env' M₁ env₁, R M env env' →
      execCode M (path.flatMap src) env = some (M₁, env₁) →
      ∃ env₁', execCode M (path.flatMap tgt) env' = some (M₁, env₁') ∧
        R M₁ env₁ env₁' := by
  induction path with
  | nil => intro M env env' M₁ env₁ hR h; cases h; exact ⟨env', rfl, hR⟩
  | cons k path ih =>
    intro M env env' M₁ env₁ hR h
    rw [List.flatMap_cons, execCode_append] at h ⊢
    obtain ⟨⟨M₂, env₂⟩, h₁, h₂⟩ := Option.bind_eq_some.1 h
    obtain ⟨env₂', h₁', hR₂⟩ := hblock k M env env' M₂ env₂ hR h₁
    obtain ⟨env₁', h₂', hR₁⟩ := ih M₂ env₂ env₂' M₁ env₁ hR₂ h₂
    exact ⟨env₁', by rw [h₁', Option.some_bind]; exact h₂', hR₁⟩

/-! ### Builder code with effects -/

/-- `m`, run from any builder and environment in which the values `ins` have their given values,
only appends code, which runs from `M` to `M'`, keeping every value below the old `ssa_alloc`,
to an environment giving the values `outs` of its result. -/
def Runs {α : Type} (M : Machine) (ins : List (Def × Val)) (m : BuildM α) (M' : Machine)
    (outs : α → List (Def × Val)) : Prop :=
  ∀ b env, HasAll b env ins → List.IsPrefix b.emitted (m b).2.emitted ∧
    ∃ env', execCode M (b.newCode (m b).2) env = some (M', env') ∧ Frame b env (m b).2 env' ∧
      HasAll (m b).2 env' (outs (m b).1)

namespace Runs

variable {α β : Type} {M M₁ M₂ : Machine} {ins ins' : List (Def × Val)}

/-- Code computing a value runs without touching memory. -/
theorem of_computes {m : BuildM Def} {v : Val} (h : Computes M ins m v) :
    Runs M ins m M fun d => [(d, v)] := fun b env hin => by
  obtain ⟨hp, env', he, hf, hd⟩ := h b env hin
  exact ⟨hp, env', execCode_of_evalCode he, hf, by simpa [HasAll] using hd⟩

theorem weaken {m : BuildM α} {outs : α → List (Def × Val)} (h : Runs M ins m M₁ outs)
    (hs : ins ⊆ ins') : Runs M ins' m M₁ outs :=
  fun b env hin => h b env fun p hp => hin p (hs hp)

theorem pure (a : α) {outs : α → List (Def × Val)} (h : outs a ⊆ ins) :
    Runs M ins (Pure.pure a) M outs :=
  fun b env hin => ⟨List.prefix_refl _, env,
    show execCode M (b.newCode b) env = some (M, env) by rw [Builder.newCode_self]; rfl,
    Frame.refl b env, fun p hp => hin p (h hp)⟩

/-- The values a first action gives are inputs of the rest, each of its width. -/
theorem bind {m : BuildM α} {k : α → BuildM β} {outs : α → List (Def × Val)}
    {outs' : β → List (Def × Val)} (hm : Runs M ins m M₁ outs)
    (hk : ∀ a, (∀ p ∈ outs a, p.1.bitSize = p.2.bitSize) →
      Runs M₁ (outs a ++ ins) (k a) M₂ outs') :
    Runs M ins (m >>= k) M₂ outs' := by
  intro b env hin
  obtain ⟨hp₁, env₁, he₁, hf₁, hd⟩ := hm b env hin
  have hall : HasAll (m b).2 env₁ (outs (m b).1 ++ ins) := fun p hp =>
    (List.mem_append.1 hp).elim (hd p) fun hp => hf₁.has (hin p hp)
  obtain ⟨hp₂, env₂, he₂, hf₂, hr⟩ :=
    hk (m b).1 (fun p hp => (hd p hp).2.1) (m b).2 env₁ hall
  refine ⟨hp₁.trans hp₂, env₂, ?_, hf₁.trans hf₂, hr⟩
  show execCode M (b.newCode (k (m b).1 (m b).2).2) env = some (M₂, env₂)
  rw [Builder.newCode_trans hp₁ hp₂, execCode_append, he₁, Option.some_bind, he₂]

/-- Code with no inputs leaves one memory: the store semantics is deterministic. -/
theorem machine_eq {m : BuildM α} {outs outs' : α → List (Def × Val)} (h : Runs M [] m M₁ outs)
    (h' : Runs M [] m M₂ outs') : M₁ = M₂ := by
  obtain ⟨-, _, he, -⟩ := h ⟨0, []⟩ (fun _ => none) fun _ hp => nomatch hp
  obtain ⟨-, _, he', -⟩ := h' ⟨0, []⟩ (fun _ => none) fun _ hp => nomatch hp
  exact (Prod.mk.inj (Option.some.inj (he.symm.trans he'))).1

/-- A value computed first is an input of the rest, of its width. -/
theorem bind_computes {m : BuildM Def} {v : Val} {k : Def → BuildM β}
    {outs' : β → List (Def × Val)} (hm : Computes M ins m v)
    (hk : ∀ d, d.bitSize = v.bitSize → Runs M ((d, v) :: ins) (k d) M₂ outs') :
    Runs M ins (m >>= k) M₂ outs' :=
  (of_computes hm).bind fun d hd => hk d (hd _ (List.mem_singleton_self _))

end Runs

/-- `nir_store_global` writes the components its mask selects at the address's value. -/
theorem nirStoreGlobal_runs (M : Machine) (addr value : Def) (mask : Nat) {A : Nat} {v : Val} :
    Runs M [(addr, ⟨64, [A]⟩), (value, v)] (nirStoreGlobal addr value mask)
      (M.storeGlobal (BitVec.ofNat 64 A) v mask) fun _ => [] := by
  intro b env hin
  have ha := (hin _ (List.mem_cons_self _ _)).2.2
  have hv := (hin _ (List.mem_cons_of_mem _ (List.mem_singleton_self _))).2.2
  refine ⟨List.prefix_append _ _, env, ?_, ⟨le_rfl, fun _ _ => rfl⟩,
    fun _ h => absurd h (List.not_mem_nil _)⟩
  simp only [nirStoreGlobal, Builder.insertVoid, Builder.newCode_append, execCode, execInstr,
    readSrcs, ha, hv, Option.some_bind, Option.map_some', List.headD_cons]

end MesaSim.Nir
