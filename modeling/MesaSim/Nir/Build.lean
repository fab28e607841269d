import Mathlib.Data.List.Nodup
import MesaSim.Nir.Ir

/-!
# What builder code inserts

A small program logic for the builder code of the passes. `Builds inv m post` says that `m`,
run from any builder satisfying `inv`, ends in one satisfying it, never lowers `ssa_alloc`,
only appends at the cursor, defining distinct values from the old `ssa_alloc` on, and returns a
value satisfying `post`. It has one rule per construct of a `do` block and one per builder
function of `MesaSim.Nir.Ir`, so that what a pass inserts is read off its code rule by rule
rather than by running it. The invariant the passes use, `Inserted R okOp`, says that every
inserted instruction reads only values satisfying `R` and calls only intrinsics satisfying
`okOp`, given whether the call defines a value. `BuildsIn inv S defOp m vals post` says where the values of a result come from: a set
`S` of values given beforehand, or an instruction of the code `m` inserts calling only
intrinsics satisfying `defOp`.
-/

namespace MesaSim.Nir

/-- The code inserted between `b` and `b'`. -/
def Builder.newCode (b b' : Builder) : List Instr := b'.emitted.drop b.emitted.length

/-- `b'` is `b` with more code appended at the cursor and no fewer values allocated; the code
appended defines distinct values, allocated between the two. -/
structure Builder.Grows (b b' : Builder) : Prop where
  alloc_le : b.ssaAlloc ≤ b'.ssaAlloc
  appends : List.IsPrefix b.emitted b'.emitted
  defs_nodup : (defsOf (b.newCode b')).Nodup
  defs_range : ∀ x ∈ defsOf (b.newCode b'), b.ssaAlloc ≤ x ∧ x < b'.ssaAlloc

theorem Builder.newCode_self (b : Builder) : b.newCode b = [] := by simp [Builder.newCode]

theorem Builder.newCode_append (b : Builder) (code : List Instr) (n : Nat) :
    b.newCode ⟨n, b.emitted ++ code⟩ = code := by
  simp [Builder.newCode]

theorem Builder.Grows.refl (b : Builder) : b.Grows b :=
  ⟨le_rfl, List.prefix_refl _, by simp [b.newCode_self, defsOf], by simp [b.newCode_self, defsOf]⟩

theorem Builder.newCode_trans {b₁ b₂ b₃ : Builder} (h₁ : List.IsPrefix b₁.emitted b₂.emitted)
    (h₂ : List.IsPrefix b₂.emitted b₃.emitted) :
    b₁.newCode b₃ = b₁.newCode b₂ ++ b₂.newCode b₃ := by
  obtain ⟨c₁, hc₁⟩ := h₁
  obtain ⟨c₂, hc₂⟩ := h₂
  simp [Builder.newCode, ← hc₂, ← hc₁]

theorem Builder.Grows.newCode_trans {b₁ b₂ b₃ : Builder} (h₁ : b₁.Grows b₂) (h₂ : b₂.Grows b₃) :
    b₁.newCode b₃ = b₁.newCode b₂ ++ b₂.newCode b₃ :=
  Builder.newCode_trans h₁.appends h₂.appends

theorem Builder.Grows.trans {b₁ b₂ b₃ : Builder} (h₁ : b₁.Grows b₂) (h₂ : b₂.Grows b₃) :
    b₁.Grows b₃ := by
  refine ⟨le_trans h₁.alloc_le h₂.alloc_le, h₁.appends.trans h₂.appends, ?_, ?_⟩ <;>
    rw [h₁.newCode_trans h₂, defsOf_append]
  · refine List.nodup_append.2 ⟨h₁.defs_nodup, h₂.defs_nodup, fun x hx₁ hx₂ => ?_⟩
    exact absurd (h₁.defs_range x hx₁).2 (not_lt.2 (h₂.defs_range x hx₂).1)
  · intro x hx
    rcases List.mem_append.1 hx with hx | hx
    · exact ⟨(h₁.defs_range x hx).1, lt_of_lt_of_le (h₁.defs_range x hx).2 h₂.alloc_le⟩
    · exact ⟨le_trans h₁.alloc_le (h₂.defs_range x hx).1, (h₂.defs_range x hx).2⟩

/-- Appending an instruction defining the value at `ssa_alloc`, or none, grows the builder. -/
theorem Builder.grows_insert (b : Builder) (i : Instr) (n : Nat) (hn : b.ssaAlloc ≤ n)
    (hd : ∀ d, i.dest? = some d → b.ssaAlloc = d.index ∧ d.index < n) :
    b.Grows ⟨n, b.emitted ++ [i]⟩ := by
  refine ⟨hn, List.prefix_append _ _, ?_, ?_⟩ <;> rw [Builder.newCode_append]
  · cases h : i.dest? <;> simp [defsOf, h]
  · intro x hx
    cases h : i.dest? with
    | none => simp [defsOf, h] at hx
    | some d =>
      simp only [defsOf, List.filterMap_cons, h, Option.map_some', List.filterMap_nil,
        List.mem_singleton] at hx
      subst hx
      exact ⟨(hd d h).1.le, (hd d h).2⟩

/-- `m`, run from a builder satisfying `inv`, ends in one satisfying `inv` that it grew, and
returns a value satisfying `post`. -/
def Builds {α : Type} (inv : Builder → Prop) (m : BuildM α) (post : α → Prop) : Prop :=
  ∀ b, inv b → inv (m b).2 ∧ b.Grows (m b).2 ∧ post (m b).1

namespace Builds

variable {α β : Type} {inv : Builder → Prop}

theorem pure {a : α} {post : α → Prop} (h : post a) : Builds inv (Pure.pure a) post :=
  fun b hb => ⟨hb, .refl b, h⟩

theorem bind {m : BuildM α} {k : α → BuildM β} {Q : α → Prop} {R : β → Prop}
    (hm : Builds inv m Q) (hk : ∀ a, Q a → Builds inv (k a) R) : Builds inv (m >>= k) R :=
  fun b hb =>
    have h₁ := hm b hb
    have h₂ := hk _ h₁.2.2 _ h₁.1
    ⟨h₂.1, h₁.2.1.trans h₂.2.1, h₂.2.2⟩

theorem map {m : BuildM α} {f : α → β} {Q : α → Prop} {R : β → Prop} (hm : Builds inv m Q)
    (hf : ∀ a, Q a → R (f a)) : Builds inv (f <$> m) R :=
  fun b hb =>
    have h := hm b hb
    ⟨h.1, h.2.1, hf _ h.2.2⟩

theorem ite {c : Prop} [Decidable c] {m₁ m₂ : BuildM α} {Q : α → Prop}
    (h₁ : c → Builds inv m₁ Q) (h₂ : ¬c → Builds inv m₂ Q) : Builds inv (if c then m₁ else m₂) Q := by
  by_cases hc : c
  · rw [if_pos hc]; exact h₁ hc
  · rw [if_neg hc]; exact h₂ hc

theorem mono {m : BuildM α} {Q R : α → Prop} (h : Builds inv m Q) (hQ : ∀ a, Q a → R a) :
    Builds inv m R :=
  fun b hb => have h' := h b hb; ⟨h'.1, h'.2.1, hQ _ h'.2.2⟩

end Builds

/-- `m` builds as `Builds` says, and each value `vals` lists of its result satisfies `post` and
either lies in `S`, values given beforehand, or is defined by an instruction of the code `m`
inserts that calls only intrinsics satisfying `defOp`. -/
def BuildsIn {α : Type} (inv : Builder → Prop) (S : Def → Prop) (defOp : IntrinsicOp → Prop)
    (m : BuildM α) (vals : α → List Def) (post : Def → Prop) : Prop :=
  ∀ b, inv b → inv (m b).2 ∧ b.Grows (m b).2 ∧
    ∀ v ∈ vals (m b).1, post v ∧ (S v ∨ ∃ j ∈ b.newCode (m b).2, j.dest? = some v ∧
      ∀ op, j.intrinsic? = some op → defOp op)

namespace BuildsIn

variable {α β : Type} {inv : Builder → Prop} {S : Def → Prop} {defOp : IntrinsicOp → Prop}
  {post : Def → Prop}

theorem toBuilds {m : BuildM α} {vals : α → List Def} (h : BuildsIn inv S defOp m vals post) :
    Builds inv m (fun a => ∀ v ∈ vals a, post v) :=
  fun b hb => have h' := h b hb; ⟨h'.1, h'.2.1, fun v hv => (h'.2.2 v hv).1⟩

/-- A program returning one value builds with that value's `post`. -/
theorem toBuildsDef {m : BuildM Def} (h : BuildsIn inv S defOp m ([·]) post) : Builds inv m post :=
  h.toBuilds.mono fun _ h => h _ (List.mem_singleton_self _)

theorem pure {a : α} {vals : α → List Def} (h : ∀ v ∈ vals a, post v ∧ S v) :
    BuildsIn inv S defOp (Pure.pure a) vals post :=
  fun b hb => ⟨hb, .refl b, fun v hv => ⟨(h v hv).1, .inl (h v hv).2⟩⟩

theorem bind {m : BuildM α} {k : α → BuildM β} {vals : β → List Def} {Q : α → Prop}
    (hm : Builds inv m Q) (hk : ∀ a, Q a → BuildsIn inv S defOp (k a) vals post) :
    BuildsIn inv S defOp (m >>= k) vals post :=
  fun b hb =>
    have h₁ := hm b hb
    have h₂ := hk _ h₁.2.2 _ h₁.1
    ⟨h₂.1, h₁.2.1.trans h₂.2.1, fun v hv => (h₂.2.2 v hv).imp_right fun h => h.imp_right fun h => by
      obtain ⟨j, hj, hjv⟩ := h
      refine ⟨j, ?_, hjv⟩
      show j ∈ b.newCode (k (m b).1 (m b).2).2
      rw [h₁.2.1.newCode_trans h₂.2.1]
      exact List.mem_append_right _ hj⟩

/-- A program whose result may list values an earlier one returned. -/
theorem bindIn {m : BuildM α} {k : α → BuildM β} {vals₁ : α → List Def} {vals : β → List Def}
    {Q : Def → Prop} (hm : BuildsIn inv S defOp m vals₁ Q)
    (hk : ∀ a, (∀ v ∈ vals₁ a, Q v) → BuildsIn inv (fun v => S v ∨ v ∈ vals₁ a) defOp (k a) vals post) :
    BuildsIn inv S defOp (m >>= k) vals post :=
  fun b hb =>
    have h₁ := hm b hb
    have h₂ := hk _ (fun v hv => (h₁.2.2 v hv).1) _ h₁.1
    have hsplit : b.newCode (k (m b).1 (m b).2).2 = b.newCode (m b).2 ++ (m b).2.newCode (k (m b).1 (m b).2).2 :=
      h₁.2.1.newCode_trans h₂.2.1
    ⟨h₂.1, h₁.2.1.trans h₂.2.1, fun v hv => ⟨(h₂.2.2 v hv).1, by
      show S v ∨ ∃ j ∈ b.newCode (k (m b).1 (m b).2).2, _
      rw [hsplit]
      rcases (h₂.2.2 v hv).2 with (hS | he) | ⟨j, hj, hjv⟩
      · exact .inl hS
      · exact (h₁.2.2 v he).2.imp_right fun ⟨j, hj, hjv⟩ => ⟨j, List.mem_append_left _ hj, hjv⟩
      · exact .inr ⟨j, List.mem_append_right _ hj, hjv⟩⟩⟩

theorem map {m : BuildM α} {f : α → β} {vals : α → List Def} {vals' : β → List Def}
    (h : BuildsIn inv S defOp m vals post) (hf : ∀ a, ∀ v ∈ vals' (f a), v ∈ vals a) :
    BuildsIn inv S defOp (f <$> m) vals' post :=
  fun b hb => have h' := h b hb; ⟨h'.1, h'.2.1, fun v hv => h'.2.2 v (hf _ v hv)⟩

theorem ite {c : Prop} [Decidable c] {m₁ m₂ : BuildM α} {vals : α → List Def}
    (h₁ : c → BuildsIn inv S defOp m₁ vals post) (h₂ : ¬c → BuildsIn inv S defOp m₂ vals post) :
    BuildsIn inv S defOp (if c then m₁ else m₂) vals post := by
  by_cases hc : c
  · rw [if_pos hc]; exact h₁ hc
  · rw [if_neg hc]; exact h₂ hc

theorem mono {m : BuildM α} {vals : α → List Def} {S' : Def → Prop} {post' : Def → Prop}
    (h : BuildsIn inv S defOp m vals post) (hS : ∀ v, S v → S' v) (hp : ∀ v, post v → post' v) :
    BuildsIn inv S' defOp m vals post' :=
  fun b hb => have h' := h b hb;
    ⟨h'.1, h'.2.1, fun v hv => ⟨hp _ (h'.2.2 v hv).1, (h'.2.2 v hv).2.imp_left (hS _)⟩⟩

end BuildsIn

/-- The code inserted so far reads only values satisfying `R` and calls only intrinsics
satisfying `okOp`, told whether the call defines a value; every value allocated from now on
satisfies `R`. -/
structure Inserted (R : Nat → Prop) (okOp : IntrinsicOp → Bool → Prop) (b : Builder) : Prop where
  alloc_ok : ∀ x, b.ssaAlloc ≤ x → R x
  code_ok : ∀ j ∈ b.emitted, (∀ x ∈ j.srcs, R x) ∧ ∀ op, j.intrinsic? = some op → okOp op j.dest?.isSome

/-- A value defined from `lo` on. -/
def Def.New (lo : Nat) (d : Def) : Prop := lo ≤ d.index

namespace Inserted

variable {R : Nat → Prop} {okOp : IntrinsicOp → Bool → Prop} {defOp : IntrinsicOp → Prop}

/-- Inserting an instruction that defines the next value, reads only values of `R` and calls
an allowed intrinsic, if any, defines a value of `R`. -/
theorem insert {mk : Def → Instr} {numComponents bitSize : Nat} (hd : ∀ d : Def, (mk d).dest? = some d)
    (h : ∀ d : Def, R d.index →
      (∀ x ∈ (mk d).srcs, R x) ∧ ∀ op, (mk d).intrinsic? = some op → okOp op true) :
    Builds (Inserted R okOp) (Builder.insert mk numComponents bitSize) (fun d => R d.index) := by
  intro b hb
  refine ⟨⟨fun x hx => hb.alloc_ok x (Nat.le_of_succ_le hx), fun j hj => ?_⟩,
    b.grows_insert _ _ (Nat.le_succ _) fun d hd' => ?_, hb.alloc_ok _ le_rfl⟩
  · rcases List.mem_append.1 hj with hj | hj
    · exact hb.code_ok j hj
    · rw [List.mem_singleton.1 hj, hd]
      exact h _ (hb.alloc_ok _ le_rfl)
  · obtain rfl := Option.some.inj ((hd _).symm.trans hd')
    exact ⟨rfl, Nat.lt_succ_self _⟩

/-- The value an inserted instruction defines is defined by the code inserted. -/
theorem insertIn {mk : Def → Instr} {numComponents bitSize : Nat} {S : Def → Prop}
    (hd : ∀ d : Def, (mk d).dest? = some d)
    (h : ∀ d : Def, R d.index →
      (∀ x ∈ (mk d).srcs, R x) ∧ ∀ op, (mk d).intrinsic? = some op → okOp op true)
    (hK : ∀ d : Def, ∀ op, (mk d).intrinsic? = some op → defOp op) :
    BuildsIn (Inserted R okOp) S defOp (Builder.insert mk numComponents bitSize) ([·])
      (fun d => R d.index) :=
  fun b hb =>
    have h' := insert hd h b hb
    ⟨h'.1, h'.2.1, fun v hv => by
      rw [List.mem_singleton.1 hv]
      exact ⟨h'.2.2, .inr ⟨_, by simp [Builder.newCode], hd _, hK _⟩⟩⟩

theorem nirIntrinsic {op : IntrinsicOp} {numComponents bitSize : Nat} {srcs : List Def}
    {indices : Indices} (hop : okOp op true) (hs : ∀ s ∈ srcs, R s.index) :
    Builds (Inserted R okOp) (nirIntrinsic op numComponents bitSize srcs indices) (fun d => R d.index) :=
  insert (fun _ => rfl) fun _ _ => ⟨by simpa [Instr.srcs] using hs, by rintro _ ⟨⟩; exact hop⟩

theorem nirAlu {op : AluOp} {srcs : List Def} {numComponents bitSize : Nat}
    (hs : ∀ s ∈ srcs, R s.index) :
    Builds (Inserted R okOp) (nirAlu op srcs numComponents bitSize) (fun d => R d.index) :=
  insert (fun _ => rfl) fun _ _ => ⟨by simpa [Instr.srcs] using hs, by simp [Instr.intrinsic?]⟩

theorem nirIntrinsicIn {op : IntrinsicOp} {numComponents bitSize : Nat} {srcs : List Def}
    {indices : Indices} {S : Def → Prop} (hop : okOp op true) (hK : defOp op) (hs : ∀ s ∈ srcs, R s.index) :
    BuildsIn (Inserted R okOp) S defOp (MesaSim.Nir.nirIntrinsic op numComponents bitSize srcs indices)
      ([·]) (fun d => R d.index) :=
  insertIn (fun _ => rfl) (fun _ _ => ⟨by simpa [Instr.srcs] using hs, by rintro _ ⟨⟩; exact hop⟩)
    fun _ _ h => by cases h; exact hK

theorem nirAluIn {op : AluOp} {srcs : List Def} {numComponents bitSize : Nat} {S : Def → Prop}
    (hs : ∀ s ∈ srcs, R s.index) :
    BuildsIn (Inserted R okOp) S defOp (MesaSim.Nir.nirAlu op srcs numComponents bitSize) ([·])
      (fun d => R d.index) :=
  insertIn (fun _ => rfl) (fun _ _ => ⟨by simpa [Instr.srcs] using hs, by simp [Instr.intrinsic?]⟩)
    fun _ _ h => nomatch h

theorem nirAlu2 {op : AluOp} {a c : Def} (ha : R a.index) (hc : R c.index) :
    Builds (Inserted R okOp) (nirAlu2 op a c) (fun d => R d.index) :=
  nirAlu (by simp [ha, hc])

theorem nirImmIntN {x bitSize : Nat} :
    Builds (Inserted R okOp) (nirImmIntN x bitSize) (fun d => R d.index) :=
  insert (fun _ => rfl) fun _ _ => ⟨by simp [Instr.srcs], by simp [Instr.intrinsic?]⟩

theorem nirImmIntNIn {x bitSize : Nat} {S : Def → Prop} :
    BuildsIn (Inserted R okOp) S defOp (MesaSim.Nir.nirImmIntN x bitSize) ([·]) (fun d => R d.index) :=
  insertIn (fun _ => rfl) (fun _ _ => ⟨by simp [Instr.srcs], by simp [Instr.intrinsic?]⟩)
    fun _ _ h => nomatch h

theorem nirChannel {a : Def} {c : Nat} (ha : R a.index) :
    Builds (Inserted R okOp) (nirChannel a c) (fun d => R d.index) :=
  nirAlu (by simp [ha])

theorem nirVec3 {x y z : Def} (hx : R x.index) (hy : R y.index) (hz : R z.index) :
    Builds (Inserted R okOp) (nirVec3 x y z) (fun d => R d.index) :=
  nirAlu (by simp [hx, hy, hz])

theorem nirU2u64 {a : Def} (ha : R a.index) :
    Builds (Inserted R okOp) (nirU2u64 a) (fun d => R d.index) :=
  nirAlu (by simp [ha])

theorem nirIaddImm {x : Def} {y : Nat} (hx : R x.index) :
    Builds (Inserted R okOp) (nirIaddImm x y) (fun d => R d.index) := by
  unfold MesaSim.Nir.nirIaddImm
  exact Builds.ite (fun _ => Builds.pure hx) fun _ => Builds.bind nirImmIntN fun _ hc => nirAlu2 hx hc

theorem nirIandImm {x : Def} {y : Nat} {S : Def → Prop} (hx : R x.index) :
    BuildsIn (Inserted R okOp) (fun v => S v ∨ v = x) defOp (MesaSim.Nir.nirIandImm x y) ([·])
      (fun d => R d.index) := by
  unfold MesaSim.Nir.nirIandImm
  exact BuildsIn.ite (fun _ => nirImmIntNIn) fun _ => BuildsIn.ite (fun _ => BuildsIn.pure (by simp [hx]))
    fun _ => BuildsIn.bind nirImmIntN fun _ hc => nirAluIn (by simp [hx, hc])

theorem nirImulImm {lowerBitops : Bool} {x : Def} {y : Nat} {S : Def → Prop} (hx : R x.index) :
    BuildsIn (Inserted R okOp) (fun v => S v ∨ v = x) defOp (MesaSim.Nir.nirImulImm lowerBitops x y)
      ([·]) (fun d => R d.index) := by
  unfold MesaSim.Nir.nirImulImm
  exact BuildsIn.ite (fun _ => nirImmIntNIn) fun _ => BuildsIn.ite (fun _ => BuildsIn.pure (by simp [hx]))
    fun _ => BuildsIn.ite (fun _ => BuildsIn.bind nirImmIntN fun _ hc => nirAluIn (by simp [hx, hc]))
      fun _ => BuildsIn.bind nirImmIntN fun _ hc => nirAluIn (by simp [hx, hc])

/-- Inserting an instruction that defines no value, reads only values of `R` and calls an
allowed intrinsic, if any. -/
theorem insertVoid {i : Instr} (hd : i.dest? = none) (hs : ∀ x ∈ i.srcs, R x)
    (hop : ∀ op, i.intrinsic? = some op → okOp op false) :
    Builds (Inserted R okOp) (Builder.insertVoid i) (fun _ => True) := by
  intro b hb
  refine ⟨⟨hb.alloc_ok, fun j hj => ?_⟩, b.grows_insert _ _ le_rfl (fun d h => nomatch hd.symm.trans h),
    trivial⟩
  rcases List.mem_append.1 hj with hj | hj
  · exact hb.code_ok j hj
  · rw [List.mem_singleton.1 hj, hd]
    exact ⟨hs, hop⟩

theorem nirStoreGlobal {addr value : Def} {writeMask : Nat} (hop : okOp .storeGlobal false)
    (ha : R addr.index) (hv : R value.index) :
    Builds (Inserted R okOp) (MesaSim.Nir.nirStoreGlobal addr value writeMask) (fun _ => True) :=
  insertVoid rfl (by simpa [Instr.srcs] using ⟨hv, ha⟩) fun _ h => by cases h; exact hop

/-- Run at a cursor with next index `n`, from which on every value is in `R`, and nothing
inserted yet, checked code inserts only instructions reading values of `R` and calling allowed
intrinsics. -/
theorem run {α : Type} {m : BuildM α} {post : α → Prop} {n : Nat}
    (h : Builds (Inserted R okOp) m post) (hn : ∀ x, n ≤ x → R x) :
    n ≤ (m ⟨n, []⟩).2.ssaAlloc ∧ post (m ⟨n, []⟩).1 ∧
      ∀ j ∈ (m ⟨n, []⟩).2.emitted, (∀ x ∈ j.srcs, R x) ∧
        ∀ op, j.intrinsic? = some op → okOp op j.dest?.isSome :=
  have h' := h ⟨n, []⟩ ⟨hn, fun _ h => nomatch h⟩
  ⟨h'.2.1.alloc_le, h'.2.2, h'.1.code_ok⟩

/-- Checked code inserted from a cursor at `n` is left alone by a renaming that keeps the values
of `R`. -/
theorem run_mapSrcs {α : Type} {m : BuildM α} {post : α → Prop} {n : Nat} {f : Nat → Nat}
    (h : Builds (Inserted R okOp) m post) (hn : ∀ x, n ≤ x → R x) (hf : ∀ x, R x → f x = x) :
    (m ⟨n, []⟩).2.emitted.map (·.mapSrcs f) = (m ⟨n, []⟩).2.emitted :=
  (List.map_congr_left fun j hj =>
    Instr.mapSrcs_eq_self fun x hx => hf x (((run h hn).2.2 j hj).1 x hx)).trans (List.map_id _)

end Inserted

end MesaSim.Nir
