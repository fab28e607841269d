import Mathlib.Algebra.BigOperators.Group.List
import MesaSim.Lima.Draw

/-!
# The sub-draws of a split draw

`lima_draw_vbo_count` (`brw_nir_lower_cs_intrinsics.c:1346–1371`) cuts a draw of more than
65535 vertices into sub-draws with `u_split_draw`, passing each to `lima_draw_vbo_update`:

    while (count) {
       unsigned this_count = count;
       unsigned step;
       u_split_draw(info, max_verts, &this_count, &step);
       local_draw.start = start;
       local_draw.count = this_count;
       lima_draw_vbo_update(pctx, info, &local_draw);
       count -= step;
       start += step;
    }

`limaSubDraws` lists the `(local_draw, step)` pairs of the loop's iterations. The loop is the
fold of `lima_draw_vbo_update` over them (`limaDrawVboCount_eq_foldl`), and under the
splitter's contract the list is at most `count` long, its steps add up to `count`, and the
sub-draws lie inside the drawn range and cover it.
-/

namespace MesaSim.Lima

/-- A nonzero count is cut into a first sub-draw of at most 65535 and at most `count`
vertices, and a positive step no larger than it. -/
theorem SplitDraw.bounds (s : SplitDraw) (info : DrawInfo) {count : Nat} (h : count ≠ 0) :
    0 < (s.split info 65535 count).2 ∧
      (s.split info 65535 count).2 ≤ (s.split info 65535 count).1 ∧
      (s.split info 65535 count).1 ≤ 65535 ∧ (s.split info 65535 count).1 ≤ count := by
  by_cases hc : count ≤ 65535
  · rw [s.fits info 65535 count hc]; omega
  · have := s.cuts info 65535 count (by omega) (by omega); omega

/-- The `(local_draw, step)` of each iteration of the loop of `lima_draw_vbo_count`. -/
def limaSubDraws (s : SplitDraw) (info : DrawInfo) (start : BitVec 32) (count : Nat) :
    List (DrawStartCount × Nat) :=
  if count = 0 then []
  else
    (⟨start, BitVec.ofNat 32 (s.split info 65535 count).1⟩, (s.split info 65535 count).2) ::
      limaSubDraws s info (start + BitVec.ofNat 32 (s.split info 65535 count).2)
        (count - (s.split info 65535 count).2)
termination_by count
decreasing_by have := s.step_pos info ‹_›; omega

section SubDraws

variable (s : SplitDraw) (info : DrawInfo)

@[simp] theorem limaSubDraws_zero (start : BitVec 32) : limaSubDraws s info start 0 = [] := by
  rw [limaSubDraws, if_pos rfl]

theorem limaSubDraws_pos {start : BitVec 32} {count : Nat} (h : count ≠ 0) :
    limaSubDraws s info start count =
      (⟨start, BitVec.ofNat 32 (s.split info 65535 count).1⟩, (s.split info 65535 count).2) ::
        limaSubDraws s info (start + BitVec.ofNat 32 (s.split info 65535 count).2)
          (count - (s.split info 65535 count).2) := by
  rw [limaSubDraws, if_neg h]

/-- The loop of `lima_draw_vbo_count` is `lima_draw_vbo_update` applied to each sub-draw in
turn. -/
theorem limaDrawVboCount_eq_foldl (g : Gallium) (start : BitVec 32) (count : Nat)
    (ctx : Context) :
    limaDrawVboCount g info start count ctx =
      (limaSubDraws g.splitDraw info start count).foldl
        (fun ctx d => limaDrawVboUpdate g d.1 ctx) ctx := by
  induction start, count, ctx using limaDrawVboCount.induct g info with
  | case1 start ctx => rw [limaDrawVboCount, if_pos rfl, limaSubDraws_zero, List.foldl_nil]
  | case2 start count ctx hc _ ih =>
    rw [limaDrawVboCount, if_neg hc, limaSubDraws_pos _ _ hc, List.foldl_cons]
    exact ih

/-- The loop runs at most `count` times, and its steps add up to `count`: `count -= step`
never wraps and ends at zero. -/
theorem limaSubDraws_length_sum (start : BitVec 32) (count : Nat) :
    (limaSubDraws s info start count).length ≤ count ∧
      ((limaSubDraws s info start count).map Prod.snd).sum = count := by
  induction start, count using limaSubDraws.induct s info with
  | case1 start => simp
  | case2 start count hc ih =>
    have hb := s.bounds info hc
    rw [limaSubDraws_pos _ _ hc, List.length_cons, List.map_cons, List.sum_cons]
    omega

/-- The sub-draw of iteration `i` starts `o` vertices after `start`, where `o` is the sum of
the earlier steps; it has between one and 65535 vertices, at least its step, and it ends
within the drawn range. -/
theorem limaSubDraws_get (start : BitVec 32) (count : Nat) :
    ∀ i d, (limaSubDraws s info start count)[i]? = some d →
      let o := (((limaSubDraws s info start count).take i).map Prod.snd).sum
      d.1.start = start + BitVec.ofNat 32 o ∧ d.1.count.toNat ≤ 65535 ∧ 0 < d.2 ∧
        d.2 ≤ d.1.count.toNat ∧ o + d.1.count.toNat ≤ count := by
  induction start, count using limaSubDraws.induct s info with
  | case1 start => simp
  | case2 start count hc ih =>
    have hb := s.bounds info hc
    have hc₁ : (BitVec.ofNat 32 (s.split info 65535 count).1).toNat =
        (s.split info 65535 count).1 := by
      rw [BitVec.toNat_ofNat, Nat.mod_eq_of_lt (by omega)]
    rw [limaSubDraws_pos _ _ hc]
    rintro (_ | i) d hd
    · rw [List.getElem?_cons_zero, Option.some.injEq] at hd
      subst hd
      simp only [List.take_zero, List.map_nil, List.sum_nil, hc₁]
      exact ⟨(BitVec.add_zero start).symm, by omega⟩
    · rw [List.getElem?_cons_succ] at hd
      obtain ⟨h₁, h₂, h₃, h₄, h₅⟩ := ih i d hd
      simp only [List.take_succ_cons, List.map_cons, List.sum_cons]
      refine ⟨by rw [h₁, BitVec.add_assoc, BitVec.ofNat_add], h₂, h₃, h₄, by omega⟩

/-- Each sub-draw starts where the previous one's step leads. -/
theorem limaSubDraws_succ_start (start : BitVec 32) (count : Nat) (i : Nat)
    (d d' : DrawStartCount × Nat) (hd : (limaSubDraws s info start count)[i]? = some d)
    (hd' : (limaSubDraws s info start count)[i + 1]? = some d') :
    d'.1.start = d.1.start + BitVec.ofNat 32 d.2 := by
  rw [(limaSubDraws_get s info start count (i + 1) d' hd').1,
    (limaSubDraws_get s info start count i d hd).1, List.take_succ, hd, List.map_append,
    List.sum_append]
  simp [BitVec.add_assoc, BitVec.ofNat_add]

/-- Every vertex offset of the drawn range lies in some sub-draw. -/
theorem limaSubDraws_cover (start : BitVec 32) (count : Nat) :
    ∀ v < count, ∃ i d, (limaSubDraws s info start count)[i]? = some d ∧
      (((limaSubDraws s info start count).take i).map Prod.snd).sum ≤ v ∧
      v < (((limaSubDraws s info start count).take i).map Prod.snd).sum + d.1.count.toNat := by
  induction start, count using limaSubDraws.induct s info with
  | case1 start => intro v hv; omega
  | case2 start count hc ih =>
    have hb := s.bounds info hc
    have hc₁ : (BitVec.ofNat 32 (s.split info 65535 count).1).toNat =
        (s.split info 65535 count).1 := by
      rw [BitVec.toNat_ofNat, Nat.mod_eq_of_lt (by omega)]
    intro v hv
    rw [limaSubDraws_pos _ _ hc]
    by_cases hvs : v < (s.split info 65535 count).2
    · refine ⟨0, _, List.getElem?_cons_zero, by simp, ?_⟩
      simp only [List.take_zero, List.map_nil, List.sum_nil, hc₁]
      omega
    · obtain ⟨i, d, hd, h₁, h₂⟩ := ih (v - (s.split info 65535 count).2) (by omega)
      refine ⟨i + 1, d, by rwa [List.getElem?_cons_succ], ?_, ?_⟩ <;>
        simp only [List.take_succ_cons, List.map_cons, List.sum_cons] <;> omega

end SubDraws

/-- What the loop of `lima_draw_vbo_count` does with a draw of `n` vertices from `s`: it
passes exactly the listed sub-draws to `lima_draw_vbo_update`, at most `n` of them; each has
at most 65535 vertices; the first starts at `s` and each next one `step` after the previous;
the steps add up to `n`; the sub-draw after steps adding up to `o` starts at `s + o` and ends by
`s + n`; and every vertex of `[s, s + n)` is drawn by one of them. -/
def SubDrawsSpec (g : Gallium) (info : DrawInfo) (s : BitVec 32) (n : Nat) (ctx : Context) :
    Prop :=
  let L := limaSubDraws g.splitDraw info s n
  limaDrawVboCount g info s n ctx = L.foldl (fun ctx d => limaDrawVboUpdate g d.1 ctx) ctx ∧
    L.length ≤ n ∧
    (∀ d, L.head? = some d → d.1.start = s) ∧
    (∀ i d d', L[i]? = some d → L[i + 1]? = some d' → d'.1.start = d.1.start + BitVec.ofNat 32 d.2) ∧
    (L.map Prod.snd).sum = n ∧
    (∀ i d, L[i]? = some d →
      let o := ((L.take i).map Prod.snd).sum
      d.1.count.toNat ≤ 65535 ∧ 0 < d.2 ∧ d.2 ≤ d.1.count.toNat ∧
        d.1.start = s + BitVec.ofNat 32 o ∧ s.toNat + o + d.1.count.toNat ≤ s.toNat + n) ∧
    (∀ v < n, ∃ i d, L[i]? = some d ∧ ((L.take i).map Prod.snd).sum ≤ v ∧
      v < ((L.take i).map Prod.snd).sum + d.1.count.toNat)

theorem limaDrawVboCount_subDraws (g : Gallium) (info : DrawInfo) (s : BitVec 32) (n : Nat)
    (ctx : Context) : SubDrawsSpec g info s n ctx := by
  have hget := limaSubDraws_get g.splitDraw info s n
  refine ⟨limaDrawVboCount_eq_foldl info g s n ctx, (limaSubDraws_length_sum _ _ s n).1,
    fun d hd => ?_, limaSubDraws_succ_start _ _ s n, (limaSubDraws_length_sum _ _ s n).2,
    fun i d hd => ?_, limaSubDraws_cover _ _ s n⟩
  · simpa using (hget 0 d (by rw [← hd, List.head?_eq_getElem?])).1
  · obtain ⟨h₁, h₂, h₃, h₄, h₅⟩ := hget i d hd
    exact ⟨h₂, h₃, h₄, h₁, by omega⟩

end MesaSim.Lima
