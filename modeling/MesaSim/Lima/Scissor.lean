import MesaSim.Lima.State

/-!
# Scissor clipping

`lima_clip_scissor_to_viewport` and `lima_is_scissor_zero`
(`brw_nir_lower_cs_intrinsics.c:296–337`). The scissor, or the whole framebuffer when
scissoring is off, is intersected with the viewport bounds clamped to the framebuffer, one
axis at a time, in C `int`; each result is stored into a 16-bit unsigned field. The left and
bottom viewport bounds are clamped below at 0, the right and top ones only above, so a
viewport lying wholly left of or below the framebuffer stores a negative bound, which wraps.
-/

namespace MesaSim.Lima

/-- Storing a C `int` into a 16-bit unsigned bit-field keeps it modulo `2^16`. -/
def store16 (v : Int) : BitVec 16 := BitVec.ofInt 16 v

/-- One axis of `lima_clip_scissor_to_viewport` (`:316–321`, `:323–328`): `lo`/`hi` from
the scissor, `vpLo`/`vpHi` the viewport bounds, `size` the framebuffer size. -/
def clipAxis (lo hi : BitVec 16) (vpLo vpHi : Int) (size : Nat) : BitVec 16 × BitVec 16 :=
  let viewportLo := max vpLo 0
  let lo := store16 (max (lo.toNat : Int) viewportLo)
  let viewportHi := min vpHi size
  let hi := store16 (min (hi.toNat : Int) viewportHi)
  (if lo.toNat > hi.toNat then hi else lo, hi)

/-- `lima_clip_scissor_to_viewport`: the new `ctx->clipped_scissor`. -/
def limaClipScissorToViewport (fb : Framebuffer) (scissorEnabled : Bool)
    (scissor : ScissorState) (vp : Viewport) : ScissorState :=
  let c := if scissorEnabled then scissor else ⟨0, 0, fb.width, fb.height⟩
  let x := clipAxis c.minx c.maxx vp.left vp.right fb.width.toNat
  let y := clipAxis c.miny c.maxy vp.bottom vp.top fb.height.toNat
  ⟨x.1, y.1, x.2, y.2⟩

/-- `lima_is_scissor_zero`. -/
def limaIsScissorZero (c : ScissorState) : Bool := c.minx == c.maxx || c.miny == c.maxy

/-- Low end of the intersection of `[lo, hi)`, `[0, size)` and `[vpLo, vpHi)` on one axis. -/
def axisLo (lo : BitVec 16) (vpLo : Int) : Int := max (lo.toNat : Int) (max vpLo 0)

/-- High end of the same intersection. -/
def axisHi (hi : BitVec 16) (vpHi : Int) (size : Nat) : Int := min (min (hi.toNat : Int) size) vpHi

/-- A viewport lying wholly left of the framebuffer: its right bound `-100` is stored into
`maxx` as `65436`, so the clip neither collapses the empty intersection nor stays inside the
100-pixel-wide framebuffer, and `lima_is_scissor_zero` lets the draw through. -/
theorem limaClipScissorToViewport_offscreen_left :
    let fb : Framebuffer := ⟨100, 100, 1, ⟨1⟩, none⟩
    let c := limaClipScissorToViewport fb false ⟨0, 0, 0, 0⟩ ⟨-200, -100, 0, 50, [], []⟩
    c = ⟨0, 0, 65436, 50⟩ ∧ limaIsScissorZero c = false ∧
      axisHi 100 (-100) 100 ≤ axisLo 0 (-200) := by
  decide

end MesaSim.Lima
