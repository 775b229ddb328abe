import Llmx.PngUndoes

namespace Llmx

namespace Png

section Drawing

variable {r : Raster} {w h : Nat}

/-- A raster with all its bytes. -/
structure Raster.Sized (r : Raster) (w h : Nat) : Prop where
  width : r.width = w
  height : r.height = h
  rgb : r.rgb.length = w * h * 3

theorem new_sized (w h : Nat) : (Raster.new w h).Sized w h :=
  ⟨Eq.refl _, Eq.refl _, List.length_replicate⟩

theorem put_sized (hr : r.Sized w h) (x y : Nat) (px : Rgb) : (r.put x y px).Sized w h := by
  refine ⟨hr.width, hr.height, ?_⟩
  show (((r.rgb.set _ _).set _ _).set _ _).length = _
  rw [List.length_set, List.length_set, List.length_set]
  exact hr.rgb

/-- The places of two pixels of an image are apart by three bytes at least. -/
theorem place_apart {x y x' y' : Nat} (hx : x < r.width) (hx' : x' < r.width)
    (hne : (x, y) ≠ (x', y')) :
    r.place x y + 3 ≤ r.place x' y' ∨ r.place x' y' + 3 ≤ r.place x y := by
  have hnum : y * r.width + x ≠ y' * r.width + x' := by
    intro he
    have hmod := congrArg (· % r.width) he
    have hdiv := congrArg (· / r.width) he
    simp only [Nat.mul_add_mod_self_right, Nat.mod_eq_of_lt hx, Nat.mod_eq_of_lt hx'] at hmod
    have hpos : 0 < r.width := by omega
    simp only [Nat.mul_comm y, Nat.mul_comm y', Nat.mul_add_div hpos, Nat.div_eq_of_lt hx,
      Nat.div_eq_of_lt hx', Nat.add_zero] at hdiv
    exact hne (Prod.ext hmod hdiv)
  unfold Raster.place
  omega

theorem place_lt (hr : r.Sized w h) {x y : Nat} (hx : x < w) (hy : y < h) :
    r.place x y + 2 < r.rgb.length := by
  have hrow : (y + 1) * w ≤ h * w := Nat.mul_le_mul_right w hy
  have hlen := hr.rgb
  have hwidth := hr.width
  rw [Nat.succ_mul] at hrow
  rw [Nat.mul_comm w h] at hlen
  unfold Raster.place
  rw [hwidth]
  omega

theorem set_same {bytes : Bytes} {i : Nat} (hi : i < bytes.length) (b : UInt8) :
    (bytes.set i b).getD i 0 = b := by
  rw [List.getD_eq_getElem?_getD, List.getElem?_set_self hi, Option.getD_some]

theorem set_other {i j : Nat} (bytes : Bytes) (hij : i ≠ j) (b : UInt8) :
    (bytes.set i b).getD j 0 = bytes.getD j 0 := by
  rw [List.getD_eq_getElem?_getD, List.getElem?_set_ne hij, List.getD_eq_getElem?_getD]

theorem pixel_put_same (hr : r.Sized w h) {x y : Nat} (hx : x < w) (hy : y < h) (px : Rgb) :
    (r.put x y px).pixel x y = px := by
  have hlt := place_lt hr hx hy
  show ((((r.rgb.set (r.place x y) px.1).set (r.place x y + 1) px.2.1).set (r.place x y + 2)
      px.2.2).getD (r.place x y) 0, (((r.rgb.set (r.place x y) px.1).set (r.place x y + 1)
        px.2.1).set (r.place x y + 2) px.2.2).getD (r.place x y + 1) 0,
    (((r.rgb.set (r.place x y) px.1).set (r.place x y + 1) px.2.1).set (r.place x y + 2)
      px.2.2).getD (r.place x y + 2) 0) = px
  generalize r.place x y = i at hlt
  rw [set_other _ (by omega), set_other _ (by omega), set_same (by omega), set_other _ (by omega),
    set_same (by rw [List.length_set]; omega),
    set_same (by rw [List.length_set, List.length_set]; omega)]

theorem pixel_put_other {x y x' y' : Nat} (hx : x < r.width) (hx' : x' < r.width)
    (hne : (x, y) ≠ (x', y')) (px : Rgb) : (r.put x y px).pixel x' y' = r.pixel x' y' := by
  have hapart := place_apart hx hx' hne
  have hput : ∀ j, j + 1 ≤ r.place x y ∨ r.place x y + 3 ≤ j →
      (r.put x y px).rgb.getD j 0 = r.rgb.getD j 0 := by
    intro j hj
    show (((r.rgb.set _ _).set _ _).set _ _).getD j 0 = _
    rw [set_other _ (by omega), set_other _ (by omega), set_other _ (by omega)]
  show ((r.put x y px).rgb.getD (r.place x' y') 0, (r.put x y px).rgb.getD (r.place x' y' + 1) 0,
    (r.put x y px).rgb.getD (r.place x' y' + 2) 0) = _
  rw [hput _ (by omega), hput _ (by omega), hput _ (by omega)]
  exact Eq.refl _

/-- Pixels drawn one after another, each as `rgb` has it. -/
theorem draw_pixel {rgb : Nat → Nat → Rgb} {ws : List Write} (hr : r.Sized w h)
    (hin : ∀ p ∈ ws, p.x < w ∧ p.y < h ∧ p.px = rgb p.x p.y) :
    (ws.foldl (fun img p => img.put p.x p.y p.px) r).Sized w h ∧ ∀ x < w, ∀ y < h,
      (x, y) ∈ ws.map (fun p => (p.x, p.y)) ∨ r.pixel x y = rgb x y →
        (ws.foldl (fun img p => img.put p.x p.y p.px) r).pixel x y = rgb x y := by
  induction ws generalizing r with
  | nil => exact ⟨hr, fun x _ y _ hxy => hxy.resolve_left List.not_mem_nil⟩
  | cons p ws ih =>
    obtain ⟨hx, hy, hpx⟩ := hin p List.mem_cons_self
    obtain ⟨hsized, hrest⟩ := ih (put_sized hr p.x p.y p.px) fun q hq =>
      hin q (List.mem_cons_of_mem _ hq)
    refine ⟨hsized, fun x hxw y hyh hxy => hrest x hxw y hyh ?_⟩
    by_cases hp : (p.x, p.y) = (x, y)
    · obtain ⟨rfl, rfl⟩ := Prod.mk.inj hp
      exact Or.inr ((pixel_put_same hr hx hy p.px).trans hpx)
    · rw [pixel_put_other (by rw [hr.width]; exact hx) (by rw [hr.width]; exact hxw) hp]
      rcases hxy with hmem | hold
      · rw [List.map_cons, List.mem_cons] at hmem
        exact Or.inl (hmem.resolve_left fun he => hp he.symm)
      · exact Or.inr hold

end Drawing

section Sizes

theorem passPlaces_length (ps : Pass) (w h : Nat) :
    (ps.places w h).length = ps.rows h * ps.columns w := by
  unfold Pass.places
  rw [flatMap_length (k := ps.columns w) fun y _ => by rw [List.length_map, List.length_range],
    List.length_range]

theorem places_length (w h : Nat) : (places w h).length = h * w := by
  unfold places
  rw [flatMap_length (k := w) fun y _ => by rw [List.length_map, List.length_range],
    List.length_range]

theorem bitsPerPixel_le {m : Image} (hm : m.Valid) : m.header.bitsPerPixel ≤ 32 := by
  have hchannels : m.header.channels ≤ 4 := by
    unfold Header.channels
    split_ifs <;> omega
  have hdepth : m.header.depth ≤ 8 := by
    have hd := depth_mem hm
    simp only [List.mem_cons, List.not_mem_nil, or_false] at hd
    omega
  exact Nat.mul_le_mul hchannels hdepth

theorem passBytes_le {m : Image} (hm : m.Valid) (ps : Pass) :
    m.header.passBytes ps ≤ 5 * (ps.places m.header.w m.header.h).length := by
  have hbits := bitsPerPixel_le hm
  rw [passPlaces_length]
  unfold Header.passBytes
  split
  next hne =>
    have hmul := Nat.mul_le_mul_left (ps.columns m.header.w) hbits
    have hstride : m.header.stride ps + 1 ≤ 5 * ps.columns m.header.w := by
      unfold Header.stride
      omega
    have hrows := Nat.mul_le_mul_left (ps.rows m.header.h) hstride
    rw [Nat.mul_left_comm] at hrows
    exact hrows
  next => exact Nat.zero_le _

theorem expected_le {m : Image} (hm : m.Valid) :
    m.header.expected ≤ 5 * (m.header.h * m.header.w) := by
  have hsum : ∀ passes : List Pass, (passes.map m.header.passBytes).sum ≤
      5 * (passes.flatMap fun ps => ps.places m.header.w m.header.h).length := by
    intro passes
    induction passes with
    | nil => exact Nat.zero_le _
    | cons ps passes ih =>
      have hps := passBytes_le hm ps
      rw [List.map_cons, List.sum_cons, List.flatMap_cons, List.length_append]
      omega
  have hall := hsum m.header.passes
  rw [(passes_perm m.header m.header.w m.header.h).length_eq, places_length] at hall
  exact hall

end Sizes

section Decoded

variable {m : Image} {ch : Choices} {maxPixels : Nat}

/-- The pixels of an image with their RGB, pass by pass. -/
def Image.pixels (m : Image) : List Write := m.header.passes.flatMap m.passPixels

theorem pixels_places (m : Image) :
    m.pixels.map (fun p => (p.x, p.y)) =
      m.header.passes.flatMap fun ps => ps.places m.header.w m.header.h := by
  have hpass : ∀ ps : Pass, (m.passPixels ps).map (fun p => (p.x, p.y)) =
      ps.places m.header.w m.header.h := by
    intro ps
    unfold Image.passPixels
    rw [List.map_map]
    exact List.map_id _
  unfold Image.pixels
  rw [List.map_flatMap]
  simp only [hpass]

theorem pixels_rgb {p : Write} (hp : p ∈ m.pixels) : p.px = m.rgb p.x p.y := by
  obtain ⟨ps, -, hps⟩ := List.mem_flatMap.mp hp
  obtain ⟨q, -, rfl⟩ := List.mem_map.mp hps
  exact Eq.refl _

theorem decodeWrites_eq (hm : m.Valid) (hc : ch.For m)
    (hmax : m.header.w * m.header.h ≤ maxPixels) (hmost : maxPixels ≤ 2 ^ 60) :
    decodeWrites (m.file ch) maxPixels = .ok (m.header, m.pixels) := by
  obtain ⟨s, hs, hexpand, hcuts⟩ := hc.deflated
  have hdata := data_length m ch
  have hle := expected_le hm
  rw [Nat.mul_comm m.header.h] at hle
  have hbytes := Inflate.bytes_length s (Deflate.adler32 s.expand)
  have hsig : isPng (m.file ch) = true := List.isPrefixOf_iff_prefix.mpr (List.prefix_append _ _)
  have hpalette : ¬ (m.header.color = 3 ∧ paletteBytes m.palette = []) := by
    intro h
    have hlen := paletteBytes_length m.palette
    have hpos := List.length_pos_iff.mpr (hm.indexed h.1).1
    rw [h.2, List.length_nil] at hlen
    omega
  have hidat : ch.cuts.flatten ≠ [] := by
    intro h
    rw [← hcuts, h, List.length_nil] at hbytes
    omega
  have hinflate : Inflate.inflateZlib ch.cuts.flatten m.header.expected = .ok (m.data ch) := by
    rw [hcuts, Inflate.inflateZlib_bytes hs (by omega) (adler32_lt _), hexpand,
      if_neg (by omega), if_pos (Eq.refl _)]
  have hpasses := passWrites_data hm hc.filter m.header.passes []
  rw [List.append_nil] at hpasses
  unfold decodeWrites
  rw [hsig, if_neg (by simp), readChunks_file hm hc hmax]
  show (if m.header.color = 3 ∧ paletteBytes m.palette = [] then _ else _) = _
  rw [if_neg hpalette, if_neg hidat, hinflate]
  show (if (m.data ch).length ≠ m.header.expected then _ else _) = _
  rw [if_neg (fun h => h hdata), if_neg (by omega)]
  show (m.header.passWrites (paletteBytes m.palette) m.header.passes
    (m.header.passes.flatMap (m.passData ch))).bind _ = _
  rw [hpasses]
  exact Eq.refl _

theorem drawn_pixels (m : Image) :
    (drawn m.header m.pixels).Sized m.header.w m.header.h ∧
      ∀ x < m.header.w, ∀ y < m.header.h,
        (drawn m.header m.pixels).pixel x y = m.rgb x y := by
  have hperm := passes_perm m.header m.header.w m.header.h
  rw [← pixels_places] at hperm
  have hin : ∀ p ∈ m.pixels, p.x < m.header.w ∧ p.y < m.header.h ∧ p.px = m.rgb p.x p.y := by
    intro p hp
    obtain ⟨hx, hy⟩ := mem_places.mp (hperm.mem_iff.mp (List.mem_map_of_mem hp))
    exact ⟨hx, hy, pixels_rgb hp⟩
  obtain ⟨hsized, hpixel⟩ := draw_pixel (new_sized m.header.w m.header.h) hin
  refine ⟨hsized, fun x hx y hy => hpixel x hx y hy (Or.inl ?_)⟩
  exact hperm.mem_iff.mpr (mem_places.mpr ⟨hx, hy⟩)

/-- Decoding undoes encoding: every pixel is written once, with the RGB of its sample, and the
passes take up the inflated bytes and no more. -/
theorem decodePng_undoes (hm : m.Valid) (hc : ch.For m)
    (hmax : m.header.w * m.header.h ≤ maxPixels) (hmost : maxPixels ≤ 2 ^ 60) :
    (m.data ch).length = m.header.expected ∧
      (m.header.passes.flatMap fun ps => ps.places m.header.w m.header.h).Perm
        (places m.header.w m.header.h) ∧
      ∃ ws img, decodeWrites (m.file ch) maxPixels = .ok (m.header, ws) ∧
        decodePng (m.file ch) maxPixels = .ok img ∧
        (ws.map fun p => (p.x, p.y)).Perm (places m.header.w m.header.h) ∧
        (∀ p ∈ ws, p.px = m.rgb p.x p.y) ∧ img.Sized m.header.w m.header.h ∧
        ∀ x < m.header.w, ∀ y < m.header.h, img.pixel x y = m.rgb x y := by
  have hperm := passes_perm m.header m.header.w m.header.h
  have hwrites := decodeWrites_eq hm hc hmax hmost
  obtain ⟨hsized, hpixel⟩ := drawn_pixels m
  refine ⟨data_length m ch, hperm, m.pixels, drawn m.header m.pixels, hwrites, ?_, ?_,
    fun p hp => pixels_rgb hp, hsized, hpixel⟩
  · unfold decodePng
    rw [hwrites]
    exact Eq.refl _
  · rw [pixels_places]
    exact hperm

end Decoded

/-- An interlaced image of five columns and three rows and four colors, two bits a pixel. -/
def someImage : Image where
  header := ⟨5, 3, 2, 3, 1⟩
  palette := [(1, 2, 3), (40, 50, 60), (7, 8, 9), (255, 0, 128)]
  sample x y := [(x + 2 * y) % 4]

/-- Its seven passes filtered, every type of filter among them. -/
def someData : Bytes := [3, 36, 2, 36, 1, 164, 4, 34, 3, 121, 4, 0, 2, 177, 164]

def someDeflated : Deflate.ZlibStream := ⟨0x78, 0x9c, [.stored 0 someData], 0⟩

def someFile : Bytes := someDeflated.bytes (Deflate.adler32 someDeflated.expand)

def someChoices : Choices where
  filter ps y := (ps.x0 + ps.dy + y) % 5
  padding _ _ i := i % 3 == 0
  cuts := [someFile.take 7, [], someFile.drop 7]

theorem someImage_valid : someImage.Valid where
  width := by decide
  height := by decide
  depth := by decide
  interlace := by decide
  samples _ _ := Eq.refl 1
  fits x y v hv := by
    rw [List.mem_singleton.mp hv]
    exact Nat.mod_lt _ (by decide)
  palette := by decide
  indexed _ := ⟨by decide, fun x y v hv => by
    rw [List.mem_singleton.mp hv]
    exact Nat.mod_lt _ (by decide)⟩

theorem some_deflated :
    someDeflated.Valid 30 ∧ someDeflated.expand = someImage.data someChoices ∧
      someFile.length = 26 := by decide +kernel

theorem someChoices_for : someChoices.For someImage where
  filter _ _ := by
    show (_ + _ + _) % 5 ≤ 4
    omega
  length cut hcut := by
    have hlen := some_deflated.2.2
    simp only [someChoices, List.mem_cons, List.not_mem_nil, or_false] at hcut
    rcases hcut with he | he | he
    · rw [he, List.length_take]
      omega
    · rw [he, List.length_nil]
      omega
    · rw [he, List.length_drop]
      omega
  deflated := by
    refine ⟨someDeflated, some_deflated.1, some_deflated.2.1, ?_⟩
    show (someFile.take 7 ++ ([] ++ (someFile.drop 7 ++ []))) = someFile
    rw [List.nil_append, List.append_nil, List.take_append_drop]

theorem decodePng_undoes_five_by_three :
    (someImage.data someChoices).length = someImage.header.expected ∧
      (someImage.header.passes.flatMap fun ps => ps.places 5 3).Perm (places 5 3) ∧
      ∃ ws img, decodeWrites (someImage.file someChoices) kMaxDecodedPixels =
          .ok (someImage.header, ws) ∧
        decodePng (someImage.file someChoices) kMaxDecodedPixels = .ok img ∧
        (ws.map fun p => (p.x, p.y)).Perm (places 5 3) ∧
        (∀ p ∈ ws, p.px = someImage.rgb p.x p.y) ∧ img.Sized 5 3 ∧
        ∀ x < 5, ∀ y < 3, img.pixel x y = someImage.rgb x y :=
  decodePng_undoes someImage_valid someChoices_for (by decide) (by decide)

end Png

end Llmx
