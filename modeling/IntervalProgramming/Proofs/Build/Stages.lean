import IntervalProgramming.Build.Pipeline
import IntervalProgramming.Proofs.Layout.Carving

/-!
# The layout of a build

The stages of a build before any fitting: the regular tiling, the regions tiled
anew, the points and the plateaus.  Each of them takes a partition of the
domain to a partition of the domain.  A point that became a box stays one, as a
later point is either clear of it or the same, and so does a plateau that is
clear of the earlier ones.
-/

namespace IntervalProgramming

variable {α : Type} [Scalar α]

theorem exists_of_bind_eq_ok {ε β γ : Type} {x : Except ε β} {f : β → Except ε γ}
    {c : γ} (h : x >>= f = .ok c) : ∃ b, x = .ok b ∧ f b = .ok c := by
  cases x with
  | error e => cases h
  | ok b => exact ⟨b, rfl, h⟩

/-- Whether some box of a map has these extents. -/
def PiecewiseMap.HasPiece (m : PiecewiseMap α) (extents : List Extent) : Prop :=
  ∃ b ∈ m.boxes, b.extents = extents

namespace BuildConfig

variable {cfg : BuildConfig α} {d : Domain α} {m m' : PiecewiseMap α}

theorem partitions_uniform? (h : cfg.uniform? d = .ok m) : m.Partitions d := by
  obtain ⟨unit, -, h⟩ := exists_of_bind_eq_ok h
  split at h
  · cases h
  · rename_i m' huniform
    obtain rfl := Except.ok.inj h
    obtain ⟨hdomain, hboxes⟩ := PiecewiseMap.partitionedBy_uniform? huniform
    exact ⟨hdomain, hboxes⟩

theorem partitions_prescribeCell? (hm : m.Partitions d)
    (h : cfg.prescribeCell? m = .ok m') : m'.Partitions d := by
  unfold prescribeCell? at h
  split at h
  · obtain rfl := Except.ok.inj h
    exact hm
  · split at h
    · cases h
    · obtain rfl := Except.ok.inj h
      exact ⟨hm.domain, hm.boxes⟩

theorem partitions_retile? {region unit : Box α} (hm : m.Partitions d)
    (h : m.retile? region unit = some m') : m'.Partitions d := by
  obtain ⟨rfl, hboxes⟩ := hm
  obtain ⟨hdomain, hboxes'⟩ := PiecewiseMap.partitionedBy_retile? hboxes h
  exact ⟨hdomain, hboxes'⟩

theorem partitions_retileRegions? {regions : List (FineRegion α)} {index : ℕ}
    (hm : m.Partitions d) (h : retileRegions? index regions m = .ok m') :
    m'.Partitions d := by
  induction regions generalizing index m with
  | nil =>
      obtain rfl := Except.ok.inj h
      exact hm
  | cons r regions ih =>
      unfold retileRegions? at h
      split at h
      · cases h
      · rename_i next hretile
        exact ih (partitions_retile? hm hretile) h

/-! ## Points -/

/-- A piece of a single tuple stays one when another tuple is made a piece. -/
theorem hasPiece_retile?_point {p q : Box α} (hp : p.isPoint = true)
    (hq : q.isPoint = true) (h : m.retile? q q = some m')
    (hpiece : m.HasPiece p.extents) : m'.HasPiece p.extents := by
  obtain ⟨b, hb, hextents⟩ := hpiece
  -- A tuple that is not clear of the other one is the same, and is laid out anew.
  by_cases hmeet : b.intersects q = true
  · have hbpoint : b.isPoint = true := by
      rwa [Box.isPoint, hextents]
    have hwithin := Box.isWithin_of_intersects_point hbpoint hmeet
    rw [← hextents, Box.extents_eq_of_isWithin_point hq hwithin]
    exact PiecewiseMap.exists_mem_retile?_point hq h
  · rw [Bool.not_eq_true] at hmeet
    exact ⟨b, PiecewiseMap.mem_retile?_of_clear h hb hmeet, hextents⟩

/-- Isolating points keeps a partition, and the points and all pieces of a
single tuple are pieces afterwards. -/
theorem isolatePoints?_spec {points : List (Box α)} {index : ℕ}
    (hm : m.Partitions d) (h : isolatePoints? index points m = .ok m') :
    m'.Partitions d ∧ (∀ p ∈ points, p.isPoint = true) ∧
      ∀ p : Box α, p.isPoint = true → m.HasPiece p.extents ∨ p ∈ points →
        m'.HasPiece p.extents := by
  induction points generalizing index m with
  | nil =>
      obtain rfl := Except.ok.inj h
      refine ⟨hm, by simp, ?_⟩
      rintro p - (hpiece | hp)
      · exact hpiece
      · cases hp
  | cons q points ih =>
      unfold isolatePoints? at h
      split at h
      · rename_i hq
        split at h
        · cases h
        · rename_i next hretile
          obtain ⟨hpart, hpoints, hpieces⟩ := ih (partitions_retile? hm hretile) h
          refine ⟨hpart, List.forall_mem_cons.mpr ⟨hq, hpoints⟩, ?_⟩
          rintro p hp (hpiece | hmem)
          · exact hpieces p hp (Or.inl (hasPiece_retile?_point hp hq hretile hpiece))
          · rcases List.mem_cons.mp hmem with rfl | hmem
            · exact hpieces p hp
                (Or.inl (PiecewiseMap.exists_mem_retile?_point hq hretile))
            · exact hpieces p hp (Or.inr hmem)
      · cases h

/-! ## The whole layout -/

/-- A layout of a build with its first pinned position: a partition of the
domain in which every box is clear of all plateaus or lies in one, the plateaus
clear of earlier ones are pinned boxes, and the points clear of all plateaus
are boxes. -/
structure LaidOut (cfg : BuildConfig α) (d : Domain α) (layout : PiecewiseMap α)
    (first : ℕ) : Prop where
  partitions : layout.Partitions d
  clear : ∀ b ∈ layout.boxes, (∀ p ∈ cfg.plateaus, b.intersects p = false) ∨
    ∃ p ∈ cfg.plateaus, b.isWithin p = true
  plateau : ∀ before p after, cfg.plateaus = before ++ p :: after →
    (∀ q ∈ before, p.intersects q = false) →
    ∃ ix, first ≤ ix ∧ layout.boxes[ix]? = some p
  point : ∀ p ∈ cfg.points, (∀ q ∈ cfg.plateaus, p.intersects q = false) →
    p.isPoint = true ∧ layout.HasPiece p.extents

/-- Without plateaus the layout stays as it is. -/
theorem raisePlateaus?_eq_ok {first : ℕ}
    (h : cfg.raisePlateaus? m = .ok (m', first)) :
    (cfg.plateaus = [] ∧ m' = m) ∨
      m.insertPlateaus? cfg.plateaus = some (m', first) := by
  unfold raisePlateaus? at h
  split at h
  · cases h
  · split at h
    · cases h
    · split at h
      · rename_i hnone
        simp only [Except.ok.injEq, Prod.mk.injEq] at h
        exact Or.inl ⟨List.isEmpty_iff.mp hnone, h.1.symm⟩
      · split at h
        · cases h
        · rename_i result hinsert
          obtain rfl := Except.ok.inj h
          exact Or.inr hinsert

theorem laidOut_raisePlateaus? {first : ℕ} (hm : m.Partitions d)
    (hpoints : ∀ p ∈ cfg.points, p.isPoint = true ∧ m.HasPiece p.extents)
    (h : cfg.raisePlateaus? m = .ok (m', first)) : cfg.LaidOut d m' first := by
  obtain ⟨rfl, hboxes⟩ := hm
  rcases raisePlateaus?_eq_ok h with ⟨hnone, rfl⟩ | hinsert
  · refine ⟨⟨rfl, hboxes⟩, ?_, ?_, fun p hp _ => hpoints p hp⟩
    · intro b _
      simp [hnone]
    · intro before p after hsplit
      simp [hnone] at hsplit
  · obtain ⟨hdomain, hboxes'⟩ :=
      PiecewiseMap.partitionedBy_insertPlateaus? hboxes hinsert
    refine ⟨⟨hdomain, hboxes'⟩, ?_, ?_, ?_⟩
    · intro b hb
      have hfull : ∀ c ∈ m.boxes, c.dimensions = List.range m.domain.size :=
        fun c hc => hboxes.full c (Array.mem_toList_iff.mpr hc)
      have hcases := PiecewiseMap.isWithin_or_clear_insertPlateaus? hfull hinsert hb
      apply hcases.imp_left
      intro hclear p hp
      exact Box.intersects_eq_false (hclear p hp)
    · intro before p after hsplit hclear
      rw [hsplit] at hinsert
      exact PiecewiseMap.exists_getElem?_insertPlateaus? hinsert hclear
    · intro p hp hclear
      obtain ⟨hpoint, b, hb, hextents⟩ := hpoints p hp
      refine ⟨hpoint, b, ?_, hextents⟩
      apply PiecewiseMap.mem_insertPlateaus?_of_clear hinsert hb
      intro q hq
      rw [Box.intersects_of_extents_eq hextents, hclear q hq]

theorem laidOut_layout? {layout : PiecewiseMap α} {first : ℕ}
    (h : cfg.layout? d = .ok (layout, first)) : cfg.LaidOut d layout first := by
  unfold layout? at h
  split at h
  · cases h
  · obtain ⟨m₁, hm₁, h⟩ := exists_of_bind_eq_ok h
    obtain ⟨m₂, hm₂, h⟩ := exists_of_bind_eq_ok h
    obtain ⟨m₃, hm₃, h⟩ := exists_of_bind_eq_ok h
    obtain ⟨m₄, hm₄, h⟩ := exists_of_bind_eq_ok h
    have huniform := partitions_uniform? hm₁
    have hcell := partitions_prescribeCell? huniform hm₂
    have hregions := partitions_retileRegions? hcell hm₃
    obtain ⟨hpart, hpoints, hpieces⟩ := isolatePoints?_spec hregions hm₄
    refine laidOut_raisePlateaus? hpart ?_ h
    intro p hp
    exact ⟨hpoints p hp, hpieces p (hpoints p hp) (Or.inr hp)⟩

end BuildConfig

end IntervalProgramming
