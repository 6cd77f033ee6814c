import IntervalProgramming.Proofs.Build.Faults
import IntervalProgramming.Proofs.Build.Stages
import IntervalProgramming.Proofs.Layout.Partition
import IntervalProgramming.Proofs.Refine.Words

/-!
# Accepted configurations

A build checks some of its configuration before it starts and finds the rest at
fault when a stage gives no result on the layout made so far.  No such result
depends on that layout, only on the domain and the configuration.  So a layout
succeeds exactly if the configuration is valid, and otherwise reports the first
of its faults, in the order of the stages and of the entries within a stage.
After the layout a build in words can only fail in a fit, for its number of check
samples.
-/

namespace IntervalProgramming

variable {α : Type} [Scalar α]

open BuildError

/-! ## Units -/

/-- The indices from 0 on, as many as a width; one for a width of zero. -/
def Interval.ofWidth (w : ℕ) : Interval :=
  { lo := 0, hi := w - 1, le := Nat.zero_le _ }

namespace Box

/-- Widths always make a box, one extent from index 0 on for each of them. -/
theorem ofWidths?_eq_some (widths : List ℕ) :
    ofWidths? widths =
      some (ofIntervals (widths.map Interval.ofWidth) : Box α) := by
  have hdim := dimensions_ofIntervals (α := α) (widths.map Interval.ofWidth)
  have hbounds : widths.mapIdx (fun dim w => (dim, 0, w - 1)) =
      (ofIntervals (widths.map Interval.ofWidth) : Box α).extents.map
        fun e => (e.dim, e.lo, e.hi) := by
    apply List.ext_getElem
    · simp [ofIntervals, flat]
    · intro k h₁ h₂
      simp [ofIntervals, flat, Interval.ofWidth]
  rw [ofWidths?, hbounds, ofBounds?_bounds, ofExtents?,
    if_pos (increasing_of_dimensions hdim)]
  rfl

end Box

/-! ## The stages -/

namespace BuildConfig

variable {cfg : BuildConfig α} {d : Domain α} {m : PiecewiseMap α} {e : BuildError}

theorem fault_unit_iff {widths : List ℕ} (hwidths : cfg.unit = .widths widths) :
    cfg.Fault d e ∧ e.stage = 1 ↔
      ∃ fault : WidthFault, fault.FoundIn d.size widths ∧ e = .badUnit (.widths fault) := by
  constructor
  · rintro ⟨hfault, hstage⟩
    cases hfault <;> simp only [stage, reduceCtorEq, Nat.reduceEqDiff] at hstage
    case unit fault hw hfault =>
      obtain rfl := UnitSpec.widths.inj (hwidths.symm.trans hw)
      exact ⟨fault, hfault, rfl⟩
  · rintro ⟨fault, hfault, rfl⟩
    exact ⟨.unit hwidths hfault, rfl⟩

theorem fault_gridCell_iff {widths : List ℕ} (hwidths : cfg.gridCell = some widths) :
    cfg.Fault d e ∧ e.stage = 2 ↔
      ∃ fault : WidthFault, fault.FoundIn d.size widths ∧ e = .badGridCell fault := by
  constructor
  · rintro ⟨hfault, hstage⟩
    cases hfault <;> simp only [stage, reduceCtorEq, Nat.reduceEqDiff] at hstage
    case gridCell fault hw hfault =>
      obtain rfl := Option.some.inj (hwidths.symm.trans hw)
      exact ⟨fault, hfault, rfl⟩
  · rintro ⟨fault, hfault, rfl⟩
    exact ⟨.gridCell hwidths hfault, rfl⟩

theorem fault_region_iff :
    cfg.Fault d e ∧ e.stage = 3 ↔ FaultAt .badRegion (¬ ·.Fits d) 0 cfg.regions e := by
  constructor
  · rintro ⟨hfault, hstage⟩
    cases hfault <;> simp only [stage, reduceCtorEq, Nat.reduceEqDiff] at hstage
    case region index r hr h => exact ⟨index, r, hr, h, by rw [Nat.zero_add]⟩
  · rintro ⟨index, r, hr, h, rfl⟩
    rw [Nat.zero_add]
    exact ⟨.region hr h, rfl⟩

theorem fault_point_iff :
    cfg.Fault d e ∧ e.stage = 4 ↔
      FaultAt .badPoint (fun p => ¬ (p.isPoint = true ∧ d.HasBox p)) 0 cfg.points e := by
  constructor
  · rintro ⟨hfault, hstage⟩
    cases hfault <;> simp only [stage, reduceCtorEq, Nat.reduceEqDiff] at hstage
    case point index p hp h => exact ⟨index, p, hp, h, by rw [Nat.zero_add]⟩
  · rintro ⟨index, p, hp, h, rfl⟩
    rw [Nat.zero_add]
    exact ⟨.point hp h, rfl⟩

theorem fault_plateau_iff :
    cfg.Fault d e ∧ 5 ≤ e.stage ↔
      FaultAt .badPlateau (¬ d.HasBox ·) 0 cfg.plateaus e := by
  constructor
  · rintro ⟨hfault, hstage⟩
    cases hfault <;> simp only [stage, Nat.reduceLeDiff] at hstage
    case plateau index p hp h => exact ⟨index, p, hp, h, by rw [Nat.zero_add]⟩
  · rintro ⟨index, p, hp, h, rfl⟩
    rw [Nat.zero_add]
    exact ⟨.plateau hp h, Nat.le_refl _⟩

/-- The unit box fails for the fault of its widths only. -/
theorem reports_unitBox? (hd : d.isEmpty = false) :
    Reports (fun e => cfg.Fault d e ∧ e.stage = 1)
      (fun unit => unit.dimensions = List.range d.size) (cfg.unitBox? d) := by
  have hdim : ∀ widths : List ℕ, widths.length = d.size →
      (Box.ofIntervals (widths.map Interval.ofWidth) : Box α).dimensions =
        List.range d.size := by
    intro widths hlen
    rw [Box.dimensions_ofIntervals, List.length_map, hlen]
  unfold unitBox?
  cases hunit : cfg.unit with
  | amount n =>
      have hlen : (d.evenCell (max n 1)).length = d.size := List.length_map _
      simp only [Box.unitForAmount?, hd, Bool.false_eq_true, if_false,
        Box.ofWidths?_eq_some]
      refine .ok (hdim _ hlen) ?_
      rintro _ ⟨hfault, hstage⟩
      cases hfault <;> simp only [stage, reduceCtorEq, Nat.reduceEqDiff] at hstage
      case unit hw _ =>
        rw [hunit] at hw
        cases hw
  | widths widths =>
      simp only [Box.ofWidths?_eq_some]
      refine Reports.congr ?_ fun e => fault_unit_iff hunit
      exact .widths (hdim widths)

theorem reports_uniform? (hd : d.isEmpty = false) :
    Reports (fun e => cfg.Fault d e ∧ e.stage = 1) (·.domain = d) (cfg.uniform? d) := by
  refine (reports_unitBox? hd).bind_ok fun unit hunit => ?_
  obtain ⟨m, hm⟩ := PiecewiseMap.exists_uniform? hd hunit cfg.degree
  refine ⟨m, ?_, (PiecewiseMap.partitionedBy_uniform? hm).1⟩
  rw [hm]

theorem reports_prescribeCell? (hm : m.domain = d) :
    Reports (fun e => cfg.Fault d e ∧ e.stage = 2) (·.domain = d)
      (cfg.prescribeCell? m) := by
  unfold prescribeCell?
  cases hcell : cfg.gridCell with
  | none =>
      refine .ok hm ?_
      rintro _ ⟨hfault, hstage⟩
      cases hfault <;> simp only [stage, reduceCtorEq, Nat.reduceEqDiff] at hstage
      case gridCell hw _ =>
        rw [hcell] at hw
        cases hw
  | some cell =>
      subst hm
      refine Reports.congr ?_ fun e => fault_gridCell_iff hcell
      exact .widths fun _ => rfl

/-- Whether a region can be laid out anew depends on the domain only, so the
first region at fault is the first that fails. -/
theorem reports_retileRegions? {regions : List (FineRegion α)} {index : ℕ}
    (hd : d.isEmpty = false) (hm : m.domain = d) :
    Reports (FaultAt .badRegion (¬ ·.Fits d) index regions) (·.domain = d)
      (retileRegions? index regions m) := by
  induction regions generalizing index m with
  | nil => exact .nil hm
  | cons r regions ih =>
      subst hm
      have hiff := PiecewiseMap.exists_retile?_iff hd r.region r.unit
      unfold retileRegions?
      cases hretile : m.retile? r.region r.unit with
      | none =>
          refine .head (fun i j hij => Or.inr ⟨rfl, hij⟩) ?_
          rintro ⟨hregion, hunit⟩
          obtain ⟨next, hnext⟩ := hiff.mpr ⟨hregion, hunit⟩
          rw [hretile] at hnext
          cases hnext
      | some next =>
          obtain ⟨hregion, hunit⟩ := hiff.mp ⟨next, hretile⟩
          refine .tail (not_not_intro ⟨hregion, hunit⟩) ?_
          exact ih (PiecewiseMap.domain_retile? hretile)

theorem reports_isolatePoints? {points : List (Box α)} {index : ℕ}
    (hd : d.isEmpty = false) (hm : m.domain = d) :
    Reports (FaultAt .badPoint (fun p => ¬ (p.isPoint = true ∧ d.HasBox p)) index points)
      (·.domain = d) (isolatePoints? index points m) := by
  induction points generalizing index m with
  | nil => exact .nil hm
  | cons p points ih =>
      subst hm
      -- No box is wider than itself.
      have hself : List.Forall₂ (fun u e : Extent => u.span ≤ e.span)
          p.extents p.extents := List.forall₂_same.mpr fun e _ => Nat.le_refl _
      have hiff := PiecewiseMap.exists_retile?_iff hd p p
      unfold isolatePoints?
      split
      · rename_i hpoint
        cases hretile : m.retile? p p with
        | none =>
            refine .head (fun i j hij => Or.inr ⟨rfl, hij⟩) ?_
            rintro ⟨-, hbox⟩
            obtain ⟨next, hnext⟩ := hiff.mpr ⟨hbox, hself⟩
            rw [hretile] at hnext
            cases hnext
        | some next =>
            refine .tail (not_not_intro ⟨hpoint, (hiff.mp ⟨next, hretile⟩).1⟩) ?_
            exact ih (PiecewiseMap.domain_retile? hretile)
      · rename_i hpoint
        exact .head (fun i j hij => Or.inr ⟨rfl, hij⟩) fun hp => hpoint hp.1

/-- Plateaus that pass the check can be set aside. -/
theorem reports_raisePlateaus? (hd : d.isEmpty = false) (hm : m.domain = d) :
    Reports (FaultAt .badPlateau (¬ d.HasBox ·) 0 cfg.plateaus) (fun _ => True)
      (cfg.raisePlateaus? m) := by
  subst hm
  obtain ⟨whole, hwhole⟩ := Box.exists_universe? hd
  have hbad : ∀ p : Box α, (!p.isWithin whole) = true ↔ ¬ m.domain.HasBox p := by
    intro p
    rw [← Box.isWithin_universe_iff hwhole, Bool.not_eq_true', Bool.not_eq_true]
  simp only [raisePlateaus?, PiecewiseMap.universe?, hwhole]
  cases hfind : cfg.plateaus.findIdx? fun p => !p.isWithin whole with
  | some index =>
      obtain ⟨hlt, hindex, hbefore⟩ := List.findIdx?_eq_some_iff_getElem.mp hfind
      refine .error ⟨⟨index, _, List.getElem?_eq_getElem hlt, (hbad _).mp hindex,
        by rw [Nat.zero_add]⟩, ?_⟩
      rintro _ ⟨k, p, hp, hpbad, rfl⟩
      refine Or.inr ⟨rfl, ?_⟩
      by_contra hlater
      obtain ⟨hk, rfl⟩ := List.getElem?_eq_some_iff.mp hp
      exact hbefore k (by simp only [entry] at hlater; omega) ((hbad _).mpr hpbad)
  | none =>
      have hall : ∀ p ∈ cfg.plateaus, m.domain.HasBox p := by
        intro p hp
        by_contra hpbad
        have hgood := List.findIdx?_eq_none_iff.mp hfind p hp
        rw [(hbad p).mpr hpbad] at hgood
        cases hgood
      have hnone : ∀ e, ¬ FaultAt .badPlateau (¬ m.domain.HasBox ·) 0 cfg.plateaus e := by
        rintro _ ⟨k, p, hp, hpbad, -⟩
        exact hpbad (hall p (List.mem_of_getElem? hp))
      obtain ⟨result, hresult⟩ := PiecewiseMap.exists_insertPlateaus? hd hall
      simp only [hresult]
      split
      · exact .ok trivial hnone
      · exact .ok trivial hnone

/-! ## The layout -/

/-- A layout reports the first fault of the configuration. -/
theorem reports_layout? : Reports (cfg.Fault d) (fun _ => True) (cfg.layout? d) := by
  unfold layout?
  split
  · rename_i hd
    refine .error ⟨.domain (List.isEmpty_iff.mp hd), fun e _ => ?_⟩
    simp only [NotAfter, stage, entry]
    omega
  · rename_i hd
    rw [Bool.not_eq_true] at hd
    have hlater : ∀ e, cfg.Fault d e ↔ cfg.Fault d e ∧ 1 ≤ e.stage := by
      intro e
      refine (and_iff_left_of_imp fun hfault => ?_).symm
      cases hfault with
      | domain hnil => simp [Domain.isEmpty, hnil] at hd
      | _ => simp [stage]
    refine Reports.congr ?_ hlater
    refine (reports_uniform? hd).bind fun m₁ hm₁ => ?_
    refine (reports_prescribeCell? hm₁).bind fun m₂ hm₂ => ?_
    refine ((reports_retileRegions? hd hm₂).congr fun e => fault_region_iff).bind
      fun m₃ hm₃ => ?_
    refine ((reports_isolatePoints? hd hm₃).congr fun e => fault_point_iff).bind
      fun m₄ hm₄ => ?_
    exact (reports_raisePlateaus? hd hm₄).congr fun e => fault_plateau_iff

/-! ## The build -/

variable {solver : LinearSolver α} {o : Objective α} {layout : PiecewiseMap α} {first : ℕ}

theorem inWords_forObjective (hword : cfg.samples < 2 ^ 63) :
    (Regressor.forObjective solver o cfg.degree cfg.samples).InWords :=
  ⟨Nat.le_max_right _ _, max_lt hword (by decide)⟩

theorem refineLayoutInWords?_eq (hword : cfg.samples < 2 ^ 63) (solver : LinearSolver α)
    (o : Objective α) (layout : PiecewiseMap α) (first : ℕ) :
    cfg.refineLayoutInWords? solver o layout first =
      some (cfg.refineLayout solver o layout first) := by
  have hr : (Regressor.forObjective solver o cfg.degree cfg.samples).InWords :=
    inWords_forObjective hword
  have hfitted := hr.of_fitsLike (Refinement.fitsLike_evaluatePinned layout _ first)
  simp only [refineLayoutInWords?, refineLayout, Refinement.evaluatePinnedInWords?_eq hr,
    Refinement.refineInWords?_eq hfitted, Option.bind_eq_bind, Option.bind_some, Option.pure_def]

/-- Over a domain that differs from itself nothing is fitted. -/
theorem refineLayoutInWords?_of_ne (hdomain : (o.domain == layout.domain) = false) :
    cfg.refineLayoutInWords? solver o layout first =
      some (cfg.refineLayout solver o layout first) := by
  simp [refineLayoutInWords?, refineLayout, Refinement.evaluatePinnedInWords?,
    Refinement.evaluatePinned, Refinement.refineInWords?, Refinement.refine,
    Regressor.forObjective, hdomain]

/-- A layout has a first box, and the box has an extent for each variable. -/
theorem exists_first_box (hd : d.vars ≠ []) (h : m.Partitions d) :
    ∃ b, m.boxes[0]? = some b ∧ b.extents ≠ [] := by
  have hsize : 0 < m.boxes.size := by
    rw [Array.size_pos_iff, ← Array.isEmpty_eq_false_iff]
    exact h.isEmpty_eq_false
  refine ⟨m.boxes[0], Array.getElem?_eq_getElem hsize, fun hnil => hd ?_⟩
  have hfull := h.boxes.full m.boxes[0] (Array.mem_toList_iff.mpr (Array.getElem_mem hsize))
  rw [Box.dimensions, hnil, List.map_nil] at hfull
  exact List.length_eq_zero_iff.mp (List.range_eq_nil.mp hfull.symm)

theorem refineLayoutInWords?_eq_none (hlimit : 2 ^ 63 ≤ cfg.samples)
    (hdomain : (o.domain == o.domain) = true) (hd : o.domain.vars ≠ [])
    (h : layout.Partitions o.domain) :
    cfg.refineLayoutInWords? solver o layout first = none := by
  obtain ⟨b, hb, hextents⟩ := exists_first_box hd h
  have hsamples : 2 ^ 63 ≤ (Regressor.forObjective solver o cfg.degree cfg.samples).samples :=
    hlimit.trans (Nat.le_max_left _ _)
  have hsame : (o.domain == layout.domain) = true := by rwa [h.domain]
  have hnone := Refinement.evaluatePinnedInWords?_eq_none hsamples hsame hb hextents first
  simp only [refineLayoutInWords?, hnone, Option.bind_eq_bind, Option.bind_none]

/-- Whether the fits of a build have results in words.  The number of check samples
has to be a count word, unless the domain differs from itself: then there is no fit. -/
def FitsInWords (cfg : BuildConfig α) (d : Domain α) : Prop :=
  cfg.samples < 2 ^ 63 ∨ (d == d) = false

theorem buildInWords?_of_error (h : cfg.layout? o.domain = .error e) :
    cfg.buildInWords? solver o = some (.error e) := by
  simp only [buildInWords?, h]

theorem buildInWords?_of_fits (h : cfg.layout? o.domain = .ok (layout, first))
    (hfits : cfg.FitsInWords o.domain) :
    cfg.buildInWords? solver o =
      some (.ok (cfg.finish (cfg.refineLayout solver o layout first))) := by
  have hrefined : cfg.refineLayoutInWords? solver o layout first =
      some (cfg.refineLayout solver o layout first) := by
    rcases hfits with hword | hdomain
    · exact refineLayoutInWords?_eq hword solver o layout first
    · exact refineLayoutInWords?_of_ne (by rwa [(laidOut_layout? h).partitions.domain])
  simp only [buildInWords?, h, hrefined, Option.bind_eq_bind, Option.bind_some, Option.pure_def]

theorem buildInWords?_of_not_fits (h : cfg.layout? o.domain = .ok (layout, first))
    (hfits : ¬ cfg.FitsInWords o.domain) : cfg.buildInWords? solver o = none := by
  have hvalid : cfg.Valid o.domain :=
    valid_iff.mpr (reports_layout?.exists_ok_iff.mp ⟨_, h⟩)
  obtain ⟨hlimit, hdomain⟩ := not_or.mp hfits
  have hrefined : cfg.refineLayoutInWords? solver o layout first = none :=
    refineLayoutInWords?_eq_none (Nat.not_lt.mp hlimit) ((Bool.not_eq_false _).mp hdomain)
      hvalid.domain (laidOut_layout? h).partitions
  simp only [buildInWords?, h, hrefined, Option.bind_eq_bind, Option.bind_none]

/-- What a build in words gives is what the build gives. -/
theorem build_eq_of_inWords {result : Except BuildError (PiecewiseMap α)}
    (h : cfg.buildInWords? solver o = some result) : cfg.build solver o = result := by
  simp only [build]
  cases hlayout : cfg.layout? o.domain with
  | error e => exact Option.some.inj ((buildInWords?_of_error hlayout).symm.trans h)
  | ok laidOut =>
      by_cases hfits : cfg.FitsInWords o.domain
      · exact Option.some.inj ((buildInWords?_of_fits hlayout hfits).symm.trans h)
      · cases (buildInWords?_of_not_fits hlayout hfits).symm.trans h

end BuildConfig

/-- A build gives a map exactly for the configurations that are valid for the
domain of the objective and whose fits have results in words, and no result if only
the latter fails.  If the configuration is not valid, the error is its first fault.
So a unit is refused for its widths only, and the plateau at position zero only if
it does not lie in the domain. -/
theorem build_accepts_iff (cfg : BuildConfig α) (solver : LinearSolver α)
    (o : Objective α) :
    ((∃ m, cfg.buildInWords? solver o = some (.ok m)) ↔
        cfg.Valid o.domain ∧ cfg.FitsInWords o.domain) ∧
      (cfg.buildInWords? solver o = none ↔
        cfg.Valid o.domain ∧ ¬ cfg.FitsInWords o.domain) ∧
      (∀ e, cfg.buildInWords? solver o = some (.error e) ↔
        IsFirst (cfg.Fault o.domain) e) ∧
      (∀ fault, cfg.buildInWords? solver o = some (.error (.badUnit fault)) →
        ∃ f, fault = .widths f) ∧
      (cfg.buildInWords? solver o = some (.error (.badPlateau 0)) →
        ∃ p, cfg.plateaus[0]? = some p ∧ ¬ o.domain.HasBox p) := by
  have hreports : Reports (cfg.Fault o.domain) (fun _ => True) (cfg.layout? o.domain) :=
    BuildConfig.reports_layout?
  have hvalid : cfg.Valid o.domain ↔ ∃ laidOut, cfg.layout? o.domain = .ok laidOut := by
    rw [BuildConfig.valid_iff]
    exact hreports.exists_ok_iff.symm
  have hfirst : ∀ e, cfg.layout? o.domain = .error e ↔ IsFirst (cfg.Fault o.domain) e :=
    hreports.eq_error_iff fun _ _ hfault hfault' => hfault.eq_of_place hfault'
  have herror : ∀ e, cfg.buildInWords? solver o = some (.error e) ↔
      IsFirst (cfg.Fault o.domain) e := by
    intro e
    rw [← hfirst]
    cases hlayout : cfg.layout? o.domain with
    | error e' => simp [BuildConfig.buildInWords?_of_error hlayout]
    | ok laidOut =>
        by_cases hfits : cfg.FitsInWords o.domain
        · simp [BuildConfig.buildInWords?_of_fits hlayout hfits]
        · simp [BuildConfig.buildInWords?_of_not_fits hlayout hfits]
  have hvalue : ((∃ m, cfg.buildInWords? solver o = some (.ok m)) ↔
        cfg.Valid o.domain ∧ cfg.FitsInWords o.domain) ∧
      (cfg.buildInWords? solver o = none ↔
        cfg.Valid o.domain ∧ ¬ cfg.FitsInWords o.domain) := by
    rw [hvalid]
    cases hlayout : cfg.layout? o.domain with
    | error e => simp [BuildConfig.buildInWords?_of_error hlayout]
    | ok laidOut =>
        by_cases hfits : cfg.FitsInWords o.domain
        · simp [BuildConfig.buildInWords?_of_fits hlayout hfits, hfits]
        · simp [BuildConfig.buildInWords?_of_not_fits hlayout hfits, hfits]
  refine ⟨hvalue.1, hvalue.2, herror, ?_, ?_⟩
  · intro fault h
    cases ((herror _).mp h).fault with
    | unit _ _ => exact ⟨_, rfl⟩
  · intro h
    cases ((herror _).mp h).fault with
    | plateau hp hbad => exact ⟨_, hp, hbad⟩

/-- The build of the switch in one piece, with so many samples. -/
def BuildConfig.onSwitch (samples : ℕ) : BuildConfig ℚ where
  unit := .widths [2]
  samples := samples

/-- With half the number of count words as the number of samples, a valid
configuration gives neither a map nor an error. -/
theorem buildInWords?_half_limit :
    (BuildConfig.onSwitch (2 ^ 63)).Valid Domain.switch ∧
      (BuildConfig.onSwitch (2 ^ 63)).buildInWords? leastSquares Objective.onSwitch =
        none := by
  have hvalid : (BuildConfig.onSwitch (2 ^ 63)).Valid Domain.switch := by
    refine ⟨List.cons_ne_nil _ _, ?_, nofun, nofun, nofun, nofun⟩
    rintro _ ⟨⟩
    decide
  obtain ⟨⟨layout, first⟩, hlayout⟩ :=
    BuildConfig.reports_layout?.exists_ok_iff.mpr (BuildConfig.valid_iff.mp hvalid)
  refine ⟨hvalid, BuildConfig.buildInWords?_of_not_fits (o := Objective.onSwitch) hlayout ?_⟩
  rintro (hword | hdomain)
  · exact absurd hword (by decide)
  · have hself : (Domain.switch == Domain.switch) = true := by decide +kernel
    exact absurd hself (ne_true_of_eq_false hdomain)

end IntervalProgramming
