import IntervalProgramming.Build.Config
import IntervalProgramming.Proofs.Layout.Tiling

/-!
# Faults of a configuration

A configuration fits a domain or has faults.  A fault belongs to a stage of a
build and names an entry, which tells the faults of a configuration apart and
orders them.  A stage reports its first fault, and stages run one after the
other report the first fault of all.
-/

namespace IntervalProgramming

variable {α : Type} [Scalar α]

/-! ## Valid configurations and faults -/

/-- A region that lies in a domain with all its dimensions, and a unit with as
many extents of which none is wider. -/
structure FineRegion.Fits (d : Domain α) (r : FineRegion α) : Prop where
  region : d.HasBox r.region
  unit : List.Forall₂ (fun u e : Extent => u.span ≤ e.span)
    r.unit.extents r.region.extents

/-- The fault of widths for so many variables: they are not as many, or
otherwise one of them is zero. -/
inductive WidthFault.FoundIn (vars : ℕ) (widths : List ℕ) : WidthFault → Prop
  | count (h : widths.length ≠ vars) : FoundIn vars widths (.count widths.length vars)
  | zeroWidth (hlen : widths.length = vars) (h : 0 ∈ widths) :
      FoundIn vars widths .zeroWidth

namespace BuildConfig

/-- A configuration that fits a domain. -/
structure Valid (cfg : BuildConfig α) (d : Domain α) : Prop where
  domain : d.vars ≠ []
  unit : ∀ widths, cfg.unit = .widths widths → widths.length = d.size ∧ 0 ∉ widths
  gridCell : ∀ widths, cfg.gridCell = some widths →
    widths.length = d.size ∧ 0 ∉ widths
  region : ∀ r ∈ cfg.regions, r.Fits d
  point : ∀ p ∈ cfg.points, p.isPoint = true ∧ d.HasBox p
  plateau : ∀ p ∈ cfg.plateaus, d.HasBox p

/-- What is wrong with a configuration for a domain. -/
inductive Fault (cfg : BuildConfig α) (d : Domain α) : BuildError → Prop
  | domain (h : d.vars = []) : Fault cfg d .emptyDomain
  | unit {widths : List ℕ} {fault : WidthFault} (hwidths : cfg.unit = .widths widths)
      (h : fault.FoundIn d.size widths) : Fault cfg d (.badUnit (.widths fault))
  | gridCell {widths : List ℕ} {fault : WidthFault}
      (hwidths : cfg.gridCell = some widths) (h : fault.FoundIn d.size widths) :
      Fault cfg d (.badGridCell fault)
  | region {index : ℕ} {r : FineRegion α} (hr : cfg.regions[index]? = some r)
      (h : ¬ r.Fits d) : Fault cfg d (.badRegion index)
  | point {index : ℕ} {p : Box α} (hp : cfg.points[index]? = some p)
      (h : ¬ (p.isPoint = true ∧ d.HasBox p)) : Fault cfg d (.badPoint index)
  | plateau {index : ℕ} {p : Box α} (hp : cfg.plateaus[index]? = some p)
      (h : ¬ d.HasBox p) : Fault cfg d (.badPlateau index)

end BuildConfig

namespace BuildError

/-- The stage of a build that an error belongs to. -/
def stage : BuildError → ℕ
  | .emptyDomain => 0
  | .badUnit _ => 1
  | .badGridCell _ => 2
  | .badRegion _ => 3
  | .badPoint _ => 4
  | .badPlateau _ => 5

/-- The entry that an error names, zero if it names none. -/
def entry : BuildError → ℕ
  | .badRegion index => index
  | .badPoint index => index
  | .badPlateau index => index
  | _ => 0

/-- Whether an error comes no later than another one: it belongs to an earlier
stage, or to the same stage and no later entry. -/
def NotAfter (e e' : BuildError) : Prop :=
  e.stage < e'.stage ∨ e.stage = e'.stage ∧ e.entry ≤ e'.entry

/-- The first of some faults. -/
structure IsFirst (faults : BuildError → Prop) (e : BuildError) : Prop where
  fault : faults e
  first : ∀ e', faults e' → e.NotAfter e'

end BuildError

open BuildError

theorem WidthFault.find?_eq_some_iff {vars : ℕ} {widths : List ℕ} {fault : WidthFault} :
    find? vars widths = some fault ↔ fault.FoundIn vars widths := by
  unfold find?
  constructor
  · intro h
    split at h
    · rename_i hlen
      obtain rfl := Option.some.inj h
      exact .count (by simpa using hlen)
    · rename_i hlen
      split at h
      · rename_i hzero
        obtain rfl := Option.some.inj h
        exact .zeroWidth (by simpa using hlen) (by simpa using hzero)
      · cases h
  · rintro (hlen | ⟨hlen, hzero⟩)
    · rw [if_pos (by simpa using hlen)]
    · rw [if_neg (by simpa using hlen), if_pos (by simpa using hzero)]

/-- Widths have at most one fault. -/
theorem WidthFault.FoundIn.unique {vars : ℕ} {widths : List ℕ} {fault fault' : WidthFault}
    (h : fault.FoundIn vars widths) (h' : fault'.FoundIn vars widths) : fault = fault' := by
  rw [← find?_eq_some_iff] at h h'
  exact Option.some.inj (h.symm.trans h')

theorem WidthFault.find?_eq_none_iff {vars : ℕ} {widths : List ℕ} :
    find? vars widths = none ↔ widths.length = vars ∧ 0 ∉ widths := by
  unfold find?
  split
  · rename_i hlen
    simp only [bne_iff_ne, ne_eq] at hlen
    simp [hlen]
  · rename_i hlen
    simp only [bne_iff_ne, ne_eq, not_not] at hlen
    simp [hlen]

/-- Widths have no fault exactly if they are as many as the variables and none
of them is zero. -/
theorem WidthFault.forall_not_foundIn_iff {vars : ℕ} {widths : List ℕ} :
    (∀ fault : WidthFault, ¬ fault.FoundIn vars widths) ↔
      widths.length = vars ∧ 0 ∉ widths := by
  rw [← find?_eq_none_iff, Option.eq_none_iff_forall_ne_some]
  simp only [ne_eq, find?_eq_some_iff]

namespace BuildConfig

variable {cfg : BuildConfig α} {d : Domain α}

/-- A configuration is valid exactly if it has no fault. -/
theorem valid_iff : cfg.Valid d ↔ ∀ e, ¬ cfg.Fault d e := by
  constructor
  · intro hvalid e hfault
    cases hfault with
    | domain h => exact hvalid.domain h
    | unit hw h => exact WidthFault.forall_not_foundIn_iff.mpr (hvalid.unit _ hw) _ h
    | gridCell hw h =>
        exact WidthFault.forall_not_foundIn_iff.mpr (hvalid.gridCell _ hw) _ h
    | region hr h => exact h (hvalid.region _ (List.mem_of_getElem? hr))
    | point hp h => exact h (hvalid.point _ (List.mem_of_getElem? hp))
    | plateau hp h => exact h (hvalid.plateau _ (List.mem_of_getElem? hp))
  · intro h
    have hentries : ∀ {β : Type} {xs : List β} {good : β → Prop},
        (∀ {k : ℕ} {x}, xs[k]? = some x → ¬ ¬ good x) → ∀ x ∈ xs, good x := by
      intro β xs good hall x hx
      obtain ⟨k, hk⟩ := List.mem_iff_getElem?.mp hx
      exact not_not.mp (hall hk)
    exact
      { domain := fun hnil => h _ (.domain hnil)
        unit := fun _ hw => WidthFault.forall_not_foundIn_iff.mp
          fun _ hfault => h _ (.unit hw hfault)
        gridCell := fun _ hw => WidthFault.forall_not_foundIn_iff.mp
          fun _ hfault => h _ (.gridCell hw hfault)
        region := hentries fun hr hbad => h _ (.region hr hbad)
        point := hentries fun hp hbad => h _ (.point hp hbad)
        plateau := hentries fun hp hbad => h _ (.plateau hp hbad) }

/-- Stage and entry tell the faults of a configuration apart. -/
theorem Fault.eq_of_place {e e' : BuildError} (h : cfg.Fault d e)
    (h' : cfg.Fault d e') (hstage : e.stage = e'.stage) (hentry : e.entry = e'.entry) :
    e = e' := by
  cases h <;> cases h' <;> simp only [stage, reduceCtorEq, Nat.reduceEqDiff] at hstage
  case domain.domain => rfl
  case unit.unit hw hf _ _ hw' hf' =>
    obtain rfl := UnitSpec.widths.inj (hw.symm.trans hw')
    rw [hf.unique hf']
  case gridCell.gridCell hw hf _ _ hw' hf' =>
    obtain rfl := Option.some.inj (hw.symm.trans hw')
    rw [hf.unique hf']
  case region.region => exact congrArg badRegion hentry
  case point.point => exact congrArg badPoint hentry
  case plateau.plateau => exact congrArg badPlateau hentry

end BuildConfig

/-! ## Reported faults -/

namespace BuildError

variable {β γ : Type} {faults : BuildError → Prop} {P : β → Prop} {Q : γ → Prop}

/-- A result that reports the first of some faults, and is a value with a
property if there is none. -/
inductive Reports (faults : BuildError → Prop) (P : β → Prop) :
    Except BuildError β → Prop
  | ok {b : β} (hb : P b) (h : ∀ e, ¬ faults e) : Reports faults P (.ok b)
  | error {e : BuildError} (h : IsFirst faults e) : Reports faults P (.error e)

theorem Reports.congr {faults' : BuildError → Prop} {x : Except BuildError β}
    (hx : Reports faults P x) (h : ∀ e, faults' e ↔ faults e) : Reports faults' P x := by
  obtain rfl : faults' = faults := funext fun e => propext (h e)
  exact hx

/-- Faults of later stages count only if there is none of this stage. -/
theorem Reports.bind {k : ℕ} {x : Except BuildError β} {f : β → Except BuildError γ}
    (hx : Reports (fun e => faults e ∧ e.stage = k) P x)
    (hf : ∀ b, P b → Reports (fun e => faults e ∧ k + 1 ≤ e.stage) Q (f b)) :
    Reports (fun e => faults e ∧ k ≤ e.stage) Q (x >>= f) := by
  cases hx with
  | ok hb h =>
      refine (hf _ hb).congr fun e => and_congr_right fun he => ?_
      have hne : e.stage ≠ k := fun hk => h e ⟨he, hk⟩
      omega
  | error h =>
      obtain ⟨⟨he, hstage⟩, hfirst⟩ := h
      refine .error ⟨⟨he, hstage.ge⟩, ?_⟩
      rintro e' ⟨he', hk⟩
      rcases hk.lt_or_eq with hlt | heq
      · exact Or.inl (by omega)
      · exact hfirst e' ⟨he', heq.symm⟩

/-- A step that cannot fail reports what its argument does. -/
theorem Reports.bind_ok {x : Except BuildError β} {f : β → Except BuildError γ}
    (hx : Reports faults P x) (hf : ∀ b, P b → ∃ c, f b = .ok c ∧ Q c) :
    Reports faults Q (x >>= f) := by
  cases hx with
  | ok hb h =>
      obtain ⟨c, hc, hQ⟩ := hf _ hb
      change Reports faults Q (f _)
      rw [hc]
      exact .ok hQ h
  | error h => exact .error h

/-- A result is a value exactly if there is no fault. -/
theorem Reports.exists_ok_iff {x : Except BuildError β} (hx : Reports faults P x) :
    (∃ b, x = .ok b) ↔ ∀ e, ¬ faults e := by
  cases hx with
  | ok hb h => exact ⟨fun _ => h, fun _ => ⟨_, rfl⟩⟩
  | error h =>
      constructor
      · rintro ⟨b, hb⟩
        cases hb
      · intro hnone
        exact absurd h.fault (hnone _)

/-- A result is an error exactly if the error is the first fault, provided that
faults differ in their place. -/
theorem Reports.eq_error_iff {x : Except BuildError β} (hx : Reports faults P x)
    (hplace : ∀ e e', faults e → faults e' → e.stage = e'.stage →
      e.entry = e'.entry → e = e') (e : BuildError) :
    x = .error e ↔ IsFirst faults e := by
  cases hx with
  | ok hb h =>
      constructor
      · intro hx
        cases hx
      · intro hfirst
        exact absurd hfirst.fault (h e)
  | @error e₀ h =>
      constructor
      · intro hx
        obtain rfl := Except.error.inj hx
        exact h
      · intro hfirst
        have hle := h.first e hfirst.fault
        have hge := hfirst.first e₀ h.fault
        unfold NotAfter at hle hge
        rw [hplace e₀ e h.fault hfirst.fault (by omega) (by omega)]

/-- Widths are reported for their fault, if they have one. -/
theorem Reports.widths {error : WidthFault → BuildError} {vars : ℕ}
    {widths : List ℕ} {b : β} (hb : widths.length = vars → P b) :
    Reports (fun e => ∃ fault : WidthFault, fault.FoundIn vars widths ∧ e = error fault) P
      (match WidthFault.find? vars widths with
        | some fault => .error (error fault)
        | none => .ok b) := by
  cases hfind : WidthFault.find? vars widths with
  | some fault =>
      rw [WidthFault.find?_eq_some_iff] at hfind
      refine .error ⟨⟨fault, hfind, rfl⟩, ?_⟩
      rintro _ ⟨fault', hfault', rfl⟩
      rw [hfind.unique hfault']
      exact Or.inr ⟨rfl, Nat.le_refl _⟩
  | none =>
      have hgood := WidthFault.find?_eq_none_iff.mp hfind
      refine .ok (hb hgood.1) ?_
      rintro _ ⟨fault, hfault, -⟩
      exact WidthFault.forall_not_foundIn_iff.mpr hgood fault hfault

/-- The faults of the entries of a list that fail a test, counted from `start`
on. -/
def FaultAt (error : ℕ → BuildError) (bad : β → Prop) (start : ℕ) (xs : List β)
    (e : BuildError) : Prop :=
  ∃ k x, xs[k]? = some x ∧ bad x ∧ e = error (start + k)

theorem faultAt_cons {error : ℕ → BuildError} {bad : β → Prop} {start : ℕ} {x : β}
    {xs : List β} {e : BuildError} :
    FaultAt error bad start (x :: xs) e ↔
      bad x ∧ e = error start ∨ FaultAt error bad (start + 1) xs e := by
  constructor
  · rintro ⟨_ | k, y, hy, hbad, rfl⟩
    · obtain rfl := Option.some.inj hy
      exact Or.inl ⟨hbad, rfl⟩
    · refine Or.inr ⟨k, y, hy, hbad, ?_⟩
      rw [Nat.add_right_comm, Nat.add_assoc]
  · rintro (⟨hbad, rfl⟩ | ⟨k, y, hy, hbad, rfl⟩)
    · exact ⟨0, x, rfl, hbad, rfl⟩
    · refine ⟨k + 1, y, hy, hbad, ?_⟩
      rw [Nat.add_right_comm, Nat.add_assoc]

/-- A list without entries has no faults. -/
theorem Reports.nil {error : ℕ → BuildError} {bad : γ → Prop} {start : ℕ} {b : β}
    (hb : P b) : Reports (FaultAt error bad start []) P (.ok b) := by
  refine .ok hb ?_
  rintro e ⟨k, x, hx, -⟩
  cases hx

/-- If the first entry fails, its fault is reported. -/
theorem Reports.head {error : ℕ → BuildError} {bad : γ → Prop} {start : ℕ} {x : γ}
    {xs : List γ} (herror : ∀ i j, i ≤ j → (error i).NotAfter (error j)) (hx : bad x) :
    Reports (FaultAt error bad start (x :: xs)) P (.error (error start)) := by
  refine .error ⟨faultAt_cons.mpr (Or.inl ⟨hx, rfl⟩), ?_⟩
  rintro _ ⟨k, y, -, -, rfl⟩
  exact herror _ _ (Nat.le_add_right start k)

/-- If the first entry passes, the faults are those of the others. -/
theorem Reports.tail {error : ℕ → BuildError} {bad : γ → Prop} {start : ℕ} {x : γ}
    {xs : List γ} {result : Except BuildError β} (hx : ¬ bad x)
    (h : Reports (FaultAt error bad (start + 1) xs) P result) :
    Reports (FaultAt error bad start (x :: xs)) P result := by
  refine h.congr fun e => ?_
  rw [faultAt_cons]
  exact or_iff_right fun hbad => hx hbad.1

end BuildError

end IntervalProgramming
