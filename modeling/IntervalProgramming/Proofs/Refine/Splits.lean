import Mathlib.Data.List.ReduceOption
import IntervalProgramming.Proofs.Layout.Volume
import IntervalProgramming.Proofs.Refine.Budget

/-!
# Refinement only splits

Whatever is queued, every box that a refinement leaves is part of one of the
boxes it started from, and the parts of each of these hold its tuples once
each.  A box is never split into more parts than it has tuples, so this bounds
the cuts apart from the budget; a position where no cut is made keeps its box.
A round of the cutting loop takes an entry from the queue and puts back two at
most, and that only when it makes a cut, so the rounds are bounded as well.
-/

namespace IntervalProgramming

variable {α : Type} [Scalar α]

/-! ## Rounds of the cutting loop -/

namespace Refinement

/-- The rounds of the cutting loop between two states.  Each round takes an
entry from the queue; it is listed with the position that is cut, or with none
if there is no box to cut at the position of the entry. -/
inductive Rounds (threshold : α) :
    Refinement α → List (Option ℕ) → Refinement α → Prop
  | done (s : Refinement α) : Rounds threshold s [] s
  | drop {s t last : Refinement α} {entry : QueueEntry α}
      {rounds : List (Option ℕ)} :
      s.next? threshold = some (entry, t) → t.cutBox? entry.ix = none →
      Rounds threshold t rounds last → Rounds threshold s (none :: rounds) last
  | cut {s t next last : Refinement α} {entry : QueueEntry α}
      {rounds : List (Option ℕ)} :
      s.next? threshold = some (entry, t) → t.cutBox? entry.ix = some next →
      Rounds threshold next rounds last →
      Rounds threshold s (some entry.ix :: rounds) last

variable {s last : Refinement α} {threshold : α} {rounds : List (Option ℕ)}

/-- The cutting loop makes finitely many rounds, and counts those with a cut. -/
theorem exists_rounds (s : Refinement α) (budget : ℕ) (threshold : α) :
    ∃ rounds, Rounds threshold s rounds (s.cutWorst budget threshold).2 ∧
      rounds.reduceOption.length = (s.cutWorst budget threshold).1 := by
  fun_induction cutWorst s budget threshold with
  | case1 s => exact ⟨[], .done s, rfl⟩
  | case2 s budget hb hn => exact ⟨[], .done s, rfl⟩
  | case3 s budget hb entry t hn hc ih =>
      obtain ⟨rounds, hrounds, hcuts⟩ := ih
      exact ⟨none :: rounds, .drop hn hc hrounds, hcuts⟩
  | case4 s budget hb entry t hn cut hc cuts last heq ih =>
      rw [heq] at ih
      obtain ⟨rounds, hrounds, hcuts⟩ := ih
      refine ⟨some entry.ix :: rounds, .cut hn hc hrounds, ?_⟩
      rw [List.reduceOption_cons_of_some, List.length_cons, hcuts]

/-- Only a cut puts entries back into the queue. -/
theorem Rounds.length_le (h : Rounds threshold s rounds last) :
    rounds.length + last.queue.size ≤
      s.queue.size + 2 * rounds.reduceOption.length := by
  induction h with
  | done s => simp
  | drop hnext _ _ ih =>
      have htaken := size_lt_of_next? hnext
      rw [List.length_cons, List.reduceOption_cons_of_none]
      omega
  | cut hnext hcut _ ih =>
      have htaken := size_lt_of_next? hnext
      have hqueued := size_cutBox?_le hcut
      rw [List.length_cons, List.reduceOption_cons_of_some, List.length_cons]
      omega

/-- A position where no cut is made keeps its box. -/
theorem Rounds.getElem?_boxes (h : Rounds threshold s rounds last) {ix : ℕ}
    (hix : ix < s.map.size) (hkept : some ix ∉ rounds) :
    last.map.boxes[ix]? = s.map.boxes[ix]? := by
  induction h with
  | done s => rfl
  | drop hnext _ _ ih =>
      rw [List.mem_cons, not_or] at hkept
      rw [← (next?_eq_some hnext).2.1] at hix ⊢
      exact ih hix hkept.2
  | @cut s t next last entry rounds hnext hcut _ ih =>
      rw [List.mem_cons, not_or] at hkept
      have hne : entry.ix ≠ ix := fun heq => hkept.1 (congrArg some heq.symm)
      rw [← (next?_eq_some hnext).2.1] at hix ⊢
      have hgrown : ix < next.map.size := by
        rw [size_map_cutBox? hcut]
        exact Nat.lt_succ_of_lt hix
      rw [ih hgrown hkept.2, getElem?_boxes_cutBox? hcut hix hne]

end Refinement

/-! ## Parts of boxes -/

namespace PiecewiseMap

/-- The boxes of a map that are part of box `ix` of an earlier one: `owners`
says for each box of which it is a part. -/
def partsOf (m : PiecewiseMap α) (owners : List ℕ) (ix : ℕ) : List (Box α) :=
  ((owners.zip m.boxes.toList).filter (·.1 == ix)).map (·.2)

/-- The boxes of a map come from those of an earlier one by splitting: `owners`
says for each box of which earlier box it is a part.  An earlier box and the box
now at its position belong together; a part lies in its owner; and the parts of
a box hold each of its tuples once and no other tuple. -/
structure SplitInto (m m' : PiecewiseMap α) (owners : List ℕ) : Prop where
  length : owners.length = m'.size
  first : owners.take m.size = List.range m.size
  within : ∀ (k owner : ℕ) (c : Box α), m'.boxes[k]? = some c →
    owners[k]? = some owner → ∃ b, m.boxes[owner]? = some b ∧ c.isWithin b = true
  parts : ∀ (ix : ℕ) (b : Box α), m.boxes[ix]? = some b → ∀ tuple,
    Box.holders (m'.partsOf owners ix) tuple = (b.contains tuple).toNat

theorem holders_partsOf (m : PiecewiseMap α) (owners : List ℕ) (ix : ℕ)
    (tuple : List ℕ) :
    Box.holders (m.partsOf owners ix) tuple =
      (owners.zip m.boxes.toList).countP fun x => x.2.contains tuple && x.1 == ix := by
  rw [partsOf, Box.holders, List.countP_map, List.countP_filter]
  rfl

/-- Among the entries of a list numbered from `start` on, the one of a number. -/
theorem filter_range'_zip {β : Type} (xs : List β) (start k : ℕ) :
    ((List.range' start xs.length).zip xs).filter (·.1 == start + k) =
      (xs[k]?.map fun x => (start + k, x)).toList := by
  induction xs generalizing start k with
  | nil => rfl
  | cons x xs ih =>
      rw [List.length_cons, List.range'_succ, List.zip_cons_cons, List.filter_cons]
      cases k with
      | zero =>
          have hlater : ((List.range' (start + 1) xs.length).zip xs).filter
              (·.1 == start) = [] := by
            rw [List.filter_eq_nil_iff]
            intro y hy
            have hrange := List.mem_range'_1.mp (List.of_mem_zip hy).1
            simp only [beq_iff_eq]
            omega
          rw [Nat.add_zero, if_pos (beq_self_eq_true start), hlater]
          rfl
      | succ k =>
          have hnext : start + (k + 1) = start + 1 + k := by omega
          rw [if_neg (by simp), hnext, ih]
          rfl

theorem zip_modify {β γ : Type} (xs : List β) (ys : List γ) (ix : ℕ) (f : γ → γ) :
    xs.zip (ys.modify ix f) = (xs.zip ys).modify ix (Prod.map id f) := by
  induction xs generalizing ys ix with
  | nil => simp
  | cons x xs ih =>
      cases ys with
      | nil => simp
      | cons y ys =>
          cases ix with
          | zero => simp
          | succ ix => simp [ih]

/-- Before any cut every box is the only part of itself. -/
theorem splitInto_self (m : PiecewiseMap α) : SplitInto m m (List.range m.size) := by
  have hlen : m.size = m.boxes.toList.length := Array.length_toList.symm
  refine ⟨List.length_range, ?_, ?_, ?_⟩
  · rw [List.take_of_length_le (List.length_range.le)]
  · intro k owner c hc howner
    obtain ⟨hk, rfl⟩ := List.getElem?_eq_some_iff.mp howner
    rw [List.getElem_range]
    exact ⟨c, hc, c.isWithin_self⟩
  · intro ix b hb tuple
    have hfilter := filter_range'_zip m.boxes.toList 0 ix
    rw [Nat.zero_add, Array.getElem?_toList, hb] at hfilter
    rw [partsOf, hlen, List.range_eq_range', hfilter, Option.map_some,
      Option.toList_some, List.map_singleton, Box.holders_cons]
    rfl

section Cut

variable {m m' m'' : PiecewiseMap α} {owners : List ℕ} {ix owner : ℕ}
  {b lower upper : Box α}

/-- Splitting a box among the parts of its owner changes for no box how its
parts hold a tuple. -/
theorem holders_partsOf_cut (hlen : owners.length = m'.size)
    (howner : owners[ix]? = some owner) (hb : m'.boxes[ix]? = some b)
    (hsplit : ∀ tuple, (lower.contains tuple).toNat + (upper.contains tuple).toNat =
      (b.contains tuple).toNat)
    (hboxes : m''.boxes = (m'.boxes.modify ix fun _ => lower).push upper)
    (k : ℕ) (tuple : List ℕ) :
    Box.holders (m''.partsOf (owners ++ [owner]) k) tuple =
      Box.holders (m'.partsOf owners k) tuple := by
  have hlen' : owners.length = (m'.boxes.toList.modify ix fun _ => lower).length := by
    rw [List.length_modify, hlen]
    exact Array.length_toList.symm
  have hx : (owners.zip m'.boxes.toList)[ix]? = some (owner, b) :=
    List.getElem?_zip_eq_some.mpr ⟨howner, Array.getElem?_toList.trans hb⟩
  have hmodify := Box.countP_modify hx (Prod.map id fun _ => lower)
    fun x => x.2.contains tuple && x.1 == k
  rw [holders_partsOf, holders_partsOf, hboxes, Array.toList_push,
    Array.toList_modify, List.zip_append hlen', zip_modify, List.countP_append,
    List.zip_cons_cons, List.zip_nil_right, List.countP_singleton]
  dsimp only [Prod.map, id] at hmodify ⊢
  cases howned : owner == k with
  | false => simpa [howned] using hmodify
  | true =>
      have hcount := hsplit tuple
      have hupper : (if (upper.contains tuple && true) = true then 1 else 0) =
          (upper.contains tuple).toNat := by
        cases upper.contains tuple <;> rfl
      simp only [howned, Bool.and_true] at hmodify hupper ⊢
      omega

/-- A cut gives both parts the owner of the box. -/
theorem SplitInto.cut (h : SplitInto m m' owners) (hb : m'.boxes[ix]? = some b)
    (hsplit : ∀ tuple, (lower.contains tuple).toNat + (upper.contains tuple).toNat =
      (b.contains tuple).toNat)
    (hlower : lower.isWithin b = true) (hupper : upper.isWithin b = true)
    (hboxes : m''.boxes = (m'.boxes.modify ix fun _ => lower).push upper) :
    ∃ owner, SplitInto m m'' (owners ++ [owner]) := by
  have hix : ix < owners.length := by
    rw [h.length]
    exact (Array.getElem?_eq_some_iff.mp hb).1
  obtain ⟨owner, howner⟩ : ∃ owner, owners[ix]? = some owner :=
    ⟨_, List.getElem?_eq_getElem hix⟩
  obtain ⟨d, hd, hbd⟩ := h.within ix owner b hb howner
  refine ⟨owner, ?_, ?_, ?_, ?_⟩
  · rw [size, hboxes, Array.size_push, Array.size_modify, List.length_append, h.length]
    rfl
  · have hle : m.size ≤ owners.length := by
      have hfirst := congrArg List.length h.first
      rw [List.length_take, List.length_range] at hfirst
      omega
    rw [List.take_append_of_le_length hle, h.first]
  · intro k o c hc ho
    rw [hboxes, Array.getElem?_push, Array.size_modify] at hc
    split at hc
    · rename_i hk
      obtain rfl := Option.some.inj hc
      obtain rfl : k = owners.length := hk.trans h.length.symm
      rw [List.getElem?_concat_length, Option.some.injEq] at ho
      exact ⟨d, ho ▸ hd, Box.isWithin_trans hupper hbd⟩
    · have hk : k < owners.length := by
        have hlt := (Array.getElem?_eq_some_iff.mp hc).1
        rwa [Array.size_modify, ← size, ← h.length] at hlt
      rw [List.getElem?_append_left hk] at ho
      rw [Array.getElem?_modify] at hc
      split at hc
      · rename_i hk
        obtain ⟨-, -, rfl⟩ := Option.map_eq_some_iff.mp hc
        rw [← hk, howner, Option.some.injEq] at ho
        exact ⟨d, ho ▸ hd, Box.isWithin_trans hlower hbd⟩
      · exact h.within k o c hc ho
  · intro k c hc tuple
    rw [holders_partsOf_cut h.length howner hb hsplit hboxes, h.parts k c hc]

end Cut

/-- Only the boxes of the later map matter. -/
theorem SplitInto.congr {m m' m'' : PiecewiseMap α} {owners : List ℕ}
    (h : SplitInto m m' owners) (hboxes : m''.boxes = m'.boxes) :
    SplitInto m m'' owners := by
  obtain ⟨hlength, hfirst, hwithin, hparts⟩ := h
  simp only [partsOf, size] at hlength hparts
  constructor
  · rw [size, hboxes, hlength]
  · exact hfirst
  · rwa [hboxes]
  · simp only [partsOf, hboxes]
    exact hparts

/-- The box now at a position lies in the one that was there. -/
theorem SplitInto.isWithin {m m' : PiecewiseMap α} {owners : List ℕ}
    (h : SplitInto m m' owners) {ix : ℕ} {b : Box α} (hb : m.boxes[ix]? = some b) :
    ∃ c, m'.boxes[ix]? = some c ∧ c.isWithin b = true := by
  have hix : ix < m.size := (Array.getElem?_eq_some_iff.mp hb).1
  have howner : owners[ix]? = some ix := by
    rw [← List.getElem?_take_of_lt hix, h.first, List.getElem?_range hix]
  have hlt := (List.getElem?_eq_some_iff.mp howner).1
  rw [h.length] at hlt
  obtain ⟨c, hc⟩ : ∃ c, m'.boxes[ix]? = some c := ⟨_, Array.getElem?_eq_getElem hlt⟩
  obtain ⟨d, hd, hwithin⟩ := h.within ix ix c hc howner
  obtain rfl := Option.some.inj (hb.symm.trans hd)
  exact ⟨c, hc, hwithin⟩

end PiecewiseMap

/-! ## Volumes -/

namespace Box

/-- Boxes that hold each tuple equally often have the same volume in all. -/
theorem sum_volume_congr {boxes boxes' : List (Box α)}
    (h : ∀ tuple, holders boxes tuple = holders boxes' tuple) :
    (boxes.map volume).sum = (boxes'.map volume).sum := by
  have hnodup := ((boxes ++ boxes').flatMap tuples).nodup_dedup
  have hmem : ∀ b ∈ boxes ++ boxes', ∀ tuple, b.contains tuple = true →
      tuple ∈ ((boxes ++ boxes').flatMap tuples).dedup := by
    intro b hb tuple htuple
    rw [List.mem_dedup, List.mem_flatMap]
    exact ⟨b, hb, mem_tuples.mpr htuple⟩
  rw [sum_volume hnodup fun b hb => hmem b (List.mem_append_left _ hb),
    sum_volume hnodup fun b hb => hmem b (List.mem_append_right _ hb),
    funext h]

theorem sum_volume_eq (boxes : List (Box α)) :
    (boxes.map volume).sum = (boxes.map fun b => b.volume - 1).sum + boxes.length := by
  induction boxes with
  | nil => rfl
  | cons b boxes ih =>
      have hpos := b.volume_pos
      simp only [List.map_cons, List.sum_cons, List.length_cons, ih]
      omega

theorem length_le_sum_volume (boxes : List (Box α)) :
    boxes.length ≤ (boxes.map volume).sum := by
  rw [sum_volume_eq]
  exact Nat.le_add_left _ _

end Box

/-! ## Whole refinements -/

namespace Refinement

/-- Along the rounds of the cutting loop the boxes stay split from those of a
map before them. -/
theorem Rounds.splitInto {m : PiecewiseMap α} {s last : Refinement α} {threshold : α}
    {rounds : List (Option ℕ)} (h : Rounds threshold s rounds last) {owners : List ℕ}
    (hs : m.SplitInto s.map owners) :
    ∃ owners, m.SplitInto last.map owners := by
  induction h generalizing owners with
  | done s => exact ⟨owners, hs⟩
  | drop hnext _ _ ih =>
      rw [← (next?_eq_some hnext).2.1] at hs
      exact ih hs
  | cut hnext hcut _ ih =>
      rw [← (next?_eq_some hnext).2.1] at hs
      obtain ⟨b, lower, upper, hb, -, hsplit, hlower, hupper, hboxes⟩ :=
        boxes_cutBox? hcut
      obtain ⟨owner, howner⟩ := hs.cut hb hsplit hlower hupper hboxes
      exact ih howner

/-- A refinement makes the rounds of the cutting loop, and then brings the grid
up to date. -/
theorem exists_rounds_refine (s : Refinement α) (budget : ℕ) (threshold : α) :
    ∃ rounds t, Rounds threshold s rounds t ∧
      t.refreshGrid = (s.refine budget threshold).2.refreshGrid ∧
      rounds.reduceOption.length = (s.refine budget threshold).1 := by
  by_cases hactive : s.isActive = true
  · rcases Nat.eq_zero_or_pos budget with rfl | hbudget
    · rw [refine_zero]
      exact ⟨[], s, .done s, rfl, rfl⟩
    · obtain ⟨rounds, hrounds, hcuts⟩ := exists_rounds s budget threshold
      rw [refine_of_isActive hactive (Nat.ne_of_gt hbudget)]
      exact ⟨rounds, _, hrounds, rfl, hcuts⟩
  · rw [Bool.not_eq_true] at hactive
    rw [refine_of_not_isActive hactive]
    exact ⟨[], s, .done s, rfl, rfl⟩

/-- A refinement stops and only splits, whatever map, queue, budget and
threshold it starts from.  It makes at most as many rounds as there are queued
entries, and two more for each cut; the cuts are within the budget and within
the number of tuples that the boxes hold beyond one each, and every cut makes
one box more.  Each tuple lies in as many boxes as before.  The box at a
position is part of the one that was there, and stays as it is where no cut is
made.  Every box has one owner among the boxes at the start, in which it lies,
and the parts of an owner, the box at its position among them, hold each of its
tuples once and no other tuple. -/
theorem refine_splits (s : Refinement α) (budget : ℕ) (threshold : α) :
    ∃ cuts last rounds owners,
      s.refine budget threshold = (cuts, last) ∧
      (∃ t, Rounds threshold s rounds t ∧ t.refreshGrid = last.refreshGrid) ∧
      rounds.length ≤ s.queue.size + 2 * cuts ∧
      rounds.reduceOption.length = cuts ∧ cuts ≤ budget ∧
      cuts ≤ (s.map.boxes.toList.map fun b => b.volume - 1).sum ∧
      last.map.size = s.map.size + cuts ∧
      (∀ tuple, Box.holders last.map.boxes.toList tuple =
        Box.holders s.map.boxes.toList tuple) ∧
      (∀ (ix : ℕ) (b : Box α), s.map.boxes[ix]? = some b →
        ∃ c, last.map.boxes[ix]? = some c ∧ c.isWithin b = true) ∧
      (∀ ix < s.map.size, some ix ∉ rounds →
        last.map.boxes[ix]? = s.map.boxes[ix]?) ∧
      s.map.SplitInto last.map owners := by
  obtain ⟨rounds, t, hrounds, hgrid, hcuts⟩ := exists_rounds_refine s budget threshold
  obtain ⟨hbudget, hsize⟩ := size_map_refine s budget threshold
  have hsame := congrArg (fun r : Refinement α => r.map.boxes) hgrid
  have hboxes : (s.refine budget threshold).2.map.boxes = t.map.boxes := hsame.symm
  obtain ⟨owners, hsplit⟩ := hrounds.splitInto s.map.splitInto_self
  have hsplit' := hsplit.congr hboxes
  -- no position is asked to keep still, so nothing is asked of the queue
  have hcut : PiecewiseMap.CutFrom (fun _ => False) s.map
      (s.refine budget threshold).2.map := by
    apply cutFrom_refine
    · exact fun _ _ => id
    · exact fun _ _ => id
  have hheld := hcut.holders
  have hvolume : s.map.size + (s.refine budget threshold).1 ≤
      (s.map.boxes.toList.map fun b => b.volume - 1).sum + s.map.size := by
    have hle := Box.length_le_sum_volume (s.refine budget threshold).2.map.boxes.toList
    rwa [Box.sum_volume_congr hheld, Box.sum_volume_eq, Array.length_toList,
      Array.length_toList, ← PiecewiseMap.size, ← PiecewiseMap.size, hsize] at hle
  have hlength := hrounds.length_le
  refine ⟨_, _, rounds, owners, Prod.mk.eta.symm, ⟨t, hrounds, hgrid⟩, by omega, hcuts,
    hbudget, by omega, hsize, hheld, ?_, ?_, hsplit'⟩
  · exact fun ix b hb => hsplit'.isWithin hb
  · intro ix hix hkept
    rw [hboxes]
    exact hrounds.getElem?_boxes hix hkept

end Refinement

end IntervalProgramming
