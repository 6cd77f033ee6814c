import IntervalProgramming.Box.Model

/-!
# The geometry of boxes

Membership, overlap, inclusion, intersection, halving and difference.  Two boxes are comparable when
they have the same dimensions; boxes over different dimensions are disjoint and neither contains the
other.

An intersection adds the two models, so it narrows a region and sums the values over it at once.  The
other operations hand on the model of the box they start from.
-/

namespace IntervalProgramming.Box

variable {α : Type} [Scalar α]

/-- Whether an index tuple has one index for each extent and each lies in its extent. -/
def contains (b : Box α) (tuple : List Nat) : Bool :=
  tuple.length == b.extents.length &&
    (b.extents.zip tuple).all fun (e, j) => e.contains j

/-- Whether two boxes have the same dimensions. -/
def sameDims (b c : Box α) : Bool :=
  b.dimensions == c.dimensions

/-- Whether two boxes have the same dimensions and share an index tuple. -/
def intersects (b c : Box α) : Bool :=
  b.sameDims c && (b.extents.zip c.extents).all fun (e, f) => e.overlaps f.toInterval

/-- Whether the box at position `ix` of an array meets `b`; where there is no box nothing does. -/
def meetsAt (boxes : Array (Box α)) (b : Box α) (ix : Nat) : Bool :=
  (boxes[ix]?.map (·.intersects b)).getD false

/-- Whether two boxes have the same dimensions and every tuple of `b` lies in `c`. -/
def isWithin (b c : Box α) : Bool :=
  b.sameDims c && (b.extents.zip c.extents).all fun (e, f) => e.isWithin f.toInterval

/-- The extents shared by two lists of extents of the same dimensions; `none` if one is empty. -/
def meetExtents? : List Extent → List Extent → Option (List Extent)
  | e :: es, f :: fs => do
    let i ← e.meet? f.toInterval
    let rest ← meetExtents? es fs
    return { i with dim := e.dim } :: rest
  | _, _ => some []

/-- The intersection of two boxes with the sum of their models, the second read as given: read as a
constant it adds its intercept only.  `none` if the dimensions differ or no tuple is shared. -/
def meetAs? (b c : Box α) (degree : Degree) : Option (Box α) :=
  if b.sameDims c then
    (meetExtents? b.extents c.extents).map fun extents =>
      { extents := extents
        slopes :=
          match degree with
          | .constant => b.slopes
          | .linear => List.zipWith (· + ·) b.slopes c.slopes
        intercept := b.intercept + c.intercept }
  else none

/-- The intersection of two boxes with the sum of their linear models. -/
def meet? (b c : Box α) : Option (Box α) :=
  b.meetAs? c .linear

/-- Replace the extent at position `k`. -/
def setExtent (b : Box α) (k : Nat) (e : Extent) : Box α :=
  { b with extents := b.extents.set k e }

/-- Cut a box in two at the midpoint of extent `k`: the first half ends with the midpoint and the
second starts after it.  `none` if there is no such extent or it is a single index. -/
def cut? (b : Box α) (k : Nat) : Option (Box α × Box α) :=
  match b.extents[k]? with
  | none => none
  | some e =>
    if h : e.lo < e.hi then
      let mid := e.lo + (e.hi - e.lo) / 2
      some (b.setExtent k { lo := e.lo, hi := mid, dim := e.dim },
        b.setExtent k { lo := mid + 1, hi := e.hi, dim := e.dim })
    else none

/-- The parts of a product of extents outside another one that it overlaps: along the first dimension
the slab before and the slab after, and then what the remaining dimensions leave of the rest.  Each
part is a list of extents. -/
def differenceExtents : List Extent → List Extent → List (List Extent)
  | e :: es, f :: fs =>
    let before := if h : e.lo < f.lo ∧ f.lo ≤ e.hi then
        [{ lo := e.lo, hi := f.lo - 1, dim := e.dim : Extent } :: es] else []
    let after := if h : f.hi < e.hi ∧ e.lo ≤ f.hi then
        [{ lo := f.hi + 1, hi := e.hi, dim := e.dim : Extent } :: es] else []
    let within := match e.meet? f.toInterval with
      | none => []
      | some i => (differenceExtents es fs).map ({ i with dim := e.dim : Extent } :: ·)
    before ++ after ++ within
  | _, _ => []

/-- Disjoint boxes that hold the tuples of `b` outside `c`, each with the model of `b`.  A box that
shares nothing with `c` is left whole; a box within `c` leaves nothing. -/
def subtract (b c : Box α) : List (Box α) :=
  if b.intersects c then
    (differenceExtents b.extents c.extents).map fun extents => { b with extents := extents }
  else [b]

end IntervalProgramming.Box
