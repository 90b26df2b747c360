import PassTuner.Random.Draw

/-!
# Random choices of distinct indices

Choosing `amount` of `length` indices has three ways, and sizes decide which is taken. Few of many
are collected one at a time, each new or standing in for one that was taken already; many of few
come off the front of a shuffle; and many of very many are drawn until new.
-/

namespace PassTuner.Rng

/-- The first `amount` of a shuffle: position after position is exchanged with a later one. -/
def shuffleFront (length : Nat) : (n i : Nat) → i + n ≤ length → Array Nat → Rng → Array Nat × Rng
  | 0, _, _, a, r => (a, r)
  | n + 1, i, h, a, r =>
    let (j, r) := r.between i length (by omega)
    shuffleFront length n (i + 1) (by omega) (a.swapIfInBounds i j) r

def inPlace (length amount : Nat) (h : amount ≤ length) (r : Rng) : List Nat × Rng :=
  let (a, r) := shuffleFront length amount 0 (by omega) (Array.range length) r
  ((a.toList).take amount, r)

/-- One index for each of `n` bounds from `j` on. A draw that was taken already makes room for the
bound itself: in front of it while the order is being made (`ordered`), else behind everything. -/
def collect (ordered : Bool) : Nat → Nat → List Nat → Rng → List Nat × Rng
  | 0, _, taken, r => (taken, r)
  | n + 1, j, taken, r =>
    let (t, r) := r.between 0 (j + 1) (by omega)
    let taken :=
      match taken.idxOf? t with
      | none => taken ++ [t]
      | some p => if ordered then taken.insertIdx p j else taken ++ [j]
    collect ordered n (j + 1) taken r

/-- Every position from the given one down to the second, exchanged with one not behind it. -/
def shuffleDown : Nat → Array Nat → Rng → Array Nat × Rng
  | 0, a, r => (a, r)
  | i + 1, a, r =>
    let (j, r) := r.between 0 (i + 2) (by omega)
    shuffleDown i (a.swapIfInBounds (i + 1) j) r

/-- Below this many, the order is made while collecting. -/
def orderedBelow : Nat := 50

def collected (length amount : Nat) (r : Rng) : List Nat × Rng :=
  let ordered := decide (amount < orderedBelow)
  let (taken, r) := collect ordered amount (length - amount) [] r
  if ordered then (taken, r)
  else
    let (a, r) := shuffleDown (amount - 1) taken.toArray r
    (a.toList, r)

/-- Draws until an index is new; the fuel bounds the draws, and the least unused index is taken when
it is spent. -/
def drawNew (length : Nat) (hl : 0 < length) (taken : List Nat) : Nat → Rng → Nat × Rng
  | 0, r => (((List.range length).find? (· ∉ taken)).getD 0, r)
  | tries + 1, r =>
    let (t, r) := r.belowWide length hl
    if t ∈ taken then drawNew length hl taken tries r else (t, r)

/-- `taken` is reversed. -/
def drawDistinct (length : Nat) : (n : Nat) → n ≤ length → List Nat → Rng → List Nat × Rng
  | 0, _, taken, r => (taken.reverse, r)
  | n + 1, h, taken, r =>
    let drawn := drawNew length (by omega) taken (64 * patience) r
    drawDistinct length n (by omega) (drawn.1 :: taken) drawn.2

/-- Whether the length is below a factor times the amount, in single precision. -/
def lengthBelow (length amount : Nat) (factor : Float32) : Bool :=
  Float32.ofNat length < factor * Float32.ofNat amount

/-- `amount` distinct indices below `length`, every choice and order equally likely. -/
def subset (length amount : Nat) (h : amount ≤ length) (r : Rng) : List Nat × Rng :=
  let large := decide (500000 ≤ length)
  if amount < 163 then
    let shuffles :=
      if large then
        lengthBelow length amount ((70.0 / 9.0) + (8.0 / 45.0) * Float32.ofNat amount)
      else lengthBelow length amount (10.0 + 1.6 * Float32.ofNat amount)
    if 11 < amount && shuffles then r.inPlace length amount h else r.collected length amount
  else if lengthBelow length amount (if large then 330.0 / 9.0 else 270.0) then
    r.inPlace length amount h
  else r.drawDistinct length amount h []

end PassTuner.Rng
