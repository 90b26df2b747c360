import PassTuner.Random.Stream

/-!
# Uniform draws

An index below `n` is the high half of a word times `n`; words whose low half lies past the last
full multiple are passed over, so every index has the same number of words. Each try succeeds more
often than not; a draw that met only words to be passed over keeps the last one, which is in range
as well. There is no choice among nothing: a draw takes a proof that its range is not empty. Main
statement: a draw below a bound stays below it.
-/

namespace PassTuner.Rng

/-- Words that a draw looks at before it takes what it has. -/
def patience : Nat := 256

/-- High and low half of the product of a word of the given width with a bound. -/
def split (bits word bound : Nat) : Nat × Nat :=
  (word * bound / Nat.pow 2 bits, word * bound % Nat.pow 2 bits)

/-- The largest low half that is accepted: `bound`, shifted up to fill the word, less one. -/
def zone (bits bound : Nat) : Nat :=
  (bound * Nat.pow 2 (bits - 1 - bound.log2) + (Nat.pow 2 bits - 1)) % Nat.pow 2 bits

/-- Draws words until the low half is at most `limit`, and answers the high half. -/
def drawUntil (word : Rng → Nat × Rng) (bits bound limit : Nat) : Nat → Rng → Nat × Rng
  | 0, r =>
    let drawn := word r
    ((split bits drawn.1 bound).1, drawn.2)
  | tries + 1, r =>
    let drawn := word r
    let halves := split bits drawn.1 bound
    if halves.2 ≤ limit then (halves.1, drawn.2)
    else drawUntil word bits bound limit tries drawn.2

def word32 (r : Rng) : Nat × Rng :=
  let (w, r) := r.next
  (w.toNat, r)

def word64 (r : Rng) : Nat × Rng :=
  let (w, r) := r.next64
  (w.toNat, r)

/-- A uniform index below `n`, from 64-bit words. -/
def below (n : Nat) (_hn : 0 < n) (r : Rng) : Nat × Rng :=
  drawUntil word64 64 n (zone 64 n) patience r

/-- A uniform index from `low` to below `high`, from 32-bit words. -/
def between (low high : Nat) (_h : low < high) (r : Rng) : Nat × Rng :=
  let (i, r) := drawUntil word32 32 (high - low) (zone 32 (high - low)) patience r
  (low + i, r)

/-- A uniform index below `n`, from 32-bit words, with the widest zone. -/
def belowWide (n : Nat) (_hn : 0 < n) (r : Rng) : Nat × Rng :=
  drawUntil word32 32 n (UInt32.size - 1 - (UInt32.size - n) % n) patience r

theorem drawUntil_lt {word : Rng → Nat × Rng} {bits bound : Nat}
    (hword : ∀ r, (word r).1 < Nat.pow 2 bits)
    (hbound : 0 < bound) (limit tries : Nat) (r : Rng) :
    (drawUntil word bits bound limit tries r).1 < bound := by
  have key (r : Rng) : (split bits (word r).1 bound).1 < bound := by
    refine (Nat.div_lt_iff_lt_mul (Nat.pow_pos Nat.two_pos)).2 ?_
    rw [Nat.mul_comm bound]
    exact Nat.mul_lt_mul_of_pos_right (hword r) hbound
  induction tries generalizing r with
  | zero => exact key r
  | succ tries ih =>
    simp only [drawUntil]
    split
    · exact key r
    · exact ih _

theorem below_lt {n : Nat} (hn : 0 < n) (r : Rng) : (below n hn r).1 < n :=
  drawUntil_lt (fun r => (r.next64).1.toNat_lt) hn _ _ r

/-- A uniform number from zero to below one, in steps of `2 ^ -53`. -/
def unit (r : Rng) : Float × Rng :=
  let (w, r) := r.next64
  (Float.ofNat (w >>> 11).toNat * Float.ofBits 0x3CA0000000000000, r)

/-! ## Single-precision numbers around zero -/

/-- The next smaller number, for positive ones. -/
def stepDown (x : Float32) : Float32 := Float32.ofBits (x.toBits - 1)

/-- The scale of draws from `-b` to `b`: the least number of steps below the quotient at which the
largest draw is not above `b`. -/
def symmetricScale (b : Float32) : Float32 :=
  let most : Float32 := Float32.ofBits 0x3F7FFFFE
  let rec settle : Nat → Float32 → Float32
    | 0, scale => scale
    | n + 1, scale => if b < scale * most + -b then settle n (stepDown scale) else scale
  settle 64 ((b - -b) / most)

/-- A uniform number from `-b` to `b`. -/
def symmetric (b : Float32) (r : Rng) : Float32 × Rng :=
  let (w, r) := r.next
  let fraction := Float32.ofBits ((w >>> 9) ||| 0x3F800000) - 1
  (fraction * symmetricScale b + -b, r)

/-- A row of uniform numbers from `-b` to `b`. -/
def symmetrics (b : Float32) : Nat → Rng → List Float32 × Rng
  | 0, r => ([], r)
  | n + 1, r =>
    let (x, r) := r.symmetric b
    let (rest, r) := symmetrics b n r
    (x :: rest, r)

@[simp] theorem symmetrics_length (b : Float32) (n : Nat) (r : Rng) :
    (symmetrics b n r).1.length = n := by
  induction n generalizing r with
  | zero => rfl
  | succ n ih => simp [symmetrics, ih]

end PassTuner.Rng
