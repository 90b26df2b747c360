/-!
# A seeded stream of random words

The key stream of the ChaCha cipher with eight rounds, a 64-bit block counter that starts at zero
and an all-zero nonce, read as 32-bit words. The key is spread out of a 64-bit seed by a permuted
congruential generator. `Rng.next` never runs dry, because a block has words.
-/

namespace PassTuner

/-- A position in a key stream: the words of the current block still to come and the next block. -/
structure Rng where
  key : List UInt32
  block : UInt64
  pending : List UInt32
  deriving DecidableEq, Repr

namespace Rng

def rotateLeft (x : UInt32) (n : UInt32) : UInt32 := (x <<< n) ||| (x >>> (32 - n))

def rotateRight (x : UInt32) (n : UInt32) : UInt32 := (x >>> n) ||| (x <<< (32 - n))

/-! ## Blocks -/

/-- Four words of the state mixed with one another. -/
def quarterRound (s : Array UInt32) (i j k l : Nat) : Array UInt32 :=
  let a := s.getD i 0
  let b := s.getD j 0
  let c := s.getD k 0
  let d := s.getD l 0
  let a := a + b
  let d := rotateLeft (d ^^^ a) 16
  let c := c + d
  let b := rotateLeft (b ^^^ c) 12
  let a := a + b
  let d := rotateLeft (d ^^^ a) 8
  let c := c + d
  let b := rotateLeft (b ^^^ c) 7
  (((s.setIfInBounds i a).setIfInBounds j b).setIfInBounds k c).setIfInBounds l d

/-- A round over the columns and one over the diagonals. -/
def doubleRound (s : Array UInt32) : Array UInt32 :=
  [(0, 4, 8, 12), (1, 5, 9, 13), (2, 6, 10, 14), (3, 7, 11, 15),
    (0, 5, 10, 15), (1, 6, 11, 12), (2, 7, 8, 13), (3, 4, 9, 14)].foldl
    (fun s (i, j, k, l) => quarterRound s i j k l) s

/-- The state a block is computed from: four constants, key, counter and nonce. -/
def blockInput (key : List UInt32) (block : UInt64) : List UInt32 :=
  ([0x61707865, 0x3320646e, 0x79622d32, 0x6b206574] : List UInt32) ++ key ++
    [block.toUInt32, (block >>> 32).toUInt32, 0, 0]

/-- The words of a block. -/
def blockWords (key : List UInt32) (block : UInt64) : List UInt32 :=
  let input := blockInput key block
  let mixed := doubleRound (doubleRound (doubleRound (doubleRound input.toArray)))
  List.zipWith (· + ·) mixed.toList input

/-! ## Seeds -/

/-- The key words that a seed is spread into, from the given number of words on. -/
def spread : Nat → UInt64 → List UInt32
  | 0, _ => []
  | n + 1, seed =>
    let seed := seed * 6364136223846793005 + 11634580027462260723
    let mixed := ((((seed >>> 18) ^^^ seed) >>> 27) : UInt64).toUInt32
    rotateRight mixed (seed >>> 59).toUInt32 :: spread n seed

def ofSeed (seed : UInt64) : Rng := ⟨spread 8 seed, 0, []⟩

/-! ## Words -/

/-- The next word. -/
def next (r : Rng) : UInt32 × Rng :=
  match r.pending with
  | w :: rest => (w, { r with pending := rest })
  | [] =>
    match blockWords r.key r.block with
    | w :: rest => (w, { r with block := r.block + 1, pending := rest })
    | [] => (0, { r with block := r.block + 1 })

/-- The next two words as one number, the low half first. -/
def next64 (r : Rng) : UInt64 × Rng :=
  let (low, r) := r.next
  let (high, r) := r.next
  ((high.toUInt64 <<< 32) ||| low.toUInt64, r)

/-- The next seeds for further streams. -/
def seeds : Nat → Rng → List UInt64 × Rng
  | 0, r => ([], r)
  | n + 1, r =>
    let (s, r) := r.next64
    let (rest, r) := seeds n r
    (s :: rest, r)

@[simp] theorem seeds_length (n : Nat) (r : Rng) : (seeds n r).1.length = n := by
  induction n generalizing r with
  | zero => rfl
  | succ n ih => simp [seeds, ih]

end Rng

end PassTuner
