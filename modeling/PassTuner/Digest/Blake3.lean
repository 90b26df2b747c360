/-!
# The BLAKE3 digest

Input is cut into chunks of 1024 bytes, a chunk into blocks of 64. The blocks of a chunk are chained
by a compression of eight words; chunk values are the leaves of a binary tree whose left subtrees
hold the largest power of two of chunks that leaves something for the right. The digest is the
root's first 32 bytes in hexadecimal.
-/

namespace PassTuner.Digest

/-- The words that chaining starts with. -/
def initialWords : List UInt32 :=
  [0x6A09E667, 0xBB67AE85, 0x3C6EF372, 0xA54FF53A, 0x510E527F, 0x9B05688C, 0x1F83D9AB, 0x5BE0CD19]

/-- Where each message word of the next round comes from. -/
def permutation : List Nat := [2, 6, 3, 10, 7, 0, 4, 13, 1, 11, 12, 5, 9, 14, 15, 8]

def chunkStart : UInt32 := 1

def chunkEnd : UInt32 := 2

def parent : UInt32 := 4

def root : UInt32 := 8

def chunkBytes : Nat := 1024

def blockBytes : Nat := 64

def rotate (x : UInt32) (n : UInt32) : UInt32 := (x >>> n) ||| (x <<< (32 - n))

/-- Four words of the state mixed with one another and two message words. -/
def mix (s : Array UInt32) (i j k l : Nat) (x y : UInt32) : Array UInt32 :=
  let a := s.getD i 0
  let b := s.getD j 0
  let c := s.getD k 0
  let d := s.getD l 0
  let a := a + b + x
  let d := rotate (d ^^^ a) 16
  let c := c + d
  let b := rotate (b ^^^ c) 12
  let a := a + b + y
  let d := rotate (d ^^^ a) 8
  let c := c + d
  let b := rotate (b ^^^ c) 7
  (((s.setIfInBounds i a).setIfInBounds j b).setIfInBounds k c).setIfInBounds l d

/-- Columns, then diagonals, each with the next two message words. -/
def round (s m : Array UInt32) : Array UInt32 :=
  [(0, 4, 8, 12, 0), (1, 5, 9, 13, 2), (2, 6, 10, 14, 4), (3, 7, 11, 15, 6),
    (0, 5, 10, 15, 8), (1, 6, 11, 12, 10), (2, 7, 8, 13, 12), (3, 4, 9, 14, 14)].foldl
    (fun s (i, j, k, l, w) => mix s i j k l (m.getD w 0) (m.getD (w + 1) 0)) s

def rounds : Nat → Array UInt32 → Array UInt32 → Array UInt32
  | 0, s, _ => s
  | n + 1, s, m => rounds n (round s m) (permutation.map fun i => m.getD i 0).toArray

/-- What a compression is asked for: the chaining words so far, a block of message words, the
position of the chunk, the number of bytes in the block, and the flags of its role. -/
structure Compression where
  chaining : List UInt32
  message : List UInt32
  counter : UInt64
  length : UInt32
  flags : UInt32

/-- The eight words that come out. -/
def Compression.words (c : Compression) : List UInt32 :=
  let s := (c.chaining ++ initialWords.take 4 ++
    [c.counter.toUInt32, (c.counter >>> 32).toUInt32, c.length, c.flags]).toArray
  let s := (rounds 7 s c.message.toArray).toList
  List.zipWith (· ^^^ ·) (s.take 8) (s.drop 8)

def byteWord : List UInt8 → UInt32
  | [] => 0
  | b :: rest => b.toUInt32 ||| (byteWord rest <<< 8)

/-- The first `n` little-endian words of a byte string that is filled up with zeros. -/
def messageWords : Nat → List UInt8 → List UInt32
  | 0, _ => []
  | n + 1, bytes => byteWord (bytes.take 4) :: messageWords n (bytes.drop 4)

/-- A byte string cut into parts of a size, of which the last may be shorter; the fuel bounds their
number. An empty string has one empty part. -/
def parts (size : Nat) : Nat → List UInt8 → List (List UInt8)
  | 0, bytes => [bytes]
  | fuel + 1, bytes =>
    if bytes.length ≤ size then [bytes] else bytes.take size :: parts size fuel (bytes.drop size)

/-- The last compression of a chunk, all earlier blocks chained. -/
def chunkTail (counter : UInt64) : List UInt32 → UInt32 → List (List UInt8) → Compression
  | chaining, start, [] => ⟨chaining, messageWords 16 [], counter, 0, start ||| chunkEnd⟩
  | chaining, start, [block] =>
    ⟨chaining, messageWords 16 block, counter, UInt32.ofNat block.length, start ||| chunkEnd⟩
  | chaining, start, block :: rest =>
    let c : Compression :=
      ⟨chaining, messageWords 16 block, counter, UInt32.ofNat block.length, start⟩
    chunkTail counter c.words 0 rest

def chunk (counter : Nat) (bytes : List UInt8) : Compression :=
  chunkTail (UInt64.ofNat counter) initialWords chunkStart
    (parts blockBytes (chunkBytes / blockBytes) bytes)

/-- The compression that joins two subtrees. -/
def join (left right : Compression) : Compression :=
  ⟨initialWords, left.words ++ right.words, 0, UInt32.ofNat blockBytes, parent⟩

/-- Chunks on the left of a tree of `n`: the largest power of two below `n`. -/
def leftCount (n : Nat) : Nat := Nat.pow 2 (n - 1).log2

/-- The root of the tree over some chunks; the fuel bounds its depth. -/
def tree : Nat → List Compression → Compression
  | _, [] => chunk 0 []
  | _, [c] => c
  | 0, c :: _ => c
  | fuel + 1, chunks =>
    let left := leftCount chunks.length
    join (tree fuel (chunks.take left)) (tree fuel (chunks.drop left))

def hexDigit (n : Nat) : Char := if n < 10 then Char.ofNat (48 + n) else Char.ofNat (87 + n)

/-- A word's bytes, the low one first, two hexadecimal digits each. -/
def hexWord (w : UInt32) : List Char :=
  ([0, 8, 16, 24] : List UInt32).flatMap fun shift =>
    let byte := ((w >>> shift) &&& 255).toNat
    [hexDigit (byte / 16), hexDigit (byte % 16)]

/-- The digest of a byte string, in hexadecimal. -/
def ofBytes (bytes : ByteArray) : String :=
  let chunks := parts chunkBytes (bytes.size / chunkBytes + 1) bytes.toList
  let top := tree chunks.length (chunks.mapIdx chunk)
  String.ofList ({ top with flags := top.flags ||| root }.words.flatMap hexWord)

end PassTuner.Digest
