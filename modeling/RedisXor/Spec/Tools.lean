import Mathlib.Algebra.Group.Nat.Defs
import Mathlib.Data.List.Basic

/-! The helpers of `src/tools`: the hash mixer, the peeling stack, the ring
queue and the bucket arrays. An array is a list, a `uint32_t` or `size_t` a
natural number that is reduced where the C operation can wrap, and a write
past the end of an array is lost. -/

namespace RedisXor

/-- Reduction of a result stored in a `uint32_t`. -/
def wrap32 (n : ℕ) : ℕ := n % 2 ^ 32

/-- What the program can see but does not choose: the words that lie past the
end of the `hashes` array, the bytes past the end of a fingerprint buffer, and
the contents of freshly allocated queue cells. -/
structure Memory where
  pastHashes : ℕ → UInt64
  pastBytes : ℕ → UInt8
  fresh : ℕ → ℕ
  deriving Inhabited

/-! `tools/hashes.c` -/

/-- SplitMix64 finalizer. -/
def mix (h : UInt64) : UInt64 :=
  let h := (h ^^^ (h >>> 30)) * 0xbf58476d1ce4e5b9
  let h := (h ^^^ (h >>> 27)) * 0x94d049bb133111eb
  h ^^^ (h >>> 31)

structure Hash where
  fingerprint : UInt32
  h0 : ℕ
  h1 : ℕ
  h2 : ℕ
  deriving DecidableEq, Repr

structure HashNoFP where
  h0 : ℕ
  h1 : ℕ
  h2 : ℕ
  deriving DecidableEq, Repr

/-- `segmentSize` is a `size_t` here: the sums are taken in 64 bits and only
their result is cut to `uint32_t`. -/
def hashTransform (oldHash : UInt64) (segmentSize seed fpBits : ℕ) : Hash :=
  let mixedRaw0 := mix (oldHash + UInt64.ofNat seed + 0x9E3779B97F4A7C15)
  let mixedRaw1 := mix (oldHash + UInt64.ofNat seed + 0xBF58476D1CE4E5B9)
  let fpMask : UInt32 :=
    if 32 ≤ fpBits then 0xFFFFFFFF else (1 <<< UInt32.ofNat fpBits) - 1
  let fingerprint := (mixedRaw1 >>> 32).toUInt32 &&& fpMask
  { fingerprint := if fingerprint = 0 then 1 else fingerprint
    h0 := wrap32 (mixedRaw0.toUInt32.toNat % segmentSize)
    h1 := wrap32 ((mixedRaw0 >>> 32).toUInt32.toNat % segmentSize + segmentSize)
    h2 := wrap32 (mixedRaw1.toUInt32.toNat % segmentSize + 2 * segmentSize) }

/-- The second copy of the slot computation, without the fingerprint. -/
def hashTransformNoFingerprint (oldHash : UInt64) (segmentSize seed : ℕ) : HashNoFP :=
  let mixedRaw0 := mix (oldHash + UInt64.ofNat seed + 0x9E3779B97F4A7C15)
  let mixedRaw1 := mix (oldHash + UInt64.ofNat seed + 0xBF58476D1CE4E5B9)
  { h0 := wrap32 (mixedRaw0.toUInt32.toNat % segmentSize)
    h1 := wrap32 ((mixedRaw0 >>> 32).toUInt32.toNat % segmentSize + segmentSize)
    h2 := wrap32 (mixedRaw1.toUInt32.toNat % segmentSize + 2 * segmentSize) }

/-! `tools/pair.h` and `tools/stack.c` -/

/-- Two bit-fields of one word: 30 bits of key index, 2 bits of slot. -/
structure Pair where
  x : BitVec 30
  slot : BitVec 2
  deriving DecidableEq, Repr

/-- The compound literal `(Pair){.x = x, .slot = slot}`. -/
def pairOf (x slot : ℕ) : Pair := ⟨BitVec.ofNat 30 x, BitVec.ofNat 2 slot⟩

structure Stack where
  data : List Pair
  head : ℕ
  capacity : ℕ
  deriving DecidableEq, Repr

def stackCreate (capacity : ℕ) : Stack :=
  { data := List.replicate capacity (pairOf 0 0), head := 0, capacity := capacity }

/-- A push on a full stack, which C leaves undefined, moves the head and loses the
pair. -/
def stackPush (stack : Stack) (pair : Pair) : Stack :=
  { stack with data := stack.data.set stack.head pair, head := stack.head + 1 }

def stackPop (stack : Stack) : Pair × Stack :=
  let stack := { stack with head := stack.head - 1 }
  (stack.data.getD stack.head (pairOf 0 0), stack)

def stackClean (stack : Stack) : Stack := { stack with head := 0 }

/-! `tools/queue.c` -/

structure Queue where
  data : List ℕ
  capacity : ℕ
  last : ℕ
  first : ℕ
  reallocations : ℕ
  deriving DecidableEq, Repr

def queueCreate (capacity : ℕ) : Queue :=
  { data := List.replicate capacity 0, capacity := capacity
    last := 0, first := 0, reallocations := 0 }

/-- The branch of `Queue_Add` that doubles a full ring: the live cells are
copied to the front of the new block, whose other cells are uninitialised. -/
def queueGrow (mem : Memory) (q : Queue) : Queue :=
  let newCap := wrap32 (q.capacity * 2)
  let size := if q.first ≤ q.last then q.last - q.first
    else wrap32 (q.capacity + (2 ^ 32 - q.first) + q.last)
  { data := (List.range newCap).map fun i =>
      if i < size then q.data.getD (wrap32 (q.first + i) % q.capacity) 0 else mem.fresh i
    capacity := newCap, last := size, first := 0
    reallocations := wrap32 (q.reallocations + 1) }

def queueAdd (mem : Memory) (q : Queue) (object : ℕ) : Queue :=
  let newLast := wrap32 (q.last + 1) % q.capacity
  if newLast = q.first then
    let q := queueGrow mem q
    { q with data := q.data.set q.last object, last := wrap32 (q.last + 1) }
  else
    { q with data := q.data.set q.last object, last := newLast }

def queueIsEmpty (q : Queue) : Bool := q.first == q.last

def queueGet (q : Queue) : ℕ × Queue :=
  (q.data.getD q.first 0, { q with first := wrap32 (q.first + 1) % q.capacity })

def queueClean (q : Queue) : Queue := { q with first := 0, last := 0 }

/-! `tools/bucket.c` and `tools/bucket.h` -/

/-- `counts` holds bytes that saturate at 255. -/
structure Buckets where
  xSum : List ℕ
  counts : List ℕ
  capacity : ℕ
  deriving DecidableEq, Repr

def bucketsCreate (capacity : ℕ) : Buckets :=
  { xSum := List.replicate capacity 0, counts := List.replicate capacity 0
    capacity := capacity }

def bucketGetSingleValue (b : Buckets) (idx : ℕ) : ℕ := b.xSum.getD idx 0

def bucketGetCount (b : Buckets) (idx : ℕ) : ℕ := b.counts.getD idx 0

def bucketPush (b : Buckets) (idx keyIndex : ℕ) : Buckets :=
  { b with
    xSum := b.xSum.set idx (bucketGetSingleValue b idx ^^^ keyIndex)
    counts := if bucketGetCount b idx < 255 then
      b.counts.set idx (bucketGetCount b idx + 1) else b.counts }

def bucketRemove (b : Buckets) (idx keyIndex : ℕ) : Buckets :=
  { b with
    xSum := b.xSum.set idx (bucketGetSingleValue b idx ^^^ keyIndex)
    counts := if 0 < bucketGetCount b idx then
      b.counts.set idx (bucketGetCount b idx - 1) else b.counts }

end RedisXor
