import RedisXor.Lib.LittleEndian
import RedisXor.Lib.While
import RedisXor.Spec.Tools

/-! The filter of `src/xor.h` and `src/xor.c`: the packed fingerprint table,
peeling (`map`), assignment, build, lookup and the RDB callbacks. Allocation
does not fail, as `RedisModule_Alloc` does not return on failure. -/

namespace RedisXor

open LittleEndian While

/-- A C enum: its objects can hold any 32-bit pattern, the enumerators are
four of them. -/
abbrev FingerprintSize := UInt32

def FP4 : FingerprintSize := 4
def FP8 : FingerprintSize := 8
def FP16 : FingerprintSize := 16
def FP32 : FingerprintSize := 32

structure XorFilter where
  fingerprints : List UInt8
  segmentSize : UInt32
  seed : UInt32
  fpSize : FingerprintSize
  reallocations : UInt32
  deriving DecidableEq, Repr

/-! The fingerprint table -/

/-- A byte outside the table reads as zero here: `fpRead` is the access that can
fail. -/
def fpGet (filter : XorFilter) (idx : ℕ) : UInt32 :=
  if filter.fpSize = FP4 then
    let byte : UInt8 := filter.fingerprints.getD (idx >>> 1) 0
    if (idx &&& 1) = 1 then (byte >>> 4).toUInt32 else (byte &&& 0x0F).toUInt32
  else if filter.fpSize = FP8 then UInt32.ofNat (readLE 1 filter.fingerprints idx)
  else if filter.fpSize = FP16 then UInt32.ofNat (readLE 2 filter.fingerprints (2 * idx))
  else if filter.fpSize = FP32 then UInt32.ofNat (readLE 4 filter.fingerprints (4 * idx))
  else 0

/-- The bytes `fp_get` reads for `idx` are bytes of the table; for a width it does
not know it reads none. -/
def ReadsInside (filter : XorFilter) (idx : ℕ) : Prop :=
  if filter.fpSize = FP4 then idx >>> 1 < filter.fingerprints.length
  else if filter.fpSize = FP8 then idx < filter.fingerprints.length
  else if filter.fpSize = FP16 then 2 * idx + 2 ≤ filter.fingerprints.length
  else if filter.fpSize = FP32 then 4 * idx + 4 ≤ filter.fingerprints.length
  else True

instance (filter : XorFilter) (idx : ℕ) : Decidable (ReadsInside filter idx) := by
  unfold ReadsInside
  infer_instance

/-- `fp_get`, or `none` where it leaves the table and C says nothing. -/
def fpRead (filter : XorFilter) (idx : ℕ) : Option UInt32 :=
  if ReadsInside filter idx then some (fpGet filter idx) else none

def fpSet (filter : XorFilter) (idx : ℕ) (value : UInt32) : XorFilter :=
  { filter with
    fingerprints :=
      if filter.fpSize = FP4 then
        let byte : UInt8 := filter.fingerprints.getD (idx >>> 1) 0
        let val4 : UInt8 := (value &&& 0x0F).toUInt8
        if (idx &&& 1) = 1 then
          filter.fingerprints.set (idx >>> 1) ((byte &&& 0x0F) ||| (val4 <<< (4 : UInt8)))
        else filter.fingerprints.set (idx >>> 1) ((byte &&& 0xF0) ||| val4)
      else if filter.fpSize = FP8 then writeLE 1 filter.fingerprints idx value.toNat
      else if filter.fpSize = FP16 then writeLE 2 filter.fingerprints (2 * idx) value.toNat
      else if filter.fpSize = FP32 then writeLE 4 filter.fingerprints (4 * idx) value.toNat
      else filter.fingerprints }

/-- `size_t` arithmetic; no caller comes near its bound. -/
def fpBytes (fpSize : FingerprintSize) (elemCount : ℕ) : ℕ :=
  if fpSize = FP4 then (elemCount + 1) / 2 else elemCount * (fpSize / 8).toNat

/-! Peeling -/

/-- The read `hashes[i]`, which nothing keeps inside the array. -/
def readHash (mem : Memory) (hashes : List UInt64) (i : ℕ) : UInt64 :=
  hashes.getD i (mem.pastHashes i)

/-- The objects `map` works on; `xor_build` reuses them from seed to seed. -/
structure MapState where
  stack : Stack
  Q : Queue
  B : Buckets
  deriving DecidableEq, Repr

/-- The two `memset` calls. -/
def bucketsClear (B : Buckets) : Buckets :=
  { B with xSum := List.replicate B.capacity 0, counts := List.replicate B.capacity 0 }

def pushKey (pos : ℕ → HashNoFP) (B : Buckets) (i : ℕ) : Buckets :=
  let h := pos i
  let B := bucketPush B h.h0 (wrap32 i)
  let B := bucketPush B h.h1 (wrap32 i)
  bucketPush B h.h2 (wrap32 i)

/-- The first `for` loop of `map`. -/
def fillBuckets (pos : ℕ → HashNoFP) (count : ℕ) (B : Buckets) : Buckets :=
  (List.range count).foldl (pushKey pos) B

def enqueueSingle (mem : Memory) (B : Buckets) (Q : Queue) (idx : ℕ) : Queue :=
  if bucketGetCount B idx = 1 then queueAdd mem Q idx else Q

/-- The second `for` loop of `map`. -/
def fillQueue (mem : Memory) (segmentSize : ℕ) (B : Buckets) (Q : Queue) : Queue :=
  (List.range (wrap32 (segmentSize * 3))).foldl (enqueueSingle mem B) Q

/-- `Bucket_Remove` and the test that follows it, for one of the three slots. -/
def peelBucket (mem : Memory) (x : ℕ) (QB : Queue × Buckets) (idx : ℕ) : Queue × Buckets :=
  let B := bucketRemove QB.2 idx x
  (enqueueSingle mem B QB.1 idx, B)

/-- The body of the `while` loop. -/
def peelBody (mem : Memory) (pos : ℕ → HashNoFP) (segmentSize : ℕ) (st : MapState) : MapState :=
  let (idx, Q) := queueGet st.Q
  if bucketGetCount st.B idx = 1 then
    let x := bucketGetSingleValue st.B idx
    let stack := stackPush st.stack (pairOf x (idx / segmentSize % 2 ^ 8))
    let h := pos x
    let QB := peelBucket mem x (Q, st.B) h.h0
    let QB := peelBucket mem x QB h.h1
    let QB := peelBucket mem x QB h.h2
    { stack := stack, Q := QB.1, B := QB.2 }
  else { st with Q := Q }

/-- `while (!Queue_Is_Empty(Q))`, or `none` when `fuel` tests of the condition
were not enough. -/
def peelLoop (mem : Memory) (pos : ℕ → HashNoFP) (segmentSize fuel : ℕ) (st : MapState) :
    Option MapState :=
  whileFuel (fun st => !queueIsEmpty st.Q) (peelBody mem pos segmentSize) fuel st

/-- The state in which `map` enters its `while` loop. -/
def mapInit (mem : Memory) (pos : ℕ → HashNoFP) (count segmentSize : ℕ) (st : MapState) :
    MapState :=
  let B := fillBuckets pos count (bucketsClear st.B)
  { stack := stackClean st.stack, Q := fillQueue mem segmentSize B (queueClean st.Q), B := B }

/-- `map` on the slots `pos` gives the keys. The loop never tests its condition
more than `3 * segment_size + 1` times, so `none` is no outcome of the code. -/
def mapSlots (mem : Memory) (pos : ℕ → HashNoFP) (count segmentSize : ℕ) (st : MapState) :
    Option (Bool × MapState) :=
  (peelLoop mem pos segmentSize (3 * segmentSize + 1) (mapInit mem pos count segmentSize st)).map
    fun st => (st.stack.head == count, st)

/-- The slots of the key `hashes[x]`. -/
def keySlots (mem : Memory) (hashes : List UInt64) (segmentSize seed x : ℕ) : HashNoFP :=
  hashTransformNoFingerprint (readHash mem hashes x) segmentSize seed

/-- `map`; `hashes` is never NULL, it comes from `RedisModule_Alloc`. -/
def map (mem : Memory) (hashes : List UInt64) (segmentSize seed : ℕ) (st : MapState) :
    Option (Bool × MapState) :=
  mapSlots mem (keySlots mem hashes segmentSize seed) hashes.length segmentSize st

/-! Assignment -/

def assignStep (mem : Memory) (hashes : List UInt64) (segmentSize seed : ℕ)
    (sf : Stack × XorFilter) : Stack × XorFilter :=
  let (pair, stack) := stackPop sf.1
  let h := hashTransform (readHash mem hashes pair.x.toNat) segmentSize seed sf.2.fpSize.toNat
  let i := if pair.slot = 0 then h.h0 else if pair.slot = 1 then h.h1 else h.h2
  let filter := fpSet sf.2 i 0
  let value := h.fingerprint ^^^ fpGet filter h.h0 ^^^ fpGet filter h.h1 ^^^ fpGet filter h.h2
  (stack, fpSet filter i value)

/-- Every round lowers `head` by one, so the `while` loop makes `head` rounds. -/
def assign (mem : Memory) (hashes : List UInt64) (segmentSize seed : ℕ)
    (stack : Stack) (filter : XorFilter) : XorFilter :=
  ((assignStep mem hashes segmentSize seed)^[stack.head] (stack, filter)).2

/-! Build and lookup -/

/-- `ceil(1.23 * (double) count / 3.0)`, the exact ceiling of `41 * count / 100`. -/
def buildSegmentSize (count : ℕ) : ℕ := wrap32 ((41 * count + 99) / 100)

/-- `(uint32_t) (total_buckets * 0.4)`. -/
def buildQueueCapacity (totalBuckets : ℕ) : ℕ := 2 * totalBuckets / 5

/-- The objects `xor_build` creates for `map`. -/
def buildState (count : ℕ) : MapState :=
  let totalBuckets := wrap32 (buildSegmentSize count * 3)
  { stack := stackCreate count
    Q := queueCreate (buildQueueCapacity totalBuckets)
    B := bucketsCreate totalBuckets }

/-- The seed loop, with the number of seeds still to try. The result is the
seed `map` succeeded with and the state it left, or `none` after seed 100. -/
def seedLoop (mem : Memory) (hashes : List UInt64) (segmentSize : ℕ) :
    ℕ → ℕ → MapState → Option (Option (ℕ × MapState))
  | 0, _, _ => some none
  | tries + 1, seed, st =>
    match map mem hashes segmentSize seed st with
    | none => none
    | some (true, st) => some (some (seed, st))
    | some (false, st) => seedLoop mem hashes segmentSize tries (seed + 1) st

/-- The part of `xor_build` after a seed was found. -/
def buildFilter (mem : Memory) (hashes : List UInt64) (fpSize : FingerprintSize)
    (segmentSize seed : ℕ) (st : MapState) : XorFilter :=
  let totalBuckets := wrap32 (segmentSize * 3)
  assign mem hashes segmentSize seed st.stack
    { fingerprints := List.replicate (fpBytes fpSize totalBuckets) 0
      segmentSize := UInt32.ofNat segmentSize
      seed := UInt32.ofNat seed
      fpSize := fpSize
      reallocations := UInt32.ofNat st.Q.reallocations }

/-- The inner option is the pointer `xor_build` returns, NULL or a filter. -/
def xorBuild (mem : Memory) (hashes : List UInt64) (fpSize : FingerprintSize) :
    Option (Option XorFilter) :=
  let segmentSize := buildSegmentSize hashes.length
  (seedLoop mem hashes segmentSize 101 0 (buildState hashes.length)).map fun found =>
    found.map fun (seed, st) => buildFilter mem hashes fpSize segmentSize seed st

/-- `hashBuild` is `Hash_Build` of `tools/hashes.c`. The result is `none` where
the remainders are taken by zero or a slot lies outside the table: C leaves these
lookups undefined. -/
def xorCheck (hashBuild : List UInt8 → UInt64) (filter : XorFilter) (item : List UInt8) :
    Option Bool :=
  if filter.segmentSize = 0 then none
  else do
    let h := hashTransform (hashBuild item) filter.segmentSize.toNat filter.seed.toNat
      filter.fpSize.toNat
    let fp0 ← fpRead filter h.h0
    let fp1 ← fpRead filter h.h1
    let fp2 ← fpRead filter h.h2
    return (fp0 ^^^ fp1 ^^^ fp2) == h.fingerprint

/-! RDB callbacks -/

/-- One item of an RDB stream, as `RedisModule_Save*` writes it. -/
inductive RdbValue where
  | unsigned (value : UInt64)
  | stringBuffer (str : List UInt8)
  deriving DecidableEq, Repr

/-- Redis stops on a stream that does not continue with an integer. -/
def loadUnsigned : List RdbValue → Option (UInt64 × List RdbValue)
  | .unsigned value :: rdb => some (value, rdb)
  | _ => none

def loadStringBuffer : List RdbValue → Option (List UInt8 × List RdbValue)
  | .stringBuffer str :: rdb => some (str, rdb)
  | _ => none

/-- `len` bytes read from the start of a buffer. -/
def readBuffer (mem : Memory) (buf : List UInt8) (len : ℕ) : List UInt8 :=
  (List.range len).map fun i => buf.getD i (mem.pastBytes i)

/-- The inner option is the pointer `xor_load` returns; the outer `none` is a
stream that Redis itself refuses. Each 64-bit value is cut to its field. -/
def xorLoad (rdb : List RdbValue) (encver : ℤ) : Option (Option XorFilter) :=
  if 0 < encver then some none
  else do
    let (seed, rdb) ← loadUnsigned rdb
    let (segmentSize, rdb) ← loadUnsigned rdb
    let (fpSize, rdb) ← loadUnsigned rdb
    let (reallocations, rdb) ← loadUnsigned rdb
    let (rawData, _) ← loadStringBuffer rdb
    return some
      { fingerprints := rawData
        segmentSize := segmentSize.toUInt32
        seed := seed.toUInt32
        fpSize := fpSize.toUInt32
        reallocations := reallocations.toUInt32 }

def xorSave (mem : Memory) (filter : XorFilter) : List RdbValue :=
  let dataSize := fpBytes filter.fpSize (filter.segmentSize.toNat * 3)
  [.unsigned filter.seed.toUInt64, .unsigned filter.segmentSize.toUInt64,
    .unsigned filter.fpSize.toUInt64, .unsigned filter.reallocations.toUInt64,
    .stringBuffer (readBuffer mem filter.fingerprints dataSize)]

/-- `sizeof(XorFilter)` on a 64-bit target: one pointer and four words. -/
def xorFilterSizeof : ℕ := 24

/-- A NULL argument costs nothing. -/
def xorMemUsage : Option XorFilter → ℕ
  | none => 0
  | some filter => xorFilterSizeof + fpBytes filter.fpSize (filter.segmentSize.toNat * 3)

end RedisXor
