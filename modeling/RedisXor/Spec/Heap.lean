import RedisXor.Lib.Ownership
import RedisXor.Spec.Xor

/-! The blocks behind the objects of `src/tools` and `src/xor.c`: which are
allocated, which cells each function uses and which blocks it frees. What an
object holds is computed by the definitions without blocks; only pointers and
indices are followed here. -/

namespace RedisXor

open Ownership

/-! `tools/stack.c` -/

instance : HasArray Stack := ⟨fun stack => stack.data.length⟩

def stackCreateH (capacity : ℕ) : HeapM (Obj Stack) := Obj.create capacity (stackCreate capacity)

def stackPushH (stack : Obj Stack) (pair : Pair) : HeapM (Obj Stack) :=
  stack.array stack.val.head 1 fun s => { stack with val := stackPush s pair }

def stackPopH (stack : Obj Stack) : HeapM (Pair × Obj Stack) :=
  stack.array (stack.val.head - 1) 1 fun s =>
    ((stackPop s).1, { stack with val := (stackPop s).2 })

def stackCleanH (stack : Obj Stack) : HeapM (Obj Stack) :=
  stack.fields fun s => { stack with val := stackClean s }

def stackFreeH (stack : Obj Stack) : HeapM Unit := stack.destroy

/-! `tools/queue.c` -/

instance : HasArray Queue := ⟨fun q => q.data.length⟩

def queueCreateH (capacity : ℕ) : HeapM (Obj Queue) := Obj.create capacity (queueCreate capacity)

/-- The loop that moves the elements to a new block. -/
def queueCopyH (q : Obj Queue) (newData size : ℕ) : HeapM PUnit :=
  (List.range size).forM fun i => do
    access q.data (wrap32 (q.val.first + i) % q.val.capacity) 1
    access newData i 1

def queueAddH (mem : Memory) (q : Obj Queue) (object : ℕ) : HeapM (Obj Queue) := do
  access q.ptr 0 1
  if wrap32 (q.val.last + 1) % q.val.capacity = q.val.first then
    let grown := queueGrow mem q.val
    let newData ← alloc grown.capacity
    queueCopyH q newData grown.last
    free q.data
    access newData grown.last 1
    return { ptr := q.ptr, data := newData, val := queueAdd mem q.val object }
  else
    access q.data q.val.last 1
    return { q with val := queueAdd mem q.val object }

def queueIsEmptyH (q : Obj Queue) : HeapM Bool := q.fields queueIsEmpty

def queueGetH (q : Obj Queue) : HeapM (ℕ × Obj Queue) :=
  q.array q.val.first 1 fun v => ((queueGet v).1, { q with val := (queueGet v).2 })

def queueCleanH (q : Obj Queue) : HeapM (Obj Queue) :=
  q.fields fun v => { q with val := queueClean v }

def queueFreeH (q : Obj Queue) : HeapM Unit := q.destroy

/-! `tools/bucket.c` and `tools/bucket.h` -/

structure BucketsObj where
  ptr : ℕ
  xSum : ℕ
  counts : ℕ
  val : Buckets

def bucketsCreateH (capacity : ℕ) : HeapM BucketsObj := do
  let ptr ← alloc 1
  let xSum ← alloc capacity
  let counts ← alloc capacity
  return { ptr := ptr, xSum := xSum, counts := counts, val := bucketsCreate capacity }

def bucketGetSingleValueH (b : BucketsObj) (idx : ℕ) : HeapM ℕ := do
  access b.ptr 0 1
  access b.xSum idx 1
  return bucketGetSingleValue b.val idx

def bucketGetCountH (b : BucketsObj) (idx : ℕ) : HeapM ℕ := do
  access b.ptr 0 1
  access b.counts idx 1
  return bucketGetCount b.val idx

/-- A use of `n` cells of both arrays. -/
def BucketsObj.update (b : BucketsObj) (i n : ℕ) (f : Buckets → Buckets) : HeapM BucketsObj := do
  access b.ptr 0 1
  access b.xSum i n
  access b.counts i n
  return { b with val := f b.val }

def bucketPushH (b : BucketsObj) (idx keyIndex : ℕ) : HeapM BucketsObj :=
  b.update idx 1 fun v => bucketPush v idx keyIndex

def bucketRemoveH (b : BucketsObj) (idx keyIndex : ℕ) : HeapM BucketsObj :=
  b.update idx 1 fun v => bucketRemove v idx keyIndex

def bucketsClearH (b : BucketsObj) : HeapM BucketsObj := b.update 0 b.val.capacity bucketsClear

def bucketsFreeH (b : BucketsObj) : HeapM Unit := do
  access b.ptr 0 1
  free b.xSum
  free b.counts
  free b.ptr

/-! Peeling -/

/-- The array `hashes`, which the caller owns. -/
structure HashArray where
  ptr : ℕ
  val : List UInt64

def readHashH (mem : Memory) (hashes : HashArray) (i : ℕ) : HeapM UInt64 := do
  access hashes.ptr i 1
  return readHash mem hashes.val i

structure MapObj where
  stack : Obj Stack
  Q : Obj Queue
  B : BucketsObj

def pushKeyH (mem : Memory) (hashes : HashArray) (segmentSize seed : ℕ) (B : BucketsObj) (i : ℕ) :
    HeapM BucketsObj := do
  let hash ← readHashH mem hashes i
  let h := hashTransformNoFingerprint hash segmentSize seed
  let B ← bucketPushH B h.h0 (wrap32 i)
  let B ← bucketPushH B h.h1 (wrap32 i)
  bucketPushH B h.h2 (wrap32 i)

def enqueueSingleH (mem : Memory) (B : BucketsObj) (Q : Obj Queue) (idx : ℕ) :
    HeapM (Obj Queue) := do
  let count ← bucketGetCountH B idx
  if count = 1 then queueAddH mem Q idx else return Q

def peelBucketH (mem : Memory) (x : ℕ) (QB : Obj Queue × BucketsObj) (idx : ℕ) :
    HeapM (Obj Queue × BucketsObj) := do
  let B ← bucketRemoveH QB.2 idx x
  let Q ← enqueueSingleH mem B QB.1 idx
  return (Q, B)

def peelBodyH (mem : Memory) (hashes : HashArray) (segmentSize seed : ℕ) (st : MapObj) :
    HeapM MapObj := do
  let (idx, Q) ← queueGetH st.Q
  let count ← bucketGetCountH st.B idx
  if count = 1 then
    let x ← bucketGetSingleValueH st.B idx
    let stack ← stackPushH st.stack (pairOf x (idx / segmentSize % 2 ^ 8))
    let hash ← readHashH mem hashes x
    let h := hashTransformNoFingerprint hash segmentSize seed
    let QB ← peelBucketH mem x (Q, st.B) h.h0
    let QB ← peelBucketH mem x QB h.h1
    let QB ← peelBucketH mem x QB h.h2
    return { stack := stack, Q := QB.1, B := QB.2 }
  else return { st with Q := Q }

def peelLoopH (mem : Memory) (hashes : HashArray) (segmentSize seed fuel : ℕ) (st : MapObj) :
    HeapM (Option MapObj) :=
  whileFuelM (fun st => do
      let isEmpty ← queueIsEmptyH st.Q
      return !isEmpty)
    (peelBodyH mem hashes segmentSize seed) fuel st

def mapH (mem : Memory) (hashes : HashArray) (segmentSize seed : ℕ) (st : MapObj) :
    HeapM (Option (Bool × MapObj)) := do
  let Q ← queueCleanH st.Q
  let stack ← stackCleanH st.stack
  let B ← bucketsClearH st.B
  let B ← (List.range hashes.val.length).foldlM (pushKeyH mem hashes segmentSize seed) B
  let Q ← (List.range (wrap32 (segmentSize * 3))).foldlM (enqueueSingleH mem B) Q
  let st ← peelLoopH mem hashes segmentSize seed (3 * segmentSize + 1) ⟨stack, Q, B⟩
  match st with
  | none => return none
  | some st => do
    let head ← st.stack.fields (·.head)
    return some (head == hashes.val.length, st)

/-! Assignment -/

instance : HasArray XorFilter := ⟨fun filter => filter.fingerprints.length⟩

/-- The bytes of the table behind the cell `idx`, which `fp_get` reads and
`fp_set` reads or writes. -/
def fpCellH (filter : Obj XorFilter) (idx : ℕ) : HeapM Unit := do
  let fpSize ← filter.fields (·.fpSize)
  if fpSize = FP4 then access filter.data (idx >>> 1) 1
  else if fpSize = FP8 then access filter.data idx 1
  else if fpSize = FP16 then access filter.data (2 * idx) 2
  else if fpSize = FP32 then access filter.data (4 * idx) 4
  else return ()

def fpGetH (filter : Obj XorFilter) (idx : ℕ) : HeapM UInt32 := do
  fpCellH filter idx
  return fpGet filter.val idx

def fpSetH (filter : Obj XorFilter) (idx : ℕ) (value : UInt32) : HeapM (Obj XorFilter) := do
  fpCellH filter idx
  return { filter with val := fpSet filter.val idx value }

def assignStepH (mem : Memory) (hashes : HashArray) (segmentSize seed : ℕ)
    (sf : Obj Stack × Obj XorFilter) : HeapM (Obj Stack × Obj XorFilter) := do
  let fpBits ← sf.2.fields (·.fpSize.toNat)
  let (pair, stack) ← stackPopH sf.1
  let hash ← readHashH mem hashes pair.x.toNat
  let h := hashTransform hash segmentSize seed fpBits
  let i := if pair.slot = 0 then h.h0 else if pair.slot = 1 then h.h1 else h.h2
  let filter ← fpSetH sf.2 i 0
  let fp0 ← fpGetH filter h.h0
  let fp1 ← fpGetH filter h.h1
  let fp2 ← fpGetH filter h.h2
  let filter ← fpSetH filter i (h.fingerprint ^^^ fp0 ^^^ fp1 ^^^ fp2)
  return (stack, filter)

/-- The stack and the filter it leaves. -/
def assignH (mem : Memory) (hashes : HashArray) (segmentSize seed : ℕ) (stack : Obj Stack)
    (filter : Obj XorFilter) : HeapM (Obj Stack × Obj XorFilter) := do
  let head ← stack.fields (·.head)
  iterateM (assignStepH mem hashes segmentSize seed) head (stack, filter)

/-! Build, lookup and release -/

/-- `XorFilter_Create`: the struct, with NULL for its table. -/
def xorFilterCreateH : HeapM ℕ := alloc 1

/-- The seed it stops at, if any, and the objects `map` has left. -/
def seedLoopH (mem : Memory) (hashes : HashArray) (segmentSize : ℕ) :
    ℕ → ℕ → MapObj → HeapM (Option (Option ℕ × MapObj))
  | 0, _, st => return some (none, st)
  | tries + 1, seed, st => do
    match ← mapH mem hashes segmentSize seed st with
    | none => return none
    | some (true, st) => return some (some seed, st)
    | some (false, st) => seedLoopH mem hashes segmentSize tries (seed + 1) st

/-- The part of `xor_build` after a seed was found. -/
def buildFilterH (mem : Memory) (hashes : HashArray) (fpSize : FingerprintSize)
    (segmentSize seed filter : ℕ) (st : MapObj) : HeapM (Obj XorFilter) := do
  let totalBuckets := wrap32 (segmentSize * 3)
  bucketsFreeH st.B
  let reallocations ← st.Q.fields (·.reallocations)
  queueFreeH st.Q
  let bytesNeeded := fpBytes fpSize totalBuckets
  let fingerprints ← alloc bytesNeeded
  access filter 0 1
  let sf ← assignH mem hashes segmentSize seed st.stack
    { ptr := filter
      data := fingerprints
      val :=
        { fingerprints := List.replicate bytesNeeded 0
          segmentSize := UInt32.ofNat segmentSize
          seed := UInt32.ofNat seed
          fpSize := fpSize
          reallocations := UInt32.ofNat reallocations } }
  stackFreeH sf.1
  return sf.2

/-- The code after the label `cleanup`; the table is NULL there. -/
def cleanupH (filter : ℕ) (st : MapObj) : HeapM Unit := do
  free filter
  stackFreeH st.stack
  bucketsFreeH st.B
  queueFreeH st.Q

def xorBuildH (mem : Memory) (hashes : HashArray) (fpSize : FingerprintSize) :
    HeapM (Option (Option (Obj XorFilter))) := do
  let segmentSize := buildSegmentSize hashes.val.length
  let totalBuckets := wrap32 (segmentSize * 3)
  let filter ← xorFilterCreateH
  let stack ← stackCreateH hashes.val.length
  let B ← bucketsCreateH totalBuckets
  let Q ← queueCreateH (buildQueueCapacity totalBuckets)
  match ← seedLoopH mem hashes segmentSize 101 0 ⟨stack, Q, B⟩ with
  | none => return none
  | some (some seed, st) => do
    let filter ← buildFilterH mem hashes fpSize segmentSize seed filter st
    return some (some filter)
  | some (none, st) => do
    cleanupH filter st
    return some none

/-- A division by zero is a fault. -/
def xorCheckH (hashBuild : List UInt8 → UInt64) (filter : Obj XorFilter) (item : List UInt8) :
    HeapM Bool := do
  let f ← filter.fields id
  if f.segmentSize = 0 then fault
  else
    let h := hashTransform (hashBuild item) f.segmentSize.toNat f.seed.toNat f.fpSize.toNat
    let fp0 ← fpGetH filter h.h0
    let fp1 ← fpGetH filter h.h1
    let fp2 ← fpGetH filter h.h2
    return (fp0 ^^^ fp1 ^^^ fp2) == h.fingerprint

def xorFreeH (filter : Obj XorFilter) : HeapM Unit := filter.destroy

/-- `loadStringBuffer` is the function of Redis, which returns a string in a block
of its own; `xor_load` does not free it. -/
def xorLoadH (loadStringBuffer : List UInt8 → HeapM ℕ) (rdb : List RdbValue) (encver : ℤ) :
    HeapM (Option (Option (Obj XorFilter))) := do
  match xorLoad rdb encver with
  | none => return none
  | some none => return some none
  | some (some f) => do
    let loadedLen := f.fingerprints.length
    let filter ← alloc 1
    access filter 0 1
    let rawData ← loadStringBuffer f.fingerprints
    let fingerprints ← alloc loadedLen
    access rawData 0 loadedLen
    access fingerprints 0 loadedLen
    return some (some { ptr := filter, data := fingerprints, val := f })

end RedisXor
