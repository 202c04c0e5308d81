import RedisXor.Spec.Xor

/-! The vendored `src/murmur3.c`, as far as `Hash_Build` uses it: the 128-bit
variant for 64-bit targets. A `key` of `len` bytes is a byte list; `len` is
not negative. -/

namespace RedisXor

open LittleEndian

def rotl64 (x r : UInt64) : UInt64 := (x <<< r) ||| (x >>> (64 - r))

def fmix64 (k : UInt64) : UInt64 :=
  let k := (k ^^^ (k >>> 33)) * 0xff51afd7ed558ccd
  let k := (k ^^^ (k >>> 33)) * 0xc4ceb9fe1a85ec53
  k ^^^ (k >>> 33)

def murmurC1 : UInt64 := 0x87c37b91114253d5
def murmurC2 : UInt64 := 0x4cf5ad432745937f

/-- The three assignments to `k1` before it enters `h1`. -/
def mixK1 (k1 : UInt64) : UInt64 := rotl64 (k1 * murmurC1) 31 * murmurC2

def mixK2 (k2 : UInt64) : UInt64 := rotl64 (k2 * murmurC2) 33 * murmurC1

/-- One round of the body, on the pair `(h1, h2)`. -/
def murmurBlock (h : UInt64 × UInt64) (k1 k2 : UInt64) : UInt64 × UInt64 :=
  let h1 := (rotl64 (h.1 ^^^ mixK1 k1) 27 + h.2) * 5 + 0x52dce729
  let h2 := (rotl64 (h.2 ^^^ mixK2 k2) 31 + h1) * 5 + 0x38495ab5
  (h1, h2)

def murmurBody (key : List UInt8) (h : UInt64 × UInt64) : UInt64 × UInt64 :=
  (List.range (key.length / 16)).foldl (fun h i =>
    murmurBlock h (UInt64.ofNat (readLE 8 key (16 * i)))
      (UInt64.ofNat (readLE 8 key (16 * i + 8)))) h

/-- The cases `hi`, `hi - 1`, .., `lo + 1` of the `switch`, falling through:
byte `j` of the tail is shifted to place `j - lo`. -/
def tailWord (tail : List UInt8) (lo hi : ℕ) : UInt64 :=
  (List.range (hi - lo)).foldr (fun j k =>
    k ^^^ ((tail.getD (lo + j) 0).toUInt64 <<< UInt64.ofNat (8 * j))) 0

def murmurTail (key : List UInt8) (h : UInt64 × UInt64) : UInt64 × UInt64 :=
  let tail := key.drop (key.length / 16 * 16)
  let rest := key.length % 16
  let h2 := if 9 ≤ rest then h.2 ^^^ mixK2 (tailWord tail 8 rest) else h.2
  let h1 := if 1 ≤ rest then h.1 ^^^ mixK1 (tailWord tail 0 (min rest 8)) else h.1
  (h1, h2)

def murmurFinalize (len : ℕ) (h : UInt64 × UInt64) : UInt64 × UInt64 :=
  let h1 := h.1 ^^^ UInt64.ofNat len
  let h2 := h.2 ^^^ UInt64.ofNat len
  let h1 := h1 + h2
  let h2 := h2 + h1
  let h1 := fmix64 h1
  let h2 := fmix64 h2
  let h1 := h1 + h2
  (h1, h2 + h1)

def murmurHash3X64128 (key : List UInt8) (seed : UInt64) : UInt64 × UInt64 :=
  murmurFinalize key.length (murmurTail key (murmurBody key (seed, seed)))

/-- `Hash_Build` of `tools/hashes.c`. -/
def hashBuild (key : List UInt8) : UInt64 := (murmurHash3X64128 key 42).1

end RedisXor
