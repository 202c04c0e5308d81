import RedisXor.Proofs.Hashes
import RedisXor.Proofs.Lookup
import RedisXor.Spec.Main

/-! What `XOR.LOADCHUNK` accepts, and how far the filters it installs can be
trusted. Its length check is made on a slot count that has been cut to 32 bits,
while `xor_check`, `xor_save` and `xor_mem_usage` work with the segment size
itself. -/

namespace RedisXor

open Arrays LittleEndian

/-- The slot count as `XOR.LOADCHUNK` and `XOR.SCANDUMP` compute it. -/
def slotCount (f : XorFilter) : ℕ := wrap32 (3 * f.segmentSize.toNat)

theorem slotCount_lt (f : XorFilter) : slotCount f < 2 ^ 32 := Nat.mod_lt _ (by decide)

/-- The checks passed, and the filter that is then built. -/
structure Accepted (data : Bytes) (f : XorFilter) : Prop where
  segmentSize_eq : f.segmentSize = UInt32.ofNat (readLE 4 data 0)
  seed_eq : f.seed = UInt32.ofNat (readLE 4 data 4)
  fpSize_eq : f.fpSize = UInt32.ofNat (readLE 4 data 8)
  reallocations_eq : f.reallocations = UInt32.ofNat (readLE 4 data 12)
  fpSize_valid : ValidFp f.fpSize
  length_eq : data.length = 16 + getFingerprintsBytes f.fpSize (slotCount f)
  fingerprints_eq : f.fingerprints = data.drop 16

theorem loadChunk_eq_ok_iff {data : Bytes} {f : XorFilter} :
    loadChunk data = .ok f ↔ Accepted data f := by
  have hvalid (fpSize : FingerprintSize) :
      (fpSize ≠ FP4 ∧ fpSize ≠ FP8 ∧ fpSize ≠ FP16 ∧ fpSize ≠ FP32) ↔ ¬ ValidFp fpSize := by
    simp only [ValidFp, not_or]
  simp only [loadChunk, hvalid]
  constructor
  · intro h
    split_ifs at h with h1 h2 h3
    simp only [not_not] at h2 h3
    obtain rfl := Except.ok.inj h
    refine ⟨rfl, rfl, rfl, rfl, h2, h3, ?_⟩
    exact List.take_of_length_le (by rw [List.length_drop, h3]; omega)
  · intro h
    have hlen := h.length_eq
    have hvalid := h.fpSize_valid
    have hfps := h.fingerprints_eq
    obtain ⟨fps, segmentSize, seed, fpSize, reallocations⟩ := f
    obtain rfl : segmentSize = _ := h.segmentSize_eq
    obtain rfl : seed = _ := h.seed_eq
    obtain rfl : fpSize = _ := h.fpSize_eq
    obtain rfl : reallocations = _ := h.reallocations_eq
    obtain rfl : fps = _ := hfps
    simp only [slotCount] at hlen hvalid
    rw [if_neg (by omega), if_neg (by rwa [not_not]), if_neg (by rwa [not_not])]
    congr 2
    exact List.take_of_length_le (by rw [List.length_drop, hlen]; omega)

/-! Sizes -/

theorem length_readBuffer (mem : Memory) (buf : Bytes) (len : ℕ) :
    (readBuffer mem buf len).length = len := by
  rw [readBuffer, List.length_map, List.length_range]

theorem readBuffer_length (mem : Memory) (buf : Bytes) : readBuffer mem buf buf.length = buf := by
  refine List.ext_getElem (length_readBuffer mem buf _) fun i hi hi' => ?_
  simp only [readBuffer, List.getElem_map, List.getElem_range]
  rw [List.getD_eq_getElem?_getD, List.getElem?_eq_getElem hi', Option.getD_some]

theorem fpSize_div_pos {fpSize : FingerprintSize} (hfp : ValidFp fpSize) (h4 : fpSize ≠ FP4) :
    0 < (fpSize / 8).toNat := by
  obtain ⟨w, hpos, hw⟩ := hfp.fp4_or_word.resolve_left h4
  rw [hw.div_eq]
  exact hpos

/-- The segment sizes whose slot count fits 32 bits, with room for the rounding
of 4-bit tables. -/
def SizeFits (fpSize : FingerprintSize) (segmentSize : ℕ) : Prop :=
  3 * segmentSize < 2 ^ 32 ∧ ¬ (fpSize = FP4 ∧ 3 * segmentSize = 2 ^ 32 - 1)

/-- The two computations of the table size agree on these sizes and no others. -/
theorem getFingerprintsBytes_eq_iff {fpSize : FingerprintSize} (hfp : ValidFp fpSize)
    {segmentSize : ℕ} : getFingerprintsBytes fpSize (wrap32 (3 * segmentSize)) =
      fpBytes fpSize (segmentSize * 3) ↔ SizeFits fpSize segmentSize := by
  simp only [getFingerprintsBytes, fpBytes, SizeFits, wrap32]
  by_cases h4 : fpSize = FP4
  · rw [if_pos h4, if_pos h4]
    simp only [h4, true_and]
    omega
  · rw [if_neg h4, if_neg h4]
    simp only [h4, false_and, not_false_eq_true, and_true]
    rw [Nat.mul_left_inj (fpSize_div_pos hfp h4).ne']
    omega

/-- `xor_save` writes the stored bytes, whatever lies behind them, and
`xor_mem_usage` counts them. -/
structure SavesExactly (f : XorFilter) : Prop where
  agree : getFingerprintsBytes f.fpSize (slotCount f) =
    fpBytes f.fpSize (f.segmentSize.toNat * 3)
  saved : ∀ mem, xorSave mem f =
    [.unsigned f.seed.toUInt64, .unsigned f.segmentSize.toUInt64, .unsigned f.fpSize.toUInt64,
      .unsigned f.reallocations.toUInt64, .stringBuffer f.fingerprints]
  counted : xorMemUsage (some f) = xorFilterSizeof + f.fingerprints.length

theorem Accepted.length_fingerprints {data : Bytes} {f : XorFilter} (h : Accepted data f) :
    f.fingerprints.length = getFingerprintsBytes f.fpSize (slotCount f) := by
  rw [h.fingerprints_eq, List.length_drop, h.length_eq]
  omega

theorem Accepted.segmentSize_toNat {data : Bytes} {f : XorFilter} (h : Accepted data f) :
    f.segmentSize.toNat = readLE 4 data 0 := by
  rw [h.segmentSize_eq]
  exact UInt32.toNat_ofNat_of_lt' (readLE_lt 4 data 0)

theorem savesExactly_of_agree {f : XorFilter}
    (hlen : f.fingerprints.length = getFingerprintsBytes f.fpSize (slotCount f))
    (hagree : getFingerprintsBytes f.fpSize (slotCount f) =
      fpBytes f.fpSize (f.segmentSize.toNat * 3)) : SavesExactly f := by
  rw [hagree] at hlen
  refine ⟨hagree, fun mem => ?_, ?_⟩
  · rw [xorSave, ← hlen, readBuffer_length]
  · rw [xorMemUsage, hlen]

/-! The command -/

theorem xorLoadChunkCommand_ok {redis : Redis} {db db' : Keyspace} {argv : List Bytes}
    (h : xorLoadChunkCommand redis db argv = (.simpleString "OK", db')) :
    ∃ cmd key cursor data f, argv = [cmd, key, cursor, data] ∧
      redis.stringToLongLong cursor = some 0 ∧ loadChunk data = .ok f ∧
      db' = Function.update db key (some (.xorFilter f)) := by
  unfold xorLoadChunkCommand at h
  split at h
  next cmd key cursor data =>
    split_ifs at h with hc
    · cases h
    rw [not_not] at hc
    split at h
    · cases h
    next f hf =>
      exact ⟨cmd, key, cursor, data, f, rfl, hc, hf, (Prod.mk.inj h).2.symm⟩
  · cases h

theorem xorLoadChunkCommand_of_ok {redis : Redis} (db : Keyspace) {cmd key cursor data : Bytes}
    {f : XorFilter} (hc : redis.stringToLongLong cursor = some 0) (h : loadChunk data = .ok f) :
    xorLoadChunkCommand redis db [cmd, key, cursor, data] =
      (.simpleString "OK", Function.update db key (some (.xorFilter f))) := by
  rw [xorLoadChunkCommand, if_neg (not_not.2 hc), h]

/-- A Redis that reads one-digit numbers. -/
def digitRedis : Redis where
  stringToLongLong
    | [d] => if 48 ≤ d ∧ d ≤ 57 then some (d.toNat - 48 : ℕ) else none
    | _ => none
  opensForWriting _ := true

/-- A payload with seed 0 and no reallocations. -/
def payload (segmentSize fpSize : ℕ) (table : Bytes) : Bytes :=
  bytesLE 4 segmentSize ++ bytesLE 4 0 ++ bytesLE 4 fpSize ++ bytesLE 4 0 ++ table

/-- An accepted filter is saved as it is stored exactly when its size fits. -/
theorem loadChunk_saves_exactly_iff {redis : Redis} {db db' : Keyspace}
    {cmd key cursor data : Bytes}
    (h : xorLoadChunkCommand redis db [cmd, key, cursor, data] = (.simpleString "OK", db')) :
    ∃ f, db' key = some (.xorFilter f) ∧
      (SavesExactly f ↔ SizeFits (UInt32.ofNat (readLE 4 data 8)) (readLE 4 data 0)) := by
  obtain ⟨_, _, _, _, f, hargv, -, hload, rfl⟩ := xorLoadChunkCommand_ok h
  simp only [List.cons.injEq, and_true] at hargv
  obtain ⟨-, rfl, -, rfl⟩ := hargv
  refine ⟨f, Function.update_self _ _ _, ?_⟩
  have hacc := loadChunk_eq_ok_iff.1 hload
  rw [← hacc.segmentSize_toNat, ← hacc.fpSize_eq, ← getFingerprintsBytes_eq_iff hacc.fpSize_valid]
  exact ⟨fun hsave => hsave.agree, savesExactly_of_agree hacc.length_fingerprints⟩

/-- One segment of one slot, with 4-bit cells. -/
theorem loadChunk_saves_one_segment :
    ∃ f, (xorLoadChunkCommand digitRedis (fun _ => none) [[], [107], [48], payload 1 4 [7, 1]]).2
        [107] = some (.xorFilter f) ∧ SavesExactly f := by
  obtain ⟨f, hf, hiff⟩ := @loadChunk_saves_exactly_iff digitRedis (fun _ => none) _ [] [107] [48]
    (payload 1 4 [7, 1]) rfl
  exact ⟨f, hf, hiff.2 ⟨by decide +kernel, by decide +kernel⟩⟩

/-- 18 bytes whose segment size makes the cut slot count two: saving them as a
filter reads more than 2^32 bytes. -/
theorem loadChunk_saves_past_end :
    ∃ f, (xorLoadChunkCommand digitRedis (fun _ => none)
        [[], [107], [48], payload 0x55555556 8 [1, 2]]).1 = .simpleString "OK" ∧
      (xorLoadChunkCommand digitRedis (fun _ => none)
        [[], [107], [48], payload 0x55555556 8 [1, 2]]).2 [107] = some (.xorFilter f) ∧
      f.fingerprints.length = 2 ∧ getFingerprintsBytes f.fpSize (slotCount f) = 2 ∧
      fpBytes f.fpSize (f.segmentSize.toNat * 3) = 2 ^ 32 + 2 ∧ ¬ SavesExactly f := by
  refine ⟨⟨[1, 2], 0x55555556, 0, 8, 0⟩, rfl, rfl, rfl, by decide +kernel, by decide +kernel,
    fun h => ?_⟩
  exact absurd h.agree (by decide +kernel)

/-! Lookups -/

section Inside

variable {f : XorFilter}

/-- What a table for `c` slots of the given width can serve. -/
theorem readsInside_iff (hfp : ValidFp f.fpSize) {c : ℕ} (hc : c < 2 ^ 32)
    (hlen : f.fingerprints.length = getFingerprintsBytes f.fpSize c) (idx : ℕ) :
    ReadsInside f idx ↔
      idx < c ∧ ¬ (f.fpSize = FP4 ∧ c = 2 ^ 32 - 1) ∨
        f.fpSize = FP4 ∧ idx = c ∧ c % 2 = 1 ∧ c ≠ 2 ^ 32 - 1 := by
  rw [readsInside_iff_touchedBytes hfp, hlen, getFingerprintsBytes]
  rcases hfp.fp4_or_word with h | ⟨w, hpos, hw⟩
  · rw [h, if_pos rfl]
    change (∀ k ∈ [idx >>> 1], _) ↔ _
    simp only [List.forall_mem_singleton, wrap32, Nat.shiftRight_one, true_and]
    omega
  · rw [if_neg hw.ne_fp4, hw.div_eq, hw.touchedBytes_eq, forall_mem_range' hpos, ← Nat.mul_succ,
      Nat.mul_comm c w, Nat.mul_le_mul_left_iff hpos]
    simp only [hw.ne_fp4, false_and, not_false_eq_true, and_true, or_false, Nat.succ_le_iff]

/-- Some item has any two 32-bit remainders one likes for its first two slots. -/
theorem exists_item_slots (s seed fpBits r0 r1 : ℕ) (h0 : r0 < 2 ^ 32) (h1 : r1 < 2 ^ 32) :
    ∃ item, (hashTransform (hashBuild item) s seed fpBits).h0 = wrap32 (r0 % s) ∧
      (hashTransform (hashBuild item) s seed fpBits).h1 = wrap32 (r1 % s + s) := by
  have hv : (UInt64.ofNat (r0 + r1 * 2 ^ 32)).toNat = r0 + r1 * 2 ^ 32 :=
    UInt64.toNat_ofNat_of_lt' (show r0 + r1 * 2 ^ 32 < 2 ^ 64 by omega)
  refine ⟨hashPreimage (unmix (UInt64.ofNat (r0 + r1 * 2 ^ 32)) - 0x9E3779B97F4A7C15 -
    UInt64.ofNat seed), ?_⟩
  have hmix (v : UInt64) : mix (unmix v - 0x9E3779B97F4A7C15 - UInt64.ofNat seed +
      UInt64.ofNat seed + 0x9E3779B97F4A7C15) = v := by
    rw [UInt64.sub_add_cancel, UInt64.sub_add_cancel, mix_unmix]
  simp only [hashTransform, hashBuild_hashPreimage, hmix]
  have hlow : (UInt64.ofNat (r0 + r1 * 2 ^ 32)).toUInt32.toNat = r0 := by
    rw [UInt64.toNat_toUInt32, hv]
    omega
  have hhigh : (UInt64.ofNat (r0 + r1 * 2 ^ 32) >>> 32).toUInt32.toNat = r1 := by
    rw [UInt64.toNat_toUInt32, UInt64.toNat_shiftRight, hv]
    change (r0 + r1 * 2 ^ 32) >>> 32 % 2 ^ 32 = r1
    rw [Nat.shiftRight_eq_div_pow]
    omega
  rw [hlow, hhigh]
  exact ⟨rfl, rfl⟩

theorem checkSafe_of_sizeFits (hfp : ValidFp f.fpSize)
    (hlen : f.fingerprints.length = getFingerprintsBytes f.fpSize (slotCount f))
    (hpos : 1 ≤ f.segmentSize.toNat) (hfits : SizeFits f.fpSize f.segmentSize.toNat)
    (hash : Bytes → UInt64) (item : Bytes) : CheckSafe hash f item := by
  have hfull := hlen.trans ((getFingerprintsBytes_eq_iff hfp).2 hfits)
  rw [Nat.mul_comm] at hfull
  exact checkSafe_of_length hpos hfull hash item

/-- When the slot count wraps, some item has a slot past the cut count: slot 0
if it wraps twice; slot 1 always if it wraps once, except that for more than
2^31 slots a segment the slot itself may wrap, and an item is chosen for which
it does not. -/
theorem not_checkSafe_of_wrap (hfp : ValidFp f.fpSize)
    (hlen : f.fingerprints.length = getFingerprintsBytes f.fpSize (slotCount f))
    (hwrap : 2 ^ 32 ≤ 3 * f.segmentSize.toNat) :
    ∃ item, ¬ CheckSafe hashBuild f item := by
  have hs := f.segmentSize.toNat_lt
  have hinside := readsInside_iff hfp (slotCount_lt f) hlen
  rcases Nat.lt_or_ge (3 * f.segmentSize.toNat) (2 ^ 33) with h33 | h33
  · have hcount : slotCount f = 3 * f.segmentSize.toNat - 2 ^ 32 := by
      rw [slotCount, wrap32]
      omega
    rcases Nat.lt_or_ge (2 ^ 31) f.segmentSize.toNat with h31 | h31
    · obtain ⟨item, -, hslot⟩ := exists_item_slots f.segmentSize.toNat f.seed.toNat f.fpSize.toNat
        0 (2 ^ 32 - f.segmentSize.toNat - 1) (by omega) (by omega)
      refine ⟨item, fun hsafe => ?_⟩
      have hread := (hinside _).1 hsafe.inside.2.1
      rw [hslot, Nat.mod_eq_of_lt (by omega), wrap32_of_lt (by omega)] at hread
      omega
    · obtain ⟨item, -, hslot⟩ := exists_item_slots f.segmentSize.toNat f.seed.toNat f.fpSize.toNat
        0 0 (by omega) (by omega)
      refine ⟨item, fun hsafe => ?_⟩
      have hread := (hinside _).1 hsafe.inside.2.1
      rw [hslot, Nat.zero_mod, Nat.zero_add, wrap32_of_lt (by omega)] at hread
      omega
  · have hcount : slotCount f = 3 * f.segmentSize.toNat - 2 ^ 33 := by
      rw [slotCount, wrap32]
      omega
    obtain ⟨item, hslot, -⟩ := exists_item_slots f.segmentSize.toNat f.seed.toNat f.fpSize.toNat
      (f.segmentSize.toNat - 1) 0 (by omega) (by omega)
    refine ⟨item, fun hsafe => ?_⟩
    have hread := (hinside _).1 hsafe.inside.1
    rw [hslot, Nat.mod_eq_of_lt (by omega), wrap32_of_lt (by omega)] at hread
    omega

/-- All lookups are safe exactly when there is a segment and its size fits. -/
theorem checkSafe_iff (hfp : ValidFp f.fpSize)
    (hlen : f.fingerprints.length = getFingerprintsBytes f.fpSize (slotCount f)) :
    (∀ item, CheckSafe hashBuild f item) ↔
      1 ≤ f.segmentSize.toNat ∧ SizeFits f.fpSize f.segmentSize.toNat := by
  refine ⟨fun hsafe => ?_, fun h => checkSafe_of_sizeFits hfp hlen h.1 h.2 hashBuild⟩
  have hne := (hsafe []).segmentSize_ne_zero
  have hlt : 3 * f.segmentSize.toNat < 2 ^ 32 := by
    by_contra hwrap
    obtain ⟨item, hitem⟩ := not_checkSafe_of_wrap hfp hlen (by omega)
    exact hitem (hsafe item)
  refine ⟨by omega, hlt, fun h => ?_⟩
  have hread := (readsInside_iff hfp (slotCount_lt f) hlen _).1 (hsafe []).inside.1
  have hcount : slotCount f = 2 ^ 32 - 1 := (wrap32_of_lt hlt).trans h.2
  rcases hread with hread | hread
  · exact hread.2 ⟨h.1, hcount⟩
  · exact hread.2.2.2 hcount

end Inside

/-- What `XOR.EXISTS` may then be asked. -/
theorem loadChunk_safe_iff {redis : Redis} {db db' : Keyspace} {cmd key cursor data : Bytes}
    (h : xorLoadChunkCommand redis db [cmd, key, cursor, data] = (.simpleString "OK", db')) :
    ∃ f, db' key = some (.xorFilter f) ∧
      ((∀ item, CheckSafe hashBuild f item) ↔
        1 ≤ readLE 4 data 0 ∧ SizeFits (UInt32.ofNat (readLE 4 data 8)) (readLE 4 data 0)) := by
  obtain ⟨_, _, _, _, f, hargv, -, hload, rfl⟩ := xorLoadChunkCommand_ok h
  simp only [List.cons.injEq, and_true] at hargv
  obtain ⟨-, rfl, -, rfl⟩ := hargv
  have hacc := loadChunk_eq_ok_iff.1 hload
  refine ⟨f, Function.update_self _ _ _, ?_⟩
  rw [checkSafe_iff hacc.fpSize_valid hacc.length_fingerprints, hacc.segmentSize_toNat,
    hacc.fpSize_eq]

/-- One segment of one slot: every item may be looked up. -/
theorem loadChunk_safe_one_segment :
    ∃ f, (xorLoadChunkCommand digitRedis (fun _ => none)
        [[], [107], [48], payload 1 8 [7, 1, 2]]).2 [107] = some (.xorFilter f) ∧
      ∀ item, CheckSafe hashBuild f item := by
  obtain ⟨f, hf, hiff⟩ := @loadChunk_safe_iff digitRedis (fun _ => none) _ [] [107] [48]
    (payload 1 8 [7, 1, 2]) rfl
  exact ⟨f, hf, hiff.2 ⟨by decide +kernel, by decide +kernel, by decide +kernel⟩⟩

/-- A header alone, with no segment: it is accepted, and the first lookup divides
by zero. -/
theorem loadChunk_divides_by_zero :
    ∃ f, (xorLoadChunkCommand digitRedis (fun _ => none)
        [[], [107], [48], payload 0 8 []]).1 = .simpleString "OK" ∧
      (xorLoadChunkCommand digitRedis (fun _ => none)
        [[], [107], [48], payload 0 8 []]).2 [107] = some (.xorFilter f) ∧
      f.segmentSize = 0 ∧ ¬ CheckSafe hashBuild f [] :=
  ⟨⟨[], 0, 0, 8, 0⟩, rfl, rfl, rfl, fun h => h.segmentSize_ne_zero rfl⟩

end RedisXor
