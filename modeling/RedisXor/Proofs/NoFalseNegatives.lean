import RedisXor.Proofs.Dedup
import RedisXor.Proofs.Lookup
import RedisXor.Spec.Murmur3

/-! From the set to the lookup: a filter that `xor_build` returns answers yes
for every item whose hash was among the hashes of the set. -/

namespace RedisXor

open Peeling

/-- The mask leaves `fpSize` bits, and zero is replaced by one. -/
theorem fingerprint_lt {fpSize : FingerprintSize} (hfp : ValidFp fpSize) (hash : UInt64)
    (s seed : ℕ) : (hashTransform hash s seed fpSize.toNat).fingerprint.toNat <
      2 ^ fpSize.toNat := by
  have hmask (v mask : UInt32) (w : ℕ) (hw : 0 < w) (hm : mask.toNat < 2 ^ w) :
      (if v &&& mask = 0 then 1 else v &&& mask : UInt32).toNat < 2 ^ w := by
    split_ifs
    · exact Nat.one_lt_two_pow (by omega)
    · rw [UInt32.toNat_and]
      exact Nat.and_lt_two_pow _ hm
  simp only [hashTransform]
  rcases hfp with rfl | rfl | rfl | rfl
  · exact hmask _ _ 4 (by decide) (by decide)
  · exact hmask _ _ 8 (by decide) (by decide)
  · exact hmask _ _ 16 (by decide) (by decide)
  · exact hmask _ _ 32 (by decide) (by decide)

/-- What fits the cells is determined by its low bits. -/
theorem eq_of_cell {f : XorFilter} (hfp : ValidFp f.fpSize) {a b c : ℕ} {v : UInt32}
    (hv : v.toNat < 2 ^ f.fpSize.toNat)
    (h : cell f.fpSize.toNat f a ^^^ cell f.fpSize.toNat f b ^^^ cell f.fpSize.toNat f c =
      v.toBitVec.setWidth f.fpSize.toNat) : fpGet f a ^^^ fpGet f b ^^^ fpGet f c = v := by
  have hlt : (fpGet f a ^^^ fpGet f b ^^^ fpGet f c).toNat < 2 ^ f.fpSize.toNat := by
    rw [UInt32.toNat_xor, UInt32.toNat_xor]
    exact Nat.xor_lt_two_pow (Nat.xor_lt_two_pow (fpGet_lt hfp a) (fpGet_lt hfp b)) (fpGet_lt hfp c)
  have heq := congrArg BitVec.toNat h
  simp only [cell, ← BitVec.setWidth_xor, ← UInt32.toBitVec_xor, BitVec.toNat_setWidth,
    UInt32.toNat_toBitVec] at heq
  rw [Nat.mod_eq_of_lt hlt, Nat.mod_eq_of_lt hv] at heq
  exact UInt32.toNat_inj.1 heq

section Build

variable {mem : Memory} {hashes : List UInt64} {fpSize : FingerprintSize} {f : XorFilter}

/-- A returned filter was assigned from the state `map` left at its seed. -/
theorem exists_seed_of_xorBuild (h : xorBuild mem hashes fpSize = some (some f)) :
    ∃ sd st, seedLoop mem hashes (buildSegmentSize hashes.length) 101 0
        (buildState hashes.length) = some (some (sd, st)) ∧
      f = buildFilter mem hashes fpSize (buildSegmentSize hashes.length) sd st := by
  simp only [xorBuild] at h
  rcases hloop : seedLoop mem hashes (buildSegmentSize hashes.length) 101 0
    (buildState hashes.length) with - | - | ⟨sd, st⟩
  · simp [hloop] at h
  · simp [hloop] at h
  · simp only [hloop, Option.map_some, Option.some.injEq] at h
    exact ⟨sd, st, rfl, h.symm⟩

/-- The header `xor_build` writes. -/
structure BuiltAt (hashes : List UInt64) (fpSize : FingerprintSize) (sd : ℕ) (f : XorFilter) :
    Prop where
  fpSize_eq : f.fpSize = fpSize
  segmentSize_eq : f.segmentSize.toNat = buildSegmentSize hashes.length
  seed_eq : f.seed.toNat = sd
  length_eq : f.fingerprints.length = fpBytes fpSize (3 * buildSegmentSize hashes.length)

/-- The filter that `assign` starts from. -/
def blankFilter (fpSize : FingerprintSize) (s sd : ℕ) (st : MapState) : XorFilter :=
  { fingerprints := List.replicate (fpBytes fpSize (wrap32 (s * 3))) 0
    segmentSize := UInt32.ofNat s
    seed := UInt32.ofNat sd
    fpSize := fpSize
    reallocations := UInt32.ofNat st.Q.reallocations }

theorem buildFilter_shape (mem : Memory) (hashes : List UInt64) (fpSize : FingerprintSize)
    (s sd : ℕ) (st : MapState) :
    SameShape (buildFilter mem hashes fpSize s sd st) (blankFilter fpSize s sd st) :=
  assign_shape mem hashes s sd st.stack _

theorem length_blankFilter (fpSize : FingerprintSize) {s : ℕ} (hs : 3 * s < 2 ^ 32) (sd : ℕ)
    (st : MapState) :
    (blankFilter fpSize s sd st).fingerprints.length = fpBytes fpSize (3 * s) := by
  rw [blankFilter, List.length_replicate, Nat.mul_comm, wrap32_of_lt hs]

theorem cell_blankFilter (fpSize : FingerprintSize) (s sd : ℕ) (st : MapState) :
    cell fpSize.toNat (blankFilter fpSize s sd st) = fun _ => 0 := by
  funext i
  rw [cell, fpGet_of_zero fun i => ?_]
  · simp
  · simp only [blankFilter, List.getD_eq_getElem?_getD, List.getElem?_replicate]
    split_ifs <;> rfl

variable (mem fpSize) in
theorem buildFilter_builtAt (hn : hashes.length ≤ 2 ^ 30) {sd : ℕ} (hsd : sd < 2 ^ 32)
    (st : MapState) : BuiltAt hashes fpSize sd
      (buildFilter mem hashes fpSize (buildSegmentSize hashes.length) sd st) := by
  have hlt := three_mul_buildSegmentSize_lt hn
  have hshape := buildFilter_shape mem hashes fpSize (buildSegmentSize hashes.length) sd st
  refine ⟨hshape.fpSize_eq, ?_, ?_, ?_⟩
  · refine (congrArg UInt32.toNat hshape.segmentSize_eq).trans ?_
    exact UInt32.toNat_ofNat_of_lt' (show buildSegmentSize hashes.length < 2 ^ 32 by omega)
  · refine (congrArg UInt32.toNat hshape.seed_eq).trans ?_
    exact UInt32.toNat_ofNat_of_lt' hsd
  · exact hshape.length_eq.trans (length_blankFilter fpSize (by omega) sd st)

/-- The cells of the stored table, as the solution for the keys on the stack. -/
theorem cell_buildFilter (hfp : ValidFp fpSize) (h0 : 1 ≤ hashes.length)
    (hn : hashes.length ≤ 2 ^ 30) {sd : ℕ} {st : MapState} {ks : List (ℕ × ℕ)}
    (hks : LoopInv (buildSlots mem hashes sd) hashes.length (buildSegmentSize hashes.length)
      ks st) : cell fpSize.toNat
        (buildFilter mem hashes fpSize (buildSegmentSize hashes.length) sd st) =
      assignCells (solveCell (buildSlots mem hashes sd)
        (keyFingerprints mem hashes (buildSegmentSize hashes.length) sd fpSize.toNat))
        (fun _ => 0) ks := by
  have hlt := three_mul_buildSegmentSize_lt hn
  have hpeel := hks.peel
  have hassign := cell_assign
    (f := blankFilter fpSize (buildSegmentSize hashes.length) sd st) hfp
    (length_blankFilter fpSize (by omega) sd st)
    hpeel.stackIs (fun p hp => (hpeel.key_lt p hp).trans_le hn)
    (buildSlots_ok mem h0 hn sd) hpeel.trace.1
  exact hassign.trans (congrFun (congrArg _ (cell_blankFilter fpSize _ sd st)) ks)

/-- Every key finds its fingerprint in the table. -/
theorem fpGet_buildFilter (hfp : ValidFp fpSize) (h0 : 1 ≤ hashes.length)
    (hn : hashes.length ≤ 2 ^ 30) {sd : ℕ} (hsd : sd < 2 ^ 32) {st : MapState}
    {ks : List (ℕ × ℕ)}
    (hks : LoopInv (buildSlots mem hashes sd) hashes.length (buildSegmentSize hashes.length)
      ks st) {p : ℕ × ℕ} (hp : p ∈ ks) :
    let f := buildFilter mem hashes fpSize (buildSegmentSize hashes.length) sd st
    let h := hashTransform (readHash mem hashes p.1) (buildSegmentSize hashes.length) sd
      fpSize.toNat
    fpGet f h.h0 ^^^ fpGet f h.h1 ^^^ fpGet f h.h2 = h.fingerprint := by
  intro f h
  have hbuilt := buildFilter_builtAt mem fpSize hn hsd st
  have hfpf : f.fpSize = fpSize := hbuilt.fpSize_eq
  have hlocal (c : ℕ → BitVec fpSize.toNat) (v : ℕ) (a : BitVec fpSize.toNat) (k : ℕ) :
      ¬ Touches (buildSlots mem hashes sd k) v → Equation (buildSlots mem hashes sd)
        (keyFingerprints mem hashes (buildSegmentSize hashes.length) sd fpSize.toNat) c k →
      Equation (buildSlots mem hashes sd)
        (keyFingerprints mem hashes (buildSegmentSize hashes.length) sd fpSize.toNat)
        (Function.update c v a) k := fun hv hk => hk.update_of_not_touches hv
  have heq := assignCells_holds _ hlocal
    (fun c k v hv => equation_solveCell (buildSlots_ok mem h0 hn sd k) hv)
    (fun _ => 0) hks.peel.trace p hp
  rw [← cell_buildFilter hfp h0 hn hks] at heq
  refine eq_of_cell (f := f) (by rw [hfpf]; exact hfp) ?_ ?_
  · rw [hfpf]
    exact fingerprint_lt hfp _ _ _
  · rw [hfpf]
    exact heq

/-- Lookups in a filter that was built are defined. -/
theorem BuiltAt.checkSafe (h0 : 1 ≤ hashes.length) (hn : hashes.length ≤ 2 ^ 30) {sd : ℕ}
    (h : BuiltAt hashes fpSize sd f) (hashBuild : Bytes → UInt64) (item : Bytes) :
    CheckSafe hashBuild f item := by
  refine checkSafe_of_length ?_ ?_ hashBuild item
  · rw [h.segmentSize_eq]
    exact buildSegmentSize_pos h0 hn
  · rw [h.segmentSize_eq, h.fpSize_eq]
    exact h.length_eq

/-- A filter answers yes for every item whose hash it was built from. -/
theorem xorCheck_of_hash_mem (hashBuild : Bytes → UInt64) (hfp : ValidFp fpSize)
    (hn : hashes.length ≤ 2 ^ 30) (hbuild : xorBuild mem hashes fpSize = some (some f))
    (hload : ∀ seed ≤ f.seed.toNat, Uncrowded mem hashes seed) {item : Bytes}
    (hitem : hashBuild item ∈ hashes) : xorCheck hashBuild f item = some true := by
  obtain ⟨x, hx, hget⟩ := List.getElem_of_mem hitem
  have h0 : 1 ≤ hashes.length := by omega
  obtain ⟨sd, st, hloop, rfl⟩ := exists_seed_of_xorBuild hbuild
  have hsd : sd < 2 ^ 32 := by
    have := (bounds_of_seedLoop hloop).2
    omega
  have hbuilt := buildFilter_builtAt mem fpSize hn hsd st
  rw [hbuilt.seed_eq] at hload
  obtain ⟨-, -, ks, hks, hlen⟩ := seedLoop_found h0 hn (buildState_ready h0 hn) hloop
    fun i _ hi => hload i hi
  obtain ⟨p, hp, rfl⟩ := List.mem_map.1 (hks.peel.mem_keys hlen hx)
  have hread : readHash mem hashes p.1 = hashBuild item := by
    rw [readHash, List.getD_eq_getElem?_getD, List.getElem?_eq_getElem hx, hget, Option.getD_some]
  have hkey := fpGet_buildFilter hfp h0 hn hsd hks hp
  rw [hread] at hkey
  rw [(hbuilt.checkSafe h0 hn hashBuild item).xorCheck_eq, hbuilt.segmentSize_eq,
    hbuilt.seed_eq, hbuilt.fpSize_eq]
  exact congrArg some (beq_iff_eq.2 hkey)

end Build

/-- No false negatives: whatever the table size and however often the hashes
were repeated, a filter that is returned knows every member. -/
theorem xorCheck_of_mem (hashBuild : Bytes → UInt64) (qsort : Qsort) {raw : List UInt64}
    {fpSize : FingerprintSize} (hfp : ValidFp fpSize)
    (hn : (dedup (qsort.run raw)).length ≤ 2 ^ 30) {mem : Memory} {f : XorFilter}
    (hbuild : xorBuild mem (dedup (qsort.run raw)) fpSize = some (some f))
    (hload : ∀ seed ≤ f.seed.toNat, Uncrowded mem (dedup (qsort.run raw)) seed) (item : Bytes)
    (hitem : hashBuild item ∈ raw) : xorCheck hashBuild f item = some true :=
  xorCheck_of_hash_mem hashBuild hfp hn hbuild hload ((mem_dedup_qsort qsort raw _).2 hitem)

/-- Three members, the first of them delivered twice, and 4-bit fingerprints. -/
theorem xorCheck_three_members :
    let raw := [hashBuild [97], hashBuild [98], hashBuild [97], hashBuild [99]]
    let f : XorFilter := { fingerprints := [8, 6, 10], segmentSize := 2, seed := 0,
                           fpSize := FP4, reallocations := 2 }
    xorBuild default (dedup (insertionQsort.run raw)) FP4 = some (some f) ∧
      xorCheck hashBuild f [98] = some true := by
  intro raw f
  have hbuild : xorBuild default (dedup (insertionQsort.run raw)) FP4 = some (some f) := by
    decide +kernel
  have hlen : (dedup (insertionQsort.run raw)).length = 3 := by decide +kernel
  exact ⟨hbuild, xorCheck_of_mem hashBuild insertionQsort (Or.inl rfl) (by omega) hbuild
    (fun seed _ => uncrowded_of_length_le (by omega) seed) [98] (by simp [raw])⟩

end RedisXor
