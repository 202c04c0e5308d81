import RedisXor.Proofs.Soundness

/-! Slots that `map` recorded for no key: `assign` never writes them, so they
read zero in the filter that is returned, and an item with three such slots is
rejected, because no fingerprint is zero. -/

namespace RedisXor

open Peeling

/-- The slots of the stack entries, as `assign` decodes them. -/
def recordedSlots (pos : ℕ → HashNoFP) (stack : Stack) : List ℕ :=
  (stack.data.take stack.head).map (recordedBucket pos)

/-- The slots `xor_check` reads for `item`. -/
def itemSlots (hashBuild : List UInt8 → UInt64) (f : XorFilter) (item : List UInt8) : List ℕ :=
  let h := hashTransform (hashBuild item) f.segmentSize.toNat f.seed.toNat f.fpSize.toNat
  [h.h0, h.h1, h.h2]

theorem fingerprint_ne_zero (hash : UInt64) (s seed fpBits : ℕ) :
    (hashTransform hash s seed fpBits).fingerprint ≠ 0 := by
  have hone (v : UInt32) : (if v = 0 then 1 else v) ≠ 0 := by
    split_ifs with h
    · decide
    · exact h
  exact hone _

theorem fpGet_eq_zero_of_cell {f : XorFilter} (hfp : ValidFp f.fpSize) {i : ℕ}
    (h : cell f.fpSize.toNat f i = 0) : fpGet f i = 0 := by
  have hval := congrArg BitVec.toNat h
  simp only [cell, BitVec.toNat_setWidth, UInt32.toNat_toBitVec,
    Nat.mod_eq_of_lt (fpGet_lt hfp i)] at hval
  exact UInt32.toNat_inj.1 hval

theorem PeelInv.recordedSlots_eq {pos : ℕ → HashNoFP} {n s : ℕ} {ks : List (ℕ × ℕ)}
    {w : WorkState} (h : PeelInv pos n s ks w) (hn : n ≤ 2 ^ 30) (hpos : ∀ x, SlotsOk s (pos x)) :
    recordedSlots pos w.stack = ks.map Prod.snd := by
  rw [recordedSlots, h.take_head, List.map_map]
  exact List.map_congr_left fun p hp =>
    recordedBucket_pairAt ((h.key_lt p hp).trans_le hn) (hpos p.1) (h.trace.1 p hp)

/-- An array without keys leaves an empty stack. -/
theorem seedLoop_nil (mem : Memory) : seedLoop mem [] (buildSegmentSize 0) 101 0 (buildState 0) =
    some (some (0, buildState 0)) := rfl

/-- What the successful attempt leaves behind: `n` distinct slots, and a table
that is zero at every index that is not one of them. -/
structure RecordedOnly (n slots : ℕ) (recorded : List ℕ) (f : XorFilter) : Prop where
  nodup : recorded.Nodup
  length_eq : recorded.length = n
  lt : ∀ b ∈ recorded, b < slots
  zero : ∀ b, b ∉ recorded → fpGet f b = 0

section Build

variable {mem : Memory} {hashes : List UInt64} {fpSize : FingerprintSize} {sd : ℕ} {st : MapState}

theorem recordedOnly_buildFilter (hfp : ValidFp fpSize) (h0 : 1 ≤ hashes.length)
    (hn : hashes.length ≤ 2 ^ 30) (hsd : sd < 2 ^ 32) {ks : List (ℕ × ℕ)}
    (hks : LoopInv (buildSlots mem hashes sd) hashes.length (buildSegmentSize hashes.length) ks st)
    (hlen : ks.length = hashes.length) :
    RecordedOnly hashes.length (3 * buildSegmentSize hashes.length)
      (recordedSlots (buildSlots mem hashes sd) st.stack)
      (buildFilter mem hashes fpSize (buildSegmentSize hashes.length) sd st) := by
  have hpos := buildSlots_ok mem h0 hn sd
  have hrec : recordedSlots (buildSlots mem hashes sd) st.stack = ks.map Prod.snd :=
    hks.peel.recordedSlots_eq hn hpos
  have hfpf := (buildFilter_builtAt mem fpSize hn hsd st).fpSize_eq
  rw [hrec]
  refine ⟨hks.peel.trace.vertices_nodup, by rw [List.length_map, hlen], fun b hb => ?_,
    fun b hb => ?_⟩
  · obtain ⟨p, hp, rfl⟩ := List.mem_map.1 hb
    exact (hpos p.1).lt (hks.peel.trace.1 p hp)
  · have hcell := assignCells_of_notMem (solveCell (buildSlots mem hashes sd)
      (keyFingerprints mem hashes (buildSegmentSize hashes.length) sd fpSize.toNat))
      (fun _ => 0) hb
    rw [← cell_buildFilter hfp h0 hn hks] at hcell
    exact fpGet_eq_zero_of_cell (by rw [hfpf]; exact hfp) (by rw [hfpf]; exact hcell)

/-- The last byte of an odd 4-bit table holds one cell, and the index of the
other is no slot. -/
theorem RecordedOnly.spare_nibble {n slots : ℕ} {recorded : List ℕ} {f : XorFilter}
    (h : RecordedOnly n slots recorded f) (hfp : f.fpSize = FP4)
    (hlen : f.fingerprints.length = fpBytes FP4 slots) (hodd : slots % 2 = 1) :
    f.fingerprints.getD (f.fingerprints.length - 1) 0 >>> 4 = 0 := by
  have hzero := h.zero slots fun hmem => absurd (h.lt slots hmem) (Nat.lt_irrefl slots)
  have hlast : f.fingerprints.length - 1 = slots >>> 1 := by
    rw [hlen, fpBytes, if_pos rfl, Nat.shiftRight_one]
    omega
  rw [fpGet_fp4 hfp, if_pos (by rw [Nat.and_one_is_mod, hodd])] at hzero
  rw [hlast]
  have hval := congrArg UInt32.toNat hzero
  rw [UInt8.toNat_toUInt32] at hval
  exact UInt8.toNat_inj.1 hval

theorem RecordedOnly.rejects {n slots : ℕ} {recorded : List ℕ} {f : XorFilter}
    (h : RecordedOnly n slots recorded f) {hashBuild : List UInt8 → UInt64} {item : List UInt8}
    (hsafe : CheckSafe hashBuild f item)
    (hitem : ∀ b ∈ itemSlots hashBuild f item, b ∉ recorded) :
    xorCheck hashBuild f item = some false := by
  have hzero (b : ℕ) (hb : b ∈ itemSlots hashBuild f item) : fpGet f b = 0 := h.zero b (hitem b hb)
  rw [hsafe.xorCheck_eq]
  dsimp only
  rw [hzero _ (by simp [itemSlots]), hzero _ (by simp [itemSlots]), hzero _ (by simp [itemSlots])]
  exact congrArg some (beq_eq_false_iff_ne.2 (Ne.symm (fingerprint_ne_zero _ _ _ _)))

end Build

/-- Slots chosen for no key stay zero and reject. An array without keys has no
slots at all, so an unrecorded slot is one below the slot count. -/
theorem unrecorded_slots_reject (hashBuild : List UInt8 → UInt64) {mem : Memory}
    {hashes : List UInt64} {fpSize : FingerprintSize} (hfp : ValidFp fpSize)
    (hn : hashes.length ≤ 2 ^ 30) {f : XorFilter}
    (hbuild : xorBuild mem hashes fpSize = some (some f))
    (hload : ∀ seed ≤ f.seed.toNat, Uncrowded mem hashes seed) :
    ∃ st, seedLoop mem hashes (buildSegmentSize hashes.length) 101 0 (buildState hashes.length) =
        some (some (f.seed.toNat, st)) ∧
      let recorded := recordedSlots (buildSlots mem hashes f.seed.toNat) st.stack
      let slots := 3 * buildSegmentSize hashes.length
      let Unrecorded := fun b => b < slots ∧ b ∉ recorded
      recorded.Nodup ∧ recorded.length = hashes.length ∧ (∀ b ∈ recorded, b < slots) ∧
      (∀ b, Unrecorded b → fpGet f b = 0) ∧
      (fpSize = FP4 → slots % 2 = 1 →
        f.fingerprints.getD (f.fingerprints.length - 1) 0 >>> 4 = 0) ∧
      ∀ item, (∀ b ∈ itemSlots hashBuild f item, Unrecorded b) →
        xorCheck hashBuild f item = some false := by
  obtain ⟨sd, st, hloop, rfl⟩ := exists_seed_of_xorBuild hbuild
  have hsd : sd < 2 ^ 32 := by
    have := (bounds_of_seedLoop hloop).2
    omega
  have hbuilt := buildFilter_builtAt mem fpSize hn hsd st
  rw [hbuilt.seed_eq] at hload ⊢
  refine ⟨st, hloop, ?_⟩
  intro recorded slots Unrecorded
  rcases Nat.eq_zero_or_pos hashes.length with hnil | h0
  · obtain rfl := List.length_eq_zero_iff.1 hnil
    have hst := hloop.symm.trans (seedLoop_nil mem)
    simp only [Option.some.injEq, Prod.mk.injEq] at hst
    have hslots : ∀ b, ¬ Unrecorded b := fun b hb => absurd hb.1 (Nat.not_lt_zero b)
    have hrec : recorded = [] := by
      simp only [recorded, hst.2]
      rfl
    rw [hrec]
    exact ⟨List.nodup_nil, rfl, by simp, fun b hb => absurd hb (hslots b),
      fun _ hodd => absurd hodd (by decide),
      fun item hitem => absurd (hitem _ List.mem_cons_self) (hslots _)⟩
  · obtain ⟨-, -, ks, hks, hlen⟩ := seedLoop_found h0 hn (buildState_ready h0 hn) hloop
      fun i _ hi => hload i hi
    have h := recordedOnly_buildFilter hfp h0 hn hsd hks hlen
    refine ⟨h.nodup, h.length_eq, h.lt, fun b hb => h.zero b hb.2, fun h4 hodd => ?_,
      fun item hitem => ?_⟩
    · subst h4
      exact h.spare_nibble hbuilt.fpSize_eq hbuilt.length_eq hodd
    · exact h.rejects (hbuilt.checkSafe h0 hn hashBuild item) fun b hb => (hitem b hb).2

/-- Five hashes and nine slots: slots 0, 3, 5 and 6 stay zero, and so does half
of the fifth byte. -/
theorem unrecorded_slots_reject_five_hashes :
    let hashes : List UInt64 := [10, 20, 30, 40, 50]
    let f : XorFilter := { fingerprints := [80, 11, 4, 176, 14], segmentSize := 3, seed := 0,
                           fpSize := FP4, reallocations := 1 }
    xorBuild default hashes FP4 = some (some f) ∧
      (∀ b ∈ [0, 3, 5, 6], fpGet f b = 0) ∧ f.fingerprints.getD 4 0 >>> 4 = 0 ∧
      xorCheck hashBuild f [10] = some false := by
  intro hashes f
  have hbuild : xorBuild default hashes FP4 = some (some f) := by decide +kernel
  have hseed : f.seed.toNat = 0 := by decide
  have hrecorded : (seedLoop default hashes (buildSegmentSize hashes.length) 101 0
      (buildState hashes.length)).map (Option.map fun p =>
        recordedSlots (buildSlots default hashes 0) p.2.stack) = some (some [1, 2, 4, 8, 7]) := by
    decide +kernel
  obtain ⟨st, hloop, -, -, -, hzero, hspare, hreject⟩ :=
    unrecorded_slots_reject hashBuild (Or.inl rfl) (by decide) hbuild
      fun seed _ => uncrowded_of_length_le (by decide) seed
  rw [hloop, Option.map_some, Option.map_some, Option.some.injEq, Option.some.injEq] at hrecorded
  rw [hseed, hrecorded] at hzero hreject
  refine ⟨hbuild, fun b hb => hzero b ?_, hspare rfl (by decide), hreject [10] ?_⟩
  · revert b
    decide
  · decide +kernel

end RedisXor
