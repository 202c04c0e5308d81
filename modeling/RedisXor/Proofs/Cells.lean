import RedisXor.Lib.Refinement
import RedisXor.Proofs.Assign

/-! The footprint of the fingerprint table: `fp_get` and `fp_set` of a cell
touch the bytes of that cell alone, and under any sequence of calls the table
cannot be told from an array of words of `fp_size` bits. -/

namespace RedisXor

open Arrays LittleEndian Refinement

/-- Accesses to the cell `idx` neither depend on bytes outside `bytes` nor
change any. -/
structure AccessesOnly (f : XorFilter) (idx : ℕ) (bytes : List ℕ) : Prop where
  get_congr : ∀ g : XorFilter, SameShape g f →
    (∀ k ∈ bytes, g.fingerprints.getD k 0 = f.fingerprints.getD k 0) → fpGet g idx = fpGet f idx
  set_congr : ∀ g : XorFilter, SameShape g f →
    (∀ k ∈ bytes, g.fingerprints.getD k 0 = f.fingerprints.getD k 0) → ∀ v, ∀ k ∈ bytes,
      (fpSet g idx v).fingerprints.getD k 0 = (fpSet f idx v).fingerprints.getD k 0
  set_frame : ∀ v, ∀ k ∉ bytes, (fpSet f idx v).fingerprints.getD k 0 = f.fingerprints.getD k 0

section Footprint

variable {f : XorFilter} {m i : ℕ}

/-- The last word of `m` ends with the buffer. -/
theorem word_inside {w len : ℕ} (hlen : len = m * w) (hi : i < m) : w * i + w ≤ len := by
  rw [hlen, ← Nat.mul_succ, Nat.mul_comm m w]
  exact Nat.mul_le_mul_left w hi

/-- The last 4-bit cell of an odd number shares its byte with none. -/
theorem nibble_inside (h : f.fpSize = FP4) (hlen : f.fingerprints.length = fpBytes f.fpSize m)
    (hi : i < m) : i >>> 1 < f.fingerprints.length := by
  rw [hlen, h, fpBytes, if_pos rfl, Nat.shiftRight_one]
  omega

theorem touchedBytes_inside (hfp : ValidFp f.fpSize)
    (hlen : f.fingerprints.length = fpBytes f.fpSize m) (hi : i < m) :
    ∀ k ∈ touchedBytes f.fpSize i, k < f.fingerprints.length := by
  intro k hk
  rcases hfp.fp4_or_word with h | ⟨w, -, hw⟩
  · rw [h] at hk
    rw [List.mem_singleton.1 hk]
    exact nibble_inside h hlen hi
  · rw [hw.touchedBytes_eq, List.mem_range'_1] at hk
    exact hk.2.trans_le (word_inside (hlen.trans (hw.fpBytes_eq m)) hi)

/-- Two 4-bit cells share the byte, which is rebuilt from its old value. -/
theorem accessesOnly_fp4 (h : f.fpSize = FP4) (hin : i >>> 1 < f.fingerprints.length) :
    AccessesOnly f i [i >>> 1] := by
  refine ⟨fun g hg hb => ?_, fun g hg hb v k hk => ?_, fun v k hk => ?_⟩
  · have hbyte := hb (i >>> 1) (List.mem_singleton_self _)
    rw [fpGet_fp4 (hg.fpSize_eq.trans h), fpGet_fp4 h, hbyte]
  · have hbyte := hb (i >>> 1) (List.mem_singleton_self _)
    rw [List.mem_singleton.1 hk, fpSet_fp4 (hg.fpSize_eq.trans h), fpSet_fp4 h, hbyte,
      getD_set_self _ (by rw [hg.length_eq]; exact hin), getD_set_self _ hin]
  · rw [fpSet_fp4 h, getD_set_ne _ fun he => hk (List.mem_singleton.2 he.symm)]

/-- A wider cell is a word of its own, which is overwritten. -/
theorem accessesOnly_word {w : ℕ} (hw : WordCells f.fpSize w)
    (hin : w * i + w ≤ f.fingerprints.length) : AccessesOnly f i (List.range' (w * i) w) := by
  refine ⟨fun g hg hb => ?_, fun g hg hb v k hk => ?_, fun v k hk => ?_⟩
  · rw [hw.fpGet_eq g hg.fpSize_eq, hw.fpGet_eq f rfl, readLE_congr w fun j hj => ?_]
    exact hb _ (List.mem_range'_1.2 (by omega))
  · obtain ⟨hle, hlt⟩ := List.mem_range'_1.1 hk
    obtain ⟨j, rfl⟩ := Nat.exists_eq_add_of_le hle
    rw [hw.fpSet_eq g hg.fpSize_eq, hw.fpSet_eq f rfl,
      getD_writeLE_of_inside w _ _ _ (by omega) (by rw [hg.length_eq]; exact hin),
      getD_writeLE_of_inside w _ _ _ (by omega) hin]
  · rw [List.mem_range'_1] at hk
    rw [hw.fpSet_eq f rfl, getD_writeLE_of_outside w _ _ _ _ (by omega)]

theorem accessesOnly_touchedBytes (hfp : ValidFp f.fpSize)
    (hlen : f.fingerprints.length = fpBytes f.fpSize m) (hi : i < m) :
    AccessesOnly f i (touchedBytes f.fpSize i) := by
  rcases hfp.fp4_or_word with h | ⟨w, -, hw⟩
  · rw [h]
    exact accessesOnly_fp4 h (nibble_inside h hlen hi)
  · rw [hw.touchedBytes_eq]
    exact accessesOnly_word hw (word_inside (hlen.trans (hw.fpBytes_eq m)) hi)

end Footprint

/-! Any sequence of accesses -/

inductive TableCall where
  | get (idx : ℕ)
  | set (idx : ℕ) (value : UInt32)

def TableCall.idx : TableCall → ℕ
  | get idx => idx
  | set idx _ => idx

/-- The table as `assign` and `xor_check` use it, with cells below `m`. -/
def tableMachine (m : ℕ) : Machine XorFilter TableCall (Option ℕ) where
  pre _ call := call.idx < m
  step f
    | .get idx => (some (fpGet f idx).toNat, f)
    | .set idx value => (none, fpSet f idx value)

/-- An array of words of `w` bits. -/
def arrayMachine (w m : ℕ) : Machine (ℕ → BitVec w) TableCall (Option ℕ) where
  pre _ call := call.idx < m
  step a
    | .get idx => (some (a idx).toNat, a)
    | .set idx value => (none, Function.update a idx (BitVec.ofNat w value.toNat))

structure TableHolds (fpSize : FingerprintSize) (m : ℕ) (f : XorFilter)
    (a : ℕ → BitVec fpSize.toNat) : Prop where
  fpSize_eq : f.fpSize = fpSize
  length_eq : f.fingerprints.length = fpBytes fpSize m
  cells_eq : cell fpSize.toNat f = a

theorem table_refines {fpSize : FingerprintSize} (hfp : ValidFp fpSize) (m : ℕ) :
    Refines (tableMachine m) (arrayMachine fpSize.toNat m) (TableHolds fpSize m) where
  pre_iff _ _ _ _ := Iff.rfl
  answer := by
    rintro f _ (idx | ⟨idx, value⟩) ⟨rfl, hlen, rfl⟩ hidx
    · simp only [tableMachine, arrayMachine, cell, BitVec.toNat_setWidth, UInt32.toNat_toBitVec,
        Nat.mod_eq_of_lt (fpGet_lt hfp idx)]
    · rfl
  step := by
    rintro f _ (idx | ⟨idx, value⟩) ⟨rfl, hlen, rfl⟩ hidx
    · exact ⟨rfl, hlen, rfl⟩
    · refine ⟨rfl, (length_fpSet f idx value).trans hlen, ?_⟩
      have hcell := cell_fpSet hfp hlen hidx value
      have hword : value.toBitVec.setWidth f.fpSize.toNat =
          BitVec.ofNat f.fpSize.toNat value.toNat := BitVec.eq_of_toNat_eq (by simp)
      rw [hword] at hcell
      exact hcell

/-- The packed table is an array of independent cells: the law for two cells,
with the bytes the accesses touch, and any sequence of accesses. -/
theorem table_is_array {f : XorFilter} (hfp : ValidFp f.fpSize) {m : ℕ}
    (hlen : f.fingerprints.length = fpBytes f.fpSize m) :
    (∀ i < m, ∀ j < m, ∀ value : UInt32,
      (fpGet (fpSet f i value) j).toNat =
        if i = j then value.toNat % 2 ^ f.fpSize.toNat else (fpGet f j).toNat) ∧
    (∀ i < m, AccessesOnly f i (touchedBytes f.fpSize i) ∧
      ∀ k ∈ touchedBytes f.fpSize i, k < f.fingerprints.length) ∧
    ∀ calls, (tableMachine m).Admits f calls →
      (tableMachine m).answers f calls =
        (arrayMachine f.fpSize.toNat m).answers (cell f.fpSize.toNat f) calls ∧
      ((tableMachine m).state f calls).fingerprints.length = f.fingerprints.length := by
  refine ⟨fun i hi j _ value => ?_, fun i hi => ⟨accessesOnly_touchedBytes hfp hlen hi,
    touchedBytes_inside hfp hlen hi⟩, fun calls hadm => ?_⟩
  · rw [fpGet_fpSet hfp hlen hi]
    split_ifs
    · exact UInt32.toNat_ofNat_of_lt' ((Nat.mod_le _ _).trans_lt value.toNat_lt)
    · rfl
  · have href := table_refines hfp m
    have hstart : TableHolds f.fpSize m f (cell f.fpSize.toNat f) := ⟨rfl, hlen, rfl⟩
    have hadm' := (href.admits_iff hstart calls).1 hadm
    exact ⟨href.answers hstart hadm', (href.state hstart hadm').length_eq.trans hlen.symm⟩

/-- The last of three 4-bit cells is alone in its byte, the two others share one. -/
theorem table_is_array_three_cells :
    let f : XorFilter := { fingerprints := [0x21, 0xF3], segmentSize := 1, seed := 0,
                           fpSize := FP4, reallocations := 0 }
    (fpGet (fpSet f 2 0x47) 2).toNat = 7 ∧ (fpGet (fpSet f 2 0x47) 1).toNat = 2 ∧
      (fpSet f 2 0x47).fingerprints = [0x21, 0xF7] ∧
      (tableMachine 3).answers f [.set 0 9, .get 1, .set 2 5, .get 0, .get 2] =
        [none, some 2, none, some 9, some 5] := by
  intro f
  obtain ⟨hlaw, -, hcalls⟩ := @table_is_array f (Or.inl rfl) 3 rfl
  have hadm : (tableMachine 3).Admits f [.set 0 9, .get 1, .set 2 5, .get 0, .get 2] := by
    simp [Machine.Admits, tableMachine, TableCall.idx]
  have hown := hlaw 2 (by decide) 2 (by decide) 0x47
  have hother := hlaw 2 (by decide) 1 (by decide) 0x47
  refine ⟨hown.trans (by decide +kernel), hother.trans (by decide +kernel), by decide +kernel, ?_⟩
  rw [(hcalls _ hadm).1]
  decide +kernel

end RedisXor
