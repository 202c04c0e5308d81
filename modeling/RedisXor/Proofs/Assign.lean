import RedisXor.Proofs.Completeness
import RedisXor.Proofs.Table

/-! `assign` solves the triangular system that peeling leaves behind: it pops
the keys in reverse order and gives the recorded cell of each the value that
makes its equation true, so that in the end all equations hold. -/

namespace RedisXor

open Peeling

/-- The cells of the table as words of `w` bits. -/
def cell (w : ℕ) (f : XorFilter) (i : ℕ) : BitVec w := (fpGet f i).toBitVec.setWidth w

/-- The value `assign` writes into the cell `v` of a key with slots `h`. -/
def solveCell {w : ℕ} (pos : ℕ → HashNoFP) (fp : ℕ → BitVec w) (c : ℕ → BitVec w) (k v : ℕ) :
    BitVec w :=
  let c' := Function.update c v 0
  fp k ^^^ c' (pos k).h0 ^^^ c' (pos k).h1 ^^^ c' (pos k).h2

/-- The equation of a key. -/
def Equation {w : ℕ} (pos : ℕ → HashNoFP) (fp : ℕ → BitVec w) (c : ℕ → BitVec w) (k : ℕ) : Prop :=
  c (pos k).h0 ^^^ c (pos k).h1 ^^^ c (pos k).h2 = fp k

section Equation

variable {w s : ℕ} {pos : ℕ → HashNoFP} {fp : ℕ → BitVec w}

theorem Equation.update_of_not_touches {c : ℕ → BitVec w} {v k : ℕ} {a : BitVec w}
    (hv : ¬ Touches (pos k) v) (h : Equation pos fp c k) :
    Equation pos fp (Function.update c v a) k := by
  simp only [Touches, not_or] at hv
  rw [Equation, Function.update_of_ne (Ne.symm hv.1), Function.update_of_ne (Ne.symm hv.2.1),
    Function.update_of_ne (Ne.symm hv.2.2)]
  exact h

/-- The three slots differ, so exactly one summand is the cell being solved for. -/
theorem equation_solveCell {c : ℕ → BitVec w} {v k : ℕ} (hs : SlotsOk s (pos k))
    (hv : Touches (pos k) v) :
    Equation pos fp (Function.update c v (solveCell pos fp c k v)) k := by
  obtain ⟨h0, h1, h1', h2, h2'⟩ := hs
  have e01 : (pos k).h0 ≠ (pos k).h1 := by omega
  have e02 : (pos k).h0 ≠ (pos k).h2 := by omega
  have e12 : (pos k).h1 ≠ (pos k).h2 := by omega
  have hxor (a b d : BitVec w) : (a ^^^ 0 ^^^ b ^^^ d) ^^^ b ^^^ d = a := by
    ext i hi
    simp
    cases a[i] <;> cases b[i] <;> cases d[i] <;> rfl
  rcases hv with rfl | rfl | rfl
  · rw [Equation, solveCell, Function.update_self, Function.update_of_ne e01.symm,
      Function.update_of_ne e02.symm, Function.update_self, Function.update_of_ne e01.symm,
      Function.update_of_ne e02.symm]
    exact hxor _ _ _
  · rw [Equation, solveCell, Function.update_self, Function.update_of_ne e01,
      Function.update_of_ne e12.symm, Function.update_self, Function.update_of_ne e01,
      Function.update_of_ne e12.symm, ← hxor (fp k) (c (pos k).h0) (c (pos k).h2)]
    ext i hi
    simp
    cases (fp k)[i] <;> cases (c (pos k).h0)[i] <;> cases (c (pos k).h2)[i] <;> rfl
  · rw [Equation, solveCell, Function.update_self, Function.update_of_ne e02,
      Function.update_of_ne e12, Function.update_self, Function.update_of_ne e02,
      Function.update_of_ne e12, ← hxor (fp k) (c (pos k).h0) (c (pos k).h1)]
    ext i hi
    simp
    cases (fp k)[i] <;> cases (c (pos k).h0)[i] <;> cases (c (pos k).h1)[i] <;> rfl

end Equation

/-! The table under `assign` -/

/-- Two filters with the same header and tables of one size. -/
structure SameShape (f g : XorFilter) : Prop where
  fpSize_eq : f.fpSize = g.fpSize
  segmentSize_eq : f.segmentSize = g.segmentSize
  seed_eq : f.seed = g.seed
  reallocations_eq : f.reallocations = g.reallocations
  length_eq : f.fingerprints.length = g.fingerprints.length

theorem SameShape.refl (f : XorFilter) : SameShape f f := ⟨rfl, rfl, rfl, rfl, rfl⟩

theorem SameShape.trans {f g h : XorFilter} (h₁ : SameShape f g) (h₂ : SameShape g h) :
    SameShape f h :=
  ⟨h₁.fpSize_eq.trans h₂.fpSize_eq, h₁.segmentSize_eq.trans h₂.segmentSize_eq,
    h₁.seed_eq.trans h₂.seed_eq, h₁.reallocations_eq.trans h₂.reallocations_eq,
    h₁.length_eq.trans h₂.length_eq⟩

theorem fpSet_shape (f : XorFilter) (i : ℕ) (v : UInt32) : SameShape (fpSet f i v) f :=
  ⟨rfl, rfl, rfl, rfl, length_fpSet f i v⟩

theorem assignStep_shape (mem : Memory) (hashes : List UInt64) (s seed : ℕ)
    (sf : Stack × XorFilter) : SameShape (assignStep mem hashes s seed sf).2 sf.2 :=
  (fpSet_shape _ _ _).trans (fpSet_shape _ _ _)

theorem assignIter_shape (mem : Memory) (hashes : List UInt64) (s seed k : ℕ)
    (sf : Stack × XorFilter) : SameShape ((assignStep mem hashes s seed)^[k] sf).2 sf.2 := by
  induction k with
  | zero => exact SameShape.refl _
  | succ k ih =>
    rw [Function.iterate_succ_apply']
    exact (assignStep_shape mem hashes s seed _).trans ih

/-- `assign` writes nothing but cells of the table. -/
theorem assign_shape (mem : Memory) (hashes : List UInt64) (s seed : ℕ) (stack : Stack)
    (f : XorFilter) : SameShape (assign mem hashes s seed stack f) f :=
  assignIter_shape mem hashes s seed stack.head (stack, f)

theorem cell_fpSet {f : XorFilter} (hfp : ValidFp f.fpSize) {m : ℕ}
    (hlen : f.fingerprints.length = fpBytes f.fpSize m) {i : ℕ} (hi : i < m) (v : UInt32) :
    cell f.fpSize.toNat (fpSet f i v) =
      Function.update (cell f.fpSize.toNat f) i (v.toBitVec.setWidth f.fpSize.toNat) := by
  funext j
  rw [cell, fpGet_fpSet hfp hlen hi]
  by_cases hij : i = j
  · subst hij
    rw [if_pos rfl, Function.update_self]
    apply BitVec.eq_of_toNat_eq
    have hlt : v.toNat % 2 ^ f.fpSize.toNat < 2 ^ 32 := (Nat.mod_le _ _).trans_lt v.toNat_lt
    simp only [BitVec.toNat_setWidth, UInt32.toNat_toBitVec, UInt32.toNat_ofNat',
      Nat.mod_eq_of_lt hlt, Nat.mod_mod]
  · rw [if_neg hij, Function.update_of_ne (Ne.symm hij), cell]

/-- The recorded slot number selects the bucket the key was taken from. -/
theorem slot_bucket {s b : ℕ} {h : HashNoFP} (hs : SlotsOk s h) (hb : Touches h b) (x : ℕ) :
    (if (pairAt s (x, b)).slot = 0 then h.h0 else if (pairAt s (x, b)).slot = 1 then h.h1
      else h.h2) = b := by
  obtain ⟨h0, h1, h1', h2, h2'⟩ := hs
  rcases hb with rfl | rfl | rfl
  · have hdiv : h.h0 / s = 0 := Nat.div_eq_of_lt h0
    simp [pairAt, pairOf, hdiv]
  · have hdiv : h.h1 / s = 1 := Nat.div_eq_of_lt_le (by omega) (by omega)
    simp [pairAt, pairOf, hdiv]
  · have hdiv : h.h2 / s = 2 := Nat.div_eq_of_lt_le (by omega) (by omega)
    simp [pairAt, pairOf, hdiv]

section Assign

variable {mem : Memory} {hashes : List UInt64} {s seed : ℕ}

/-- The fingerprints of the keys, as `assign` computes them. -/
def keyFingerprints (mem : Memory) (hashes : List UInt64) (s seed w k : ℕ) : BitVec w :=
  (hashTransform (readHash mem hashes k) s seed w).fingerprint.toBitVec.setWidth w

/-- One round pops the last key and solves for its cell. -/
theorem cell_assignStep {f : XorFilter} (hfp : ValidFp f.fpSize)
    (hlen : f.fingerprints.length = fpBytes f.fpSize (3 * s)) {ks : List (ℕ × ℕ)} {p : ℕ × ℕ}
    {stack : Stack} (hst : StackIs ((ks ++ [p]).map (pairAt s)) stack) (hx : p.1 < 2 ^ 30)
    (hpos : SlotsOk s (keySlots mem hashes s seed p.1))
    (hb : Touches (keySlots mem hashes s seed p.1) p.2) :
    StackIs (ks.map (pairAt s)) (assignStep mem hashes s seed (stack, f)).1 ∧
      cell f.fpSize.toNat (assignStep mem hashes s seed (stack, f)).2 =
        Function.update (cell f.fpSize.toNat f) p.2
          (solveCell (keySlots mem hashes s seed) (keyFingerprints mem hashes s seed f.fpSize.toNat)
            (cell f.fpSize.toNat f) p.1 p.2) := by
  obtain ⟨hpop, hrest⟩ := hst.pop_map
  refine ⟨hrest, ?_⟩
  have hbm := hpos.lt hb
  have hxn : (pairAt s p).x.toNat = p.1 := Nat.mod_eq_of_lt hx
  have hslot := slot_bucket hpos hb p.1
  simp only [keySlots, hashTransform_slots _ s seed f.fpSize.toNat] at hslot
  simp only [assignStep, hpop, hxn, hslot]
  refine (cell_fpSet (f := fpSet f p.2 0) hfp (by rw [length_fpSet]; exact hlen) hbm _).trans ?_
  simp only [fpSet_fpSize]
  rw [cell_fpSet hfp hlen hbm, Function.update_idem]
  congr 1
  rw [UInt32.toBitVec_xor, UInt32.toBitVec_xor, UInt32.toBitVec_xor, BitVec.setWidth_xor,
    BitVec.setWidth_xor, BitVec.setWidth_xor]
  have hcell := cell_fpSet hfp hlen hbm 0
  have hzero : (UInt32.toBitVec 0).setWidth f.fpSize.toNat = 0 := by simp
  rw [hzero] at hcell
  simp only [solveCell, ← hcell]
  rfl

/-- The loop of `assign` computes the solution of the triangular system. -/
theorem cell_assign {f : XorFilter} (hfp : ValidFp f.fpSize)
    (hlen : f.fingerprints.length = fpBytes f.fpSize (3 * s)) {ks : List (ℕ × ℕ)} {stack : Stack}
    (hst : StackIs (ks.map (pairAt s)) stack) (hx : ∀ p ∈ ks, p.1 < 2 ^ 30)
    (hpos : ∀ x, SlotsOk s (keySlots mem hashes s seed x))
    (hb : ∀ p ∈ ks, Touches (keySlots mem hashes s seed p.1) p.2) :
    cell f.fpSize.toNat (assign mem hashes s seed stack f) =
      assignCells (solveCell (keySlots mem hashes s seed)
        (keyFingerprints mem hashes s seed f.fpSize.toNat)) (cell f.fpSize.toNat f) ks := by
  rw [assign, hst.head, List.length_map]
  induction ks using List.reverseRecOn generalizing stack f with
  | nil => rfl
  | append_singleton ks p ih =>
    have hp := List.mem_append_right ks (List.mem_singleton_self p)
    obtain ⟨hst', hcell⟩ := cell_assignStep hfp hlen hst (hx p hp) (hpos p.1) (hb p hp)
    have hshape := assignStep_shape mem hashes s seed (stack, f)
    have ih := ih (f := (assignStep mem hashes s seed (stack, f)).2)
      (by rw [hshape.fpSize_eq]; exact hfp)
      (by rw [hshape.length_eq, hshape.fpSize_eq]; exact hlen) hst'
      (fun q hq => hx q (List.mem_append_left _ hq)) (fun q hq => hb q (List.mem_append_left _ hq))
    rw [List.length_append, List.length_singleton, Function.iterate_succ_apply,
      assignCells_append]
    simp only [assignCells]
    rw [hshape.fpSize_eq, hcell] at ih
    exact ih

end Assign

end RedisXor
