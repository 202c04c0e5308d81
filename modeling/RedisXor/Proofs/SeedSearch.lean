import Mathlib.Order.Bounds.Basic
import RedisXor.Proofs.NoFalseNegatives

/-! `xor_build` finds a filter exactly when one of its seeds admits a peeling
order, and stores the least such seed. -/

namespace RedisXor

open Peeling

section Build

variable {mem : Memory} {hashes : List UInt64}

/-- The buffers `map` finds are those `xor_build` allocated or those another
call of `map` left, successful or not. -/
theorem map_ready (h0 : 1 ≤ hashes.length) (hn : hashes.length ≤ 2 ^ 30) {seed : ℕ}
    {st st' : MapState} {b : Bool}
    (hst : MapReady hashes.length (buildSegmentSize hashes.length) st)
    (hmap : map mem hashes (buildSegmentSize hashes.length) seed st = some (b, st')) :
    MapReady hashes.length (buildSegmentSize hashes.length) st' := by
  obtain ⟨st₁, hmap', hready, -⟩ := mapSlots_run mem hst
    (buildSlots_ok mem h0 hn seed) (by omega) (three_mul_buildSegmentSize_lt hn)
    (P := fun _ => True) trivial fun _ _ _ _ _ _ => trivial
  have heq : some (b, st') = some (st₁.stack.head == hashes.length, st₁) :=
    hmap.symm.trans hmap'
  simp only [Option.some.injEq, Prod.mk.injEq] at heq
  rw [heq.2]
  exact hready

/-- Serving the queue in another order does not change the outcome. -/
theorem workRun_head_iff (h0 : 1 ≤ hashes.length) (hn : hashes.length ≤ 2 ^ 30) {seed : ℕ}
    (hload : Uncrowded mem hashes seed) {st : MapState}
    (hst : MapReady hashes.length (buildSegmentSize hashes.length) st) {w : WorkState}
    (hrun : Relation.ReflTransGen
      (WorkStep (buildSlots mem hashes seed) (buildSegmentSize hashes.length))
      (mapInit mem (buildSlots mem hashes seed) hashes.length
        (buildSegmentSize hashes.length) st).toWork w)
    (hwork : w.work = []) : w.stack.head = hashes.length ↔ SeedPeelable mem hashes seed := by
  have hlt := three_mul_buildSegmentSize_lt hn
  have hpos := buildSlots_ok mem h0 hn seed
  have hinit := (mapInit_spec mem hst hpos (by omega) (by omega) (room_of_lt hlt _)).1
  obtain ⟨ks, hks⟩ := workRun_inv hpos hload hrun ⟨[], hinit.peel⟩
  rw [hks.head]
  exact hks.length_eq_iff hpos hload hwork

theorem xorBuild_eq_none_iff (h0 : 1 ≤ hashes.length) (hn : hashes.length ≤ 2 ^ 30)
    (hload : ∀ seed ≤ 100, Uncrowded mem hashes seed) (fpSize : FingerprintSize) :
    (∃ r, xorBuild mem hashes fpSize = some r) ∧
      (xorBuild mem hashes fpSize = some none ↔ ∀ seed ≤ 100, ¬ SeedPeelable mem hashes seed) := by
  obtain ⟨⟨r, hr⟩, hnone⟩ := seedLoop_eq_none_iff h0 hn 101 0
    (buildState_ready h0 hn) fun i _ hi => hload i (by omega)
  refine ⟨⟨_, by rw [xorBuild, hr, Option.map_some]⟩, ?_⟩
  have hiff : xorBuild mem hashes fpSize = some none ↔
      seedLoop mem hashes (buildSegmentSize hashes.length) 101 0 (buildState hashes.length) =
        some none := by
    rw [xorBuild, hr]
    cases r <;> simp
  rw [hiff, hnone]
  exact ⟨fun h i hi => h i (Nat.zero_le i) (by omega), fun h i _ hi => h i (by omega)⟩

theorem xorBuild_seed_isLeast (h0 : 1 ≤ hashes.length) (hn : hashes.length ≤ 2 ^ 30)
    {fpSize : FingerprintSize} {f : XorFilter} (hbuild : xorBuild mem hashes fpSize = some (some f))
    (hload : ∀ seed ≤ f.seed.toNat, Uncrowded mem hashes seed) :
    IsLeast {seed | SeedPeelable mem hashes seed} f.seed.toNat := by
  obtain ⟨sd, st, hloop, rfl⟩ := exists_seed_of_xorBuild hbuild
  have hsd := (bounds_of_seedLoop hloop).2
  have hseed := (buildFilter_builtAt mem fpSize hn
    (show sd < 2 ^ 32 by omega) st).seed_eq
  rw [hseed] at hload ⊢
  obtain ⟨hp, hmin, -⟩ := seedLoop_found h0 hn (buildState_ready h0 hn) hloop
    fun i _ hi => hload i hi
  refine ⟨hp, fun i hi => ?_⟩
  by_contra hlt
  exact hmin i (Nat.zero_le i) (by omega) hi

end Build

/-- Completeness of peeling and of the search for a seed. The first three parts
say which buffers `map` can be called with and what it then answers; the fourth
that no other order of the queue answers differently. -/
theorem peeling_complete (mem : Memory) {hashes : List UInt64} (h0 : 1 ≤ hashes.length)
    (hn : hashes.length ≤ 2 ^ 30) :
    let n := hashes.length
    let s := buildSegmentSize n
    MapReady n s (buildState n) ∧
    (∀ seed st b st', MapReady n s st → map mem hashes s seed st = some (b, st') →
      MapReady n s st') ∧
    (∀ seed, Uncrowded mem hashes seed → ∀ st, MapReady n s st →
      (∃ b st', map mem hashes s seed st = some (b, st') ∧
        (b = true ↔ SeedPeelable mem hashes seed)) ∧
      ∀ w, Relation.ReflTransGen (WorkStep (buildSlots mem hashes seed) s)
          (mapInit mem (buildSlots mem hashes seed) n s st).toWork w →
        w.work = [] → (w.stack.head = n ↔ SeedPeelable mem hashes seed)) ∧
    ((∀ seed ≤ 100, Uncrowded mem hashes seed) → ∀ fpSize,
      (∃ r, xorBuild mem hashes fpSize = some r) ∧
      (xorBuild mem hashes fpSize = some none ↔
        ∀ seed ≤ 100, ¬ SeedPeelable mem hashes seed) ∧
      ∀ f, xorBuild mem hashes fpSize = some (some f) →
        IsLeast {seed | SeedPeelable mem hashes seed} f.seed.toNat) := by
  intro n s
  refine ⟨buildState_ready h0 hn, fun seed st b st' => map_ready h0 hn,
    fun seed hload st hst => ⟨?_, fun w => workRun_head_iff h0 hn hload hst⟩,
    fun hload fpSize => ?_⟩
  · obtain ⟨ks, st', hmap, -, hiff⟩ := map_spec h0 hn hload hst
    exact ⟨_, st', hmap, by rw [beq_iff_eq, hiff]⟩
  · obtain ⟨hsome, hnone⟩ := xorBuild_eq_none_iff h0 hn hload fpSize
    refine ⟨hsome, hnone, fun f hf => xorBuild_seed_isLeast h0 hn hf fun seed hseed => ?_⟩
    obtain ⟨sd, st, hloop, rfl⟩ := exists_seed_of_xorBuild hf
    have hsd := (bounds_of_seedLoop hloop).2
    rw [(buildFilter_builtAt mem fpSize hn
      (show sd < 2 ^ 32 by omega) st).seed_eq] at hseed
    exact hload seed (by omega)

/-- Four hashes that the first five seeds fail on. -/
theorem peeling_complete_four_hashes :
    IsLeast {seed | SeedPeelable default [1, 2, 3, 4] seed} 5 := by
  have hbuild : (xorBuild default [1, 2, 3, 4] FP8).map (Option.map XorFilter.seed) =
      some (some 5) := by decide +kernel
  obtain ⟨-, -, -, hsearch⟩ := @peeling_complete default [1, 2, 3, 4] (by decide) (by decide)
  obtain ⟨-, -, hleast⟩ := hsearch (fun seed _ => uncrowded_of_length_le (by decide) seed) FP8
  rcases hres : xorBuild default [1, 2, 3, 4] FP8 with - | - | f
  · simp [hres] at hbuild
  · simp [hres] at hbuild
  · have hseed : f.seed = 5 := by simpa [hres] using hbuild
    have hf := hleast f hres
    rwa [hseed] at hf

end RedisXor
