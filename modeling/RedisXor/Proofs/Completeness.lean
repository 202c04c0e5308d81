import RedisXor.Proofs.Map

/-! `map` succeeds exactly when the keys can be peeled in some order, whatever
was left in its buffers and in whatever order the queue is served. The seed loop
therefore stops at the least seed that admits such an order. -/

namespace RedisXor

open Peeling

/-- The slots of the keys in the geometry `xor_build` chooses for them. -/
def buildSlots (mem : Memory) (hashes : List UInt64) (seed : ℕ) : ℕ → HashNoFP :=
  keySlots mem hashes (buildSegmentSize hashes.length) seed

/-- Some order of the keys gives each a bucket that no later key touches. -/
def SeedPeelable (mem : Memory) (hashes : List UInt64) (seed : ℕ) : Prop :=
  Peelable (fun k b => Touches (buildSlots mem hashes seed k) b) (Finset.range hashes.length)

/-- No bucket receives more keys than its counter can hold. -/
def Uncrowded (mem : Memory) (hashes : List UInt64) (seed : ℕ) : Prop :=
  ∀ b, load (buildSlots mem hashes seed) hashes.length b ≤ 255

theorem uncrowded_of_length_le {mem : Memory} {hashes : List UInt64} (h : hashes.length ≤ 255)
    (seed : ℕ) : Uncrowded mem hashes seed := by
  intro b
  refine le_trans (Finset.card_filter_le _ _) ?_
  rwa [Finset.card_range]

theorem buildSegmentSize_of_le {n : ℕ} (hn : n ≤ 2 ^ 30) :
    buildSegmentSize n = (41 * n + 99) / 100 := wrap32_of_lt (by omega)

theorem buildSegmentSize_pos {n : ℕ} (h0 : 1 ≤ n) (hn : n ≤ 2 ^ 30) : 0 < buildSegmentSize n := by
  rw [buildSegmentSize_of_le hn]
  omega

theorem three_mul_buildSegmentSize_lt {n : ℕ} (hn : n ≤ 2 ^ 30) :
    3 * buildSegmentSize n < 2 ^ 31 := by
  rw [buildSegmentSize_of_le hn]
  omega

theorem room_of_lt {s : ℕ} (hs : 3 * s < 2 ^ 31) (B : Buckets) :
    2 * (singles s B).length + (pending s B).card < 2 ^ 32 := by
  have hle := singles_length_add_pending_le s B
  omega

/-- The buffers fit their segments as long as the slot count does not wrap. -/
theorem buildState_ready_of_lt {n : ℕ} (hpos : 0 < buildSegmentSize n)
    (hlt : 3 * buildSegmentSize n < 2 ^ 32) :
    MapReady n (buildSegmentSize n) (buildState n) := by
  have hwrap : wrap32 (buildSegmentSize n * 3) = 3 * buildSegmentSize n := by
    rw [Nat.mul_comm, wrap32_of_lt hlt]
  refine ⟨?_, by simp [buildState, stackCreate], by simp [buildState, bucketsCreate, hwrap]⟩
  simp only [buildState, hwrap, buildQueueCapacity]
  exact queueCreate_ok (by omega) (by omega)

theorem buildState_ready {n : ℕ} (h0 : 1 ≤ n) (hn : n ≤ 2 ^ 30) :
    MapReady n (buildSegmentSize n) (buildState n) := by
  have hlt := three_mul_buildSegmentSize_lt hn
  exact buildState_ready_of_lt (buildSegmentSize_pos h0 hn) (by omega)

section Build

variable {mem : Memory} {hashes : List UInt64}

variable (mem) in
theorem buildSlots_ok (h0 : 1 ≤ hashes.length) (hn : hashes.length ≤ 2 ^ 30) (seed x : ℕ) :
    SlotsOk (buildSegmentSize hashes.length) (buildSlots mem hashes seed x) := by
  have hlt := three_mul_buildSegmentSize_lt hn
  exact keySlots_ok (buildSegmentSize_pos h0 hn) (by omega) mem hashes seed x

/-- One attempt: the result, the order on the stack, and buffers that are fit
for the next attempt. -/
theorem map_spec (h0 : 1 ≤ hashes.length) (hn : hashes.length ≤ 2 ^ 30) {seed : ℕ}
    (hload : Uncrowded mem hashes seed) {st : MapState}
    (hst : MapReady hashes.length (buildSegmentSize hashes.length) st) :
    ∃ ks st', map mem hashes (buildSegmentSize hashes.length) seed st =
        some (ks.length == hashes.length, st') ∧
      LoopInv (buildSlots mem hashes seed) hashes.length (buildSegmentSize hashes.length) ks st' ∧
      (ks.length = hashes.length ↔ SeedPeelable mem hashes seed) := by
  have hlt := three_mul_buildSegmentSize_lt hn
  have hpos := buildSlots_ok mem h0 hn seed
  obtain ⟨ks, st', hmap, hks, hwork⟩ := mapSlots_spec mem hst hpos (by omega) (by omega)
    (room_of_lt hlt _) fun _ _ b _ => hload b
  exact ⟨ks, st', hmap, hks, hks.peel.length_eq_iff hpos hload hwork⟩

theorem seedLoop_succ {s tries seed : ℕ} {st st' : MapState} {b : Bool}
    (hmap : map mem hashes s seed st = some (b, st')) :
    seedLoop mem hashes s (tries + 1) seed st =
      if b then some (some (seed, st')) else seedLoop mem hashes s tries (seed + 1) st' := by
  rw [seedLoop, hmap]
  cases b <;> rfl

theorem bounds_of_seedLoop {s tries seed sd : ℕ} {st st' : MapState}
    (h : seedLoop mem hashes s tries seed st = some (some (sd, st'))) :
    seed ≤ sd ∧ sd < seed + tries := by
  induction tries generalizing seed st with
  | zero => simp [seedLoop] at h
  | succ tries ih =>
    rw [seedLoop] at h
    split at h
    · exact absurd h (by simp)
    · simp only [Option.some.injEq, Prod.mk.injEq] at h
      omega
    · have hb := ih h
      omega

/-- The seed the loop returns with is the first that admits an order. Only the
seeds up to it have to be uncrowded. -/
theorem seedLoop_found (h0 : 1 ≤ hashes.length) (hn : hashes.length ≤ 2 ^ 30) {tries seed sd : ℕ}
    {st st' : MapState} (hst : MapReady hashes.length (buildSegmentSize hashes.length) st)
    (hfound : seedLoop mem hashes (buildSegmentSize hashes.length) tries seed st =
      some (some (sd, st'))) (hload : ∀ i, seed ≤ i → i ≤ sd → Uncrowded mem hashes i) :
    SeedPeelable mem hashes sd ∧
      (∀ i, seed ≤ i → i < sd → ¬ SeedPeelable mem hashes i) ∧
      ∃ ks, LoopInv (buildSlots mem hashes sd) hashes.length (buildSegmentSize hashes.length)
        ks st' ∧ ks.length = hashes.length := by
  induction tries generalizing seed st with
  | zero => simp [seedLoop] at hfound
  | succ tries ih =>
    have hle := (bounds_of_seedLoop hfound).1
    obtain ⟨ks, st₁, hmap, hks, hiff⟩ := map_spec h0 hn (hload seed le_rfl hle) hst
    rw [seedLoop_succ hmap] at hfound
    by_cases hlen : ks.length = hashes.length
    · rw [if_pos (by simpa using hlen)] at hfound
      simp only [Option.some.injEq, Prod.mk.injEq] at hfound
      obtain ⟨rfl, rfl⟩ := hfound
      exact ⟨hiff.1 hlen, fun i _ _ => by omega, ks, hks, hlen⟩
    · rw [if_neg (by simpa using hlen)] at hfound
      obtain ⟨hp, hmin, hinv⟩ := ih hks.ready hfound fun i hi => hload i (by omega)
      refine ⟨hp, fun i hi hisd => ?_, hinv⟩
      rcases Nat.eq_or_lt_of_le hi with rfl | hi
      · exact fun h => hlen (hiff.2 h)
      · exact hmin i hi hisd

/-- The loop gives up exactly when no seed it may try admits an order. -/
theorem seedLoop_eq_none_iff (h0 : 1 ≤ hashes.length) (hn : hashes.length ≤ 2 ^ 30)
    (tries seed : ℕ) {st : MapState}
    (hst : MapReady hashes.length (buildSegmentSize hashes.length) st)
    (hload : ∀ i, seed ≤ i → i < seed + tries → Uncrowded mem hashes i) :
    (∃ r, seedLoop mem hashes (buildSegmentSize hashes.length) tries seed st = some r) ∧
      (seedLoop mem hashes (buildSegmentSize hashes.length) tries seed st = some none ↔
        ∀ i, seed ≤ i → i < seed + tries → ¬ SeedPeelable mem hashes i) := by
  induction tries generalizing seed st with
  | zero => exact ⟨⟨none, rfl⟩, fun _ i _ _ => by omega, fun _ => rfl⟩
  | succ tries ih =>
    obtain ⟨ks, st₁, hmap, hks, hiff⟩ := map_spec h0 hn (hload seed le_rfl (by omega)) hst
    rw [seedLoop_succ hmap]
    by_cases hlen : ks.length = hashes.length
    · rw [if_pos (by simpa using hlen)]
      refine ⟨⟨_, rfl⟩, fun h => by simp at h, fun h => ?_⟩
      exact absurd (hiff.1 hlen) (h seed le_rfl (by omega))
    · rw [if_neg (by simpa using hlen)]
      obtain ⟨hsome, hnone⟩ := ih (seed + 1) hks.ready fun i hi hlt =>
        hload i (by omega) (by omega)
      refine ⟨hsome,
        hnone.trans ⟨fun h i hi hlt => ?_, fun h i hi hlt => h i (by omega) (by omega)⟩⟩
      rcases Nat.eq_or_lt_of_le hi with rfl | hi
      · exact fun hp => hlen (hiff.2 hp)
      · exact h i hi (by omega)

end Build

/-! Any order of the queue -/

section AnyOrder

variable {pos : ℕ → HashNoFP} {n s : ℕ}

theorem workRun_inv (hpos : ∀ x, SlotsOk s (pos x)) (hload : ∀ b, load pos n b ≤ 255)
    {w w' : WorkState} (hrun : Relation.ReflTransGen (WorkStep pos s) w w')
    (hw : ∃ ks, PeelInv pos n s ks w) : ∃ ks, PeelInv pos n s ks w' := by
  induction hrun with
  | refl => exact hw
  | tail _ hstep ih =>
    obtain ⟨ks, hks⟩ := ih
    obtain ⟨l₁, idx, l₂, hwork, rfl⟩ := hstep
    rename_i w₁ _
    by_cases hc : bucketGetCount w₁.B idx = 1
    · exact ⟨_, hks.take hpos hwork hc (hload idx)⟩
    · exact ⟨ks, hks.skip hwork hc⟩

end AnyOrder

end RedisXor
