import RedisXor.Proofs.SeedSearch

/-! When is it sound to take the key index from the accumulator of a bucket?
Exactly as long as no bucket that received more than 255 keys is taken: the
counter of such a bucket stopped at 255 and reaches one too early, while two of
its keys are still there. -/

namespace RedisXor

open Peeling

/-- The keys on the stack, the first pushed first. -/
def stackKeys (stack : Stack) : List ℕ :=
  (stack.data.take stack.head).map fun p => p.x.toNat

/-- The bucket a stack entry stands for, as `assign` decodes it. -/
def recordedBucket (pos : ℕ → HashNoFP) (p : Pair) : ℕ :=
  let h := pos p.x.toNat
  if p.slot = 0 then h.h0 else if p.slot = 1 then h.h1 else h.h2

/-- The accumulator of `b` is the one key of `b` not yet on the stack, and the
stack has room for it. -/
structure TakeSound (pos : ℕ → HashNoFP) (n : ℕ) (st : MapState) (b : ℕ) : Prop where
  only_key : ∀ k, (k < n ∧ Touches (pos k) b ∧ k ∉ stackKeys st.stack) ↔
    k = bucketGetSingleValue st.B b
  room : st.stack.head < st.stack.data.length

/-- In the run of the loop from `st`, every bucket that is taken is read soundly. -/
def PeelSound (mem : Memory) (pos : ℕ → HashNoFP) (n s : ℕ) (st : MapState) : Prop :=
  ∀ k, Reaches mem pos n s st k → ∀ b, Takes (mapRun mem pos n s st k) b →
    TakeSound pos n (mapRun mem pos n s st k) b

/-- No bucket with more keys than its counter can hold is taken. -/
def NoCrowdedTake (mem : Memory) (pos : ℕ → HashNoFP) (n s : ℕ) (st : MapState) : Prop :=
  ∀ k, Reaches mem pos n s st k → ∀ b, Takes (mapRun mem pos n s st k) b → load pos n b ≤ 255

/-- Every key is on the stack once, and its recorded bucket is touched by no key
above it. -/
structure StackComplete (pos : ℕ → HashNoFP) (n : ℕ) (stack : Stack) : Prop where
  perm : (stackKeys stack).Perm (List.range n)
  order : (stack.data.take stack.head).Pairwise fun p q =>
    ¬ Touches (pos q.x.toNat) (recordedBucket pos p)

section Stack

variable {pos : ℕ → HashNoFP} {n s : ℕ} {ks : List (ℕ × ℕ)} {w : WorkState}

theorem pairAt_x {p : ℕ × ℕ} (hp : p.1 < 2 ^ 30) : (pairAt s p).x.toNat = p.1 :=
  Nat.mod_eq_of_lt hp

theorem PeelInv.take_head (h : PeelInv pos n s ks w) :
    w.stack.data.take w.stack.head = ks.map (pairAt s) := by
  rw [h.head]
  exact h.data

theorem PeelInv.stackKeys_eq (h : PeelInv pos n s ks w) (hn : n ≤ 2 ^ 30) :
    stackKeys w.stack = ks.map Prod.fst := by
  rw [stackKeys, h.take_head, List.map_map]
  exact List.map_congr_left fun p hp => pairAt_x ((h.key_lt p hp).trans_le hn)

theorem PeelInv.takeSound (h : PeelInv pos n s ks w) (hn : n ≤ 2 ^ 30) {st : MapState}
    (hst : st.toWork = w) {b : ℕ} (hb : b < 3 * s) (hc : bucketGetCount st.B b = 1)
    (hload : load pos n b ≤ 255) : TakeSound pos n st b := by
  subst hst
  have hsingle := h.keysAt_eq_singleton hb hc hload
  have hkeys (k : ℕ) : (k < n ∧ Touches (pos k) b ∧ k ∉ stackKeys st.stack) ↔
      k = bucketGetSingleValue st.B b := by
    have hmem : k ∈ keysAt pos (remaining n ks) b ↔ k = bucketGetSingleValue st.B b := by
      rw [hsingle, Finset.mem_singleton]
      rfl
    have hst : stackKeys st.stack = ks.map Prod.fst := h.stackKeys_eq hn
    rw [← hmem, keysAt, Finset.mem_filter, mem_remaining, hst]
    tauto
  refine ⟨hkeys, ?_⟩
  have hlt := h.length_lt (mem_of_keysAt_eq_singleton hsingle).1
  have hhead : st.stack.head = ks.length := h.head
  have hlen : st.stack.data.length = n := h.data_length
  omega

theorem recordedBucket_pairAt {p : ℕ × ℕ} (hp : p.1 < 2 ^ 30) (hs : SlotsOk s (pos p.1))
    (hb : Touches (pos p.1) p.2) : recordedBucket pos (pairAt s p) = p.2 := by
  rw [recordedBucket, pairAt_x hp]
  exact slot_bucket hs hb p.1

theorem PeelInv.stackComplete (h : PeelInv pos n s ks w) (hn : n ≤ 2 ^ 30)
    (hpos : ∀ x, SlotsOk s (pos x)) (hlen : ks.length = n) : StackComplete pos n w.stack := by
  refine ⟨?_, ?_⟩
  · rw [h.stackKeys_eq hn]
    refine (List.perm_ext_iff_of_nodup h.nodup List.nodup_range).2 fun k => ?_
    rw [List.mem_range]
    refine ⟨fun hk => ?_, h.mem_keys hlen⟩
    obtain ⟨p, hp, rfl⟩ := List.mem_map.1 hk
    exact h.key_lt p hp
  · rw [h.take_head, List.pairwise_map]
    refine h.trace.2.imp_of_mem fun {p q} hp hq hpq => ?_
    have hp30 := (h.key_lt p hp).trans_le hn
    rw [pairAt_x ((h.key_lt q hq).trans_le hn), recordedBucket_pairAt hp30 (hpos p.1)
      (h.trace.1 p hp)]
    exact hpq

end Stack

section Run

variable {mem : Memory} {pos : ℕ → HashNoFP} {n s : ℕ} {st : MapState}

theorem Takes.mem_work {ks : List (ℕ × ℕ)} (h : LoopInv pos n s ks st) {b : ℕ}
    (hb : Takes st b) : b ∈ st.toWork.work := by
  obtain ⟨rest, hl⟩ := exists_rest h.queue hb.1
  rw [hb.2.1] at hl
  change b ∈ queueList st.Q
  rw [hl]
  exact List.mem_cons_self

theorem exists_first_crowded (h : ¬ NoCrowdedTake mem pos n s st) :
    ∃ k b, Reaches mem pos n s st k ∧ Takes (mapRun mem pos n s st k) b ∧ 255 < load pos n b ∧
      ∀ j < k, ∀ b, Takes (mapRun mem pos n s st j) b → load pos n b ≤ 255 := by
  simp only [NoCrowdedTake, not_forall, Nat.not_le] at h
  obtain ⟨k, hk, b, hb, hload⟩ := h
  induction k using Nat.strong_induction_on generalizing b with
  | _ k ih =>
    by_cases hfirst : ∀ j < k, ∀ b, Takes (mapRun mem pos n s st j) b → load pos n b ≤ 255
    · exact ⟨k, b, hk, hb, hload, hfirst⟩
    · simp only [not_forall, Nat.not_le] at hfirst
      obtain ⟨j, hj, b, hb, hload⟩ := hfirst
      exact ih j hj (hk.mono hj.le) b hb hload

/-- Soundness of every round is the absence of crowded buckets among those
taken: the first crowded one still has two keys. -/
theorem peelSound_iff (hst : MapReady n s st) (hpos : ∀ x, SlotsOk s (pos x)) (hn : n ≤ 2 ^ 30)
    (hs : 3 * s < 2 ^ 31) :
    PeelSound mem pos n s st ↔ NoCrowdedTake mem pos n s st := by
  constructor
  · intro hsound
    by_contra hcrowd
    obtain ⟨k, b, hk, hb, hload, hfirst⟩ := exists_first_crowded hcrowd
    obtain ⟨ks, hks⟩ := mapRun_inv hst hpos (by omega) (by omega) (room_of_lt hs _) hk hfirst
    have htwo := hks.peel.two_le_of_load_gt (hks.peel.work_lt b (hb.mem_work hks)) hb.2.2 hload
    have hkeys : stackKeys (mapRun mem pos n s st k).stack = ks.map Prod.fst :=
      hks.peel.stackKeys_eq hn
    have honly (z : ℕ) (hz : z ∈ keysAt pos (remaining n ks) b) :
        z = bucketGetSingleValue (mapRun mem pos n s st k).B b := by
      have hzm := Finset.mem_filter.1 hz
      have hzr := mem_remaining.1 hzm.1
      exact ((hsound k hk b hb).only_key z).1 ⟨hzr.1, hzm.2, by rw [hkeys]; exact hzr.2⟩
    have hone : (keysAt pos (remaining n ks) b).card ≤ 1 :=
      Finset.card_le_one.2 fun x hx y hy => (honly x hx).trans (honly y hy).symm
    omega
  · intro hload k hk b hb
    obtain ⟨ks, hks⟩ := mapRun_inv hst hpos (by omega) (by omega) (room_of_lt hs _) hk
      fun j hj b hb => hload j (hk.mono hj.le) b hb
    exact hks.peel.takeSound hn rfl (hks.peel.work_lt b (hb.mem_work hks)) hb.2.2
      (hload k hk b hb)

theorem stackComplete_of_mapSlots (hst : MapReady n s st) (hpos : ∀ x, SlotsOk s (pos x))
    (hn : n ≤ 2 ^ 30) (hs : 3 * s < 2 ^ 31) (hload : NoCrowdedTake mem pos n s st)
    {st' : MapState} (hmap : mapSlots mem pos n s st = some (true, st')) :
    StackComplete pos n st'.stack := by
  obtain ⟨ks, st₁, hmap', hks, -⟩ := mapSlots_spec mem hst hpos (by omega) (by omega)
    (room_of_lt hs _) hload
  have heq : some (true, st') = some (ks.length == n, st₁) := hmap.symm.trans hmap'
  simp only [Option.some.injEq, Prod.mk.injEq] at heq
  rw [heq.2]
  exact hks.peel.stackComplete hn hpos (by simpa using heq.1.symm)

end Run

/-- Soundness of peeling for every array, and what a success of `map` then says. -/
theorem peeling_sound_iff (mem : Memory) {hashes : List UInt64} (h0 : 1 ≤ hashes.length)
    (hn : hashes.length ≤ 2 ^ 30) (seed : ℕ) {st : MapState}
    (hst : MapReady hashes.length (buildSegmentSize hashes.length) st) :
    let n := hashes.length
    let s := buildSegmentSize n
    let pos := buildSlots mem hashes seed
    (PeelSound mem pos n s st ↔ NoCrowdedTake mem pos n s st) ∧
      (NoCrowdedTake mem pos n s st → ∀ st', map mem hashes s seed st = some (true, st') →
        StackComplete pos n st'.stack) := by
  intro n s pos
  have hs := three_mul_buildSegmentSize_lt hn
  have hpos := buildSlots_ok mem h0 hn seed
  exact ⟨peelSound_iff hst hpos hn hs, fun hload st' => stackComplete_of_mapSlots hst hpos hn hs
    hload⟩

/-- Peeling is sound on every array, from whatever state earlier attempts have
left, at the seeds that put at most 255 keys into a bucket. -/
theorem peeling_sound (mem : Memory) {hashes : List UInt64} (h0 : 1 ≤ hashes.length)
    (hn : hashes.length ≤ 2 ^ 30) {seed : ℕ} (hload : Uncrowded mem hashes seed) {st : MapState}
    (hst : MapReady hashes.length (buildSegmentSize hashes.length) st) :
    let n := hashes.length
    let s := buildSegmentSize n
    let pos := buildSlots mem hashes seed
    PeelSound mem pos n s st ∧
      ∀ st', map mem hashes s seed st = some (true, st') → StackComplete pos n st'.stack := by
  intro n s pos
  obtain ⟨hiff, hcomplete⟩ := peeling_sound_iff mem h0 hn seed hst
  have hclean : NoCrowdedTake mem pos n s st := fun _ _ b _ => hload b
  exact ⟨hiff.2 hclean, hcomplete hclean⟩

/-- A run that puts four keys on the stack. -/
theorem peeling_sound_four_hashes :
    PeelSound default (buildSlots default [1, 2, 3, 4] 5) 4 2 (buildState 4) ∧
      ∃ st', map default [1, 2, 3, 4] 2 5 (buildState 4) = some (true, st') ∧
        StackComplete (buildSlots default [1, 2, 3, 4] 5) 4 st'.stack := by
  have hready : MapReady 4 2 (buildState 4) := buildState_ready (by decide) (by decide)
  have hload : Uncrowded default [1, 2, 3, 4] 5 := uncrowded_of_length_le (by decide) 5
  obtain ⟨hsound, hcomplete⟩ := @peeling_sound default [1, 2, 3, 4] (by decide) (by decide) 5
    hload (buildState 4) hready
  have hmap : (map default [1, 2, 3, 4] 2 5 (buildState 4)).map Prod.fst = some true := by
    decide +kernel
  obtain ⟨⟨b, st'⟩, hst', rfl⟩ := Option.map_eq_some_iff.1 hmap
  exact ⟨hsound, st', hst', hcomplete st' hst'⟩

end RedisXor
