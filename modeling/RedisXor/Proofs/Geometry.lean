import RedisXor.Proofs.SeedSearch

/-! Which numbers of keys the geometry admits at all. With n + 2 slots or more,
key k can have the window k, k + 1, k + 2 of a numbering that takes the segments
in turn, and be peeled by its lowest slot. The size formula gives that many
slots to every number of keys but two. -/

namespace RedisXor

open Peeling

/-- The window of key `k`; keys from `n` on are not used. -/
def windowSlots (n s k : ℕ) : HashNoFP :=
  if k < n then ⟨(k + 2) / 3, s + (k + 1) / 3, 2 * s + k / 3⟩ else ⟨0, s, 2 * s⟩

/-- Slot `j` of the numbering. -/
def windowSlot (s j : ℕ) : ℕ := j % 3 * s + j / 3

section Window

variable {n s k : ℕ}

theorem windowSlots_of_lt (hk : k < n) :
    windowSlots n s k = ⟨(k + 2) / 3, s + (k + 1) / 3, 2 * s + k / 3⟩ := if_pos hk

theorem windowSlots_ok (hn : n + 2 ≤ 3 * s) (k : ℕ) : SlotsOk s (windowSlots n s k) := by
  rw [windowSlots]
  split_ifs <;> constructor <;> simp only <;> omega

/-- The window of key `k` in the numbering. -/
theorem touches_window_iff (hn : n + 2 ≤ 3 * s) (hk : k < n) {b : ℕ} :
    Touches (windowSlots n s k) b ↔
      b = windowSlot s k ∨ b = windowSlot s (k + 1) ∨ b = windowSlot s (k + 2) := by
  rw [windowSlots_of_lt hk, Touches]
  simp only [windowSlot]
  have h3 : k % 3 = 0 ∨ k % 3 = 1 ∨ k % 3 = 2 := by omega
  rcases h3 with h | h | h
  · rw [h, show (k + 1) % 3 = 1 by omega, show (k + 2) % 3 = 2 by omega,
      show (k + 1) / 3 = k / 3 by omega, show (k + 2) / 3 = k / 3 by omega]
    omega
  · rw [h, show (k + 1) % 3 = 2 by omega, show (k + 2) % 3 = 0 by omega,
      show (k + 1) / 3 = k / 3 by omega]
    omega
  · rw [h, show (k + 1) % 3 = 0 by omega, show (k + 2) % 3 = 1 by omega,
      show (k + 2) / 3 = (k + 1) / 3 by omega]
    omega

/-- The numbering is one to one on the slots there are. -/
theorem windowSlot_inj {i j : ℕ} (hi : i < 3 * s) (hj : j < 3 * s)
    (h : windowSlot s i = windowSlot s j) : i = j := by
  simp only [windowSlot] at h
  have hi3 : i % 3 = 0 ∨ i % 3 = 1 ∨ i % 3 = 2 := by omega
  have hj3 : j % 3 = 0 ∨ j % 3 = 1 ∨ j % 3 = 2 := by omega
  rcases hi3 with hi3 | hi3 | hi3 <;> rcases hj3 with hj3 | hj3 | hj3 <;>
    rw [hi3, hj3] at h <;> omega

/-- Keys that share slot `j` are `j - 2`, `j - 1` and `j`. -/
theorem touches_windowSlot_iff (hn : n + 2 ≤ 3 * s) (hk : k < n) {j : ℕ} (hj : j < 3 * s) :
    Touches (windowSlots n s k) (windowSlot s j) ↔ k ≤ j ∧ j ≤ k + 2 := by
  rw [touches_window_iff hn hk]
  constructor
  · rintro (h | h | h)
    · have := windowSlot_inj hj (by omega) h
      omega
    · have := windowSlot_inj hj (by omega) h
      omega
    · have := windowSlot_inj hj (by omega) h
      omega
  · intro h
    have hcases : j = k ∨ j = k + 1 ∨ j = k + 2 := by omega
    rcases hcases with rfl | rfl | rfl
    · exact Or.inl rfl
    · exact Or.inr (Or.inl rfl)
    · exact Or.inr (Or.inr rfl)

/-- Each slot that is touched has a number. -/
theorem exists_windowSlot (hn : n + 2 ≤ 3 * s) (hk : k < n) {b : ℕ}
    (hb : Touches (windowSlots n s k) b) : ∃ j, j < n + 2 ∧ b = windowSlot s j := by
  rcases (touches_window_iff hn hk).1 hb with rfl | rfl | rfl
  · exact ⟨k, by omega, rfl⟩
  · exact ⟨k + 1, by omega, rfl⟩
  · exact ⟨k + 2, by omega, rfl⟩

theorem window_peelable (hn : n + 2 ≤ 3 * s) :
    Peelable (fun k b => Touches (windowSlots n s k) b) (Finset.range n) := by
  refine ⟨List.range n, List.nodup_range, fun k => by rw [List.mem_range, Finset.mem_range],
    peelOrder_of_pairwise (v := windowSlot s) (fun k hk => ?_) ?_⟩
  · have hk := List.mem_range.1 hk
    exact (touches_windowSlot_iff hn hk (by omega)).2 (by omega)
  · refine List.pairwise_lt_range.imp_of_mem fun {k k'} _ hk' hlt ht => ?_
    have hk' := List.mem_range.1 hk'
    have := (touches_windowSlot_iff hn hk' (by omega)).1 ht
    omega

theorem window_load_le (hn : n + 2 ≤ 3 * s) (b : ℕ) : load (windowSlots n s) n b ≤ 3 := by
  rcases (keysAt (windowSlots n s) (Finset.range n) b).eq_empty_or_nonempty with hempty | ⟨k, hk⟩
  · rw [load, hempty]
    exact Nat.zero_le 3
  · obtain ⟨hk, hb⟩ := Finset.mem_filter.1 hk
    obtain ⟨j, hj, rfl⟩ := exists_windowSlot hn (Finset.mem_range.1 hk) hb
    have hsub : keysAt (windowSlots n s) (Finset.range n) (windowSlot s j) ⊆
        {j, j - 1, j - 2} := by
      intro k' hk'
      obtain ⟨hk', hb'⟩ := Finset.mem_filter.1 hk'
      have := (touches_windowSlot_iff hn (Finset.mem_range.1 hk') (by omega)).1 hb'
      simp only [Finset.mem_insert, Finset.mem_singleton]
      omega
    exact (Finset.card_le_card hsub).trans Finset.card_le_three

/-- The slots with one key lie at the two ends of the numbering. -/
theorem windowSlot_of_load_eq_one (hn : n + 2 ≤ 3 * s) {b : ℕ}
    (hb : load (windowSlots n s) n b = 1) :
    b = windowSlot s 0 ∨ b = windowSlot s 1 ∨ b = windowSlot s (n + 1) := by
  obtain ⟨k, hk⟩ := Finset.card_eq_one.1 hb
  have hkb := Finset.mem_filter.1 (hk.symm ▸ Finset.mem_singleton_self k)
  obtain ⟨j, hj, rfl⟩ := exists_windowSlot hn (Finset.mem_range.1 hkb.1) hkb.2
  have honly : ∀ k' < n, k' ≤ j → j ≤ k' + 2 → k' = k := by
    intro k' hk' hle hge
    have ht := (touches_windowSlot_iff hn hk' (by omega)).2 ⟨hle, hge⟩
    have hmem : k' ∈ keysAt (windowSlots n s) (Finset.range n) (windowSlot s j) :=
      Finset.mem_filter.2 ⟨Finset.mem_range.2 hk', ht⟩
    rw [hk] at hmem
    exact Finset.mem_singleton.1 hmem
  have hj3 : j = 0 ∨ j = 1 ∨ j = n + 1 := by
    by_contra hmid
    have h1 := honly (j - 1) (by omega) (by omega) (by omega)
    have h2 := honly (j - 2) (by omega) (by omega) (by omega)
    omega
  rcases hj3 with rfl | rfl | rfl
  · exact Or.inl rfl
  · exact Or.inr (Or.inl rfl)
  · exact Or.inr (Or.inr rfl)

theorem window_count (hn : n + 2 ≤ 3 * s) (hn32 : n ≤ 2 ^ 32) (b : ℕ) :
    bucketGetCount (filled (windowSlots n s) n s) b = load (windowSlots n s) n b := by
  obtain ⟨-, hval⟩ := fillBuckets_spec (B := bucketsCreate (3 * s))
    rfl (windowSlots_ok hn) hn32
  have hle := window_load_le hn b
  rw [filled, (hval b).1]
  omega

/-- The queue of this family never comes near the size at which its indices
would wrap. -/
theorem window_room (hn : n + 2 ≤ 3 * s) (hn32 : n + 8 < 2 ^ 32) :
    2 * (singles s (filled (windowSlots n s) n s)).length +
      (pending s (filled (windowSlots n s) n s)).card < 2 ^ 32 := by
  have hcount := window_count hn (by omega : n ≤ 2 ^ 32)
  have hsingles : (singles s (filled (windowSlots n s) n s)).length ≤ 3 := by
    have hnodup : (singles s (filled (windowSlots n s) n s)).Nodup :=
      List.Nodup.filter _ List.nodup_range
    have hsub : (singles s (filled (windowSlots n s) n s)).toFinset ⊆
        {windowSlot s 0, windowSlot s 1, windowSlot s (n + 1)} := by
      intro b hb
      have h1 := (List.mem_filter.1 (List.mem_toFinset.1 hb)).2
      rw [decide_eq_true_eq, hcount] at h1
      simp only [Finset.mem_insert, Finset.mem_singleton]
      exact windowSlot_of_load_eq_one hn h1
    rw [← List.toFinset_card_of_nodup hnodup]
    exact (Finset.card_le_card hsub).trans Finset.card_le_three
  have hpending : (pending s (filled (windowSlots n s) n s)).card ≤ n + 2 := by
    have hsub : pending s (filled (windowSlots n s) n s) ⊆
        (Finset.range (n + 2)).image (windowSlot s) := by
      intro b hb
      have h2 := (Finset.mem_filter.1 hb).2
      rw [hcount] at h2
      obtain ⟨k, hk⟩ := Finset.card_pos.1 (lt_of_lt_of_le Nat.zero_lt_two h2)
      obtain ⟨hk, hkb⟩ := Finset.mem_filter.1 hk
      obtain ⟨j, hj, rfl⟩ := exists_windowSlot hn (Finset.mem_range.1 hk) hkb
      exact Finset.mem_image_of_mem _ (Finset.mem_range.2 hj)
    refine (Finset.card_le_card hsub).trans (Finset.card_image_le.trans ?_)
    rw [Finset.card_range]
  omega

/-- With two slots more than keys, `map` succeeds on this family. -/
theorem mapSlots_window (mem : Memory) {st : MapState} (hst : MapReady n s st)
    (hn : n + 2 ≤ 3 * s) (hs : 3 * s < 2 ^ 32) (hn32 : n + 8 < 2 ^ 32) :
    ∃ st', mapSlots mem (windowSlots n s) n s st = some (true, st') := by
  have hload : ∀ b, load (windowSlots n s) n b ≤ 255 := fun b =>
    (window_load_le hn b).trans (by omega)
  obtain ⟨ks, st', hmap, hks, hwork⟩ := mapSlots_spec mem hst (windowSlots_ok hn)
    (by omega) hs (window_room hn hn32) fun _ _ b _ => hload b
  have hlen := (hks.peel.length_eq_iff (windowSlots_ok hn) hload hwork).2 (window_peelable hn)
  refine ⟨st', ?_⟩
  rw [hmap, beq_iff_eq.2 hlen]

end Window

/-! Two keys: the formula gives them three slots -/

/-- An order of `n` keys needs `n + 2` slots. -/
theorem add_two_le_of_peelable {pos : ℕ → HashNoFP} {n s : ℕ} (h0 : 1 ≤ n)
    (hpos : ∀ x < n, SlotsOk s (pos x))
    (hp : Peelable (fun k b => Touches (pos k) b) (Finset.range n)) : n + 2 ≤ 3 * s := by
  obtain ⟨L, hnodup, hmem, hL⟩ := hp
  have hlen : L.length = n := by
    have hL : L.toFinset = Finset.range n := by
      ext k
      rw [List.mem_toFinset, hmem]
    rw [← List.toFinset_card_of_nodup hnodup, hL, Finset.card_range]
  have hne : L ≠ [] := List.ne_nil_of_length_pos (by omega)
  have hlt : ∀ k ∈ L, SlotsOk s (pos k) := fun k hk =>
    hpos k (Finset.mem_range.1 ((hmem k).1 hk))
  have hle := hL.length_add_le (r := 3) hne (Finset.range (3 * s))
    (fun k hk b hb => Finset.mem_range.2 ((hlt k hk).lt hb)) fun k hk => ?_
  · rw [Finset.card_range] at hle
    omega
  · have ⟨h0, h1, h1', h2, h2'⟩ := hlt k hk
    have hcard : ({(pos k).h0, (pos k).h1, (pos k).h2} : Finset ℕ).card = 3 :=
      Finset.card_eq_three.2 ⟨_, _, _, by omega, by omega, by omega, rfl⟩
    refine hcard.symm.le.trans (Finset.card_le_card fun b hb => ?_)
    simp only [Finset.mem_insert, Finset.mem_singleton] at hb
    exact Finset.mem_filter.2 ⟨Finset.mem_range.2 ((hlt k hk).lt hb), hb⟩

theorem xorBuild_two (mem : Memory) {hashes : List UInt64} (h2 : hashes.length = 2)
    (fpSize : FingerprintSize) : xorBuild mem hashes fpSize = some none := by
  have hn : hashes.length ≤ 2 ^ 30 := by omega
  refine (xorBuild_eq_none_iff (by omega) hn
    (fun seed _ => uncrowded_of_length_le (by omega) seed) fpSize).2.2 fun seed _ hp => ?_
  have hle := add_two_le_of_peelable (by omega)
    (fun x _ => buildSlots_ok mem (by omega) hn seed x) hp
  rw [buildSegmentSize_of_le hn, h2] at hle
  omega

/-- Two keys fill the three buckets twice each, so nothing is ever queued. -/
theorem not_mapSlots_two (mem : Memory) {pos : ℕ → HashNoFP} (hpos : ∀ x < 2, SlotsOk 1 (pos x)) :
    ¬ ∃ st, mapSlots mem pos 2 1 (buildState 2) = some (true, st) := by
  have hslots : ∀ x < 2, pos x = ⟨0, 1, 2⟩ := by
    intro x hx
    obtain ⟨h0, h1, h1', h2, h2'⟩ := hpos x hx
    rcases hp : pos x with ⟨p0, p1, p2⟩
    simp only [hp] at h0 h1 h1' h2 h2'
    rw [show p0 = 0 by omega, show p1 = 1 by omega, show p2 = 2 by omega]
  have hfill : ∀ B, fillBuckets pos 2 B = fillBuckets (fun _ => ⟨0, 1, 2⟩) 2 B := by
    intro B
    simp only [fillBuckets, List.range_succ, List.range_zero, List.nil_append, List.cons_append,
      List.foldl_cons, List.foldl_nil, pushKey, hslots 0 (by omega), hslots 1 (by omega)]
  have hrun : mapSlots mem pos 2 1 (buildState 2) =
      some (false, mapInit mem (fun _ => ⟨0, 1, 2⟩) 2 1 (buildState 2)) := by
    rw [mapSlots, mapInit, hfill]
    rfl
  rw [hrun]
  rintro ⟨st, hmap⟩
  simp at hmap

/-- `map` succeeds on some family of `n` slot triples in the geometry of
`xor_build`, for every number of keys but two. -/
theorem geometry_succeeds_iff (mem : Memory) {n : ℕ} (h0 : 1 ≤ n)
    (hs : 3 * ((41 * n + 99) / 100) < 2 ^ 32) :
    (∃ pos : ℕ → HashNoFP, (∀ x < n, SlotsOk (buildSegmentSize n) (pos x)) ∧
      ∃ st, mapSlots mem pos n (buildSegmentSize n) (buildState n) = some (true, st)) ↔
      n ≠ 2 := by
  have hsize : buildSegmentSize n = (41 * n + 99) / 100 := wrap32_of_lt (by omega)
  constructor
  · rintro ⟨pos, hpos, st, hmap⟩ rfl
    exact not_mapSlots_two mem hpos ⟨st, hmap⟩
  · intro h2
    have hn : n + 2 ≤ 3 * buildSegmentSize n := by omega
    exact ⟨windowSlots n (buildSegmentSize n), fun x _ => windowSlots_ok hn x,
      mapSlots_window mem (buildState_ready_of_lt (by omega) (by omega)) hn (by omega) (by omega)⟩

theorem geometry_succeeds_three : ∃ pos : ℕ → HashNoFP, (∀ x < 3, SlotsOk 2 (pos x)) ∧
    ∃ st, mapSlots default pos 3 2 (buildState 3) = some (true, st) :=
  (geometry_succeeds_iff default (n := 3) (by decide) (by decide)).2 (by decide)

/-- No two keys can be built, whatever their slots, their hashes and the seed. -/
theorem geometry_dooms_two :
    (∀ mem, ∀ pos : ℕ → HashNoFP, (∀ x < 2, SlotsOk (buildSegmentSize 2) (pos x)) →
      ¬ ∃ st, mapSlots mem pos 2 (buildSegmentSize 2) (buildState 2) = some (true, st)) ∧
    ∀ mem a b fpSize, xorBuild mem [a, b] fpSize = some none :=
  ⟨fun mem _ hpos => not_mapSlots_two mem hpos, fun mem _ _ => xorBuild_two mem rfl⟩

end RedisXor
