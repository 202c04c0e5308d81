import RedisXor.Proofs.Dedup
import RedisXor.Proofs.Hashes

/-! The scan of `XOR.BUILD`. `SSCAN` promises every member at least once; the
loop stops after as many elements as the set has members, repeats included. -/

namespace RedisXor

/-- The elements of all batches, in order. -/
def delivered : List ScanReply → List Bytes
  | [] => []
  | .failed :: replies => delivered replies
  | .batch _ items :: replies => items ++ delivered replies

/-- A full iteration: cursor 0 comes back with the last batch and not before. -/
inductive FullScan : List ScanReply → Prop
  | last (items : List Bytes) : FullScan [.batch 0 items]
  | more {cursor : ℕ} {items : List Bytes} {replies : List ScanReply} :
      cursor ≠ 0 → FullScan replies → FullScan (.batch cursor items :: replies)

/-- What `SSCAN` promises about a set that does not change. -/
structure Covers (s : RedisSet) (replies : List ScanReply) : Prop where
  full : FullScan replies
  mem_iff : ∀ x, x ∈ delivered replies ↔ x ∈ s.members

/-- The stronger case of one delivery per member. -/
structure DeliversOnce (s : RedisSet) (replies : List ScanReply) : Prop where
  full : FullScan replies
  perm : (delivered replies).Perm s.members

section Loop

variable (hashBuild : Bytes → UInt64) {n : ℕ}

theorem loadBatch_eq (items : List Bytes) {hashes : List UInt64} (h : hashes.length ≤ n) :
    loadBatch hashBuild n hashes items =
      hashes ++ (items.take (n - hashes.length)).map hashBuild := by
  induction items generalizing hashes with
  | nil => simp [loadBatch]
  | cons item items ih =>
    rw [loadBatch, List.foldl_cons]
    split_ifs with hlt
    · have hlen : (hashes ++ [hashBuild item]).length = hashes.length + 1 := by simp
      have hle : (hashes ++ [hashBuild item]).length ≤ n := by omega
      have hstep := ih hle
      rw [loadBatch] at hstep
      rw [hstep, hlen, show n - hashes.length = n - (hashes.length + 1) + 1 by omega,
        List.take_succ_cons, List.map_cons, List.append_assoc, List.singleton_append]
    · have hstep := ih h
      rw [loadBatch] at hstep
      rw [hstep, show n - hashes.length = 0 by omega, List.take_zero, List.take_zero]

/-- The loop loads the first `n` elements delivered and looks no further. -/
theorem scanLoop_eq {replies : List ScanReply} (hfull : FullScan replies) {hashes : List UInt64}
    (h : hashes.length ≤ n) : scanLoop hashBuild n replies hashes =
      .loaded (hashes ++ ((delivered replies).take (n - hashes.length)).map hashBuild) := by
  induction hfull generalizing hashes with
  | last items =>
    rw [scanLoop]
    split_ifs with hlt hc
    · rw [loadBatch_eq hashBuild items h, delivered, delivered, List.append_nil]
    · exact absurd rfl hc
    · rw [show n - hashes.length = 0 by omega, List.take_zero, List.map_nil, List.append_nil]
  | @more cursor items replies hcursor _ ih =>
    rw [scanLoop]
    split_ifs with hlt
    · rw [loadBatch_eq hashBuild items h]
      have hlen : (hashes ++ (items.take (n - hashes.length)).map hashBuild).length =
          hashes.length + min (n - hashes.length) items.length := by simp
      rw [ih (by omega), hlen, delivered, List.take_append, List.map_append, List.append_assoc,
        show n - (hashes.length + min (n - hashes.length) items.length) =
          n - hashes.length - items.length by omega]
    · rw [show n - hashes.length = 0 by omega, List.take_zero, List.map_nil, List.append_nil]

/-- From an empty array. -/
theorem scanLoop_nil (n : ℕ) {replies : List ScanReply} (hfull : FullScan replies) :
    scanLoop hashBuild n replies [] = .loaded (((delivered replies).take n).map hashBuild) := by
  have hle : ([] : List UInt64).length ≤ n := Nat.zero_le n
  have hscan := scanLoop_eq hashBuild hfull hle
  rwa [List.nil_append, List.length_nil, Nat.sub_zero] at hscan

end Loop

/-- The array `XOR.BUILD` hands to `xor_build` holds the hashes of all members
and no others. -/
def ArrayComplete (hashBuild : Bytes → UInt64) (qsort : Qsort) (s : RedisSet)
    (replies : List ScanReply) : Prop :=
  ∃ hashes, scanLoop hashBuild s.members.length replies [] = .loaded hashes ∧
    ∀ a, a ∈ dedup (qsort.run hashes) ↔ ∃ m ∈ s.members, hashBuild m = a

/-- As many different elements as there are members are all the members. -/
theorem mem_take_of_nodup {s : RedisSet} {replies : List ScanReply} (h : Covers s replies)
    (hnodup : ((delivered replies).take s.members.length).Nodup) {m : Bytes}
    (hm : m ∈ s.members) : m ∈ (delivered replies).take s.members.length := by
  have hsub : (delivered replies).take s.members.length ⊆ s.members := fun x hx =>
    (h.mem_iff x).1 (List.mem_of_mem_take hx)
  have hlen : s.members.length ≤ (delivered replies).length :=
    (List.subperm_of_subset s.nodup fun x hx => (h.mem_iff x).2 hx).length_le
  have hperm : ((delivered replies).take s.members.length).Perm s.members :=
    (List.subperm_of_subset hnodup hsub).perm_of_length_le (by rw [List.length_take]; omega)
  exact hperm.mem_iff.2 hm

/-- The members that the elements taken leave out share their hashes with some
of them. -/
def LeftOutShare (hashBuild : Bytes → UInt64) (s : RedisSet) (replies : List ScanReply) : Prop :=
  ∀ m ∈ s.members, m ∉ (delivered replies).take s.members.length →
    ∃ m' ∈ (delivered replies).take s.members.length, hashBuild m' = hashBuild m

/-- Different elements leave nobody out. -/
theorem leftOutShare_of_nodup (hashBuild : Bytes → UInt64) {s : RedisSet}
    {replies : List ScanReply} (h : Covers s replies)
    (hnodup : ((delivered replies).take s.members.length).Nodup) :
    LeftOutShare hashBuild s replies :=
  fun _ hm htake => absurd (mem_take_of_nodup h hnodup hm) htake

/-- No member is lost exactly when each member that the elements taken leave out
shares its hash with one of them. -/
theorem arrayComplete_iff (hashBuild : Bytes → UInt64) (qsort : Qsort) {s : RedisSet}
    {replies : List ScanReply} (h : Covers s replies) :
    ArrayComplete hashBuild qsort s replies ↔ LeftOutShare hashBuild s replies := by
  have hscan := scanLoop_nil hashBuild s.members.length h.full
  have hmem (a : UInt64) : a ∈ dedup (qsort.run
      (((delivered replies).take s.members.length).map hashBuild)) ↔
        ∃ m ∈ (delivered replies).take s.members.length, hashBuild m = a := by
    rw [mem_dedup_qsort, List.mem_map]
  constructor
  · rintro ⟨hashes, hloaded, hall⟩
    rw [hscan, ScanResult.loaded.injEq] at hloaded
    subst hloaded
    exact fun m hm _ => (hmem _).1 ((hall _).2 ⟨m, hm, rfl⟩)
  · intro hshare
    refine ⟨_, hscan, fun a => ?_⟩
    rw [hmem]
    constructor
    · rintro ⟨m, hm, rfl⟩
      exact ⟨m, (h.mem_iff m).1 (List.mem_of_mem_take hm), rfl⟩
    · rintro ⟨m, hm, rfl⟩
      by_cases htake : m ∈ (delivered replies).take s.members.length
      · exact ⟨m, htake, rfl⟩
      · exact hshare m hm htake

/-- The members `a` and `b`. -/
def twoMembers : RedisSet := ⟨[[97], [98]], by decide⟩

theorem twoMembers_covers (first second : List Bytes)
    (h : ∀ x, x ∈ first ++ second ↔ x ∈ twoMembers.members) :
    Covers twoMembers [.batch 5 first, .batch 0 second] :=
  ⟨.more (by decide) (.last second), by simpa only [delivered, List.append_nil] using h⟩

/-- A repeat behind the last member does no harm. -/
theorem arrayComplete_late_repeat :
    ArrayComplete hashBuild insertionQsort twoMembers
      [.batch 5 [[98], [97]], .batch 0 [[97]]] := by
  have hcover := twoMembers_covers [[98], [97]] [[97]] fun x => by simp [twoMembers]; tauto
  exact (arrayComplete_iff hashBuild insertionQsort hcover).2
    (leftOutShare_of_nodup hashBuild hcover (by decide))

/-- A repeat before it takes the place of a member. -/
theorem arrayComplete_early_repeat :
    Covers twoMembers [.batch 5 [[97], [97]], .batch 0 [[98]]] ∧
      scanLoop hashBuild 2 [.batch 5 [[97], [97]], .batch 0 [[98]]] [] =
        .loaded [hashBuild [97], hashBuild [97]] ∧
      ¬ ArrayComplete hashBuild insertionQsort twoMembers
        [.batch 5 [[97], [97]], .batch 0 [[98]]] := by
  refine ⟨twoMembers_covers _ _ fun x => by simp [twoMembers], rfl, ?_⟩
  rintro ⟨hashes, hloaded, hall⟩
  have hscan : scanLoop hashBuild twoMembers.members.length
      [.batch 5 [[97], [97]], .batch 0 [[98]]] [] = .loaded [hashBuild [97], hashBuild [97]] := rfl
  rw [hscan, ScanResult.loaded.injEq] at hloaded
  subst hloaded
  have hmem := (hall (hashBuild [98])).2 ⟨[98], by decide, rfl⟩
  rw [mem_dedup_qsort] at hmem
  exact absurd hmem (by decide +kernel)

end RedisXor
