import Mathlib.Tactic.Abel
import RedisXor.Proofs.Memory
import RedisXor.Proofs.Rounds
import RedisXor.Spec.Heap

/-! What the functions of `src/tools` and `src/xor.c` do to the blocks. Each
triple says that the function computes what the definition without blocks does,
which blocks it owns before and after, and that every cell it uses is in one of
them. -/

namespace RedisXor

open Ownership While

/-! The queue -/

section Queue

variable (mem : Memory)

theorem QueueOk.cells_eq {q : Queue} (h : QueueOk q) : HasArray.cells q = q.capacity :=
  h.length_eq

theorem triple_queueCopyH {q : Obj Queue} {P : Multiset Block} {newData newCells size : ℕ}
    (hq : QueueOk q.val) (hown : q.own ⊆ P) (hnew : ⟨newData, newCells⟩ ∈ P)
    (hsize : size ≤ newCells) :
    Triple P (queueCopyH q newData size) (fun _ => True) fun _ => P := by
  refine Triple.forM fun i hi => ?_
  have hi := List.mem_range.1 hi
  have hold := Nat.mod_lt (wrap32 (q.val.first + i)) (Nat.zero_lt_of_lt hq.first_lt)
  refine Triple.access_bind (Obj.data_mem hown) (hq.cells_eq ▸ hold) ?_
  exact Triple.access hnew (by omega)

theorem triple_queueAddH {q : Obj Queue} (hq : QueueOk q.val)
    (hroom : 2 * (queueSize q.val + 1) < 2 ^ 32) (object : ℕ) :
    Triple q.own (queueAddH mem q object) (fun q' => q'.val = queueAdd mem q.val object)
      fun q' => q'.own := by
  refine Triple.access_bind (Obj.ptr_mem (Multiset.Subset.refl _)) le_rfl ?_
  split_ifs with h
  · have hfull : RingFull q.val := h
    have hcap := hfull.capacity_eq hq
    obtain ⟨gcap, -, glast, glen, -⟩ := queueGrow_spec mem hq (by omega)
    have hval := queueAdd_of_full mem object hfull
    dsimp only
    rw [gcap, glast]
    refine Triple.alloc_bind fun newData => ?_
    have hnew := Multiset.mem_singleton_self (⟨newData, 2 * q.val.capacity⟩ : Block)
    refine (triple_queueCopyH hq (subset_right _ _) (subset_left _ _ hnew) (by omega)).bind
      fun _ _ => ?_
    refine Triple.free_bind ({⟨newData, 2 * q.val.capacity⟩} + {⟨q.ptr, 1⟩})
      (by rw [Obj.own]; abel) ?_
    refine Triple.access_bind (subset_left _ _ hnew) (by omega) (Triple.ret rfl ?_)
    rw [Obj.own, add_comm, hval]
    exact congrArg _ (congrArg _ (congrArg _ (List.length_set.trans glen).symm))
  · have hval := queueAdd_of_not_full mem object h
    refine Triple.access_bind (Obj.data_mem (Multiset.Subset.refl _)) (hq.cells_eq ▸ hq.last_lt)
      (Triple.ret rfl ?_)
    refine (Obj.own_val _ ?_).symm
    rw [hval]
    exact List.length_set

end Queue

/-! The buckets -/

namespace BucketsObj

def own (b : BucketsObj) : Multiset Block :=
  {⟨b.ptr, 1⟩} + {⟨b.xSum, b.val.xSum.length⟩} + {⟨b.counts, b.val.counts.length⟩}

variable {b : BucketsObj} {β : Type} {P : Multiset Block} {Ψ : β → Prop} {R : β → Multiset Block}
  {m : ℕ}

theorem ptr_mem (hb : b.own ⊆ P) : ⟨b.ptr, 1⟩ ∈ P := hb (by simp [own])

theorem xSum_mem (hb : b.own ⊆ P) : ⟨b.xSum, b.val.xSum.length⟩ ∈ P := hb (by simp [own])

theorem counts_mem (hb : b.own ⊆ P) : ⟨b.counts, b.val.counts.length⟩ ∈ P := hb (by simp [own])

theorem own_val {val : Buckets} (hb : BucketsOk m b.val) (hval : BucketsOk m val) :
    own { b with val := val } = b.own := by
  rw [own, own, hb.xSum_length, hb.counts_length, hval.xSum_length, hval.counts_length]

theorem update_bind {i n : ℕ} {f : Buckets → Buckets} {g : BucketsObj → HeapM β} (hb : b.own ⊆ P)
    (hok : BucketsOk m b.val) (hi : i + n ≤ m) (hg : Triple P (g { b with val := f b.val }) Ψ R) :
    Triple P (b.update i n f >>= g) Ψ R := by
  rw [update]
  simp only [bind_assoc, pure_bind]
  refine Triple.access_bind (ptr_mem hb) le_rfl ?_
  refine Triple.access_bind (xSum_mem hb) (hok.xSum_length.symm ▸ hi) ?_
  exact Triple.access_bind (counts_mem hb) (hok.counts_length.symm ▸ hi) hg

theorem update_tail {i n : ℕ} {f : Buckets → Buckets} {Ψ : BucketsObj → Prop}
    {R : BucketsObj → Multiset Block} (hb : b.own ⊆ P) (hok : BucketsOk m b.val) (hi : i + n ≤ m)
    (hpost : Ψ { b with val := f b.val }) (hP : P = R { b with val := f b.val }) :
    Triple P (b.update i n f) Ψ R := by
  refine Triple.access_bind (ptr_mem hb) le_rfl ?_
  refine Triple.access_bind (xSum_mem hb) (hok.xSum_length.symm ▸ hi) ?_
  exact Triple.access_bind (counts_mem hb) (hok.counts_length.symm ▸ hi) (Triple.ret hpost hP)

end BucketsObj

section Buckets

variable {b : BucketsObj} {β : Type} {P : Multiset Block} {Ψ : β → Prop} {R : β → Multiset Block}
  {g : ℕ → HeapM β} {m idx : ℕ}

theorem bucketGetCountH_bind (hb : b.own ⊆ P) (hok : BucketsOk m b.val) (hidx : idx < m)
    (hg : Triple P (g (bucketGetCount b.val idx)) Ψ R) :
    Triple P (bucketGetCountH b idx >>= g) Ψ R := by
  rw [bucketGetCountH]
  simp only [bind_assoc, pure_bind]
  refine Triple.access_bind (b.ptr_mem hb) le_rfl ?_
  exact Triple.access_bind (b.counts_mem hb) (hok.counts_length.symm ▸ hidx) hg

theorem bucketGetSingleValueH_bind (hb : b.own ⊆ P) (hok : BucketsOk m b.val) (hidx : idx < m)
    (hg : Triple P (g (bucketGetSingleValue b.val idx)) Ψ R) :
    Triple P (bucketGetSingleValueH b idx >>= g) Ψ R := by
  rw [bucketGetSingleValueH]
  simp only [bind_assoc, pure_bind]
  refine Triple.access_bind (b.ptr_mem hb) le_rfl ?_
  exact Triple.access_bind (b.xSum_mem hb) (hok.xSum_length.symm ▸ hidx) hg

end Buckets

theorem triple_bucketsCreateH (capacity : ℕ) : Triple 0 (bucketsCreateH capacity)
    (fun b => b.val = bucketsCreate capacity) BucketsObj.own := by
  refine Triple.alloc_bind fun ptr => Triple.alloc_bind fun xSum => Triple.alloc_bind fun counts =>
    Triple.ret rfl ?_
  simp only [BucketsObj.own, bucketsCreate, List.length_replicate]
  abel

theorem triple_bucketsFreeH (b : BucketsObj) : Triple b.own (bucketsFreeH b) (fun _ => True)
    fun _ => 0 := by
  refine Triple.access_bind (b.ptr_mem (Multiset.Subset.refl _)) le_rfl ?_
  refine Triple.free_bind ({⟨b.ptr, 1⟩} + {⟨b.counts, b.val.counts.length⟩})
    (by rw [BucketsObj.own]; abel) ?_
  exact Triple.free_bind {⟨b.ptr, 1⟩} (add_comm _ _) Triple.free

/-! `map` -/

/-- The queue can take `r` more elements. -/
structure RoundReady (s r : ℕ) (QB : Queue × Buckets) : Prop where
  queue : QueueOk QB.1
  buckets : BucketsOk (3 * s) QB.2
  room : 2 * (queueSize QB.1 + r) < 2 ^ 32

section Enqueue

variable {mem : Memory} {s r idx : ℕ}

variable (mem) in
theorem enqueueSingle_ok {Q : Queue} (hQ : QueueOk Q) (hroom : 2 * (queueSize Q + 1) < 2 ^ 32)
    (B : Buckets) (idx : ℕ) : QueueOk (enqueueSingle mem B Q idx) ∧
      queueSize (enqueueSingle mem B Q idx) ≤ queueSize Q + 1 := by
  rw [enqueueSingle]
  split_ifs
  · exact ⟨(queueAdd_spec mem hQ idx hroom).1, Nat.le_of_eq (queueSize_add mem hQ idx hroom)⟩
  · exact ⟨hQ, Nat.le_succ _⟩

variable (mem) in
theorem RoundReady.peelBucket {QB : Queue × Buckets} (h : RoundReady s (r + 1) QB) (x idx : ℕ) :
    RoundReady s r (peelBucket mem x QB idx) := by
  have hroom := h.room
  obtain ⟨hQ, hsize⟩ := enqueueSingle_ok mem h.queue (by omega)
    (bucketRemove QB.2 idx x) idx
  refine ⟨hQ, bucketRemove_ok h.buckets idx x, ?_⟩
  simp only [RedisXor.peelBucket]
  omega

theorem triple_enqueueSingleH {B : BucketsObj} {Q : Obj Queue} (hB : BucketsOk (3 * s) B.val)
    (hQ : QueueOk Q.val) (hroom : 2 * (queueSize Q.val + 1) < 2 ^ 32) (hidx : idx < 3 * s) :
    Triple (Q.own + B.own) (enqueueSingleH mem B Q idx)
      (fun Q' => Q'.val = enqueueSingle mem B.val Q.val idx) fun Q' => Q'.own + B.own := by
  refine bucketGetCountH_bind (subset_right _ _) hB hidx ?_
  rw [enqueueSingle]
  split_ifs with hc
  · exact (triple_queueAddH mem hQ hroom idx).tail B.own rfl fun Q' hQ' => ⟨hQ', rfl⟩
  · exact Triple.ret rfl rfl

theorem triple_peelBucketH (x : ℕ) {QB : Obj Queue × BucketsObj}
    (h : RoundReady s (r + 1) (QB.1.val, QB.2.val)) (hidx : idx < 3 * s) :
    Triple (QB.1.own + QB.2.own) (peelBucketH mem x QB idx)
      (fun QB' => (QB'.1.val, QB'.2.val) = peelBucket mem x (QB.1.val, QB.2.val) idx)
      fun QB' => QB'.1.own + QB'.2.own := by
  have hroom : 2 * (queueSize QB.1.val + (r + 1)) < 2 ^ 32 := h.room
  refine BucketsObj.update_bind (subset_right _ _) h.buckets hidx ?_
  have hok : BucketsOk (3 * s) (bucketRemove QB.2.val idx x) := bucketRemove_ok h.buckets idx x
  let B : BucketsObj := { QB.2 with val := bucketRemove QB.2.val idx x }
  have hown : B.own = QB.2.own := BucketsObj.own_val h.buckets hok
  rw [← hown]
  exact (triple_enqueueSingleH (B := B) hok h.queue (by omega) hidx).bind fun Q hQ =>
    Triple.ret (by rw [peelBucket, hQ]) rfl

/-- The removal of a key from its three buckets. -/
theorem peelBuckets_bind {β : Type} {x : ℕ} (QB : Obj Queue × BucketsObj) (F : Multiset Block)
    {P : Multiset Block} {Ψ : β → Prop} {R : β → Multiset Block}
    {g : Obj Queue × BucketsObj → HeapM β} {h : HashNoFP}
    (hslots : SlotsOk s h) (hready : RoundReady s 3 (QB.1.val, QB.2.val))
    (hP : P = QB.1.own + QB.2.own + F)
    (hg : ∀ QB', (QB'.1.val, QB'.2.val) =
        peelBucket mem x (peelBucket mem x (peelBucket mem x (QB.1.val, QB.2.val) h.h0) h.h1) h.h2 →
      Triple (QB'.1.own + QB'.2.own + F) (g QB') Ψ R) :
    Triple P (do
      let QB ← peelBucketH mem x QB h.h0
      let QB ← peelBucketH mem x QB h.h1
      let QB ← peelBucketH mem x QB h.h2
      g QB) Ψ R := by
  obtain ⟨h0, h1, h1', h2, h2'⟩ := hslots
  refine (triple_peelBucketH x hready (by omega)).call F hP fun QB₁ hQB₁ => ?_
  have hready₁ := hready.peelBucket mem x h.h0
  rw [← hQB₁] at hready₁ hg
  refine (triple_peelBucketH x hready₁ (by omega)).call F rfl fun QB₂ hQB₂ => ?_
  have hready₂ := hready₁.peelBucket mem x h.h1
  rw [← hQB₂] at hready₂ hg
  exact (triple_peelBucketH x hready₂ (by omega)).call F rfl hg

end Enqueue

/-! `map` -/

namespace MapObj

def own (st : MapObj) : Multiset Block := st.stack.own + (st.Q.own + st.B.own)

def view (st : MapObj) : MapState := ⟨st.stack.val, st.Q.val, st.B.val⟩

variable (st : MapObj) (F : Multiset Block)

theorem stack_subset : st.stack.own ⊆ st.own + F := fun p hp => by simp [own, hp]

theorem Q_subset : st.Q.own ⊆ st.own + F := fun p hp => by simp [own, hp]

theorem B_subset : st.B.own ⊆ st.own + F := fun p hp => by simp [own, hp]

end MapObj

section Map

variable {mem : Memory} {hashes : HashArray} {room s seed : ℕ}

theorem readHashH_bind {i : ℕ} {β : Type} {P : Multiset Block} {Ψ : β → Prop}
    {R : β → Multiset Block} {g : UInt64 → HeapM β} (hp : ⟨hashes.ptr, room⟩ ∈ P) (hi : i < room)
    (hg : Triple P (g (readHash mem hashes.val i)) Ψ R) :
    Triple P (readHashH mem hashes i >>= g) Ψ R := by
  rw [readHashH]
  simp only [bind_assoc, pure_bind]
  exact Triple.access_bind hp hi hg

theorem triple_pushKeyH {B : BucketsObj} (hB : BucketsOk (3 * s) B.val) {i : ℕ} (hi : i < room)
    (hslots : SlotsOk s (keySlots mem hashes.val s seed i)) :
    Triple (B.own + {⟨hashes.ptr, room⟩}) (pushKeyH mem hashes s seed B i)
      (fun B' => B'.val = pushKey (keySlots mem hashes.val s seed) B.val i)
      fun B' => B'.own + {⟨hashes.ptr, room⟩} := by
  obtain ⟨h0, h1, h1', h2, h2'⟩ := hslots
  have hok₁ := bucketPush_ok hB (keySlots mem hashes.val s seed i).h0 (wrap32 i)
  have hok₂ := bucketPush_ok hok₁ (keySlots mem hashes.val s seed i).h1 (wrap32 i)
  have hok₃ := bucketPush_ok hok₂ (keySlots mem hashes.val s seed i).h2 (wrap32 i)
  have hown {val : Buckets} (hval : BucketsOk (3 * s) val) :
      BucketsObj.own { B with val := val } = B.own := BucketsObj.own_val hB hval
  have hsub := subset_left B.own {⟨hashes.ptr, room⟩}
  have hlt₀ : (keySlots mem hashes.val s seed i).h0 + 1 ≤ 3 * s := by omega
  have hlt₁ : (keySlots mem hashes.val s seed i).h1 + 1 ≤ 3 * s := by omega
  have hlt₂ : (keySlots mem hashes.val s seed i).h2 + 1 ≤ 3 * s := by omega
  refine readHashH_bind (by simp) hi ?_
  refine BucketsObj.update_bind hsub hB hlt₀ ?_
  refine BucketsObj.update_bind (hown hok₁ ▸ hsub) hok₁ hlt₁ ?_
  exact BucketsObj.update_tail (hown hok₂ ▸ hsub) hok₂ hlt₂ rfl (by rw [← hown hok₃]; rfl)

theorem triple_fillBucketsH {B : BucketsObj} (hB : BucketsOk (3 * s) B.val) {count : ℕ}
    (hcount : count ≤ room) (hslots : ∀ i, SlotsOk s (keySlots mem hashes.val s seed i)) :
    Triple (B.own + {⟨hashes.ptr, room⟩})
      ((List.range count).foldlM (pushKeyH mem hashes s seed) B)
      (fun B' => B'.val = fillBuckets (keySlots mem hashes.val s seed) count B.val)
      fun B' => B'.own + {⟨hashes.ptr, room⟩} := by
  refine Triple.foldlM_range (fun B' : BucketsObj => B'.own + {⟨hashes.ptr, room⟩})
    (I := fun i B' => B'.val = fillBuckets (keySlots mem hashes.val s seed) i B.val)
    (fun i hi B' hB' => ?_) rfl
  have hok : BucketsOk (3 * s) B'.val := hB' ▸ fillBuckets_ok hB i
  refine (triple_pushKeyH hok (by omega) (hslots i)).conseq rfl fun B'' hB'' => ⟨?_, rfl⟩
  rw [hB'', hB', fillBuckets_succ]

theorem triple_fillQueueH {B : BucketsObj} {Q : Obj Queue} (hB : BucketsOk (3 * s) B.val)
    (hQ : QueueOk Q.val) (hempty : queueSize Q.val = 0) (hs : 3 * s < 2 ^ 31) :
    Triple (Q.own + B.own)
      ((List.range (wrap32 (s * 3))).foldlM (enqueueSingleH mem B) Q)
      (fun Q' => Q'.val = fillQueue mem s B.val Q.val) fun Q' => Q'.own + B.own := by
  have hwrap : wrap32 (s * 3) = 3 * s := by rw [Nat.mul_comm, wrap32_of_lt (by omega)]
  rw [fillQueue, hwrap]
  refine (Triple.foldlM_range (fun Q' : Obj Queue => Q'.own + B.own) (I := fun i Q' =>
    Q'.val = (List.range i).foldl (enqueueSingle mem B.val) Q.val ∧ QueueOk Q'.val ∧
      queueSize Q'.val ≤ i) (fun i hi Q' hQ' => ?_)
    ⟨rfl, hQ, Nat.le_of_eq hempty⟩).conseq rfl fun Q' hQ' => ⟨hQ'.1, rfl⟩
  obtain ⟨hval, hok, hsize⟩ := hQ'
  refine (triple_enqueueSingleH hB hok (by omega) hi).conseq rfl fun Q'' hQ'' => ⟨?_, rfl⟩
  obtain ⟨hok', hsize'⟩ := enqueueSingle_ok mem hok (by omega) B.val i
  rw [List.range_succ, List.foldl_append, ← hval, hQ'']
  exact ⟨rfl, hok', by omega⟩

end Map

/-! The loop of `map`, in an attempt in which no bucket is crowded -/

/-- What a round finds. -/
structure PeelReady (pos : ℕ → HashNoFP) (n s : ℕ) (st : MapState) : Prop where
  loop : ∃ ks, LoopInv pos n s ks st
  safe : SafeInv n s st

section Round

variable {pos : ℕ → HashNoFP} {n s : ℕ} {st : MapState}

theorem PeelReady.head_lt (h : PeelReady pos n s st) (hne : queueIsEmpty st.Q = false) :
    (queueGet st.Q).1 < 3 * s := by
  obtain ⟨ks, hks⟩ := h.loop
  obtain ⟨rest, hrest⟩ := exists_rest hks.queue hne
  exact hks.peel.work_lt _ (by rw [MapState.toWork, hrest]; exact List.mem_cons_self)

/-- A key that is taken is one of the array, and the stack has room for it. -/
theorem PeelReady.taken (h : PeelReady pos n s st) (hload : ∀ b, load pos n b ≤ 255)
    (hne : queueIsEmpty st.Q = false) (hc : bucketGetCount st.B (queueGet st.Q).1 = 1) :
    bucketGetSingleValue st.B (queueGet st.Q).1 < n ∧ st.stack.head < n := by
  have hidx := h.head_lt hne
  obtain ⟨ks, hks⟩ := h.loop
  have hx := (mem_of_keysAt_eq_singleton (hks.peel.keysAt_eq_singleton hidx hc (hload _))).1
  refine ⟨(mem_remaining.1 hx).1, ?_⟩
  have hhead : st.stack.head = ks.length := hks.peel.head
  exact hhead ▸ hks.peel.length_lt hx

/-- The queue has room for the three slots of a key. -/
theorem PeelReady.roundReady (h : PeelReady pos n s st) (hs : 3 * s + 2 < 2 ^ 31)
    (hne : queueIsEmpty st.Q = false) : RoundReady s 3 ((queueGet st.Q).2, st.B) := by
  obtain ⟨rest, hrest⟩ := exists_rest h.safe.ready.queue hne
  have hsize : queueSize (queueGet st.Q).2 + 1 = st.toWork.work.length := by
    rw [← length_queueList, (queueGet_spec h.safe.ready.queue hrest).2, MapState.toWork, hrest,
      List.length_cons]
  have hlen : st.toWork.work.length ≤ measure s st.toWork := Nat.le_add_right _ _
  have hbound := h.safe.bounded
  refine ⟨queueGet_ok h.safe.ready.queue, h.safe.buckets, ?_⟩
  dsimp only
  omega

theorem PeelReady.step (mem : Memory) (hpos : ∀ x, SlotsOk s (pos x)) (hs : 3 * s < 2 ^ 31)
    (hload : ∀ b, load pos n b ≤ 255) (h : PeelReady pos n s st)
    (hne : queueIsEmpty st.Q = false) : PeelReady pos n s (peelBody mem pos s st) := by
  obtain ⟨ks, hks⟩ := h.loop
  exact ⟨(hks.step mem hpos hne fun b _ => hload b).1, (h.safe.step mem hpos hs hne).1⟩

end Round

section PeelLoop

variable {mem : Memory} {hashes : HashArray} {room s seed : ℕ}

theorem triple_peelBodyH (hpos : ∀ x, SlotsOk s (keySlots mem hashes.val s seed x))
    (hs : 3 * s + 2 < 2 ^ 31) (hroom : hashes.val.length ≤ room)
    (hload : ∀ b, load (keySlots mem hashes.val s seed) hashes.val.length b ≤ 255) {st : MapObj}
    (h : PeelReady (keySlots mem hashes.val s seed) hashes.val.length s st.view)
    (hne : queueIsEmpty st.Q.val = false) :
    Triple (st.own + {⟨hashes.ptr, room⟩}) (peelBodyH mem hashes s seed st)
      (fun st' => st'.view = peelBody mem (keySlots mem hashes.val s seed) s st.view)
      fun st' => st'.own + {⟨hashes.ptr, room⟩} := by
  have hidx := h.head_lt hne
  have hready := h.roundReady hs hne
  have hQ : QueueOk st.Q.val := h.safe.ready.queue
  let Q : Obj Queue := { st.Q with val := (queueGet st.Q.val).2 }
  have hgot : Q.own = st.Q.own := Obj.own_val _ rfl
  refine Obj.array_bind (st.Q_subset _) (hQ.cells_eq ▸ hQ.first_lt) ?_
  refine bucketGetCountH_bind (st.B_subset _) h.safe.buckets hidx ?_
  split_ifs with hc
  · obtain ⟨hx, hhead⟩ := h.taken hload hne hc
    have hcells : HasArray.cells st.stack.val = hashes.val.length := h.safe.ready.stack_length
    refine bucketGetSingleValueH_bind (st.B_subset _) h.safe.buckets hidx ?_
    refine Obj.array_bind (st.stack_subset _) (hcells ▸ hhead) ?_
    refine readHashH_bind (by simp) (Nat.lt_of_lt_of_le hx hroom) ?_
    refine peelBuckets_bind (Q, st.B) (st.stack.own + {⟨hashes.ptr, room⟩}) (hpos _) hready
      (by rw [MapObj.own, hgot]; abel) fun QB hQB => Triple.ret ?_ ?_
    · have hQ' := congrArg Prod.fst hQB
      have hB' := congrArg Prod.snd hQB
      dsimp only at hQ' hB'
      rw [MapObj.view, hQ', hB', peelBody]
      exact (if_pos hc).symm
    · have hpush (pair : Pair) :
          Obj.own { st.stack with val := stackPush st.stack.val pair } = st.stack.own :=
        Obj.own_val _ List.length_set
      rw [MapObj.own, hpush]
      abel
  · refine Triple.ret ?_ ?_
    · rw [peelBody]
      exact (if_neg hc).symm
    · rw [MapObj.own, MapObj.own, hgot]

theorem triple_peelLoopH (hpos : ∀ x, SlotsOk s (keySlots mem hashes.val s seed x))
    (hs : 3 * s + 2 < 2 ^ 31) (hroom : hashes.val.length ≤ room)
    (hload : ∀ b, load (keySlots mem hashes.val s seed) hashes.val.length b ≤ 255) {st : MapObj}
    (h : PeelReady (keySlots mem hashes.val s seed) hashes.val.length s st.view) {fuel : ℕ}
    {t : MapState} (ht : peelLoop mem (keySlots mem hashes.val s seed) s fuel st.view = some t) :
    Triple (st.own + {⟨hashes.ptr, room⟩}) (peelLoopH mem hashes s seed fuel st)
      (fun r => r.map MapObj.view = some t)
      fun r => r.elim 0 fun st' => st'.own + {⟨hashes.ptr, room⟩} := by
  refine Triple.whileFuelM (fun st : MapObj => st.own + {⟨hashes.ptr, room⟩}) MapObj.view
    (I := PeelReady (keySlots mem hashes.val s seed) hashes.val.length s) (fun st _ => ?_)
    (fun st hst hc => ?_) (fun t hst hc => ?_) h ht
  · exact Obj.fields_bind (st.Q_subset _) (Triple.ret rfl rfl)
  · exact triple_peelBodyH hpos hs hroom hload hst (by simpa [MapObj.view] using hc)
  · exact hst.step mem hpos (by omega) hload (by simpa using hc)

theorem triple_mapH (hpos : ∀ x, SlotsOk s (keySlots mem hashes.val s seed x))
    (hn : hashes.val.length ≤ 2 ^ 32) (hs : 3 * s + 2 < 2 ^ 31) (hroom : hashes.val.length ≤ room)
    (hload : ∀ b, load (keySlots mem hashes.val s seed) hashes.val.length b ≤ 255) {st : MapObj}
    (hst : MapReady hashes.val.length s st.view) (hB : BucketsOk (3 * s) st.B.val) {b : Bool}
    {t : MapState} (ht : map mem hashes.val s seed st.view = some (b, t)) :
    Triple (st.own + {⟨hashes.ptr, room⟩}) (mapH mem hashes s seed st)
      (fun r => r.map (fun p => (p.1, p.2.view)) = some (b, t))
      fun r => r.elim 0 fun p => p.2.own + {⟨hashes.ptr, room⟩} := by
  obtain ⟨t', ht', heq⟩ := Option.map_eq_some_iff.1 ht
  simp only [Prod.mk.injEq] at heq
  obtain ⟨rfl, rfl⟩ := heq
  let Q : Obj Queue := { st.Q with val := queueClean st.Q.val }
  let stack : Obj Stack := { st.stack with val := stackClean st.stack.val }
  let B : BucketsObj := { st.B with val := bucketsClear st.B.val }
  have hBclear : BucketsOk (3 * s) B.val := hB.capacity_eq ▸ bucketsClear_ok st.B.val
  have hQown : Q.own = st.Q.own := Obj.own_val _ rfl
  have hstackown : stack.own = st.stack.own := Obj.own_val _ rfl
  have hBown : B.own = st.B.own := BucketsObj.own_val hB hBclear
  refine Obj.fields_bind (st.Q_subset _) ?_
  refine Obj.fields_bind (st.stack_subset _) ?_
  refine BucketsObj.update_bind (st.B_subset _) hB (by rw [hB.capacity_eq]; omega) ?_
  refine (triple_fillBucketsH hBclear hroom hpos).call (stack.own + Q.own)
    (by rw [MapObj.own, hQown, hstackown, hBown]; abel) fun B' hB' => ?_
  have hBfill : BucketsOk (3 * s) B'.val := hB' ▸ fillBuckets_ok hBclear _
  have hempty : queueSize (queueClean st.Q.val) = 0 := by
    rw [← length_queueList, queueList_clean, List.length_nil]
  refine (triple_fillQueueH hBfill (queueClean_ok hst.queue) hempty (by omega)).call
    (stack.own + {⟨hashes.ptr, room⟩}) (by abel) fun Q' hQ' => ?_
  have hinit : (⟨stack, Q', B'⟩ : MapObj).view =
      mapInit mem (keySlots mem hashes.val s seed) hashes.val.length s st.view := by
    rw [MapObj.view, hQ', hB', mapInit]
    rfl
  rw [← hinit] at ht'
  obtain ⟨hloop, hsafe⟩ := mapInit_safe mem hst hpos hn (by omega)
  refine (triple_peelLoopH hpos hs hroom hload (hinit ▸ ⟨⟨[], hloop⟩, hsafe⟩) ht').call 0
    (by rw [MapObj.own]; abel) fun r hr => ?_
  obtain ⟨st', rfl, rfl⟩ := Option.map_eq_some_iff.1 hr
  rw [add_zero]
  exact Obj.fields_bind (st'.stack_subset _) (Triple.ret rfl rfl)

end PeelLoop

/-! `assign` -/

section Cells

variable {β : Type} {P : Multiset Block} {Ψ : β → Prop} {R : β → Multiset Block}
  {filter : Obj XorFilter} {idx : ℕ}

theorem fpCellH_bind {g : Unit → HeapM β} (hown : filter.own ⊆ P)
    (hin : ReadsInside filter.val idx) (hg : Triple P (g ()) Ψ R) :
    Triple P (fpCellH filter idx >>= g) Ψ R := by
  have hdata := Obj.data_mem hown
  rw [fpCellH, bind_assoc]
  refine Obj.fields_bind hown ?_
  rw [ReadsInside] at hin
  split_ifs at hin ⊢
  · exact Triple.access_bind hdata hin hg
  · exact Triple.access_bind hdata hin hg
  · exact Triple.access_bind hdata hin hg
  · exact Triple.access_bind hdata hin hg
  · exact hg

theorem fpGetH_bind {g : UInt32 → HeapM β} (hown : filter.own ⊆ P)
    (hin : ReadsInside filter.val idx) (hg : Triple P (g (fpGet filter.val idx)) Ψ R) :
    Triple P (fpGetH filter idx >>= g) Ψ R := by
  rw [fpGetH, bind_assoc]
  exact fpCellH_bind hown hin hg

theorem fpSetH_bind {value : UInt32} {g : Obj XorFilter → HeapM β} (hown : filter.own ⊆ P)
    (hin : ReadsInside filter.val idx)
    (hg : Triple P (g { filter with val := fpSet filter.val idx value }) Ψ R) :
    Triple P (fpSetH filter idx value >>= g) Ψ R := by
  rw [fpSetH, bind_assoc]
  exact fpCellH_bind hown hin hg

theorem own_fpSet (filter : Obj XorFilter) (idx : ℕ) (value : UInt32) :
    Obj.own { filter with val := fpSet filter.val idx value } = filter.own :=
  Obj.own_val _ (length_fpSet filter.val idx value)

end Cells

/-- What a round of `assign` finds, with `r` rounds to come. -/
structure AssignReady (n s r : ℕ) (sf : Stack × XorFilter) : Prop where
  stack : ∃ ks : List (ℕ × ℕ), ks.length = r ∧ StackIs (ks.map (pairAt s)) sf.1 ∧
    ∀ p ∈ ks, p.1 < n
  length_eq : sf.2.fingerprints.length = fpBytes sf.2.fpSize (3 * s)

section Assign

variable {mem : Memory} {hashes : HashArray} {room s seed n r : ℕ}

theorem StackIs.head_le {l : List Pair} {stack : Stack} (h : StackIs l stack) :
    stack.head ≤ stack.data.length := by
  have hlen := congrArg List.length h.data
  rw [List.length_take] at hlen
  have := h.head
  omega

/-- The pair that is popped is that of a key of the array. -/
theorem AssignReady.pop {sf : Stack × XorFilter} (h : AssignReady n s (r + 1) sf)
    (hn : n ≤ 2 ^ 30) : sf.1.head - 1 < sf.1.data.length ∧ (stackPop sf.1).1.x.toNat < n ∧
      ∃ ks : List (ℕ × ℕ), ks.length = r ∧ StackIs (ks.map (pairAt s)) (stackPop sf.1).2 ∧
        ∀ p ∈ ks, p.1 < n := by
  obtain ⟨ks, hlen, hstack, hlt⟩ := h.stack
  have hhead := hstack.head
  rw [List.length_map] at hhead
  have hle := hstack.head_le
  cases ks using List.reverseRecOn with
  | nil => cases hlen
  | append_singleton ks p =>
    have hp := hlt p (List.mem_append_right ks (List.mem_singleton_self p))
    obtain ⟨hpop, hrest⟩ := hstack.pop_map
    refine ⟨by omega, ?_, ks, by simpa using hlen, hrest, fun q hq =>
      hlt q (List.mem_append_left _ hq)⟩
    rw [hpop]
    exact (Nat.mod_eq_of_lt (show p.1 < 2 ^ 30 by omega)).trans_lt hp

theorem AssignReady.step (mem : Memory) (hashes : List UInt64) (seed : ℕ)
    {sf : Stack × XorFilter} (h : AssignReady n s (r + 1) sf) (hn : n ≤ 2 ^ 30) :
    AssignReady n s r (assignStep mem hashes s seed sf) := by
  have hshape := assignStep_shape mem hashes s seed sf
  refine ⟨(h.pop hn).2.2, ?_⟩
  rw [hshape.length_eq, hshape.fpSize_eq]
  exact h.length_eq

theorem triple_assignStepH (hs : 0 < s) (hn : n ≤ 2 ^ 30) (hroom : n ≤ room)
    {sf : Obj Stack × Obj XorFilter} (hsf : AssignReady n s (r + 1) (sf.1.val, sf.2.val)) :
    Triple (sf.1.own + sf.2.own + {⟨hashes.ptr, room⟩}) (assignStepH mem hashes s seed sf)
      (fun sf' => (sf'.1.val, sf'.2.val) =
        assignStep mem hashes.val s seed (sf.1.val, sf.2.val))
      fun sf' => sf'.1.own + sf'.2.own + {⟨hashes.ptr, room⟩} := by
  obtain ⟨hhead, hx, -⟩ := hsf.pop hn
  have hstack : sf.1.own ⊆ sf.1.own + sf.2.own + {⟨hashes.ptr, room⟩} :=
    fun b hb => by simp [hb]
  have hfilter : sf.2.own ⊆ sf.1.own + sf.2.own + {⟨hashes.ptr, room⟩} :=
    fun b hb => by simp [hb]
  rw [assignStepH]
  refine Obj.fields_bind hfilter ?_
  refine Obj.array_bind hstack hhead ?_
  refine readHashH_bind (by simp) (Nat.lt_of_lt_of_le hx hroom) ?_
  obtain ⟨h0, h1, h2⟩ := hashTransform_lt hs
    (readHash mem hashes.val (stackPop sf.1.val).1.x.toNat) seed sf.2.val.fpSize.toNat
  let h := hashTransform (readHash mem hashes.val (stackPop sf.1.val).1.x.toNat) s seed
    sf.2.val.fpSize.toNat
  let i := if (stackPop sf.1.val).1.slot = 0 then h.h0
    else if (stackPop sf.1.val).1.slot = 1 then h.h1 else h.h2
  have hi : i < 3 * s := by
    simp only [i]
    split_ifs <;> assumption
  let filter : Obj XorFilter := { sf.2 with val := fpSet sf.2.val i 0 }
  have hown : filter.own = sf.2.own := own_fpSet sf.2 i 0
  have hin {j : ℕ} (hj : j < 3 * s) : ReadsInside filter.val j :=
    readsInside_of_lt (f := filter.val)
      ((length_fpSet sf.2.val i 0).trans hsf.length_eq) hj
  refine fpSetH_bind hfilter (readsInside_of_lt hsf.length_eq hi) ?_
  rw [← hown] at hfilter hstack ⊢
  refine fpGetH_bind hfilter (hin h0) ?_
  refine fpGetH_bind hfilter (hin h1) ?_
  refine fpGetH_bind hfilter (hin h2) ?_
  refine fpSetH_bind hfilter (hin hi) (Triple.ret rfl ?_)
  exact congrArg (fun own => sf.1.own + own + {⟨hashes.ptr, room⟩}) (own_fpSet filter i _).symm

theorem triple_assignH (filter : Obj XorFilter) (hs : 0 < s) (hn : n ≤ 2 ^ 30) (hroom : n ≤ room)
    {stack : Obj Stack} (h : AssignReady n s stack.val.head (stack.val, filter.val)) :
    Triple (stack.own + filter.own + {⟨hashes.ptr, room⟩})
      (assignH mem hashes s seed stack filter)
      (fun sf => sf.2.val = assign mem hashes.val s seed stack.val filter.val)
      fun sf => sf.1.own + sf.2.own + {⟨hashes.ptr, room⟩} := by
  refine Obj.fields_bind (fun b hb => by simp [hb]) ?_
  refine (Triple.iterateM
    (fun sf : Obj Stack × Obj XorFilter => sf.1.own + sf.2.own + {⟨hashes.ptr, room⟩})
    (I := AssignReady n s) (fun sf => (sf.1.val, sf.2.val))
    (fun r sf hsf => triple_assignStepH hs hn hroom hsf)
    (fun r t ht => ht.step mem hashes.val seed hn) h).conseq rfl fun sf hsf => ⟨?_, rfl⟩
  exact congrArg Prod.snd hsf

end Assign

/-! `xor_build` -/

/-- The blocks of a filter, none for NULL. -/
def filterOwn (filter : Option (Obj XorFilter)) : Multiset Block := filter.elim 0 fun f => f.own

section Build

variable {mem : Memory} {hashes : HashArray} {room : ℕ}

theorem three_mul_buildSegmentSize_add_lt {n : ℕ} (hn : n ≤ 2 ^ 30) :
    3 * buildSegmentSize n + 2 < 2 ^ 31 := by
  rw [buildSegmentSize_of_le hn]
  omega

/-- The outcome of the seed loop, without the blocks. -/
def seedOutcome (r : Option (Option ℕ × MapObj)) : Option (Option (ℕ × MapState)) :=
  r.map fun p => p.1.map fun seed => (seed, p.2.view)

theorem triple_seedLoopH (h0 : 1 ≤ hashes.val.length) (hn : hashes.val.length ≤ 2 ^ 30)
    (hroom : hashes.val.length ≤ room) (hload : TriedUncrowded mem hashes.val) {tries seed : ℕ}
    {st : MapObj} (hst : MapReady hashes.val.length (buildSegmentSize hashes.val.length) st.view)
    (hB : BucketsOk (3 * buildSegmentSize hashes.val.length) st.B.val)
    (hfail : ∀ j < seed, ¬ SeedPeelable mem hashes.val j) (hle : seed + tries ≤ 101)
    {found : Option (ℕ × MapState)}
    (h : seedLoop mem hashes.val (buildSegmentSize hashes.val.length) tries seed st.view =
      some found) :
    Triple (st.own + {⟨hashes.ptr, room⟩})
      (seedLoopH mem hashes (buildSegmentSize hashes.val.length) tries seed st)
      (fun r => seedOutcome r = some found)
      fun r => r.elim 0 fun p => p.2.own + {⟨hashes.ptr, room⟩} := by
  induction tries generalizing seed st with
  | zero => exact Triple.ret h rfl
  | succ tries ih =>
    have hseed := hload seed (by omega) hfail
    obtain ⟨ks, t, hmap, hks, hiff⟩ := map_spec h0 hn hseed hst
    rw [seedLoop_succ hmap] at h
    refine (triple_mapH (buildSlots_ok mem h0 hn seed) (by omega)
      (three_mul_buildSegmentSize_add_lt hn) hroom hseed hst hB hmap).bind fun r hr => ?_
    obtain ⟨⟨b, st'⟩, rfl, hst'⟩ := Option.map_eq_some_iff.1 hr
    obtain ⟨hb, rfl⟩ := Prod.mk.inj hst'
    rw [← hb] at h
    cases b with
    | true => exact Triple.ret h rfl
    | false =>
      refine ih hks.ready hks.peel.buckets (fun j hj => ?_) (by omega) h
      rcases Nat.lt_succ_iff_lt_or_eq.1 hj with hj | rfl
      · exact hfail j hj
      · exact fun hp => by simp [hiff.2 hp] at hb

theorem triple_buildFilterH (h0 : 1 ≤ hashes.val.length) (hn : hashes.val.length ≤ 2 ^ 30)
    (hroom : hashes.val.length ≤ room) {fpSize : FingerprintSize} {seed : ℕ}
    {ks : List (ℕ × ℕ)} {st : MapObj}
    (hks : LoopInv (buildSlots mem hashes.val seed) hashes.val.length
      (buildSegmentSize hashes.val.length) ks st.view) (filter : ℕ) :
    Triple ({⟨filter, 1⟩} + st.own + {⟨hashes.ptr, room⟩})
      (buildFilterH mem hashes fpSize (buildSegmentSize hashes.val.length) seed filter st)
      (fun f => f.val =
        buildFilter mem hashes.val fpSize (buildSegmentSize hashes.val.length) seed st.view)
      fun f => f.own + {⟨hashes.ptr, room⟩} := by
  have hlt := three_mul_buildSegmentSize_lt hn
  have hblank := length_blankFilter fpSize (show 3 * buildSegmentSize hashes.val.length < 2 ^ 32
    by omega) seed st.view
  refine (triple_bucketsFreeH st.B).call
    ({⟨filter, 1⟩} + st.stack.own + st.Q.own + {⟨hashes.ptr, room⟩})
    (by simp only [MapObj.own]; abel) fun _ _ => ?_
  refine Obj.fields_bind (fun p hp => by simp [hp]) ?_
  refine Obj.triple_destroy.call ({⟨filter, 1⟩} + st.stack.own + {⟨hashes.ptr, room⟩}) (by abel)
    fun _ _ => ?_
  refine Triple.alloc_bind fun fingerprints => Triple.access_bind (by simp) le_rfl ?_
  let blank : Obj XorFilter := ⟨filter, fingerprints,
    blankFilter fpSize (buildSegmentSize hashes.val.length) seed st.view⟩
  have hown : blank.own = {⟨filter, 1⟩} + {⟨fingerprints, fpBytes fpSize
      (wrap32 (buildSegmentSize hashes.val.length * 3))⟩} := by
    rw [Obj.own, show HasArray.cells blank.val = _ from List.length_replicate]
  refine (triple_assignH blank (buildSegmentSize_pos h0 hn) hn hroom
    ⟨⟨ks, hks.peel.head.symm, hks.peel.stackIs, hks.peel.key_lt⟩, hblank⟩).call 0
    (by rw [hown]; abel) fun sf hsf => ?_
  refine Obj.triple_destroy.call (sf.2.own + {⟨hashes.ptr, room⟩}) (by abel) fun _ _ => ?_
  exact Triple.ret hsf (zero_add _)

theorem triple_cleanupH (filter : ℕ) (st : MapObj) :
    Triple ({⟨filter, 1⟩} + st.own) (cleanupH filter st) (fun _ => True) fun _ => 0 := by
  refine Triple.free_bind st.own rfl ?_
  refine Obj.triple_destroy.call (st.Q.own + st.B.own) rfl fun _ _ => ?_
  refine (triple_bucketsFreeH st.B).call st.Q.own (by abel) fun _ _ => ?_
  exact Obj.triple_destroy.tail 0 (by abel) fun _ _ => ⟨trivial, rfl⟩

/-- The state a search ends in has the invariant of the loop of `map`. -/
theorem exists_loopInv {hashes : List UInt64} (h0 : 1 ≤ hashes.length)
    (hn : hashes.length ≤ 2 ^ 30) (hload : TriedUncrowded mem hashes) {st st' : MapState}
    (hst : MapReady hashes.length (buildSegmentSize hashes.length) st) {seed : ℕ}
    (h : seedLoop mem hashes (buildSegmentSize hashes.length) 101 0 st = some (some (seed, st'))) :
    ∃ ks, LoopInv (buildSlots mem hashes seed) hashes.length (buildSegmentSize hashes.length) ks
      st' := by
  rcases seedLoop_same mem mem h0 hn 101 0 hst hst ⟨rfl, rfl⟩
    (fun j hj => absurd hj (Nat.not_lt_zero j)) le_rfl hload with
    ⟨hnone, -⟩ | ⟨sd, st₁, _, ks, hsome, -, -, hks⟩
  · cases hnone.symm.trans h
  · cases hsome.symm.trans h
    exact ⟨ks, hks⟩

theorem triple_xorBuildH (h0 : 1 ≤ hashes.val.length) (hn : hashes.val.length ≤ 2 ^ 30)
    (hroom : hashes.val.length ≤ room) (hload : TriedUncrowded mem hashes.val)
    {fpSize : FingerprintSize} {built : Option XorFilter}
    (h : xorBuild mem hashes.val fpSize = some built) :
    Triple {⟨hashes.ptr, room⟩} (xorBuildH mem hashes fpSize)
      (fun r => r.map (Option.map Obj.val) = some built)
      fun r => r.elim 0 fun filter => filterOwn filter + {⟨hashes.ptr, room⟩} := by
  obtain ⟨found, hseed, rfl⟩ := Option.map_eq_some_iff.1 h
  have hready := buildState_ready h0 hn
  have hlt := three_mul_buildSegmentSize_lt hn
  have hwrap : wrap32 (buildSegmentSize hashes.val.length * 3) =
      3 * buildSegmentSize hashes.val.length := by rw [Nat.mul_comm, wrap32_of_lt (by omega)]
  refine Triple.alloc_bind fun filter => ?_
  refine (Obj.triple_create List.length_replicate.symm).call _ (zero_add _).symm
    fun stack hstack => ?_
  refine (triple_bucketsCreateH _).call _ (zero_add _).symm fun B hB => ?_
  refine (Obj.triple_create List.length_replicate.symm).call _ (zero_add _).symm fun Q hQ => ?_
  let st : MapObj := ⟨stack, Q, B⟩
  have hinit : st.view = buildState hashes.val.length := by
    simp only [MapObj.view, st, hstack, hQ, hB, buildState]
  have hBok : BucketsOk (3 * buildSegmentSize hashes.val.length) st.B.val := by
    rw [← hwrap]
    exact hB ▸ ⟨List.length_replicate, List.length_replicate, rfl⟩
  rw [← hinit] at hseed hready
  refine (triple_seedLoopH h0 hn hroom hload hready hBok
    (fun j hj => absurd hj (Nat.not_lt_zero j)) le_rfl hseed).call {⟨filter, 1⟩}
    (by simp only [MapObj.own, st]; abel) fun r hr => ?_
  obtain ⟨⟨seed, st'⟩, rfl, rfl⟩ := Option.map_eq_some_iff.1 hr
  cases seed with
  | some seed =>
    obtain ⟨ks, hks⟩ := exists_loopInv h0 hn hload hready hseed
    refine (triple_buildFilterH h0 hn hroom hks filter).call 0
      (by simp only [Option.elim]; abel) fun f hf => ?_
    refine Triple.ret ?_ (by simp only [Option.elim, filterOwn]; abel)
    simp only [Option.map_some, hf]
  | none =>
    refine (triple_cleanupH filter st').call {⟨hashes.ptr, room⟩}
      (by simp only [Option.elim]; abel) fun _ _ => ?_
    exact Triple.ret rfl (zero_add _)

end Build

/-- `xor_build` uses only cells of blocks that are allocated and frees none of
them twice, for an array whose hashes crowd no bucket at a seed it tries. Of the
blocks it allocates, over up to 101 attempts, the struct and the table of the
filter are left, and nothing at all when it returns NULL; the blocks of the
caller, the hashes among them, are as before. -/
theorem xorBuild_leaves_only_filter (mem : Memory) {hashes : HashArray}
    (h0 : 1 ≤ hashes.val.length) (hn : hashes.val.length ≤ 2 ^ 30)
    (hload : TriedUncrowded mem hashes.val) (fpSize : FingerprintSize) {heap : Heap} {room : ℕ}
    (hp : ⟨hashes.ptr, room⟩ ∈ heap.live) (hroom : hashes.val.length ≤ room) :
    ∃ filter heap', xorBuildH mem hashes fpSize heap = some (some filter, heap') ∧
      xorBuild mem hashes.val fpSize = some (filter.map Obj.val) ∧
      heap'.live = filterOwn filter + heap.live := by
  obtain ⟨built, hbuild, -⟩ := xorBuild_bounded mem h0 hn fpSize
  have hlive : heap.live = {⟨hashes.ptr, room⟩} + heap.live.erase ⟨hashes.ptr, room⟩ := by
    rw [Multiset.singleton_add, Multiset.cons_erase hp]
  obtain ⟨r, heap', hrun, hr, hlive'⟩ :=
    triple_xorBuildH h0 hn hroom hload hbuild heap _ hlive
  obtain ⟨filter, rfl, rfl⟩ := Option.map_eq_some_iff.1 hr
  change heap'.live = filterOwn filter + {⟨hashes.ptr, room⟩} +
    heap.live.erase ⟨hashes.ptr, room⟩ at hlive'
  exact ⟨filter, heap', hrun, hbuild, by rw [hlive', add_assoc, ← hlive]⟩

/-- Four hashes in block 0, which has a cell to spare, next to a block of the caller. -/
theorem xorBuild_leaves_only_filter_four_hashes :
    ∃ filter heap', xorBuildH default ⟨0, [1, 2, 3, 4]⟩ FP8
        ⟨{⟨0, 5⟩, ⟨1, 7⟩}, 2, by decide, by decide⟩ = some (some filter, heap') ∧
      xorBuild default [1, 2, 3, 4] FP8 = some (filter.map Obj.val) ∧
      heap'.live = filterOwn filter + {⟨0, 5⟩, ⟨1, 7⟩} := by
  have hload : TriedUncrowded default [1, 2, 3, 4] :=
    fun seed _ _ => uncrowded_of_length_le (by decide) seed
  have hbuild := @xorBuild_leaves_only_filter default ⟨0, [1, 2, 3, 4]⟩ (by decide) (by decide)
    hload FP8 ⟨{⟨0, 5⟩, ⟨1, 7⟩}, 2, by decide, by decide⟩ 5 (by decide) (by decide)
  exact hbuild

/-! `xor_check`, `xor_free` and `xor_load` -/

/-- A lookup that is safe uses the filter and leaves it. -/
theorem triple_xorCheckH {hashBuild : List UInt8 → UInt64} {filter : Obj XorFilter}
    {item : List UInt8} (h : CheckSafe hashBuild filter.val item) :
    Triple filter.own (xorCheckH hashBuild filter item)
      (fun b => xorCheck hashBuild filter.val item = some b) fun _ => filter.own := by
  have hown := Multiset.Subset.refl filter.own
  have heq := h.xorCheck_eq
  obtain ⟨hne, hin0, hin1, hin2⟩ := h
  have hseg : filter.val.segmentSize ≠ 0 := fun hzero => hne (by rw [hzero]; rfl)
  refine Obj.fields_bind hown ?_
  rw [id, if_neg hseg]
  refine fpGetH_bind hown hin0 ?_
  refine fpGetH_bind hown hin1 ?_
  exact fpGetH_bind hown hin2 (Triple.ret heq rfl)

theorem triple_xorFreeH (filter : Obj XorFilter) :
    Triple filter.own (xorFreeH filter) (fun _ => True) fun _ => 0 :=
  Obj.triple_destroy

/-- What `RedisModule_LoadStringBuffer` documents: the string is in a block of its
own, which its caller has to free. -/
def GivesString (loadStringBuffer : List UInt8 → HeapM ℕ) : Prop :=
  ∀ str, Triple 0 (loadStringBuffer str) (fun _ => True) fun p => {⟨p, str.length⟩}

/-- A stream that `xor_load` makes a filter of. -/
def Loads (encver : ℤ) (rdb : List RdbValue) : Prop := ∃ f, xorLoad rdb encver = some (some f)

section Load

variable (loadStringBuffer : List UInt8 → HeapM ℕ)

/-- A value that is loaded and later deleted. -/
def reloadH (encver : ℤ) (rdb : List RdbValue) : HeapM Unit := do
  match ← xorLoadH loadStringBuffer rdb encver with
  | some (some filter) => xorFreeH filter
  | _ => return ()

variable {loadStringBuffer}

theorem reloadH_run (hgives : GivesString loadStringBuffer) {encver : ℤ} {rdb : List RdbValue}
    (h : Loads encver rdb) (heap : Heap) :
    ∃ rawData heap', reloadH loadStringBuffer encver rdb heap = some ((), heap') ∧
      heap'.live = {rawData} + heap.live := by
  obtain ⟨f, hf⟩ := h
  simp only [reloadH, xorLoadH, hf, bind_assoc, pure_bind]
  obtain ⟨filter, heap₁, hrun₁, -, hlive₁⟩ :=
    (Triple.alloc 1).run_bind (zero_add heap.live).symm (β := Unit) _
  rw [hrun₁]
  obtain ⟨_, heap₂, hrun₂, -, hlive₂⟩ :=
    (Triple.access (i := 0) (n := 1) (Multiset.mem_singleton_self (⟨filter, 1⟩ : Block))
      le_rfl).run_bind hlive₁ (β := Unit) _
  rw [hrun₂]
  obtain ⟨rawData, heap₃, hrun₃, -, hlive₃⟩ :=
    (hgives f.fingerprints).run_bind (hlive₂.trans (zero_add _).symm) (β := Unit) _
  rw [hrun₃]
  have hrest : Triple ({⟨rawData, f.fingerprints.length⟩} + {⟨filter, 1⟩})
      (do
        let fingerprints ← alloc f.fingerprints.length
        access rawData 0 f.fingerprints.length
        access fingerprints 0 f.fingerprints.length
        xorFreeH { ptr := filter, data := fingerprints, val := f })
      (fun _ => True) fun _ => {⟨rawData, f.fingerprints.length⟩} := by
    refine Triple.alloc_bind fun fingerprints => ?_
    refine Triple.access_bind (c := f.fingerprints.length) (by simp) (by omega) ?_
    refine Triple.access_bind (c := f.fingerprints.length) (by simp) (by omega) ?_
    have hown : Obj.own ⟨filter, fingerprints, f⟩ =
        {⟨filter, 1⟩} + {⟨fingerprints, f.fingerprints.length⟩} := rfl
    exact (triple_xorFreeH _).tail _ (by rw [hown]; abel) fun _ _ => ⟨trivial, (zero_add _).symm⟩
  obtain ⟨_, heap₄, hrun₄, -, hlive₄⟩ := hrest heap₃ heap.live (by rw [hlive₃, add_assoc])
  exact ⟨_, heap₄, hrun₄, hlive₄⟩

/-- Every value that is loaded and deleted again leaves one block behind, the
string that `RedisModule_LoadStringBuffer` returned: `n` of them cost `n` blocks
for as long as the process lives. -/
theorem xorLoad_leaks_one_block (hgives : GivesString loadStringBuffer) {encver : ℤ}
    {rdbs : List (List RdbValue)} (h : ∀ rdb ∈ rdbs, Loads encver rdb) (heap : Heap) :
    ∃ leaked heap', rdbs.forM (reloadH loadStringBuffer encver) heap = some ((), heap') ∧
      heap'.live = leaked + heap.live ∧ leaked.card = rdbs.length := by
  induction rdbs generalizing heap with
  | nil => exact ⟨0, heap, rfl, (zero_add _).symm, rfl⟩
  | cons rdb rdbs ih =>
    obtain ⟨rawData, heap₁, hrun₁, hlive₁⟩ := reloadH_run hgives (h rdb List.mem_cons_self) heap
    obtain ⟨leaked, heap₂, hrun₂, hlive₂, hcard⟩ :=
      ih (fun rdb' hmem => h rdb' (List.mem_cons_of_mem _ hmem)) heap₁
    refine ⟨leaked + {rawData}, heap₂, ?_, ?_, ?_⟩
    · change (reloadH loadStringBuffer encver rdb heap).bind
        (fun p => rdbs.forM (reloadH loadStringBuffer encver) p.2) = _
      rw [hrun₁]
      exact hrun₂
    · rw [hlive₂, hlive₁, add_assoc]
    · rw [Multiset.card_add, hcard, Multiset.card_singleton, List.length_cons]

end Load

theorem givesString_alloc : GivesString fun str => alloc str.length := fun _ => Triple.alloc _

/-- Two reloads of one saved filter, with the version before the registered one. -/
theorem xorLoad_leaks_one_block_twice :
    let rdb := xorSave default ⟨[1, 2, 3], 1, 0, FP8, 0⟩
    ∃ leaked heap', [rdb, rdb].forM (reloadH (fun str => alloc str.length) 0) Heap.empty =
      some ((), heap') ∧ heap'.live = leaked + 0 ∧ leaked.card = 2 :=
  @xorLoad_leaks_one_block _ givesString_alloc 0 [_, _]
    (by simp [Loads, xorSave, xorLoad, loadUnsigned, RedisXor.loadStringBuffer]) Heap.empty

end RedisXor
