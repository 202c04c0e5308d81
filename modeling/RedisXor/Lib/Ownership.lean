import Mathlib.Algebra.Order.Group.Multiset
import RedisXor.Lib.While

/-! Blocks that are allocated, used and freed. A program faults when it uses a
cell that is in no allocated block, or frees what is not allocated, so a triple,
which excludes faults and accounts for every block, excludes uses after free,
uses out of bounds, double frees and leaks. -/

namespace Ownership

open While

/-- An allocated block has an address and a number of cells. -/
structure Block where
  addr : ℕ
  cells : ℕ
  deriving DecidableEq

/-- The blocks that are allocated. No address is given out twice, so a pointer
to a freed block stays invalid. -/
structure Heap where
  live : Multiset Block
  next : ℕ
  nodup : (live.map Block.addr).Nodup
  lt_next : ∀ b ∈ live, b.addr < next

def Heap.empty : Heap :=
  ⟨0, 0, Multiset.nodup_zero, fun _ hb => absurd hb (Multiset.notMem_zero _)⟩

/-- Programs that work on blocks; `none` is a fault. -/
abbrev HeapM := StateT Heap Option

def fault {α : Type} : HeapM α := fun _ => none

theorem Heap.nodup_cons (h : Heap) (cells : ℕ) :
    ((⟨h.next, cells⟩ ::ₘ h.live : Multiset Block).map Block.addr).Nodup := by
  rw [Multiset.map_cons, Multiset.nodup_cons]
  refine ⟨fun hmem => ?_, h.nodup⟩
  obtain ⟨b, hb, haddr⟩ := Multiset.mem_map.1 hmem
  exact absurd (h.lt_next b hb) (Nat.not_lt_of_le (Nat.le_of_eq haddr.symm))

theorem Heap.lt_next_cons (h : Heap) (cells : ℕ) :
    ∀ b ∈ (⟨h.next, cells⟩ ::ₘ h.live : Multiset Block), b.addr < h.next + 1 := by
  intro b hb
  rcases Multiset.mem_cons.1 hb with rfl | hb
  · exact Nat.lt_succ_self _
  · exact Nat.lt_succ_of_lt (h.lt_next b hb)

def alloc (cells : ℕ) : HeapM ℕ := fun h => some (h.next,
  { live := ⟨h.next, cells⟩ ::ₘ h.live
    next := h.next + 1
    nodup := h.nodup_cons cells
    lt_next := h.lt_next_cons cells })

instance (live : Multiset Block) (p : Block → Prop) [DecidablePred p] :
    Decidable (∃ b ∈ live, p b) := Multiset.decidableExistsMultiset

/-- A use of `n` cells of the block at `p`, from the cell `i` on. -/
def access (p i n : ℕ) : HeapM Unit := fun h =>
  if ∃ b ∈ h.live, b.addr = p ∧ i + n ≤ b.cells then some ((), h) else none

def free (p : ℕ) : HeapM Unit := fun h =>
  if ∃ b ∈ h.live, b.addr = p then some ((),
    { live := h.live.filter fun b => b.addr ≠ p
      next := h.next
      nodup := Multiset.nodup_of_le (Multiset.map_le_map (Multiset.filter_le _ _)) h.nodup
      lt_next := fun b hb => h.lt_next b (Multiset.mem_of_mem_filter hb) })
  else none

/-- The other blocks are at other addresses. -/
theorem Heap.filter_live (h : Heap) {b : Block} {F : Multiset Block} (hlive : h.live = {b} + F) :
    h.live.filter (fun c => c.addr ≠ b.addr) = F := by
  have hnodup := h.nodup
  rw [hlive, Multiset.singleton_add, Multiset.map_cons, Multiset.nodup_cons] at hnodup
  rw [hlive, Multiset.singleton_add, Multiset.filter_cons_of_neg _ (fun hne => hne rfl),
    Multiset.filter_eq_self]
  exact fun c hc haddr => hnodup.1 (haddr ▸ Multiset.mem_map_of_mem Block.addr hc)

/-- A program that owns the blocks `P` runs without a fault, returns a value
with `Φ`, and then owns `Q` of that value. Blocks of others are left alone. -/
def Triple {α : Type} (P : Multiset Block) (m : HeapM α) (Φ : α → Prop)
    (Q : α → Multiset Block) : Prop :=
  ∀ (h : Heap) (F : Multiset Block), h.live = P + F →
    ∃ a h', m h = some (a, h') ∧ Φ a ∧ h'.live = Q a + F

theorem subset_left (P F : Multiset Block) : P ⊆ P + F :=
  Multiset.subset_of_le (Multiset.le_add_right P F)

theorem subset_right (P F : Multiset Block) : F ⊆ P + F :=
  Multiset.subset_of_le (Multiset.le_add_left F P)

namespace Triple

variable {α β : Type} {P F : Multiset Block} {m : HeapM α} {Φ : α → Prop}
  {Q : α → Multiset Block} {f : α → HeapM β} {Ψ : β → Prop} {R : β → Multiset Block}

theorem ret {a : α} (h : Φ a) (hP : P = Q a) : Triple P (pure a) Φ Q :=
  fun heap _ hlive => ⟨a, heap, rfl, h, by rw [hlive, hP]⟩

theorem bind (hm : Triple P m Φ Q) (hf : ∀ a, Φ a → Triple (Q a) (f a) Ψ R) :
    Triple P (m >>= f) Ψ R := by
  intro h F hlive
  obtain ⟨a, h₁, hrun, ha, hlive₁⟩ := hm h F hlive
  obtain ⟨b, h₂, hrun₂, hb, hlive₂⟩ := hf a ha h₁ F hlive₁
  refine ⟨b, h₂, ?_, hb, hlive₂⟩
  change (m h).bind (fun p => f p.1 p.2) = some (b, h₂)
  rw [hrun]
  exact hrun₂

theorem frame (hm : Triple P m Φ Q) (F : Multiset Block) :
    Triple (P + F) m Φ fun a => Q a + F := by
  intro h G hlive
  obtain ⟨a, h', hrun, ha, hlive'⟩ := hm h (F + G) (by rw [hlive, add_assoc])
  exact ⟨a, h', hrun, ha, by rw [hlive', add_assoc]⟩

theorem conseq {P' : Multiset Block} {Φ' : α → Prop} {Q' : α → Multiset Block}
    (hm : Triple P m Φ Q) (hP : P' = P) (hpost : ∀ a, Φ a → Φ' a ∧ Q' a = Q a) :
    Triple P' m Φ' Q' := by
  intro h F hlive
  obtain ⟨a, h', hrun, ha, hlive'⟩ := hm h F (hP ▸ hlive)
  obtain ⟨ha', hQ⟩ := hpost a ha
  exact ⟨a, h', hrun, ha', by rw [hlive', hQ]⟩

/-- A call of a function that owns the part `P₁` of the blocks. -/
theorem call {P₁ : Multiset Block} (hm : Triple P₁ m Φ Q) (F : Multiset Block) (hP : P = P₁ + F)
    (hf : ∀ a, Φ a → Triple (Q a + F) (f a) Ψ R) : Triple P (m >>= f) Ψ R := by
  rw [hP]
  exact (hm.frame F).bind hf

/-- The last call of a function. -/
theorem tail {P₁ : Multiset Block} (hm : Triple P₁ m Φ Q) (F : Multiset Block) (hP : P = P₁ + F)
    {Φ' : α → Prop} {Q' : α → Multiset Block} (hpost : ∀ a, Φ a → Φ' a ∧ Q' a = Q a + F) :
    Triple P m Φ' Q' :=
  (hm.frame F).conseq hP hpost

/-- The first step of a run, for a block that no value points to afterwards. -/
theorem run_bind (hm : Triple P m Φ Q) {h : Heap} (hlive : h.live = P + F) (f : α → HeapM β) :
    ∃ a h', (m >>= f) h = f a h' ∧ Φ a ∧ h'.live = Q a + F := by
  obtain ⟨a, h', hrun, ha, hlive'⟩ := hm h F hlive
  refine ⟨a, h', ?_, ha, hlive'⟩
  change (m h).bind (fun p => f p.1 p.2) = f a h'
  rw [hrun]
  rfl

/-! The three operations, alone and followed by the rest of the program -/

theorem alloc (cells : ℕ) : Triple 0 (alloc cells) (fun _ => True) fun p => {⟨p, cells⟩} := by
  intro h F hlive
  refine ⟨h.next, _, rfl, trivial, ?_⟩
  change ⟨h.next, cells⟩ ::ₘ h.live = {⟨h.next, cells⟩} + F
  rw [hlive, zero_add, Multiset.singleton_add]

theorem alloc_bind {cells : ℕ} {f : ℕ → HeapM β}
    (hf : ∀ p, Triple ({⟨p, cells⟩} + P) (f p) Ψ R) :
    Triple P (Ownership.alloc cells >>= f) Ψ R :=
  (alloc cells).call P (zero_add P).symm fun p _ => hf p

theorem access {p i n cells : ℕ} (hp : ⟨p, cells⟩ ∈ P) (hi : i + n ≤ cells) :
    Triple P (access p i n) (fun _ => True) fun _ => P := by
  intro h F hlive
  have hmem : (⟨p, cells⟩ : Block) ∈ h.live := by
    rw [hlive]
    exact Multiset.mem_add.2 (Or.inl hp)
  exact ⟨(), h, if_pos ⟨_, hmem, rfl, hi⟩, trivial, hlive⟩

theorem access_bind {p i n c : ℕ} {f : Unit → HeapM β} (hp : ⟨p, c⟩ ∈ P)
    (hi : i + n ≤ c) (hf : Triple P (f ()) Ψ R) :
    Triple P (Ownership.access p i n >>= f) Ψ R :=
  (access hp hi).bind fun _ _ => hf

theorem free {p cells : ℕ} : Triple {⟨p, cells⟩} (free p) (fun _ => True) fun _ => 0 := by
  intro h F hlive
  have hmem : (⟨p, cells⟩ : Block) ∈ h.live := by
    rw [hlive, Multiset.singleton_add]
    exact Multiset.mem_cons_self _ _
  refine ⟨(), _, if_pos ⟨_, hmem, rfl⟩, trivial, ?_⟩
  rw [zero_add]
  exact h.filter_live hlive

theorem free_bind {p cells : ℕ} {f : Unit → HeapM β} (F : Multiset Block)
    (hP : P = {⟨p, cells⟩} + F) (hf : Triple F (f ()) Ψ R) :
    Triple P (Ownership.free p >>= f) Ψ R := by
  refine call free F hP fun _ _ => ?_
  rw [zero_add]
  exact hf

end Triple

/-! Loops over objects: `own` is the blocks of an object, `view` what it holds -/

section Loop

variable {σ τ β : Type}

/-- A body that is run on every element and leaves the blocks as they are. -/
theorem Triple.forM {P : Multiset Block} {f : β → HeapM PUnit} {l : List β}
    (hstep : ∀ x ∈ l, Triple P (f x) (fun _ => True) fun _ => P) :
    Triple P (forM l f) (fun _ => True) fun _ => P := by
  induction l with
  | nil => exact Triple.ret trivial rfl
  | cons x l ih =>
    rw [List.forM_cons]
    exact (hstep x List.mem_cons_self).bind fun _ _ =>
      ih fun y hy => hstep y (List.mem_cons_of_mem x hy)

/-- `rounds` rounds of a body. -/
def iterateM (f : σ → HeapM σ) : ℕ → σ → HeapM σ
  | 0, s => pure s
  | rounds + 1, s => f s >>= iterateM f rounds

/-- A `while` loop whose condition uses blocks as well; `none` when `fuel` tests
do not end it. -/
def whileFuelM (cond : σ → HeapM Bool) (body : σ → HeapM σ) : ℕ → σ → HeapM (Option σ)
  | 0, _ => pure none
  | fuel + 1, s => do
    if ← cond s then
      let s ← body s
      whileFuelM cond body fuel s
    else return some s

variable (own : σ → Multiset Block)

/-- A loop over a list, whose rounds keep `I`. -/
theorem Triple.foldlM {I : σ → Prop} {g : τ → β → τ} (view : σ → τ) {f : σ → β → HeapM σ}
    {l : List β} (hstep : ∀ s, ∀ x ∈ l, I s →
      Triple (own s) (f s x) (fun s' => view s' = g (view s) x ∧ I s') own) {s : σ} (hs : I s) :
    Triple (own s) (l.foldlM f s) (fun s' => view s' = l.foldl g (view s) ∧ I s') own := by
  induction l generalizing s with
  | nil => exact Triple.ret ⟨rfl, hs⟩ rfl
  | cons x l ih =>
    rw [List.foldlM_cons]
    refine (hstep s x List.mem_cons_self hs).bind fun s' ⟨hview, hs'⟩ => ?_
    rw [List.foldl_cons, ← hview]
    exact ih (fun s y hy => hstep s y (List.mem_cons_of_mem x hy)) hs'

/-- A counting loop, with what holds before each round. -/
theorem Triple.foldlM_range {I : ℕ → σ → Prop} {f : σ → ℕ → HeapM σ} {n : ℕ}
    (hstep : ∀ i < n, ∀ s, I i s → Triple (own s) (f s i) (I (i + 1)) own) {s : σ} (hs : I 0 s) :
    Triple (own s) ((List.range n).foldlM f s) (I n) own := by
  induction n with
  | zero => exact Triple.ret hs rfl
  | succ n ih =>
    rw [List.range_succ, List.foldlM_append]
    refine (ih fun i hi => hstep i (Nat.lt_succ_of_lt hi)).bind fun s' hs' => ?_
    rw [List.foldlM_cons]
    refine (hstep n (Nat.lt_succ_self n) s' hs').bind fun s'' hs'' => ?_
    exact Triple.ret hs'' rfl

/-- What the object holds before each round depends on how many are to come. -/
theorem Triple.iterateM {I : ℕ → τ → Prop} {g : τ → τ} (view : σ → τ) {f : σ → HeapM σ}
    (hstep : ∀ r s, I (r + 1) (view s) →
      Triple (own s) (f s) (fun s' => view s' = g (view s)) own)
    (hI : ∀ r t, I (r + 1) t → I r (g t)) {rounds : ℕ} {s : σ} (hs : I rounds (view s)) :
    Triple (own s) (iterateM f rounds s) (fun s' => view s' = g^[rounds] (view s)) own := by
  induction rounds generalizing s with
  | zero => exact Triple.ret rfl rfl
  | succ rounds ih =>
    refine (hstep rounds s hs).bind fun s' hview => ?_
    rw [Function.iterate_succ_apply, ← hview]
    exact ih (hview ▸ hI rounds _ hs)

/-- A loop that ends on what the object holds ends on the object. -/
theorem Triple.whileFuelM {I : τ → Prop} {cond' : τ → Bool} {body' : τ → τ} (view : σ → τ)
    {cond : σ → HeapM Bool} {body : σ → HeapM σ}
    (hcond : ∀ s, I (view s) →
      Triple (own s) (cond s) (fun b => b = cond' (view s)) fun _ => own s)
    (hbody : ∀ s, I (view s) → cond' (view s) = true →
      Triple (own s) (body s) (fun s' => view s' = body' (view s)) own)
    (hI : ∀ t, I t → cond' t = true → I (body' t)) {fuel : ℕ} {s : σ} (hs : I (view s)) {t : τ}
    (ht : whileFuel cond' body' fuel (view s) = some t) :
    Triple (own s) (whileFuelM cond body fuel s) (fun r => r.map view = some t)
      fun r => r.elim 0 own := by
  induction fuel generalizing s with
  | zero => cases ht
  | succ fuel ih =>
    rw [whileFuel] at ht
    rw [Ownership.whileFuelM]
    refine (hcond s hs).bind fun b hb => ?_
    subst hb
    split_ifs at ht ⊢ with hc
    · refine (hbody s hs hc).bind fun s' hs' => ih (hs' ▸ hI _ hs hc) ?_
      rw [hs']
      exact ht
    · exact Triple.ret ht rfl

end Loop

/-! A struct with one array -/

/-- How many cells the array behind a struct has. -/
class HasArray (α : Type) where
  cells : α → ℕ

/-- The block of the struct, the block its field points to, and the contents. -/
structure Obj (α : Type) where
  ptr : ℕ
  data : ℕ
  val : α

namespace Obj

variable {α β γ : Type} (o : Obj α)

/-- A struct is one cell. -/
def own [HasArray α] : Multiset Block := {⟨o.ptr, 1⟩} + {⟨o.data, HasArray.cells o.val⟩}

def create (cells : ℕ) (val : α) : HeapM (Obj α) := do
  let ptr ← alloc 1
  let data ← alloc cells
  return ⟨ptr, data, val⟩

/-- A use of the fields of the struct. -/
def fields (f : α → β) : HeapM β := do
  access o.ptr 0 1
  return f o.val

/-- A use of `n` cells of the array, whose address is read from the struct. -/
def array (i n : ℕ) (f : α → β) : HeapM β := do
  access o.ptr 0 1
  access o.data i n
  return f o.val

def destroy : HeapM Unit := do
  access o.ptr 0 1
  free o.data
  free o.ptr

variable {o} [HasArray α] {P : Multiset Block} {Ψ : γ → Prop} {R : γ → Multiset Block}
  {f : α → β} {g : β → HeapM γ}

theorem mem_own {b : Block} : b ∈ o.own ↔ b = ⟨o.ptr, 1⟩ ∨ b = ⟨o.data, HasArray.cells o.val⟩ := by
  rw [own, Multiset.mem_add, Multiset.mem_singleton, Multiset.mem_singleton]

theorem ptr_mem (ho : o.own ⊆ P) : ⟨o.ptr, 1⟩ ∈ P := ho (mem_own.2 (Or.inl rfl))

theorem data_mem (ho : o.own ⊆ P) : ⟨o.data, HasArray.cells o.val⟩ ∈ P :=
  ho (mem_own.2 (Or.inr rfl))

/-- Changes of the contents leave the blocks as they are. -/
theorem own_val (val : α) (h : HasArray.cells val = HasArray.cells o.val) :
    own { o with val := val } = o.own := by
  rw [own, own, h]

theorem triple_create {cells : ℕ} {val : α} (h : cells = HasArray.cells val) :
    Triple 0 (create cells val) (fun o => o.val = val) fun o => o.own := by
  refine Triple.alloc_bind fun ptr => Triple.alloc_bind fun data => Triple.ret rfl ?_
  rw [own, add_zero, add_comm, h]

theorem fields_bind (ho : o.own ⊆ P) (hg : Triple P (g (f o.val)) Ψ R) :
    Triple P (o.fields f >>= g) Ψ R := by
  rw [fields, bind_assoc]
  exact Triple.access_bind (ptr_mem ho) le_rfl (by rwa [pure_bind])

theorem array_bind {i n : ℕ} (ho : o.own ⊆ P) (hi : i + n ≤ HasArray.cells o.val)
    (hg : Triple P (g (f o.val)) Ψ R) : Triple P (o.array i n f >>= g) Ψ R := by
  rw [array, bind_assoc]
  refine Triple.access_bind (ptr_mem ho) le_rfl ?_
  rw [bind_assoc]
  exact Triple.access_bind (data_mem ho) hi (by rwa [pure_bind])

theorem triple_destroy : Triple o.own o.destroy (fun _ => True) fun _ => 0 :=
  Triple.access_bind (ptr_mem (Multiset.Subset.refl _)) le_rfl
    (Triple.free_bind {⟨o.ptr, 1⟩} (add_comm _ _) Triple.free)

end Obj

end Ownership
