import HpcToolkit.Collections.SplayUint64

/-! # Idle blame

The idle time of a synchronisation is shared among the kernels that are active in it. The starts and ends of the kernels
and of the synchronisation are sorted by their times and swept once, with a splay tree of the active kernels and a counter
of its nodes. Times are whole nanoseconds and blame is an exact rational; a pointer to a kernel node is a `P`.
-/

open Function
open List hiding Ico
open Finset (Ico sum_congr)

namespace HpcToolkit.Gpu.IdleBlame

open Lib Collections SplayUint64

variable {P : Type}

/-- What the sweep reads of `kernel_node_t`; its `cpu_idle_blame` is kept apart. -/
structure KernelNode where
  kernelId : ℕ
  kernelStartTime : ℕ
  kernelEndTime : ℕ

structure Node (P : Type) where
  time : ℕ
  id : ℕ
  isStart : Bool
  kernelNode : Option P

def syncId : ℕ := 0

/-! ## Sorting -/

/-- `partition`: the nodes in front of the pivot and the nodes that are moved behind it -/
def partition (pivot : Node P) (nodes : List (Node P)) : List (Node P) × List (Node P) :=
  nodes.foldl (fun (front, moved) cur => if cur.time < pivot.time then (front ++ [cur], moved) else (front, moved ++ [cur]))
    ([], [])

/-- `quickSortRecur`, with the last node as the pivot -/
def quickSortRecur : ℕ → List (Node P) → List (Node P)
  | 0, nodes => nodes
  | fuel + 1, nodes =>
    match nodes.getLast? with
    | none => []
    | some pivot =>
      let (front, moved) := partition pivot nodes.dropLast
      quickSortRecur fuel front ++ pivot :: quickSortRecur fuel moved

def quickSort (nodes : List (Node P)) : List (Node P) := quickSortRecur nodes.length nodes

lemma partition_eq (pivot : Node P) (nodes : List (Node P)) :
    partition pivot nodes = (nodes.filter (·.time < pivot.time), nodes.filter (¬ ·.time < pivot.time)) := by
  suffices loop : ∀ front moved : List (Node P),
      nodes.foldl (fun (front, moved) cur => if cur.time < pivot.time then (front ++ [cur], moved)
        else (front, moved ++ [cur])) (front, moved) =
      (front ++ nodes.filter (·.time < pivot.time), moved ++ nodes.filter (¬ ·.time < pivot.time)) from loop [] []
  induction nodes with
  | nil => simp
  | cons cur nodes ih =>
    intro front moved
    rw [foldl_cons]
    dsimp only
    split
    · rename_i less
      rw [ih, filter_cons_of_pos (by simpa using less), filter_cons_of_neg (by simpa using less)]
      simp
    · rename_i least
      rw [ih, filter_cons_of_neg (by simpa using least), filter_cons_of_pos (by simpa using least)]
      simp

lemma quickSortRecur_spec {R : Node P → Node P → Prop} (fuel : ℕ) (nodes : List (Node P)) (enough : nodes.length ≤ fuel)
    (backwards : nodes.Pairwise fun a b => R b a) :
    (quickSortRecur fuel nodes).Perm nodes ∧
      (quickSortRecur fuel nodes).Pairwise fun a b => a.time < b.time ∨ a.time = b.time ∧ R a b := by
  induction fuel generalizing nodes with
  | zero =>
    obtain rfl : nodes = [] := eq_nil_of_length_eq_zero (Nat.le_zero.mp enough)
    exact ⟨.refl _, .nil⟩
  | succ fuel ih =>
    rcases eq_nil_or_concat' nodes with rfl | ⟨rest, pivot, rfl⟩
    · exact ⟨.refl _, .nil⟩
    · rw [length_append, length_singleton] at enough
      rw [pairwise_append] at backwards
      obtain ⟨restBackwards, -, pivotBackwards⟩ := backwards
      obtain ⟨frontPerm, frontSorted⟩ := ih (rest.filter (·.time < pivot.time))
        ((length_filter_le ..).trans (by omega)) (restBackwards.filter _)
      obtain ⟨movedPerm, movedSorted⟩ := ih (rest.filter (¬ ·.time < pivot.time))
        ((length_filter_le ..).trans (by omega)) (restBackwards.filter _)
      rw [quickSortRecur, getLast?_concat, dropLast_concat]
      dsimp only
      rw [partition_eq]
      have halves := filter_append_perm (fun node : Node P => decide (node.time < pivot.time)) rest
      have below (node : Node P) (member : node ∈ quickSortRecur fuel (rest.filter (·.time < pivot.time))) :
          node.time < pivot.time := of_decide_eq_true (mem_filter.mp (frontPerm.mem_iff.mp member)).2
      have above (node : Node P) (member : node ∈ quickSortRecur fuel (rest.filter (¬ ·.time < pivot.time))) :
          node ∈ rest ∧ pivot.time ≤ node.time := by
        obtain ⟨inside, least⟩ := mem_filter.mp (movedPerm.mem_iff.mp member)
        exact ⟨inside, not_lt.mp (of_decide_eq_true least)⟩
      constructor
      · refine (perm_middle.trans ?_).trans (perm_append_singleton pivot rest).symm
        refine ((frontPerm.append movedPerm).trans ?_).cons pivot
        simpa only [decide_not] using halves
      · rw [pairwise_append, pairwise_cons]
        refine ⟨frontSorted, ⟨fun node member => ?_, movedSorted⟩, fun a first b second => .inl ?_⟩
        · obtain ⟨inside, least⟩ := above node member
          rcases least.lt_or_eq with less | same
          · exact .inl less
          · exact .inr ⟨same, pivotBackwards node inside pivot (mem_singleton_self pivot)⟩
        · rcases mem_cons.mp second with rfl | moved
          · exact below a first
          · exact (below a first).trans_le (above b moved).2

/-! ## The active kernels -/

structure ActiveKernelsEntry (P : Type) where
  kernelId : ℕ
  kernelNode : Option P

/-- `ak_map_root` and `size` -/
structure ActiveKernels (P : Type) where
  root : STree (ActiveKernelsEntry P)
  size : ℤ

/-- `active_kernels_insert`, which terminates the program when there is an entry already -/
def activeKernelsInsert (ak : ActiveKernels P) (akId : ℕ) (kernelNode : Option P) : Option (ActiveKernels P) :=
  let (found, root) := splayUint64Lookup ActiveKernelsEntry.kernelId ak.root akId
  if found.isSome then none
  else some { root := (splayUint64Insert ActiveKernelsEntry.kernelId root ⟨akId, kernelNode⟩).2, size := ak.size + 1 }

/-- `active_kernels_delete`, which fails on a null pointer when there is no entry -/
def activeKernelsDelete (ak : ActiveKernels P) (akId : ℕ) : Option (ActiveKernels P) :=
  let (node, root) := splayUint64Delete ActiveKernelsEntry.kernelId ak.root akId
  if node.isSome then some { root, size := ak.size - 1 } else none

def clearRecursive : ℕ → ActiveKernels P → ActiveKernels P
  | 0, ak => ak
  | fuel + 1, ak =>
    match ak.root with
    | .nil => ak
    | .node _ entry _ =>
      clearRecursive fuel
        { root := (splayUint64Delete ActiveKernelsEntry.kernelId ak.root entry.kernelId).2, size := ak.size - 1 }

def akMapClear (ak : ActiveKernels P) : ActiveKernels P := clearRecursive ak.root.toList.length ak

/-- The counter is right, and the tree is ordered. -/
structure ActiveKernels.Counted (ak : ActiveKernels P) : Prop where
  ordered : ak.root.Ordered ActiveKernelsEntry.kernelId
  size : ak.size = ak.root.toList.length

section Active

variable {ak : ActiveKernels P} (counted : ak.Counted)
include counted

lemma activeKernelsInsert_spec {akId : ℕ} (kernelNode : Option P)
    (absent : ∀ entry ∈ ak.root.toList, entry.kernelId ≠ akId) :
    ∃ ak', activeKernelsInsert ak akId kernelNode = some ak' ∧ ak'.Counted ∧
      ∀ entry, entry ∈ ak'.root.toList ↔ entry = ⟨akId, kernelNode⟩ ∨ entry ∈ ak.root.toList := by
  obtain ⟨ordered, perm⟩ := insert_lookup counted.ordered ⟨akId, kernelNode⟩ absent
  unfold activeKernelsInsert
  dsimp only
  rw [lookup_absent counted.ordered absent, Option.isSome_none, if_neg Bool.false_ne_true]
  refine ⟨_, rfl, ⟨ordered, ?_⟩, fun entry => perm.mem_iff.trans mem_cons⟩
  dsimp only at perm ⊢
  rw [perm.length_eq, length_cons, counted.size]
  exact (Nat.cast_succ _).symm

lemma activeKernelsDelete_spec {entry : ActiveKernelsEntry P} (present : entry ∈ ak.root.toList) :
    (splayUint64Delete ActiveKernelsEntry.kernelId ak.root entry.kernelId).1 = some entry ∧
      ({ root := (splayUint64Delete ActiveKernelsEntry.kernelId ak.root entry.kernelId).2, size := ak.size - 1 } :
        ActiveKernels P).Counted ∧
      (splayUint64Delete ActiveKernelsEntry.kernelId ak.root entry.kernelId).2.toList.length + 1 = ak.root.toList.length ∧
      ∀ other, other ∈ (splayUint64Delete ActiveKernelsEntry.kernelId ak.root entry.kernelId).2.toList ↔
        other ∈ ak.root.toList ∧ other.kernelId ≠ entry.kernelId := by
  rw [delete_eq counted.ordered]
  dsimp only
  have removed := STree.toList_removeRoot ActiveKernelsEntry.kernelId entry.kernelId counted.ordered
  have shorter : (STree.removeRoot ActiveKernelsEntry.kernelId entry.kernelId
      (STree.splay ActiveKernelsEntry.kernelId entry.kernelId ak.root)).toList.length + 1 = ak.root.toList.length := by
    obtain ⟨before, after, split⟩ := append_of_mem present
    have ordered := counted.ordered
    rw [STree.Ordered, split, pairwise_append, pairwise_cons] at ordered
    obtain ⟨-, ⟨above, -⟩, below⟩ := ordered
    rw [STree.toList_removeRoot_split _ _ counted.ordered split rfl, split]
    · simp only [length_append, length_cons]
      omega
    · intro other member
      rcases mem_append.mp member with first | second
      · exact (below other first entry (mem_cons_self ..)).ne
      · exact (above other second).ne'
  refine ⟨(counted.ordered.find?_eq_some _).mpr ⟨present, rfl⟩, ⟨STree.removeRoot_ordered _ _ counted.ordered, ?_⟩,
    shorter, fun other => ?_⟩
  · dsimp only
    rw [counted.size, ← shorter]
    omega
  · rw [removed, mem_filter, decide_eq_true_eq]

lemma clearRecursive_spec {fuel : ℕ} (enough : ak.root.toList.length ≤ fuel) :
    clearRecursive fuel ak = { root := .nil, size := 0 } := by
  induction fuel generalizing ak with
  | zero =>
    obtain ⟨root, size⟩ := ak
    have empty : root = .nil := STree.toList_eq_nil.mp (eq_nil_of_length_eq_zero (Nat.le_zero.mp enough))
    have none := counted.size
    subst empty
    exact congrArg (ActiveKernels.mk .nil) none
  | succ fuel ih =>
    rw [clearRecursive]
    split
    · rename_i empty
      obtain ⟨root, size⟩ := ak
      have none := counted.size
      dsimp only at empty
      subst empty
      exact congrArg (ActiveKernels.mk .nil) none
    · rename_i l entry r shape
      have present : entry ∈ ak.root.toList := by
        rw [shape, STree.toList_node]
        exact mem_append_right _ (mem_cons_self ..)
      obtain ⟨-, kept, shorter, -⟩ := activeKernelsDelete_spec counted present
      exact ih kept (by dsimp only; omega)

lemma akMapClear_eq : akMapClear ak = { root := .nil, size := 0 } := clearRecursive_spec counted le_rfl

end Active

/-- The values of `splay_visit_t`. -/
def visitValue : Visit → ℕ
  | .preorder => 1
  | .inorder => 2
  | .postorder => 3

/-- The `switch` of `splay_uint64_forall` on a value of `splay_order_t`. -/
def orderOfValue : ℕ → Option Order
  | 1 => some .inorder
  | 2 => some .allorder
  | _ => none

/-- `active_kernels_forall`: the calls of the function that is given -/
def activeKernelsForall (ak : ActiveKernels P) (orderType : ℕ) : List (ActiveKernelsEntry P × Visit) :=
  match orderOfValue orderType with
  | some order => splayUint64Forall ak.root order
  | none => []

/-! ## The sweep -/

variable [DecidableEq P]

/-- `increment_blame_for_entry`; a sync node, which has no kernel node, gets no entry. -/
def incrementBlameForEntry (cpuIdleBlame : P → ℚ) (entry : ActiveKernelsEntry P) (blame : ℚ) : P → ℚ :=
  match entry.kernelNode with
  | some kernelNode => update cpuIdleBlame kernelNode (cpuIdleBlame kernelNode + blame)
  | none => cpuIdleBlame

structure AkHelperNode where
  currentTime : ℕ
  lastTime : ℕ
  akSize : ℤ

def nsecToSec : ℚ := 10 ^ (-9 : ℤ)

/-- `increment_blame_for_active_kernel`, which does not look at the visit -/
def incrementBlameForActiveKernel (akn : AkHelperNode) (cpuIdleBlame : P → ℚ) (call : ActiveKernelsEntry P × Visit) : P → ℚ :=
  let newBlame : ℚ := ((akn.currentTime - akn.lastTime : ℕ) : ℚ) / akn.akSize
  incrementBlameForEntry cpuIdleBlame call.1 (newBlame * nsecToSec)

/-- The blame for the time since the last event, given to the active kernels. -/
def blameActive (currentTime lastTime : ℕ) (ak : ActiveKernels P) (cpuIdleBlame : P → ℚ) : P → ℚ :=
  (activeKernelsForall ak (visitValue .inorder)).foldl
    (incrementBlameForActiveKernel { currentTime, lastTime, akSize := ak.size }) cpuIdleBlame

def distributeBlameToKernels : List (Node P) → Bool → ℕ → ActiveKernels P → (P → ℚ) → Option (ActiveKernels P × (P → ℚ))
  | [], _, _, ak, blame => some (akMapClear ak, blame)
  | data :: next, inSync, lastTime, ak, blame =>
    if data.id = syncId then
      if data.isStart then distributeBlameToKernels next true data.time ak blame
      else some (akMapClear ak, blameActive data.time lastTime ak blame)
    else
      let blame := if inSync then blameActive data.time lastTime ak blame else blame
      let lastTime := if inSync then data.time else lastTime
      if data.isStart then
        (activeKernelsInsert ak data.id data.kernelNode).bind fun ak => distributeBlameToKernels next inSync lastTime ak blame
      else (activeKernelsDelete ak data.id).bind fun ak => distributeBlameToKernels next inSync lastTime ak blame

section Events

variable (kernels : P → KernelNode)

def startNode (curr : P) : Node P := ⟨(kernels curr).kernelStartTime, (kernels curr).kernelId, true, some curr⟩

def endNode (curr : P) : Node P := ⟨(kernels curr).kernelEndTime, (kernels curr).kernelId, false, some curr⟩

def transformKernelNodesToSortableNodes (kernelList : List P) : List (Node P) :=
  kernelList.foldl (fun head curr => endNode kernels curr :: startNode kernels curr :: head) []

def calculateBlameForActiveKernels (kernelList : List P) (syncStart syncEnd : ℕ) (ak : ActiveKernels P)
    (cpuIdleBlame : P → ℚ) : Option (ActiveKernels P × (P → ℚ)) :=
  let head := transformKernelNodesToSortableNodes kernels kernelList
  let head := ⟨syncEnd, syncId, false, none⟩ :: ⟨syncStart, syncId, true, none⟩ :: head
  distributeBlameToKernels (quickSort head) false 0 ak cpuIdleBlame

end Events

/-! ## Fair shares -/

section Shares

variable (kernels : P → KernelNode) (kernelList : List P)

/-- The kernel is active in the nanosecond that begins at `t`. -/
def ActiveAt (p : P) (t : ℕ) : Prop := (kernels p).kernelStartTime ≤ t ∧ t < (kernels p).kernelEndTime

instance (p : P) (t : ℕ) : Decidable (ActiveAt kernels p t) := inferInstanceAs (Decidable (_ ∧ _))

def activeCount (t : ℕ) : ℕ := kernelList.countP fun p => ActiveAt kernels p t

/-- The integral of one over the number of active kernels, over the part of the interval in which the kernel is active;
as the number changes at whole nanoseconds, it is a sum of nanoseconds. -/
def share (p : P) (syncStart syncEnd : ℕ) : ℚ :=
  ∑ t ∈ Ico syncStart syncEnd, if ActiveAt kernels p t then (1 : ℚ) / activeCount kernels kernelList t else 0

/-- The length of the part of the interval in which a kernel is active. -/
def coveredLength (syncStart syncEnd : ℕ) : ℕ :=
  ((Ico syncStart syncEnd).filter fun t => ∃ p ∈ kernelList, ActiveAt kernels p t).card

/-- Each kernel gets its share in seconds, all together get the covered time, and no active kernel is left. -/
def SharedFairly (syncStart syncEnd : ℕ) (ak : ActiveKernels P) (cpuIdleBlame : P → ℚ) : Prop :=
  ∃ ak' blame, calculateBlameForActiveKernels kernels kernelList syncStart syncEnd ak cpuIdleBlame = some (ak', blame) ∧
    (∀ p ∈ kernelList, blame p - cpuIdleBlame p = share kernels kernelList p syncStart syncEnd * nsecToSec) ∧
    (kernelList.map fun p => blame p - cpuIdleBlame p).sum =
      coveredLength kernels kernelList syncStart syncEnd * nsecToSec ∧
    ak' = { root := .nil, size := 0 }

variable {kernels kernelList}

section
omit [DecidableEq P]

lemma share_split (p : P) {a b c : ℕ} (first : a ≤ b) (second : b ≤ c) :
    share kernels kernelList p a c = share kernels kernelList p a b + share kernels kernelList p b c :=
  (Finset.sum_Ico_consecutive _ first second).symm

lemma sum_share_at (t : ℕ) :
    (kernelList.map fun p => if ActiveAt kernels p t then (1 : ℚ) / activeCount kernels kernelList t else 0).sum =
      if ∃ p ∈ kernelList, ActiveAt kernels p t then 1 else 0 := by
  have total (c : ℚ) (nodes : List P) : (nodes.map fun p => if ActiveAt kernels p t then c else 0).sum =
      activeCount kernels nodes t * c := by
    induction nodes with
    | nil => simp [activeCount]
    | cons p nodes ih =>
      rw [map_cons, sum_cons, ih, activeCount, activeCount, countP_cons]
      simp only [decide_eq_true_eq]
      split <;> push_cast <;> ring
  rw [total]
  split
  · rename_i some
    have positive : 0 < activeCount kernels kernelList t := by
      obtain ⟨p, member, active⟩ := some
      exact countP_pos_iff.mpr ⟨p, member, decide_eq_true active⟩
    have apart : (activeCount kernels kernelList t : ℚ) ≠ 0 := by exact_mod_cast positive.ne'
    rw [mul_one_div, div_self apart]
  · rename_i none
    have zero : activeCount kernels kernelList t = 0 :=
      countP_eq_zero.mpr fun p member active => none ⟨p, member, of_decide_eq_true active⟩
    rw [zero, Nat.cast_zero, zero_mul]

lemma sum_share (syncStart syncEnd : ℕ) :
    (kernelList.map fun p => share kernels kernelList p syncStart syncEnd).sum =
      coveredLength kernels kernelList syncStart syncEnd := by
  have swap (f : P → ℕ → ℚ) (nodes : List P) : (nodes.map fun p => ∑ t ∈ Ico syncStart syncEnd, f p t).sum =
      ∑ t ∈ Ico syncStart syncEnd, (nodes.map fun p => f p t).sum := by
    induction nodes with
    | nil => simp
    | cons p nodes ih => simp only [map_cons, sum_cons, ih, Finset.sum_add_distrib]
  unfold share
  rw [swap, sum_congr rfl fun t _ => sum_share_at t, coveredLength, Finset.card_filter]
  push_cast
  rfl

lemma share_eq_zero_iff {p : P} (member : p ∈ kernelList) (syncStart syncEnd : ℕ) :
    share kernels kernelList p syncStart syncEnd = 0 ↔
      min (kernels p).kernelEndTime syncEnd ≤ max (kernels p).kernelStartTime syncStart := by
  have positive {t : ℕ} (active : ActiveAt kernels p t) : (0 : ℚ) < 1 / activeCount kernels kernelList t := by
    have some : 0 < activeCount kernels kernelList t := countP_pos_iff.mpr ⟨p, member, decide_eq_true active⟩
    exact one_div_pos.mpr (Nat.cast_pos.mpr some)
  rw [share, Finset.sum_eq_zero_iff_of_nonneg]
  · constructor
    · intro none
      by_contra overlap
      rw [not_le, lt_min_iff, max_lt_iff] at overlap
      have active : ActiveAt kernels p (max (kernels p).kernelStartTime syncStart) :=
        ⟨le_max_left .., max_lt overlap.1.1 overlap.1.2⟩
      have zero := none _ (Finset.mem_Ico.mpr ⟨le_max_right .., overlap.2⟩)
      rw [if_pos active] at zero
      exact (positive active).ne' zero
    · intro apart t inside
      rw [Finset.mem_Ico] at inside
      refine if_neg fun active => ?_
      exact (max_le active.1 inside.1).not_gt ((lt_min active.2 inside.2).trans_le apart)
  · intro t _
    split
    · exact (positive ‹_›).le
    · exact le_rfl

end

end Shares

/-! ## Blame of one stretch of time -/

lemma incrementBlameForEntry_apply (cpuIdleBlame : P → ℚ) (entry : ActiveKernelsEntry P) (blame : ℚ) (p : P) :
    incrementBlameForEntry cpuIdleBlame entry blame p =
      cpuIdleBlame p + if entry.kernelNode = some p then blame else 0 := by
  obtain ⟨id, kernelNode⟩ := entry
  cases kernelNode with
  | none => rw [if_neg (Option.some_ne_none p).symm, add_zero, incrementBlameForEntry]
  | some node =>
    change update cpuIdleBlame node (cpuIdleBlame node + blame) p = cpuIdleBlame p + if some node = some p then blame else 0
    rw [update_apply]
    rcases eq_or_ne p node with rfl | apart
    · rw [if_pos rfl, if_pos rfl]
    · rw [if_neg apart, if_neg fun same => apart (Option.some_inj.mp same).symm, add_zero]

lemma foldl_incrementBlame (akn : AkHelperNode) (calls : List (ActiveKernelsEntry P × Visit)) (cpuIdleBlame : P → ℚ)
    (p : P) : calls.foldl (incrementBlameForActiveKernel akn) cpuIdleBlame p =
      cpuIdleBlame p + (calls.map Prod.fst).countP (fun entry => entry.kernelNode = some p) *
        (((akn.currentTime - akn.lastTime : ℕ) : ℚ) / akn.akSize * nsecToSec) := by
  induction calls generalizing cpuIdleBlame with
  | nil => simp
  | cons call calls ih =>
    rw [foldl_cons, ih, incrementBlameForActiveKernel, incrementBlameForEntry_apply, map_cons, countP_cons]
    simp only [decide_eq_true_eq]
    split <;> push_cast <;> ring

omit [DecidableEq P] in
lemma countP_splayForallAllorder (root : STree (ActiveKernelsEntry P)) (p : ActiveKernelsEntry P → Bool) :
    ((splayForallAllorder root).map Prod.fst).countP p = 3 * root.toList.countP p := by
  induction root with
  | nil => rfl
  | node l x r ihl ihr =>
    simp only [splayForallAllorder, STree.toList_node, map_append, map_cons, map_nil, countP_append,
      countP_cons, countP_nil, ihl, ihr]
    omega

lemma blameActive_apply (currentTime lastTime : ℕ) (ak : ActiveKernels P) (cpuIdleBlame : P → ℚ) (p : P) :
    blameActive currentTime lastTime ak cpuIdleBlame p =
      cpuIdleBlame p + 3 * ak.root.toList.countP (fun entry => entry.kernelNode = some p) *
        (((currentTime - lastTime : ℕ) : ℚ) / ak.size * nsecToSec) := by
  have calls : activeKernelsForall ak (visitValue .inorder) = splayForallAllorder ak.root := rfl
  rw [blameActive, foldl_incrementBlame, calls, countP_splayForallAllorder]
  push_cast
  rfl

/-! ## The events -/

section Sweep

variable {kernels : P → KernelNode} {kernelList : List P} {syncStart syncEnd : ℕ} {events done next : List (Node P)}
  {data : Node P} {ak : ActiveKernels P}

omit [DecidableEq P] in
lemma transformKernelNodes_eq (kernels : P → KernelNode) (kernelList : List P) :
    transformKernelNodesToSortableNodes kernels kernelList =
      kernelList.reverse.flatMap fun p => [endNode kernels p, startNode kernels p] := by
  suffices loop : ∀ head : List (Node P),
      kernelList.foldl (fun head curr => endNode kernels curr :: startNode kernels curr :: head) head =
        kernelList.reverse.flatMap (fun p => [endNode kernels p, startNode kernels p]) ++ head by
    rw [transformKernelNodesToSortableNodes, loop, append_nil]
  induction kernelList with
  | nil => exact fun _ => rfl
  | cons p kernelList ih =>
    intro head
    rw [foldl_cons, ih, reverse_cons, flatMap_append]
    simp

def syncStartNode (syncStart : ℕ) : Node P := ⟨syncStart, syncId, true, none⟩

def syncEndNode (syncEnd : ℕ) : Node P := ⟨syncEnd, syncId, false, none⟩

/-- The events in the order of their times, each start in front of its end. -/
structure Events (kernels : P → KernelNode) (kernelList : List P) (syncStart syncEnd : ℕ) (events : List (Node P)) : Prop where
  mem : ∀ node, node ∈ events ↔ node = syncEndNode syncEnd ∨ node = syncStartNode syncStart ∨
    ∃ p ∈ kernelList, node = endNode kernels p ∨ node = startNode kernels p
  nodup : events.Nodup
  ordered : events.Pairwise fun a b => a.time < b.time ∨ a.time = b.time ∧ (b.id ≠ a.id ∨ b.isStart = false ∧ a.isStart = true)

/-- The kernels of the list are different, none is the synchronisation, and all times are in order. -/
structure Completed (kernels : P → KernelNode) (kernelList : List P) (syncStart syncEnd : ℕ) : Prop where
  ids : (kernelList.map fun p => (kernels p).kernelId).Nodup
  nonzero : ∀ p ∈ kernelList, (kernels p).kernelId ≠ syncId
  times : ∀ p ∈ kernelList, (kernels p).kernelStartTime ≤ (kernels p).kernelEndTime
  interval : syncStart ≤ syncEnd

lemma distribute_syncStart (inSync : Bool) (lastTime : ℕ) (blame : P → ℚ) :
    distributeBlameToKernels (syncStartNode syncStart :: next) inSync lastTime ak blame =
      distributeBlameToKernels next true syncStart ak blame := rfl

lemma distribute_syncEnd (inSync : Bool) (lastTime : ℕ) (blame : P → ℚ) :
    distributeBlameToKernels (syncEndNode syncEnd :: next) inSync lastTime ak blame =
      some (akMapClear ak, blameActive syncEnd lastTime ak blame) := rfl

variable (completed : Completed kernels kernelList syncStart syncEnd)
include completed

omit [DecidableEq P] in
lemma events_quickSort : Events kernels kernelList syncStart syncEnd
    (quickSort (syncEndNode syncEnd :: syncStartNode syncStart ::
      transformKernelNodesToSortableNodes kernels kernelList)) := by
  rw [transformKernelNodes_eq]
  have backwards : (syncEndNode syncEnd :: syncStartNode syncStart ::
      kernelList.reverse.flatMap fun p => [endNode kernels p, startNode kernels p]).Pairwise
        fun a b => a.id ≠ b.id ∨ a.isStart = false ∧ b.isStart = true := by
    have zero (node : Node P)
        (member : node ∈ kernelList.reverse.flatMap fun p => [endNode kernels p, startNode kernels p]) : node.id ≠ syncId := by
      obtain ⟨p, listed, event⟩ := mem_flatMap.mp member
      have nonzero := completed.nonzero p (mem_reverse.mp listed)
      rcases mem_pair.mp event with rfl | rfl <;> exact nonzero
    rw [pairwise_cons, pairwise_cons, pairwise_flatMap]
    refine ⟨fun node member => ?_, fun node member => .inl (zero node member).symm, fun p _ => ?_, ?_⟩
    · rcases mem_cons.mp member with rfl | kernel
      · exact .inr ⟨rfl, rfl⟩
      · exact .inl (zero node kernel).symm
    · exact pairwise_pair.mpr (.inr ⟨rfl, rfl⟩)
    · rw [pairwise_reverse]
      refine (pairwise_map.mp completed.ids).imp fun apart a first b second => .inl ?_
      rcases mem_pair.mp first with rfl | rfl <;> rcases mem_pair.mp second with rfl | rfl <;>
        exact fun same => apart same.symm
  obtain ⟨perm, ordered⟩ := quickSortRecur_spec (R := fun a b => b.id ≠ a.id ∨ b.isStart = false ∧ a.isStart = true) _ _
    le_rfl backwards
  refine ⟨fun node => ?_, ?_, ordered⟩
  · rw [quickSort, perm.mem_iff, mem_cons, mem_cons, mem_flatMap]
    simp only [mem_reverse, mem_pair]
  · refine perm.nodup_iff.mpr (backwards.imp fun apart same => ?_)
    subst same
    rcases apart with apart | ⟨isEnd, isStart⟩
    · exact apart rfl
    · exact Bool.false_ne_true (isEnd.symm.trans isStart)

section
variable (sorted : Events kernels kernelList syncStart syncEnd (done ++ data :: next))
include sorted

omit completed in
omit [DecidableEq P] in
lemma Events.not_mem_next :
    data ∉ done ∧ data ∉ next := by
  obtain ⟨-, ⟨after, -⟩, before⟩ := nodup_append.mp sorted.nodup |>.imp_right (And.imp_left nodup_cons.mp)
  exact ⟨fun member => before data member data (mem_cons_self ..) rfl, after⟩

omit completed in
omit [DecidableEq P] in
lemma Events.time_le :
    (∀ node ∈ done, node.time ≤ data.time) ∧ ∀ node ∈ next, data.time ≤ node.time := by
  obtain ⟨-, ⟨after, -⟩, before⟩ := pairwise_append.mp sorted.ordered |>.imp_right (And.imp_left pairwise_cons.mp)
  constructor
  · intro node member
    rcases before node member data (mem_cons_self ..) with less | ⟨same, -⟩
    · exact less.le
    · exact same.le
  · intro node member
    rcases after node member with less | ⟨same, -⟩
    · exact less.le
    · exact same.le

omit completed in
omit [DecidableEq P] in
lemma Events.start_mem_done
    {node : Node P} (member : node ∈ done ++ data :: next) (same : node.id = data.id) (isStart : node.isStart = true)
    (isEnd : data.isStart = false) (least : node.time ≤ data.time) : node ∈ done := by
  rcases mem_append.mp member with early | late
  · exact early
  · rcases mem_cons.mp late with rfl | behind
    · exact absurd (isEnd.symm.trans isStart) Bool.false_ne_true
    · have after := pairwise_cons.mp (pairwise_append.mp sorted.ordered).2.1 |>.1 node behind
      rcases after with less | ⟨-, apart | ⟨isEnd', -⟩⟩
      · exact absurd least less.not_ge
      · exact absurd same apart
      · exact absurd (isEnd'.symm.trans isStart) Bool.false_ne_true

end

/-- The tree has the kernels that have started and not ended. -/
structure Swept (kernels : P → KernelNode) (kernelList : List P) (done next : List (Node P)) (ak : ActiveKernels P) : Prop where
  counted : ak.Counted
  entries : ∀ entry, entry ∈ ak.root.toList ↔ ∃ p ∈ kernelList, entry = ⟨(kernels p).kernelId, some p⟩ ∧
    startNode kernels p ∈ done ∧ endNode kernels p ∈ next

omit [DecidableEq P] in
lemma kernelId_injective {p q : P} (first : p ∈ kernelList) (second : q ∈ kernelList)
    (same : (kernels p).kernelId = (kernels q).kernelId) : p = q :=
  inj_on_of_nodup_map completed.ids first second same

omit [DecidableEq P] in
lemma Swept.sync (swept : Swept kernels kernelList done (data :: next) ak) (isSync : data.id = syncId) :
    Swept kernels kernelList (done ++ [data]) next ak := by
  refine ⟨swept.counted, fun entry => (swept.entries entry).trans ?_⟩
  have notStart {p : P} (member : p ∈ kernelList) : startNode kernels p ≠ data := fun same =>
    completed.nonzero p member (isSync ▸ congrArg Node.id same)
  have notEnd {p : P} (member : p ∈ kernelList) : endNode kernels p ≠ data := fun same =>
    completed.nonzero p member (isSync ▸ congrArg Node.id same)
  constructor
  · rintro ⟨p, member, rfl, started, ended⟩
    exact ⟨p, member, rfl, mem_append_left _ started, (mem_cons.mp ended).resolve_left (notEnd member)⟩
  · rintro ⟨p, member, rfl, started, ended⟩
    refine ⟨p, member, rfl, (mem_append.mp started).resolve_right fun last => ?_, mem_cons_of_mem _ ended⟩
    exact notStart member (mem_singleton.mp last)

variable {p : P}

section
omit [DecidableEq P]

lemma Swept.start (swept : Swept kernels kernelList done (startNode kernels p :: next) ak)
    (sorted : Events kernels kernelList syncStart syncEnd (done ++ startNode kernels p :: next)) (member : p ∈ kernelList) :
    ∃ ak', activeKernelsInsert ak (kernels p).kernelId (some p) = some ak' ∧
      Swept kernels kernelList (done ++ [startNode kernels p]) next ak' := by
  obtain ⟨fresh, -⟩ := sorted.not_mem_next
  have absent : ∀ entry ∈ ak.root.toList, entry.kernelId ≠ (kernels p).kernelId := by
    intro entry inside same
    obtain ⟨q, listed, rfl, started, -⟩ := (swept.entries entry).mp inside
    obtain rfl := kernelId_injective completed listed member same
    exact fresh started
  have distinct (q : P) : endNode kernels q ≠ startNode kernels p := fun same =>
    Bool.false_ne_true (congrArg Node.isStart same)
  have later : endNode kernels p ∈ next := by
    have listed := (sorted.mem _).mpr (.inr (.inr ⟨p, member, .inl rfl⟩))
    rcases mem_append.mp listed with early | late
    · obtain ⟨before, after, rfl⟩ := append_of_mem early
      rw [append_assoc, cons_append] at sorted
      have started := sorted.start_mem_done ((sorted.mem _).mpr (.inr (.inr ⟨p, member, .inr rfl⟩))) rfl rfl rfl
        (completed.times p member)
      exact absurd (mem_append_left _ started) fresh
    · exact (mem_cons.mp late).resolve_left (distinct p)
  obtain ⟨ak', inserted, counted, entries⟩ := activeKernelsInsert_spec swept.counted (some p) absent
  refine ⟨ak', inserted, counted, fun entry => (entries entry).trans ?_⟩
  rw [swept.entries]
  constructor
  · rintro (rfl | ⟨q, listed, rfl, started, ended⟩)
    · exact ⟨p, member, rfl, mem_append_right _ (mem_singleton_self _), later⟩
    · exact ⟨q, listed, rfl, mem_append_left _ started, (mem_cons.mp ended).resolve_left (distinct q)⟩
  · rintro ⟨q, listed, rfl, started, ended⟩
    rcases mem_append.mp started with early | last
    · exact .inr ⟨q, listed, rfl, early, mem_cons_of_mem _ ended⟩
    · have same : (kernels q).kernelId = (kernels p).kernelId := congrArg Node.id (mem_singleton.mp last)
      obtain rfl := kernelId_injective completed listed member same
      exact .inl rfl

lemma Swept.finish (swept : Swept kernels kernelList done (endNode kernels p :: next) ak)
    (sorted : Events kernels kernelList syncStart syncEnd (done ++ endNode kernels p :: next)) (member : p ∈ kernelList) :
    ∃ ak', activeKernelsDelete ak (kernels p).kernelId = some ak' ∧
      Swept kernels kernelList (done ++ [endNode kernels p]) next ak' := by
  obtain ⟨-, gone⟩ := sorted.not_mem_next
  have started := sorted.start_mem_done ((sorted.mem _).mpr (.inr (.inr ⟨p, member, .inr rfl⟩))) rfl rfl rfl
    (completed.times p member)
  have distinct (q : P) : startNode kernels q ≠ endNode kernels p := fun same =>
    Bool.false_ne_true (congrArg Node.isStart same).symm
  have present : (⟨(kernels p).kernelId, some p⟩ : ActiveKernelsEntry P) ∈ ak.root.toList :=
    (swept.entries _).mpr ⟨p, member, rfl, started, mem_cons_self ..⟩
  obtain ⟨found, counted, -, entries⟩ := activeKernelsDelete_spec swept.counted present
  refine ⟨_, ?_, counted, fun entry => (entries entry).trans ?_⟩
  · unfold activeKernelsDelete
    dsimp only at found ⊢
    rw [found, Option.isSome_some, if_pos rfl]
  · rw [swept.entries]
    constructor
    · rintro ⟨⟨q, listed, rfl, began, ended⟩, apart⟩
      refine ⟨q, listed, rfl, mem_append_left _ began, (mem_cons.mp ended).resolve_left fun same => ?_⟩
      exact apart (congrArg Node.id same)
    · rintro ⟨q, listed, rfl, began, ended⟩
      refine ⟨⟨q, listed, rfl, (mem_append.mp began).resolve_right fun last => ?_, mem_cons_of_mem _ ended⟩,
        fun same => ?_⟩
      · exact distinct q (mem_singleton.mp last)
      · obtain rfl := kernelId_injective completed listed member same
        exact gone ended

lemma Swept.active {lastTime t : ℕ} (swept : Swept kernels kernelList done (data :: next) ak)
    (sorted : Events kernels kernelList syncStart syncEnd (done ++ data :: next)) (before : ∀ node ∈ done, node.time ≤ lastTime)
    (first : lastTime ≤ t) (last : t < data.time) :
    (ak.root.toList.map ActiveKernelsEntry.kernelNode).Perm ((kernelList.filter fun p => ActiveAt kernels p t).map some) := by
  have distinctList : kernelList.Nodup := .of_map _ completed.ids
  have distinct : (ak.root.toList.map ActiveKernelsEntry.kernelNode).Nodup := by
    refine List.Nodup.map_on (fun a memberA b memberB same => ?_) (swept.counted.ordered.imp fun less same => ?_)
    · obtain ⟨p, -, rfl, -, -⟩ := (swept.entries a).mp memberA
      obtain ⟨q, -, rfl, -, -⟩ := (swept.entries b).mp memberB
      rw [Option.some_inj.mp same]
    · exact less.ne (congrArg ActiveKernelsEntry.kernelId same)
  rw [perm_ext_iff_of_nodup distinct ((distinctList.filter _).map (Option.some_injective P))]
  have after (node : Node P) (member : node ∈ data :: next) : t < node.time := by
    rcases mem_cons.mp member with rfl | later
    · exact last
    · exact last.trans_le (sorted.time_le.2 node later)
  have listed {p : P} (member : p ∈ kernelList) (node : Node P) (event : node = endNode kernels p ∨ node = startNode kernels p) :
      node ∈ done ∨ node ∈ data :: next := mem_append.mp ((sorted.mem node).mpr (.inr (.inr ⟨p, member, event⟩)))
  intro pointer
  simp only [mem_map, mem_filter, decide_eq_true_eq]
  constructor
  · rintro ⟨entry, inside, rfl⟩
    obtain ⟨p, member, rfl, started, ended⟩ := (swept.entries entry).mp inside
    exact ⟨p, ⟨member, (before _ started).trans first, after _ ended⟩, rfl⟩
  · rintro ⟨p, ⟨member, began, running⟩, rfl⟩
    refine ⟨_, (swept.entries _).mpr ⟨p, member, rfl, ?_, ?_⟩, rfl⟩
    · exact (listed member _ (.inr rfl)).resolve_right fun later => began.not_gt (after _ later)
    · exact (listed member _ (.inl rfl)).resolve_left fun early => running.not_ge ((before _ early).trans first)

end

variable {lastTime : ℕ}

lemma blameActive_eq (swept : Swept kernels kernelList done (data :: next) ak)
    (sorted : Events kernels kernelList syncStart syncEnd (done ++ data :: next)) (before : ∀ node ∈ done, node.time ≤ lastTime)
    (cpuIdleBlame : P → ℚ) (member : p ∈ kernelList) :
    blameActive data.time lastTime ak cpuIdleBlame p =
      cpuIdleBlame p + 3 * share kernels kernelList p lastTime data.time * nsecToSec := by
  have constant : share kernels kernelList p lastTime data.time = (data.time - lastTime : ℕ) *
      (ak.root.toList.countP (fun entry => entry.kernelNode = some p) * ((1 : ℚ) / ak.size)) := by
    rw [share, ← Nat.card_Ico, ← nsmul_eq_mul, ← Finset.sum_const]
    refine sum_congr rfl fun t inside => ?_
    obtain ⟨first, last⟩ := Finset.mem_Ico.mp inside
    have active := swept.active completed sorted before first last
    have size : (ak.size : ℚ) = activeCount kernels kernelList t := by
      have length := active.length_eq
      rw [length_map, length_map, ← countP_eq_length_filter] at length
      rw [swept.counted.size, length]
      rfl
    have count : ak.root.toList.countP (fun entry => entry.kernelNode = some p) = if ActiveAt kernels p t then 1 else 0 := by
      have counts := active.countP_eq fun pointer => pointer = some p
      rw [countP_map, countP_map] at counts
      have single : (kernelList.filter fun p => ActiveAt kernels p t).countP
          ((fun pointer => decide (pointer = some p)) ∘ some) = (kernelList.filter fun p => ActiveAt kernels p t).count p :=
        countP_congr fun q _ => by simp
      refine (counts.trans single).trans ?_
      have distinct : (kernelList.filter fun p => ActiveAt kernels p t).Nodup := (List.Nodup.of_map _ completed.ids).filter _
      split
      · exact count_eq_one_of_mem distinct (mem_filter.mpr ⟨member, decide_eq_true ‹_›⟩)
      · rename_i inactive
        exact count_eq_zero.mpr fun inside => inactive (of_decide_eq_true (mem_filter.mp inside).2)
    rw [size, count]
    split
    · rw [Nat.cast_one, one_mul]
    · rw [Nat.cast_zero, zero_mul]
  rw [blameActive_apply, constant]
  ring

lemma distribute_kernel (swept : Swept kernels kernelList done (data :: next) ak)
    (sorted : Events kernels kernelList syncStart syncEnd (done ++ data :: next)) (member : p ∈ kernelList)
    (event : data = endNode kernels p ∨ data = startNode kernels p) (inSync : Bool) (lastTime : ℕ) (blame : P → ℚ) :
    ∃ ak', Swept kernels kernelList (done ++ [data]) next ak' ∧
      distributeBlameToKernels (data :: next) inSync lastTime ak blame =
        distributeBlameToKernels next inSync (if inSync then data.time else lastTime) ak'
          (if inSync then blameActive data.time lastTime ak blame else blame) := by
  rcases event with rfl | rfl
  · obtain ⟨ak', deleted, swept'⟩ := swept.finish completed sorted member
    refine ⟨ak', swept', ?_⟩
    have kernel : (endNode kernels p).id ≠ syncId := completed.nonzero p member
    have isEnd : ¬ (endNode kernels p).isStart = true := Bool.false_ne_true
    have result : activeKernelsDelete ak (endNode kernels p).id = some ak' := deleted
    rw [distributeBlameToKernels, if_neg kernel]
    dsimp only
    rw [if_neg isEnd, result, Option.bind_some]
  · obtain ⟨ak', inserted, swept'⟩ := swept.start completed sorted member
    refine ⟨ak', swept', ?_⟩
    have kernel : (startNode kernels p).id ≠ syncId := completed.nonzero p member
    have isStart : (startNode kernels p).isStart = true := rfl
    have result : activeKernelsInsert ak (startNode kernels p).id (startNode kernels p).kernelNode = some ak' := inserted
    rw [distributeBlameToKernels, if_neg kernel]
    dsimp only
    rw [if_pos isStart, result, Option.bind_some]

variable {blame : P → ℚ}

lemma distribute_inSync (swept : Swept kernels kernelList done next ak)
    (sorted : Events kernels kernelList syncStart syncEnd (done ++ next)) (begun : syncStartNode syncStart ∈ done)
    (before : ∀ node ∈ done, node.time ≤ lastTime) (after : ∀ node ∈ next, lastTime ≤ node.time)
    (ending : syncEndNode syncEnd ∈ next) : ∃ blame',
      distributeBlameToKernels next true lastTime ak blame = some ({ root := .nil, size := 0 }, blame') ∧
      ∀ p ∈ kernelList, blame' p = blame p + 3 * share kernels kernelList p lastTime syncEnd * nsecToSec := by
  induction next generalizing done ak lastTime blame with
  | nil => cases ending
  | cons data next ih =>
    have least := after data (mem_cons_self ..)
    have stretch {p : P} (member : p ∈ kernelList) := blameActive_eq completed swept sorted before blame member
    rcases (sorted.mem data).mp (mem_append_right _ (mem_cons_self ..)) with rfl | rfl | ⟨p, member, event⟩
    · refine ⟨blameActive syncEnd lastTime ak blame, ?_, fun p member => stretch member⟩
      rw [distribute_syncEnd, akMapClear_eq swept.counted]
    · exact absurd begun sorted.not_mem_next.1
    · obtain ⟨ak', swept', step⟩ := distribute_kernel completed swept sorted member event true lastTime blame
      have times := sorted.time_le
      rw [append_cons] at sorted
      have others : syncEndNode syncEnd ≠ data := by
        intro same
        have zero : data.id = syncId := congrArg Node.id same.symm
        rcases event with rfl | rfl <;> exact completed.nonzero p member zero
      have ordered : ∀ node ∈ done ++ [data], node.time ≤ data.time := by
        intro node inside
        rcases mem_append.mp inside with early | last
        · exact times.1 node early
        · rw [mem_singleton.mp last]
      obtain ⟨blame', result, shares⟩ := ih swept' sorted (mem_append_left _ begun) ordered times.2
        ((mem_cons.mp ending).resolve_left others)
      refine ⟨blame', step.trans result, fun q listed => ?_⟩
      have below : data.time ≤ syncEnd := times.2 _ ((mem_cons.mp ending).resolve_left others)
      rw [shares q listed, if_pos rfl, stretch listed, share_split q least below]
      ring

lemma distribute_beforeSync (swept : Swept kernels kernelList done next ak)
    (sorted : Events kernels kernelList syncStart syncEnd (done ++ next)) (beginning : syncStartNode syncStart ∈ next) :
    ∃ blame', distributeBlameToKernels next false 0 ak blame = some ({ root := .nil, size := 0 }, blame') ∧
      ∀ p ∈ kernelList, blame' p = blame p + 3 * share kernels kernelList p syncStart syncEnd * nsecToSec := by
  induction next generalizing done ak with
  | nil => cases beginning
  | cons data next ih =>
    rcases (sorted.mem data).mp (mem_append_right _ (mem_cons_self ..)) with rfl | rfl | ⟨p, member, event⟩
    · have started := sorted.start_mem_done ((sorted.mem _).mpr (.inr (.inl rfl))) rfl rfl rfl completed.interval
      have fresh := sorted.nodup
      rw [nodup_append] at fresh
      exact absurd rfl (fresh.2.2 _ started _ beginning)
    · have times := sorted.time_le
      have ordered : ∀ node ∈ done ++ [syncStartNode syncStart], node.time ≤ syncStart := by
        intro node inside
        rcases mem_append.mp inside with early | last
        · exact times.1 node early
        · rw [mem_singleton.mp last, syncStartNode]
      have ending : syncEndNode syncEnd ∈ next := by
        have listed := (sorted.mem (syncEndNode syncEnd)).mpr (.inl rfl)
        rcases mem_append.mp listed with early | late
        · obtain ⟨front, back, rfl⟩ := append_of_mem early
          rw [append_assoc, cons_append] at sorted
          have started := sorted.start_mem_done ((sorted.mem (syncStartNode syncStart)).mpr (.inr (.inl rfl))) rfl rfl rfl
            completed.interval
          rw [← cons_append, ← append_assoc] at sorted
          exact absurd (mem_append_left _ started) sorted.not_mem_next.1
        · refine (mem_cons.mp late).resolve_left fun same => ?_
          exact Bool.false_ne_true (congrArg Node.isStart same)
      rw [distribute_syncStart]
      have swept' := swept.sync completed rfl
      rw [append_cons] at sorted
      exact distribute_inSync completed swept' sorted (mem_append_right _ (mem_singleton_self _)) ordered
        times.2 ending
    · obtain ⟨ak', swept', step⟩ := distribute_kernel completed swept sorted member event false 0 blame
      rw [append_cons] at sorted
      have others : syncStartNode syncStart ≠ data := by
        intro same
        have zero : data.id = syncId := congrArg Node.id same.symm
        rcases event with rfl | rfl <;> exact completed.nonzero p member zero
      obtain ⟨blame', result, shares⟩ := ih swept' sorted ((mem_cons.mp beginning).resolve_left others)
      exact ⟨blame', step.trans result, shares⟩

lemma calculateBlame_spec (cpuIdleBlame : P → ℚ) : ∃ blame,
    calculateBlameForActiveKernels kernels kernelList syncStart syncEnd { root := .nil, size := 0 } cpuIdleBlame =
      some ({ root := .nil, size := 0 }, blame) ∧
    ∀ p ∈ kernelList, blame p = cpuIdleBlame p + 3 * share kernels kernelList p syncStart syncEnd * nsecToSec := by
  have sorted := events_quickSort completed
  have empty : Swept kernels kernelList [] (quickSort (syncEndNode syncEnd :: syncStartNode syncStart ::
      transformKernelNodesToSortableNodes kernels kernelList)) ({ root := .nil, size := 0 } : ActiveKernels P) := by
    refine ⟨⟨.nil, rfl⟩, fun entry => iff_of_false not_mem_nil ?_⟩
    rintro ⟨p, -, -, started, -⟩
    cases started
  exact distribute_beforeSync completed empty sorted ((sorted.mem _).mpr (.inr (.inl rfl)))

lemma share_eq_zero_of_sharedFairly {cpuIdleBlame : P → ℚ}
    (fair : SharedFairly kernels kernelList syncStart syncEnd { root := .nil, size := 0 } cpuIdleBlame)
    (member : p ∈ kernelList) : share kernels kernelList p syncStart syncEnd = 0 := by
  obtain ⟨ak, blame, result, shares, -⟩ := fair
  obtain ⟨blame', result', tripled⟩ := calculateBlame_spec completed cpuIdleBlame
  cases result.symm.trans result'
  have nonzero : nsecToSec ≠ 0 := by norm_num [nsecToSec]
  have difference := shares p member
  rw [tripled p member, add_sub_cancel_left] at difference
  have same := mul_right_cancel₀ nonzero difference
  linarith

end Sweep

variable {kernels : P → KernelNode} {kernelList : List P} {syncStart syncEnd : ℕ}

/-- The idle time is shared fairly exactly when no kernel is active in the synchronisation. -/
theorem sharedFairly_iff (completed : Completed kernels kernelList syncStart syncEnd) (cpuIdleBlame : P → ℚ) :
    SharedFairly kernels kernelList syncStart syncEnd { root := .nil, size := 0 } cpuIdleBlame ↔
      ∀ p ∈ kernelList, min (kernels p).kernelEndTime syncEnd ≤ max (kernels p).kernelStartTime syncStart := by
  constructor
  · intro fair p member
    exact (share_eq_zero_iff member syncStart syncEnd).mp (share_eq_zero_of_sharedFairly completed fair member)
  · intro apart
    have nothing (p : P) (member : p ∈ kernelList) : share kernels kernelList p syncStart syncEnd = 0 :=
      (share_eq_zero_iff member syncStart syncEnd).mpr (apart p member)
    obtain ⟨blame, result, shares⟩ := calculateBlame_spec completed cpuIdleBlame
    have unchanged (p : P) (member : p ∈ kernelList) : blame p - cpuIdleBlame p = 0 := by
      rw [shares p member, nothing p member]
      ring
    refine ⟨_, blame, result, fun p member => ?_, ?_, rfl⟩
    · rw [unchanged p member, nothing p member, zero_mul]
    · rw [map_congr_left unchanged, ← sum_share, map_congr_left nothing]
      simp

/-- A kernel that ended before the synchronisation. -/
theorem early_kernel_fair :
    SharedFairly (fun _ => ⟨1, 5, 7⟩) [()] 10 12 { root := .nil, size := 0 } fun _ => 0 :=
  (sharedFairly_iff ⟨by decide, by decide, by decide, by decide⟩ _).mpr (by decide)

/-- A kernel that is active in the whole synchronisation gets three times its length. -/
theorem active_kernel_unfair : Completed (fun _ => ⟨1, 0, 2⟩) [()] 0 2 ∧
    ¬ SharedFairly (fun _ => ⟨1, 0, 2⟩) [()] 0 2 { root := .nil, size := 0 } fun _ => 0 := by
  have completed : Completed (fun _ => ⟨1, 0, 2⟩) [()] 0 2 := ⟨by decide, by decide, by decide, by decide⟩
  refine ⟨completed, fun fair => ?_⟩
  have zero := share_eq_zero_of_sharedFairly completed fair (mem_singleton_self ())
  exact absurd ((share_eq_zero_iff (mem_singleton_self ()) 0 2).mp zero) (by decide)

end HpcToolkit.Gpu.IdleBlame
