import HpcToolkit.Gpu.IdleBlame
import HpcToolkit.Lib.LinkedTree

/-! # Completed kernels

The node of a kernel is in a map from its begin to the synchronisation that records its blame, in the list of the completed
kernels from its end on, and in a list of free nodes afterwards. The two lists are linked by one field of the node.
-/

open Function
open List hiding Chain

namespace HpcToolkit.Gpu.KernelCompletion

open Lib Collections SplayUint64 IdleBlame

structure KernelMapEntry where
  kernelId : ℕ
  node : ℕ

/-- What `record_blame_shift_metrics` is given for a kernel. -/
structure Record where
  kernelId : ℕ
  launcherCct : ℕ
  cpuIdleCauseTime : ℚ

/-- The kernel nodes by their addresses, the lists and the map; `recorded` has all metrics that were recorded. -/
structure State where
  kernels : ℕ → KernelNode
  launcherCct : ℕ → ℕ
  cpuIdleBlame : ℕ → ℚ
  next : ℕ → Option ℕ
  allocated : ℕ
  kernelNodeFreeList : Option ℕ
  kernelMapRoot : STree KernelMapEntry
  completedKernelListHead : Option ℕ
  gUnfinishedKernels : BitVec 32
  activeKernels : ActiveKernels ℕ
  recorded : List Record

def State.initial : State where
  kernels _ := ⟨0, 0, 0⟩
  launcherCct _ := 0
  cpuIdleBlame _ := 0
  next _ := none
  allocated := 0
  kernelNodeFreeList := none
  kernelMapRoot := .nil
  completedKernelListHead := none
  gUnfinishedKernels := 0
  activeKernels := { root := .nil, size := 0 }
  recorded := []

/-- The node that `kernel_node_alloc_helper` takes, from the free list or from new memory. -/
def nodeTaken (s : State) : ℕ := s.kernelNodeFreeList.getD s.allocated

/-- `kernel_node_alloc_helper`, which clears the node -/
def kernelNodeAllocHelper (s : State) : State :=
  let first := nodeTaken s
  { s with
    kernelNodeFreeList := s.kernelNodeFreeList.bind s.next
    allocated := if s.kernelNodeFreeList.isSome then s.allocated else s.allocated + 1
    kernels := update s.kernels first ⟨0, 0, 0⟩
    launcherCct := update s.launcherCct first 0
    cpuIdleBlame := update s.cpuIdleBlame first 0
    next := update s.next first none }

def kernelNodeFreeHelper (s : State) (node : ℕ) : State :=
  { s with next := update s.next node s.kernelNodeFreeList, kernelNodeFreeList := some node }

/-- `kernel_map_insert`, which terminates the program when there is an entry already -/
def kernelMapInsert (s : State) (kernelId node : ℕ) : Option State :=
  let (found, root) := splayUint64Lookup KernelMapEntry.kernelId s.kernelMapRoot kernelId
  if found.isSome then none
  else some { s with kernelMapRoot := (splayUint64Insert KernelMapEntry.kernelId root ⟨kernelId, node⟩).2 }

def kernelMapDelete (s : State) (kernelId : ℕ) : State :=
  { s with kernelMapRoot := (splayUint64Delete KernelMapEntry.kernelId s.kernelMapRoot kernelId).2 }

def createAndInsertKernelEntry (s : State) (kernelexecId launcherCct : ℕ) : Option State :=
  let node := nodeTaken s
  let s := kernelNodeAllocHelper s
  kernelMapInsert
    { s with
      kernels := update s.kernels node { s.kernels node with kernelId := kernelexecId }
      launcherCct := update s.launcherCct node launcherCct
      next := update s.next node none } kernelexecId node

def addKernelToCompletedList (s : State) (node : ℕ) : State :=
  { s with next := update s.next node s.completedKernelListHead, completedKernelListHead := some node }

def kernelPrologue (s : State) (kernelexecId cctNode : ℕ) : Option State :=
  (createAndInsertKernelEntry s kernelexecId cctNode).map fun s =>
    { s with gUnfinishedKernels := s.gUnfinishedKernels + 1 }

def kernelEpilogue (s : State) (kernelexecId kernelStart kernelEnd : ℕ) : State :=
  let (entry, root) := splayUint64Lookup KernelMapEntry.kernelId s.kernelMapRoot kernelexecId
  let s := { s with kernelMapRoot := root }
  match entry with
  | none => s
  | some entry =>
    let s := { s with
      kernels := update s.kernels entry.node
        { s.kernels entry.node with kernelStartTime := kernelStart, kernelEndTime := kernelEnd }
      next := update s.next entry.node none }
    let s := addKernelToCompletedList s entry.node
    { s with gUnfinishedKernels := s.gUnfinishedKernels - 1 }

/-- The nodes from a pointer on; a list without an end has none. -/
def nodesFrom (next : ℕ → Option ℕ) : ℕ → Option ℕ → Option (List ℕ)
  | _, none => some []
  | 0, some _ => none
  | fuel + 1, some curr => (nodesFrom next fuel (next curr)).map (curr :: ·)

/-- The loop that records the blame of the completed kernels and frees their nodes, with the identifiers. -/
def recordCompleted : ℕ → State → Option ℕ → Option (State × List ℕ)
  | _, s, none => some (s, [])
  | 0, _, some _ => none
  | fuel + 1, s, some curr =>
    let record := ⟨(s.kernels curr).kernelId, s.launcherCct curr, s.cpuIdleBlame curr⟩
    let next := s.next curr
    let s := kernelMapDelete { s with recorded := record :: s.recorded } (s.kernels curr).kernelId
    (recordCompleted fuel (kernelNodeFreeHelper s curr) next).map fun (s', ids) => (s', (s.kernels curr).kernelId :: ids)

/-- `attributing_cpu_idle_cause_metric_at_sync_epilogue`, with the processed identifiers -/
def syncEpilogue (s : State) (syncStart syncEnd : ℕ) : Option (State × List ℕ) :=
  match s.completedKernelListHead with
  | none => some (s, [])
  | some head =>
    let s := { s with completedKernelListHead := none }
    (nodesFrom s.next s.allocated (some head)).bind fun nodes =>
      (calculateBlameForActiveKernels s.kernels nodes syncStart syncEnd s.activeKernels s.cpuIdleBlame).bind
        fun (activeKernels, cpuIdleBlame) =>
          recordCompleted s.allocated { s with activeKernels, cpuIdleBlame } (some head)

inductive Call where
  | kernelPrologue (kernelexecId cctNode : ℕ)
  | kernelEpilogue (kernelexecId kernelStart kernelEnd : ℕ)
  | syncEpilogue (syncStart syncEnd : ℕ)

/-! ## What the calls are to have counted -/

/-- The kernels that were begun, and those of them that are not completed. -/
structure History where
  begun : List ℕ
  unfinished : List ℕ

def History.after (h : History) : Call → History
  | .kernelPrologue kernelexecId _ => ⟨kernelexecId :: h.begun, kernelexecId :: h.unfinished⟩
  | .kernelEpilogue kernelexecId _ _ => { h with unfinished := h.unfinished.erase kernelexecId }
  | .syncEpilogue _ _ => h

/-- A call that returns leads to the next state. -/
def step (s : State × History) (call : Call) : Option (State × History) :=
  (match call with
    | .kernelPrologue kernelexecId cctNode => kernelPrologue s.1 kernelexecId cctNode
    | .kernelEpilogue kernelexecId kernelStart kernelEnd => some (kernelEpilogue s.1 kernelexecId kernelStart kernelEnd)
    | .syncEpilogue syncStart syncEnd => (syncEpilogue s.1 syncStart syncEnd).map Prod.fst).map
  fun s' => (s', s.2.after call)

/-- The completed kernels are a list without duplicates, the unfinished ones are counted, none is recorded more often than
it was begun, and no free node is in the list or in the map. -/
def CountedOnce (s : State × History) : Prop :=
  ∃ completed free, nodesFrom s.1.next s.1.allocated s.1.completedKernelListHead = some completed ∧ completed.Nodup ∧
    s.1.gUnfinishedKernels.toNat = s.2.unfinished.length ∧
    (∀ id, s.1.recorded.countP (·.kernelId = id) ≤ s.2.begun.count id) ∧
    nodesFrom s.1.next s.1.allocated s.1.kernelNodeFreeList = some free ∧
    ∀ node ∈ free, node ∉ completed ∧ ∀ entry ∈ s.1.kernelMapRoot.toList, entry.node ≠ node

/-- A kernel that is completed has no further epilogue before it is recorded, and the counter of the unfinished kernels is
not full when one is begun. -/
def Single (s : State × History) : Call → Prop
  | .kernelPrologue kernelexecId _ =>
    (∀ entry ∈ s.1.kernelMapRoot.toList, entry.kernelId ≠ kernelexecId) → s.2.unfinished.length + 1 < 2 ^ 32
  | .kernelEpilogue kernelexecId _ _ =>
    (∃ entry ∈ s.1.kernelMapRoot.toList, entry.kernelId = kernelexecId) → kernelexecId ∈ s.2.unfinished
  | .syncEpilogue _ _ => True

/-! ## What a call keeps -/

/-- The nodes from `first` on are completed and still in the map. -/
structure Inv (s : State) (h : History) (first : Option ℕ) (completed free : List ℕ) : Prop where
  completedChain : Chain s.next completed first none
  freeChain : Chain s.next free s.kernelNodeFreeList none
  ordered : s.kernelMapRoot.Ordered KernelMapEntry.kernelId
  mapped : ∀ entry ∈ s.kernelMapRoot.toList,
    (s.kernels entry.node).kernelId = entry.kernelId ∧ entry.node < s.allocated ∧ entry.node ∉ free
  listed : ∀ node ∈ completed, ⟨(s.kernels node).kernelId, node⟩ ∈ s.kernelMapRoot.toList
  freed : ∀ node ∈ free, node < s.allocated
  unfinished : ∀ id, id ∈ h.unfinished ↔ ∃ node, ⟨id, node⟩ ∈ s.kernelMapRoot.toList ∧ node ∉ completed
  distinct : h.unfinished.Nodup
  counter : s.gUnfinishedKernels.toNat = h.unfinished.length
  once : ∀ id, s.recorded.countP (·.kernelId = id) + s.kernelMapRoot.toList.countP (·.kernelId = id) ≤ h.begun.count id

variable {s s' : State} {h : History} {first : Option ℕ} {completed free : List ℕ}

variable {node : ℕ}

lemma Inv.notFree (inv : Inv s h first completed free) (member : node ∈ completed) :
    node < s.allocated ∧ node ∉ free := (inv.mapped _ (inv.listed node member)).2

variable {fuel : ℕ} {nodes : List ℕ} {p : Option ℕ} {next : ℕ → Option ℕ}

lemma nodesFrom_of_chain (chain : Chain next nodes p none)
    (enough : nodes.length ≤ fuel) : nodesFrom next fuel p = some nodes := by
  induction nodes generalizing p fuel with
  | nil =>
    obtain rfl : p = none := chain
    cases fuel <;> rfl
  | cons node nodes ih =>
    obtain ⟨rfl, rest⟩ := chain
    cases fuel with
    | zero => exact absurd enough (Nat.not_succ_le_zero _)
    | succ fuel => rw [nodesFrom, ih rest (Nat.le_of_succ_le_succ enough), Option.map_some]

lemma chain_of_nodesFrom (walked : nodesFrom next fuel p = some nodes) : Chain next nodes p none := by
  induction fuel generalizing p nodes with
  | zero =>
    cases p with
    | none => exact Option.some.inj walked ▸ rfl
    | some node => cases walked
  | succ fuel ih =>
    cases p with
    | none => exact Option.some.inj walked ▸ rfl
    | some node =>
      obtain ⟨rest, later, rfl⟩ := Option.map_eq_some_iff.mp walked
      exact ⟨rfl, ih later⟩

lemma length_le_of_chain {allocated : ℕ}
    (chain : Chain next nodes p none) (bounded : ∀ node ∈ nodes, node < allocated) : nodes.length ≤ allocated := by
  have subperm := chain.nodup.subperm fun node member => mem_range.mpr (bounded node member)
  exact subperm.length_le.trans_eq length_range

lemma Inv.countedOnce (inv : Inv s h s.completedKernelListHead completed free) : CountedOnce (s, h) := by
  have completedBound := length_le_of_chain inv.completedChain fun node member => (inv.notFree member).1
  have freeBound := length_le_of_chain inv.freeChain inv.freed
  refine ⟨completed, free, nodesFrom_of_chain inv.completedChain completedBound, inv.completedChain.nodup, inv.counter,
    fun id => ?_, nodesFrom_of_chain inv.freeChain freeBound,
    fun node member => ⟨fun listed => (inv.notFree listed).2 member, fun entry inside same => ?_⟩⟩
  · exact (Nat.le_add_right ..).trans (inv.once id)
  · exact (inv.mapped entry inside).2.2 (same ▸ member)

lemma Inv.initial : Inv .initial ⟨[], []⟩ none [] [] where
  completedChain := rfl
  freeChain := rfl
  ordered := .nil
  mapped _ member := absurd member not_mem_nil
  listed _ member := absurd member not_mem_nil
  freed _ member := absurd member not_mem_nil
  unfinished _ := iff_of_false not_mem_nil fun ⟨_, member, _⟩ => absurd member not_mem_nil
  distinct := .nil
  counter := rfl
  once _ := le_rfl

lemma Inv.entry_unique (inv : Inv s h first completed free) {a b : KernelMapEntry} (memberA : a ∈ s.kernelMapRoot.toList)
    (memberB : b ∈ s.kernelMapRoot.toList) (same : a.kernelId = b.kernelId) : a = b :=
  inv.ordered.key_injOn _ memberA memberB same

lemma chain_update {p q target : Option ℕ}
    (chain : Chain next nodes p q) (apart : node ∉ nodes) : Chain (update next node target) nodes p q :=
  chain.congr fun _ member => update_of_ne (fun same => apart (Eq.subst same member)) _ _

/-! ### The begin of a kernel -/

lemma Inv.nodeTaken_spec (inv : Inv s h first completed free) : ∃ rest,
    Chain s.next rest (kernelNodeAllocHelper s).kernelNodeFreeList none ∧ nodeTaken s ∉ rest ∧ (∀ node ∈ rest, node ∈ free) ∧
    (∀ entry ∈ s.kernelMapRoot.toList, entry.node ≠ nodeTaken s) ∧ nodeTaken s < (kernelNodeAllocHelper s).allocated ∧
    s.allocated ≤ (kernelNodeAllocHelper s).allocated := by
  have chain := inv.freeChain
  cases free with
  | nil =>
    have noHead : s.kernelNodeFreeList = none := chain
    have taken : nodeTaken s = s.allocated := by rw [nodeTaken, noHead, Option.getD_none]
    have grown : (kernelNodeAllocHelper s).allocated = s.allocated + 1 := by
      change (if s.kernelNodeFreeList.isSome then s.allocated else s.allocated + 1) = s.allocated + 1
      rw [noHead, Option.isSome_none, if_neg Bool.false_ne_true]
    refine ⟨[], ?_, not_mem_nil, fun node member => absurd member not_mem_nil, fun entry member => ?_, ?_, ?_⟩
    · change s.kernelNodeFreeList.bind s.next = none
      rw [noHead, Option.bind_none]
    · rw [taken]
      exact (inv.mapped entry member).2.1.ne
    · rw [taken, grown]
      exact Nat.lt_succ_self _
    · rw [grown]
      exact Nat.le_succ _
  | cons node rest =>
    have head : s.kernelNodeFreeList = some node := chain.1
    have fresh := (nodup_cons.mp inv.freeChain.nodup).1
    have taken : nodeTaken s = node := by rw [nodeTaken, head, Option.getD_some]
    have kept : (kernelNodeAllocHelper s).allocated = s.allocated := by
      change (if s.kernelNodeFreeList.isSome then s.allocated else s.allocated + 1) = s.allocated
      rw [head, Option.isSome_some, if_pos rfl]
    refine ⟨rest, ?_, taken ▸ fresh, fun _ => mem_cons_of_mem _, fun entry member same => ?_, ?_, kept.ge⟩
    · change Chain s.next rest (s.kernelNodeFreeList.bind s.next) none
      rw [head, Option.bind_some]
      exact chain.2
    · exact (inv.mapped entry member).2.2 (same.trans taken ▸ mem_cons_self ..)
    · rw [kept, taken]
      exact inv.freed node (mem_cons_self ..)

lemma Inv.prologue (inv : Inv s h s.completedKernelListHead completed free) {kernelexecId cctNode : ℕ}
    (room : (∀ entry ∈ s.kernelMapRoot.toList, entry.kernelId ≠ kernelexecId) → h.unfinished.length + 1 < 2 ^ 32)
    (began : kernelPrologue s kernelexecId cctNode = some s') :
    ∃ free, Inv s' (h.after (.kernelPrologue kernelexecId cctNode)) s'.completedKernelListHead completed free := by
  obtain ⟨rest, restChain, apartRest, restFree, apartMap, bound, grown⟩ := inv.nodeTaken_spec
  obtain ⟨inserted, creates, rfl⟩ := Option.map_eq_some_iff.mp began
  unfold createAndInsertKernelEntry kernelMapInsert at creates
  dsimp only at creates
  have sameMap : (kernelNodeAllocHelper s).kernelMapRoot = s.kernelMapRoot := rfl
  split at creates
  · cases creates
  · rename_i notFound
    rw [sameMap] at notFound creates
    have absent : ∀ entry ∈ s.kernelMapRoot.toList, entry.kernelId ≠ kernelexecId := by
      rw [lookup_eq inv.ordered, Bool.not_eq_true, Option.isSome_eq_false_iff, Option.isNone_iff_eq_none] at notFound
      exact (STree.find?_eq_none _).mp notFound
    obtain ⟨ordered, perm⟩ := insert_lookup inv.ordered ⟨kernelexecId, nodeTaken s⟩ absent
    cases creates
    have apartCompleted : nodeTaken s ∉ completed := fun member => apartMap _ (inv.listed _ member) rfl
    have kernelOf (node : ℕ) (apart : node ≠ nodeTaken s) : update (update s.kernels (nodeTaken s) ⟨0, 0, 0⟩)
        (nodeTaken s) { (update s.kernels (nodeTaken s) ⟨0, 0, 0⟩) (nodeTaken s) with kernelId := kernelexecId } node =
        s.kernels node := by
      rw [update_of_ne apart, update_of_ne apart]
    refine ⟨rest, ?_⟩
    constructor
    · exact chain_update (chain_update inv.completedChain apartCompleted) apartCompleted
    · exact chain_update (chain_update restChain apartRest) apartRest
    · exact ordered
    · intro entry member
      dsimp only at member ⊢
      rcases mem_cons.mp (perm.mem_iff.mp member) with rfl | old
      · refine ⟨?_, bound, apartRest⟩
        dsimp only
        rw [update_self]
      · obtain ⟨named, below, notFree⟩ := inv.mapped entry old
        refine ⟨?_, below.trans_le grown, fun inside => notFree (restFree _ inside)⟩
        exact (congrArg KernelNode.kernelId (kernelOf _ (apartMap entry old))).trans named
    · intro node member
      dsimp only
      have apart : node ≠ nodeTaken s := fun same => apartCompleted (same ▸ member)
      refine perm.mem_iff.mpr (mem_cons_of_mem _ ?_)
      have listed := inv.listed node member
      rwa [← kernelOf node apart] at listed
    · exact fun node member => (inv.freed node (restFree node member)).trans_le grown
    · intro id
      rw [History.after, mem_cons, inv.unfinished]
      dsimp only
      constructor
      · rintro (rfl | ⟨node, member, apart⟩)
        · exact ⟨nodeTaken s, perm.mem_iff.mpr (mem_cons_self ..), apartCompleted⟩
        · exact ⟨node, perm.mem_iff.mpr (mem_cons_of_mem _ member), apart⟩
      · rintro ⟨node, member, apart⟩
        rcases mem_cons.mp (perm.mem_iff.mp member) with same | old
        · exact .inl (congrArg KernelMapEntry.kernelId same)
        · exact .inr ⟨node, old, apart⟩
    · refine nodup_cons.mpr ⟨fun again => ?_, inv.distinct⟩
      obtain ⟨node, member, -⟩ := (inv.unfinished kernelexecId).mp again
      exact absent _ member rfl
    · have fits := room absent
      have count := inv.counter
      change (s.gUnfinishedKernels + 1).toNat = h.unfinished.length + 1
      have one : (1 : BitVec 32).toNat = 1 := rfl
      rw [BitVec.toNat_add, count, one, Nat.mod_eq_of_lt fits]
    · intro id
      dsimp only
      rw [perm.countP_eq, countP_cons, History.after, count_cons]
      have once := inv.once id
      simp only [decide_eq_true_eq, beq_iff_eq]
      change s.recorded.countP _ + (_ + if kernelexecId = id then 1 else 0) ≤ _ + if kernelexecId = id then 1 else 0
      omega

/-! ### The end of a kernel -/

variable {kernelexecId : ℕ}

lemma kernelEpilogue_none (ordered : s.kernelMapRoot.Ordered KernelMapEntry.kernelId)
    (absent : ∀ entry ∈ s.kernelMapRoot.toList, entry.kernelId ≠ kernelexecId) (kernelStart kernelEnd : ℕ) :
    kernelEpilogue s kernelexecId kernelStart kernelEnd =
      { s with kernelMapRoot := STree.splay KernelMapEntry.kernelId kernelexecId s.kernelMapRoot } := by
  have notFound : s.kernelMapRoot.contents KernelMapEntry.kernelId kernelexecId = none :=
    (STree.find?_eq_none _).mpr absent
  rw [kernelEpilogue, lookup_eq ordered, notFound]

lemma kernelEpilogue_some (ordered : s.kernelMapRoot.Ordered KernelMapEntry.kernelId) {kernelexecId node : ℕ}
    (present : ⟨kernelexecId, node⟩ ∈ s.kernelMapRoot.toList) (kernelStart kernelEnd : ℕ) :
    kernelEpilogue s kernelexecId kernelStart kernelEnd =
      { s with
        kernelMapRoot := STree.splay KernelMapEntry.kernelId kernelexecId s.kernelMapRoot
        kernels := update s.kernels node ⟨(s.kernels node).kernelId, kernelStart, kernelEnd⟩
        next := update (update s.next node none) node s.completedKernelListHead
        completedKernelListHead := some node
        gUnfinishedKernels := s.gUnfinishedKernels - 1 } := by
  have found : s.kernelMapRoot.contents KernelMapEntry.kernelId kernelexecId = some ⟨kernelexecId, node⟩ :=
    (ordered.find?_eq_some _).mpr ⟨present, rfl⟩
  rw [kernelEpilogue, lookup_eq ordered, found]
  rfl

lemma Inv.splay (inv : Inv s h first completed free) (kernelexecId : ℕ) :
    Inv { s with kernelMapRoot := STree.splay KernelMapEntry.kernelId kernelexecId s.kernelMapRoot } h first completed free := by
  have same := STree.toList_splay KernelMapEntry.kernelId kernelexecId s.kernelMapRoot
  refine ⟨inv.completedChain, inv.freeChain, inv.ordered.splay _ _, ?_, ?_, inv.freed, ?_, inv.distinct, inv.counter, ?_⟩
  all_goals
    dsimp only
    rw [same]
  · exact inv.mapped
  · exact inv.listed
  · exact inv.unfinished
  · exact inv.once

lemma Inv.epilogue (inv : Inv s h s.completedKernelListHead completed free)
    (single : (∃ entry ∈ s.kernelMapRoot.toList, entry.kernelId = kernelexecId) → kernelexecId ∈ h.unfinished)
    (kernelStart kernelEnd : ℕ) : ∃ completed free, Inv (kernelEpilogue s kernelexecId kernelStart kernelEnd)
      (h.after (.kernelEpilogue kernelexecId kernelStart kernelEnd))
      (kernelEpilogue s kernelexecId kernelStart kernelEnd).completedKernelListHead completed free := by
  rcases Classical.em (∃ entry ∈ s.kernelMapRoot.toList, entry.kernelId = kernelexecId) with present | absent
  · obtain ⟨node, member, notCompleted⟩ := (inv.unfinished kernelexecId).mp (single present)
    have named : (s.kernels node).kernelId = kernelexecId := (inv.mapped _ member).1
    have notFree : node ∉ free := (inv.mapped _ member).2.2
    have kernelId (other : ℕ) : (update s.kernels node ⟨(s.kernels node).kernelId, kernelStart, kernelEnd⟩
        other).kernelId = (s.kernels other).kernelId := by
      rcases eq_or_ne other node with rfl | apart
      · rw [update_self]
      · rw [update_of_ne apart]
    have same := STree.toList_splay KernelMapEntry.kernelId kernelexecId s.kernelMapRoot
    rw [kernelEpilogue_some inv.ordered member]
    refine ⟨node :: completed, free, ?_⟩
    constructor
    · refine ⟨rfl, ?_⟩
      dsimp only
      rw [update_self]
      exact chain_update (chain_update inv.completedChain notCompleted) notCompleted
    · exact chain_update (chain_update inv.freeChain notFree) notFree
    · exact inv.ordered.splay _ _
    · dsimp only
      rw [same]
      intro entry inside
      rw [kernelId]
      exact inv.mapped entry inside
    · dsimp only
      rw [same]
      intro other inside
      rw [kernelId]
      rcases mem_cons.mp inside with rfl | later
      · rwa [named]
      · exact inv.listed other later
    · exact inv.freed
    · dsimp only
      rw [same, History.after]
      intro id
      rw [inv.distinct.mem_erase_iff, inv.unfinished]
      constructor
      · rintro ⟨apart, other, inside, outside⟩
        refine ⟨other, inside, fun again => ?_⟩
        rcases mem_cons.mp again with rfl | later
        · exact apart (((inv.mapped _ inside).1).symm.trans named)
        · exact outside later
      · rintro ⟨other, inside, outside⟩
        refine ⟨fun equal => ?_, other, inside, fun later => outside (mem_cons_of_mem _ later)⟩
        have unique := congrArg KernelMapEntry.node (inv.entry_unique inside member equal)
        exact outside (mem_cons.mpr (.inl unique))
    · exact inv.distinct.erase _
    · have count := inv.counter
      have started : kernelexecId ∈ h.unfinished := single present
      have positive : 0 < h.unfinished.length := length_pos_of_mem started
      have one : (1 : BitVec 32).toNat = 1 := rfl
      change (s.gUnfinishedKernels - 1).toNat = (h.unfinished.erase kernelexecId).length
      rw [length_erase_of_mem started, BitVec.toNat_sub, count, one]
      omega
    · dsimp only
      rw [same]
      exact inv.once
  · have others : ∀ entry ∈ s.kernelMapRoot.toList, entry.kernelId ≠ kernelexecId :=
      fun entry member same => absent ⟨entry, member, same⟩
    have started : kernelexecId ∉ h.unfinished := by
      intro started
      obtain ⟨node, member, -⟩ := (inv.unfinished kernelexecId).mp started
      exact others _ member rfl
    rw [kernelEpilogue_none inv.ordered others, History.after, erase_of_not_mem started]
    exact ⟨completed, free, inv.splay kernelexecId⟩

/-! ### The synchronisation -/

lemma Inv.record (inv : Inv s h first (node :: completed) free) (record : Record)
    (named : record.kernelId = (s.kernels node).kernelId) :
    Inv (kernelNodeFreeHelper (kernelMapDelete { s with recorded := record :: s.recorded } (s.kernels node).kernelId) node)
      h (s.next node) completed (node :: free) := by
  have member := inv.listed node (mem_cons_self ..)
  have notFree := (inv.notFree (mem_cons_self ..)).2
  have fresh := (nodup_cons.mp inv.completedChain.nodup).1
  have left := toList_delete inv.ordered (s.kernels node).kernelId
  have inMap (entry : KernelMapEntry) : entry ∈ (splayUint64Delete KernelMapEntry.kernelId s.kernelMapRoot
      (s.kernels node).kernelId).2.toList ↔ entry ∈ s.kernelMapRoot.toList ∧ entry.kernelId ≠ (s.kernels node).kernelId := by
    rw [left, mem_filter, decide_eq_true_eq]
  have nodeOf {other : ℕ} (inside : ⟨(s.kernels node).kernelId, other⟩ ∈ s.kernelMapRoot.toList) : other = node :=
    congrArg KernelMapEntry.node (inv.entry_unique inside member rfl)
  constructor
  · exact chain_update inv.completedChain.2 fresh
  · refine ⟨rfl, ?_⟩
    dsimp only [kernelNodeFreeHelper, kernelMapDelete]
    rw [update_self]
    exact chain_update inv.freeChain notFree
  · rw [STree.Ordered]
    exact left ▸ inv.ordered.filter _
  · intro entry inside
    obtain ⟨old, apart⟩ := (inMap entry).mp inside
    obtain ⟨same, bound, outside⟩ := inv.mapped entry old
    refine ⟨same, bound, fun again => ?_⟩
    rcases mem_cons.mp again with rfl | freed
    · exact apart same.symm
    · exact outside freed
  · intro other later
    refine (inMap _).mpr ⟨inv.listed other (mem_cons_of_mem _ later), fun same => ?_⟩
    have inside := inv.listed other (mem_cons_of_mem _ later)
    rw [show (s.kernels other).kernelId = (s.kernels node).kernelId from same] at inside
    exact fresh (nodeOf inside ▸ later)
  · intro other inside
    rcases mem_cons.mp inside with rfl | freed
    · exact (inv.notFree (mem_cons_self ..)).1
    · exact inv.freed other freed
  · intro id
    rw [inv.unfinished]
    constructor
    · rintro ⟨other, inside, outside⟩
      refine ⟨other, (inMap _).mpr ⟨inside, fun same => outside ?_⟩, fun later => outside (mem_cons_of_mem _ later)⟩
      dsimp only at same
      subst same
      exact nodeOf inside ▸ mem_cons_self ..
    · rintro ⟨other, inside, outside⟩
      obtain ⟨old, apart⟩ := (inMap _).mp inside
      refine ⟨other, old, fun again => ?_⟩
      rcases mem_cons.mp again with rfl | later
      · exact apart (inv.mapped _ old).1.symm
      · exact outside later
  · exact inv.distinct
  · exact inv.counter
  · intro id
    have once := inv.once id
    change (record :: s.recorded).countP _ + (splayUint64Delete KernelMapEntry.kernelId s.kernelMapRoot
      (s.kernels node).kernelId).2.toList.countP _ ≤ _
    rw [left, countP_cons]
    simp only [decide_eq_true_eq, named]
    split
    · rename_i same
      subst same
      have present : 0 < s.kernelMapRoot.toList.countP (fun entry => entry.kernelId = (s.kernels node).kernelId) :=
        countP_pos_iff.mpr ⟨_, member, decide_eq_true rfl⟩
      have gone : (s.kernelMapRoot.toList.filter fun entry => decide (entry.kernelId ≠ (s.kernels node).kernelId)).countP
          (fun entry => entry.kernelId = (s.kernels node).kernelId) = 0 := by
        refine countP_eq_zero.mpr fun entry inside same => ?_
        exact of_decide_eq_true (mem_filter.mp inside).2 (of_decide_eq_true same)
      rw [gone]
      omega
    · have fewer := (filter_sublist (p := fun entry : KernelMapEntry =>
        decide (entry.kernelId ≠ (s.kernels node).kernelId)) (l := s.kernelMapRoot.toList)).countP_le (p := fun entry => entry.kernelId = id)
      omega

variable {ids : List ℕ}

lemma Inv.recordCompleted (inv : Inv s h first completed free)
    (taken : s.completedKernelListHead = none) (ran : recordCompleted fuel s first = some (s', ids)) :
    ∃ free, Inv s' h s'.completedKernelListHead [] free := by
  induction fuel generalizing s first completed free ids with
  | zero =>
    cases first with
    | some node => cases ran
    | none =>
      cases completed with
      | cons node completed => exact absurd inv.completedChain.1 (by simp)
      | nil =>
        cases ran
        exact ⟨free, taken ▸ inv⟩
  | succ fuel ih =>
    cases first with
    | none =>
      cases completed with
      | cons node completed => exact absurd inv.completedChain.1 (by simp)
      | nil =>
        cases ran
        exact ⟨free, taken ▸ inv⟩
    | some node =>
      cases completed with
      | nil => exact absurd inv.completedChain (by simp [Chain])
      | cons first completed =>
        obtain rfl := Option.some.inj inv.completedChain.1
        obtain ⟨⟨final, rest⟩, later, same⟩ := Option.map_eq_some_iff.mp ran
        cases same
        exact ih (inv.record ⟨(s.kernels node).kernelId, s.launcherCct node, s.cpuIdleBlame node⟩ rfl) taken later

lemma Inv.syncEpilogue (inv : Inv s h s.completedKernelListHead completed free) {syncStart syncEnd : ℕ}
    (ran : syncEpilogue s syncStart syncEnd = some (s', ids)) :
    ∃ completed free, Inv s' h s'.completedKernelListHead completed free := by
  unfold KernelCompletion.syncEpilogue at ran
  split at ran
  · cases ran
    exact ⟨completed, free, inv⟩
  · rename_i head isHead
    obtain ⟨nodes, -, ran⟩ := Option.bind_eq_some_iff.mp ran
    obtain ⟨⟨activeKernels, cpuIdleBlame⟩, -, ran⟩ := Option.bind_eq_some_iff.mp ran
    have chain := inv.completedChain
    rw [isHead] at chain
    have detached : Inv { s with completedKernelListHead := none, activeKernels, cpuIdleBlame } h (some head) completed free :=
      ⟨chain, inv.freeChain, inv.ordered, inv.mapped, inv.listed, inv.freed, inv.unfinished, inv.distinct, inv.counter,
        inv.once⟩
    obtain ⟨free', inv'⟩ := detached.recordCompleted rfl ran
    exact ⟨[], free', inv'⟩

/-! ## Runs -/

lemma step_kept (s s' : State × History) (call : Call)
    (inv : ∃ completed free, Inv s.1 s.2 s.1.completedKernelListHead completed free) (single : Single s call)
    (stepped : step s call = some s') : ∃ completed free, Inv s'.1 s'.2 s'.1.completedKernelListHead completed free := by
  obtain ⟨s, h⟩ := s
  obtain ⟨completed, free, inv⟩ := inv
  obtain ⟨next, called, rfl⟩ := Option.map_eq_some_iff.mp stepped
  cases call with
  | kernelPrologue kernelexecId cctNode =>
    obtain ⟨free', inv'⟩ := inv.prologue single called
    exact ⟨completed, free', inv'⟩
  | kernelEpilogue kernelexecId kernelStart kernelEnd =>
    cases called
    exact inv.epilogue single kernelStart kernelEnd
  | syncEpilogue syncStart syncEnd =>
    obtain ⟨⟨next', ids⟩, ran, rfl⟩ := Option.map_eq_some_iff.mp called
    exact inv.syncEpilogue ran

lemma Inv.second_epilogue (inv : Inv s h s.completedKernelListHead completed free)
    (present : ∃ entry ∈ s.kernelMapRoot.toList, entry.kernelId = kernelexecId) (finished : kernelexecId ∉ h.unfinished)
    (kernelStart kernelEnd : ℕ) (h' : History) : ¬ CountedOnce (kernelEpilogue s kernelexecId kernelStart kernelEnd, h') := by
  obtain ⟨⟨_, node⟩, member, rfl⟩ := present
  have listed : node ∈ completed := by
    by_contra outside
    exact finished ((inv.unfinished _).mpr ⟨node, member, outside⟩)
  obtain ⟨before, after, rfl⟩ := append_of_mem listed
  obtain ⟨m, front, back⟩ := Chain.append.mp inv.completedChain
  obtain ⟨rfl, -⟩ := back
  have fresh : node ∉ before := by
    have distinct := inv.completedChain.nodup
    rw [nodup_append] at distinct
    exact fun again => distinct.2.2 node again node (mem_cons_self ..) rfl
  rw [kernelEpilogue_some inv.ordered member]
  rintro ⟨nodes, -, walked, -⟩
  have cycle : Chain (update (update s.next node none) node s.completedKernelListHead) (node :: before)
      (some node) (some node) := by
    refine ⟨rfl, ?_⟩
    rw [update_self]
    exact chain_update (chain_update front fresh) fresh
  exact Chain.endless_of_cycle cycle (cons_ne_nil _ _) (chain_of_nodesFrom walked)

lemma kernelPrologue_returns (ordered : s.kernelMapRoot.Ordered KernelMapEntry.kernelId)
    (absent : ∀ entry ∈ s.kernelMapRoot.toList, entry.kernelId ≠ kernelexecId) (cctNode : ℕ) :
    ∃ s', kernelPrologue s kernelexecId cctNode = some s' := by
  have sameMap : (kernelNodeAllocHelper s).kernelMapRoot = s.kernelMapRoot := rfl
  unfold kernelPrologue createAndInsertKernelEntry kernelMapInsert
  dsimp only
  rw [sameMap, lookup_absent ordered absent, Option.isSome_none, if_neg Bool.false_ne_true]
  exact ⟨_, rfl⟩

lemma single_of_counted (s : State × History) (call : Call)
    (inv : ∃ completed free, Inv s.1 s.2 s.1.completedKernelListHead completed free)
    (counted : ∀ s' ∈ step s call, CountedOnce s') : Single s call := by
  obtain ⟨s, h⟩ := s
  obtain ⟨completed, free, inv⟩ := inv
  cases call with
  | kernelPrologue kernelexecId cctNode =>
    intro absent
    obtain ⟨s', called⟩ := kernelPrologue_returns inv.ordered absent cctNode
    obtain ⟨-, -, -, -, counter, -⟩ := counted (s', h.after (.kernelPrologue kernelexecId cctNode))
      (by rw [step]; exact Option.map_eq_some_iff.mpr ⟨s', called, rfl⟩)
    exact counter.symm.trans_lt s'.gUnfinishedKernels.isLt
  | kernelEpilogue kernelexecId kernelStart kernelEnd =>
    intro present
    by_contra finished
    exact inv.second_epilogue present finished kernelStart kernelEnd _ (counted _ rfl)
  | syncEpilogue syncStart syncEnd => trivial

/-- The kernels are counted once in every state of exactly the runs in which no completed kernel has a second epilogue before
it is recorded and the counter has room. -/
theorem countedOnce_iff (calls : List Call) :
    EveryReached step CountedOnce (.initial, ⟨[], []⟩) calls ↔ EveryStep step Single (.initial, ⟨[], []⟩) calls := by
  have always : ∀ (s : State × History) (calls : List Call), EveryStep step (fun _ _ => True) s calls := by
    intro s calls
    induction calls generalizing s with
    | nil => trivial
    | cons call calls ih => exact ⟨trivial, fun s' _ => ih s'⟩
  have gives (s : State × History) (inv : ∃ completed free, Inv s.1 s.2 s.1.completedKernelListHead completed free) :
      CountedOnce s := by
    obtain ⟨completed, free, inv⟩ := inv
    exact inv.countedOnce
  refine everyReached_iff_everyStep gives ?_ ?_ ⟨[], [], .initial⟩ (always _ calls)
  · exact fun s call s' inv _ single stepped => step_kept s s' call inv single stepped
  · exact fun s call inv _ counted => single_of_counted s call inv counted

/-- A kernel has two epilogues. -/
theorem second_epilogue_not_counted : ¬ ∀ calls, EveryReached step CountedOnce (.initial, ⟨[], []⟩) calls := by
  intro counted
  have run := counted [.kernelPrologue 5 1, .kernelEpilogue 5 10 20, .kernelEpilogue 5 10 20]
  obtain ⟨-, later⟩ := run
  obtain ⟨-, later⟩ := later _ rfl
  obtain ⟨-, later⟩ := later _ rfl
  obtain ⟨nodes, -, walked, -⟩ := later _ rfl
  have endless : (none : Option (List ℕ)) = some nodes := walked
  cases endless

end HpcToolkit.Gpu.KernelCompletion
