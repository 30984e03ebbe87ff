import HpcToolkit.Collections.CSkipListSearch

/-! # Insertion into the skip list

An item that compares equal to a present one leaves the list as it is. Any other is linked behind the nodes before it in
each layer below the height of its node, and the list has one more entry in its place.
-/

open Option
open List

namespace HpcToolkit.Collections.CSkipList

open Lib

variable {N V K A : Type}

/-! ## Comparators -/

namespace Comparators

variable (c : Comparators V A) {a b v : V}

lemma compare_eq_neg_one (greater : 0 < c.compare a b) : c.compare b a = -1 := by
  have swap := c.swap a b
  rcases c.three b a with less | equal | more <;> omega

lemma graded {l : List (Entry N V)} (sorted : l.Pairwise fun a b => c.compare a.val b.val < 0) (v : V) :
    Graded c.compare v l := by
  refine sorted.imp fun {a b} less => ?_
  by_contra neither
  push Not at neither
  have notAfter : c.compare b.val a.val ≤ 0 := c.trans neither.2 (by rw [c.swap a.val v]; omega)
  rw [c.swap a.val b.val] at notAfter
  omega

end Comparators

/-- The items are in order and before the right sentinel. -/
structure Ordered (c : Comparators V A) (es : List (Entry N V)) : Prop where
  sorted : es.Pairwise fun a b => c.compare a.val b.val < 0
  below : ∀ e ∈ es, c.compare e.val c.rsentinel < 0

namespace Ordered

variable {c : Comparators V A} {es : List (Entry N V)} (ordered : Ordered c es)
include ordered

lemma graded (s : CSkl N V) (v : V) : Graded c.compare v (es ++ [s.sentinel c.rsentinel]) := by
  refine c.graded (pairwise_append.mpr ⟨ordered.sorted, pairwise_singleton _ _, ?_⟩) v
  rintro e member _ (_ | ⟨_, ⟨⟩⟩)
  exact ordered.below e member

end Ordered

/-! ## The new node -/

section
variable [DecidableEq N]

lemma linkLayer_eq {s : CSkl N V} {preds succs : ℕ → Option N} {links : ℕ → N → Option N} {layer : ℕ}
    {newNode pred stop : N} (predHere : preds layer = some pred) (succHere : succs layer = some stop)
    (tallNew : s.Tall layer newNode) (tallPred : s.Tall layer pred) (untouched : ∀ n, links layer n = none) :
    linkLayer newNode preds succs (s.relink links) layer = some (s.relink fun l n =>
      if l = layer then (if n = pred then some newNode else if n = newNode then some stop else none) else links l n) := by
  simp only [linkLayer, predHere, succHere, bind_eq_bind, bind_some, CSkl.setNext_eq tallNew.relink,
    CSkl.setNext_eq tallPred.relink, CSkl.relink_relink]
  refine congrArg (fun links => some (s.relink links)) ?_
  funext l n
  rcases eq_or_ne l layer with rfl | other
  · rcases eq_or_ne n pred with rfl | notPred
    · simp
    · rcases eq_or_ne n newNode with rfl | old <;> simp [*]
  · simp [other]

/-- The links of the new node and those that lead to it. -/
def newLinks (newNode : N) (height : ℕ) (preds stops : ℕ → N) (layer : ℕ) (n : N) : Option N :=
  if layer < height then
    if n = preds layer then some newNode else if n = newNode then some (stops layer) else none
  else none

variable {found : Found N}

lemma linkLayers_eq {s : CSkl N V} {newNode : N} (height : ℕ) {preds stops : ℕ → N}
    (filled : ∀ layer < height, found.preds layer = some (preds layer) ∧ found.succs layer = some (stops layer))
    (tallNew : ∀ layer < height, s.Tall layer newNode) (tallPred : ∀ layer < height, s.Tall layer (preds layer)) :
    (range height).foldlM (linkLayer newNode found.preds found.succs) s =
      some (s.relink (newLinks newNode height preds stops)) := by
  have ran := CSkl.foldlM_relink (s := s) (f := linkLayer newNode found.preds found.succs) (fun _ _ => none)
    (fun layer n => if n = preds layer then some newNode else if n = newNode then some (stops layer) else none)
    (nodup_range (n := height)) ?_ fun _ _ _ => rfl
  · rw [CSkl.relink_none] at ran
    rw [ran]
    simp only [mem_range]
    rfl
  · intro links layer member untouched
    have below := mem_range.mp member
    rw [linkLayer_eq (filled layer below).1 (filled layer below).2 (tallNew layer below) (tallPred layer below) untouched]
    refine congrArg (fun links => some (s.relink links)) ?_
    funext l n
    rcases eq_or_ne l layer with rfl | other
    · rfl
    · simp [other]

variable (c : Comparators V A) {s : CSkl N V} {es : List (Entry N V)} {value : V}

lemma validate_eq (rep : Rep c.rsentinel s es) (ordered : Ordered c es)
    (layers : List ℕ)
    (filled : ∀ layer < s.maxHeight, found.preds layer = some (predAt c.compare value s c.rsentinel es layer) ∧
      found.succs layer = some (stopAt c.compare value s c.rsentinel es layer).node)
    (missed : ∀ layer < s.maxHeight, c.compare (stopAt c.compare value s c.rsentinel es layer).val value ≠ 0)
    (below : ∀ layer ∈ layers, layer < s.maxHeight) :
    validate c.compare s value found.preds found.succs layers = some true := by
  have sentinel := c.compare_rsentinel value
  induction layers with
  | nil => rfl
  | cons layer layers ih =>
    have high := below layer mem_cons_self
    have next := rep.next_pred sentinel high (ordered.graded s value)
    have stop := mem_rest.mp (stopAt_mem s es layer sentinel)
    obtain ⟨predVal, predHeight, predLinked, predNexts, predStored⟩ := rep.stored
      (mem_nodes_of_row (cons_subset_cons _ (map_subset _ (filter_subset_self _)) (endOf_mem _ _)) :
        predAt c.compare value s c.rsentinel es layer ∈ _)
    obtain ⟨stopVal, stopHeight, stopLinked, stopNexts, stopStored⟩ := rep.stored
      (mem_nodes_of_row (mem_cons_of_mem _ (mem_map_of_mem stop.1)) :
        (stopAt c.compare value s c.rsentinel es layer).node ∈ _)
    have sameVal : stopVal = (stopAt c.compare value s c.rsentinel es layer).val := by
      have read := rep.val_row stop.1
      rw [CSkl.val, stopStored] at read
      exact Option.some.inj read
    have less : c.compare value stopVal = -1 :=
      c.compare_eq_neg_one (sameVal ▸ lt_of_le_of_ne stop.2 (missed layer high).symm)
    simp only [validate, (filled layer high).1, (filled layer high).2, predStored, stopStored, bind_eq_bind,
      bind_some, next, less]
    simpa using ih fun l member => below l (mem_cons_of_mem layer member)

/-- The entries after an insertion. -/
def inserted (newNode : N) (height : ℕ) (value : V) (es : List (Entry N V)) : List (Entry N V) :=
  before c.compare value es ++ ⟨newNode, value, height⟩ :: rest c.compare value es

variable {newNode : N} {height fuel : ℕ}

variable {e : Entry N V}

lemma csklInsert_present (rep : Rep c.rsentinel s es) (ordered : Ordered c es) (fresh : s.heap newNode = none)
    (member : e ∈ es) (equal : c.compare e.val value = 0) (enough : es.length < fuel) :
    csklInsert c.compare fuel s newNode height value = some (e.node, s) := by
  have rep₁ : Rep c.rsentinel (s.malloc newNode height value) es := rep.store _ fresh
  have graded := ordered.graded (s.malloc newNode height value) value
  obtain ⟨found, searched, top, filled, -⟩ := rep₁.findHelper_full graded (c.compare_rsentinel value) Found.nothing le_rfl
    (fun layer _ => mem_cons_self) enough
  have bottom : stopAt c.compare value (s.malloc newNode height value) c.rsentinel es 0 = e := by
    refine stopAt_of_match graded ?_ equal
    rw [rep₁.row_zero]
    exact mem_append_left _ member
  cases «match» : found.foundLayer with
  | none =>
    have missed := topMatch_none (top.symm.trans «match») 0 rep₁.positive
    exact absurd (bottom ▸ equal) missed
  | some layer =>
    obtain ⟨below, «matches», -⟩ := topMatch_some (top.symm.trans «match»)
    have here := (stopAt_below graded (c.compare_rsentinel value) (Nat.zero_le layer) «matches»).symm.trans bottom
    have succ := (filled layer below).2
    rw [here] at succ
    obtain ⟨nexts, stored⟩ := rep₁.entries e member
    simp [csklInsert, searched, «match», succ, stored, free_malloc fresh]

omit [DecidableEq N] in
lemma ordered_inserted (ordered : Ordered c es) (belongs : c.compare value c.rsentinel < 0)
    (missed : ∀ e ∈ es, c.compare e.val value ≠ 0) : Ordered c (inserted c newNode height value es) := by
  have sorted := ordered.sorted
  rw [← (c.graded sorted value).before_append_rest] at sorted
  obtain ⟨front, back, across⟩ := pairwise_append.mp sorted
  constructor
  · refine pairwise_append.mpr ⟨front, pairwise_cons.mpr ⟨?_, back⟩, ?_⟩
    · intro e member
      obtain ⟨there, notBefore⟩ := mem_rest.mp member
      have less := c.compare_eq_neg_one (lt_of_le_of_ne notBefore (missed e there).symm)
      simp [less]
    · rintro a member b (_ | ⟨_, later⟩)
      · exact (mem_before.mp member).2
      · exact across a member b later
  · intro e member
    rcases mem_append.mp member with there | there
    · exact ordered.below e (mem_before.mp there).1
    · rcases mem_cons.mp there with rfl | there
      · exact belongs
      · exact ordered.below e (mem_rest.mp there).1

/-- What linking a node changes: its own links, and those of the nodes before it. -/
structure Links (s s' : CSkl N V) (es : List (Entry N V)) (newNode : N) (height : ℕ) (value : V) : Prop where
  left : s'.leftSentinel = s.leftSentinel
  right : s'.rightSentinel = s.rightSentinel
  maxHeight : s'.maxHeight = s.maxHeight
  new : Stored s' newNode value height true
  old {n : N} {val : V} {tall : ℕ} {linked : Bool} : n ≠ newNode → Stored s n val tall linked → Stored s' n val tall linked
  nextNew : ∀ layer < height, s'.next layer newNode = some (stopAt c.compare value s c.rsentinel es layer).node
  nextPred : ∀ layer < height, s'.next layer (predAt c.compare value s c.rsentinel es layer) = some newNode
  nextOld : ∀ layer n, n ≠ newNode → (layer < height → n ≠ predAt c.compare value s c.rsentinel es layer) →
    s'.next layer n = s.next layer n

omit [DecidableEq N] in
lemma predAt_mem (layer : ℕ) : predAt c.compare value s c.rsentinel es layer ∈
    s.leftSentinel :: (s.row c.rsentinel es layer).map Entry.node :=
  cons_subset_cons _ (map_subset _ (filter_subset_self _)) (endOf_mem _ _)

lemma links_fullyLink {nexts : ℕ → Option N} (rep : Rep c.rsentinel s es)
    (stored : s.heap newNode = some ⟨value, height, false, false, nexts⟩)
    (outside : newNode ∉ s.leftSentinel :: (es ++ [s.sentinel c.rsentinel]).map Entry.node) (high : height ≤ s.maxHeight) :
    ∃ s', fullyLink newNode (s.relink (newLinks newNode height (predAt c.compare value s c.rsentinel es)
        fun layer => (stopAt c.compare value s c.rsentinel es layer).node)) = some s' ∧
      Links c s s' es newNode height value := by
  have predApart (layer : ℕ) : predAt c.compare value s c.rsentinel es layer ≠ newNode := fun same =>
    outside (same ▸ mem_nodes_of_row (predAt_mem c layer))
  generalize changedEq : newLinks newNode height (predAt c.compare value s c.rsentinel es)
    (fun layer => (stopAt c.compare value s c.rsentinel es layer).node) = changed
  refine ⟨(s.relink changed).store newNode
    (some ⟨value, height, true, false, fun layer => (changed layer newNode).or (nexts layer)⟩), ?_, ?_⟩
  · simp [fullyLink, CSkl.relink, stored]
  constructor
  case left => rfl
  case right => rfl
  case maxHeight => rfl
  case new => exact ⟨_, Function.update_self ..⟩
  case old =>
    rintro n val tall linked other ⟨links, here⟩
    exact ⟨fun layer => (changed layer n).or (links layer), by rw [store_heap_ne other]; simp [CSkl.relink, here]⟩
  case nextNew =>
    intro layer below
    simp [CSkl.next, CSkl.store, below, ← changedEq, newLinks, (predApart layer).symm]
  case nextPred =>
    intro layer below
    have tall := rep.tall_pred (c.compare_rsentinel value) (below.trans_le high)
    rw [next_store_ne (predApart layer), CSkl.next_relink tall]
    simp [← changedEq, newLinks, below]
  case nextOld =>
    intro layer n other notPred
    rw [next_store_ne other]
    apply CSkl.next_relink_of_none
    by_cases below : layer < height
    · simp [← changedEq, newLinks, below, notPred below, other]
    · simp [← changedEq, newLinks, below]

section
omit [DecidableEq N]

lemma mem_inserted :
    e ∈ inserted c newNode height value es ↔ e ∈ es ∨ e = ⟨newNode, value, height⟩ := by
  rw [inserted, mem_append, mem_cons, mem_before, mem_rest]
  have side := lt_or_ge (c.compare e.val value) 0
  tauto

lemma inserted_perm (ordered : Ordered c es) :
    (inserted c newNode height value es).Perm (⟨newNode, value, height⟩ :: es) := by
  have split := (c.graded ordered.sorted value).before_append_rest
  nth_rewrite 2 [← split]
  exact perm_middle

lemma Links.rep {s' : CSkl N V} (links : Links c s s' es newNode height value) (rep : Rep c.rsentinel s es)
    (ordered : Ordered c es) (outside : newNode ∉ s.leftSentinel :: (es ++ [s.sentinel c.rsentinel]).map Entry.node)
    (positive : 0 < height) (high : height ≤ s.maxHeight) :
    Rep c.rsentinel s' (inserted c newNode height value es) := by
  have sentinel := c.compare_rsentinel value
  have graded := ordered.graded s value
  have apart {n : N} (member : n ∈ s.leftSentinel :: (es ++ [s.sentinel c.rsentinel]).map Entry.node) : n ≠ newNode :=
    fun same => outside (same ▸ member)
  have sameSentinel : s'.sentinel c.rsentinel = s.sentinel c.rsentinel := by rw [CSkl.sentinel, links.right, CSkl.sentinel]
  constructor
  case positive => rw [links.maxHeight]; exact rep.positive
  case left =>
    obtain ⟨val, linked, stored⟩ := rep.left
    rw [links.left, links.maxHeight]
    exact ⟨val, linked, links.old (apart mem_cons_self) stored⟩
  case right =>
    rw [links.right]
    exact links.old (apart (by simp [CSkl.sentinel])) rep.right
  case entries =>
    intro e member
    rcases (mem_inserted c).mp member with there | rfl
    · refine links.old (apart ?_) (rep.entries e there)
      exact mem_cons_of_mem _ (mem_map_of_mem (mem_append_left _ there))
    · exact links.new
  case heights =>
    intro e member
    rw [links.maxHeight]
    rcases (mem_inserted c).mp member with there | rfl
    · exact rep.heights e there
    · exact ⟨positive, high⟩
  case distinct =>
    rw [links.left, sameSentinel]
    have perm : (s.leftSentinel :: (inserted c newNode height value es ++ [s.sentinel c.rsentinel]).map Entry.node).Perm
        (newNode :: s.leftSentinel :: (es ++ [s.sentinel c.rsentinel]).map Entry.node) := by
      refine (((inserted_perm c ordered).append_right _).map Entry.node).cons s.leftSentinel |>.trans ?_
      exact List.Perm.swap ..
    exact perm.nodup_iff.mpr (nodup_cons.mpr ⟨outside, rep.distinct⟩)
  case linked =>
    intro layer below
    rw [links.maxHeight] at below
    have whole : s'.row c.rsentinel (inserted c newNode height value es) layer =
        before c.compare value (s.row c.rsentinel es layer) ++
          (level [⟨newNode, value, height⟩] layer ++ rest c.compare value (s.row c.rsentinel es layer)) := by
      rw [CSkl.row, inserted, sameSentinel, before_row sentinel, rest_row sentinel, before_level, rest_level,
        ← singleton_append, level_append, level_append, append_assoc, append_assoc]
    have apartRow {n : N} (member : n ∈ s.leftSentinel :: (s.row c.rsentinel es layer).map Entry.node) : n ≠ newNode :=
      apart (mem_nodes_of_row member)
    have split := (graded_row graded layer).before_append_rest
    have distinct := rep.distinct_row layer
    rw [← split, map_append, ← cons_append] at distinct
    rw [whole, links.left, map_append, map_append]
    obtain ⟨front, back⟩ := rep.split_row graded sentinel below
    rcases Nat.lt_or_ge layer height with low | above
    · have new : level [(⟨newNode, value, height⟩ : Entry N V)] layer = [⟨newNode, value, height⟩] := by simp [level, low]
      rw [new]
      refine Chain.append.mpr ⟨some newNode, ?_, rfl, ?_⟩
      · refine chain_redirect front (List.Nodup.of_append_left distinct) (links.nextPred layer low) ?_
        intro n member notPred
        refine links.nextOld layer n (apartRow ?_) fun _ => notPred
        exact cons_subset_cons _ (map_subset _ (filter_subset_self _)) member
      · change Chain (s'.next layer) _ (s'.next layer newNode) none
        rw [links.nextNew layer low]
        refine back.congr fun n member => links.nextOld layer n (apartRow ?_) fun _ same => ?_
        · exact mem_cons_of_mem _ (map_subset _ (filter_subset_self _) member)
        · rw [same] at member
          exact disjoint_of_nodup_append distinct (endOf_mem _ _) member
    · have none : level [(⟨newNode, value, height⟩ : Entry N V)] layer = [] := by simp [level, above]
      have unlinked {n : N} (member : n ∈ s.leftSentinel :: (s.row c.rsentinel es layer).map Entry.node) :
          s'.next layer n = s.next layer n :=
        links.nextOld layer n (apartRow member) fun low => absurd low above.not_gt
      rw [none, map_nil, nil_append, ← map_append, split, unlinked mem_cons_self]
      exact (rep.linked layer below).congr fun n member => unlinked (mem_cons_of_mem _ member)

end

lemma csklInsert_new (rep : Rep c.rsentinel s es) (ordered : Ordered c es) (fresh : s.heap newNode = none)
    (positive : 0 < height) (high : height ≤ s.maxHeight) (belongs : c.compare value c.rsentinel < 0)
    (missed : ∀ e ∈ es, c.compare e.val value ≠ 0) (enough : es.length < fuel) :
    ∃ s', csklInsert c.compare fuel s newNode height value = some (newNode, s') ∧
      Rep c.rsentinel s' (inserted c newNode height value es) := by
  have rep₁ : Rep c.rsentinel (s.malloc newNode height value) es := rep.store _ fresh
  have sentinel := c.compare_rsentinel value
  have graded := ordered.graded (s.malloc newNode height value) value
  have stored : (s.malloc newNode height value).heap newNode = some ⟨value, height, false, false, fun _ => none⟩ :=
    Function.update_self ..
  have outside : newNode ∉ s.leftSentinel :: (es ++ [s.sentinel c.rsentinel]).map Entry.node :=
    fun member => rep.fresh_ne fresh member rfl
  obtain ⟨found, searched, top, filled, -⟩ := rep₁.findHelper_full graded sentinel Found.nothing le_rfl
    (fun layer _ => mem_cons_self) enough
  have missedAt (layer : ℕ) :
      c.compare (stopAt c.compare value (s.malloc newNode height value) c.rsentinel es layer).val value ≠ 0 := by
    rcases mem_row.mp (mem_rest.mp (stopAt_mem _ es layer sentinel)).1 with ⟨member, -⟩ | last
    · exact missed _ member
    · have swap := c.swap value c.rsentinel
      rw [last]
      change c.compare c.rsentinel value ≠ 0
      omega
  rw [topMatch_of_missed fun layer _ => missedAt layer, or_none] at top
  have valid := validate_eq c rep₁ ordered (range height) filled (fun layer _ => missedAt layer)
    fun layer member => (mem_range.mp member).trans_le high
  have linked := linkLayers_eq height (fun layer below => filled layer (below.trans_le high))
    (fun layer below => ⟨_, stored, below⟩) fun layer below => rep₁.tall_pred sentinel (below.trans_le high)
  obtain ⟨s', linkedFully, links⟩ := links_fullyLink c rep₁ stored outside high
  refine ⟨s', ?_, links.rep c rep₁ ordered outside positive high⟩
  have none : found.foundLayer = none := top
  simp [csklInsert, searched, none, valid, linked, linkedFully]

end

end HpcToolkit.Collections.CSkipList
