import HpcToolkit.HpcStruct.Reparent

/-! # Building an inline tree conserves code

Every instruction of a function ends in exactly one statement map of its inline tree, every loop that was not merged
into its parent is there once, and what was first put into the tree of a loop is still inside it, or inside the loop it
was merged into.
-/

open List hiding Ico map_id'
open Prod (fst)
open Multiset (Ico bind_add bind_singleton coe_add coe_eq_coe coe_nil map_coe map_id' mem_Ico mem_add sum_coe)

namespace HpcToolkit.HpcStruct

open TreeNode

/-! ## The loops of a loop tree -/

variable {B : Type}

namespace LoopTreeNode

mutual

/-- The loops of a loop tree in the order in which they are finished. -/
def postOrder : LoopTreeNode B → List (String × Loop B)
  | mk loop name children => postOrders children ++ (loop.map fun l => (name, l)).toList

def postOrders : List (LoopTreeNode B) → List (String × Loop B)
  | [] => []
  | node :: rest => postOrder node ++ postOrders rest

end

mutual

/-- The names of the outermost loops. -/
def topNames : LoopTreeNode B → List String
  | mk none _ children => topNamesOf children
  | mk (some _) name _ => [name]

def topNamesOf : List (LoopTreeNode B) → List String
  | [] => []
  | node :: rest => topNames node ++ topNamesOf rest

end

mutual

/-- The names of the loops with the names of the loops around them. -/
def parents : LoopTreeNode B → List (String × String)
  | mk none _ children => parentsOf children
  | mk (some _) name children => parentsOf children ++ (topNamesOf children).map fun child => (child, name)

def parentsOf : List (LoopTreeNode B) → List (String × String)
  | [] => []
  | node :: rest => parents node ++ parentsOf rest

end

lemma inductionOn {P : LoopTreeNode B → Prop}
    (node : ∀ loop name children, (∀ c ∈ children, P c) → P (mk loop name children)) : ∀ t, P t := by
  intro t
  apply @LoopTreeNode.rec B P (fun ts => ∀ c ∈ ts, P c)
  · exact fun loop name children each => node loop name children each
  · exact fun c hc => absurd hc not_mem_nil
  · exact fun c rest first others => forall_mem_cons.mpr ⟨first, others⟩

end LoopTreeNode

open LoopTreeNode

/-- A loop was merged into another one, perhaps by way of others. -/
def MergedInto (merged : List (String × String)) : String → String → Prop :=
  Relation.ReflTransGen fun child parent => (child, parent) ∈ merged

lemma MergedInto.mono {merged more : List (String × String)} (subset : merged ⊆ more) {child parent : String}
    (into : MergedInto merged child parent) : MergedInto more child parent :=
  Relation.ReflTransGen.mono (fun _ _ h => subset h) _ _ into

def loopName (l : LoopInfo) : String := l.1.name

/-- Some loops and the loops inside them. -/
def nested (list : List LoopInfo) : List LoopInfo := list.flatMap fun l => l :: l.2.loopInfos

variable [DecidableEq B]

/-- The loop into whose tree a block is put first. -/
def firstLoop (loops : List (String × Loop B)) (b : B) : Option String :=
  (loops.find? fun l => b ∈ l.2.basicBlocks).map fst

/-- What holds of the loops found after some loops, in this order, with these outermost ones and these parents, have
been finished. -/
structure Built (cfg : B → Block B) (before : List B) (loops : List (String × Loop B)) (top : List String)
    (parents : List (String × String)) (result : LoopResult B) : Prop where
  nodup : result.visited.Nodup
  visited : ∀ b, b ∈ result.visited ↔ b ∈ before ∨ ∃ l ∈ loops, b ∈ l.2.basicBlocks
  proper : ∀ l ∈ result.list, l.2.AllProper
  addresses : (result.list.map fun l => l.2.addresses).sum + covered cfg before = covered cfg result.visited
  top : result.list.map loopName = top
  names : ((nested result.list).map loopName ++ result.merged.map fst).Perm (loops.map fst)
  parents : result.merged ⊆ parents
  inside : ∀ b name, b ∉ before → firstLoop loops b = some name → ∀ a ∈ (cfg b).addresses,
    ∃ info ∈ nested result.list, MergedInto result.merged name (loopName info) ∧ a ∈ info.2.addresses

section
variable (env : WorkEnv) {cfg : B → Block B} (fileName : String)

lemma built_nil {before : List B} (nodup : before.Nodup) : Built cfg before [] [] [] ⟨before, [], []⟩ where
  nodup := nodup
  visited := by simp
  proper := by simp
  addresses := by simp
  top := rfl
  names := by simp [nested]
  parents := nil_subset _
  inside := by simp [firstLoop]

lemma nested_eq (list : List LoopInfo) : (nested list : Multiset LoopInfo) =
    (list : Multiset LoopInfo) + (list : Multiset LoopInfo).bind fun l => (l.2.loopInfos : Multiset LoopInfo) := by
  have each : (nested list : Multiset LoopInfo) =
      (list : Multiset LoopInfo).bind fun l => {l} + (l.2.loopInfos : Multiset LoopInfo) :=
    (Multiset.coe_bind list _).symm
  rw [each, bind_add, bind_singleton, map_id']

lemma nested_append (list more : List LoopInfo) : nested (list ++ more) = nested list ++ nested more :=
  flatMap_append

lemma mem_of_firstLoop {loops : List (String × Loop B)} {b : B} {name : String}
    (found : firstLoop loops b = some name) : ∃ l ∈ loops, b ∈ l.2.basicBlocks ∧ l.1 = name := by
  obtain ⟨l, first, rfl⟩ := Option.map_eq_some_iff.mp found
  have taken := find?_some (p := fun l : String × Loop B => decide (b ∈ l.2.basicBlocks)) first
  exact ⟨l, mem_of_find?_eq_some first, of_decide_eq_true taken, rfl⟩

lemma firstLoop_append {loops more : List (String × Loop B)} {b : B} {name : String}
    (found : firstLoop (loops ++ more) b = some name) :
    firstLoop loops b = some name ∨ (∀ l ∈ loops, b ∉ l.2.basicBlocks) ∧ firstLoop more b = some name := by
  rw [firstLoop, find?_append] at found
  cases first : loops.find? fun l => b ∈ l.2.basicBlocks with
  | some l =>
    rw [first] at found
    exact .inl (by rw [firstLoop, first]; exact found)
  | none =>
    rw [first] at found
    exact .inr ⟨by simpa using first, found⟩

lemma Built.visited_subset {before scope : List B} {loops : List (String × Loop B)} {top : List String}
    {parents : List (String × String)} {result : LoopResult B} (built : Built cfg before loops top parents result)
    (known : before ⊆ scope) (inScope : ∀ l ∈ loops, l.2.basicBlocks ⊆ scope) : result.visited ⊆ scope := by
  intro b hb
  obtain old | ⟨l, hl, taken⟩ := (built.visited b).mp hb
  · exact known old
  · exact inScope l hl taken

lemma Built.not_visited {before : List B} {loops : List (String × Loop B)} {top : List String}
    {parents : List (String × String)} {result : LoopResult B} (built : Built cfg before loops top parents result)
    {b : B} (fresh : b ∉ before) (notHere : ∀ l ∈ loops, b ∉ l.2.basicBlocks) : b ∉ result.visited := by
  rw [built.visited]
  rintro (old | ⟨l, hl, taken⟩)
  · exact fresh old
  · exact notHere l hl taken

lemma Built.append {before : List B} {loops₁ loops₂ : List (String × Loop B)} {top₁ top₂ : List String}
    {parents₁ parents₂ : List (String × String)} {first others : LoopResult B}
    (built : Built cfg before loops₁ top₁ parents₁ first)
    (more : Built cfg first.visited loops₂ top₂ parents₂ others) :
    Built cfg before (loops₁ ++ loops₂) (top₁ ++ top₂) (parents₁ ++ parents₂)
      ⟨others.visited, first.list ++ others.list, first.merged ++ others.merged⟩ where
  nodup := more.nodup
  visited := by
    intro b
    rw [more.visited, built.visited]
    simp only [mem_append, or_and_right, exists_or, or_assoc]
  proper := by
    intro l hl
    exact (mem_append.mp hl).elim (built.proper l) (more.proper l)
  addresses := by
    rw [map_append, sum_append, add_right_comm, built.addresses, add_comm, more.addresses]
  top := by rw [map_append, built.top, more.top]
  names := by
    have both := built.names.append more.names
    rw [← map_append] at both
    refine List.Perm.trans (coe_eq_coe.mp ?_) both
    simp only [nested_append, map_append, ← coe_add]
    exact add_add_add_comm _ _ _ _
  parents := append_subset.mpr ⟨subset_append_of_subset_left _ built.parents,
    subset_append_of_subset_right _ more.parents⟩
  inside := by
    intro b name fresh found a ha
    rw [nested_append]
    obtain here | ⟨notHere, there⟩ := firstLoop_append found
    · obtain ⟨info, member, into, contains⟩ := built.inside b name fresh here a ha
      exact ⟨info, mem_append_left _ member, into.mono (subset_append_left _ _), contains⟩
    · have freshStill : b ∉ first.visited := built.not_visited fresh notHere
      obtain ⟨info, member, into, contains⟩ := more.inside b name freshStill there a ha
      exact ⟨info, mem_append_right _ member, into.mono (subset_append_right _ _), contains⟩

/-! ## One loop -/

lemma reading_of_merged {M : Type} [AddCancelCommMonoid M] (reading : Multiset ℕ × Multiset LoopInfo →+ M)
    {f : TreeNode → M} {g : LoopInfo → M} (tree : ∀ t, f t = reading t.held)
    (loop : ∀ l, reading (ofLoops [l]) = g l + f l.2) {before after : TreeNode} {deleted : List LoopInfo}
    (held : after.held + ofLoops deleted = before.held + (deleted.map fun l => l.2.held).sum) :
    f after + (deleted.map g).sum = f before := by
  have loops : ∀ list, reading (ofLoops list) = (list.map g).sum + (list.map fun l => f l.2).sum := by
    intro list
    induction list with
    | nil => simp
    | cons l rest ih =>
      rw [ofLoops_cons, map_add, loop, ih, map_cons, sum_cons, map_cons, sum_cons]
      exact add_add_add_comm _ _ _ _
  have trees : reading (deleted.map fun l => l.2.held).sum = (deleted.map fun l => f l.2).sum := by
    rw [map_list_sum, map_map]
    simp only [tree]
    rfl
  have read := congrArg reading held
  rw [map_add, map_add, loops, trees, ← tree, ← tree, ← add_assoc] at read
  exact add_right_cancel read

/-- The sum of a reading of the loops. -/
def sumOfLoops {M : Type} [AddCommMonoid M] (f : LoopInfo → M) : Multiset LoopInfo →+ M :=
  Multiset.sumAddMonoidHom.comp (Multiset.mapAddMonoidHom f)

section
variable {before after : TreeNode} {deleted : List LoopInfo}
  (held : after.held + ofLoops deleted = before.held + (deleted.map fun l => l.2.held).sum)
include held

lemma addresses_of_merged : after.addresses = before.addresses := by
  have read := reading_of_merged (f := addresses) (g := fun _ => 0)
    (AddMonoidHom.fst _ _ + (sumOfLoops fun l => l.2.addresses).comp (AddMonoidHom.snd _ _)) addresses_eq
    (by intro l; simp [ofLoops, sumOfLoops]) held
  simpa using read

lemma loopInfos_of_merged : (after.loopInfos : Multiset LoopInfo) + ↑deleted = ↑before.loopInfos := by
  have split : ∀ loops : Multiset LoopInfo, (loops.map fun l => {l} + (l.2.loopInfos : Multiset LoopInfo)).sum =
      loops + loops.bind fun l => (l.2.loopInfos : Multiset LoopInfo) := by
    intro loops
    change (loops.bind fun l => {l} + (l.2.loopInfos : Multiset LoopInfo)) = _
    rw [bind_add, bind_singleton, map_id']
  have read := reading_of_merged (f := fun t => (t.loopInfos : Multiset LoopInfo)) (g := fun l => {l})
    ((sumOfLoops fun l => {l} + (l.2.loopInfos : Multiset LoopInfo)).comp (AddMonoidHom.snd _ _))
    (by intro t; rw [loopInfos_eq]; exact (split t.held.2).symm) (by intro l; simp [ofLoops, sumOfLoops]) held
  rwa [← sum_coe, ← map_coe, Multiset.sum_map_singleton] at read

lemma allProper_of_merged (proper : after.Proper) (all : before.AllProper) (among : ∀ l ∈ deleted, l ∈ before.held.2) :
    after.AllProper := by
  have inside := ((allProper_iff before).mp all).2
  refine (allProper_iff after).mpr ⟨proper, fun l hl => ?_⟩
  have loops : after.held.2 + ↑deleted = before.held.2 + (deleted.map fun d => d.2.held.2).sum := by
    have parts := congrArg (AddMonoidHom.snd (Multiset ℕ) (Multiset LoopInfo)) held
    rwa [map_add, map_add, map_list_sum, map_map] at parts
  have member : l ∈ after.held.2 + ↑deleted := mem_add.mpr (.inl hl)
  rw [loops, mem_add, mem_sum_map] at member
  obtain outside | ⟨d, hd, below⟩ := member
  · exact inside l outside
  · exact ((allProper_iff d.2).mp (inside d (among d hd))).2 l below

end

lemma parts_of_held {t : TreeNode} {A : Multiset ℕ} {list : List LoopInfo} (proper : t.Proper)
    (each : ∀ l ∈ list, l.2.AllProper) (held : t.held = (A, ↑list)) :
    t.AllProper ∧ t.addresses = A + (list.map fun l => l.2.addresses).sum ∧
      (t.loopInfos : Multiset LoopInfo) = ↑(nested list) := by
  refine ⟨?_, ?_, ?_⟩
  · rw [allProper_iff, held]
    exact ⟨proper, each⟩
  · rw [addresses_eq, held, map_coe, sum_coe]
  · rw [loopInfos_eq, held, nested_eq]

lemma collect_spec {scope : List B} (measurable : MeasuredByInt (covered cfg scope)) {before : List B}
    {loops : List (String × Loop B)} {top : List String} {parents : List (String × String)} {children : LoopResult B}
    (built : Built cfg before loops top parents children) {blocks : List B} (known : children.visited ⊆ scope)
    (inScope : blocks ⊆ scope) {state : List B × TreeNode} {root : TreeNode}
    (blocksDone : blocks.foldl (doBlock env cfg) (children.visited, .empty) = state)
    (loopsDone : children.list.foldl (fun tree info => tree.mergeInlineLoop [] info) state.2 = root) :
    ∃ new, state.1 = new ++ children.visited ∧ (new ++ children.visited).Nodup ∧
      (∀ b, b ∈ new ++ children.visited ↔ b ∈ children.visited ∨ b ∈ blocks) ∧
      MeasuredByInt (covered cfg new + (children.list.map fun l => l.2.addresses).sum) ∧
      root.Proper ∧ root.held = (covered cfg new, ↑children.list) := by
  have nothing : TreeNode.empty.held.1 ≤ covered cfg children.visited := Multiset.zero_le _
  obtain ⟨new, visits, nodup, members, properRaw, heldRaw⟩ :=
    doBlocks_spec env measurable known inScope built.nodup proper_empty nothing
  rw [blocksDone] at visits properRaw heldRaw
  rw [held_empty, zero_add] at heldRaw
  have visitedKnown : new ++ children.visited ⊆ scope := by
    intro b hb
    exact ((members b).mp hb).elim (fun h => known h) (fun h => inScope h)
  have short : MeasuredByInt (covered cfg new + (children.list.map fun l => l.2.addresses).sum) := by
    apply measurable.mono (le_trans _ (covered_le nodup visitedKnown))
    rw [covered_append, ← built.addresses]
    exact add_le_add_right (Multiset.le_add_right _ _) _
  have raw : MeasuredByInt (covered cfg new) := short.mono (Multiset.le_add_right _ _)
  obtain ⟨properLoop, heldLoop⟩ := mergeInlineLoops_spec [] children.list properRaw (heldRaw ▸ raw)
  rw [heldRaw, ofLoops, Prod.mk_add_mk, add_zero, zero_add] at heldLoop
  rw [loopsDone] at properLoop heldLoop
  exact ⟨new, visits, nodup, members, short, properLoop, heldLoop⟩

lemma doLoop_parts {scope : List B} (measurable : MeasuredByInt (covered cfg scope)) {before : List B}
    {loops : List (String × Loop B)} {top : List String} {parents : List (String × String)} {children : LoopResult B}
    (built : Built cfg before loops top parents children) {loop : Loop B} (name : String)
    (known : children.visited ⊆ scope) (inScope : loop.basicBlocks ⊆ scope) :
    ∃ info deleted new, doLoop env cfg fileName children loop name =
        ⟨new ++ children.visited, [info], children.merged ++ deleted.map fun l => (loopName l, name)⟩ ∧
      (new ++ children.visited).Nodup ∧
      (∀ b, b ∈ new ++ children.visited ↔ b ∈ children.visited ∨ b ∈ loop.basicBlocks) ∧
      loopName info = name ∧ info.2.AllProper ∧
      info.2.addresses = covered cfg new + (children.list.map fun l => l.2.addresses).sum ∧
      deleted ⊆ children.list ∧ (info.2.loopInfos : Multiset LoopInfo) + ↑deleted = ↑(nested children.list) := by
  obtain ⟨new, visits, nodup, members, short, properLoop, heldLoop⟩ :=
    collect_spec env measurable built known inScope rfl rfl
  obtain ⟨properHeader, heldHeader⟩ := findLoopHeader_spec env cfg fileName loop name properLoop (by
    rw [heldLoop]
    exact short.mono (Multiset.le_add_right _ _))
  rw [heldLoop] at heldHeader
  generalize header : findLoopHeader env cfg fileName _ loop name = info at properHeader heldHeader
  obtain ⟨allProper, total, loopsOf⟩ := parts_of_held properHeader built.proper heldHeader
  obtain ⟨attrs, sublist, properResult, heldResult⟩ := mergeIrredLoops_spec info allProper (total ▸ short)
  have among : ∀ l ∈ (mergeIrredLoops info).2, l ∈ info.2.held.2 := fun l hl =>
    mem_held_of_mem_loopList (sublist.subset hl)
  refine ⟨(mergeIrredLoops info).1, (mergeIrredLoops info).2, new, ?_, nodup, members, ?_,
    allProper_of_merged heldResult properResult allProper among, ?_, ?_, ?_⟩
  · rw [doLoop, ← visits, ← header]
    rfl
  · rw [loopName, attrs, ← header]
    rfl
  · rw [addresses_of_merged heldResult, total]
  · intro l hl
    have member := among l hl
    rwa [heldHeader] at member
  · rw [loopInfos_of_merged heldResult, loopsOf]

lemma Built.loop {scope : List B} (measurable : MeasuredByInt (covered cfg scope)) {before : List B}
    {loops : List (String × Loop B)} {top : List String} {parents : List (String × String)} {children : LoopResult B}
    (built : Built cfg before loops top parents children) {loop : Loop B} (name : String)
    (known : children.visited ⊆ scope) (inScope : loop.basicBlocks ⊆ scope) :
    Built cfg before (loops ++ [(name, loop)]) [name] (parents ++ top.map fun child => (child, name))
      (doLoop env cfg fileName children loop name) := by
  obtain ⟨info, deleted, new, result, nodup, members, named, proper, addresses, among, loopInfos⟩ :=
    doLoop_parts env fileName measurable built name known inScope
  rw [result]
  constructor
  · exact nodup
  · intro b
    rw [members, built.visited]
    simp only [mem_append, mem_singleton, or_and_right, exists_or, exists_eq_left, or_assoc]
  · exact forall_mem_singleton.mpr proper
  · rw [map_singleton, sum_singleton, addresses, add_assoc, built.addresses, covered_append]
  · rw [map_singleton, named]
  · have moved : (info.2.loopInfos.map loopName ++ deleted.map loopName).Perm ((nested children.list).map loopName) := by
      rw [← map_append]
      exact (coe_eq_coe.mp loopInfos).map loopName
    have list : (nested [info]).map loopName = name :: info.2.loopInfos.map loopName := by
      simp [nested, named]
    have pairs : (deleted.map fun l => (loopName l, name)).map fst = deleted.map loopName := by
      rw [map_map]
      rfl
    have kept := ((moved.append_right _).trans built.names).append_right [name]
    have shape : (loops ++ [(name, loop)]).map fst = loops.map fst ++ [name] := map_append
    rw [shape]
    refine List.Perm.trans (coe_eq_coe.mp ?_) kept
    rw [list, map_append, pairs]
    simp only [← coe_add, ← Multiset.cons_coe, coe_nil, ← Multiset.singleton_add]
    abel
  · intro pair hp
    obtain old | new := mem_append.mp hp
    · exact mem_append_left _ (built.parents old)
    · obtain ⟨l, hl, rfl⟩ := mem_map.mp new
      apply mem_append_right
      rw [← built.top, map_map]
      exact mem_map_of_mem (among hl)
  · intro b first fresh found a ha
    have here : info ∈ nested [info] := by simp [nested]
    obtain below | ⟨notBelow, own⟩ := firstLoop_append found
    · obtain ⟨inner, member, into, contains⟩ := built.inside b first fresh below a ha
      have place : inner ∈ (info.2.loopInfos : Multiset LoopInfo) + ↑deleted := by
        rw [loopInfos]
        exact member
      obtain stays | gone := mem_add.mp place
      · refine ⟨inner, ?_, into.mono (subset_append_left _ _), contains⟩
        simp only [nested, flatMap_singleton]
        exact mem_cons_of_mem _ stays
      · refine ⟨info, here, ?_, ?_⟩
        · refine Relation.ReflTransGen.tail (into.mono (subset_append_left _ _)) ?_
          rw [named]
          exact mem_append_right _ (mem_map_of_mem gone)
        · rw [addresses]
          exact mem_add.mpr (.inr (mem_sum_map.mpr ⟨inner, among gone, contains⟩))
    · have placed : b ∈ new ∧ first = name := by
        have freshStill : b ∉ children.visited := built.not_visited fresh notBelow
        obtain ⟨l, member, taken, rfl⟩ := mem_of_firstLoop own
        obtain rfl := mem_singleton.mp member
        have visits := (members b).mpr (.inr taken)
        exact ⟨(mem_append.mp visits).resolve_right freshStill, rfl⟩
      refine ⟨info, here, ?_, ?_⟩
      · rw [placed.2, named]
        exact Relation.ReflTransGen.refl
      · rw [addresses]
        exact mem_add.mpr (.inl (mem_sum_map.mpr ⟨b, placed.1, ha⟩))

/-! ## The whole loop tree -/

lemma doLoopTrees_built {scope : List B} {children : List (LoopTreeNode B)}
    (each : ∀ c ∈ children, ∀ before : List B, before.Nodup → before ⊆ scope →
      (∀ l ∈ c.postOrder, l.2.basicBlocks ⊆ scope) →
      Built cfg before c.postOrder c.topNames c.parents (doLoopTree env cfg fileName c before))
    {before : List B} (nodup : before.Nodup) (known : before ⊆ scope)
    (inScope : ∀ l ∈ postOrders children, l.2.basicBlocks ⊆ scope) :
    Built cfg before (postOrders children) (topNamesOf children) (parentsOf children)
      (doLoopTrees env cfg fileName children before) := by
  induction children generalizing before with
  | nil => exact built_nil nodup
  | cons c rest ih =>
    obtain ⟨first, others⟩ := forall_mem_cons.mp each
    obtain ⟨inFirst, inOthers⟩ := forall_mem_append.mp inScope
    have built := first before nodup known inFirst
    exact built.append (ih others built.nodup (built.visited_subset known inFirst) inOthers)

lemma doLoopTree_built {scope : List B} (measurable : MeasuredByInt (covered cfg scope)) (node : LoopTreeNode B) :
    ∀ before : List B, before.Nodup → before ⊆ scope → (∀ l ∈ node.postOrder, l.2.basicBlocks ⊆ scope) →
      Built cfg before node.postOrder node.topNames node.parents (doLoopTree env cfg fileName node before) := by
  induction node using LoopTreeNode.inductionOn with
  | node loop name children each =>
    intro before nodup known inScope
    obtain ⟨inChildren, inLoop⟩ := forall_mem_append.mp inScope
    have built := doLoopTrees_built env fileName each nodup known inChildren
    cases loop with
    | none =>
      rw [postOrder, Option.map_none, Option.toList_none, append_nil]
      exact built
    | some loop =>
      have visited := built.visited_subset known inChildren
      exact built.loop env fileName measurable name visited (inLoop (name, loop) mem_cons_self)

end

/-! ## The function -/

lemma one_stmtMap {maps : List StmtMap} (proper : ∀ m ∈ maps, m.Proper)
    (measurable : MeasuredByInt (maps.map StmtMap.addresses).sum) {a : ℕ} (ha : a ∈ (maps.map StmtMap.addresses).sum) :
    (maps.filter fun m => m.member a).length = 1 := by
  induction maps with
  | nil => exact absurd ha (Multiset.notMem_zero a)
  | cons m rest ih =>
    obtain ⟨properFirst, properRest⟩ := forall_mem_cons.mp proper
    rw [map_cons, sum_cons] at measurable ha
    have first := measurable.mono (Multiset.le_add_right _ _)
    have others := measurable.mono (Multiset.le_add_left _ _)
    rw [filter_cons]
    split_ifs with here
    · rw [StmtMap.member_iff properFirst first] at here
      have elsewhere := Multiset.disjoint_left.mp (Multiset.nodup_add.mp measurable.nodup).2.2 here
      have none : rest.filter (fun m => m.member a) = [] := by
        apply filter_eq_nil_iff.mpr
        intro k hk contains
        have short := others.mono (le_sum_map hk)
        exact elsewhere (mem_sum_map.mpr ⟨k, hk, (StmtMap.member_iff (properRest k hk) short).mp contains⟩)
      rw [none, length_singleton]
    · apply ih properRest others
      rw [StmtMap.member_iff properFirst first] at here
      exact (mem_add.mp ha).resolve_left here

/-- The loops of a function in the order in which they are finished. -/
def loopsOf (loopTree : Option (LoopTreeNode B)) : List (String × Loop B) := loopTree.elim [] postOrder

/-- Every block of a function, in a loop or not. -/
def blocksOf (blocks : List B) (loopTree : Option (LoopTreeNode B)) : List B :=
  blocks ++ (loopsOf loopTree).flatMap fun l => l.2.basicBlocks

/-- The inline tree has the code of the function: every instruction address is in one statement map, the loops in it
and the loops merged into their parents are the loops of the function, and an address is in the loop into whose tree it
was first put, or in the one this was merged into. -/
structure Conserves (cfg : B → Block B) (blocks : List B) (loopTree : Option (LoopTreeNode B)) (tree : TreeNode)
    (merged : List (String × String)) : Prop where
  instructions : ∀ b ∈ blocksOf blocks loopTree, ∀ a ∈ (cfg b).addresses,
    (tree.stmtMaps.filter fun m => m.member a).length = 1
  loops : (tree.loopInfos.map loopName ++ merged.map fst).Perm ((loopsOf loopTree).map fst)
  intoParents : merged ⊆ loopTree.elim [] LoopTreeNode.parents
  inside : ∀ b name, firstLoop (loopsOf loopTree) b = some name → ∀ a ∈ (cfg b).addresses,
    ∃ info ∈ tree.loopInfos, MergedInto merged name (loopName info) ∧ ∃ m ∈ info.2.stmtMaps, m.member a = true

lemma callSite_spec (env : WorkEnv) {root : TreeNode} (callSite : List InlineNode) (proper : root.Proper)
    (measurable : MeasuredByInt root.held.1) :
    (if callSite.isEmpty then root else deleteInlinePrefix env root callSite).Proper ∧
      (if callSite.isEmpty then root else deleteInlinePrefix env root callSite).held = root.held := by
  split_ifs
  · exact ⟨proper, rfl⟩
  · exact deleteInlinePrefix_spec env callSite proper measurable

lemma doFunction_parts (env : WorkEnv) (cfg : B → Block B) (fileName : String) (blocks : List B)
    (loopTree : Option (LoopTreeNode B)) (callSite : List InlineNode)
    (measurable : MeasuredByInt (covered cfg (blocksOf blocks loopTree).dedup)) :
    ∃ (loops : LoopResult B) (top : List String) (visited : List B),
      Built cfg [] (loopsOf loopTree) top (loopTree.elim [] LoopTreeNode.parents) loops ∧
      (doFunction env cfg fileName blocks loopTree callSite).2 = loops.merged ∧
      (∀ b, b ∈ visited ↔ b ∈ blocksOf blocks loopTree) ∧
      (doFunction env cfg fileName blocks loopTree callSite).1.AllProper ∧
      MeasuredByInt (doFunction env cfg fileName blocks loopTree callSite).1.addresses ∧
      (doFunction env cfg fileName blocks loopTree callSite).1.addresses = covered cfg visited ∧
      ((doFunction env cfg fileName blocks loopTree callSite).1.loopInfos : Multiset LoopInfo) = ↑(nested loops.list) := by
  have inLoops : ∀ l ∈ loopsOf loopTree, l.2.basicBlocks ⊆ (blocksOf blocks loopTree).dedup := by
    intro l hl b hb
    exact mem_dedup.mpr (mem_append_right _ (mem_flatMap.mpr ⟨l, hl, hb⟩))
  have inBlocks : blocks ⊆ (blocksOf blocks loopTree).dedup := fun b hb =>
    mem_dedup.mpr (mem_append_left _ hb)
  obtain ⟨loops, found⟩ : ∃ loops, (loopTree.elim ⟨[], [], []⟩ fun node => doLoopTree env cfg fileName node []) = loops :=
    ⟨_, rfl⟩
  obtain ⟨top, built⟩ : ∃ top, Built cfg [] (loopsOf loopTree) top (loopTree.elim [] LoopTreeNode.parents) loops := by
    rw [← found]
    cases loopTree with
    | none => exact ⟨[], built_nil nodup_nil⟩
    | some node =>
      exact ⟨_, doLoopTree_built env fileName measurable node [] nodup_nil (nil_subset _) inLoops⟩
  have known := built.visited_subset (nil_subset _) inLoops
  obtain ⟨new, visits, nodup, members, short, proper, held⟩ := collect_spec env measurable built known inBlocks rfl rfl
  obtain ⟨properTree, heldTree⟩ := callSite_spec env callSite proper (by
    rw [held]
    exact short.mono (Multiset.le_add_right _ _))
  obtain ⟨allProper, addresses, loopInfos⟩ := parts_of_held properTree built.proper (heldTree.trans held)
  rw [doFunction, found]
  refine ⟨loops, top, new ++ loops.visited, built, rfl, ?_, allProper, ?_, ?_, loopInfos⟩
  · intro b
    rw [members, built.visited, blocksOf, mem_append, mem_flatMap]
    simp only [not_mem_nil, false_or]
    exact or_comm
  · rw [addresses]
    exact short
  · have sum := built.addresses
    rw [covered_nil, add_zero] at sum
    rw [addresses, covered_append, sum]

lemma TreeNode.exists_stmtMap {t : TreeNode} (proper : t.AllProper) (measurable : MeasuredByInt t.addresses)
    {l : LoopInfo} (hl : l ∈ t.loopInfos) {a : ℕ} (ha : a ∈ l.2.addresses) : ∃ m ∈ l.2.stmtMaps, m.member a = true := by
  obtain ⟨m, hm, contains⟩ := mem_sum_map.mp ha
  have member := stmtMaps_subset_of_mem_loopInfos hl hm
  obtain ⟨n, hn, rfl⟩ := mem_map.mp member
  exact ⟨_, hm, (StmtMap.member_iff (proper n hn) (measurable.mono (le_sum_map member))).mpr contains⟩

theorem doFunction_conserves (env : WorkEnv) (cfg : B → Block B) (fileName : String) (blocks : List B)
    (loopTree : Option (LoopTreeNode B)) (callSite : List InlineNode)
    (measurable : MeasuredByInt (covered cfg (blocksOf blocks loopTree).dedup)) :
    Conserves cfg blocks loopTree (doFunction env cfg fileName blocks loopTree callSite).1
      (doFunction env cfg fileName blocks loopTree callSite).2 := by
  obtain ⟨loops, top, visited, built, merged, members, proper, short, addresses, loopInfos⟩ :=
    doFunction_parts env cfg fileName blocks loopTree callSite measurable
  generalize doFunction env cfg fileName blocks loopTree callSite = result at merged proper short addresses loopInfos ⊢
  obtain ⟨tree, list⟩ := result
  obtain rfl := merged
  constructor
  · intro b hb a ha
    have maps : ∀ m ∈ tree.stmtMaps, m.Proper := by
      intro m hm
      obtain ⟨n, hn, rfl⟩ := mem_map.mp hm
      exact proper n hn
    apply one_stmtMap maps short
    change a ∈ tree.addresses
    rw [addresses]
    exact mem_sum_map.mpr ⟨b, (members b).mpr hb, ha⟩
  · have names := (coe_eq_coe.mp loopInfos).map loopName
    exact (names.append_right _).trans built.names
  · exact built.parents
  · intro b name first a ha
    obtain ⟨info, member, into, contains⟩ := built.inside b name not_mem_nil first a ha
    have inTree : info ∈ tree.loopInfos := (coe_eq_coe.mp loopInfos).mem_iff.mpr member
    exact ⟨info, inTree, into, tree.exists_stmtMap proper short inTree contains⟩

/-- No symbols and no line map. -/
def plainEnv : WorkEnv := ⟨fun _ => 0, fun _ => [], fun _ => none, ""⟩

def nestCfg (b : Bool) : Block Bool where
  start := if b then 16 else 0
  last := if b then 20 else 4
  insns := if b then [⟨16, 4, by decide, by decide⟩, ⟨20, 4, by decide, by decide⟩]
    else [⟨0, 4, by decide, by decide⟩, ⟨4, 4, by decide, by decide⟩]
  sorted := by cases b <;> decide
  targets := [⟨.other, !b, false⟩]

def nest : LoopTreeNode Bool :=
  .mk none "" [.mk (some ⟨[false, true], [false, true]⟩) "loop_1" [.mk (some ⟨[true], [true, false]⟩) "loop_1.1" []]]

theorem nest_conserved :
    (doFunction plainEnv nestCfg "f.c" [false, true] (some nest) []).2 = [("loop_1.1", "loop_1")] ∧
      Conserves nestCfg [false, true] (some nest) (doFunction plainEnv nestCfg "f.c" [false, true] (some nest) []).1
        (doFunction plainEnv nestCfg "f.c" [false, true] (some nest) []).2 :=
  ⟨by decide +kernel, doFunction_conserves plainEnv nestCfg "f.c" _ _ _ ⟨by decide, by decide⟩⟩

/-! ## More code than an int can measure -/

/-- Instructions of 16 bytes one after the other, the first of them at `2 ^ 32 + 16 * k`. -/
def straightLine : ℕ → ℕ → List Instruction
  | _, 0 => []
  | k, n + 1 =>
    if fits : 2 ^ 32 + 16 * k + 16 < 2 ^ 64 then ⟨2 ^ 32 + 16 * k, 16, by decide, fits⟩ :: straightLine (k + 1) n else []

lemma le_of_mem_straightLine {k n : ℕ} {i : Instruction} (hi : i ∈ straightLine k n) : 2 ^ 32 + 16 * k ≤ i.vma := by
  induction n generalizing k with
  | zero => exact absurd hi not_mem_nil
  | succ n ih =>
    rw [straightLine] at hi
    split_ifs at hi
    · obtain rfl | later := mem_cons.mp hi
      · exact le_rfl
      · have := ih later
        omega
    · exact absurd hi not_mem_nil

lemma straightLine_sorted (k n : ℕ) : (straightLine k n).Pairwise fun i j => i.vma < j.vma := by
  induction n generalizing k with
  | zero => exact List.Pairwise.nil
  | succ n ih =>
    rw [straightLine]
    split_ifs
    · refine pairwise_cons.mpr ⟨fun i hi => ?_, ih (k + 1)⟩
      have := le_of_mem_straightLine hi
      dsimp only
      omega
    · exact List.Pairwise.nil

lemma straightLine_addresses {k n : ℕ} (fits : 2 ^ 32 + 16 * (k + n) < 2 ^ 64) :
    ((straightLine k n).map Instruction.addresses).sum = Ico (2 ^ 32 + 16 * k) (2 ^ 32 + 16 * (k + n)) := by
  induction n generalizing k with
  | zero => simp [straightLine]
  | succ n ih =>
    have here : 2 ^ 32 + 16 * k + 16 < 2 ^ 64 := by omega
    rw [straightLine, dif_pos here, map_cons, sum_cons, ih (by omega), Instruction.addresses]
    have next : 2 ^ 32 + 16 * (k + 1) = 2 ^ 32 + 16 * k + 16 := by omega
    have last : 2 ^ 32 + 16 * (k + 1 + n) = 2 ^ 32 + 16 * (k + (n + 1)) := by omega
    rw [next, last]
    dsimp only
    exact Multiset.Ico_add_Ico_eq_Ico (by omega) (by omega)

/-- The one statement of such code, when nothing is known of its lines. -/
def wholeStmt (size : ℕ) : StmtInfo := ⟨2 ^ 32, Int.bmod size (2 ^ 32), 0, 0, 0, 0, false, false, ""⟩

def wholeTree (size : ℕ) : TreeNode := .mk [] ⟨[wholeStmt size], pairwise_singleton _ _⟩ []

lemma wholeStmt_setEnd (size more : ℕ) : (wholeStmt size).setEnd (2 ^ 32 + more) = wholeStmt more := by
  simp [StmtInfo.setEnd, wholeStmt]

lemma wholeStmt_endVma {size : ℕ} (short : size < 2 ^ 31) : (wholeStmt size).endVma = 2 ^ 32 + size := by
  have len : Int.bmod size (2 ^ 32) = size := by
    rw [Int.bmod_eq_of_le] <;> omega
  simp only [StmtInfo.endVma, wholeStmt, len]
  omega

lemma insert_next {size : ℕ} (nonempty : 0 < size) (short : size < 2 ^ 31) :
    insertStmt { wholeStmt 16 with vma := 2 ^ 32 + size } (wholeTree size) = wholeTree (size + 16) := by
  have left : (wholeTree size).stmtMap.left (2 ^ 32 + size) = some (wholeStmt size) := by
    simp [wholeTree, stmtMap, StmtMap.left, wholeStmt]
  have right : (wholeTree size).stmtMap.right (2 ^ 32 + size) = none := by
    simp [wholeTree, stmtMap, StmtMap.right, wholeStmt]
  have stop : { wholeStmt 16 with vma := 2 ^ 32 + size }.endVma = 2 ^ 32 + (size + 16) := by
    have len : (wholeStmt 16).len = 16 := by decide
    simp only [StmtInfo.endVma, len]
    omega
  have place : (wholeTree size).stmtMap.placeLeft { wholeStmt 16 with vma := 2 ^ 32 + size } =
      some (wholeStmt (size + 16), 2 ^ 32 + (size + 16)) := by
    have joins : (wholeStmt size).joins { wholeStmt 16 with vma := 2 ^ 32 + size } = true := rfl
    have longest : max (2 ^ 32 + (size + 16)) (2 ^ 32 + size) = 2 ^ 32 + (size + 16) := by omega
    rw [StmtMap.placeLeft, stop]
    dsimp only
    rw [left]
    dsimp only
    rw [wholeStmt_endVma short, if_neg (lt_irrefl _), if_pos joins, longest, wholeStmt_setEnd]
  change mk [] (StmtMap.insert (wholeTree size).stmtMap _) [] = _
  rw [StmtMap.insert, place]
  dsimp only
  rw [right, StmtMap.joinRight, wholeTree, wholeTree, stmtMap, StmtMap.assign]
  simp [wholeStmt]

lemma addStmt_straightLine (i : Instruction) (size : i.size = 16) (root : TreeNode) :
    addStmtToTree plainEnv root i "" 0 none = insertStmt { wholeStmt 16 with vma := i.vma } root := by
  rw [addStmtToTree, size]
  rfl

lemma doInsns_cons (i : Instruction) (size : i.size = 16) (rest : List Instruction) (root : TreeNode) :
    doInsns plainEnv none (i :: rest) .init root =
      doInsns plainEnv none rest .init (insertStmt { wholeStmt 16 with vma := i.vma } root) := by
  have lines : getLineInfo plainEnv .init i.vma = (.init, "", 0) := by
    rw [getLineInfo, if_neg (by simp [LineMapCache.init])]
    rfl
  rw [doInsns, lines, ite_self]
  dsimp only
  rw [addStmt_straightLine i size]

lemma doInsns_straightLine {k n : ℕ} (started : 0 < k) (short : 16 * (k + n) ≤ 2 ^ 31) :
    doInsns plainEnv none (straightLine k n) .init (wholeTree (16 * k)) = wholeTree (16 * (k + n)) := by
  induction n generalizing k with
  | zero => rfl
  | succ n ih =>
    have here : 2 ^ 32 + 16 * k + 16 < 2 ^ 64 := by omega
    rw [straightLine, dif_pos here, doInsns_cons _ rfl, insert_next (by omega) (by omega)]
    have next : 16 * k + 16 = 16 * (k + 1) := by omega
    rw [next, ih (by omega) (by omega)]
    congr 1
    omega

/-- One block of `n + 1` instructions. -/
def longBlock (n : ℕ) : Unit → Block Unit := fun _ =>
  { start := 2 ^ 32
    last := 2 ^ 32 + 16 * n
    insns := straightLine 0 (n + 1)
    sorted := straightLine_sorted 0 (n + 1)
    targets := [] }

lemma doFunction_longBlock {n : ℕ} (short : 16 * (n + 1) ≤ 2 ^ 31) :
    (doFunction plainEnv (longBlock n) "" [()] none []).1 = wholeTree (16 * (n + 1)) := by
  have first : insertStmt { wholeStmt 16 with vma := 2 ^ 32 } .empty = wholeTree (16 * 1) := rfl
  change doInsns plainEnv none (straightLine 0 (n + 1)) .init .empty = _
  rw [straightLine, dif_pos (by decide), doInsns_cons _ rfl]
  dsimp only
  rw [mul_zero, add_zero, first, zero_add, doInsns_straightLine one_pos (by omega), add_comm]

lemma longBlock_covered {n : ℕ} (fits : 2 ^ 32 + 16 * (n + 1) < 2 ^ 64) :
    covered (longBlock n) (blocksOf [()] none).dedup = Ico (2 ^ 32) (2 ^ 32 + 16 * (n + 1)) := by
  have one : covered (longBlock n) (blocksOf [()] none).dedup = (longBlock n ()).addresses := add_zero _
  have addresses := straightLine_addresses (k := 0) (n := n + 1) (by omega)
  rw [mul_zero, add_zero, zero_add] at addresses
  exact one.trans addresses

lemma longBlock_lost {n : ℕ} (size : 16 * (n + 1) = 2 ^ 31) :
    ¬ Conserves (longBlock n) [()] none (doFunction plainEnv (longBlock n) "" [()] none []).1
      (doFunction plainEnv (longBlock n) "" [()] none []).2 := by
  intro conserves
  have member : 2 ^ 32 ∈ covered (longBlock n) (blocksOf [()] none).dedup := by
    rw [longBlock_covered (by omega)]
    exact mem_Ico.mpr ⟨le_rfl, by omega⟩
  have found := conserves.instructions () mem_cons_self (2 ^ 32) (by
    obtain ⟨_, _, contains⟩ := mem_sum_map.mp member
    exact contains)
  rw [doFunction_longBlock size.le, size] at found
  exact absurd found (by decide)

theorem longBlock_not_conserved : (covered (longBlock (2 ^ 27 - 1)) (blocksOf [()] none).dedup).Nodup ∧
    ¬ Conserves (longBlock (2 ^ 27 - 1)) [()] none (doFunction plainEnv (longBlock (2 ^ 27 - 1)) "" [()] none []).1
      (doFunction plainEnv (longBlock (2 ^ 27 - 1)) "" [()] none []).2 := by
  constructor
  · rw [longBlock_covered (by decide)]
    exact Multiset.nodup_Ico
  · exact longBlock_lost (by decide)

end HpcToolkit.HpcStruct
