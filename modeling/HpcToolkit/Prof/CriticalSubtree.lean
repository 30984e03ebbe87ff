import HpcToolkit.Prof.Accumulators

/-! # The contexts with data below them

The first loop of `finalize` registers each context on the way from a context with data to the root as a
child of its parent, and stops at the first parent that has been met before. It stops too early nowhere:
a parent that has been met is itself registered all the way up.
-/

open Function List

namespace HpcToolkit.Prof

open Lib

variable {Ctx : Type} {t : Contexts Ctx} {children : Children Ctx} {c d e p : Ctx}

/-- The registered children of a context. -/
def Children.of (children : Children Ctx) (p : Ctx) : List Ctx := (children p).getD []

/-- What is registered under a context are some of its children, each once. -/
structure Kept (t : Contexts Ctx) (children : Children Ctx) : Prop where
  nodup : ∀ p, (children.of p).Nodup
  parent : ∀ {p e}, e ∈ children.of p → t.parent e = some p

/-- A context is registered with its parent, if it has one. -/
def Registered (t : Contexts Ctx) (children : Children Ctx) (e : Ctx) : Prop :=
  ∀ p, t.parent e = some p → e ∈ children.of p

/-- Every context with an entry is registered with its parent. -/
def Closed (t : Contexts Ctx) (children : Children Ctx) : Prop :=
  ∀ p, (children p).isSome → Registered t children p

lemma isSome_of_mem (member : e ∈ children.of p) : (children p).isSome := by
  rw [Children.of] at member
  cases entry : children p with
  | none =>
    rw [entry] at member
    cases member
  | some l => rfl

lemma Closed.above (closed : Closed t children) (below : t.Below e p) (entry : (children p).isSome) :
    Registered t children e := by
  induction below with
  | self => exact closed _ entry
  | step parent _ _ ih => exact ih (isSome_of_mem (closed _ entry _ parent))

section
variable [DecidableEq Ctx]

lemma of_update (l : List Ctx) (q : Ctx) :
    Children.of (update children p (some l)) q = if q = p then l else children.of q := by
  rw [Children.of, update_apply]
  split <;> rfl

lemma isSome_update (l : List Ctx) (q : Ctx) :
    (update children p (some l) q).isSome ↔ q = p ∨ (children q).isSome := by
  rw [update_apply]
  split <;> simp_all

lemma Kept.update (kept : Kept t children) {l : List Ctx} (nodup : l.Nodup)
    (parent : ∀ e ∈ l, t.parent e = some p) : Kept t (update children p (some l)) := by
  constructor
  · intro q
    rw [of_update]
    split
    · exact nodup
    · exact kept.nodup q
  · intro q e member
    rw [of_update] at member
    split at member
    · rename_i same
      rw [same]
      exact parent e member
    · exact kept.parent member

/-- The map after a climb: what was registered, and the way from `c` to the root. -/
structure Climbed (t : Contexts Ctx) (c : Ctx) (before after : Children Ctx) (last : Ctx) : Prop where
  kept : Kept t after
  closed : Closed t after
  mem : ∀ {p e}, e ∈ after.of p ↔ e ∈ before.of p ∨ t.parent e = some p ∧ t.Below e c
  atRoot : t.parent last = none ∨ ∃ q, (before q).isSome ∧ t.depth q < t.depth c

lemma Climbed.of_root (kept : Kept t children) (none : t.parent c = none)
    (closed : ∀ q, q ≠ c → (children q).isSome → Registered t children q) : Climbed t c children children c where
  kept := kept
  closed := by
    intro q entry
    by_cases same : q = c
    · rintro p parent
      rw [same, none] at parent
      cases parent
    · exact closed q same entry
  mem := by
    intro p e
    constructor
    · exact .inl
    · rintro (member | ⟨parent, below⟩)
      · exact member
      · rw [ParentTree.below_of_parent_none none] at below
        rw [below, none] at parent
        cases parent
  atRoot := .inl none

variable {known : List Ctx}

lemma Registered.update (registered : Registered t children e) (more : children.of p ⊆ known) :
    Registered t (update children p (some known)) e := by
  intro q parent
  rw [of_update]
  split
  · rename_i same
    rw [same] at parent
    exact more (registered p parent)
  · exact registered q parent

lemma Climbed.of_known (kept : Kept t children) (parent : t.parent c = some p)
    (entry : children p = some known) (closed : ∀ q, q ≠ c → (children q).isSome → Registered t children q) :
    Climbed t c children (update children p (some (known.insert c))) c := by
  have of_p : children.of p = known := by rw [Children.of, entry, Option.getD_some]
  have nodup := kept.nodup p
  rw [of_p] at nodup
  have mem_p : c ∈ Children.of (update children p (some (known.insert c))) p := by
    rw [of_update, if_pos rfl]
    exact mem_insert_self
  have closed' : Closed t (update children p (some (known.insert c))) := by
    intro q entry'
    by_cases same : q = c
    · intro p' parent'
      rw [same, parent] at parent'
      rw [← Option.some.inj parent', same]
      exact mem_p
    · apply (closed q same _).update
      · rw [of_p]
        exact fun e member => mem_insert_of_mem member
      · rcases (isSome_update _ _).mp entry' with rfl | entry'
        · rw [entry]
          rfl
        · exact entry'
  refine ⟨kept.update nodup.insert ?_, closed', ?_, .inr ⟨p, by rw [entry]; rfl, ?_⟩⟩
  · intro e member
    rcases mem_insert_iff.mp member with rfl | member
    · exact parent
    · rw [← of_p] at member
      exact kept.parent member
  · intro q e
    constructor
    · intro member
      rw [of_update] at member
      split at member
      · rename_i same
        rw [same, of_p]
        rcases mem_insert_iff.mp member with rfl | member
        · exact .inr ⟨parent, .self⟩
        · exact .inl member
      · exact .inl member
    · rintro (member | ⟨parent', below⟩)
      · rw [of_update]
        split
        · rename_i same
          rw [same, of_p] at member
          exact mem_insert_of_mem member
        · exact member
      · rcases (ParentTree.below_of_parent_some parent).mp below with rfl | below
        · rw [parent] at parent'
          rw [← Option.some.inj parent']
          exact mem_p
        · exact closed'.above below (isSome_of_mem mem_p) q parent'
  · have depth := t.depth_parent parent
    omega

lemma Climbed.of_new {after : Children Ctx} {last : Ctx} (parent : t.parent c = some p) (entry : children p = none)
    (rest : Climbed t p (update children p (some [c])) after last) : Climbed t c children after last := by
  have of_p : children.of p = [] := by rw [Children.of, entry, Option.getD_none]
  refine ⟨rest.kept, rest.closed, ?_, ?_⟩
  · intro q e
    rw [rest.mem, of_update, ParentTree.below_of_parent_some parent]
    split
    · rename_i same
      rw [same, of_p, mem_singleton]
      constructor
      · rintro (rfl | ⟨parent', below⟩)
        · exact .inr ⟨parent, .inl rfl⟩
        · exact .inr ⟨parent', .inr below⟩
      · rintro (member | ⟨parent', rfl | below⟩)
        · cases member
        · exact .inl rfl
        · exact .inr ⟨parent', below⟩
    · rename_i other
      constructor
      · rintro (member | ⟨parent', below⟩)
        · exact .inl member
        · exact .inr ⟨parent', .inr below⟩
      · rintro (member | ⟨parent', rfl | below⟩)
        · exact .inl member
        · exact absurd (Option.some.inj (parent'.symm.trans parent)) other
        · exact .inr ⟨parent', below⟩
  · have depth := t.depth_parent parent
    rcases rest.atRoot with none | ⟨q, entry', above⟩
    · exact .inl none
    · have other : q ≠ p := by
        rintro rfl
        omega
      rcases (isSome_update _ _).mp entry' with same | entry'
      · exact absurd same other
      · exact .inr ⟨q, entry', by omega⟩

lemma climb_spec (kept : Kept t children)
    (closed : ∀ q, q ≠ c → (children q).isSome → Registered t children q) :
    Climbed t c children (climb t c children).1 (climb t c children).2 := by
  fun_induction climb t c children with
  | case1 c children none => exact .of_root kept none closed
  | case2 c children p parent known entry => exact .of_known kept parent entry closed
  | case3 c children p parent entry ih =>
    apply Climbed.of_new parent entry
    apply ih
    · apply kept.update (nodup_singleton c)
      intro e member
      rw [mem_singleton.mp member]
      exact parent
    · intro q other entry'
      have of_p : children.of p = [] := by rw [Children.of, entry, Option.getD_none]
      by_cases same : q = c
      · intro p' parent'
        rw [same, parent] at parent'
        rw [← Option.some.inj parent', same, of_update, if_pos rfl]
        exact mem_singleton_self c
      · rcases (isSome_update _ _).mp entry' with rfl | entry'
        · exact absurd rfl other
        · apply (closed q same entry').update
          rw [of_p]
          exact nil_subset _

/-- The loop over contexts with data: after `done`, exactly the ways from these to the root are registered. -/
structure Covered (t : Contexts Ctx) (done : List Ctx) (children : Children Ctx) (global : Option Ctx) : Prop where
  kept : Kept t children
  closed : Closed t children
  mem : ∀ {p e}, e ∈ children.of p ↔ t.parent e = some p ∧ ∃ d ∈ done, t.Below e d
  empty : global = none → done = [] ∧ ∀ q, children q = none
  root : ∀ g, global = some g → t.parent g = none

omit [DecidableEq Ctx] in
lemma covered_nil : Covered t [] (fun _ => none) none where
  kept := ⟨fun _ => nodup_nil, fun member => absurd member not_mem_nil⟩
  closed := by
    intro p entry
    cases entry
  mem := by simp [Children.of]
  empty := fun _ => ⟨rfl, fun _ => rfl⟩
  root := by simp

lemma Covered.climb {done : List Ctx} {global : Option Ctx} (covered : Covered t done children global) (c : Ctx) :
    Covered t (done ++ [c]) (climb t c children).1
      (if (t.parent (climb t c children).2).isNone then some (climb t c children).2 else global) := by
  have climbed := climb_spec covered.kept fun q (_ : q ≠ c) => covered.closed q
  refine ⟨climbed.kept, climbed.closed, ?_, ?_, ?_⟩
  · intro p e
    rw [climbed.mem, covered.mem]
    constructor
    · rintro (⟨parent, d, member, below⟩ | ⟨parent, below⟩)
      · exact ⟨parent, d, mem_append_left _ member, below⟩
      · exact ⟨parent, c, mem_append_right _ (mem_singleton_self c), below⟩
    · rintro ⟨parent, d, member, below⟩
      rcases mem_append.mp member with member | member
      · exact .inl ⟨parent, d, member, below⟩
      · rw [mem_singleton.mp member] at below
        exact .inr ⟨parent, below⟩
  · intro none
    split at none
    · cases none
    · rename_i notRoot
      obtain ⟨-, empty⟩ := covered.empty none
      rcases climbed.atRoot with atRoot | ⟨q, entry, -⟩
      · rw [atRoot] at notRoot
        exact absurd rfl notRoot
      · rw [empty q] at entry
        cases entry
  · intro g found
    split at found
    · rename_i isRoot
      rw [← Option.some.inj found]
      exact Option.isNone_iff_eq_none.mp isRoot
    · exact covered.root g found

lemma criticalSubtree_covered (contexts : List Ctx) :
    Covered t contexts (criticalSubtree t contexts).1 (criticalSubtree t contexts).2 := by
  induction contexts using reverseRecOn with
  | nil => exact covered_nil
  | append_singleton done c ih =>
    have next := ih.climb c
    rw [criticalSubtree] at next ⊢
    rw [foldl_append]
    exact next

end

end HpcToolkit.Prof
