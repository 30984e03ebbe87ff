import HpcToolkit.Packed.ReadBack
import HpcToolkit.Packed.Contexts

/-! # Reading back packed contexts

The source makes the contexts in the order in which the sink walks over them, each below the context made
for its parent. The loop of the source is followed along the tree: reading a packed context leaves the
stack as it was and adds the contexts of its subtree.
-/

open List hiding pure_def
open Option (bind_eq_bind bind_eq_some_iff pure_def some_inj)

namespace HpcToolkit.Packed

open Lib Prof
open Context hiding node

variable {M : Type}

/-! ## The numbers of the contexts -/

mutual
/-- The contexts of a subtree, the first one with the number `next` and below `parent`. -/
def Context.numbered (parent next : ℕ) : Context M → Made M
  | .node scope children => (parent, scope) :: numberedOf next (next + 1) children

def numberedOf (parent next : ℕ) : List (Context M) → Made M
  | [] => []
  | c :: rest => c.numbered parent next ++ numberedOf parent (next + c.walk.length) rest
end

lemma Context.inductionOn {motive : Context M → Prop}
    (node : ∀ scope children, (∀ c ∈ children, motive c) → motive (.node scope children)) (c : Context M) :
    motive c := by
  refine @Context.rec M motive (fun children => ∀ c ∈ children, motive c) node ?_ ?_ c
  · intro c member
    cases member
  · intro head tail first rest c member
    rcases mem_cons.mp member with rfl | later
    · exact first
    · exact rest c later

variable {children : List (Context M)}

lemma mem_walkOf {d : Context M} : d ∈ walkOf children ↔ ∃ c ∈ children, d ∈ c.walk := by
  induction children with
  | nil => simp [walkOf]
  | cons c rest hypothesis => simp [walkOf, hypothesis]

lemma Context.mem_walk_self (c : Context M) : c ∈ c.walk := by
  cases c
  exact mem_cons_self

lemma length_numberedOf_of
    (each : ∀ c ∈ children, ∀ parent next, (c.numbered parent next).length = c.walk.length) (parent next : ℕ) :
    (numberedOf parent next children).length = (walkOf children).length := by
  induction children generalizing next with
  | nil => rfl
  | cons c rest hypothesis =>
    rw [numberedOf, walkOf, length_append, length_append, each c (.head _),
      hypothesis fun d member => each d (.tail _ member)]

lemma Context.length_numbered (c : Context M) (parent next : ℕ) :
    (c.numbered parent next).length = c.walk.length := by
  induction c using Context.inductionOn generalizing parent next with
  | node scope children hypothesis =>
    rw [numbered, walk, length_cons, length_cons, length_numberedOf_of hypothesis]

/-- The parents within a numbered subtree are the context above it and the contexts in it. -/
def Within (parent next size : ℕ) (scopes : List (NestedScope M)) (e : ℕ × NestedScope M) : Prop :=
  (e.1 = parent ∧ e.2 ∈ scopes) ∨ (next ≤ e.1 ∧ e.1 < next + size)

variable {parent next : ℕ} {e : ℕ × NestedScope M}

lemma mem_numberedOf_of
    (each : ∀ c ∈ children, ∀ parent next, ∀ e ∈ c.numbered parent next, Within parent next c.walk.length [c.scope] e)
    (member : e ∈ numberedOf parent next children) :
    Within parent next (walkOf children).length (children.map scope) e := by
  induction children generalizing next with
  | nil => cases member
  | cons c rest hypothesis =>
    rw [walkOf, length_append, map_cons]
    rw [numberedOf, mem_append] at member
    rcases member with first | later
    · rcases each c (.head _) parent next e first with ⟨above, scope⟩ | ⟨low, high⟩
      · rw [mem_singleton] at scope
        exact .inl ⟨above, scope ▸ mem_cons_self⟩
      · exact .inr ⟨low, by omega⟩
    · rcases hypothesis (fun d inside => each d (.tail _ inside)) later with ⟨above, scope⟩ | ⟨low, high⟩
      · exact .inl ⟨above, mem_cons_of_mem _ scope⟩
      · exact .inr ⟨by omega, by omega⟩

variable {c : Context M}

lemma Context.mem_numbered (member : e ∈ c.numbered parent next) : Within parent next c.walk.length [c.scope] e := by
  induction c using Context.inductionOn generalizing parent next e with
  | node scope children hypothesis =>
    rw [numbered, mem_cons] at member
    rcases member with rfl | below
    · exact .inl ⟨rfl, mem_singleton_self _⟩
    · have inside := mem_numberedOf_of (fun c isChild p n e => hypothesis c isChild) below
      rw [walk, length_cons]
      rcases inside with ⟨above, -⟩ | ⟨low, high⟩
      · exact .inr ⟨by omega, by omega⟩
      · exact .inr ⟨by omega, by omega⟩

lemma mem_numberedOf (member : e ∈ numberedOf parent next children) :
    Within parent next (walkOf children).length (children.map scope) e :=
  mem_numberedOf_of (fun _ _ _ _ _ => mem_numbered) member

/-! ## The loop of the source -/

/-- The contexts below the root that the packed form represents. -/
structure Context.Plain (c : Context M) : Prop where
  distinct : ∀ d ∈ c.walk, (d.children.map scope).Nodup
  inner : ∀ d ∈ c.walk, d.scope.relation ≠ .global ∧ d.scope.flat ≠ .global
  supported : ∀ d ∈ c.walk, d.scope.flat.Supported

lemma Context.Plain.child {scope : NestedScope M}
    (plain : (Context.node scope children).Plain) (member : c ∈ children) : c.Plain where
  distinct d inside := plain.distinct d (mem_cons_of_mem _ (mem_walkOf.mpr ⟨c, member, inside⟩))
  inner d inside := plain.inner d (mem_cons_of_mem _ (mem_walkOf.mpr ⟨c, member, inside⟩))
  supported d inside := plain.supported d (mem_cons_of_mem _ (mem_walkOf.mpr ⟨c, member, inside⟩))

/-- The stack and the parents are contexts that were made. -/
structure Unpacking.Sound (s : Unpacking M) : Prop where
  parent : s.parent ≤ s.made.length
  made : ∀ e ∈ s.made, e.1 ≤ s.made.length

variable {s : Unpacking M}

lemma Unpacking.Sound.numbered (sound : s.Sound) (c : Context M) :
    Unpacking.Sound ⟨s.tip, s.made ++ c.numbered s.parent (s.made.length + 1)⟩ where
  parent := by
    have bound := sound.parent
    rw [Unpacking.parent] at bound ⊢
    simp only [length_append]
    omega
  made e member := by
    have above := sound.parent
    simp only [length_append, c.length_numbered]
    rcases mem_append.mp member with old | new
    · have bound := sound.made e old
      omega
    · rcases mem_numbered new with ⟨parent, -⟩ | ⟨-, high⟩
      · omega
      · omega

lemma Unpacking.Sound.push (sound : s.Sound) (scope : NestedScope M) :
    Unpacking.Sound ⟨(s.made.length + 1) :: s.tip, s.made ++ [(s.parent, scope)]⟩ where
  parent := by simp [Unpacking.parent]
  made e member := by
    have above := sound.parent
    rw [length_append, length_singleton]
    rcases mem_append.mp member with old | new
    · have bound := sound.made e old
      omega
    · rw [mem_singleton.mp new]
      omega

section
variable [DecidableEq M]

variable {scope : Scope M}

lemma Unpacking.context_of_fresh (fresh : (s.parent, ⟨.call, scope⟩) ∉ s.made) :
    s.context scope = ⟨(s.made.length + 1) :: s.tip, s.made ++ [(s.parent, ⟨.call, scope⟩)]⟩ := by
  rw [context, Made.ensure, idxOf?_eq_none_iff.mpr fresh]

variable {modules : List M}

lemma reads_point (size : modules.length < 2 ^ 64) {module : M} {id : UInt64}
    (found : moduleIDs modules module = some id) (offset : UInt64) :
    Reads (unpackPoint modules) (packU64 id ++ packU64 offset) (.point module offset) := by
  refine (reads_u64 id).bind ((reads_u64 offset).finish ?_)
  rw [moduleIDs, Option.map_eq_some_iff] at found
  obtain ⟨index, position, rfl⟩ := found
  obtain ⟨bound, there, -⟩ := idxOf?_eq_some_iff.mp position
  rw [toNat_ofNat_size (bound.trans size), getElem?_eq_getElem bound, there]
  exact reads_pure _

lemma reads_round (size : modules.length < 2 ^ 64)
    {enc : List UInt8} (packed : packScope modules scope = some enc) (supported : scope.Supported)
    (inner : scope ≠ .global) (s : Unpacking M) :
    ∃ data, enc = packU64 scope.type ++ data ∧
      Reads (unpackRound modules s scope.type) data (some (s.context scope)) := by
  cases scope with
  | unknown =>
    cases packed
    exact ⟨[], (append_nil _).symm, reads_pure _⟩
  | global => exact absurd rfl inner
  | point module offset =>
    simp only [packScope, bind_eq_bind, bind_eq_some_iff, pure_def, some_inj] at packed
    obtain ⟨id, found, rfl⟩ := packed
    exact ⟨_, rfl, (reads_point size found offset).map fun scope => some (s.context scope)⟩
  | placeholder value =>
    cases packed
    exact ⟨_, rfl, (reads_u64 value).map fun value => some (s.context (.placeholder value))⟩
  | function | lexicalLoop | binaryLoop | line => cases supported

variable {rounds : ℕ} {result : Made M}

lemma reads_loop_scope (size : modules.length < 2 ^ 64) {enc rest : List UInt8}
    (packed : packScope modules scope = some enc) (supported : scope.Supported) (inner : scope ≠ .global)
        (next : Reads (unpackLoop modules rounds (s.context scope)) rest result) :
    Reads (unpackLoop modules (rounds + 1) s) (enc ++ rest) result := by
  obtain ⟨data, rfl, round⟩ := reads_round size packed supported inner s
  rw [append_assoc]
  exact (reads_u64 _).bind (round.bind next)

lemma reads_loop_pop {rest : List UInt8} {top : ℕ} {tip : List ℕ} {made : Made M}
    (next : Reads (unpackLoop modules rounds ⟨tip, made⟩) rest result) :
    Reads (unpackLoop modules (rounds + 1) ⟨top :: tip, made⟩) (packU64 magic ++ rest) result := by
  have round : Reads (unpackRound modules ⟨top :: tip, made⟩ magic) [] (some ⟨tip, made⟩) := by
    rw [unpackRound, if_pos rfl]
    exact reads_pure _
  exact (reads_u64 _).bind (round.bind next)

/-- Reading a packed context adds its subtree below the top of the stack. -/
def Context.Runs (modules : List M) (c : Context M) : Prop :=
  ∀ (s : Unpacking M) (enc rest : List UInt8) (rounds : ℕ) (result : Made M),
    packContext modules c = some enc → c.Plain → s.Sound → (s.parent, c.scope) ∉ s.made →
    Reads (unpackLoop modules rounds ⟨s.tip, s.made ++ c.numbered s.parent (s.made.length + 1)⟩) rest result →
    Reads (unpackLoop modules (rounds + 2 * c.walk.length) s) (enc ++ rest) result

lemma runs_children (each : ∀ c ∈ children, c.Runs modules ∧ c.Plain) (distinct : (children.map Context.scope).Nodup)
    {enc rest : List UInt8}
    (packed : packChildren modules children = some enc) (sound : s.Sound)
    (fresh : ∀ c ∈ children, (s.parent, c.scope) ∉ s.made)
    (next : Reads (unpackLoop modules rounds ⟨s.tip, s.made ++ numberedOf s.parent (s.made.length + 1) children⟩)
      rest result) :
    Reads (unpackLoop modules (rounds + 2 * (walkOf children).length) s) (enc ++ rest) result := by
  induction children generalizing s enc with
  | nil =>
    cases packed
    rwa [numberedOf, append_nil] at next
  | cons c siblings hypothesis =>
    simp only [packChildren, bind_eq_bind, bind_eq_some_iff, pure_def, some_inj] at packed
    obtain ⟨first, packedFirst, later, packedLater, rfl⟩ := packed
    obtain ⟨runs, plain⟩ := each c (.head _)
    obtain ⟨other, distinct⟩ := nodup_cons.mp distinct
    rw [walkOf, length_append, append_assoc, show rounds + 2 * (c.walk.length + (walkOf siblings).length) =
      rounds + 2 * (walkOf siblings).length + 2 * c.walk.length by ring]
    refine runs s first _ _ result packedFirst plain sound (fresh c (.head _)) ?_
    refine hypothesis (fun d member => each d (.tail _ member)) distinct packedLater (sound.numbered c) ?_ ?_
    · intro d member made
      rcases mem_append.mp made with old | new
      · exact fresh d (.tail _ member) old
      · have above := sound.parent
        rcases mem_numbered new with ⟨-, scope⟩ | ⟨low, -⟩
        · rw [mem_singleton] at scope
          exact other (scope ▸ mem_map_of_mem member)
        · change s.made.length + 1 ≤ s.parent at low
          omega
    · rw [numberedOf, ← append_assoc] at next
      change Reads (unpackLoop modules rounds ⟨s.tip, s.made ++ c.numbered s.parent (s.made.length + 1) ++
        numberedOf s.parent ((s.made ++ c.numbered s.parent (s.made.length + 1)).length + 1) siblings⟩) rest result
      rw [length_append, c.length_numbered]
      rwa [Nat.add_right_comm] at next

lemma Context.runs (size : modules.length < 2 ^ 64) (c : Context M) : c.Runs modules := by
  induction c using Context.inductionOn with
  | node scope children hypothesis =>
    intro s enc rest rounds result packed plain sound fresh next
    have isSelf := mem_walk_self (Context.node scope children)
    obtain ⟨notGlobal, inner⟩ := plain.inner _ isSelf
    rw [packContext] at packed
    split at packed
    · cases packed
    · rename_i relation
      simp only [bind_eq_bind, bind_eq_some_iff, pure_def, some_inj] at packed
      obtain ⟨scopeEnc, packedScope, childrenEnc, packedChildren, rfl⟩ := packed
      have isCall : scope = ⟨.call, scope.flat⟩ := by
        have call : scope.relation = .call := by
          by_contra other
          exact relation ⟨notGlobal, other⟩
        rw [← call]
      change (s.parent, scope) ∉ s.made at fresh
      rw [isCall] at fresh
      rw [walk, length_cons, append_assoc, append_assoc,
        show rounds + 2 * ((walkOf children).length + 1) = rounds + 1 + 2 * (walkOf children).length + 1 by ring]
      refine reads_loop_scope size packedScope (plain.supported _ isSelf) inner ?_
      rw [Unpacking.context_of_fresh fresh, ← isCall]
      refine runs_children (fun c member => ⟨hypothesis c member, plain.child member⟩) (plain.distinct _ isSelf)
        packedChildren (sound.push scope) ?_ ?_
      · intro c member made
        have above := sound.parent
        rcases mem_append.mp made with old | new
        · have bound := sound.made _ old
          simp [Unpacking.parent] at bound
        · rw [mem_singleton, Prod.mk.injEq] at new
          simp [Unpacking.parent] at new above
          omega
      · refine reads_loop_pop ?_
        rw [numbered] at next
        simpa [Unpacking.parent] using next

end

/-! ## The tree that was made -/

def Made.scope (made : Made M) : ℕ → Option (NestedScope M)
  | 0 => some ⟨.global, .global⟩
  | n + 1 => made[n]?.map Prod.snd

/-- The children of a context among those made from the number `next` on. -/
def Made.childrenFrom (id : ℕ) : ℕ → Made M → List ℕ
  | _, [] => []
  | next, e :: rest => if e.1 = id then next :: childrenFrom id (next + 1) rest else childrenFrom id (next + 1) rest

mutual
/-- The context with the number `id` is the root of a copy of a tree. -/
def Context.IsAt (made : Made M) (id : ℕ) : Context M → Prop
  | .node scope children => made.scope id = some scope ∧ AreAt made (made.childrenFrom id 1) children

def AreAt (made : Made M) : List ℕ → List (Context M) → Prop
  | [], [] => True
  | id :: ids, c :: rest => c.IsAt made id ∧ AreAt made ids rest
  | _, _ => False
end

lemma Made.childrenFrom_append (id next : ℕ) (made more : Made M) :
    childrenFrom id next (made ++ more) = childrenFrom id next made ++ childrenFrom id (next + made.length) more := by
  induction made generalizing next with
  | nil => rfl
  | cons e rest hypothesis =>
    simp only [cons_append, childrenFrom, hypothesis, length_cons]
    rw [show next + 1 + rest.length = next + (rest.length + 1) by ring]
    split <;> rfl

variable {made : Made M}

lemma Made.childrenFrom_eq_nil {id next : ℕ} (none : ∀ e ∈ made, e.1 ≠ id) :
    childrenFrom id next made = [] := by
  induction made generalizing next with
  | nil => rfl
  | cons e rest hypothesis =>
    rw [childrenFrom, if_neg (none e (.head _)), hypothesis fun d member => none d (.tail _ member)]

/-- The numbers of the roots of some subtrees in a row. -/
def starts : ℕ → List (Context M) → List ℕ
  | _, [] => []
  | next, c :: rest => next :: starts (next + c.walk.length) rest

lemma Made.childrenFrom_numbered (above : parent < next) (c : Context M) :
    childrenFrom parent next (c.numbered parent next) = [next] := by
  cases c with
  | node scope children =>
    rw [numbered, childrenFrom, if_pos rfl, childrenFrom_eq_nil]
    intro e member
    rcases mem_numberedOf member with ⟨same, -⟩ | ⟨low, -⟩
    · omega
    · omega

lemma Made.childrenFrom_numberedOf (above : parent < next) (children : List (Context M)) :
    childrenFrom parent next (numberedOf parent next children) = starts next children := by
  induction children generalizing next with
  | nil => rfl
  | cons c rest hypothesis =>
    rw [numberedOf, childrenFrom_append, childrenFrom_numbered above, c.length_numbered, hypothesis (by omega)]
    rfl

/-- No context of `made` is a child of one with a number from `low` up to `high`. -/
def Outside (made : Made M) (low high : ℕ) : Prop := ∀ e ∈ made, e.1 < low ∨ high ≤ e.1

lemma areAt_of_numberedOf (each : ∀ c ∈ children, ∀ before after parent next, made = before ++ (c.numbered parent next ++ after) →
      before.length + 1 = next → parent < next → Outside before next (next + c.walk.length) →
      Outside after next (next + c.walk.length) → c.IsAt made next)
    {before after : Made M} (whole : made = before ++ (numberedOf parent next children ++ after))
    (count : before.length + 1 = next) (above : parent < next)
    (front : Outside before next (next + (walkOf children).length))
    (back : Outside after next (next + (walkOf children).length)) : AreAt made (starts next children) children := by
  induction children generalizing before next with
  | nil => trivial
  | cons c rest hypothesis =>
    rw [walkOf, length_append] at front back
    have tail : Outside (numberedOf parent (next + c.walk.length) rest) next (next + c.walk.length) := by
      intro e member
      rcases mem_numberedOf member with ⟨same, -⟩ | ⟨low, -⟩
      · exact .inl (by omega)
      · exact .inr low
    have head : Outside (c.numbered parent next) (next + c.walk.length)
        (next + c.walk.length + (walkOf rest).length) := by
      intro e member
      rcases mem_numbered member with ⟨same, -⟩ | ⟨-, high⟩
      · exact .inl (by omega)
      · exact .inl high
    rw [numberedOf, append_assoc] at whole
    refine ⟨each c (.head _) before _ parent next whole count above ?_ ?_, ?_⟩
    · intro e member
      have outside := front e member
      omega
    · intro e member
      rcases mem_append.mp member with sibling | later
      · exact tail e sibling
      · have outside := back e later
        omega
    · have shifted : made = (before ++ c.numbered parent next) ++
          (numberedOf parent (next + c.walk.length) rest ++ after) := by
        rw [append_assoc]
        exact whole
      refine hypothesis (fun d member => each d (.tail _ member)) shifted ?_ ?_ ?_ ?_
      · rw [length_append, c.length_numbered]
        omega
      · omega
      · intro e member
        rcases mem_append.mp member with earlier | inside
        · have outside := front e earlier
          omega
        · exact head e inside
      · intro e member
        have outside := back e member
        omega

lemma Context.isAt_of_numbered (c : Context M) :
    ∀ before after parent next, made = before ++ (c.numbered parent next ++ after) → before.length + 1 = next →
      parent < next → Outside before next (next + c.walk.length) → Outside after next (next + c.walk.length) →
      c.IsAt made next := by
  induction c using Context.inductionOn with
  | node scope children hypothesis =>
    intro before after parent next whole count above front back
    rw [walk, length_cons] at front back
    have split : made = (before ++ [(parent, scope)]) ++ (numberedOf next (next + 1) children ++ after) := by
      rw [whole, numbered]
      simp
    have scopeOf : made.scope next = some scope := by
      rw [← count, whole, Made.scope, numbered]
      simp
    have frontNone : Made.childrenFrom next 1 (before ++ [(parent, scope)]) = [] := by
      refine Made.childrenFrom_eq_nil fun e member => ?_
      rcases mem_append.mp member with earlier | self
      · have outside := front e earlier
        omega
      · rw [mem_singleton.mp self]
        omega
    have backNone : Made.childrenFrom next (next + 1 + (numberedOf next (next + 1) children).length) after = [] := by
      refine Made.childrenFrom_eq_nil fun e member => ?_
      have outside := back e member
      omega
    have ids : made.childrenFrom next 1 = starts (next + 1) children := by
      rw [split, Made.childrenFrom_append, frontNone, length_append, length_singleton, count,
        Nat.add_comm 1 next, Made.childrenFrom_append, backNone, append_nil,
        Made.childrenFrom_numberedOf (Nat.lt_succ_self next)]
      rfl
    refine ⟨scopeOf, ?_⟩
    rw [ids]
    refine areAt_of_numberedOf hypothesis split ?_ ?_ ?_ ?_
    · rw [length_append, length_singleton]
      omega
    · omega
    · intro e member
      rcases mem_append.mp member with earlier | self
      · have outside := front e earlier
        omega
      · rw [mem_singleton.mp self]
        omega
    · intro e member
      have outside := back e member
      omega

lemma ContextTree.isAt_root (tree : ContextTree M) : tree.root.IsAt (numberedOf 0 1 tree.root.children) 0 := by
  have isRoot := tree.global
  cases root : tree.root with
  | node scope children =>
    rw [root] at isRoot
    cases isRoot
    refine ⟨rfl, ?_⟩
    rw [Context.children, Made.childrenFrom_numberedOf Nat.zero_lt_one]
    have whole : numberedOf 0 1 children = [] ++ (numberedOf 0 1 children ++ []) := by simp
    refine areAt_of_numberedOf (fun c _ => c.isAt_of_numbered) whole rfl Nat.zero_lt_one ?_ ?_
    · intro e member
      cases member
    · intro e member
      cases member

/-! ## The whole block -/

lemma ContextTree.walk_root (tree : ContextTree M) : tree.root.walk = tree.root :: walkOf tree.root.children := by
  cases tree.root
  rfl

variable {tree : ContextTree M}

lemma ContextTree.plain (supported : ∀ c ∈ tree.root.walk, c.scope.flat.Supported)
    (member : c ∈ tree.root.children) : c.Plain := by
  have below : ∀ d ∈ c.walk, d ∈ walkOf tree.root.children := fun d inside => mem_walkOf.mpr ⟨c, member, inside⟩
  have inTree : ∀ d ∈ c.walk, d ∈ tree.root.walk := by
    intro d inside
    rw [tree.walk_root]
    exact mem_cons_of_mem _ (below d inside)
  exact ⟨fun d inside => tree.distinct d (inTree d inside), fun d inside => tree.inner d (below d inside),
    fun d inside => supported d (inTree d inside)⟩

section
variable [DecidableEq M]

variable {enc : List UInt8} {modules : List M}

lemma length_packChildren_of (each : ∀ c ∈ children, ∀ enc, packContext modules c = some enc → 2 * c.walk.length ≤ enc.length)
    (packed : packChildren modules children = some enc) :
    2 * (walkOf children).length ≤ enc.length := by
  induction children generalizing enc with
  | nil => exact Nat.zero_le _
  | cons c rest hypothesis =>
    simp only [packChildren, bind_eq_bind, bind_eq_some_iff, pure_def, some_inj] at packed
    obtain ⟨first, packedFirst, later, packedLater, rfl⟩ := packed
    have own := each c (.head _) first packedFirst
    have others := hypothesis (fun d member => each d (.tail _ member)) packedLater
    rw [walkOf, length_append, length_append]
    omega

lemma length_packContext (packed : packContext modules c = some enc) : 2 * c.walk.length ≤ enc.length := by
  induction c using Context.inductionOn generalizing enc with
  | node scope children hypothesis =>
    rw [packContext] at packed
    split at packed
    · cases packed
    · simp only [bind_eq_bind, bind_eq_some_iff, pure_def, some_inj] at packed
      obtain ⟨scopeEnc, -, childrenEnc, packedChildren, rfl⟩ := packed
      have below := length_packChildren_of (fun c member enc packed => hypothesis c member packed) packedChildren
      have sentinel : (packU64 magic).length = 8 := length_toLE 8 _
      rw [walk, length_cons, length_append, length_append, sentinel]
      omega

lemma reads_tree (size : modules.length < 2 ^ 64)
    (plain : ∀ c ∈ children, c.Plain) (distinct : (children.map scope).Nodup)
    (packed : packChildren modules children = some enc) :
    Reads (unpackTree modules) (enc ++ packU64 magic) (numberedOf 0 1 children) := by
  intro bytes off here
  have room := here.bound
  have short := length_packChildren_of (fun c _ enc => length_packContext) packed
  have sentinel : (packU64 magic).length = 8 := length_toLE 8 _
  rw [length_append, sentinel] at room
  obtain ⟨spare, rounds⟩ : ∃ spare, bytes.length = spare + 1 + 2 * (walkOf children).length :=
    ⟨bytes.length - 1 - 2 * (walkOf children).length, by omega⟩
  have stop : Reads (unpackRound modules ⟨[], numberedOf 0 1 children⟩ magic) [] none := by
    rw [unpackRound, if_pos rfl]
    exact reads_pure _
  have last : Reads (unpackLoop modules (spare + 1) ⟨[], numberedOf 0 1 children⟩) (packU64 magic)
      (numberedOf 0 1 children) := (reads_u64 magic).finish (stop.finish (reads_pure _))
  have whole := runs_children (s := ⟨[], []⟩) (fun c member => ⟨c.runs size, plain c member⟩) distinct packed
    ⟨Nat.le_refl 0, fun e member => by cases member⟩ (fun c _ made => by cases made) last
  rw [← rounds] at whole
  exact whole bytes off here

lemma reads_flowGraph (size : modules.length < 2 ^ 64) {s : Scope M}
    (packed : packFlowGraph modules s = some enc) : Reads (unpackFlowGraph modules) enc s := by
  cases s with
  | point module offset =>
    simp only [packFlowGraph, packScope, bind_eq_bind, bind_eq_some_iff, pure_def,
      some_inj] at packed
    obtain ⟨id, found, rfl⟩ := packed
    exact (reads_u64 2).bind (reads_point size found offset)
  | unknown | global | function | lexicalLoop | binaryLoop | line | placeholder => cases packed

lemma ContextTree.packContext_root (packed : packContext modules tree.root = some enc) :
    ∃ childrenEnc, packChildren modules tree.root.children = some childrenEnc ∧
      enc = packU64 1 ++ (childrenEnc ++ packU64 magic) := by
  have isRoot := tree.global
  cases root : tree.root with
  | node scope children =>
    rw [root] at isRoot packed
    cases isRoot
    simp only [packContext, packScope, ne_eq, not_true_eq_false, false_and, if_false, bind_eq_bind,
      Option.bind_some, bind_eq_some_iff, pure_def, some_inj] at packed
    obtain ⟨childrenEnc, packedChildren, rfl⟩ := packed
    exact ⟨childrenEnc, packedChildren, rfl⟩

/-- Unpacking rebuilds the tree, with the contexts made in the order of the walk. -/
theorem packed_contexts_read_back {modules : List M} {tree : ContextTree M} {contextFlowGraphs : List (Scope M)}
    {bytes : List UInt8} (size : modules.length < 2 ^ 64) (graphs : contextFlowGraphs.length < 2 ^ 64)
    (supported : ∀ c ∈ tree.root.walk, c.scope.flat.Supported)
    (packed : packContexts modules tree contextFlowGraphs = some bytes) :
    ∃ made, Reads (unpackContexts modules) bytes (made, contextFlowGraphs) ∧
      made = numberedOf 0 1 tree.root.children ∧ tree.root.IsAt made 0 := by
  refine ⟨_, ?_, rfl, tree.isAt_root⟩
  simp only [packContexts, bind_eq_bind, bind_eq_some_iff, pure_def, some_inj] at packed
  obtain ⟨treeEnc, packedTree, graphsEnc, packedGraphs, rfl⟩ := packed
  obtain ⟨childrenEnc, packedChildren, rfl⟩ := tree.packContext_root packedTree
  have distinct := tree.distinct tree.root tree.root.mem_walk_self
  have treeRead := reads_tree size (fun c => ContextTree.plain supported) distinct packedChildren
  rw [append_assoc]
  refine (reads_u64 1).bind ?_
  rw [if_pos rfl]
  refine treeRead.bind ((reads_u64 _).bind ?_)
  rw [toNat_ofNat_size graphs]
  have graphsRead := reads_packAll (f := id) packedGraphs fun s _ enc packedGraph _ => reads_flowGraph size packedGraph
  rw [map_id] at graphsRead
  exact graphsRead.finish (reads_pure _)

end

/-- A call of a point, two placeholders near the magic number and an unknown context behind a deeper one. -/
def smallTree : ContextTree ℕ where
  root := .node ⟨.global, .global⟩ [
    .node ⟨.call, .point 7 0x10⟩ [.node ⟨.call, .placeholder magic⟩ [.node ⟨.call, .unknown⟩ []],
      .node ⟨.call, .placeholder (magic + 1)⟩ []],
    .node ⟨.call, .unknown⟩ []]
  global := rfl
  distinct := by simp [Context.walk, walkOf, Context.children, Context.scope, magic]
  inner := by simp [Context.walk, walkOf, Context.children, Context.scope]

theorem smallTree_read_back :
    ∃ bytes made, packContexts [3, 7] smallTree [.point 3 0x20] = some bytes ∧
      Reads (unpackContexts [3, 7]) bytes (made, [.point 3 0x20]) ∧
      made = numberedOf 0 1 smallTree.root.children ∧ smallTree.root.IsAt made 0 := by
  have supported : ∀ c ∈ smallTree.root.walk, c.scope.flat.Supported := by
    simp [smallTree, walk, walkOf, scope, Scope.Supported]
  obtain ⟨bytes, packed⟩ : ∃ bytes, packContexts [3, 7] smallTree [.point 3 0x20] = some bytes := ⟨_, rfl⟩
  obtain ⟨made, result⟩ := packed_contexts_read_back (by decide) (by decide) supported packed
  exact ⟨bytes, made, packed, result⟩

end HpcToolkit.Packed
