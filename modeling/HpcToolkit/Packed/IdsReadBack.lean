import HpcToolkit.Packed.Ids

/-! # Identifying by packed identifiers

The maps that the unpacker loads hold, for every packed context, the nonce that was found for it and the ids
of its children by hash. Distinct hashes make every child found again, whatever the order of the children
and whatever other contexts there are.
-/

open Function
open List hiding pure_def
open Option (bind_eq_bind bind_eq_some_iff pure_def some_inj)

namespace HpcToolkit.Packed

open Lib

/-! ## Distinct hashes -/

section
variable {S : Type} {hash : S → UInt8 → UInt64}

lemma pairwise_lt_of_isUnique {children : List (UInt64 × UInt32)} (sorted : children.Pairwise fun a b => a.1 ≤ b.1)
    (unique : isUnique children = true) : children.Pairwise fun a b => a.1 < b.1 := by
  induction children with
  | nil => exact .nil
  | cons a rest hypothesis =>
    obtain ⟨first, later⟩ := pairwise_cons.mp sorted
    cases rest with
    | nil => exact pairwise_singleton _ _
    | cons b rest =>
      rw [isUnique, Bool.and_eq_true, bne_iff_ne] at unique
      refine pairwise_cons.mpr ⟨fun c member => ?_, hypothesis later unique.2⟩
      have below : a.1 < b.1 := UInt64.lt_of_le_of_ne (first b (.head _)) unique.1
      rcases mem_cons.mp member with rfl | further
      · exact below
      · exact UInt64.lt_of_lt_of_le below ((pairwise_cons.mp later).1 c further)

lemma pairwise_hashChildren (nonce : UInt8) (children : List (IdTree S)) :
    (hashChildren hash nonce children).Pairwise fun a b => a.1 ≤ b.1 := by
  have sorted := @pairwise_mergeSort _ (fun a b : UInt64 × UInt32 => decide (a.1 ≤ b.1))
    (fun a b c first second => by simpa using UInt64.le_trans (of_decide_eq_true first) (of_decide_eq_true second))
    (fun a b => by simpa using UInt64.le_total a.1 b.1) (children.map fun c => (hash c.scope nonce, c.id))
  exact sorted.imp of_decide_eq_true

variable {c : IdTree S}

lemma mem_hashChildren {nonce : UInt8} {children : List (IdTree S)} (member : c ∈ children) :
    (hash c.scope nonce, c.id) ∈ hashChildren hash nonce children :=
  (mergeSort_perm _ _).mem_iff.mpr (mem_map_of_mem member)

variable {e : Entry}

section
variable (entry : entryOf hash c = some e)
include entry

lemma nodup_of_entryOf :
    (e.children.map Prod.fst).Nodup := by
  simp only [entryOf, bind_eq_bind, bind_eq_some_iff, pure_def, some_inj] at entry
  obtain ⟨nonce, found, rfl⟩ := entry
  have unique := find?_some found
  have increasing := pairwise_lt_of_isUnique (pairwise_hashChildren nonce c.children) unique
  exact pairwise_map.mpr (increasing.imp fun below => UInt64.ne_of_lt below)

lemma entryOf_eq :
    e.pid = c.id ∧ e.children = hashChildren hash e.nonce c.children := by
  simp only [entryOf, bind_eq_bind, bind_eq_some_iff, pure_def, some_inj] at entry
  obtain ⟨nonce, -, rfl⟩ := entry
  exact ⟨rfl, rfl⟩

lemma length_children_of_entryOf :
    e.children.length = c.children.length := by
  rw [(entryOf_eq entry).2, hashChildren, length_mergeSort, length_map]

lemma nodup_scopes_of_entryOf :
    (c.children.map IdTree.scope).Nodup := by
  have distinct := nodup_of_entryOf entry
  rw [(entryOf_eq entry).2] at distinct
  have order := (mergeSort_perm (c.children.map fun c => (hash c.scope e.nonce, c.id))
    fun a b => a.1 ≤ b.1).map Prod.fst
  have hashes := order.nodup_iff.mp distinct
  rw [map_map] at hashes
  refine List.Nodup.of_map (fun scope => hash scope e.nonce) ?_
  rwa [map_map]

end

end

/-! ## The maps -/

variable {key : UInt64} {ids : UInt64 → Option UInt32}

lemma setChildren_of_not_mem {children : List (UInt64 × UInt32)}
    (absent : key ∉ children.map Prod.fst) : setChildren ids children key = ids key := by
  induction children generalizing ids with
  | nil => rfl
  | cons child rest hypothesis =>
    rw [map_cons, mem_cons, not_or] at absent
    rw [setChildren, foldl_cons]
    exact (hypothesis absent.2).trans (update_of_ne absent.1 _ _)

variable {id : UInt32}

lemma setChildren_of_mem {children : List (UInt64 × UInt32)}
    (distinct : (children.map Prod.fst).Nodup) (member : (key, id) ∈ children) :
    setChildren ids children key = some id := by
  induction children generalizing ids with
  | nil => cases member
  | cons child rest hypothesis =>
    obtain ⟨fresh, distinct⟩ := nodup_cons.mp distinct
    rcases mem_cons.mp member with rfl | later
    · exact (setChildren_of_not_mem fresh).trans (update_self ..)
    · exact hypothesis distinct later

variable {entries : List Entry} {idmap : UInt32 → Option (UInt8 × (UInt64 → Option UInt32))}

lemma foldl_setEntry_of_not_mem {pid : UInt32} (absent : pid ∉ entries.map Entry.pid) :
    entries.foldl setEntry idmap pid = idmap pid := by
  induction entries generalizing idmap with
  | nil => rfl
  | cons e rest hypothesis =>
    rw [map_cons, mem_cons, not_or] at absent
    exact (hypothesis absent.2).trans (update_of_ne absent.1 _ _)

variable {e : Entry}

lemma foldl_setEntry_of_mem (distinct : (entries.map Entry.pid).Nodup) (member : e ∈ entries) (unset : idmap e.pid = none) :
    entries.foldl setEntry idmap e.pid = some (e.nonce, setChildren (fun _ => none) e.children) := by
  induction entries generalizing idmap with
  | nil => cases member
  | cons first rest hypothesis =>
    obtain ⟨fresh, distinct⟩ := nodup_cons.mp distinct
    rcases mem_cons.mp member with rfl | later
    · rw [foldl_cons, foldl_setEntry_of_not_mem fresh, setEntry, update_self, unset]
      rfl
    · have other : e.pid ≠ first.pid := fun same => fresh (same ▸ mem_map_of_mem later)
      exact hypothesis distinct later ((update_of_ne other _ _).trans unset)

variable {metmap : Str → Option UInt32} {metrics : List (Str × UInt32)}

lemma foldl_insertMetric_of_isSome {name : Str}
    (set : metmap name = some id) : metrics.foldl insertMetric metmap name = some id := by
  induction metrics generalizing metmap with
  | nil => exact set
  | cons metric rest hypothesis =>
    refine hypothesis ?_
    rw [insertMetric]
    split
    · exact set
    · rename_i free
      rw [update_of_ne, set]
      rintro rfl
      exact free (by simp [set])

lemma foldl_insertMetric_of_mem {metric : Str × UInt32} (member : metric ∈ metrics)
    (only : ∀ other ∈ metrics, other.1 = metric.1 → other = metric)
    (unset : metmap metric.1 = none) : metrics.foldl insertMetric metmap metric.1 = some metric.2 := by
  induction metrics generalizing metmap with
  | nil => cases member
  | cons first rest hypothesis =>
    rw [foldl_cons]
    by_cases same : first = metric
    · refine foldl_insertMetric_of_isSome ?_
      rw [same, insertMetric, if_neg (by simp [unset]), update_self]
    · have other : metric.1 ≠ first.1 := fun named => same (only first (.head _) named.symm)
      have later := (mem_cons.mp member).resolve_left fun equal => same equal.symm
      refine hypothesis later (fun x isLater => only x (.tail _ isLater)) ?_
      rw [insertMetric]
      split
      · exact unset
      · exact (update_of_ne other _ _).trans unset

/-! ## Reading back -/

lemma reads_id (id : UInt32) : Reads unpackId (packU64 id.toUInt64) id := by
  have value := (reads_u64 id.toUInt64).map UInt64.toUInt32
  rwa [UInt32.toUInt32_toUInt64] at value

lemma reads_child (child : UInt64 × UInt32) : Reads unpackChild (packChild child) child :=
  (reads_u64 child.1).bind ((reads_id child.2).map fun id => (child.1, id))

lemma reads_entry (size : e.children.length < 2 ^ 64) : Reads unpackEntry (packEntry e) e := by
  have count : (UInt64.ofNat e.children.length).toNat = e.children.length := UInt64.toNat_ofNat_of_lt size
  refine (reads_id e.pid).bind ((reads_u8 e.nonce).bind ((reads_u64 _).bind ?_))
  rw [count]
  have children : Reads (readMany unpackChild e.children.length) (e.children.flatMap packChild) e.children :=
    reads_readMany fun child _ => reads_child child
  exact children.map (Entry.mk e.pid e.nonce)

lemma reads_metricId (metric : Str × UInt32) :
    Reads (do
      let id ← unpackId
      let name ← unpackString
      return (name, id)) (packMetricId metric) (substitute metric.1, metric.2) :=
  (reads_id metric.2).bind ((reads_string metric.1).map fun name => (name, metric.2))

/-! ## The packed tree -/

lemma forall₂_of_mapM {α β : Type} {f : α → Option β} {xs : List α} {ys : List β} (mapped : xs.mapM f = some ys) :
    Forall₂ (fun x y => f x = some y) xs ys := by
  induction xs generalizing ys with
  | nil =>
    cases mapped
    exact .nil
  | cons x rest hypothesis =>
    simp only [List.mapM_cons, bind_eq_bind, bind_eq_some_iff, pure_def, some_inj] at mapped
    obtain ⟨y, first, later, mappedLater, rfl⟩ := mapped
    exact .cons first (hypothesis mappedLater)

section
variable {S : Type}

lemma IdTree.inductionOn {motive : IdTree S → Prop}
    (node : ∀ scope id children, (∀ c ∈ children, motive c) → motive (.node scope id children)) (c : IdTree S) :
    motive c := by
  refine @IdTree.rec S motive (fun children => ∀ c ∈ children, motive c) node ?_ ?_ c
  · intro c member
    cases member
  · intro head tail first rest c member
    rcases mem_cons.mp member with rfl | later
    · exact first
    · exact rest c later

variable {children : List (IdTree S)}

lemma IdTree.mem_walkOf {d : IdTree S} :
    d ∈ walkOf children ↔ ∃ c ∈ children, d ∈ c.walk := by
  induction children with
  | nil => simp [walkOf]
  | cons c rest hypothesis => simp [walkOf, hypothesis]

lemma IdTree.mem_walk_self (c : IdTree S) : c ∈ c.walk := by
  cases c
  exact mem_cons_self

lemma IdTree.sublist_walkOf (children : List (IdTree S)) : children.Sublist (walkOf children) := by
  induction children with
  | nil => exact .slnil
  | cons c rest hypothesis => exact (singleton_sublist.mpr c.mem_walk_self).append hypothesis

lemma IdTree.walk_sublist_walkOf {c : IdTree S} (member : c ∈ children) :
    c.walk.Sublist (walkOf children) := by
  induction children with
  | nil => cases member
  | cons d rest hypothesis =>
    rcases mem_cons.mp member with rfl | later
    · exact sublist_append_left _ _
    · exact (hypothesis later).trans (sublist_append_right _ _)

lemma IdTree.walk_sublist {root c : IdTree S} (member : c ∈ root.walk) : c.walk.Sublist root.walk := by
  induction root using IdTree.inductionOn with
  | node scope id children hypothesis =>
    rw [walk] at member ⊢
    rcases mem_cons.mp member with rfl | below
    · exact .refl _
    · obtain ⟨child, isChild, inside⟩ := mem_walkOf.mp below
      exact ((hypothesis child isChild inside).trans (walk_sublist_walkOf isChild)).cons _

lemma IdTree.children_sublist {root c : IdTree S} (member : c ∈ root.walk) : c.children.Sublist root.walk := by
  refine .trans ?_ (walk_sublist member)
  cases c with
  | node scope id children => exact (sublist_walkOf children).cons _

lemma length_lt_of_nodup {ids : List UInt32} (distinct : ids.Nodup) : ids.length < 2 ^ 64 := by
  have values : (ids.map UInt32.toNat).Nodup := distinct.map fun a b => UInt32.toNat_inj.mp
  have inside : ids.map UInt32.toNat ⊆ range (2 ^ 32) := by
    intro n member
    obtain ⟨id, -, rfl⟩ := mem_map.mp member
    exact mem_range.mpr id.toNat_lt
  have short := (subperm_of_subset values inside).length_le
  rw [length_map, length_range] at short
  omega

end

/-! ## The maps of a packed tree -/

section
variable {S : Type} {hash : S → UInt8 → UInt64} {root : IdTree S}

lemma IdMaps.identifyChild_of_entries (packed : Forall₂ (fun c e => entryOf hash c = some e) root.walk entries)
    (distinct : (entries.map Entry.pid).Nodup) {c child : IdTree S} (member : c ∈ root.walk)
    (isChild : child ∈ c.children) :
    IdMaps.identifyChild hash ⟨root.id, entries.foldl setEntry fun _ => none, metmap⟩ c.id child.scope = some child.id := by
  obtain ⟨e, isEntry, entry⟩ : ∃ e ∈ entries, entryOf hash c = some e := by
    obtain ⟨i, inside, rfl⟩ := mem_iff_getElem.mp member
    have same := packed.length_eq
    exact ⟨_, getElem_mem (same ▸ inside), packed.get inside (same ▸ inside)⟩
  obtain ⟨pid, children⟩ := entryOf_eq entry
  have hashes : (hash child.scope e.nonce, child.id) ∈ e.children := children ▸ mem_hashChildren isChild
  have found : entries.foldl setEntry (fun _ => none) e.pid = some (e.nonce, setChildren (fun _ => none) e.children) :=
    foldl_setEntry_of_mem distinct isEntry rfl
  simp only [identifyChild, ← pid, found, bind_eq_bind, Option.bind_some]
  exact setChildren_of_mem (nodup_of_entryOf entry) hashes

lemma map_pid_of_forall₂ {contexts : List (IdTree S)}
    (packed : Forall₂ (fun c e => entryOf hash c = some e) contexts entries) :
    entries.map Entry.pid = contexts.map IdTree.id := by
  induction packed with
  | nil => rfl
  | cons entry _ hypothesis => rw [map_cons, map_cons, (entryOf_eq entry).1, hypothesis]

lemma reads_ids {bytes : List UInt8}
    (ids : (root.walk.map IdTree.id).Nodup) (size : metrics.length < 2 ^ 64)
    (packed : packIds hash root metrics = some bytes) (mapped : root.walk.mapM (entryOf hash) = some entries) :
    Reads unpackIds bytes ⟨root.id, entries.foldl setEntry fun _ => none,
      (metrics.map fun m => (substitute m.1, m.2)).foldl insertMetric fun _ => none⟩ := by
  have pairs := forall₂_of_mapM mapped
  simp only [packIds, mapped, bind_eq_bind, Option.bind_some, pure_def, some_inj] at packed
  subst packed
  have contexts : entries.length < 2 ^ 64 := by
    rw [← pairs.length_eq, ← length_map IdTree.id]
    exact length_lt_of_nodup ids
  have count : (UInt64.ofNat entries.length).toNat = entries.length := UInt64.toNat_ofNat_of_lt contexts
  have metricCount : (UInt64.ofNat metrics.length).toNat = metrics.length := UInt64.toNat_ofNat_of_lt size
  have each : ∀ e ∈ entries, Reads unpackEntry (packEntry e) e := by
    intro e member
    obtain ⟨i, inside, rfl⟩ := mem_iff_getElem.mp member
    have bound : i < root.walk.length := pairs.length_eq ▸ inside
    have entry := pairs.get bound inside
    refine reads_entry ?_
    rw [get_eq_getElem, get_eq_getElem] at entry
    rw [length_children_of_entryOf entry, ← length_map IdTree.id]
    exact length_lt_of_nodup (((IdTree.children_sublist (getElem_mem bound)).map IdTree.id).nodup ids)
  refine (reads_id root.id).bind ((reads_u64 _).bind ?_)
  rw [count]
  refine (reads_readMany each).bind ((reads_u64 _).bind ?_)
  rw [metricCount]
  exact (reads_readMany_map fun m _ => reads_metricId m).map fun metrics =>
    (⟨root.id, entries.foldl setEntry fun _ => none, metrics.foldl insertMetric fun _ => none⟩ : IdMaps)

end

/-! ## Identifying -/

section
variable {S : Type} [DecidableEq S] {hash : S → UInt8 → UInt64} {root : IdTree S}

variable {c : IdTree S}

lemma IdTree.find?_scope {children : List (IdTree S)} (distinct : (children.map IdTree.scope).Nodup)
    (member : c ∈ children) : (children.find? fun child => child.scope = c.scope) = some c := by
  induction children with
  | nil => cases member
  | cons d rest hypothesis =>
    obtain ⟨fresh, distinct⟩ := nodup_cons.mp distinct
    rcases mem_cons.mp member with rfl | later
    · exact find?_cons_of_pos (by simp)
    · have other : d.scope ≠ c.scope := fun same => fresh (same ▸ mem_map_of_mem later)
      rw [find?_cons_of_neg (by simpa using other)]
      exact hypothesis distinct later

lemma IdTree.exists_follow (distinct : ∀ c ∈ root.walk, (c.children.map IdTree.scope).Nodup)
    (member : c ∈ root.walk) : ∃ path, root.follow path = some c := by
  induction root using IdTree.inductionOn with
  | node scope id children hypothesis =>
    rw [walk] at member distinct
    rcases mem_cons.mp member with rfl | below
    · exact ⟨[], rfl⟩
    · obtain ⟨child, isChild, inside⟩ := mem_walkOf.mp below
      have here : (children.map IdTree.scope).Nodup := distinct _ (.head _)
      have deeper : ∀ d ∈ child.walk, (d.children.map IdTree.scope).Nodup :=
        fun d isIn => distinct d (.tail _ (mem_walkOf.mpr ⟨child, isChild, isIn⟩))
      obtain ⟨path, reached⟩ := hypothesis child isChild deeper inside
      refine ⟨child.scope :: path, ?_⟩
      rw [follow, IdTree.children, find?_scope here isChild]
      exact reached

lemma IdMaps.identifyFrom_eq {maps : IdMaps}
    (knows : ∀ c ∈ root.walk, ∀ child ∈ c.children, maps.identifyChild hash c.id child.scope = some child.id)
    {c d : IdTree S} {other : Tree S} {path : List S} (member : c ∈ root.walk) (reached : c.follow path = some d)
    (there : (other.follow path).isSome) : maps.identifyFrom hash c.id other path = some d.id := by
  induction path generalizing c other with
  | nil =>
    cases reached
    rfl
  | cons scope path hypothesis =>
    simp only [IdTree.follow, bind_eq_bind, bind_eq_some_iff] at reached
    obtain ⟨child, found, reached⟩ := reached
    simp only [Tree.follow, bind_eq_bind, Option.isSome_bind, Option.any_eq_true] at there
    obtain ⟨otherChild, otherFound, there⟩ := there
    have isChild := mem_of_find?_eq_some found
    have scopes : child.scope = scope := by simpa using find?_some found
    have otherScopes : otherChild.scope = scope := by simpa using find?_some otherFound
    have known := knows c member child isChild
    rw [scopes, ← otherScopes] at known
    simp only [identifyFrom, otherFound, bind_eq_bind, Option.bind_some, known]
    exact hypothesis ((IdTree.children_sublist member).mem isChild) reached there

/-- The unpacker reads the bytes of the packer and no others. Every packed context that a tree of the unpacking
process holds gets the id that it was packed with, and so does every metric that is alone under its name. -/
theorem packed_ids_identify {metrics : List (Str × UInt32)} {bytes : List UInt8}
    (ids : (root.walk.map IdTree.id).Nodup) (size : metrics.length < 2 ^ 64)
    (packed : packIds hash root metrics = some bytes) :
    ∃ maps, Reads unpackIds bytes maps ∧ (∀ c ∈ root.walk, ∃ path, root.follow path = some c) ∧
      (∀ path c, root.follow path = some c → ∀ other : Tree S, (other.follow path).isSome →
        maps.identify hash other path = some c.id) ∧
      ∀ m ∈ metrics, 0 ∉ m.1 → (∀ n ∈ metrics, substitute n.1 = m.1 → n = m) →
        maps.identifyMetric m.1 = some m.2 := by
  obtain ⟨entries, mapped⟩ : ∃ entries, root.walk.mapM (entryOf hash) = some entries := by
    simp only [packIds, bind_eq_bind, bind_eq_some_iff] at packed
    obtain ⟨entries, mapped, -⟩ := packed
    exact ⟨entries, mapped⟩
  have pairs := forall₂_of_mapM mapped
  have distinct : (entries.map Entry.pid).Nodup := map_pid_of_forall₂ pairs ▸ ids
  refine ⟨_, reads_ids ids size packed mapped, fun c member => ?_, fun path c reached other there => ?_, ?_⟩
  · refine IdTree.exists_follow (fun d inside => ?_) member
    obtain ⟨i, bound, rfl⟩ := mem_iff_getElem.mp inside
    exact nodup_scopes_of_entryOf (pairs.get bound (pairs.length_eq ▸ bound))
  · refine IdMaps.identifyFrom_eq (fun d member child isChild => ?_) root.mem_walk_self reached there
    exact IdMaps.identifyChild_of_entries pairs distinct member isChild
  · intro m member noNul only
    have name : substitute m.1 = m.1 := substitute_eq_self.mpr noNul
    refine foldl_insertMetric_of_mem (mem_map.mpr ⟨m, member, by rw [name]⟩) ?_ rfl
    intro received isReceived same
    obtain ⟨n, isMetric, rfl⟩ := mem_map.mp isReceived
    rw [only n isMetric same, name]

end

/-! ## A small tree -/

/-- The first nonce makes the hashes of the scopes 1 and 17 equal, and the second one does not. -/
def smallHash (scope : ℕ) (nonce : UInt8) : UInt64 := .ofNat (scope % (16 + nonce.toNat))

def smallIds : IdTree ℕ := .node 0 4 [.node 17 2 [.node 1 9 []], .node 1 7 []]

/-- The unpacking process holds the children in another order, and one context more. -/
def otherTree : Tree ℕ := .node 0 [.node 1 [], .node 3 [], .node 17 [.node 1 []]]

lemma entryOf_leaf {S : Type} (hash : S → UInt8 → UInt64) (scope : S) (id : UInt32) :
    entryOf hash (.node scope id []) = some ⟨id, 0, []⟩ := by
  simp [entryOf, findNonce, hashChildren, isUnique, IdTree.children, IdTree.id, range_succ_eq_map]

lemma smallIds_entries : smallIds.walk.mapM (entryOf smallHash) =
    some [⟨4, 1, [(0, 2), (1, 7)]⟩, ⟨2, 0, [(1, 9)]⟩, ⟨9, 0, []⟩, ⟨7, 0, []⟩] := by
  have first : isUnique (hashChildren smallHash 0 smallIds.children) = false := by
    simp [smallIds, IdTree.children, IdTree.scope, IdTree.id, hashChildren, mergeSort, smallHash, isUnique]
  have second : hashChildren smallHash 1 smallIds.children = [(0, 2), (1, 7)] := by
    simp [smallIds, IdTree.children, IdTree.scope, IdTree.id, hashChildren, mergeSort, smallHash]
  have nonce : findNonce smallHash smallIds.children = some 1 := by
    simp [findNonce, range_succ_eq_map, first, second, isUnique]
  have root : entryOf smallHash smallIds = some ⟨4, 1, [(0, 2), (1, 7)]⟩ := by
    rw [entryOf, nonce, ← second]
    rfl
  have inner : entryOf smallHash (.node 17 2 [.node 1 9 []]) = some ⟨2, 0, [(1, 9)]⟩ := by
    simp [entryOf, findNonce, hashChildren, isUnique, IdTree.children, IdTree.id, IdTree.scope,
      range_succ_eq_map, smallHash]
  change [smallIds, .node 17 2 [.node 1 9 []], .node 1 9 [], .node 1 7 []].mapM (entryOf smallHash) = _
  simp [root, inner, entryOf_leaf]

theorem smallIds_identified :
    ∃ bytes maps, packIds smallHash smallIds [([0x6d], 3), ([0x6e], 11)] = some bytes ∧ Reads unpackIds bytes maps ∧
      maps.identify smallHash otherTree [17, 1] = some 9 ∧ maps.identify smallHash otherTree [1] = some 7 ∧
      maps.identifyMetric [0x6e] = some 11 := by
  obtain ⟨bytes, packed⟩ : ∃ bytes, packIds smallHash smallIds [([0x6d], 3), ([0x6e], 11)] = some bytes := by
    rw [packIds, smallIds_entries]
    exact ⟨_, rfl⟩
  obtain ⟨maps, read, -, contexts, metrics⟩ := packed_ids_identify (by decide) (by decide) packed
  exact ⟨bytes, maps, packed, read, contexts [17, 1] _ rfl otherTree rfl, contexts [1] _ rfl otherTree rfl,
    metrics ([0x6e], 11) (by decide) (by decide) (by decide)⟩

/-- A NUL byte of a name is packed as a question mark, and the metric is not found by its own name. -/
theorem nul_in_name_not_identified :
    ∃ bytes maps, packIds smallHash smallIds [([0x6d, 0], 3)] = some bytes ∧ Reads unpackIds bytes maps ∧
      maps.identifyMetric [0x6d, 0] = none := by
  obtain ⟨bytes, packed⟩ : ∃ bytes, packIds smallHash smallIds [([0x6d, 0], 3)] = some bytes := by
    rw [packIds, smallIds_entries]
    exact ⟨_, rfl⟩
  exact ⟨bytes, _, packed, reads_ids (by decide) (by decide) packed smallIds_entries, by decide⟩

end HpcToolkit.Packed
