import HpcToolkit.Lib.LinkedTree
import HpcToolkit.Lib.RecentKeys
import Mathlib.Data.Fintype.Card

/-! # The linear LRU cache

The cache of a general size keeps its entries in a fixed array of nodes, which are linked from the most to the least
recently used one. The caches of the sizes 1 and 2 have code of their own. A lookup gives the value and says whether
it was generated.
-/

open Function List
open Option (map_some or_none some_injective)

namespace HpcToolkit.Util.LinearLruCache

open Lib Lib.RecentKeys

variable {Key Value : Type} {N : ℕ}

/-- `none` is an index that is the maximum of `size_t`. -/
structure Node (Key Value : Type) (N : ℕ) where
  key : Option Key
  value : Option Value
  next : Option (Fin N)

structure Cache (Key Value : Type) (N : ℕ) where
  nodes : Fin N → Node Key Value N
  head : Option (Fin N)
  used : ℕ

/-- Where the loop over the nodes stops. -/
inductive Stop (N : ℕ) where
  | hit (last : Option (Fin N)) (idx : Fin N)
  | miss (last2 last : Option (Fin N))

namespace Cache

def empty : Cache Key Value N := ⟨fun _ => ⟨none, none, none⟩, none, 0⟩

/-- The index of one node, as the link of another one. -/
def next (cache : Cache Key Value N) (idx : Fin N) : Option (Fin N) := (cache.nodes idx).next

def setNext (cache : Cache Key Value N) (idx : Fin N) (next : Option (Fin N)) : Cache Key Value N :=
  { cache with nodes := update cache.nodes idx { cache.nodes idx with next } }

/-- `if (last != max) nodes[last].next = max;` -/
def endAt (cache : Cache Key Value N) (last : Option (Fin N)) : Cache Key Value N :=
  match last with
  | none => cache
  | some last => cache.setNext last none

def fill (cache : Cache Key Value N) (idx : Fin N) (k : Key) (v : Value) (next : Option (Fin N)) : Cache Key Value N :=
  { cache with nodes := update cache.nodes idx ⟨some k, some v, next⟩ }

end Cache

section Lookups

variable [DecidableEq Key]

/-- The loop of `lookup`, which does not end if it has not ended after `N` nodes. -/
def walk (nodes : Fin N → Node Key Value N) (k : Key) : ℕ → (idx last2 last : Option (Fin N)) → Option (Stop N)
  | _, none, last2, last => some (.miss last2 last)
  | 0, some _, _, _ => none
  | fuel + 1, some idx, _, last =>
    if (nodes idx).key = some k then some (.hit last idx) else walk nodes k fuel (nodes idx).next last (some idx)

def Cache.lookup (f : Key → Value) (cache : Cache Key Value N) (k : Key) : Option ((Value × Bool) × Cache Key Value N) :=
  match walk cache.nodes k N cache.head none none with
  | none => none
  | some (.hit last idx) =>
    let linked := (cache.setNext idx (if cache.head ≠ some idx then cache.head else none)).endAt last
    (linked.nodes idx).value.map fun v => ((v, false), linked)
  | some (.miss last2 last) =>
    let v := f k
    if room : cache.used < N then
      some ((v, true),
        { cache.fill ⟨cache.used, room⟩ k v cache.head with
          head := some ⟨cache.used, room⟩
          used := cache.used + 1 })
    else
      last.map fun last => ((v, true),
        { (cache.fill last k v (if cache.head ≠ some last then cache.head else none)).endAt last2 with
          head := some last })

/-- The cache of size 2. -/
structure Cache2 (Key Value : Type) where
  entry0 : Option (Key × Value)
  entry1 : Option (Key × Value)
  mruState : Bool

namespace Cache2

def swapMRU (cache : Cache2 Key Value) : Cache2 Key Value := { cache with mruState := !cache.mruState }

def getMRU (cache : Cache2 Key Value) : Option (Key × Value) := if cache.mruState then cache.entry1 else cache.entry0

def setMRU (cache : Cache2 Key Value) (entry : Key × Value) : Cache2 Key Value :=
  if cache.mruState then { cache with entry1 := some entry } else { cache with entry0 := some entry }

def lookup (f : Key → Value) (cache : Cache2 Key Value) (k : Key) : (Value × Bool) × Cache2 Key Value :=
  match cache.getMRU with
  | none => ((f k, true), cache.setMRU (k, f k))
  | some mru =>
    if mru.1 = k then ((mru.2, false), cache)
    else
      match cache.swapMRU.getMRU with
      | none => ((f k, true), cache.swapMRU.setMRU (k, f k))
      | some ent =>
        if ent.1 = k then ((ent.2, false), cache.swapMRU)
        else ((f k, true), cache.swapMRU.setMRU (k, f k))

end Cache2

/-- The lookup of the cache of size 1, which is its entry. -/
def lookup1 (f : Key → Value) (entry : Option (Key × Value)) (k : Key) : (Value × Bool) × Option (Key × Value) :=
  match entry with
  | none => ((f k, true), some (k, f k))
  | some ent => if ent.1 = k then ((ent.2, false), entry) else ((f k, true), some (k, f k))

section Runs

variable {State Result : Type}

/-- What the lookups give one after the other. -/
def run (step : State → Key → Option (Result × State)) (state : State) : List Key → Option (List Result)
  | [] => some []
  | k :: keys =>
    match step state k with
    | none => none
    | some (result, state) => (run step state keys).map (result :: ·)

end Runs

/-- The lookups in an empty cache of size `N`. -/
def lookups (f : Key → Value) (N : ℕ) (keys : List Key) : Option (List (Value × Bool)) :=
  match N with
  | 1 => run (fun entry k => some (lookup1 f entry k)) none keys
  | 2 => run (fun cache k => some (Cache2.lookup f cache k)) ⟨none, none, false⟩ keys
  | N => run (Cache.lookup f) (Cache.empty : Cache Key Value N) keys

/-- What the lookups after some others have to give: the value, which is generated unless the key is among the `N` keys
that were looked up last. -/
def expected (f : Key → Value) (N : ℕ) : (past keys : List Key) → List (Value × Bool)
  | _, [] => []
  | past, k :: keys => (f k, decide (¬ Recent N past k)) :: expected f N (k :: past) keys

/-- The lookup does not hit while the cache holds several keys. -/
def Spared (N : ℕ) (past : List Key) (k : Key) : Prop :=
  N ≠ 0 ∧ (N ≤ 2 ∨ (Recent N past k → ∀ k' ∈ past, k' = k))

def EverySpared (N : ℕ) : (past keys : List Key) → Prop
  | _, [] => True
  | past, k :: keys => Spared N past k ∧ EverySpared N (k :: past) keys

end Lookups

section Walk

variable [DecidableEq Key] {nodes : Fin N → Node Key Value N} {k : Key} {before after : List (Fin N)} {idx z : Fin N}
  {p last2 last : Option (Fin N)} {fuel : ℕ}

lemma walk_hit (chain : Chain (fun i => (nodes i).next) (before ++ idx :: after) p none)
    (others : ∀ i ∈ before, (nodes i).key ≠ some k) (here : (nodes idx).key = some k) (enough : before.length < fuel) :
    walk nodes k fuel p last2 last = some (.hit (before.getLast?.or last) idx) := by
  induction before generalizing fuel p last2 last with
  | nil =>
    obtain ⟨fuel, rfl⟩ := Nat.exists_eq_add_one_of_ne_zero (Nat.ne_of_gt enough)
    rw [chain.1, walk, if_pos here]
    rfl
  | cons first before ih =>
    obtain ⟨fuel, rfl⟩ := Nat.exists_eq_add_one_of_ne_zero (Nat.ne_of_gt (Nat.zero_lt_of_lt enough))
    rw [chain.1, walk, if_neg (others first mem_cons_self),
      ih chain.2 (fun i member => others i (mem_cons_of_mem first member)) (Nat.lt_of_succ_lt_succ enough)]
    rw [getLast?_cons]
    cases before.getLast? <;> rfl

lemma walk_miss (chain : Chain (fun i => (nodes i).next) (before ++ [z]) p none)
    (others : ∀ i ∈ before ++ [z], (nodes i).key ≠ some k) (enough : before.length < fuel) :
    walk nodes k fuel p last2 last = some (.miss (before.getLast?.or last) (some z)) := by
  induction before generalizing fuel p last2 last with
  | nil =>
    obtain ⟨fuel, rfl⟩ := Nat.exists_eq_add_one_of_ne_zero (Nat.ne_of_gt enough)
    have final : (nodes z).next = none := chain.2
    rw [chain.1, walk, if_neg (others z mem_cons_self), final, walk]
    rfl
  | cons first before ih =>
    obtain ⟨fuel, rfl⟩ := Nat.exists_eq_add_one_of_ne_zero (Nat.ne_of_gt (Nat.zero_lt_of_lt enough))
    rw [chain.1, walk, if_neg (others first mem_cons_self),
      ih chain.2 (fun i member => others i (mem_cons_of_mem first member)) (Nat.lt_of_succ_lt_succ enough)]
    rw [getLast?_cons]
    cases before.getLast? <;> rfl

end Walk

namespace Cache

variable {cache : Cache Key Value N} {order before after : List (Fin N)} {i idx z : Fin N}

section
variable (link : Option (Fin N))

lemma setNext_self :
    (cache.setNext idx link).nodes idx = { cache.nodes idx with next := link } := update_self ..

lemma setNext_of_ne (other : i ≠ idx) :
    (cache.setNext idx link).nodes i = cache.nodes i := update_of_ne other ..

lemma setNext_key : ((cache.setNext idx link).nodes i).key = (cache.nodes i).key := by
  rcases eq_or_ne i idx with rfl | other
  · rw [setNext_self]
  · rw [setNext_of_ne link other]

lemma setNext_value : ((cache.setNext idx link).nodes i).value = (cache.nodes i).value := by
  rcases eq_or_ne i idx with rfl | other
  · rw [setNext_self]
  · rw [setNext_of_ne link other]

lemma setNext_next_self : (cache.setNext idx link).next idx = link := by
  rw [next, setNext_self]

lemma setNext_next_of_ne (other : i ≠ idx) :
    (cache.setNext idx link).next i = cache.next i := by
  rw [next, setNext_of_ne link other, next]

end

section
variable (last : Option (Fin N))

lemma endAt_key : ((cache.endAt last).nodes i).key = (cache.nodes i).key := by
  cases last with
  | none => rfl
  | some last => exact setNext_key none

lemma endAt_value : ((cache.endAt last).nodes i).value = (cache.nodes i).value := by
  cases last with
  | none => rfl
  | some last => exact setNext_value none

lemma endAt_head : (cache.endAt last).head = cache.head := by
  cases last <;> rfl

lemma endAt_used : (cache.endAt last).used = cache.used := by
  cases last <;> rfl

end

lemma endAt_next_of_not_mem (absent : i ∉ before) : (cache.endAt before.getLast?).next i = cache.next i := by
  cases last : before.getLast? with
  | none => rfl
  | some y => exact setNext_next_of_ne none fun same => absent (same ▸ mem_of_getLast? last)

lemma endAt_chain {p q : Option (Fin N)} (chain : Chain cache.next before p q) (nodup : before.Nodup)
    (nonempty : before ≠ []) : Chain (cache.endAt before.getLast?).next before p none := by
  rcases eq_nil_or_concat before with rfl | ⟨front, y, rfl⟩
  · exact absurd rfl nonempty
  rw [concat_eq_append] at chain nodup ⊢
  rw [getLast?_concat]
  obtain ⟨m, toFront, toLast⟩ := Chain.append.mp chain
  refine Chain.append.mpr ⟨m, toFront.congr fun i member => setNext_next_of_ne none ?_, toLast.1, setNext_next_self none⟩
  rintro rfl
  exact (disjoint_of_nodup_append nodup) member mem_cons_self

lemma fill_self (k : Key) (v : Value) (link : Option (Fin N)) :
    (cache.fill idx k v link).nodes idx = ⟨some k, some v, link⟩ := update_self ..

lemma fill_of_ne (k : Key) (v : Value) (link : Option (Fin N)) (other : i ≠ idx) :
    (cache.fill idx k v link).nodes i = cache.nodes i := update_of_ne other ..

lemma fill_next_self (k : Key) (v : Value) (link : Option (Fin N)) : (cache.fill idx k v link).next idx = link := by
  rw [next, fill_self]

lemma fill_next_of_ne (k : Key) (v : Value) (link : Option (Fin N)) (other : i ≠ idx) :
    (cache.fill idx k v link).next i = cache.next i := by
  rw [next, fill_of_ne k v link other, next]

lemma length_le_size {p : Option (Fin N)} (chain : Chain cache.next order p none) : order.length ≤ N := by
  have bound := chain.nodup.length_le_card
  rwa [Fintype.card_fin] at bound

section Lookup

variable [DecidableEq Key] {f : Key → Value} {past : List Key} {k : Key} {v : Value}

lemma lookup_hit (chain : Chain cache.next (before ++ idx :: after) cache.head none)
    (others : ∀ i ∈ before, (cache.nodes i).key ≠ some k) (here : (cache.nodes idx).key = some k)
    (value : (cache.nodes idx).value = some v) :
    cache.lookup f k = some ((v, false),
      (cache.setNext idx (if cache.head ≠ some idx then cache.head else none)).endAt before.getLast?) := by
  have enough := length_le_size chain
  rw [length_append, length_cons] at enough
  rw [lookup, walk_hit chain others here (by omega), or_none]
  dsimp only
  rw [endAt_value, setNext_value, value, map_some]

lemma lookup_room (chain : Chain cache.next order cache.head none)
    (others : ∀ i ∈ order, (cache.nodes i).key ≠ some k) (room : cache.used < N) :
    cache.lookup f k = some ((f k, true),
      { cache.fill ⟨cache.used, room⟩ k (f k) cache.head with
        head := some ⟨cache.used, room⟩
        used := cache.used + 1 }) := by
  have missed : ∃ last2 last, walk cache.nodes k N cache.head none none = some (.miss last2 last) := by
    rcases eq_nil_or_concat order with rfl | ⟨before, z, rfl⟩
    · rw [show cache.head = none from chain]
      exact ⟨none, none, by cases N <;> rfl⟩
    · rw [concat_eq_append] at chain others
      have enough := length_le_size chain
      rw [length_append, length_singleton] at enough
      exact ⟨_, _, walk_miss chain others (by omega)⟩
  obtain ⟨last2, last, stop⟩ := missed
  rw [lookup, stop]
  exact dif_pos room

lemma lookup_full (chain : Chain cache.next (before ++ [z]) cache.head none)
    (others : ∀ i ∈ before ++ [z], (cache.nodes i).key ≠ some k) (full : ¬ cache.used < N) :
    cache.lookup f k = some ((f k, true),
      { (cache.fill z k (f k) (if cache.head ≠ some z then cache.head else none)).endAt before.getLast? with
        head := some z }) := by
  have enough := length_le_size chain
  rw [length_append, length_singleton] at enough
  rw [lookup, walk_miss chain others (by omega), or_none]
  exact dif_neg full

/-- The nodes of the list hold the keys that were looked up last, with their values. -/
structure Keeps (f : Key → Value) (cache : Cache Key Value N) (past : List Key) (order : List (Fin N)) : Prop where
  chain : Chain cache.next order cache.head none
  keys : order.map (fun i => (cache.nodes i).key) = ((recency past).take N).map some
  values : ∀ i ∈ order, (cache.nodes i).value = (cache.nodes i).key.map f
  used : cache.used = order.length
  below : ∀ i ∈ order, i.val < cache.used

lemma keeps_empty : Keeps f (empty : Cache Key Value N) [] [] :=
  ⟨rfl, by rw [recency, take_nil]; rfl, by simp, rfl, by simp⟩

namespace Keeps

section
variable (keeps : Keeps f cache past order)
include keeps

lemma length : order.length = ((recency past).take N).length := by
  simpa using congrArg List.length keeps.keys

lemma others (absent : ¬ Recent N past k) :
    ∀ i ∈ order, (cache.nodes i).key ≠ some k := by
  intro i member same
  have found := mem_map_of_mem (f := fun i => (cache.nodes i).key) member
  rw [keeps.keys, same, mem_map_of_injective (some_injective Key), ← recent_iff] at found
  exact absent found

lemma find (recent : Recent N past k) :
    ∃ before idx after, order = before ++ idx :: after ∧ (cache.nodes idx).key = some k ∧
      (cache.nodes idx).value = some (f k) ∧ ∀ i ∈ before, (cache.nodes i).key ≠ some k := by
  have member : some k ∈ order.map fun i => (cache.nodes i).key := by
    rw [keeps.keys, mem_map_of_injective (some_injective Key), ← recent_iff]
    exact recent
  obtain ⟨idx, inOrder, here⟩ := mem_map.mp member
  obtain ⟨before, after, rfl⟩ := append_of_mem inOrder
  refine ⟨before, idx, after, rfl, here, by rw [keeps.values idx inOrder, here, map_some], fun i early same => ?_⟩
  have distinct : ((before ++ idx :: after).map fun i => (cache.nodes i).key).Nodup := by
    rw [keeps.keys]
    exact ((nodup_recency past).sublist (take_sublist N _)).map (some_injective Key)
  rw [map_append, map_cons] at distinct
  refine disjoint_of_nodup_append distinct (mem_map_of_mem early) ?_
  rw [same, here]
  exact mem_cons_self

lemma room (absent : ¬ Recent N past k) (room : cache.used < N) :
    Keeps f
      { cache.fill ⟨cache.used, room⟩ k (f k) cache.head with
        head := some ⟨cache.used, room⟩
        used := cache.used + 1 }
      (k :: past) (⟨cache.used, room⟩ :: order) := by
  have fresh : ∀ i ∈ order, i ≠ ⟨cache.used, room⟩ := by
    rintro i member rfl
    exact absurd (keeps.below _ member) (lt_irrefl _)
  refine ⟨⟨rfl, ?_⟩, ?_, ?_, congrArg (· + 1) keeps.used, ?_⟩
  · have kept := keeps.chain.congr fun i member => fill_next_of_ne k (f k) cache.head (fresh i member)
    change Chain (cache.fill _ k (f k) cache.head).next order ((cache.fill _ k (f k) cache.head).next _) none
    rw [fill_next_self]
    exact kept
  · have short : ((recency past).take N).length ≤ N - 1 := by
      rw [← keeps.length, ← keeps.used]
      exact Nat.le_sub_one_of_lt room
    rw [take_recency_of_not_recent (Nat.zero_lt_of_lt room) absent, take_of_length_le short, map_cons,
      map_cons, ← keeps.keys, fill_self]
    refine congrArg (some k :: ·) (map_congr_left fun i member => ?_)
    rw [fill_of_ne k (f k) cache.head (fresh i member)]
  · intro i member
    rcases mem_cons.mp member with rfl | member
    · rw [fill_self, map_some]
    · rw [fill_of_ne k (f k) cache.head (fresh i member)]
      exact keeps.values i member
  · intro i member
    rcases mem_cons.mp member with rfl | member
    · exact Nat.lt_succ_self cache.used
    · exact Nat.lt_succ_of_lt (keeps.below i member)

end

lemma full (keeps : Keeps f cache past (before ++ [z])) (absent : ¬ Recent N past k) (full : ¬ cache.used < N) :
    Keeps f
      { (cache.fill z k (f k) (if cache.head ≠ some z then cache.head else none)).endAt before.getLast? with
        head := some z }
      (k :: past) (z :: before) := by
  have nodup := keeps.chain.nodup
  have absentNode : z ∉ before := fun member =>
    disjoint_of_nodup_append nodup member mem_cons_self
  have fresh : ∀ i ∈ before, i ≠ z := fun i member same => absentNode (same ▸ member)
  have size := length_le_size keeps.chain
  have used := keeps.used
  rw [length_append, length_singleton] at size used
  refine ⟨⟨rfl, ?_⟩, ?_, ?_, ?_, ?_⟩
  · change Chain (endAt _ _).next before ((endAt _ _).next z) none
    rw [endAt_next_of_not_mem absentNode, fill_next_self]
    obtain ⟨m, front, toLast, -⟩ := Chain.append.mp keeps.chain
    cases before with
    | nil => rw [show cache.head = some z from front.trans toLast, if_neg (not_not.mpr rfl)]; rfl
    | cons first rest =>
      have other : cache.head ≠ some z := by
        rw [front.1]
        exact fun same => fresh first mem_cons_self (Option.some.inj same)
      rw [if_pos other]
      exact endAt_chain (front.congr fun i member => fill_next_of_ne _ _ _ (fresh i member))
        (nodup_append.mp nodup).1 (cons_ne_nil first rest)
  · have all : ((recency past).take N).take (N - 1) = ((recency past).take N).dropLast := by
      rw [dropLast_eq_take, ← keeps.length, length_append, length_singleton]
      congr 1
      omega
    rw [take_recency_of_not_recent (by omega) absent, all, map_cons, map_cons, map_dropLast,
      ← keeps.keys, endAt_key, fill_self, map_append, map_singleton, dropLast_concat]
    refine congrArg (some k :: ·) (map_congr_left fun i member => ?_)
    rw [endAt_key, fill_of_ne _ _ _ (fresh i member)]
  · intro i member
    rw [endAt_value, endAt_key]
    rcases mem_cons.mp member with rfl | member
    · rw [fill_self, map_some]
    · rw [fill_of_ne _ _ _ (fresh i member)]
      exact keeps.values i (mem_append_left [z] member)
  · rw [endAt_used, length_cons]
    exact used
  · intro i member
    rw [endAt_used]
    exact keeps.below i (by rw [mem_append, mem_singleton]; exact (mem_cons.mp member).symm)

lemma single (keeps : Keeps f cache past order) (recent : Recent N past k) (only : ∀ k' ∈ past, k' = k) :
    ∃ cache', cache.lookup f k = some ((f k, false), cache') ∧ Keeps f cache' (k :: past) order := by
  obtain ⟨before, idx, after, rfl, here, value, others⟩ := keeps.find recent
  have one := keeps.length
  rw [recency_of_one_key recent.1 only, length_append, length_cons] at one
  have bound := length_take_le' N [k]
  rw [length_singleton] at bound
  obtain ⟨rfl, rfl⟩ : before = [] ∧ after = [] :=
    ⟨eq_nil_of_length_eq_zero (by omega), eq_nil_of_length_eq_zero (by omega)⟩
  refine ⟨_, lookup_hit keeps.chain others here value, ⟨keeps.chain.1, ?_⟩, ?_, ?_, keeps.used, keeps.below⟩
  · rw [if_neg (not_not.mpr keeps.chain.1)]
    exact setNext_next_self none
  · have keys := keeps.keys
    rw [recency_of_one_key recent.1 only] at keys
    rw [recency_cons_head (recency_of_one_key recent.1 only), recency_of_one_key recent.1 only, ← keys]
    exact map_congr_left fun i _ => (endAt_key _).trans (setNext_key _)
  · intro i member
    rw [endAt_value, endAt_key, setNext_value, setNext_key]
    exact keeps.values i member

lemma lookup_absent (keeps : Keeps f cache past order) (nonzero : N ≠ 0) (absent : ¬ Recent N past k) :
    ∃ cache' order', cache.lookup f k = some ((f k, true), cache') ∧ Keeps f cache' (k :: past) order' := by
  rcases lt_or_ge cache.used N with room | full
  · exact ⟨_, _, lookup_room keeps.chain (keeps.others absent) room, keeps.room absent room⟩
  · rcases eq_nil_or_concat order with rfl | ⟨before, z, rfl⟩
    · have used := keeps.used
      rw [length_nil] at used
      omega
    · rw [concat_eq_append] at keeps
      exact ⟨_, _, lookup_full keeps.chain (keeps.others absent) full.not_gt, keeps.full absent full.not_gt⟩

lemma lookup_of_cut (order : List (Fin N)) (chain : Chain cache.next order cache.head none)
    (others : ∀ i ∈ order, (cache.nodes i).key ≠ some k) (nonempty : order ≠ []) :
    ∃ cache', cache.lookup f k = some ((f k, true), cache') := by
  rcases lt_or_ge cache.used N with room | full
  · exact ⟨_, lookup_room chain others room⟩
  · rcases eq_nil_or_concat order with rfl | ⟨before, z, rfl⟩
    · exact absurd rfl nonempty
    · rw [concat_eq_append] at chain others
      exact ⟨_, lookup_full chain others full.not_gt⟩

/-- A hit while the list has several nodes leaves a key that is looked up in vain afterwards. -/
lemma lost (keeps : Keeps f cache past order) (size : 2 ≤ N) (recent : Recent N past k) {other : Key}
    (used : other ∈ past) (differ : other ≠ k) :
    ∃ cache' cut, (cut = k ∨ cut ∈ past) ∧ cache.lookup f k = some ((f k, false), cache') ∧
      Recent N (k :: past) cut ∧ ∃ cache'', cache'.lookup f cut = some ((f cut, true), cache'') := by
  obtain ⟨before, idx, after, rfl, here, value, others⟩ := keeps.find recent
  have hit := lookup_hit (f := f) keeps.chain others here value
  cases before with
  | nil =>
    obtain ⟨n, rfl⟩ := Nat.exists_eq_add_of_le' size
    have keys := keeps.keys
    have distinct := nodup_recency past
    have first := mem_recency.mpr recent.1
    have second := mem_recency.mpr used
    rcases list : recency past with _ | ⟨a, _ | ⟨b, rest⟩⟩ <;> rw [list] at keys distinct first second
    · exact absurd first not_mem_nil
    · rw [mem_singleton] at first second
      exact absurd (second.trans first.symm) differ
    rw [take_succ_cons, take_succ_cons, map_cons, nil_append, map_cons, here] at keys
    obtain rfl : k = a := Option.some.inj (cons.inj keys).1
    have apart : k ≠ b := fun same => (nodup_cons.mp distinct).1 (same ▸ mem_cons_self)
    have last : b ∈ recency past := by
      rw [list]
      exact mem_cons_of_mem k mem_cons_self
    refine ⟨_, b, .inr (mem_recency.mp last), hit, ?_, lookup_of_cut [idx] ⟨keeps.chain.1, ?_⟩ ?_ ?_⟩
    · rw [recent_iff, recency_cons_head list, list, take_succ_cons, take_succ_cons]
      exact mem_cons_of_mem k mem_cons_self
    · rw [if_neg (not_not.mpr keeps.chain.1)]
      exact setNext_next_self none
    · intro i member
      rw [mem_singleton.mp member, endAt_key, setNext_key, here]
      exact fun same => apart (Option.some.inj same)
    · exact cons_ne_nil idx []
  | cons first rest =>
    have absentNode : idx ∉ first :: rest := fun member =>
      disjoint_of_nodup_append keeps.chain.nodup member mem_cons_self
    have fresh : ∀ i ∈ first :: rest, i ≠ idx := fun i member same => absentNode (same ▸ member)
    obtain ⟨m, front, -⟩ := Chain.append.mp keeps.chain
    refine ⟨_, k, .inl rfl, hit, ⟨mem_cons_self, by simp; omega⟩, lookup_of_cut (first :: rest) ?_ ?_ ?_⟩
    · rw [endAt_head]
      exact endAt_chain (front.congr fun i member => setNext_next_of_ne _ (fresh i member))
        (nodup_append.mp keeps.chain.nodup).1 (cons_ne_nil first rest)
    · intro i member
      rw [endAt_key, setNext_key]
      exact others i member
    · exact cons_ne_nil first rest

end Keeps

end Lookup

end Cache

section Sizes

@[simp] lemma Cache2.swapMRU_swapMRU (cache : Cache2 Key Value) : cache.swapMRU.swapMRU = cache := by
  rw [swapMRU, swapMRU, Bool.not_not]

@[simp] lemma Cache2.setMRU_getMRU (cache : Cache2 Key Value) (entry : Key × Value) :
    (cache.setMRU entry).getMRU = some entry := by
  cases state : cache.mruState <;> simp [setMRU, getMRU, state]

@[simp] lemma Cache2.setMRU_swapMRU_getMRU (cache : Cache2 Key Value) (entry : Key × Value) :
    (cache.setMRU entry).swapMRU.getMRU = cache.swapMRU.getMRU := by
  cases state : cache.mruState <;> simp [setMRU, swapMRU, getMRU, state]

variable [DecidableEq Key] {f : Key → Value} {past : List Key} {k : Key}

/-- The entries of the cache of size 2 are those of the last two keys. -/
def Cache2.Keeps (f : Key → Value) (cache : Cache2 Key Value) (past : List Key) : Prop :=
  cache.getMRU = (recency past)[0]?.map (fun k => (k, f k)) ∧
    cache.swapMRU.getMRU = (recency past)[1]?.map fun k => (k, f k)

lemma Cache2.lookup_eq {cache : Cache2 Key Value} (keeps : cache.Keeps f past) (k : Key) :
    ∃ cache', cache.lookup f k = ((f k, decide (¬ Recent 2 past k)), cache') ∧ cache'.Keeps f (k :: past) := by
  obtain ⟨first, second⟩ := keeps
  have recent : Recent 2 past k ↔ k ∈ (recency past).take 2 := recent_iff
  unfold Keeps
  rw [recency]
  rcases list : recency past with _ | ⟨a, rest⟩ <;> rw [list] at first second recent
  · refine ⟨cache.setMRU (k, f k), ?_, by simp, by simpa using second⟩
    simp [lookup, first, recent]
  · rcases eq_or_ne a k with rfl | differ
    · refine ⟨cache, ?_, by simpa using first, by simpa using second⟩
      simp [lookup, first, recent]
    · rcases rest with _ | ⟨b, rest⟩
      · refine ⟨cache.swapMRU.setMRU (k, f k), ?_, by simp, by simpa [differ] using first⟩
        simp [lookup, first, second, recent, differ, differ.symm]
      · rcases eq_or_ne b k with rfl | other
        · refine ⟨cache.swapMRU, ?_, by simpa using second, by simpa [differ] using first⟩
          simp [lookup, first, second, recent, differ]
        · refine ⟨cache.swapMRU.setMRU (k, f k), ?_, by simp, by simpa [differ] using first⟩
          simp [lookup, first, second, recent, differ, differ.symm, other, other.symm]

lemma lookup1_eq {entry : Option (Key × Value)} (keeps : entry = (recency past)[0]?.map fun k => (k, f k)) (k : Key) :
    lookup1 f entry k = ((f k, decide (¬ Recent 1 past k)), (recency (k :: past))[0]?.map fun k => (k, f k)) := by
  have recent : Recent 1 past k ↔ k ∈ (recency past).take 1 := recent_iff
  rw [recency]
  rcases list : recency past with _ | ⟨a, rest⟩ <;> rw [list] at keeps recent
  · simp [lookup1, keeps, recent]
  · rcases eq_or_ne a k with rfl | differ
    · simp [lookup1, keeps, recent]
    · simp [lookup1, keeps, recent, differ, differ.symm]

end Sizes

section Runs

variable [DecidableEq Key] {State : Type} {f : Key → Value} {step : State → Key → Option ((Value × Bool) × State)}
  {Inv : State → List Key → Prop} {state : State} {past keys : List Key} {k : Key}

/-- Every lookup gives what it has to, and one that is spared keeps the state in order. -/
def Answers (f : Key → Value) (N : ℕ) (step : State → Key → Option ((Value × Bool) × State))
    (Inv : State → List Key → Prop) : Prop :=
  ∀ state past k, Inv state past → ∃ state', step state k = some ((f k, decide (¬ Recent N past k)), state') ∧
    (Spared N past k → Inv state' (k :: past))

lemma Answers.run_append (answers : Answers f N step Inv) (inv : Inv state past) (spared : EverySpared N past keys) :
    ∃ state', Inv state' (keys.reverse ++ past) ∧
      ∀ more, run step state (keys ++ more) = (run step state' more).map (expected f N past keys ++ ·) := by
  induction keys generalizing state past with
  | nil => exact ⟨state, inv, fun more => by simp [expected]⟩
  | cons k keys ih =>
    obtain ⟨next, stepped, inv⟩ := answers state past k inv
    obtain ⟨state', inv, rest⟩ := ih (inv spared.1) spared.2
    refine ⟨state', by simpa using inv, fun more => ?_⟩
    rw [cons_append, run, stepped]
    dsimp only
    rw [rest more, Option.map_map]
    rfl

lemma expected_append (f : Key → Value) (N : ℕ) (past keys more : List Key) :
    expected f N past (keys ++ more) = expected f N past keys ++ expected f N (keys.reverse ++ past) more := by
  induction keys generalizing past with
  | nil => rfl
  | cons k keys ih => simp [expected, ih]

lemma Answers.run_eq (answers : Answers f N step Inv) (inv : Inv state past) (spared : EverySpared N past keys)
    (k : Key) : run step state (keys ++ [k]) = some (expected f N past (keys ++ [k])) := by
  obtain ⟨state', inv, rest⟩ := answers.run_append inv spared
  obtain ⟨final, stepped, -⟩ := answers state' _ k inv
  rw [rest [k], run, stepped, expected_append]
  rfl

lemma everySpared_append {more : List Key} :
    EverySpared N past (keys ++ more) ↔ EverySpared N past keys ∧ EverySpared N (keys.reverse ++ past) more := by
  induction keys generalizing past with
  | nil => simp [EverySpared]
  | cons k keys ih => simp [EverySpared, ih, and_assoc]

lemma exists_not_spared (not : ¬ EverySpared N past keys) :
    ∃ before k after, keys = before ++ k :: after ∧ EverySpared N past before ∧ ¬ Spared N (before.reverse ++ past) k := by
  induction keys generalizing past with
  | nil => exact absurd trivial not
  | cons k keys ih =>
    rw [EverySpared, not_and_or] at not
    rcases em (Spared N past k) with spared | notSpared
    · obtain ⟨before, k', after, rfl, early, late⟩ := ih (not.resolve_left (not_not.mpr spared))
      exact ⟨k :: before, k', after, rfl, ⟨spared, early⟩, by simpa using late⟩
    · exact ⟨[], k, keys, rfl, trivial, notSpared⟩

lemma answers_general (nonzero : N ≠ 0) (notSmall : ¬ N ≤ 2) :
    Answers f N (Cache.lookup f) fun (cache : Cache Key Value N) past => ∃ order, cache.Keeps f past order := by
  rintro cache past k ⟨order, keeps⟩
  rcases em (Recent N past k) with recent | absent
  · obtain ⟨before, idx, after, rfl, here, value, others⟩ := keeps.find recent
    refine ⟨_, by rw [Cache.lookup_hit keeps.chain others here value, decide_eq_false (not_not.mpr recent)],
      fun spared => ?_⟩
    obtain ⟨cache', hit, kept⟩ := keeps.single recent (spared.2.resolve_left notSmall recent)
    rw [Cache.lookup_hit keeps.chain others here value] at hit
    obtain rfl : _ = cache' := (Prod.ext_iff.mp (Option.some.inj hit)).2
    exact ⟨_, kept⟩
  · obtain ⟨cache', order', missed, kept⟩ := keeps.lookup_absent nonzero absent
    exact ⟨cache', by rw [missed, decide_eq_true absent], fun _ => ⟨order', kept⟩⟩

lemma answers_two : Answers f 2 (fun cache k => some (Cache2.lookup f cache k)) (Cache2.Keeps f) := by
  intro cache past k keeps
  obtain ⟨cache', stepped, kept⟩ := Cache2.lookup_eq keeps k
  exact ⟨cache', congrArg some stepped, fun _ => kept⟩

lemma answers_one : Answers f 1 (fun entry k => some (lookup1 f entry k))
    fun entry past => entry = (recency past)[0]?.map fun k => (k, f k) :=
  fun _ _ k keeps => ⟨_, congrArg some (lookup1_eq keeps k), fun _ => rfl⟩

lemma lookups_general (notOne : N ≠ 1) (notTwo : N ≠ 2) :
    lookups f N keys = run (Cache.lookup f) (Cache.empty : Cache Key Value N) keys := by
  unfold lookups
  split <;> first | contradiction | rfl

lemma lookups_of_spared (nonzero : N ≠ 0) (spared : EverySpared N [] keys) (k : Key) :
    lookups f N (keys ++ [k]) = some (expected f N [] (keys ++ [k])) := by
  rcases em (N ≤ 2) with small | large
  · obtain rfl | rfl : N = 1 ∨ N = 2 := by omega
    · exact answers_one.run_eq rfl spared k
    · exact answers_two.run_eq (show Cache2.Keeps f ⟨none, none, false⟩ [] from ⟨rfl, rfl⟩) spared k
  · rw [lookups_general (by omega) (by omega)]
    exact (answers_general nonzero large).run_eq ⟨[], Cache.keeps_empty⟩ spared k

lemma exists_lost (large : ¬ N ≤ 2) (spared : EverySpared N [] keys) (notSpared : ¬ Spared N keys.reverse k) :
    ∃ cut, (cut = k ∨ cut ∈ keys) ∧
      lookups f N (keys ++ [k] ++ [cut]) ≠ some (expected f N [] (keys ++ [k] ++ [cut])) := by
  have hit := (not_or.mp ((not_and_or.mp notSpared).resolve_left (by omega))).2
  obtain ⟨recent, several⟩ := Classical.not_imp.mp hit
  obtain ⟨other, used, differ⟩ : ∃ other ∈ keys.reverse, other ≠ k := by simpa using several
  obtain ⟨cache, ⟨order, keeps⟩, rest⟩ :=
    (answers_general (f := f) (by omega) large).run_append ⟨[], Cache.keeps_empty⟩ spared
  rw [append_nil] at keeps
  obtain ⟨cache', cut, old, hit, recentCut, cache'', missed⟩ := keeps.lost (by omega) recent used differ
  refine ⟨cut, old.imp id mem_reverse.mp, fun same => ?_⟩
  rw [lookups_general (by omega) (by omega), append_assoc, rest, expected_append] at same
  simp [run, hit, missed, expected, recentCut] at same

/-- The cache generates a value exactly when it has to, whichever of the keys is looked up after some of the lookups. -/
theorem lookups_iff (f : Key → Value) (N : ℕ) (keys : List Key) :
    (∀ past, past <+: keys → ∀ k ∈ keys, lookups f N (past ++ [k]) = some (expected f N [] (past ++ [k]))) ↔
      EverySpared N [] keys := by
  constructor
  · intro right
    by_contra not
    obtain ⟨before, k, after, rfl, spared, notSpared⟩ := exists_not_spared not
    rw [append_nil] at notSpared
    rcases em (N ≤ 2) with small | large
    · obtain rfl : N = 0 := by
        by_contra nonzero
        exact notSpared ⟨nonzero, .inl small⟩
      have first := right [] nil_prefix k (by simp)
      exact absurd first (by simp [lookups, run, Cache.lookup, Cache.empty, walk])
    · obtain ⟨cut, old, wrong⟩ := exists_lost (f := f) large spared notSpared
      exact wrong (right (before ++ [k]) ⟨after, by simp⟩ cut (by simp; tauto))
  · rintro spared past ⟨more, rfl⟩ k member
    refine lookups_of_spared ?_ (everySpared_append.mp spared).1 k
    rcases list : past ++ more with _ | ⟨first, keys⟩ <;> rw [list] at member spared
    · exact absurd member not_mem_nil
    · exact spared.1.1

/-- A hit leaves the other key at the head, where the one that was hit is not found. -/
theorem generated_again : lookups id 3 [0, 1, 0, 0] = some [(0, true), (1, true), (0, false), (0, true)] ∧
    lookups id 3 [0, 1, 0, 0] ≠ some (expected id 3 [] [0, 1, 0, 0]) := by decide

end Runs

end HpcToolkit.Util.LinearLruCache
