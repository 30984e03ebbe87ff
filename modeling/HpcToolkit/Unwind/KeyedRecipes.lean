import HpcToolkit.Unwind.Poison

/-! # What the recipe map does whatever its intervals are

The keys of a skip list ascend in every run, also where intervals overlap or are empty. A search by address then finds the
interval with the lowest start among those around the address.
-/

open Function List

namespace HpcToolkit.Unwind

open Lib

/-- The starts ascend and stay below the right sentinel. -/
structure Keyed (stored : RecipeList) : Prop where
  sorted : StartSorted stored
  below : ∀ pair ∈ stored, pair.interval.start < uintptrMax

/-- A pair that a search for the address finds. -/
structure Visible (stored : RecipeList) (pair : Pair) (address : Nat) : Prop where
  there : pair ∈ stored
  contains : pair.interval.Contains address
  first : ∀ other ∈ stored, other.interval.start < pair.interval.start → ¬ other.interval.Contains address

variable {stored stored' : RecipeList} {pair other : Pair} {address lo hi start stop : Nat}

lemma StartSorted.split (sorted : StartSorted stored) (there : pair ∈ stored) :
    ∃ front back, stored = front ++ pair :: back ∧
      (∀ other ∈ front, other.interval.start < pair.interval.start) ∧
      ∀ other ∈ back, pair.interval.start < other.interval.start := by
  obtain ⟨front, back, rfl⟩ := append_of_mem there
  obtain ⟨-, right, across⟩ := pairwise_append.mp sorted
  exact ⟨front, back, rfl, fun other inFront => across other inFront pair mem_cons_self,
    (pairwise_cons.mp right).1⟩

namespace Keyed

variable (keyed : Keyed stored)
include keyed

lemma sublist {fewer : RecipeList} (sub : fewer.Sublist stored) : Keyed fewer :=
  ⟨List.Pairwise.sublist sub keyed.sorted, fun pair there => keyed.below pair (sub.mem there)⟩

lemma inrange_lt (there : pair ∈ stored) (starts : pair.interval.start ≤ address)
    (outside : ¬ pair.interval.Contains address) : pairInrange pair address = .lt := by
  apply (intervalInrange_lt_iff address (keyed.below pair there)).mpr
  simp only [Interval.Contains] at outside
  omega

lemma find_of_visible (visible : Visible stored pair address) : csklInrangeFind address stored = some pair := by
  obtain ⟨there, contains, first⟩ := visible
  obtain ⟨front, back, rfl, inFront, -⟩ := keyed.sorted.split there
  have before : ∀ other ∈ front, pairInrange other address = .lt := by
    intro other otherThere
    have known := mem_append_left (pair :: back) otherThere
    have earlier := inFront other otherThere
    exact keyed.inrange_lt known (earlier.le.trans contains.1) (first other known earlier)
  have matched : pairInrange pair address = .eq :=
    (intervalInrange_eq_iff address (keyed.below pair there)).mpr contains
  rw [csklInrangeFind, seek_append before, seek_cons, matched]

omit keyed in
lemma exists_visible (sorted : StartSorted stored) (there : other ∈ stored)
    (contains : other.interval.Contains address) : ∃ pair, Visible stored pair address := by
  induction stored with
  | nil => cases there
  | cons w rest ih =>
    obtain ⟨behind, restSorted⟩ := pairwise_cons.mp sorted
    rcases em (w.interval.Contains address) with here | notHere
    · refine ⟨w, mem_cons_self, here, ?_⟩
      intro earlier earlierThere before
      rcases mem_cons.mp earlierThere with rfl | later
      · exact absurd before (lt_irrefl _)
      · exact absurd (behind earlier later) before.asymm
    · have later : other ∈ rest := by
        rcases mem_cons.mp there with rfl | later
        · exact absurd contains notHere
        · exact later
      obtain ⟨pair, found, around, first⟩ := ih restSorted later
      refine ⟨pair, mem_cons_of_mem w found, around, ?_⟩
      intro earlier earlierThere before
      rcases mem_cons.mp earlierThere with rfl | inRest
      · exact notHere
      · exact first earlier inRest before

lemma csklInrangeFind_eq_some_iff : csklInrangeFind address stored = some pair ↔ Visible stored pair address := by
  refine ⟨?_, keyed.find_of_visible⟩
  intro found
  obtain ⟨there, matched⟩ := seek_sound found
  have contains := (intervalInrange_eq_iff address (keyed.below pair there)).mp matched
  obtain ⟨first, visible⟩ := exists_visible keyed.sorted there contains
  obtain rfl : first = pair := Option.some.inj ((keyed.find_of_visible visible).symm.trans found)
  exact visible

lemma not_contains_of_find_eq_none (missed : csklInrangeFind address stored = none) (there : pair ∈ stored) :
    ¬ pair.interval.Contains address := by
  intro contains
  obtain ⟨first, visible⟩ := exists_visible keyed.sorted there contains
  rw [keyed.find_of_visible visible] at missed
  cases missed

lemma mem_inrangeDelBulk_of_apart (visible : Visible stored pair address)
    (apart : Apart pair.interval ⟨lo, hi + 1⟩) : pair ∈ inrangeDelBulk lo hi stored := by
  obtain ⟨there, contains, first⟩ := visible
  rcases apart with ends | starts
  · obtain ⟨front, back, whole, inFront, -⟩ := keyed.sorted.split there
    simp only [Interval.Contains] at contains ends first
    have before : ∀ other ∈ front ++ [pair], pairInrange other lo = .lt := by
      intro other otherThere
      rcases mem_append.mp otherThere with inside | last
      · have known : other ∈ stored := by
          rw [whole]
          exact mem_append_left _ inside
        have earlier := inFront other inside
        have missed := first other known earlier
        apply (intervalInrange_lt_iff lo (keyed.below other known)).mpr
        omega
      · obtain rfl := mem_singleton.mp last
        apply (intervalInrange_lt_iff lo (keyed.below other there)).mpr
        omega
    apply mem_append_left
    rw [whole, ← singleton_append, ← append_assoc, takeWhile_append_of_pos]
    · exact mem_append_left _ (mem_append_right front (mem_singleton_self pair))
    · intro other otherThere
      exact decide_eq_true (before other otherThere)
  · apply mem_splice_of_gt there
    apply (intervalInrange_gt_iff hi (keyed.below pair there)).mpr
    exact starts

lemma not_mem_inrangeDelBulk (visible : Visible stored pair address) (starts : lo ≤ pair.interval.start)
    (ends : pair.interval.stop ≤ hi + 1) : pair ∉ inrangeDelBulk lo hi stored := by
  obtain ⟨there, contains, first⟩ := visible
  obtain ⟨front, back, whole, inFront, inBack⟩ := keyed.sorted.split there
  have notBack : pair ∉ back := fun later => lt_irrefl _ (inBack pair later)
  have notFront : pair ∉ front := fun earlier => lt_irrefl _ (inFront pair earlier)
  simp only [Interval.Contains] at contains first
  have notBefore : pairInrange pair lo ≠ .lt := by
    intro before
    have known := (intervalInrange_lt_iff lo (keyed.below pair there)).mp before
    omega
  have notAfter : pairInrange pair hi ≠ .gt := by
    intro after
    have known := (intervalInrange_gt_iff hi (keyed.below pair there)).mp after
    omega
  have before : ∀ other ∈ front, pairInrange other hi = .lt := by
    intro other inside
    have known : other ∈ stored := by
      rw [whole]
      exact mem_append_left _ inside
    have earlier := inFront other inside
    have missed := first other known earlier
    apply (intervalInrange_lt_iff hi (keyed.below other known)).mpr
    omega
  rw [inrangeDelBulk, splice, whole, mem_append, not_or]
  constructor
  · intro inTake
    have isBefore := mem_takeWhile_imp inTake
    exact notBefore (of_decide_eq_true isBefore)
  · have dropped : (front ++ pair :: back).dropWhile (fun v => decide (pairInrange v lo = .lt)) =
        front.dropWhile (fun v => decide (pairInrange v lo = .lt)) ++ pair :: back := by
      rw [dropWhile_append]
      split_ifs with empty
      · rw [isEmpty_iff.mp empty, nil_append, dropWhile_cons, if_neg]
        exact fun isBefore => notBefore (of_decide_eq_true isBefore)
      · rfl
    have gone : (past (pairInrange · hi) (pair :: back)).Sublist back := by
      apply past_cons_sublist
      exact notAfter
    rw [dropped, past_append]
    · exact fun kept => notBack (gone.mem kept)
    · intro other inside
      exact before other ((dropWhile_sublist _).mem inside)

omit keyed in
lemma poison_returns (stored : RecipeList) (memory stop : Nat) (inner : start < uintptrMax) :
    ∃ stored', poison memory start stop stored = some stored' := by
  unfold poison csklInsert
  split
  · exact ⟨_, rfl⟩
  · rw [if_neg (by simpa [pairInit] using inner.ne)]
    exact ⟨_, rfl⟩

lemma poison_grows {memory : Nat} (bounded : start ≤ uintptrMax)
    (poisoned : poison memory start stop stored = some stored') :
    Keyed stored' ∧ (∀ pair ∈ stored, pair ∈ stored') ∧
      ∀ pair ∈ stored', pair = pairInit memory .never none start stop ∨ pair ∈ stored := by
  rcases poison_cases keyed.sorted poisoned with ⟨-, -, -, rfl⟩ | ⟨-, inner, sorted, members⟩
  · exact ⟨keyed, fun pair there => there, fun pair => .inr⟩
  · refine ⟨⟨sorted, ?_⟩, fun pair there => (members pair).mpr (.inr there), fun pair => (members pair).mp⟩
    intro pair there
    rcases (members pair).mp there with rfl | old
    · exact lt_of_le_of_ne bounded inner
    · exact keyed.below pair old

lemma mem_cmpDelBulk_iff (there : other ∈ stored) : pair ∈ cmpDelBulk other stored ↔ pair ∈ stored ∧ pair ≠ other := by
  rw [mem_cmpDelBulk keyed.sorted]
  apply and_congr_right
  intro pairThere
  exact not_congr ⟨keyed.sorted.eq_of_start pairThere there, fun same => by rw [same]⟩

lemma unpoison_cases {memory memory' : Nat} (bounded : stop ≤ uintptrMax)
    (unpoisoned : unpoison memory memory' start stop stored = some stored') :
    stored' = stored ∨ ∃ around, Visible stored around start ∧ Keyed stored' ∧
      (∀ pair ∈ stored, pair ≠ around → pair ∈ stored') ∧
      ∀ pair ∈ stored', pair = pairInit memory .never none around.interval.start start ∨
        pair = pairInit memory' .never none stop around.interval.stop ∨ pair ∈ stored ∧ pair ≠ around := by
  unfold unpoison at unpoisoned
  split at unpoisoned
  · exact .inl (Option.some.inj unpoisoned).symm
  · rename_i around found
    right
    have visible := keyed.csklInrangeFind_eq_some_iff.mp found
    have below := keyed.below around visible.there
    have rest : Keyed (cmpDelBulk around stored) := keyed.sublist splice_sublist
    obtain ⟨half, first, second⟩ := Option.bind_eq_some_iff.mp unpoisoned
    obtain ⟨halfKeyed, halfGrows, halfMembers⟩ := rest.poison_grows below.le first
    obtain ⟨wholeKeyed, wholeGrows, wholeMembers⟩ := halfKeyed.poison_grows bounded second
    refine ⟨around, visible, wholeKeyed, ?_, ?_⟩
    · intro pair there ne
      apply wholeGrows pair
      apply halfGrows pair
      exact (keyed.mem_cmpDelBulk_iff visible.there).mpr ⟨there, ne⟩
    · intro pair there
      rcases wholeMembers pair there with rfl | there
      · exact .inr (.inl rfl)
      rcases halfMembers pair there with rfl | there
      · exact .inl rfl
      · exact .inr (.inr ((keyed.mem_cmpDelBulk_iff visible.there).mp there))

lemma joinLeft_cases (start : Nat) :
    joinLeft start stored = (start, stored) ∨
    ∃ left ∈ stored, left.interval.stop = start ∧ left.stat = .never ∧
      joinLeft start stored = (left.interval.start, cmpDelBulk left stored) := by
  unfold joinLeft
  split_ifs
  · split
    · exact .inl rfl
    · rename_i left found
      split_ifs with both
      · exact .inr ⟨left, (keyed.csklInrangeFind_eq_some_iff.mp found).there, both.1, both.2, rfl⟩
      · exact .inl rfl
  · exact .inl rfl

lemma joinRight_cases (stop : Nat) :
    joinRight stop stored = (stop, stored) ∨
    ∃ right ∈ stored, right.interval.start = stop ∧ right.stat = .never ∧
      joinRight stop stored = (right.interval.stop, cmpDelBulk right stored) := by
  unfold joinRight
  split_ifs
  · split
    · exact .inl rfl
    · rename_i right found
      split_ifs with both
      · exact .inr ⟨right, (keyed.csklInrangeFind_eq_some_iff.mp found).there, both.1, both.2, rfl⟩
      · exact .inl rfl
  · exact .inl rfl

/-- Unmapping stores at most one poisoned pair, which covers the range and neighbours that are taken out for it, and takes
out nothing else that is to be built outside of the range. -/
lemma unmapRange_cases (memory stop : Nat) (inner : start < uintptrMax) :
    ∃ first last stored', unmapRange memory start stop stored = some stored' ∧ Keyed stored' ∧
      (∀ pair ∈ inrangeDelBulk start (stop - 1) stored, pair.stat ≠ .never → pair ∈ stored') ∧
      (∀ pair ∈ stored', pair = pairInit memory .never none first last ∨
        pair ∈ inrangeDelBulk start (stop - 1) stored ∧ (last ≠ stop → pair.interval.start ≠ stop)) ∧
      (first = start ∨ ∃ left ∈ stored, left.interval.start = first ∧ left.interval.stop = start) ∧
      (last = stop ∨ ∃ right ∈ stored, right.interval.start = stop ∧ right.interval.stop = last) := by
  have rest : Keyed (inrangeDelBulk start (stop - 1) stored) := keyed.sublist splice_sublist
  have known : ∀ pair ∈ inrangeDelBulk start (stop - 1) stored, pair ∈ stored := fun pair there =>
    splice_sublist.mem there
  have left : ∃ first fewer, joinLeft start (inrangeDelBulk start (stop - 1) stored) = (first, fewer) ∧ Keyed fewer ∧
      first < uintptrMax ∧
      (∀ pair ∈ fewer, pair ∈ inrangeDelBulk start (stop - 1) stored) ∧
      (∀ pair ∈ inrangeDelBulk start (stop - 1) stored, pair.stat ≠ .never → pair ∈ fewer) ∧
      (first = start ∨ ∃ left ∈ stored, left.interval.start = first ∧ left.interval.stop = start) := by
    rcases rest.joinLeft_cases start with same | ⟨left, there, ends, never, joined⟩
    · exact ⟨start, _, same, rest, inner, fun _ there => there, fun _ there _ => there, .inl rfl⟩
    · refine ⟨_, _, joined, rest.sublist splice_sublist, rest.below left there, ?_, ?_,
        .inr ⟨left, known left there, rfl, ends⟩⟩
      · exact fun pair pairThere => splice_sublist.mem pairThere
      · intro pair pairThere notNever
        apply (rest.mem_cmpDelBulk_iff there).mpr
        refine ⟨pairThere, ?_⟩
        rintro rfl
        exact notNever never
  obtain ⟨first, fewer, leftJoined, fewerKeyed, firstBelow, fewerOld, fewerKeeps, leftCase⟩ := left
  have right : ∃ last least, joinRight stop fewer = (last, least) ∧ Keyed least ∧
      (∀ pair ∈ least, pair ∈ fewer ∧ (last ≠ stop → pair.interval.start ≠ stop)) ∧
      (∀ pair ∈ fewer, pair.stat ≠ .never → pair ∈ least) ∧
      (last = stop ∨ ∃ right ∈ stored, right.interval.start = stop ∧ right.interval.stop = last) := by
    rcases fewerKeyed.joinRight_cases stop with same | ⟨right, there, starts, never, joined⟩
    · exact ⟨stop, _, same, fewerKeyed, fun _ there => ⟨there, fun ne => absurd rfl ne⟩, fun _ there _ => there, .inl rfl⟩
    · refine ⟨_, _, joined, fewerKeyed.sublist splice_sublist, ?_, ?_,
        .inr ⟨right, known right (fewerOld right there), starts, rfl⟩⟩
      · intro pair pairThere
        obtain ⟨inFewer, ne⟩ := (mem_cmpDelBulk fewerKeyed.sorted).mp pairThere
        exact ⟨inFewer, fun _ => starts ▸ ne⟩
      · intro pair pairThere notNever
        apply (fewerKeyed.mem_cmpDelBulk_iff there).mpr
        refine ⟨pairThere, ?_⟩
        rintro rfl
        exact notNever never
  obtain ⟨last, least, rightJoined, leastKeyed, leastOld, leastKeeps, rightCase⟩ := right
  obtain ⟨stored', poisoned⟩ := poison_returns least memory last firstBelow
  obtain ⟨keyed', grows, members⟩ := leastKeyed.poison_grows firstBelow.le poisoned
  refine ⟨first, last, stored', ?_, keyed', ?_, ?_, leftCase, rightCase⟩
  · rw [unmapRange, repoison, leftJoined]
    dsimp only
    rw [rightJoined]
    exact poisoned
  · intro pair there notNever
    exact grows pair (leastKeeps pair (fewerKeeps pair there notNever) notNever)
  · intro pair there
    rcases members pair there with new | old
    · exact .inl new
    · obtain ⟨inFewer, ne⟩ := leastOld pair old
      exact .inr ⟨fewerOld pair inFewer, ne⟩

end Keyed

end HpcToolkit.Unwind

/-! # The recipes that threads remember

Each thread has a hash table from addresses to recipes it has looked up. An entry points to a pair of the skip list and to a
node of its interval tree. A thread that unmaps a module purges its own table; the pairs and tree nodes of the module are
freed and used again.
-/

namespace HpcToolkit.Unwind

open Lib

/-- `uw_hash_entry_t`; the two pointers are places in memory. -/
structure UwHashEntry where
  uw : Unwinder
  key : Nat
  ilmBtui : Nat
  btuwi : Nat

structure UwHashTable where
  size : Nat
  entries : Nat → UwHashEntry

def uwHash (key size : Nat) : Nat :=
  if key < size then key else key % size

/-- `uw_hash_new` for the table of a thread. -/
def uwHashNew : UwHashTable :=
  ⟨1023, fun _ => ⟨.dwarf, 0, 0, 0⟩⟩

def uwHashInsert (table : UwHashTable) (uw : Unwinder) (key ilmBtui btuwi : Nat) : UwHashTable :=
  { table with entries := update table.entries (uwHash key table.size) ⟨uw, key, ilmBtui, btuwi⟩ }

def uwHashLookup (table : UwHashTable) (uw : Unwinder) (key : Nat) : Option UwHashEntry :=
  let entry := table.entries (uwHash key table.size)
  if entry.key ≠ key ∨ entry.uw ≠ uw then none else some entry

def uwHashDeleteRange (table : UwHashTable) (start stop : Nat) : UwHashTable :=
  { table with entries := fun i =>
      let entry := table.entries i
      if i < table.size ∧ start ≤ entry.key ∧ entry.key < stop then { entry with key := 0 } else entry }

/-- The nodes of an interval tree. -/
def Bitree.nodes : Bitree → List Uwi
  | null => []
  | node uwi left right => uwi :: (left.nodes ++ right.nodes)

/-- The recipe maps, the tables of the threads, and what the memory of pairs and of tree nodes holds, freed or not. -/
structure CacheState where
  mapped : List LoadModule
  maps : RecipeMaps
  tables : Nat → UwHashTable
  pairs : Nat → Interval × Option Nat
  uwis : Nat → Uwi

/-- `unwindr_info_t` after a successful lookup: the tree node with its recipe, the load module and the interval. -/
structure UnwindrInfo where
  uwi : Uwi
  lm : Option Nat
  interval : Interval
deriving DecidableEq

/-- The answer of a thread's hash table, read through the pointers of the entry. -/
def CacheState.tableAnswer (s : CacheState) (thread : Nat) (uw : Unwinder) (address : Nat) : Option UnwindrInfo :=
  if address = 0 then none
  else (uwHashLookup (s.tables thread) uw address).map fun entry =>
    ⟨s.uwis entry.btuwi, (s.pairs entry.ilmBtui).2, (s.pairs entry.ilmBtui).1⟩

/-- The answer that a pair of the skip list gives. -/
def Pair.answer (pair : Pair) (address : Nat) : Option UnwindrInfo :=
  if pair.stat = .ready then (pair.btuwi.inrange address).map fun uwi => ⟨uwi, pair.lm, pair.interval⟩ else none

/-- The answer of the skip list and of the interval tree. -/
def CacheState.mapAnswer (s : CacheState) (uw : Unwinder) (address : Nat) : Option UnwindrInfo :=
  (csklInrangeFind address (s.maps.get uw)).bind fun pair => pair.answer address

/-- Writes the nodes of a new tree to memory. -/
def writeTree (tree : Bitree) (uwis : Nat → Uwi) (place : Nat) : Uwi :=
  (tree.nodes.find? fun uwi => uwi.place = place).getD (uwis place)

/-- The memory after a new pair for a function was set up, which happens if no pair is found. -/
def CacheState.initPairs (s : CacheState) (uw : Unwinder) (memory address : Nat) (bounds : Option (Interval × Nat)) :
    Nat → Interval × Option Nat :=
  match helperFind address (s.maps.get uw), bounds with
  | none, some (function, lm) => update s.pairs memory (function, some lm)
  | _, _ => s.pairs

/-- The memory after the thread that found the pair deferred has built its tree. -/
def buildTree (built : Option Bitree) (pair : Pair) (uwis : Nat → Uwi) : Nat → Uwi :=
  if pair.stat = .deferred then
    match built with
    | some tree => writeTree tree uwis
    | none => uwis
  else uwis

/-- Enters the answer of a pair into the table of a thread. -/
def CacheState.remember (s : CacheState) (thread : Nat) (uw : Unwinder) (address : Nat) (pair : Pair) : CacheState :=
  match if address = 0 then none else pair.answer address with
  | none => s
  | some info =>
    let table := uwHashInsert (s.tables thread) uw address pair.place info.uwi.place
    { s with tables := update s.tables thread table }

/-- The state once the pair that a lookup works with is settled. -/
def CacheState.settled (s : CacheState) (uw : Unwinder) (memory address : Nat) (bounds : Option (Interval × Nat))
    (built : Option Bitree) (pair : Pair) (stored : RecipeList) : CacheState :=
  { s with
    maps := s.maps.set (updateStart pair.interval.start (settle built) stored) uw
    pairs := s.initPairs uw memory address bounds
    uwis := buildTree built pair s.uwis }

/-- `uw_recipe_map_lookup` by a thread. -/
def CacheState.lookup (s : CacheState) (thread : Nat) (uw : Unwinder) (memory address : Nat)
    (bounds : Option (Interval × Nat)) (built : Option Bitree) : Option (Option UnwindrInfo × CacheState) :=
  match s.tableAnswer thread uw address with
  | some info => some (some info, s)
  | none =>
    (lookupPair memory address bounds (s.maps.get uw)).map fun (pair, stored) =>
      match pair with
      | none => (none, s)
      | some pair =>
        (if address = 0 then none else (settle built pair).answer address,
          (s.settled uw memory address bounds built pair stored).remember thread uw address (settle built pair))

/-- What can happen: a thread without thread data purges no table when it unmaps a module. -/
inductive CacheEvent where
  | map (lm : LoadModule) (memory memory' : Unwinder → Nat)
  | unmap (lm : LoadModule) (memory : Unwinder → Nat) (thread : Option Nat)
  | lookup (thread : Nat) (uw : Unwinder) (memory address : Nat) (bounds : Option (Interval × Nat))
      (built : Option Bitree)

/-- The tables after `uw_recipe_map_notify_unmap` by a thread. -/
def purge (tables : Nat → UwHashTable) (lm : LoadModule) : Option Nat → Nat → UwHashTable
  | none => tables
  | some thread => update tables thread
      (uwHashDeleteRange (tables thread) lm.range.start lm.range.stop)

def CacheState.step (s : CacheState) : CacheEvent → Option CacheState
  | .map lm memory memory' =>
    (forUnwinders (fun uw => unpoison (memory uw) (memory' uw) lm.range.start lm.range.stop) s.maps).map
      fun maps => { s with mapped := lm :: s.mapped, maps := maps }
  | .unmap lm memory thread =>
    (forUnwinders (fun uw => unmapRange (memory uw) lm.range.start lm.range.stop) s.maps).map
      fun maps => { s with
        mapped := s.mapped.filter (· ≠ lm)
        maps := maps
        tables := purge s.tables lm thread }
  | .lookup thread uw memory address bounds built =>
    (s.lookup thread uw memory address bounds built).map Prod.snd

/-- The mapped modules are disjoint, a lookup gets the bounds of a function of a mapped module, and memory that is handed
out for a pair or a tree node is not in use. -/
def CacheState.Allowed (s : CacheState) : CacheEvent → Prop
  | .map lm _ _ => ∀ other ∈ s.mapped, Apart lm.range other.range
  | .unmap lm _ _ => lm ∈ s.mapped
  | .lookup _ _ memory _ bounds built =>
    (∀ found ∈ bounds, ∃ lm ∈ s.mapped, lm.id = found.2 ∧ found.1 ∈ lm.functions) ∧
    (∀ uw, ∀ pair ∈ s.maps.get uw, pair.place ≠ memory) ∧
    ∀ tree ∈ built, (∀ a ∈ tree.nodes, ∀ b ∈ tree.nodes, a.place = b.place → a = b) ∧
      ∀ uw, ∀ pair ∈ s.maps.get uw, ∀ old ∈ pair.btuwi.nodes, ∀ new ∈ tree.nodes, old.place ≠ new.place

/-- What a table answers is what the skip list and the interval tree answer, and no answer is from a module that is not
mapped. -/
structure CacheState.Agrees (s : CacheState) : Prop where
  same : ∀ thread uw address info, s.tableAnswer thread uw address = some info → s.mapAnswer uw address = some info
  current : ∀ uw address info, s.mapAnswer uw address = some info →
    ∃ lm ∈ s.mapped, info.lm = some lm.id ∧ info.interval ∈ lm.functions ∧ info.interval.Contains address

/-- No thread but the one that unmaps has an entry for an address of the module. -/
def CacheState.Forgotten (s : CacheState) : CacheEvent → Prop
  | .unmap lm _ thread => ∀ other, some other ≠ thread → ∀ uw address, address ≠ 0 → lm.range.Contains address →
    uwHashLookup (s.tables other) uw address = none
  | _ => True

def CacheState.initial (memory : Unwinder → Nat) (pairs : Nat → Interval × Option Nat) (uwis : Nat → Uwi) : CacheState :=
  ⟨[], recipeMapInit memory, fun _ => uwHashNew, pairs, uwis⟩

end HpcToolkit.Unwind
