import HpcToolkit.Unwind.OrderedRecipes
import HpcToolkit.Lib.Reachable

/-! # Poisoned intervals and mapped load modules

The map follows the load modules through notifications, and lookups add the functions of mapped modules. A poisoned interval
that is cut in two leaves a right part even when it is empty, and an interval of one address is not found when its left
neighbour is unmapped. The poisoned intervals stay exactly the unmapped addresses in the runs that meet neither case.
-/

namespace HpcToolkit.Unwind

open Lib

/-- A load module with the function bounds of its `dso_info`. -/
structure LoadModule where
  id : Nat
  range : Interval
  functions : List Interval
  nonempty : range.start < range.stop
  bounded : range.stop ≤ uintptrMax
  inside : ∀ function ∈ functions,
    range.start ≤ function.start ∧ function.start < function.stop ∧ function.stop ≤ range.stop
  separate : ∀ function ∈ functions, ∀ other ∈ functions, function = other ∨ Apart function other
deriving DecidableEq

/-- The mapped load modules and the recipe maps. -/
structure RecipeState where
  mapped : List LoadModule
  maps : RecipeMaps

/-- What can happen to the recipe maps. A lookup comes with the answer of `fnbounds_enclosing_addr` and with the tree that
`build_intervals` makes, if it does not crash. -/
inductive RecipeEvent where
  | map (lm : LoadModule) (memory memory' : Unwinder → Nat)
  | unmap (lm : LoadModule) (memory : Unwinder → Nat)
  | lookup (uw : Unwinder) (memory address : Nat) (bounds : Option (Interval × Nat)) (built : Option Bitree)

/-- `uw_recipe_map_notify_map`, `uw_recipe_map_notify_unmap` and `uw_recipe_map_lookup`. -/
def RecipeState.step (s : RecipeState) : RecipeEvent → Option RecipeState
  | .map lm memory memory' =>
    (forUnwinders (fun uw => unpoison (memory uw) (memory' uw) lm.range.start lm.range.stop) s.maps).map
      fun maps => ⟨lm :: s.mapped, maps⟩
  | .unmap lm memory =>
    (forUnwinders (fun uw => unmapRange (memory uw) lm.range.start lm.range.stop) s.maps).map
      fun maps => ⟨s.mapped.filter (· ≠ lm), maps⟩
  | .lookup uw memory address bounds built =>
    (lookupStored memory address bounds built (s.maps.get uw)).map fun stored => { s with maps := s.maps.set stored uw }

/-- The mapped modules are disjoint at every moment, and a lookup gets the bounds of a function of a mapped module. -/
def RecipeState.Allowed (s : RecipeState) : RecipeEvent → Prop
  | .map lm _ _ => ∀ other ∈ s.mapped, Apart lm.range other.range
  | .unmap lm _ => lm ∈ s.mapped
  | .lookup _ _ _ bounds _ => ∀ found ∈ bounds, ∃ lm ∈ s.mapped, lm.id = found.2 ∧ found.1 ∈ lm.functions

/-- The poisoned intervals of a skip list are exactly the unmapped addresses. -/
structure PoisonExact (mapped : List LoadModule) (stored : RecipeList) : Prop where
  outside : ∀ address < uintptrMax, (∀ lm ∈ mapped, ¬ lm.range.Contains address) →
    stored.countP (fun pair => pair.stat = .never ∧ pair.interval.Contains address) = 1
  inside : ∀ lm ∈ mapped, ∀ address, lm.range.Contains address →
    ∀ pair ∈ stored, pair.lm = none → ¬ pair.interval.Contains address
  disjoint : stored.Pairwise fun a b => ∀ address, ¬ (a.interval.Contains address ∧ b.interval.Contains address)
  firstFree : ∀ lm ∈ mapped, ∀ pair ∈ stored, pair.interval.start = lm.range.start → pair.interval ∈ lm.functions

def RecipeState.Exact (s : RecipeState) : Prop :=
  ∀ uw, PoisonExact s.mapped (s.maps.get uw)

/-- A stored interval starts before the module and does not end before it; if it ends with it, another one starts there. -/
def MapFits (stored : RecipeList) (lm : LoadModule) : Prop :=
  ∃ pair ∈ stored, pair.interval.start < lm.range.start ∧ lm.range.start < pair.interval.stop ∧
    lm.range.stop ≤ pair.interval.stop ∧
    (lm.range.stop = pair.interval.stop → ∃ right ∈ stored, right.interval.start = lm.range.stop)

/-- No function whose recipes could not be built ends where the module starts or, with a second address, starts where the
module ends. -/
def UnmapFits (stored : RecipeList) (lm : LoadModule) : Prop :=
  ∀ pair ∈ stored, pair.lm ≠ none → pair.stat = .never →
    pair.interval.stop ≠ lm.range.start ∧
      ¬ (pair.interval.start = lm.range.stop ∧ lm.range.stop + 1 < pair.interval.stop)

def RecipeState.Fits (s : RecipeState) : RecipeEvent → Prop
  | .map lm _ _ => ∀ uw, MapFits (s.maps.get uw) lm
  | .unmap lm _ => ∀ uw, UnmapFits (s.maps.get uw) lm
  | .lookup .. => True

/-- Nothing is mapped at first and everything is poisoned. -/
def RecipeState.initial (memory : Unwinder → Nat) : RecipeState :=
  ⟨[], recipeMapInit memory⟩

/-- The intervals lie one behind the other; those without a load module are the unmapped addresses, the others are functions
of mapped modules. -/
structure PoisonInv (mapped : List LoadModule) (stored : RecipeList) : Prop where
  ordered : Ordered stored
  poisoned : ∀ pair ∈ stored, pair.lm = none → pair.stat = .never
  unmapped : ∀ address < uintptrMax, (∀ lm ∈ mapped, ¬ lm.range.Contains address) →
    ∃ pair ∈ stored, pair.lm = none ∧ pair.interval.Contains address
  clear : ∀ pair ∈ stored, pair.lm = none → ∀ lm ∈ mapped, Apart pair.interval lm.range
  functions : ∀ pair ∈ stored, pair.lm ≠ none → ∃ lm ∈ mapped, pair.lm = some lm.id ∧ pair.interval ∈ lm.functions

structure RecipeState.Inv (s : RecipeState) : Prop where
  separate : s.mapped.Pairwise fun a b => Apart a.range b.range
  stored : ∀ uw, PoisonInv s.mapped (s.maps.get uw)

section Operations

variable {stored : RecipeList} {memory memory' start stop : Nat}

lemma poison_proper (memory : Nat) (ordered : Ordered stored) (nonempty : start < stop) (bounded : stop ≤ uintptrMax)
    (away : ∀ other ∈ stored, Apart ⟨start, stop⟩ other.interval) :
    ∃ stored', poison memory start stop stored = some stored' ∧ Ordered stored' ∧
      ∀ pair, pair ∈ stored' ↔ pair = pairInit memory .never none start stop ∨ pair ∈ stored := by
  have inserted : csklInsert (pairInit memory .never none start stop) stored = some (_, _) :=
    ordered.csklInsert ⟨nonempty, bounded⟩ away
  refine ⟨_, by rw [poison, inserted]; rfl, ?_, fun pair => mem_place⟩
  exact ordered.place ⟨nonempty, bounded⟩ away

lemma poison_present (sorted : StartSorted stored) {other : Pair} (there : other ∈ stored)
    (same : other.interval.start = start) : poison memory start stop stored = some stored := by
  rw [poison, csklInsert_present sorted there same]
  rfl

lemma poison_cases {stored' : RecipeList} (sorted : StartSorted stored)
    (poisoned : poison memory start stop stored = some stored') :
    (∃ other ∈ stored, other.interval.start = start ∧ stored' = stored) ∨
      ((∀ other ∈ stored, other.interval.start ≠ start) ∧ start ≠ uintptrMax ∧ StartSorted stored' ∧
        ∀ pair, pair ∈ stored' ↔ pair = pairInit memory .never none start stop ∨ pair ∈ stored) := by
  obtain ⟨⟨other, after⟩, inserted, rfl⟩ := Option.map_eq_some_iff.mp poisoned
  rcases csklInsert_cases sorted inserted with ⟨there, same, rfl⟩ | ⟨absent, boundary, -, rfl⟩
  · exact .inl ⟨other, there, same, rfl⟩
  · exact .inr ⟨absent, boundary, sorted.place absent, fun pair => mem_place⟩

variable {around : Pair}

lemma unpoison_eq (ordered : Ordered stored) (there : around ∈ stored)
    (contains : around.interval.Contains start) :
    unpoison memory memory' start stop stored =
      (poison memory around.interval.start start (cmpDelBulk around stored)).bind
        (poison memory' stop around.interval.stop) := by
  rw [unpoison, ordered.csklInrangeFind_eq_some_iff.mpr ⟨there, contains⟩]

lemma mem_cmpDelBulk_iff_ne (pair : Pair) (ordered : Ordered stored) (there : around ∈ stored) :
    pair ∈ cmpDelBulk around stored ↔ pair ∈ stored ∧ pair ≠ around := by
  rw [mem_cmpDelBulk ordered.startSorted]
  apply and_congr_right
  intro pairThere
  constructor
  · rintro other rfl
    exact other rfl
  · intro ne same
    exact ne (ordered.startSorted.eq_of_start pairThere there same)

/-- A range that a stored interval reaches around on both sides is cut out of it; the right part is dropped if it is empty
and an interval starts there. -/
lemma unpoison_spec (memory memory' : Nat) (ordered : Ordered stored) (there : around ∈ stored)
    (left : around.interval.start < start) (nonempty : start < stop) (right : stop ≤ around.interval.stop)
    (next : stop = around.interval.stop → ∃ other ∈ stored, other.interval.start = stop) :
    ∃ stored', unpoison memory memory' start stop stored = some stored' ∧ Ordered stored' ∧
      ∀ pair, pair ∈ stored' ↔ pair = pairInit memory .never none around.interval.start start ∨
        (pair = pairInit memory' .never none stop around.interval.stop ∧ stop < around.interval.stop) ∨
        pair ∈ stored ∧ pair ≠ around := by
  have proper := ordered.proper around there
  have members := fun pair => mem_cmpDelBulk_iff_ne pair ordered there
  have remaining : Ordered (cmpDelBulk around stored) := ordered.sublist splice_sublist
  have away : ∀ other ∈ cmpDelBulk around stored, Apart around.interval other.interval := by
    intro other kept
    obtain ⟨otherThere, ne⟩ := (members other).mp kept
    exact ordered.apart_of_ne there otherThere ne.symm
  obtain ⟨half, first, halfOrdered, halfMembers⟩ := poison_proper memory remaining left
    (by omega) (fun other kept => by
      have off := away other kept
      have otherProper := remaining.proper other kept
      simp only [Apart] at off ⊢
      omega)
  rw [unpoison_eq ordered there ⟨left.le, by omega⟩, first, Option.bind_some]
  rcases right.eq_or_lt with atEnd | inner
  · obtain ⟨other, otherThere, same⟩ := next atEnd
    have kept : other ∈ half := by
      apply (halfMembers other).mpr
      refine .inr ((members other).mpr ⟨otherThere, ?_⟩)
      rintro rfl
      omega
    refine ⟨half, poison_present halfOrdered.startSorted kept same, halfOrdered, ?_⟩
    intro pair
    rw [halfMembers pair, members pair]
    have notInner : ¬ stop < around.interval.stop := by omega
    tauto
  · obtain ⟨whole, second, wholeOrdered, wholeMembers⟩ := poison_proper memory' halfOrdered inner
      proper.2 (fun other kept => by
        rcases (halfMembers other).mp kept with rfl | kept
        · simp only [Apart, pairInit]
          omega
        · have off := away other kept
          have otherProper := remaining.proper other kept
          simp only [Apart] at off ⊢
          omega)
    refine ⟨whole, second, wholeOrdered, ?_⟩
    intro pair
    rw [wholeMembers pair, halfMembers pair, members pair]
    tauto

lemma joinLeft_spec (start : Nat) (ordered : Ordered stored) :
    (joinLeft start stored = (start, stored) ∧
      ∀ left ∈ stored, left.interval.stop = start → left.stat ≠ .never) ∨
    ∃ left ∈ stored, left.interval.stop = start ∧ left.stat = .never ∧
      joinLeft start stored = (left.interval.start, cmpDelBulk left stored) := by
  rcases em (∃ left ∈ stored, left.interval.stop = start ∧ left.stat = .never) with ⟨left, there, ends, never⟩ | none
  · right
    have proper := ordered.proper left there
    have found : csklInrangeFind (start - 1) stored = some left := by
      apply ordered.csklInrangeFind_eq_some_iff.mpr
      refine ⟨there, ?_⟩
      rw [Interval.Contains]
      omega
    refine ⟨left, there, ends, never, ?_⟩
    simp only [joinLeft, found, ends, never, and_self, if_true]
    rw [if_pos (by omega)]
  · left
    refine ⟨?_, fun left there ends never => none ⟨left, there, ends, never⟩⟩
    rw [joinLeft]
    split_ifs with positive
    · split
      · rfl
      · rename_i found matched
        obtain ⟨there, -⟩ := ordered.csklInrangeFind_eq_some_iff.mp matched
        rw [if_neg (fun both => none ⟨found, there, both⟩)]
    · rfl

lemma joinRight_spec (stop : Nat) (ordered : Ordered stored) :
    (joinRight stop stored = (stop, stored) ∧
      ∀ right ∈ stored, right.interval.start = stop → stop + 1 < right.interval.stop → right.stat ≠ .never) ∨
    ∃ right ∈ stored, right.interval.start = stop ∧ stop + 1 < right.interval.stop ∧ right.stat = .never ∧
      joinRight stop stored = (right.interval.stop, cmpDelBulk right stored) := by
  rcases em (∃ right ∈ stored, right.interval.start = stop ∧ stop + 1 < right.interval.stop ∧ right.stat = .never)
    with ⟨right, there, starts, second, never⟩ | none
  · right
    have proper := ordered.proper right there
    have found : csklInrangeFind (stop + 1) stored = some right := by
      apply ordered.csklInrangeFind_eq_some_iff.mpr
      refine ⟨there, ?_⟩
      rw [Interval.Contains]
      omega
    refine ⟨right, there, starts, second, never, ?_⟩
    simp only [joinRight, found, starts, never, and_self, if_true]
    rw [if_pos (by omega)]
  · left
    refine ⟨?_, fun right there starts second never => none ⟨right, there, starts, second, never⟩⟩
    rw [joinRight]
    split_ifs with inner
    · split
      · rfl
      · rename_i found matched
        obtain ⟨there, around⟩ := ordered.csklInrangeFind_eq_some_iff.mp matched
        rw [if_neg (fun both => none ⟨found, there, both.1, around.2, both.2⟩)]
    · rfl

/-- The range that an unmapped module leaves poisoned: its own, longer by the neighbours that are never to be built. -/
structure Joined (stored : RecipeList) (start stop first last : Nat) : Prop where
  left : first = start ∧ (∀ pair ∈ stored, pair.interval.stop = start → pair.stat ≠ .never) ∨
    ∃ pair ∈ stored, pair.interval.stop = start ∧ pair.stat = .never ∧ pair.interval.start = first
  right : last = stop ∧
      (∀ pair ∈ stored, pair.interval.start = stop → stop + 1 < pair.interval.stop → pair.stat ≠ .never) ∨
    ∃ pair ∈ stored, pair.interval.start = stop ∧ stop + 1 < pair.interval.stop ∧ pair.stat = .never ∧
      pair.interval.stop = last

variable {first last : Nat}

lemma Joined.first_le (joined : Joined stored start stop first last) (ordered : Ordered stored) :
    first ≤ start := by
  rcases joined.left with ⟨rfl, -⟩ | ⟨pair, there, ends, -, rfl⟩
  · exact le_rfl
  · have proper := ordered.proper pair there
    omega

lemma Joined.le_last (joined : Joined stored start stop first last) : stop ≤ last := by
  rcases joined.right with ⟨rfl, -⟩ | ⟨pair, there, starts, second, -, rfl⟩
  · exact le_rfl
  · omega

lemma joinLeft_inrangeDelBulk (ordered : Ordered stored) (nonempty : start < stop) :
    ∃ first fewer, joinLeft start (inrangeDelBulk start (stop - 1) stored) = (first, fewer) ∧ Ordered fewer ∧
      first ≤ start ∧
      (first = start ∧ (∀ pair ∈ stored, pair.interval.stop = start → pair.stat ≠ .never) ∨
        ∃ pair ∈ stored, pair.interval.stop = start ∧ pair.stat = .never ∧ pair.interval.start = first) ∧
      ∀ pair, pair ∈ fewer ↔ pair ∈ stored ∧ (pair.interval.stop ≤ first ∨ stop ≤ pair.interval.start) := by
  have upward : start ≤ stop - 1 := by omega
  have remaining : Ordered (inrangeDelBulk start (stop - 1) stored) := ordered.sublist splice_sublist
  have members : ∀ pair, pair ∈ inrangeDelBulk start (stop - 1) stored ↔
      pair ∈ stored ∧ (pair.interval.stop ≤ start ∨ stop ≤ pair.interval.start) := by
    intro pair
    rw [ordered.mem_inrangeDelBulk upward]
    apply and_congr_right
    intro _
    omega
  rcases joinLeft_spec start remaining with ⟨unchanged, nothing⟩ | ⟨left, there, ends, never, joined⟩
  · refine ⟨start, _, unchanged, remaining, le_rfl, .inl ⟨rfl, ?_⟩, members⟩
    intro pair pairThere ends
    exact nothing pair ((members pair).mpr ⟨pairThere, .inl ends.le⟩) ends
  · have leftStored := ((members left).mp there).1
    have proper := ordered.proper left leftStored
    refine ⟨left.interval.start, _, joined, remaining.sublist splice_sublist, by omega,
      .inr ⟨left, leftStored, ends, never, rfl⟩, ?_⟩
    intro pair
    rw [mem_cmpDelBulk_iff_ne pair remaining there, members pair]
    constructor
    · rintro ⟨⟨pairThere, side⟩, ne⟩
      have off := ordered.apart_of_ne pairThere leftStored ne
      have pairProper := ordered.proper pair pairThere
      rw [Apart] at off
      exact ⟨pairThere, by omega⟩
    · rintro ⟨pairThere, side⟩
      refine ⟨⟨pairThere, by omega⟩, ?_⟩
      rintro rfl
      omega

lemma unmapRange_spec (memory : Nat) (ordered : Ordered stored) (nonempty : start < stop)
    (bounded : stop ≤ uintptrMax) :
    ∃ first last stored', Joined stored start stop first last ∧
      unmapRange memory start stop stored = some stored' ∧ Ordered stored' ∧
      ∀ pair, pair ∈ stored' ↔ pair = pairInit memory .never none first last ∨
        pair ∈ stored ∧ Apart pair.interval ⟨first, last⟩ := by
  obtain ⟨first, fewer, leftJoined, fewerOrdered, firstLe, leftCase, members⟩ :=
    joinLeft_inrangeDelBulk ordered nonempty
  have right : ∃ last rest, joinRight stop fewer = (last, rest) ∧ Ordered rest ∧ stop ≤ last ∧ last ≤ uintptrMax ∧
      (last = stop ∧
        (∀ pair ∈ stored, pair.interval.start = stop → stop + 1 < pair.interval.stop → pair.stat ≠ .never) ∨
      ∃ pair ∈ stored, pair.interval.start = stop ∧ stop + 1 < pair.interval.stop ∧ pair.stat = .never ∧
        pair.interval.stop = last) ∧
      ∀ pair, pair ∈ rest ↔ pair ∈ stored ∧ (pair.interval.stop ≤ first ∨ last ≤ pair.interval.start) := by
    rcases joinRight_spec stop fewerOrdered with
      ⟨unchanged, nothing⟩ | ⟨right, there, starts, second, never, joined⟩
    · refine ⟨stop, fewer, unchanged, fewerOrdered, le_rfl, bounded, .inl ⟨rfl, ?_⟩, members⟩
      intro pair pairThere starts
      exact nothing pair ((members pair).mpr ⟨pairThere, .inr starts.ge⟩) starts
    · have rightStored := ((members right).mp there).1
      have proper := ordered.proper right rightStored
      refine ⟨right.interval.stop, _, joined, fewerOrdered.sublist splice_sublist, by omega, proper.2,
        .inr ⟨right, rightStored, starts, second, never, rfl⟩, ?_⟩
      intro pair
      rw [mem_cmpDelBulk_iff_ne pair fewerOrdered there, members pair]
      constructor
      · rintro ⟨⟨pairThere, side⟩, ne⟩
        have off := ordered.apart_of_ne pairThere rightStored ne
        have pairProper := ordered.proper pair pairThere
        rw [Apart] at off
        exact ⟨pairThere, by omega⟩
      · rintro ⟨pairThere, side⟩
        refine ⟨⟨pairThere, by omega⟩, ?_⟩
        rintro rfl
        omega
  obtain ⟨last, rest, rightJoined, restOrdered, lastGe, lastLe, rightCase, restMembers⟩ := right
  have away : ∀ other ∈ rest, Apart ⟨first, last⟩ other.interval := fun other there =>
    ((restMembers other).mp there).2.symm
  obtain ⟨stored', poisoned, ordered', members'⟩ :=
    poison_proper memory restOrdered (by omega : first < last) lastLe away
  refine ⟨first, last, stored', ⟨leftCase, rightCase⟩, ?_, ordered', ?_⟩
  · rw [unmapRange, repoison, leftJoined]
    dsimp only
    rw [rightJoined]
    exact poisoned
  · intro pair
    rw [members' pair, restMembers pair]
    rfl

end Operations

end HpcToolkit.Unwind
