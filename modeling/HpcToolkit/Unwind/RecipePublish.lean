import HpcToolkit.Unwind.RecipeThreads

/-! # Each function is inserted and built once

A pair has one builder from the compare-exchange that took it on, and only the builder writes to it until it is ready. What
the other threads know about a pair stays true under the steps of all threads.
-/

open Function List
open Prod (fst)

namespace HpcToolkit.Unwind

open Lib LookupState RecipeMaps

lemma TreeStat.Moves.ne_deferred {stat stat' : TreeStat} (moves : stat.Moves stat') (started : stat ≠ .deferred) :
    stat' ≠ .deferred := by
  cases moves with
  | stay => exact started
  | start => exact absurd rfl started
  | publish => decide
  | fail => decide

namespace LookupState

/-- What a thread may rely on at a stage. -/
def StageOk (s : LookupState) (thread : Nat) (uw : Unwinder) (pair : Pair) : Stage → Prop
  | .load | .cas => True
  | .build | .publish | .fail => pair.stat = .forthcoming ∧ ((uw, pair.place), thread) ∈ s.builders
  | .write tree => (pair.stat = .forthcoming ∧ ((uw, pair.place), thread) ∈ s.builders) ∧
      ∀ uwi ∈ tree.nodes, uwi.place ∈ s.used ∧ s.uwis uwi.place = uwi
  | .spin oldstat => oldstat ≠ .deferred ∧ pair.stat ≠ .deferred ∧ (oldstat = .ready → pair.stat = .ready)
  | .read => pair.stat = .ready

/-- The pair in hand is stored, and if it is a function, it is the one around the address. -/
def Working (s : LookupState) (thread : Nat) (uw : Unwinder) (address place : Nat) (stage : Stage) : Prop :=
  ∃ pair ∈ s.maps.get uw, pair.place = place ∧ (pair.lm ≠ none → pair.interval.Contains address) ∧
    s.StageOk thread uw pair stage

structure Inv (bounds : FnBounds) (s : LookupState) : Prop where
  keyed : ∀ uw, Keyed (s.maps.get uw)
  places : ∀ uw, ((s.maps.get uw).map Pair.place).Nodup
  poisoned : ∀ uw, ∀ pair ∈ s.maps.get uw, pair.lm = none → pair.stat = .never
  functions : ∀ uw, ∀ pair ∈ s.maps.get uw, pair.lm ≠ none →
    ∃ address found, bounds.enclosing address = some found ∧ pair.interval = found.1
  trees : ∀ uw, ∀ pair ∈ s.maps.get uw, ∀ uwi ∈ pair.btuwi.nodes, uwi.place ∈ s.used ∧ s.uwis uwi.place = uwi
  insertedOnce : s.inserted.Nodup
  stored : ∀ uw interval, (uw, interval) ∈ s.inserted ↔ ∃ pair ∈ s.maps.get uw, pair.lm ≠ none ∧ pair.interval = interval
  oneBuilder : (s.builders.map fst).Nodup
  builderStored : ∀ uw place, (uw, place) ∈ s.builders.map fst → ∃ pair ∈ s.maps.get uw, pair.place = place
  built : ∀ uw, ∀ pair ∈ s.maps.get uw, pair.lm ≠ none →
    (pair.stat ≠ .deferred ↔ (uw, pair.place) ∈ s.builders.map fst)
  working : ∀ thread uw address place stage, s.threads thread = .work uw address place stage →
    s.Working thread uw address place stage
  entries : ∀ thread uw key entry, key ≠ 0 → uwHashLookup (s.tables thread) uw key = some entry →
    entry.btuwi ∈ s.used ∧ (s.uwis entry.btuwi).interval.Contains key ∧
      ∃ pair ∈ s.maps.get uw, pair.place = entry.ilmBtui ∧ pair.interval.Contains key
  answers : ∀ address info, (address, some info) ∈ s.returned →
    info.uwi.interval.Contains address ∧ info.interval.Contains address

variable {bounds : FnBounds} {s s' : LookupState} {thread : Nat} {uw : Unwinder} {address place : Nat} {pair other : Pair}

lemma pairAt_sound {stored : RecipeList} (found : pairAt place stored = some pair) :
    pair ∈ stored ∧ pair.place = place :=
  ⟨mem_of_find?_eq_some found, by simpa using find?_some found⟩

lemma Inv.pair_eq (inv : s.Inv bounds) (there : pair ∈ s.maps.get uw) (otherThere : other ∈ s.maps.get uw)
    (same : pair.place = other.place) : pair = other :=
  inj_on_of_nodup_map (inv.places uw) there otherThere same

lemma Inv.lm_ne_none (inv : s.Inv bounds) (there : pair ∈ s.maps.get uw) (started : pair.stat ≠ .never) :
    pair.lm ≠ none :=
  fun isPoison => started (inv.poisoned uw pair there isPoison)

variable {stage : Stage}

lemma StageOk.mono (ok : s.StageOk thread uw pair stage)
    (more : ∀ builder ∈ s.builders, builder ∈ s'.builders)
    (kept : ∀ uwi : Uwi, uwi.place ∈ s.used → s.uwis uwi.place = uwi → uwi.place ∈ s'.used ∧ s'.uwis uwi.place = uwi) :
    s'.StageOk thread uw pair stage := by
  cases stage with
  | load | cas => trivial
  | build | publish | fail => exact ⟨ok.1, more _ ok.2⟩
  | write tree =>
    refine ⟨⟨ok.1.1, more _ ok.1.2⟩, ?_⟩
    intro uwi inTree
    obtain ⟨inUse, same⟩ := ok.2 uwi inTree
    exact kept uwi inUse same
  | spin oldstat => exact ok
  | read => exact ok

lemma StageOk.of_unfinished (ok : s.StageOk thread uw pair stage)
    (unfinished : pair.stat = .deferred ∨ pair.stat = .forthcoming)
    (other_builds : ((uw, pair.place), thread) ∉ s.builders) (started : other.stat ≠ .deferred) :
    s'.StageOk thread uw other stage := by
  have notReady : pair.stat ≠ .ready := by
    rcases unfinished with stat | stat <;> rw [stat] <;> decide
  cases stage with
  | load | cas => trivial
  | build | publish | fail => exact absurd ok.2 other_builds
  | write tree => exact absurd ok.1.2 other_builds
  | spin oldstat => exact ⟨ok.1, started, fun ready => absurd (ok.2.2 ready) notReady⟩
  | read => exact absurd ok notReady

variable {pc : LookupPc}

lemma Inv.goto (inv : s.Inv bounds)
    (ok : ∀ uw address place stage, pc = .work uw address place stage → s.Working thread uw address place stage) :
    (s.goto thread pc).Inv bounds := by
  refine { inv with working := ?_ }
  intro other uw address place stage at'
  rcases eq_or_ne other thread with rfl | ne
  · simp only [goto, update_self] at at'
    exact ok uw address place stage at'
  · simp only [LookupState.goto, update_of_ne ne] at at'
    exact inv.working other uw address place stage at'

variable {info : Option UnwindrInfo}

lemma Inv.returned (inv : s.Inv bounds)
    (right : ∀ found ∈ info, found.uwi.interval.Contains address ∧ found.interval.Contains address) :
    Inv bounds { s with returned := (address, info) :: s.returned } := by
  refine { inv with answers := ?_ }
  intro other found returned
  rcases mem_cons.mp returned with same | before
  · obtain ⟨rfl, rfl⟩ := Prod.mk.inj same
    exact right found rfl
  · exact inv.answers other found before

lemma Inv.finish (inv : s.Inv bounds)
    (right : ∀ found ∈ info, found.uwi.interval.Contains address ∧ found.interval.Contains address) :
    (s.finish thread address info).Inv bounds := by
  have idle : (s.goto thread .idle).Inv bounds := inv.goto fun _ _ _ _ impossible => by cases impossible
  exact idle.returned right

variable {f : Pair → Pair}

lemma Inv.mem_setPair (inv : s.Inv bounds) (there : pair ∈ s.maps.get uw) :
    other ∈ setPair pair.place f (s.maps.get uw) ↔ other = f pair ∨ other ∈ s.maps.get uw ∧ other ≠ pair := by
  unfold setPair
  rw [mem_map]
  constructor
  · rintro ⟨old, oldThere, rfl⟩
    split_ifs with same
    · rw [inv.pair_eq oldThere there same]
      exact .inl rfl
    · exact .inr ⟨oldThere, fun equal => same (congrArg Pair.place equal)⟩
  · rintro (rfl | ⟨oldThere, ne⟩)
    · exact ⟨pair, there, if_pos rfl⟩
    · exact ⟨other, oldThere, if_neg fun same => ne (inv.pair_eq oldThere there same)⟩

/-- A change to a pair that its owner makes: its place, interval and module stay. -/
structure OwnChange (pair changed : Pair) : Prop where
  place : changed.place = pair.place
  interval : changed.interval = pair.interval
  lm : changed.lm = pair.lm

lemma Inv.keyed_setPair (inv : s.Inv bounds) (there : pair ∈ s.maps.get uw)
    (own : OwnChange pair (f pair)) :
    Keyed (setPair pair.place f (s.maps.get uw)) ∧ ((setPair pair.place f (s.maps.get uw)).map Pair.place).Nodup := by
  have same : ∀ old ∈ s.maps.get uw, (if old.place = pair.place then f old else old).interval = old.interval ∧
      (if old.place = pair.place then f old else old).place = old.place := by
    intro old oldThere
    split_ifs with equal
    · obtain rfl := inv.pair_eq oldThere there equal
      exact ⟨own.interval, own.place⟩
    · exact ⟨rfl, rfl⟩
  refine ⟨⟨?_, ?_⟩, ?_⟩
  · apply pairwise_map.mpr
    apply (inv.keyed uw).sorted.imp_of_mem
    intro a b aThere bThere before
    rw [(same a aThere).1, (same b bThere).1]
    exact before
  · intro changed changedThere
    obtain ⟨old, oldThere, rfl⟩ := mem_map.mp changedThere
    rw [(same old oldThere).1]
    exact (inv.keyed uw).below old oldThere
  · have unchanged : (setPair pair.place f (s.maps.get uw)).map Pair.place = (s.maps.get uw).map Pair.place := by
      unfold setPair
      rw [map_map]
      apply map_congr_left
      intro old oldThere
      exact (same old oldThere).2
    rw [unchanged]
    exact inv.places uw

/-- The one thread that takes on a pair or works on it may change it, and the others can still rely on what they know. -/
lemma Inv.change (inv : s.Inv bounds) (there : pair ∈ s.maps.get uw) (own : OwnChange pair (f pair))
    (unfinished : pair.stat = .deferred ∨ pair.stat = .forthcoming) (started : (f pair).stat ≠ .deferred)
    (trees : ∀ uwi ∈ (f pair).btuwi.nodes, uwi.place ∈ s.used ∧ s.uwis uwi.place = uwi)
    {builders : List ((Unwinder × Nat) × Nat)} (more : ∀ builder ∈ s.builders, builder ∈ builders)
    (only : ∀ builder ∈ builders, builder ∈ s.builders ∨ builder.1 = (uw, pair.place))
    (here : (uw, pair.place) ∈ builders.map fst) (one : (builders.map fst).Nodup)
    (alone : ∀ other ≠ thread, ((uw, pair.place), other) ∉ s.builders)
    (ok : ∀ uw' address place stage, pc = .work uw' address place stage →
      Working { s.change uw pair.place f with builders := builders } thread uw' address place stage) :
    Inv bounds { (s.change uw pair.place f).goto thread pc with builders := builders } := by
  have hasModule : pair.lm ≠ none := by
    apply inv.lm_ne_none there
    rcases unfinished with stat | stat <;> rw [stat] <;> decide
  have self : (s.change uw pair.place f).maps.get uw = setPair pair.place f (s.maps.get uw) :=
    get_set_self _ _ _
  have others : ∀ other ≠ uw, (s.change uw pair.place f).maps.get other = s.maps.get other :=
    fun other ne => get_set_other _ _ ne
  -- every stored pair has its old version, which differs for the changed pair only
  have old : ∀ other, ∀ changed ∈ (s.change uw pair.place f).maps.get other,
      (other = uw ∧ changed = f pair) ∨ changed ∈ s.maps.get other ∧ (other = uw → changed ≠ pair) := by
    intro other changed changedThere
    rcases eq_or_ne other uw with rfl | ne
    · rw [self] at changedThere
      rcases (inv.mem_setPair there).mp changedThere with rfl | ⟨oldThere, ne⟩
      · exact .inl ⟨rfl, rfl⟩
      · exact .inr ⟨oldThere, fun _ => ne⟩
    · rw [others other ne] at changedThere
      exact .inr ⟨changedThere, fun same => absurd same ne⟩
  have new : ∀ other, ∀ before ∈ s.maps.get other, (other = uw → before ≠ pair) →
      before ∈ (s.change uw pair.place f).maps.get other := by
    intro other before beforeThere ne
    rcases eq_or_ne other uw with rfl | different
    · rw [self]
      exact (inv.mem_setPair there).mpr (.inr ⟨beforeThere, ne rfl⟩)
    · rw [others other different]
      exact beforeThere
  have newPair : f pair ∈ (s.change uw pair.place f).maps.get uw := by
    rw [self]
    exact (inv.mem_setPair there).mpr (.inl rfl)
  have survives : ∀ other, ∀ before ∈ s.maps.get other, ∃ after ∈ (s.change uw pair.place f).maps.get other,
      after.place = before.place ∧ after.interval = before.interval ∧ after.lm = before.lm := by
    intro other before beforeThere
    rcases em (other = uw ∧ before = pair) with ⟨rfl, rfl⟩ | different
    · exact ⟨f before, newPair, own.place, own.interval, own.lm⟩
    · exact ⟨before, new other before beforeThere fun same equal => different ⟨same, equal⟩, rfl, rfl, rfl⟩
  refine ⟨?_, ?_, ?_, ?_, ?_, inv.insertedOnce, ?_, one, ?_, ?_, ?_, ?_, inv.answers⟩
  · intro other
    rcases eq_or_ne other uw with rfl | ne
    · exact self ▸ (inv.keyed_setPair there own).1
    · exact (others other ne).symm ▸ inv.keyed other
  · intro other
    rcases eq_or_ne other uw with rfl | ne
    · exact self ▸ (inv.keyed_setPair there own).2
    · exact (others other ne).symm ▸ inv.places other
  · intro other changed changedThere isPoison
    rcases old other changed changedThere with ⟨rfl, rfl⟩ | ⟨oldThere, -⟩
    · exact absurd (own.lm ▸ isPoison) hasModule
    · exact inv.poisoned other changed oldThere isPoison
  · intro other changed changedThere isFunction
    rcases old other changed changedThere with ⟨rfl, rfl⟩ | ⟨oldThere, -⟩
    · rw [own.interval]
      exact inv.functions other pair there hasModule
    · exact inv.functions other changed oldThere isFunction
  · intro other changed changedThere
    rcases old other changed changedThere with ⟨rfl, rfl⟩ | ⟨oldThere, -⟩
    · exact trees
    · exact inv.trees other changed oldThere
  · intro other interval
    rw [show ({ (s.change uw pair.place f).goto thread pc with builders := builders } : LookupState).inserted =
      s.inserted from rfl, inv.stored other interval]
    constructor
    · rintro ⟨before, beforeThere, isFunction, same⟩
      obtain ⟨after, afterThere, -, sameInterval, sameModule⟩ := survives other before beforeThere
      exact ⟨after, afterThere, sameModule ▸ isFunction, sameInterval.trans same⟩
    · rintro ⟨changed, changedThere, isFunction, same⟩
      rcases old other changed changedThere with ⟨rfl, rfl⟩ | ⟨oldThere, -⟩
      · exact ⟨pair, there, hasModule, own.interval.symm.trans same⟩
      · exact ⟨changed, oldThere, isFunction, same⟩
  · intro other place known
    have before : ∃ before ∈ s.maps.get other, before.place = place := by
      obtain ⟨builder, builderThere, same⟩ := mem_map.mp known
      rcases only builder builderThere with known | equal
      · exact inv.builderStored other place (mem_map.mpr ⟨builder, known, same⟩)
      · obtain ⟨rfl, rfl⟩ := Prod.mk.inj (equal.symm.trans same)
        exact ⟨pair, there, rfl⟩
    obtain ⟨before, beforeThere, rfl⟩ := before
    obtain ⟨after, afterThere, same, -, -⟩ := survives other before beforeThere
    exact ⟨after, afterThere, same⟩
  · intro other changed changedThere isFunction
    rcases old other changed changedThere with ⟨rfl, rfl⟩ | ⟨oldThere, differs⟩
    · rw [own.place]
      exact iff_of_true started here
    · rw [inv.built other changed oldThere isFunction]
      constructor
      · intro known
        obtain ⟨builder, builderThere, same⟩ := mem_map.mp known
        exact mem_map.mpr ⟨builder, more builder builderThere, same⟩
      · intro known
        obtain ⟨builder, builderThere, same⟩ := mem_map.mp known
        rcases only builder builderThere with before | equal
        · exact mem_map.mpr ⟨builder, before, same⟩
        · obtain ⟨rfl, samePlace⟩ := Prod.mk.inj (equal.symm.trans same)
          exact absurd (inv.pair_eq oldThere there samePlace.symm) (differs rfl)
  · intro other uw' address place stage at'
    rcases eq_or_ne other thread with rfl | ne
    · simp only [LookupState.goto, update_self] at at'
      exact ok uw' address place stage at'
    · simp only [LookupState.goto, update_of_ne ne] at at'
      obtain ⟨held, heldThere, samePlace, around, stageOk⟩ := inv.working other uw' address place stage at'
      rcases em (uw' = uw ∧ held = pair) with ⟨rfl, rfl⟩ | different
      · refine ⟨f held, newPair, own.place.trans samePlace, ?_, ?_⟩
        · rw [own.lm, own.interval]
          exact around
        · exact stageOk.of_unfinished unfinished (alone other ne) started
      · refine ⟨held, new uw' held heldThere fun same equal => different ⟨same, equal⟩, samePlace, around, ?_⟩
        exact stageOk.mono more fun uwi inUse same => ⟨inUse, same⟩
  · intro other uw' key entry nonzero found
    obtain ⟨inUse, contains, held, heldThere, samePlace, around⟩ := inv.entries other uw' key entry nonzero found
    obtain ⟨after, afterThere, same, sameInterval, -⟩ := survives uw' held heldThere
    exact ⟨inUse, contains, after, afterThere, same.trans samePlace, sameInterval ▸ around⟩

lemma Advances.refl (stored : RecipeList) : Advances stored stored :=
  fun pair there => ⟨pair, there, rfl, rfl, rfl, .stay _, fun _ => rfl⟩

section
variable (inv : s.Inv bounds)
include inv

lemma Inv.advances_change (there : pair ∈ s.maps.get uw)
    (own : OwnChange pair (f pair)) (moves : pair.stat.Moves (f pair).stat)
    (unfinished : pair.stat = .deferred ∨ pair.stat = .forthcoming) (other : Unwinder) :
    Advances (s.maps.get other) ((s.change uw pair.place f).maps.get other) := by
  intro before beforeThere
  rcases eq_or_ne other uw with rfl | ne
  · rw [show (s.change other pair.place f).maps.get other = _ from get_set_self _ _ _]
    rcases eq_or_ne before pair with rfl | differs
    · refine ⟨f before, (inv.mem_setPair there).mpr (.inl rfl), own.place, own.interval, own.lm, moves, ?_⟩
      intro finished
      rcases unfinished with stat | stat <;> rw [stat] at finished <;> rcases finished with bad | bad <;> cases bad
    · exact ⟨before, (inv.mem_setPair there).mpr (.inr ⟨beforeThere, differs⟩), rfl, rfl, rfl, .stay _, fun _ => rfl⟩
  · rw [show (s.change uw pair.place f).maps.get other = _ from get_set_other _ _ ne]
    exact Advances.refl _ before beforeThere

lemma Inv.alone (builds : ((uw, place), thread) ∈ s.builders) :
    ∀ other ≠ thread, ((uw, place), other) ∉ s.builders := by
  intro other ne builds'
  have same := inj_on_of_nodup_map inv.oneBuilder builds builds' rfl
  exact ne (Prod.mk.inj same).2.symm

lemma Inv.builder_change (there : pair ∈ s.maps.get uw) (building : pair.stat = .forthcoming)
    (builds : ((uw, pair.place), thread) ∈ s.builders) (own : OwnChange pair (f pair))
    (moves : pair.stat.Moves (f pair).stat)
    (trees : ∀ uwi ∈ (f pair).btuwi.nodes, uwi.place ∈ s.used ∧ s.uwis uwi.place = uwi)
    (ok : ∀ uw' address place stage, pc = .work uw' address place stage →
      (s.change uw pair.place f).Working thread uw' address place stage) :
    ((s.change uw pair.place f).goto thread pc).Inv bounds ∧
      ∀ other, Advances (s.maps.get other) (((s.change uw pair.place f).goto thread pc).maps.get other) := by
  have started : (f pair).stat ≠ .deferred := moves.ne_deferred (by rw [building]; decide)
  refine ⟨?_, inv.advances_change there own moves (.inr building)⟩
  exact inv.change there own (.inr building) started trees (fun _ known => known) (fun _ => .inl)
    (mem_map.mpr ⟨_, builds, rfl⟩) inv.oneBuilder (inv.alone builds) ok

lemma Inv.hashStep (stepped : s.hashStep thread uw address = some s') :
    s'.Inv bounds ∧ ∀ other, Advances (s.maps.get other) (s'.maps.get other) := by
  unfold LookupState.hashStep at stepped
  split_ifs at stepped with zero
  · cases stepped
    exact ⟨inv.goto fun _ _ _ _ impossible => (by cases impossible), fun other => Advances.refl _⟩
  split at stepped
  · cases stepped
    exact ⟨inv.goto fun _ _ _ _ impossible => (by cases impossible), fun other => Advances.refl _⟩
  · rename_i entry found
    obtain ⟨pair, held, rfl⟩ := Option.map_eq_some_iff.mp stepped
    obtain ⟨there, samePlace⟩ := pairAt_sound held
    obtain ⟨-, contains, known, knownThere, knownPlace, around⟩ := inv.entries thread uw address entry zero found
    obtain rfl := inv.pair_eq there knownThere (samePlace.trans knownPlace.symm)
    refine ⟨inv.finish ?_, fun other => Advances.refl _⟩
    rintro info ⟨⟩
    exact ⟨contains, around⟩

lemma Inv.findStep (found : csklInrangeFind address (s.maps.get uw) = some pair) :
    s.Working thread uw address pair.place .load := by
  have visible := (inv.keyed uw).csklInrangeFind_eq_some_iff.mp found
  exact ⟨pair, visible.there, rfl, fun _ => visible.contains, trivial⟩

lemma Inv.insert {memory lm : Nat} {function : Interval}
    (enclosing : bounds.enclosing address = some (function, lm))
    (fresh : ∀ uw, ∀ pair ∈ s.maps.get uw, pair.place ≠ memory)
    (absent : ∀ old ∈ s.maps.get uw, old.interval.start ≠ function.start) :
    let new := pairInit memory .deferred (some lm) function.start function.stop
    Inv bounds { s with
      maps := s.maps.set (Lib.place (pairCmp · new) new (s.maps.get uw)) uw
      inserted := (uw, function) :: s.inserted } := by
  intro new
  have proper := bounds.proper address _ enclosing
  have self : (s.maps.set (Lib.place (pairCmp · new) new (s.maps.get uw)) uw).get uw =
      Lib.place (pairCmp · new) new (s.maps.get uw) := get_set_self _ _ _
  have others : ∀ other ≠ uw, (s.maps.set (Lib.place (pairCmp · new) new (s.maps.get uw)) uw).get other =
      s.maps.get other := fun other ne => get_set_other _ _ ne
  have members : ∀ other pair, pair ∈ (s.maps.set (Lib.place (pairCmp · new) new (s.maps.get uw)) uw).get other ↔
      (other = uw ∧ pair = new) ∨ pair ∈ s.maps.get other := by
    intro other pair
    rcases eq_or_ne other uw with rfl | ne
    · rw [self, mem_place]
      simp
    · rw [others other ne]
      simp [ne]
  have keeps : ∀ other, ∀ pair ∈ s.maps.get other,
      pair ∈ (s.maps.set (Lib.place (pairCmp · new) new (s.maps.get uw)) uw).get other :=
    fun other pair there => (members other pair).mpr (.inr there)
  refine ⟨?_, ?_, ?_, ?_, ?_, ?_, ?_, inv.oneBuilder, ?_, ?_, ?_, ?_, inv.answers⟩
  · intro other
    rcases eq_or_ne other uw with rfl | ne
    · dsimp only
      rw [self]
      refine ⟨(inv.keyed other).sorted.place absent, ?_⟩
      intro pair there
      rcases mem_place.mp there with rfl | old
      · exact lt_of_lt_of_le proper.1 proper.2
      · exact (inv.keyed other).below pair old
    · dsimp only
      rw [others other ne]
      exact inv.keyed other
  · intro other
    rcases eq_or_ne other uw with rfl | ne
    · dsimp only
      rw [self]
      apply (place_perm.map Pair.place).nodup_iff.mpr
      apply nodup_cons.mpr
      refine ⟨?_, inv.places other⟩
      intro inUse
      obtain ⟨pair, there, same⟩ := mem_map.mp inUse
      exact fresh other pair there same
    · dsimp only
      rw [others other ne]
      exact inv.places other
  · intro other pair there isPoison
    rcases (members other pair).mp there with ⟨rfl, rfl⟩ | old
    · cases isPoison
    · exact inv.poisoned other pair old isPoison
  · intro other pair there isFunction
    rcases (members other pair).mp there with ⟨rfl, rfl⟩ | old
    · exact ⟨address, _, enclosing, rfl⟩
    · exact inv.functions other pair old isFunction
  · intro other pair there
    rcases (members other pair).mp there with ⟨rfl, rfl⟩ | old
    · intro uwi impossible
      cases impossible
    · exact inv.trees other pair old
  · apply nodup_cons.mpr
    refine ⟨?_, inv.insertedOnce⟩
    intro before
    obtain ⟨pair, there, -, same⟩ := (inv.stored uw function).mp before
    exact absent pair there (by rw [same])
  · intro other interval
    dsimp only
    rw [mem_cons, inv.stored other interval]
    constructor
    · rintro (same | ⟨pair, there, known⟩)
      · obtain ⟨rfl, rfl⟩ := Prod.mk.inj same
        exact ⟨new, (members other new).mpr (.inl ⟨rfl, rfl⟩), Option.some_ne_none _, rfl⟩
      · exact ⟨pair, keeps other pair there, known⟩
    · rintro ⟨pair, there, isFunction, rfl⟩
      rcases (members other pair).mp there with ⟨rfl, rfl⟩ | old
      · exact .inl rfl
      · exact .inr ⟨pair, old, isFunction, rfl⟩
  · intro other place known
    obtain ⟨pair, there, same⟩ := inv.builderStored other place known
    exact ⟨pair, keeps other pair there, same⟩
  · intro other pair there isFunction
    rcases (members other pair).mp there with ⟨rfl, rfl⟩ | old
    · refine iff_of_false (fun started => started rfl) ?_
      intro known
      obtain ⟨pair, there, same⟩ := inv.builderStored other new.place known
      exact fresh other pair there same
    · exact inv.built other pair old isFunction
  · intro thread other address place stage at'
    obtain ⟨pair, there, known⟩ := inv.working thread other address place stage at'
    exact ⟨pair, keeps other pair there, known⟩
  · intro thread other key entry nonzero found
    obtain ⟨inUse, contains, pair, there, known⟩ := inv.entries thread other key entry nonzero found
    exact ⟨inUse, contains, pair, keeps other pair there, known⟩

lemma Inv.insertStep {memory : Nat}
    (stepped : s.insertStep bounds thread uw address memory = some s') :
    s'.Inv bounds ∧ ∀ other, Advances (s.maps.get other) (s'.maps.get other) := by
  unfold LookupState.insertStep at stepped
  split at stepped
  · cases stepped
    exact ⟨inv.finish fun _ impossible => (by cases impossible), fun other => Advances.refl _⟩
  · rename_i function lm enclosing
    split_ifs at stepped with outside fresh
    · cases stepped
      exact ⟨inv.finish fun _ impossible => (by cases impossible), fun other => Advances.refl _⟩
    · obtain ⟨⟨node, stored⟩, inserting, rfl⟩ := Option.map_eq_some_iff.mp stepped
      have contains : function.Contains address := by
        rw [Interval.Contains]
        omega
      have proper := bounds.proper address _ enclosing
      rcases csklInsert_cases (inv.keyed uw).sorted inserting with ⟨nodeThere, starts, rfl⟩ | ⟨absent, -, rfl, rfl⟩
      · dsimp only
        rw [set_get_self, if_neg (fresh uw node nodeThere)]
        refine ⟨inv.goto ?_, fun other => Advances.refl _⟩
        rintro _ _ _ _ ⟨⟩
        refine ⟨node, nodeThere, rfl, ?_, trivial⟩
        intro isFunction
        obtain ⟨around, found, known, same⟩ := inv.functions uw node nodeThere isFunction
        have foundProper := bounds.proper around found known
        rcases bounds.separate _ _ _ _ enclosing known with equal | apart
        · rw [same, ← equal]
          exact contains
        · have begins : node.interval.start = function.start := starts
          rw [same] at begins
          simp only [Apart] at apart
          omega
      · have isNew : (pairInit memory .deferred (some lm) function.start function.stop).place = memory := rfl
        dsimp only
        rw [if_pos isNew]
        have inserted := inv.insert enclosing fresh absent
        refine ⟨inserted.goto ?_, ?_⟩
        · rintro _ _ _ _ ⟨⟩
          refine ⟨_, ?_, rfl, fun _ => contains, trivial⟩
          rw [get_set_self]
          exact mem_place.mpr (.inl rfl)
        · intro other pair there
          refine ⟨pair, ?_, rfl, rfl, rfl, .stay _, fun _ => rfl⟩
          rcases eq_or_ne other uw with rfl | ne
          · exact (get_set_self _ _ _).symm ▸ mem_place.mpr (.inr there)
          · exact (get_set_other _ _ ne).symm ▸ there

lemma Inv.casStep (there : pair ∈ s.maps.get uw)
    (around : pair.lm ≠ none → pair.interval.Contains address) (deferred : pair.stat = .deferred) :
    Inv bounds { (s.change uw pair.place fun pair => { pair with stat := .forthcoming }).goto thread
        (.work uw address pair.place .build) with builders := ((uw, pair.place), thread) :: s.builders } := by
  have hasModule : pair.lm ≠ none := inv.lm_ne_none there (by rw [deferred]; decide)
  have nobody : (uw, pair.place) ∉ s.builders.map fst := by
    intro known
    exact (inv.built uw pair there hasModule).mpr known deferred
  apply inv.change there ⟨rfl, rfl, rfl⟩ (.inl deferred) (by decide : TreeStat.forthcoming ≠ .deferred)
    (inv.trees uw pair there)
  · exact fun builder known => mem_cons_of_mem _ known
  · intro builder known
    rcases mem_cons.mp known with rfl | before
    · exact .inr rfl
    · exact .inl before
  · exact mem_map.mpr ⟨_, mem_cons_self, rfl⟩
  · exact nodup_cons.mpr ⟨nobody, inv.oneBuilder⟩
  · intro other _ builds
    exact nobody (mem_map.mpr ⟨_, builds, rfl⟩)
  · rintro _ _ _ _ ⟨⟩
    refine ⟨{ pair with stat := .forthcoming }, ?_, rfl, around, rfl, mem_cons_self⟩
    exact (get_set_self _ _ _).symm ▸ (inv.mem_setPair there).mpr (.inl rfl)

end

variable {tree : Bitree}

lemma Inv.buildStep (inv : s.Inv bounds) (there : pair ∈ s.maps.get uw)
    (around : pair.lm ≠ none → pair.interval.Contains address) (building : s.StageOk thread uw pair .build)
    (fresh : ∀ uwi ∈ tree.nodes, uwi.place ∉ s.used)
    (distinct : ∀ a ∈ tree.nodes, ∀ b ∈ tree.nodes, a.place = b.place → a = b) :
    Inv bounds { s.goto thread (.work uw address pair.place (.write tree)) with
      uwis := writeTree tree s.uwis
      used := tree.nodes.map Uwi.place ++ s.used } := by
  have unchanged : ∀ place ∈ s.used, writeTree tree s.uwis place = s.uwis place := by
    intro place inUse
    apply CacheState.writeTree_other
    rintro new inTree rfl
    exact fresh new inTree inUse
  have kept : ∀ uwi : Uwi, uwi.place ∈ s.used → s.uwis uwi.place = uwi →
      uwi.place ∈ tree.nodes.map Uwi.place ++ s.used ∧ writeTree tree s.uwis uwi.place = uwi :=
    fun uwi inUse same => ⟨mem_append_right _ inUse, (unchanged _ inUse).trans same⟩
  refine ⟨inv.keyed, inv.places, inv.poisoned, inv.functions, ?_, inv.insertedOnce, inv.stored, inv.oneBuilder,
    inv.builderStored, inv.built, ?_, ?_, inv.answers⟩
  · intro other held heldThere uwi inTree
    obtain ⟨inUse, same⟩ := inv.trees other held heldThere uwi inTree
    exact kept uwi inUse same
  · intro other uw' address' place stage at'
    rcases eq_or_ne other thread with rfl | ne
    · simp only [LookupState.goto, update_self, LookupPc.work.injEq] at at'
      obtain ⟨rfl, rfl, rfl, rfl⟩ := at'
      refine ⟨pair, there, rfl, around, building, ?_⟩
      intro uwi inTree
      exact ⟨mem_append_left _ (mem_map_of_mem inTree), CacheState.writeTree_self distinct inTree⟩
    · simp only [LookupState.goto, update_of_ne ne] at at'
      obtain ⟨held, heldThere, samePlace, heldAround, ok⟩ := inv.working other uw' address' place stage at'
      exact ⟨held, heldThere, samePlace, heldAround, ok.mono (fun _ known => known) kept⟩
  · intro other uw' key entry nonzero found
    obtain ⟨inUse, contains, held⟩ := inv.entries other uw' key entry nonzero found
    refine ⟨mem_append_right _ inUse, ?_, held⟩
    dsimp only
    rw [unchanged _ inUse]
    exact contains

lemma Bitree.inrange_contains {uwi : Uwi} (below : address < uintptrMax)
    (found : tree.inrange address = some uwi) : uwi.interval.Contains address := by
  induction tree with
  | null => cases found
  | node top left right left_ih right_ih =>
    unfold Bitree.inrange at found
    split at found
    · rename_i matched
      cases found
      unfold intervalInrange at matched
      split_ifs at matched with boundary before inside
      · exact absurd boundary.1 below.ne
      · exact ⟨by omega, inside⟩
    · exact left_ih found
    · exact right_ih found

lemma Inv.readStep (inv : s.Inv bounds) (there : pair ∈ s.maps.get uw)
    (around : pair.lm ≠ none → pair.interval.Contains address) (ready : pair.stat = .ready) :
    (s.readStep thread uw address pair).Inv bounds := by
  have hasModule : pair.lm ≠ none := inv.lm_ne_none there (by rw [ready]; decide)
  unfold LookupState.readStep
  split
  · exact inv.finish fun _ impossible => (by cases impossible)
  · rename_i uwi searched
    split_ifs at searched with zero
    obtain ⟨around', found, known, same⟩ := inv.functions uw pair there hasModule
    have proper := bounds.proper around' found known
    have inside := around hasModule
    have contains : uwi.interval.Contains address := by
      apply Bitree.inrange_contains _ searched
      rw [same] at inside
      simp only [Interval.Contains] at inside
      omega
    obtain ⟨inUse, sameUwi⟩ := inv.trees uw pair there uwi (Bitree.inrange_mem searched)
    have finished : (s.finish thread address (some ⟨uwi, pair.lm, pair.interval⟩)).Inv bounds := by
      apply inv.finish
      rintro info ⟨⟩
      exact ⟨contains, inside⟩
    refine { finished with entries := ?_ }
    intro other uw' key entry nonzero lookup
    rcases eq_or_ne other thread with rfl | ne
    · simp only [update_self] at lookup
      rcases uwHashLookup_insert lookup with ⟨rfl, rfl, rfl⟩ | before
      · exact ⟨inUse, sameUwi.symm ▸ contains, pair, there, rfl, inside⟩
      · exact inv.entries other uw' key entry nonzero before
    · simp only [update_of_ne ne] at lookup
      exact inv.entries other uw' key entry nonzero lookup

lemma Inv.quiet (inv : s'.Inv bounds) (same : s'.maps = s.maps) :
    s'.Inv bounds ∧ ∀ other, Advances (s.maps.get other) (s'.maps.get other) := by
  refine ⟨inv, ?_⟩
  rw [same]
  exact fun other => Advances.refl _

lemma Inv.workStep (inv : s.Inv bounds) {built : Option Bitree}
    (working : s.Working thread uw address place stage)
    (stepped : s.workStep thread uw address place built stage = some s') :
    s'.Inv bounds ∧ ∀ other, Advances (s.maps.get other) (s'.maps.get other) := by
  obtain ⟨pair, there, rfl, around, ok⟩ := working
  have held : ∀ found, pairAt pair.place (s.maps.get uw) = some found → found = pair := by
    intro found searched
    obtain ⟨foundThere, samePlace⟩ := pairAt_sound searched
    exact inv.pair_eq foundThere there samePlace
  cases stage with
  | load =>
    obtain ⟨found, searched, rfl⟩ := Option.map_eq_some_iff.mp stepped
    obtain rfl := held found searched
    apply Inv.quiet _ rfl
    apply inv.goto
    rintro _ _ _ _ ⟨⟩
    refine ⟨found, there, rfl, around, ?_⟩
    split_ifs with ready
    · exact ready
    · trivial
  | cas =>
    obtain ⟨found, searched, rfl⟩ := Option.map_eq_some_iff.mp stepped
    obtain rfl := held found searched
    split_ifs with deferred
    · refine ⟨inv.casStep there around deferred, ?_⟩
      apply inv.advances_change there ⟨rfl, rfl, rfl⟩ _ (.inl deferred)
      rw [deferred]
      exact .start
    · apply Inv.quiet _ rfl
      apply inv.goto
      rintro _ _ _ _ ⟨⟩
      exact ⟨found, there, rfl, around, deferred, deferred, id⟩
  | build =>
    simp only [workStep] at stepped
    split at stepped
    · cases stepped
      apply Inv.quiet _ rfl
      apply inv.goto
      rintro _ _ _ _ ⟨⟩
      exact ⟨pair, there, rfl, around, ok⟩
    · split_ifs at stepped with fresh
      cases stepped
      exact Inv.quiet (inv.buildStep there around ok fresh.1 fresh.2) rfl
  | write tree =>
    cases stepped
    apply inv.builder_change there ok.1.1 ok.1.2 ⟨rfl, rfl, rfl⟩ (.stay _) ok.2
    rintro _ _ _ _ ⟨⟩
    refine ⟨{ pair with btuwi := tree }, ?_, rfl, around, ok.1⟩
    exact (get_set_self _ _ _).symm ▸ (inv.mem_setPair there).mpr (.inl rfl)
  | publish =>
    cases stepped
    apply inv.builder_change there ok.1 ok.2 ⟨rfl, rfl, rfl⟩ _ (inv.trees uw pair there)
    · rintro _ _ _ _ ⟨⟩
      refine ⟨{ pair with stat := .ready }, ?_, rfl, around, rfl⟩
      exact (get_set_self _ _ _).symm ▸ (inv.mem_setPair there).mpr (.inl rfl)
    · rw [ok.1]
      exact .publish
  | fail =>
    cases stepped
    have changed : ((s.change uw pair.place fun pair => { pair with stat := .never }).goto thread .idle).Inv bounds ∧ _ :=
      inv.builder_change there ok.1 ok.2 ⟨rfl, rfl, rfl⟩ (by rw [ok.1]; exact .fail) (inv.trees uw pair there)
        (fun _ _ _ _ impossible => by cases impossible)
    exact ⟨changed.1.returned fun _ impossible => (by cases impossible), changed.2⟩
  | spin oldstat =>
    simp only [workStep] at stepped
    split_ifs at stepped with waiting failed
    · obtain ⟨found, searched, rfl⟩ := Option.map_eq_some_iff.mp stepped
      obtain rfl := held found searched
      apply Inv.quiet _ rfl
      apply inv.goto
      rintro _ _ _ _ ⟨⟩
      exact ⟨found, there, rfl, around, ok.2.1, ok.2.1, id⟩
    · cases stepped
      exact Inv.quiet (inv.finish fun _ impossible => (by cases impossible)) rfl
    · cases stepped
      apply Inv.quiet _ rfl
      apply inv.goto
      rintro _ _ _ _ ⟨⟩
      refine ⟨pair, there, rfl, around, ?_⟩
      apply ok.2.2
      cases oldstat with
      | never => exact absurd rfl failed
      | deferred => exact absurd rfl ok.1
      | forthcoming => exact absurd rfl waiting
      | ready => rfl
  | read =>
    obtain ⟨found, searched, rfl⟩ := Option.map_eq_some_iff.mp stepped
    obtain rfl := held found searched
    apply Inv.quiet (inv.readStep there around ok)
    unfold LookupState.readStep
    split <;> rfl

lemma Inv.step (inv : s.Inv bounds) {act : LookupAct} (stepped : s.step bounds act = some s') :
    s'.Inv bounds ∧ ∀ other, Advances (s.maps.get other) (s'.maps.get other) := by
  cases act with
  | call thread uw address =>
    simp only [LookupState.step] at stepped
    split_ifs at stepped
    cases stepped
    exact Inv.quiet (inv.goto fun _ _ _ _ impossible => (by cases impossible)) rfl
  | advance thread memory built =>
    simp only [LookupState.step] at stepped
    split at stepped
    · cases stepped
    · exact inv.hashStep stepped
    · split at stepped
      · cases stepped
        exact Inv.quiet (inv.goto fun _ _ _ _ impossible => (by cases impossible)) rfl
      · rename_i found
        cases stepped
        apply Inv.quiet _ rfl
        apply inv.goto
        rintro _ _ _ _ ⟨⟩
        exact inv.findStep found
    · exact inv.insertStep stepped
    · rename_i at'
      exact inv.workStep (inv.working _ _ _ _ _ at') stepped

lemma initial_inv (bounds : FnBounds) {maps : RecipeMaps} (uwis : Nat → Uwi) (start : AllPoisoned maps) :
    (initial maps uwis).Inv bounds := by
  refine ⟨start.keyed, start.places, fun uw pair there _ => (start.poisoned uw pair there).2.1, ?_, ?_, nodup_nil,
    ?_, nodup_nil, fun _ _ none => (by cases none), ?_, fun _ _ _ _ _ none => (by cases none), ?_,
    fun _ _ none => (by cases none)⟩
  · intro uw pair there isFunction
    exact absurd (start.poisoned uw pair there).1 isFunction
  · intro uw pair there uwi inTree
    rw [(start.poisoned uw pair there).2.2] at inTree
    cases inTree
  · intro uw interval
    refine iff_of_false (fun none => by cases none) ?_
    rintro ⟨pair, there, isFunction, -⟩
    exact isFunction (start.poisoned uw pair there).1
  · intro uw pair there isFunction
    exact absurd (start.poisoned uw pair there).1 isFunction
  · intro thread uw key entry nonzero found
    rw [show (initial maps uwis).tables thread = uwHashNew from rfl, CacheState.uwHashLookup_new nonzero] at found
    cases found

lemma Inv.publishedOnce (inv : s.Inv bounds) : s.PublishedOnce := by
  refine ⟨inv.insertedOnce, inv.stored, ?_, ?_, inv.answers⟩
  · intro uw pair there isFunction
    have counted : s.builders.countP (fun builder => decide (builder.1 = (uw, pair.place))) =
        (s.builders.map fst).count (uw, pair.place) := by
      rw [count, countP_map]
      apply countP_congr
      intro builder _
      simp
    rw [counted]
    split_ifs with deferred
    · apply count_eq_zero.mpr
      intro known
      exact (inv.built uw pair there isFunction).mpr known deferred
    · exact count_eq_one_of_mem inv.oneBuilder ((inv.built uw pair there isFunction).mp deferred)
  · intro thread uw address place at'
    obtain ⟨pair, there, same, -, ready⟩ := inv.working thread uw address place .read at'
    exact ⟨pair, there, same, ready⟩

/-- In every state that lookups by any threads reach from a map of poisoned intervals, in whatever order their steps are
taken, each function is inserted once and has one builder, trees are read when they are ready, and recipes that are
returned are for their address; and the next step moves each status forward or leaves it. -/
theorem lookups_publish_once (bounds : FnBounds) (maps : RecipeMaps) (uwis : Nat → Uwi) (start : AllPoisoned maps)
    (reached : Reachable (step bounds) (initial maps uwis) s) :
    s.PublishedOnce ∧ ∀ act s', s.step bounds act = some s' →
      ∀ uw, Advances (s.maps.get uw) (s'.maps.get uw) := by
  have inv : s.Inv bounds :=
    reached.invariant (initial_inv bounds uwis start) fun _ _ _ inv stepped => (inv.step stepped).1
  exact ⟨inv.publishedOnce, fun act s' stepped => (inv.step stepped).2⟩

/-- One function at `[10, 15)`. -/
def oneFunction : FnBounds where
  enclosing address := if 10 ≤ address ∧ address < 15 then some (⟨10, 15⟩, 1) else none
  proper := by
    intro address found enclosing
    split_ifs at enclosing
    cases enclosing
    decide
  separate := by
    intro address found address' found' enclosing enclosing'
    split_ifs at enclosing enclosing'
    exact .inl (congrArg fst (Option.some.inj (enclosing.symm.trans enclosing')))

/-- Everything is poisoned but a module at `[10, 20)`. -/
def oneModule : RecipeList :=
  [pairInit 1 .never none 0 10, pairInit 2 .never none 20 uintptrMax]

lemma oneModule_poisoned : AllPoisoned ⟨oneModule, oneModule⟩ := by
  have keyed : Keyed oneModule := by
    refine ⟨?_, ?_⟩
    · exact pairwise_pair.mpr (by decide)
    · decide
  refine ⟨?_, ?_, ?_⟩
  · intro uw
    cases uw <;> exact keyed
  · intro uw
    cases uw <;> decide
  · intro uw
    cases uw <;> decide

/-- Two threads miss at the same time; the second one builds and the first one waits for it. -/
def twoThreads : List LookupAct :=
  [.call 0 .dwarf 12, .call 1 .dwarf 13, .advance 0 0 none, .advance 1 0 none, .advance 0 0 none, .advance 1 0 none,
    .advance 0 3 none, .advance 1 4 none, .advance 1 0 none, .advance 0 0 none,
    .advance 1 0 (some (.node ⟨5, ⟨10, 15⟩, 7⟩ .null .null)), .advance 1 0 none, .advance 1 0 none, .advance 1 0 none,
    .advance 0 0 none, .advance 0 0 none, .advance 0 0 none]

theorem twoThreads_publish_once : ∃ s : LookupState,
    twoThreads.foldlM (step oneFunction) (initial ⟨oneModule, oneModule⟩ fun _ => ⟨0, ⟨0, 0⟩, 0⟩) = some s ∧
    s.returned.length = 2 ∧ s.PublishedOnce := by
  have returned : (twoThreads.foldlM (step oneFunction)
      (initial ⟨oneModule, oneModule⟩ fun _ => ⟨0, ⟨0, 0⟩, 0⟩)).map (fun s => s.returned.length) = some 2 := by
    decide
  obtain ⟨s, ran, twice⟩ := Option.map_eq_some_iff.mp returned
  exact ⟨s, ran, twice, (lookups_publish_once oneFunction _ _ oneModule_poisoned (Reachable.start.run ran)).1⟩

end LookupState

end HpcToolkit.Unwind
