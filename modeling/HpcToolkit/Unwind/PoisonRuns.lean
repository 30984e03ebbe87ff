import HpcToolkit.Unwind.Poison

/-! # When the poisoned intervals are exactly the unmapped addresses

Each notification and each lookup keeps the invariant of the poisoned intervals if it meets its condition, and breaks what
the map is meant to say if it does not.
-/

open List

namespace HpcToolkit.Unwind

open Lib

variable {mapped : List LoadModule} {stored stored' : RecipeList} {lm : LoadModule} {pair : Pair} {address : Nat}

lemma Interval.contains_start {interval : Interval} (nonempty : interval.start < interval.stop) :
    interval.Contains interval.start :=
  ⟨le_rfl, nonempty⟩

variable {a b : Interval}

lemma Apart.not_both (apart : Apart a b) : ¬ (a.Contains address ∧ b.Contains address) := by
  simp only [Interval.Contains, Apart] at *
  omega

lemma Apart.symm (apart : Apart a b) : Apart b a :=
  Or.symm apart

lemma LoadModule.apart_of_inside {interval function : Interval} (member : function ∈ lm.functions)
    (apart : Apart interval lm.range) : Apart interval function := by
  have inside := lm.inside function member
  simp only [Apart] at *
  omega

lemma eq_of_contains (separate : mapped.Pairwise fun a b => Apart a.range b.range) {other : LoadModule}
    (there : lm ∈ mapped) (otherThere : other ∈ mapped) (here : lm.range.Contains address)
    (here' : other.range.Contains address) : lm = other := by
  by_contra ne
  have symmetric : Std.Symm fun a b : LoadModule => Apart a.range b.range := ⟨fun _ _ => Apart.symm⟩
  exact (separate.forall there otherThere ne).not_both ⟨here, here'⟩

lemma Ordered.settleAt (ordered : Ordered stored) (start : Nat) (built : Option Bitree) :
    Ordered (stored.map (settleAt start built)) := by
  constructor
  · apply pairwise_map.mpr
    simp only [settleAt_interval]
    exact ordered.apart
  · intro pair there
    obtain ⟨old, oldThere, rfl⟩ := mem_map.mp there
    rw [settleAt_interval]
    exact ordered.proper old oldThere

namespace PoisonInv

variable (inv : PoisonInv mapped stored)
include inv

lemma lm_eq_none (there : pair ∈ stored) (contains : pair.interval.Contains address)
    (outside : ∀ lm ∈ mapped, ¬ lm.range.Contains address) : pair.lm = none := by
  by_contra some
  obtain ⟨lm, lmThere, -, member⟩ := inv.functions pair there some
  apply outside lm lmThere
  have inside := lm.inside _ member
  simp only [Interval.Contains] at *
  omega

lemma exact (separate : mapped.Pairwise fun a b => Apart a.range b.range) : PoisonExact mapped stored where
  outside := by
    intro address below outside
    obtain ⟨pair, there, noModule, contains⟩ := inv.unmapped address below outside
    have only : ∀ other ∈ stored, (other.stat = .never ∧ other.interval.Contains address) ↔ (other == pair) = true := by
      intro other otherThere
      rw [beq_iff_eq]
      constructor
      · rintro ⟨-, here⟩
        by_contra ne
        exact (inv.ordered.apart_of_ne otherThere there ne).not_both ⟨here, contains⟩
      · rintro rfl
        exact ⟨inv.poisoned other there noModule, contains⟩
    have distinct : stored.Nodup := inv.ordered.startSorted.imp fun {a b} behind same => by
      rw [same] at behind
      exact lt_irrefl _ behind
    rw [← count_eq_one_of_mem distinct there, count]
    apply countP_congr
    intro other otherThere
    rw [decide_eq_true_eq]
    exact only other otherThere
  inside lm there address contains pair pairThere noModule around :=
    (inv.clear pair pairThere noModule lm there).not_both ⟨around, contains⟩
  disjoint := by
    apply inv.ordered.apart.imp
    intro a b behind address
    exact Apart.not_both (.inl behind)
  firstFree := by
    intro lm there pair pairThere first
    have proper := inv.ordered.proper pair pairThere
    have atFirst : lm.range.Contains pair.interval.start := by
      rw [first]
      exact Interval.contains_start lm.nonempty
    have hasModule : pair.lm ≠ none := fun noModule =>
      (inv.clear pair pairThere noModule lm there).not_both ⟨Interval.contains_start proper.1, atFirst⟩
    obtain ⟨other, otherThere, -, member⟩ := inv.functions pair pairThere hasModule
    have inside := other.inside _ member
    have same : lm = other := eq_of_contains separate there otherThere atFirst ⟨inside.1, by omega⟩
    rw [same]
    exact member

lemma map (apart : ∀ other ∈ mapped, Apart lm.range other.range) (memory memory' : Nat)
    (fits : MapFits stored lm) :
    ∃ stored', unpoison memory memory' lm.range.start lm.range.stop stored = some stored' ∧
      PoisonInv (lm :: mapped) stored' := by
  obtain ⟨around, there, left, inRange, right, next⟩ := fits
  obtain ⟨stored', unpoisoned, ordered', members⟩ :=
    unpoison_spec memory memory' inv.ordered there left lm.nonempty right next
  have noModule : around.lm = none := by
    apply inv.lm_eq_none there ⟨left.le, inRange⟩
    intro other otherThere contains
    exact (apart other otherThere).not_both ⟨Interval.contains_start lm.nonempty, contains⟩
  refine ⟨stored', unpoisoned, ordered', ?_, ?_, ?_, ?_⟩
  · intro pair pairThere isPoison
    rcases (members pair).mp pairThere with rfl | ⟨rfl, -⟩ | ⟨old, -⟩
    · rfl
    · rfl
    · exact inv.poisoned pair old isPoison
  · intro address below outside
    have notNew := outside lm mem_cons_self
    obtain ⟨pair, pairThere, isPoison, contains⟩ := inv.unmapped address below fun other otherThere =>
      outside other (mem_cons_of_mem lm otherThere)
    rcases eq_or_ne pair around with rfl | ne
    · simp only [Interval.Contains] at contains notNew
      rcases Nat.lt_or_ge address lm.range.start with before | after
      · exact ⟨_, (members _).mpr (.inl rfl), rfl, contains.1, before⟩
      · exact ⟨_, (members _).mpr (.inr (.inl ⟨rfl, by omega⟩)), rfl, (by omega : lm.range.stop ≤ address), contains.2⟩
    · exact ⟨pair, (members pair).mpr (.inr (.inr ⟨pairThere, ne⟩)), isPoison, contains⟩
  · intro pair pairThere isPoison other otherThere
    rcases mem_cons.mp otherThere with rfl | otherThere
    · rcases (members pair).mp pairThere with rfl | ⟨rfl, -⟩ | ⟨old, ne⟩
      · exact .inl le_rfl
      · exact .inr le_rfl
      · have off := inv.ordered.apart_of_ne old there ne
        have proper := inv.ordered.proper pair old
        simp only [Apart] at *
        omega
    · have off := inv.clear around there noModule other otherThere
      have otherNonempty := other.nonempty
      have nonempty := lm.nonempty
      rcases (members pair).mp pairThere with rfl | ⟨rfl, -⟩ | ⟨old, -⟩
      · simp only [Apart, pairInit] at *
        omega
      · simp only [Apart, pairInit] at *
        omega
      · exact inv.clear pair old isPoison other otherThere
  · intro pair pairThere hasModule
    rcases (members pair).mp pairThere with rfl | ⟨rfl, -⟩ | ⟨old, -⟩
    · exact absurd rfl hasModule
    · exact absurd rfl hasModule
    · obtain ⟨other, otherThere, known⟩ := inv.functions pair old hasModule
      exact ⟨other, mem_cons_of_mem lm otherThere, known⟩

lemma unmap (separate : mapped.Pairwise fun a b => Apart a.range b.range) (there : lm ∈ mapped) (memory : Nat)
    (fits : UnmapFits stored lm) :
    ∃ stored', unmapRange memory lm.range.start lm.range.stop stored = some stored' ∧
      PoisonInv (mapped.filter (· ≠ lm)) stored' := by
  obtain ⟨first, last, stored', joined, unmapped, ordered', members⟩ :=
    unmapRange_spec memory inv.ordered lm.nonempty lm.bounded
  have others : ∀ other, other ∈ mapped.filter (· ≠ lm) ↔ other ∈ mapped ∧ other ≠ lm := by
    intro other
    simp
  have leftPoison : ∀ pair ∈ stored, pair.interval.stop = lm.range.start → pair.stat = .never → pair.lm = none := by
    intro pair pairThere ends never
    by_contra hasModule
    exact (fits pair pairThere hasModule never).1 ends
  have rightPoison : ∀ pair ∈ stored, pair.interval.start = lm.range.stop → lm.range.stop + 1 < pair.interval.stop →
      pair.stat = .never → pair.lm = none := by
    intro pair pairThere starts second never
    by_contra hasModule
    exact (fits pair pairThere hasModule never).2 ⟨starts, second⟩
  have firstLe := joined.first_le inv.ordered
  have lastGe := joined.le_last
  have nonempty := lm.nonempty
  refine ⟨stored', unmapped, ordered', ?_, ?_, ?_, ?_⟩
  · intro pair pairThere isPoison
    rcases (members pair).mp pairThere with rfl | ⟨old, -⟩
    · rfl
    · exact inv.poisoned pair old isPoison
  · intro address below outside
    rcases em (first ≤ address ∧ address < last) with within | off
    · exact ⟨_, (members _).mpr (.inl rfl), rfl, within⟩
    · have notThis : ∀ other ∈ mapped, ¬ other.range.Contains address := by
        intro other otherThere contains
        rcases eq_or_ne other lm with rfl | ne
        · simp only [Interval.Contains] at contains
          omega
        · exact outside other ((others other).mpr ⟨otherThere, ne⟩) contains
      obtain ⟨pair, pairThere, isPoison, contains⟩ := inv.unmapped address below notThis
      refine ⟨pair, (members pair).mpr (.inr ⟨pairThere, ?_⟩), isPoison, contains⟩
      have away := inv.clear pair pairThere isPoison lm there
      have offLeft : pair.interval.stop ≤ first ∨ lm.range.start ≤ pair.interval.start := by
        rcases joined.left with ⟨rfl, -⟩ | ⟨left, leftThere, ends, -, starts⟩
        · simp only [Apart] at away
          omega
        · rcases eq_or_ne pair left with rfl | ne
          · simp only [Interval.Contains] at contains
            omega
          · have apart := inv.ordered.apart_of_ne pairThere leftThere ne
            simp only [Apart] at apart
            omega
      have offRight : pair.interval.stop ≤ lm.range.stop ∨ last ≤ pair.interval.start := by
        rcases joined.right with ⟨rfl, -⟩ | ⟨right, rightThere, starts, -, -, ends⟩
        · simp only [Apart] at away
          omega
        · rcases eq_or_ne pair right with rfl | ne
          · simp only [Interval.Contains] at contains
            omega
          · have apart := inv.ordered.apart_of_ne pairThere rightThere ne
            simp only [Apart] at apart
            omega
      have proper := inv.ordered.proper pair pairThere
      simp only [Apart] at away ⊢
      omega
  · intro pair pairThere isPoison other otherThere
    obtain ⟨otherMapped, ne⟩ := (others other).mp otherThere
    rcases (members pair).mp pairThere with rfl | ⟨old, -⟩
    · have symmetric : Std.Symm fun a b : LoadModule => Apart a.range b.range := ⟨fun _ _ => Apart.symm⟩
      have off := separate.forall otherMapped there ne
      have otherNonempty := other.nonempty
      have offLeft : first = lm.range.start ∨ Apart ⟨first, lm.range.start⟩ other.range := by
        rcases joined.left with ⟨same, -⟩ | ⟨left, leftThere, ends, never, starts⟩
        · exact .inl same
        · rw [← ends, ← starts]
          exact .inr (inv.clear left leftThere (leftPoison left leftThere ends never) other otherMapped)
      have offRight : last = lm.range.stop ∨ Apart ⟨lm.range.stop, last⟩ other.range := by
        rcases joined.right with ⟨same, -⟩ | ⟨right, rightThere, starts, second, never, ends⟩
        · exact .inl same
        · rw [← ends, ← starts]
          exact .inr (inv.clear right rightThere (rightPoison right rightThere starts second never) other otherMapped)
      simp only [Apart, pairInit] at *
      omega
    · exact inv.clear pair old isPoison other otherMapped
  · intro pair pairThere hasModule
    rcases (members pair).mp pairThere with rfl | ⟨old, off⟩
    · exact absurd rfl hasModule
    · obtain ⟨other, otherThere, known, member⟩ := inv.functions pair old hasModule
      refine ⟨other, (others other).mpr ⟨otherThere, ?_⟩, known, member⟩
      rintro rfl
      have inside := other.inside _ member
      simp only [Apart] at off
      omega

lemma settleAt (start : Nat) (built : Option Bitree) : PoisonInv mapped (stored.map (settleAt start built)) := by
  refine ⟨inv.ordered.settleAt start built, ?_, ?_, ?_, ?_⟩
  · intro pair there isPoison
    obtain ⟨old, oldThere, rfl⟩ := mem_map.mp there
    rw [settleAt_lm] at isPoison
    have never := inv.poisoned old oldThere isPoison
    rw [settleAt_of_never never]
    exact never
  · intro address below outside
    obtain ⟨pair, there, isPoison, contains⟩ := inv.unmapped address below outside
    refine ⟨pair, ?_, isPoison, contains⟩
    apply mem_map.mpr
    exact ⟨pair, there, settleAt_of_never (inv.poisoned pair there isPoison)⟩
  · intro pair there isPoison lm lmThere
    obtain ⟨old, oldThere, rfl⟩ := mem_map.mp there
    rw [settleAt_lm] at isPoison
    rw [settleAt_interval]
    exact inv.clear old oldThere isPoison lm lmThere
  · intro pair there hasModule
    obtain ⟨old, oldThere, rfl⟩ := mem_map.mp there
    rw [settleAt_lm] at hasModule ⊢
    rw [settleAt_interval]
    exact inv.functions old oldThere hasModule

lemma insert (separate : mapped.Pairwise fun a b => Apart a.range b.range) (there : lm ∈ mapped)
    {function : Interval} (member : function ∈ lm.functions) (memory : Nat) :
    ∃ found stored', csklInsert (pairInit memory .deferred (some lm.id) function.start function.stop) stored =
        some (found, stored') ∧ PoisonInv mapped stored' := by
  have inside := lm.inside function member
  have bounded := lm.bounded
  rcases em (∃ other ∈ stored, other.interval.start = function.start) with ⟨other, otherThere, same⟩ | absent
  · exact ⟨other, stored, csklInsert_present inv.ordered.startSorted otherThere same, inv⟩
  have away : ∀ other ∈ stored, Apart function other.interval := by
    intro other otherThere
    rcases em (other.lm = none) with isPoison | hasModule
    · exact (lm.apart_of_inside member (inv.clear other otherThere isPoison lm there)).symm
    · obtain ⟨owner, ownerThere, -, known⟩ := inv.functions other otherThere hasModule
      rcases eq_or_ne owner lm with rfl | ne
      · rcases owner.separate function member other.interval known with same | apart
        · exact absurd ⟨other, otherThere, by rw [same]⟩ absent
        · exact apart
      · have symmetric : Std.Symm fun a b : LoadModule => Apart a.range b.range := ⟨fun _ _ => Apart.symm⟩
        have off := owner.apart_of_inside known (separate.forall there ownerThere ne.symm)
        exact (lm.apart_of_inside member off.symm).symm
  have proper : function.start < function.stop ∧ function.stop ≤ uintptrMax := ⟨inside.2.1, by omega⟩
  refine ⟨_, _, inv.ordered.csklInsert proper away, inv.ordered.place proper away, ?_, ?_, ?_, ?_⟩
  · intro pair pairThere isPoison
    rcases mem_place.mp pairThere with rfl | old
    · cases isPoison
    · exact inv.poisoned pair old isPoison
  · intro address below outside
    obtain ⟨pair, pairThere, known⟩ := inv.unmapped address below outside
    exact ⟨pair, mem_place.mpr (.inr pairThere), known⟩
  · intro pair pairThere isPoison
    rcases mem_place.mp pairThere with rfl | old
    · cases isPoison
    · exact inv.clear pair old isPoison
  · intro pair pairThere hasModule
    rcases mem_place.mp pairThere with rfl | old
    · exact ⟨lm, there, rfl, member⟩
    · exact inv.functions pair old hasModule

lemma lookup (separate : mapped.Pairwise fun a b => Apart a.range b.range) (memory address : Nat)
    {bounds : Option (Interval × Nat)} (built : Option Bitree)
    (known : ∀ found ∈ bounds, ∃ lm ∈ mapped, lm.id = found.2 ∧ found.1 ∈ lm.functions) :
    ∃ stored', lookupStored memory address bounds built stored = some stored' ∧ PoisonInv mapped stored' := by
  have pairs : ∃ pair stored', lookupPair memory address bounds stored = some (pair, stored') ∧
      PoisonInv mapped stored' := by
    unfold lookupPair
    split
    · exact ⟨_, _, rfl, inv⟩
    · cases bounds with
      | none => exact ⟨_, _, rfl, inv⟩
      | some found =>
        obtain ⟨function, id⟩ := found
        dsimp only
        split_ifs
        · exact ⟨_, _, rfl, inv⟩
        · obtain ⟨lm, there, rfl, member⟩ := known _ rfl
          obtain ⟨found, stored', inserted, inv'⟩ := inv.insert separate there member memory
          rw [inserted]
          exact ⟨_, _, rfl, inv'⟩
  obtain ⟨pair, stored', looked, inv'⟩ := pairs
  rw [lookupStored, looked]
  cases pair with
  | none => exact ⟨_, rfl, inv'⟩
  | some pair => exact ⟨_, rfl, inv'.settleAt _ _⟩

lemma mapFits (apart : ∀ other ∈ mapped, Apart lm.range other.range) {memory memory' : Nat}
    (mappedIt : unpoison memory memory' lm.range.start lm.range.stop stored = some stored')
    (exact : PoisonExact (lm :: mapped) stored') : MapFits stored lm := by
  have nonempty := lm.nonempty
  have bounded := lm.bounded
  have free : ∀ address, lm.range.Contains address → ∀ other ∈ mapped, ¬ other.range.Contains address :=
    fun address contains other there contains' => (apart other there).not_both ⟨contains, contains'⟩
  obtain ⟨around, there, noModule, contains⟩ := inv.unmapped lm.range.start (by omega)
    (free _ (Interval.contains_start nonempty))
  rw [unpoison_eq inv.ordered there contains] at mappedIt
  obtain ⟨half, first, second⟩ := Option.bind_eq_some_iff.mp mappedIt
  have kept : StartSorted (cmpDelBulk around stored) := inv.ordered.startSorted.cmpDelBulk
  have members := fun pair => mem_cmpDelBulk_iff_ne pair inv.ordered there
  obtain ⟨-, -, halfSorted, halfMembers⟩ : _ ∧ _ ∧ StartSorted half ∧ ∀ pair, pair ∈ half ↔
      pair = pairInit memory .never none around.interval.start lm.range.start ∨ pair ∈ cmpDelBulk around stored := by
    rcases poison_cases kept first with ⟨other, otherThere, same, -⟩ | inserted
    · exact absurd same ((mem_cmpDelBulk inv.ordered.startSorted).mp otherThere).2
    · exact inserted
  have grows : ∀ pair ∈ half, pair ∈ stored' := by
    intro pair pairThere
    rcases poison_cases halfSorted second with ⟨-, -, -, rfl⟩ | ⟨-, -, -, wholeMembers⟩
    · exact pairThere
    · exact (wholeMembers pair).mpr (.inr pairThere)
  have left : around.interval.start < lm.range.start := by
    rcases contains.1.eq_or_lt with same | before
    · have member := exact.firstFree lm mem_cons_self _ (grows _ ((halfMembers _).mpr (.inl rfl))) same
      have inside := lm.inside _ member
      simp only [pairInit] at inside
      omega
    · exact before
  have right : lm.range.stop ≤ around.interval.stop := by
    by_contra short
    have inModule : lm.range.Contains around.interval.stop := ⟨contains.2.le, by omega⟩
    obtain ⟨other, otherThere, isPoison, otherContains⟩ :=
      inv.unmapped around.interval.stop (by omega) (free _ inModule)
    have ne : other ≠ around := by
      rintro rfl
      exact lt_irrefl _ otherContains.2
    have stays := grows other ((halfMembers other).mpr (.inr ((members other).mpr ⟨otherThere, ne⟩)))
    exact exact.inside lm mem_cons_self _ inModule other stays isPoison otherContains
  refine ⟨around, there, left, contains.2, right, ?_⟩
  intro atEnd
  rcases poison_cases halfSorted second with ⟨other, otherThere, same, -⟩ | ⟨-, inner, -, wholeMembers⟩
  · refine ⟨other, ?_, same⟩
    rcases (halfMembers other).mp otherThere with rfl | old
    · simp only [pairInit] at same
      omega
    · exact ((members other).mp old).1
  · by_contra nothing
    rcases em (∃ other ∈ mapped, other.range.Contains lm.range.stop) with ⟨other, otherThere, otherContains⟩ | unmapped
    · have off := apart other otherThere
      have first : lm.range.stop = other.range.start := by
        simp only [Apart, Interval.Contains] at off otherContains
        omega
      have member := exact.firstFree other (mem_cons_of_mem lm otherThere) _
        ((wholeMembers _).mpr (.inl rfl)) first
      have inside := other.inside _ member
      simp only [pairInit] at inside
      omega
    · obtain ⟨other, otherThere, -, otherContains⟩ := inv.unmapped lm.range.stop (by omega)
        fun other otherThere otherContains => unmapped ⟨other, otherThere, otherContains⟩
      have ne : other ≠ around := by
        rintro rfl
        simp only [Interval.Contains] at otherContains
        omega
      have off := inv.ordered.apart_of_ne otherThere there ne
      refine nothing ⟨other, otherThere, ?_⟩
      simp only [Apart, Interval.Contains] at off otherContains
      omega

lemma unmapFits (there : lm ∈ mapped) {memory : Nat}
    (unmapped : unmapRange memory lm.range.start lm.range.stop stored = some stored')
    (exact : PoisonExact (mapped.filter (· ≠ lm)) stored') : UnmapFits stored lm := by
  have nonempty := lm.nonempty
  obtain ⟨first, last, _, joined, same, -, members⟩ := unmapRange_spec memory inv.ordered lm.nonempty lm.bounded
  obtain rfl := Option.some.inj (same.symm.trans unmapped)
  have new := (members (pairInit memory .never none first last)).mpr (.inl rfl)
  have firstLe := joined.first_le inv.ordered
  have lastGe := joined.le_last
  intro pair pairThere hasModule never
  have proper := inv.ordered.proper pair pairThere
  obtain ⟨owner, ownerThere, -, member⟩ := inv.functions pair pairThere hasModule
  have inside := owner.inside _ member
  have safe : (pair.interval.stop ≤ lm.range.start ∨ lm.range.stop ≤ pair.interval.start) →
      ¬ (first ≤ pair.interval.start ∧ pair.interval.start < last) := by
    intro off within
    have ne : owner ≠ lm := by
      rintro rfl
      omega
    have stays : owner ∈ mapped.filter (· ≠ lm) := mem_filter.mpr ⟨ownerThere, by simpa using ne⟩
    exact exact.inside owner stays pair.interval.start ⟨inside.1, by omega⟩ _ new rfl within
  constructor
  · intro ends
    apply safe (.inl ends.le)
    rcases joined.left with ⟨-, nothing⟩ | ⟨left, leftThere, leftEnds, -, starts⟩
    · exact absurd never (nothing pair pairThere ends)
    · have same : pair = left := by
        by_contra ne
        have off := inv.ordered.apart_of_ne pairThere leftThere ne
        have leftProper := inv.ordered.proper left leftThere
        simp only [Apart] at off
        omega
      subst same
      omega
  · rintro ⟨starts, second⟩
    apply safe (.inr starts.ge)
    rcases joined.right with ⟨-, nothing⟩ | ⟨right, rightThere, rightStarts, -, -, ends⟩
    · exact absurd never (nothing pair pairThere starts second)
    · have same := inv.ordered.startSorted.eq_of_start pairThere rightThere (starts.trans rightStarts.symm)
      subst same
      omega

end PoisonInv

namespace RecipeState

variable {s s' : RecipeState} {event : RecipeEvent}

lemma Inv.exact (inv : s.Inv) : s.Exact :=
  fun uw => (inv.stored uw).exact inv.separate

lemma forUnwinders_kept {op : Unwinder → RecipeList → Option RecipeList} {maps : RecipeMaps}
    {P : RecipeList → Prop} (kept : ∀ uw, ∃ stored', op uw (maps.get uw) = some stored' ∧ P stored') :
    ∃ maps', forUnwinders op maps = some maps' ∧ ∀ uw, P (maps'.get uw) := by
  obtain ⟨dwarf, dwarfDone, dwarfKept⟩ := kept .dwarf
  obtain ⟨native, nativeDone, nativeKept⟩ := kept .native
  refine ⟨⟨dwarf, native⟩, forUnwinders_eq_some_iff.mpr ?_, ?_⟩
  · intro uw
    cases uw with
    | dwarf => exact dwarfDone
    | native => exact nativeDone
  · intro uw
    cases uw with
    | dwarf => exact dwarfKept
    | native => exact nativeKept

lemma Inv.step (inv : s.Inv) (allowed : s.Allowed event) (fits : s.Fits event) :
    ∃ s', s.step event = some s' ∧ s'.Inv := by
  cases event with
  | map lm memory memory' =>
    obtain ⟨maps', done, kept⟩ := forUnwinders_kept fun uw =>
      (inv.stored uw).map allowed (memory uw) (memory' uw) (fits uw)
    rw [RecipeState.step, done]
    exact ⟨_, rfl, pairwise_cons.mpr ⟨allowed, inv.separate⟩, kept⟩
  | unmap lm memory =>
    obtain ⟨maps', done, kept⟩ := forUnwinders_kept fun uw =>
      (inv.stored uw).unmap inv.separate allowed (memory uw) (fits uw)
    rw [RecipeState.step, done]
    exact ⟨_, rfl, inv.separate.sublist filter_sublist, kept⟩
  | lookup uw memory address bounds built =>
    obtain ⟨stored', done, kept⟩ := (inv.stored uw).lookup inv.separate memory address built allowed
    rw [RecipeState.step, done]
    refine ⟨_, rfl, inv.separate, ?_⟩
    intro other
    rcases eq_or_ne other uw with rfl | ne
    · rw [RecipeMaps.get_set_self]
      exact kept
    · rw [RecipeMaps.get_set_other _ _ ne]
      exact inv.stored other

lemma Inv.fits (inv : s.Inv) (allowed : s.Allowed event) (stepped : s.step event = some s') (exact : s'.Exact) :
    s.Fits event := by
  cases event with
  | map lm memory memory' =>
    obtain ⟨maps', done, rfl⟩ := Option.map_eq_some_iff.mp stepped
    intro uw
    exact (inv.stored uw).mapFits allowed (forUnwinders_eq_some_iff.mp done uw) (exact uw)
  | unmap lm memory =>
    obtain ⟨maps', done, rfl⟩ := Option.map_eq_some_iff.mp stepped
    intro uw
    exact (inv.stored uw).unmapFits allowed (forUnwinders_eq_some_iff.mp done uw) (exact uw)
  | lookup uw memory address bounds built => trivial

lemma initial_inv (memory : Unwinder → Nat) : (initial memory).Inv := by
  refine ⟨List.Pairwise.nil, ?_⟩
  have whole : ∀ place, PoisonInv [] [pairInit place .never none 0 uintptrMax] := by
    intro place
    refine ⟨⟨pairwise_singleton _ _, ?_⟩, ?_, ?_, ?_, ?_⟩
    · intro pair there
      obtain rfl := mem_singleton.mp there
      exact ⟨(by decide : 0 < uintptrMax), le_rfl⟩
    · intro pair there _
      obtain rfl := mem_singleton.mp there
      rfl
    · intro address below _
      exact ⟨_, mem_singleton_self _, rfl, Nat.zero_le _, below⟩
    · intro pair _ _ lm there
      cases there
    · intro pair there hasModule
      obtain rfl := mem_singleton.mp there
      exact absurd rfl hasModule
  intro uw
  cases uw with
  | dwarf => exact whole _
  | native => exact whole _

/-- In the runs of disjoint modules and lookups of their functions, every step returns and leaves the poisoned intervals
exactly the unmapped addresses if and only if every module is mapped inside a stored interval and none is unmapped beside
a function that failed to build. -/
theorem exact_iff_fits (memory : Unwinder → Nat) (events : List RecipeEvent)
    (allowed : EveryStep step Allowed (initial memory) events) :
    EveryState step Exact (initial memory) events ↔ EveryStep step Fits (initial memory) events :=
  everyState_iff_everyStep (fun _ inv => inv.exact) (fun _ _ inv allowed fits => inv.step allowed fits)
    (fun _ _ _ inv allowed stepped exact => inv.fits allowed stepped exact) (initial_inv memory) allowed

instance (s : RecipeState) : (event : RecipeEvent) → Decidable (s.Allowed event)
  | .map lm _ _ => inferInstanceAs (Decidable (∀ other ∈ s.mapped, Apart lm.range other.range))
  | .unmap lm _ => inferInstanceAs (Decidable (lm ∈ s.mapped))
  | .lookup _ _ _ bounds _ => inferInstanceAs (Decidable
      (∀ found ∈ bounds, ∃ lm ∈ s.mapped, lm.id = found.2 ∧ found.1 ∈ lm.functions))

instance {P : Unwinder → Prop} [DecidablePred P] : Decidable (∀ uw, P uw) :=
  decidable_of_iff (P .dwarf ∧ P .native) ⟨fun both uw => by cases uw; exacts [both.1, both.2], fun all => ⟨all _, all _⟩⟩

instance (stored : RecipeList) (lm : LoadModule) : Decidable (MapFits stored lm) :=
  inferInstanceAs (Decidable (∃ pair ∈ stored, _ ∧ _ ∧ _ ∧ (_ → ∃ right ∈ stored, _)))

instance (stored : RecipeList) (lm : LoadModule) : Decidable (UnmapFits stored lm) :=
  inferInstanceAs (Decidable (∀ pair ∈ stored, _ → _ → _ ∧ _))

instance (s : RecipeState) : (event : RecipeEvent) → Decidable (s.Fits event)
  | .map lm _ _ => inferInstanceAs (Decidable (∀ uw, MapFits (s.maps.get uw) lm))
  | .unmap lm _ => inferInstanceAs (Decidable (∀ uw, UnmapFits (s.maps.get uw) lm))
  | .lookup .. => isTrue trivial

/-- A module at `start` with one function of five bytes at its first address. -/
def smallModule (id start : Nat) (bounded : start + 10 ≤ uintptrMax) : LoadModule where
  id := id
  range := ⟨start, start + 10⟩
  functions := [⟨start, start + 5⟩]
  nonempty := by simp
  bounded := bounded
  inside := by simp
  separate := by simp

/-- Two modules far apart, a lookup in the first, and the first unmapped again. -/
theorem smallModules_exact : EveryState step Exact (initial fun _ => 0)
    [.map (smallModule 1 10 (by decide)) (fun _ => 1) (fun _ => 2),
      .map (smallModule 2 40 (by decide)) (fun _ => 3) (fun _ => 4),
      .lookup .dwarf 5 12 (some (⟨10, 15⟩, 1)) (some .null),
      .unmap (smallModule 1 10 (by decide)) (fun _ => 6)] :=
  (exact_iff_fits _ _ (by decide)).mpr (by decide)

/-- The second of two adjacent modules is mapped where the poisoned interval starts: the empty interval that is left there
stands where its first function belongs. -/
theorem adjacentModules_not_exact : ¬ ∀ (memory : Unwinder → Nat) (events : List RecipeEvent),
    EveryStep step Allowed (initial memory) events → EveryState step Exact (initial memory) events := by
  intro always
  obtain ⟨-, s, first, -, s', second, exact⟩ := always (fun _ => 0)
    [.map (smallModule 1 10 (by decide)) (fun _ => 1) (fun _ => 2),
      .map (smallModule 2 20 (by decide)) (fun _ => 3) (fun _ => 4)] (by decide)
  cases first
  cases second
  have blocked := (exact .dwarf).firstFree (smallModule 2 20 (by decide)) mem_cons_self
    (pairInit 3 .never none 20 20) (by decide) rfl
  exact absurd blocked (by decide)

end RecipeState

end HpcToolkit.Unwind
