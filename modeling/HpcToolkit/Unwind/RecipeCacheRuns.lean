import HpcToolkit.Unwind.KeyedRecipes
import HpcToolkit.Unwind.PoisonRuns

/-! # When the remembered recipes are those of the map

A function that was looked up stays visible at the addresses it was found at until its module is unmapped, even where the
poisoned intervals around it are wrong. A table entry stays right as long as its module is mapped.
-/

open Function List

namespace HpcToolkit.Unwind

open Lib

/-- The keys ascend, the pairs with a load module are functions of mapped modules, and each of them can be found. -/
structure ListInv (mapped : List LoadModule) (stored : RecipeList) : Prop where
  keyed : Keyed stored
  poisoned : ∀ pair ∈ stored, pair.lm = none → pair.stat = .never
  functions : ∀ pair ∈ stored, pair.lm ≠ none → ∃ lm ∈ mapped, pair.lm = some lm.id ∧ pair.interval ∈ lm.functions
  visible : ∀ pair ∈ stored, pair.lm ≠ none → ∃ address, Visible stored pair address

variable {mapped : List LoadModule} {stored stored' : RecipeList} {lm : LoadModule} {pair : Pair} {address : Nat}

variable {function : Interval}

lemma LoadModule.contains_of_function (member : function ∈ lm.functions)
    (contains : function.Contains address) : lm.range.Contains address := by
  have inside := lm.inside function member
  simp only [Interval.Contains] at *
  omega

namespace ListInv

variable (inv : ListInv mapped stored)
include inv

/-- Mapping a module takes out at most the interval around its first address, which is of no function, and puts in no
interval that hides a function. -/
lemma map (apart : ∀ other ∈ mapped, Apart lm.range other.range) {memory memory' : Nat}
    (unpoisoned : unpoison memory memory' lm.range.start lm.range.stop stored = some stored') :
    ListInv (lm :: mapped) stored' ∧
      (∀ pair address, pair.lm ≠ none → Visible stored pair address → Visible stored' pair address) ∧
      ∀ pair ∈ stored', pair ∈ stored ∨ pair.lm = none ∧ pair.btuwi = .null := by
  have more : ∀ pair ∈ stored, pair.lm ≠ none →
      ∃ other ∈ lm :: mapped, pair.lm = some other.id ∧ pair.interval ∈ other.functions := by
    intro pair there hasModule
    obtain ⟨other, otherThere, known⟩ := inv.functions pair there hasModule
    exact ⟨other, mem_cons_of_mem lm otherThere, known⟩
  rcases inv.keyed.unpoison_cases lm.bounded unpoisoned with rfl | ⟨around, found, keyed', keeps, members⟩
  · exact ⟨⟨inv.keyed, inv.poisoned, more, inv.visible⟩, fun _ _ _ visible => visible, fun _ => .inl⟩
  have nonempty := lm.nonempty
  have notFunction : ∀ pair : Pair, pair.lm ≠ none → pair ∈ stored → pair ≠ around := by
    rintro pair hasModule there rfl
    obtain ⟨other, otherThere, -, member⟩ := inv.functions pair there hasModule
    exact (apart other otherThere).not_both
      ⟨Interval.contains_start nonempty, LoadModule.contains_of_function member found.contains⟩
  have stays : ∀ pair address, pair.lm ≠ none → Visible stored pair address → Visible stored' pair address := by
    intro pair address hasModule visible
    refine ⟨keeps pair visible.there (notFunction pair hasModule visible.there), visible.contains, ?_⟩
    intro other otherThere before
    have hidden := visible.first around found.there
    have reaches := found.contains
    simp only [Interval.Contains] at hidden reaches ⊢
    rcases members other otherThere with rfl | rfl | ⟨old, -⟩
    · simp only [pairInit] at before ⊢
      omega
    · simp only [pairInit] at before ⊢
      omega
    · exact visible.first other old before
  refine ⟨⟨keyed', ?_, ?_, ?_⟩, stays, ?_⟩
  · intro pair there isPoison
    rcases members pair there with rfl | rfl | ⟨old, -⟩
    · rfl
    · rfl
    · exact inv.poisoned pair old isPoison
  · intro pair there hasModule
    rcases members pair there with rfl | rfl | ⟨old, -⟩
    · exact absurd rfl hasModule
    · exact absurd rfl hasModule
    · exact more pair old hasModule
  · intro pair there hasModule
    rcases members pair there with rfl | rfl | ⟨old, -⟩
    · exact absurd rfl hasModule
    · exact absurd rfl hasModule
    · obtain ⟨address, visible⟩ := inv.visible pair old hasModule
      exact ⟨address, stays pair address hasModule visible⟩
  · intro pair there
    rcases members pair there with rfl | rfl | ⟨old, -⟩
    · exact .inr ⟨rfl, rfl⟩
    · exact .inr ⟨rfl, rfl⟩
    · exact .inl old

section
variable (separate : mapped.Pairwise fun a b => Apart a.range b.range)
include separate

lemma unmap (there : lm ∈ mapped) (memory : Nat) :
    ∃ stored', unmapRange memory lm.range.start lm.range.stop stored = some stored' ∧
      ListInv (mapped.filter (· ≠ lm)) stored' ∧
      (∀ pair address, pair.lm ≠ none → pair.stat ≠ .never → ¬ lm.range.Contains address →
        Visible stored pair address → Visible stored' pair address) ∧
      ∀ pair ∈ stored', pair ∈ stored ∨ pair.lm = none ∧ pair.btuwi = .null := by
  have nonempty := lm.nonempty
  have bounded := lm.bounded
  obtain ⟨first, last, stored', unmapped, keyed', keeps, members, leftCase, rightCase⟩ :=
    inv.keyed.unmapRange_cases memory lm.range.stop (show lm.range.start < uintptrMax by omega)
  have old : ∀ pair ∈ inrangeDelBulk lm.range.start (lm.range.stop - 1) stored, pair ∈ stored := fun pair kept =>
    splice_sublist.mem kept
  have off : ∀ pair address, pair.lm ≠ none → Visible stored pair address → ¬ lm.range.Contains address →
      Apart pair.interval lm.range := by
    intro pair address hasModule visible outside
    obtain ⟨other, otherThere, -, member⟩ := inv.functions pair visible.there hasModule
    have ne : other ≠ lm := by
      rintro rfl
      exact outside (LoadModule.contains_of_function member visible.contains)
    have symmetric : Std.Symm fun a b : LoadModule => Apart a.range b.range := ⟨fun _ _ => Apart.symm⟩
    exact (other.apart_of_inside member (separate.forall there otherThere ne.symm)).symm
  have stays : ∀ pair address, pair ∈ stored' → pair.lm ≠ none → ¬ lm.range.Contains address →
      Visible stored pair address → Visible stored' pair address := by
    intro pair address pairThere hasModule outside visible
    refine ⟨pairThere, visible.contains, ?_⟩
    intro other otherThere before
    rcases members other otherThere with rfl | ⟨otherOld, -⟩
    · have apart := off pair address hasModule visible outside
      have contains := visible.contains
      have distinct : last ≠ lm.range.stop → pair.interval.start ≠ lm.range.stop := by
        rcases members pair pairThere with rfl | ⟨-, distinct⟩
        · exact absurd rfl hasModule
        · exact distinct
      simp only [Interval.Contains, Apart, pairInit] at outside before apart contains ⊢
      intro within
      rcases Nat.lt_or_ge address lm.range.start with left | right
      · rcases leftCase with same | ⟨leftPair, leftThere, starts, ends⟩
        · omega
        · apply visible.first leftPair leftThere (by omega)
          rw [Interval.Contains]
          omega
      · rcases rightCase with same | ⟨rightPair, rightThere, starts, ends⟩
        · omega
        · have apartStart := distinct (by omega)
          apply visible.first rightPair rightThere (by omega)
          rw [Interval.Contains]
          omega
    · exact visible.first other (old other otherOld) before
  have kept : ∀ pair address, pair.lm ≠ none → ¬ lm.range.Contains address → Visible stored pair address →
      pair ∈ inrangeDelBulk lm.range.start (lm.range.stop - 1) stored := by
    intro pair address hasModule outside visible
    apply inv.keyed.mem_inrangeDelBulk_of_apart visible
    have same : lm.range.stop - 1 + 1 = lm.range.stop := by omega
    rw [same]
    exact off pair address hasModule visible outside
  have others : ∀ pair ∈ stored', pair.lm ≠ none → ∃ other ∈ mapped.filter (· ≠ lm),
      pair.lm = some other.id ∧ pair.interval ∈ other.functions ∧ pair ∈ stored := by
    intro pair pairThere hasModule
    rcases members pair pairThere with rfl | ⟨inRest, -⟩
    · exact absurd rfl hasModule
    · obtain ⟨other, otherThere, known, member⟩ := inv.functions pair (old pair inRest) hasModule
      refine ⟨other, mem_filter.mpr ⟨otherThere, ?_⟩, known, member, old pair inRest⟩
      rw [decide_eq_true_eq]
      rintro rfl
      obtain ⟨address, visible⟩ := inv.visible pair (old pair inRest) hasModule
      have inside := other.inside _ member
      exact inv.keyed.not_mem_inrangeDelBulk visible inside.1 (by omega) inRest
  refine ⟨stored', unmapped, ⟨keyed', ?_, ?_, ?_⟩, ?_, ?_⟩
  · intro pair pairThere isPoison
    rcases members pair pairThere with rfl | ⟨inRest, -⟩
    · rfl
    · exact inv.poisoned pair (old pair inRest) isPoison
  · intro pair pairThere hasModule
    obtain ⟨other, otherThere, known, member, -⟩ := others pair pairThere hasModule
    exact ⟨other, otherThere, known, member⟩
  · intro pair pairThere hasModule
    obtain ⟨other, otherThere, -, member, before⟩ := others pair pairThere hasModule
    obtain ⟨otherMapped, ne⟩ := mem_filter.mp otherThere
    obtain ⟨address, visible⟩ := inv.visible pair before hasModule
    refine ⟨address, stays pair address pairThere hasModule ?_ visible⟩
    intro contains
    apply of_decide_eq_true ne
    exact eq_of_contains separate otherMapped there (LoadModule.contains_of_function member visible.contains) contains
  · intro pair address hasModule notNever outside visible
    exact stays pair address (keeps pair (kept pair address hasModule outside visible) notNever) hasModule outside visible
  · intro pair pairThere
    rcases members pair pairThere with rfl | ⟨inRest, -⟩
    · exact .inr ⟨rfl, rfl⟩
    · exact .inl (old pair inRest)

lemma function_eq (there : lm ∈ mapped)
    (member : function ∈ lm.functions) (stays : pair ∈ stored) (hasModule : pair.lm ≠ none)
    (here : function.Contains address) (here' : pair.interval.Contains address) : pair.interval = function := by
  obtain ⟨other, otherThere, -, known⟩ := inv.functions pair stays hasModule
  obtain rfl : lm = other := eq_of_contains separate there otherThere
    (LoadModule.contains_of_function member here) (LoadModule.contains_of_function known here')
  rcases lm.separate _ known _ member with same | apart
  · exact same
  · exact absurd ⟨here', here⟩ apart.not_both

lemma place (there : lm ∈ mapped)
    (member : function ∈ lm.functions) (memory : Nat) (contains : function.Contains address)
    (missed : ∀ pair ∈ stored, pair.interval.start < function.start → ¬ pair.interval.Contains address)
    (absent : ∀ pair ∈ stored, pair.interval.start ≠ function.start) :
    let new := pairInit memory .deferred (some lm.id) function.start function.stop
    let stored' := Lib.place (pairCmp · new) new stored
    ListInv mapped stored' ∧ Visible stored' new address ∧
      ∀ pair address, pair.lm ≠ none → Visible stored pair address → Visible stored' pair address := by
  intro new stored'
  have inside := lm.inside function member
  have bounded := lm.bounded
  have visibleNew : Visible stored' new address := by
    refine ⟨mem_place.mpr (.inl rfl), contains, ?_⟩
    intro other otherThere before
    rcases mem_place.mp otherThere with rfl | old
    · exact absurd before (lt_irrefl _)
    · exact missed other old before
  have stays : ∀ pair address, pair.lm ≠ none → Visible stored pair address → Visible stored' pair address := by
    intro pair address hasModule visible
    refine ⟨mem_place.mpr (.inr visible.there), visible.contains, ?_⟩
    intro other otherThere before
    rcases mem_place.mp otherThere with rfl | old
    · intro here
      have same := inv.function_eq separate there member visible.there hasModule here visible.contains
      exact absent pair visible.there (by rw [same])
    · exact visible.first other old before
  refine ⟨⟨⟨inv.keyed.sorted.place absent, ?_⟩, ?_, ?_, ?_⟩, visibleNew, stays⟩
  · intro pair pairThere
    rcases mem_place.mp pairThere with rfl | old
    · exact (by omega : function.start < uintptrMax)
    · exact inv.keyed.below pair old
  · intro pair pairThere isPoison
    rcases mem_place.mp pairThere with rfl | old
    · cases isPoison
    · exact inv.poisoned pair old isPoison
  · intro pair pairThere hasModule
    rcases mem_place.mp pairThere with rfl | old
    · exact ⟨lm, there, rfl, member⟩
    · exact inv.functions pair old hasModule
  · intro pair pairThere hasModule
    rcases mem_place.mp pairThere with rfl | old
    · exact ⟨address, visibleNew⟩
    · obtain ⟨around, visible⟩ := inv.visible pair old hasModule
      exact ⟨around, stays pair around hasModule visible⟩

lemma lookupPair {memory : Nat}
    {bounds : Option (Interval × Nat)} {found : Option Pair}
    (known : ∀ found ∈ bounds, ∃ lm ∈ mapped, lm.id = found.2 ∧ found.1 ∈ lm.functions)
    (looked : lookupPair memory address bounds stored = some (found, stored')) :
    ListInv mapped stored' ∧
      (∀ pair around, pair.lm ≠ none → Visible stored pair around → Visible stored' pair around) ∧
      (∀ pair ∈ found, pair ∈ stored' ∧ (pair.lm ≠ none → address ≠ 0 → Visible stored' pair address)) ∧
      ∀ pair ∈ stored', pair ∈ stored ∨ helperFind address stored = none ∧
        ∃ function id, bounds = some (function, id) ∧
          pair = pairInit memory .deferred (some id) function.start function.stop := by
  have unchanged : ∀ pair around, pair.lm ≠ none → Visible stored pair around → Visible stored pair around :=
    fun _ _ _ visible => visible
  unfold Unwind.lookupPair at looked
  split at looked
  · rename_i pair searched
    obtain ⟨rfl, rfl⟩ := Prod.mk.inj (Option.some.inj looked)
    unfold helperFind at searched
    split_ifs at searched with zero
    have visible := inv.keyed.csklInrangeFind_eq_some_iff.mp searched
    refine ⟨inv, unchanged, ?_, fun _ => .inl⟩
    rintro other ⟨⟩
    exact ⟨visible.there, fun _ _ => visible⟩
  · rename_i searched
    have nothing : address ≠ 0 → csklInrangeFind address stored = none := by
      intro nonzero
      rw [helperFind, if_neg nonzero] at searched
      exact searched
    split at looked
    · obtain ⟨rfl, rfl⟩ := Prod.mk.inj (Option.some.inj looked)
      exact ⟨inv, unchanged, fun _ absent => (by cases absent), fun _ => .inl⟩
    · rename_i bounds function id
      split_ifs at looked with outside
      · obtain ⟨rfl, rfl⟩ := Prod.mk.inj (Option.some.inj looked)
        exact ⟨inv, unchanged, fun _ absent => (by cases absent), fun _ => .inl⟩
      · obtain ⟨lm, there, rfl, member⟩ := known _ rfl
        have contains : function.Contains address := by
          rw [Interval.Contains]
          omega
        have missed : ∀ pair ∈ stored, pair.interval.start < function.start → ¬ pair.interval.Contains address := by
          intro pair pairThere before
          rcases Nat.eq_zero_or_pos address with rfl | positive
          · simp only [Interval.Contains] at contains
            omega
          · exact inv.keyed.not_contains_of_find_eq_none (nothing positive.ne') pairThere
        obtain ⟨⟨inserted, after⟩, inserting, same⟩ := Option.map_eq_some_iff.mp looked
        obtain ⟨rfl, rfl⟩ := Prod.mk.inj same
        rcases csklInsert_cases inv.keyed.sorted inserting with ⟨pairThere, starts, rfl⟩ | ⟨absent, -, rfl, rfl⟩
        · refine ⟨inv, unchanged, ?_, fun _ => .inl⟩
          rintro other ⟨⟩
          refine ⟨pairThere, ?_⟩
          intro hasModule nonzero
          have inside := lm.inside function member
          obtain ⟨owner, ownerThere, -, ownMember⟩ := inv.functions inserted pairThere hasModule
          have ownInside := owner.inside _ ownMember
          have start : function.Contains function.start := Interval.contains_start inside.2.1
          have start' : inserted.interval.Contains function.start := by
            have begins : inserted.interval.start = function.start := starts
            rw [← begins]
            exact Interval.contains_start ownInside.2.1
          have whole := inv.function_eq separate there member pairThere hasModule start start'
          have hidden := inv.keyed.not_contains_of_find_eq_none (nothing nonzero) pairThere
          rw [whole] at hidden
          exact absurd contains hidden
        · obtain ⟨inv', visible, stays⟩ := inv.place separate there member memory contains missed absent
          refine ⟨inv', stays, ?_, ?_⟩
          · rintro other ⟨⟩
            exact ⟨visible.there, fun _ _ => visible⟩
          · intro pair pairThere
            rcases mem_place.mp pairThere with rfl | old
            · exact .inr ⟨searched, function, lm.id, rfl, rfl⟩
            · exact .inl old

end

end ListInv

section Settle

variable {start : Nat} {built : Option Bitree}

lemma Visible.settleAt (visible : Visible stored pair address) (start : Nat) (built : Option Bitree) :
    Visible (stored.map (settleAt start built)) (settleAt start built pair) address := by
  refine ⟨mem_map_of_mem visible.there, ?_, ?_⟩
  · rw [settleAt_interval]
    exact visible.contains
  · intro other otherThere before
    obtain ⟨old, oldThere, rfl⟩ := mem_map.mp otherThere
    rw [settleAt_interval] at before ⊢
    rw [settleAt_interval] at before
    exact visible.first old oldThere before

lemma ListInv.settleAt (inv : ListInv mapped stored) : ListInv mapped (stored.map (settleAt start built)) := by
  refine ⟨⟨?_, ?_⟩, ?_, ?_, ?_⟩
  · apply pairwise_map.mpr
    simp only [settleAt_interval]
    exact inv.keyed.sorted
  · intro pair there
    obtain ⟨old, oldThere, rfl⟩ := mem_map.mp there
    rw [settleAt_interval]
    exact inv.keyed.below old oldThere
  · intro pair there isPoison
    obtain ⟨old, oldThere, rfl⟩ := mem_map.mp there
    rw [settleAt_lm] at isPoison
    have never := inv.poisoned old oldThere isPoison
    rw [settleAt_of_never never]
    exact never
  · intro pair there hasModule
    obtain ⟨old, oldThere, rfl⟩ := mem_map.mp there
    rw [settleAt_lm] at hasModule ⊢
    rw [settleAt_interval]
    exact inv.functions old oldThere hasModule
  · intro pair there hasModule
    obtain ⟨old, oldThere, rfl⟩ := mem_map.mp there
    rw [settleAt_lm] at hasModule
    obtain ⟨address, visible⟩ := inv.visible old oldThere hasModule
    exact ⟨address, visible.settleAt start built⟩

end Settle

section Tables

variable {table : UwHashTable} {uw uw' : Unwinder} {key key' : Nat} {entry : UwHashEntry}

lemma uwHashLookup_eq_some_iff : uwHashLookup table uw key = some entry ↔
    table.entries (uwHash key table.size) = entry ∧ entry.key = key ∧ entry.uw = uw := by
  simp only [uwHashLookup]
  split_ifs with differs
  · constructor
    · intro impossible
      cases impossible
    · rintro ⟨rfl, sameKey, sameUw⟩
      exact absurd differs (by simp [sameKey, sameUw])
  · rw [not_or, not_not, not_not] at differs
    constructor
    · intro same
      cases same
      exact ⟨rfl, differs⟩
    · rintro ⟨rfl, -⟩
      rfl

lemma uwHashLookup_insert {ilmBtui btuwi : Nat}
    (found : uwHashLookup (uwHashInsert table uw key ilmBtui btuwi) uw' key' = some entry) :
    (uw' = uw ∧ key' = key ∧ entry = ⟨uw, key, ilmBtui, btuwi⟩) ∨ uwHashLookup table uw' key' = some entry := by
  obtain ⟨same, sameKey, sameUw⟩ := uwHashLookup_eq_some_iff.mp found
  simp only [uwHashInsert, update_apply] at same
  split_ifs at same with slot
  · subst same
    exact .inl ⟨sameUw.symm, sameKey.symm, rfl⟩
  · exact .inr (uwHashLookup_eq_some_iff.mpr ⟨same, sameKey, sameUw⟩)

lemma uwHash_lt {size : Nat} (positive : 0 < size) : uwHash key size < size := by
  unfold uwHash
  split_ifs with small
  · exact small
  · exact Nat.mod_lt key positive

lemma uwHashLookup_deleteRange {start stop : Nat} (positive : 0 < table.size) (nonzero : key ≠ 0)
    (found : uwHashLookup (uwHashDeleteRange table start stop) uw key = some entry) :
    uwHashLookup table uw key = some entry ∧ ¬ (start ≤ key ∧ key < stop) := by
  obtain ⟨same, sameKey, sameUw⟩ := uwHashLookup_eq_some_iff.mp found
  have slot : uwHash key table.size < table.size := uwHash_lt positive
  simp only [uwHashDeleteRange] at same
  split_ifs at same with purged
  · subst same
    exact absurd sameKey.symm nonzero
  · subst sameKey
    refine ⟨uwHashLookup_eq_some_iff.mpr ⟨same, rfl, sameUw⟩, ?_⟩
    rw [same] at purged
    exact fun inside => purged ⟨slot, inside⟩

end Tables

variable {tree : Bitree} {uwi : Uwi}

lemma Bitree.inrange_mem (found : tree.inrange address = some uwi) : uwi ∈ tree.nodes := by
  induction tree with
  | null => cases found
  | node top left right left_ih right_ih =>
    unfold Bitree.inrange at found
    rw [Bitree.nodes, mem_cons, mem_append]
    split at found
    · exact .inl (Option.some.inj found).symm
    · exact .inr (.inl (left_ih found))
    · exact .inr (.inr (right_ih found))

lemma Pair.answer_eq_some_iff {info : UnwindrInfo} : pair.answer address = some info ↔
    pair.stat = .ready ∧ pair.btuwi.inrange address = some info.uwi ∧ info.lm = pair.lm ∧
      info.interval = pair.interval := by
  unfold Pair.answer
  split_ifs with ready
  · rw [Option.map_eq_some_iff]
    constructor
    · rintro ⟨uwi, found, rfl⟩
      exact ⟨ready, found, rfl, rfl⟩
    · rintro ⟨-, found, sameModule, sameInterval⟩
      exact ⟨info.uwi, found, by rw [← sameModule, ← sameInterval]⟩
  · constructor
    · intro impossible
      cases impossible
    · rintro ⟨isReady, -⟩
      exact absurd isReady ready

/-- The entries of the tables point to functions that the map finds, and memory holds what is in use. -/
structure CacheState.Inv (s : CacheState) : Prop where
  separate : s.mapped.Pairwise fun a b => Apart a.range b.range
  lists : ∀ uw, ListInv s.mapped (s.maps.get uw)
  pairMemory : ∀ uw, ∀ pair ∈ s.maps.get uw, pair.lm ≠ none → s.pairs pair.place = (pair.interval, pair.lm)
  treeMemory : ∀ uw, ∀ pair ∈ s.maps.get uw, ∀ uwi ∈ pair.btuwi.nodes, s.uwis uwi.place = uwi
  sized : ∀ thread, 0 < (s.tables thread).size
  entries : ∀ thread uw key entry, key ≠ 0 → uwHashLookup (s.tables thread) uw key = some entry →
    ∃ pair, Visible (s.maps.get uw) pair key ∧ pair.stat = .ready ∧ pair.place = entry.ilmBtui ∧
      ∃ uwi, pair.btuwi.inrange key = some uwi ∧ uwi.place = entry.btuwi

namespace CacheState

variable {s s' : CacheState}

lemma Inv.lm_ne_none (inv : s.Inv) {uw : Unwinder} (there : pair ∈ s.maps.get uw) (ready : pair.stat = .ready) :
    pair.lm ≠ none := by
  intro isPoison
  rw [(inv.lists uw).poisoned pair there isPoison] at ready
  cases ready

lemma Inv.agrees (inv : s.Inv) : s.Agrees := by
  constructor
  · intro thread uw address info answered
    unfold tableAnswer at answered
    split_ifs at answered with zero
    obtain ⟨entry, found, rfl⟩ := Option.map_eq_some_iff.mp answered
    obtain ⟨pair, visible, ready, place, uwi, inTree, node⟩ := inv.entries thread uw address entry zero found
    have hasModule := inv.lm_ne_none visible.there ready
    rw [mapAnswer, (inv.lists uw).keyed.find_of_visible visible, Option.bind_some, Pair.answer_eq_some_iff]
    rw [← place, ← node, inv.pairMemory uw pair visible.there hasModule,
      inv.treeMemory uw pair visible.there uwi (Bitree.inrange_mem inTree)]
    exact ⟨ready, inTree, rfl, rfl⟩
  · intro uw address info answered
    obtain ⟨pair, found, answer⟩ := Option.bind_eq_some_iff.mp answered
    obtain ⟨ready, -, sameModule, sameInterval⟩ := Pair.answer_eq_some_iff.mp answer
    have visible := (inv.lists uw).keyed.csklInrangeFind_eq_some_iff.mp found
    obtain ⟨lm, there, known, member⟩ := (inv.lists uw).functions pair visible.there
      (inv.lm_ne_none visible.there ready)
    rw [sameModule, sameInterval]
    exact ⟨lm, there, known, member, visible.contains⟩

variable {tables : Nat → UwHashTable}

/-- Steps of the recipe maps that put in no function keep the memory in use and, if they hide nothing that the tables
still point to, the tables. -/
lemma Inv.of_maps (inv : s.Inv) {mapped : List LoadModule} {maps : RecipeMaps}
    (separate : mapped.Pairwise fun a b => Apart a.range b.range)
    (lists : ∀ uw, ListInv mapped (maps.get uw))
    (old : ∀ uw, ∀ pair ∈ maps.get uw, pair ∈ s.maps.get uw ∨ pair.lm = none ∧ pair.btuwi = .null)
    (sized : ∀ thread, 0 < (tables thread).size)
    (entries : ∀ thread uw key entry, key ≠ 0 → uwHashLookup (tables thread) uw key = some entry →
      uwHashLookup (s.tables thread) uw key = some entry ∧ ∀ pair, pair.lm ≠ none → pair.stat ≠ .never →
        Visible (s.maps.get uw) pair key → Visible (maps.get uw) pair key) :
    Inv { s with mapped := mapped, maps := maps, tables := tables } := by
  refine ⟨separate, lists, ?_, ?_, sized, ?_⟩
  · intro uw pair there hasModule
    rcases old uw pair there with known | ⟨isPoison, -⟩
    · exact inv.pairMemory uw pair known hasModule
    · exact absurd isPoison hasModule
  · intro uw pair there uwi inTree
    rcases old uw pair there with known | ⟨-, noTree⟩
    · exact inv.treeMemory uw pair known uwi inTree
    · rw [noTree] at inTree
      cases inTree
  · intro thread uw key entry nonzero found
    obtain ⟨foundBefore, stays⟩ := entries thread uw key entry nonzero found
    obtain ⟨pair, visible, ready, place, inTree⟩ := inv.entries thread uw key entry nonzero foundBefore
    refine ⟨pair, stays pair (inv.lm_ne_none visible.there ready) ?_ visible, ready, place, inTree⟩
    rw [ready]
    decide

lemma Inv.map (inv : s.Inv) {lm : LoadModule} {memory memory' : Unwinder → Nat}
    (allowed : s.Allowed (.map lm memory memory')) (stepped : s.step (.map lm memory memory') = some s') : s'.Inv := by
  obtain ⟨maps, done, rfl⟩ := Option.map_eq_some_iff.mp stepped
  have each := fun uw => (inv.lists uw).map allowed (forUnwinders_eq_some_iff.mp done uw)
  apply inv.of_maps (pairwise_cons.mpr ⟨allowed, inv.separate⟩) (fun uw => (each uw).1)
    (fun uw => (each uw).2.2) inv.sized
  intro thread uw key entry nonzero found
  exact ⟨found, fun pair hasModule _ visible => (each uw).2.1 pair key hasModule visible⟩

lemma Inv.unmap_lists (inv : s.Inv) {lm : LoadModule} (memory : Unwinder → Nat) (there : lm ∈ s.mapped) :
    ∃ maps, forUnwinders (fun uw => unmapRange (memory uw) lm.range.start lm.range.stop) s.maps = some maps ∧
      ∀ uw, ListInv (s.mapped.filter (· ≠ lm)) (maps.get uw) ∧
        (∀ pair address, pair.lm ≠ none → pair.stat ≠ .never → ¬ lm.range.Contains address →
          Visible (s.maps.get uw) pair address → Visible (maps.get uw) pair address) ∧
        ∀ pair ∈ maps.get uw, pair ∈ s.maps.get uw ∨ pair.lm = none ∧ pair.btuwi = .null := by
  obtain ⟨dwarf, dwarfDone, dwarfKept⟩ := (inv.lists .dwarf).unmap inv.separate there (memory .dwarf)
  obtain ⟨native, nativeDone, nativeKept⟩ := (inv.lists .native).unmap inv.separate there (memory .native)
  refine ⟨⟨dwarf, native⟩, forUnwinders_eq_some_iff.mpr ?_, ?_⟩
  · intro uw
    cases uw with
    | dwarf => exact dwarfDone
    | native => exact nativeDone
  · intro uw
    cases uw with
    | dwarf => exact dwarfKept
    | native => exact nativeKept

variable {thread : Option Nat}

lemma purge_other {other : Nat} (ne : some other ≠ thread) :
    purge tables lm thread other = tables other := by
  cases thread with
  | none => rfl
  | some purged => exact update_of_ne (fun equal => ne (congrArg some equal)) _ _

lemma Inv.unmap (inv : s.Inv) {lm : LoadModule} {memory : Unwinder → Nat}
    (allowed : s.Allowed (.unmap lm memory thread)) (forgotten : s.Forgotten (.unmap lm memory thread))
    (stepped : s.step (.unmap lm memory thread) = some s') : s'.Inv := by
  obtain ⟨maps, done, each⟩ := inv.unmap_lists memory allowed
  rw [CacheState.step, done] at stepped
  cases stepped
  apply inv.of_maps (inv.separate.sublist filter_sublist) (fun uw => (each uw).1) (fun uw => (each uw).2.2)
  · intro other
    cases thread with
    | none => exact inv.sized other
    | some purged =>
      rcases eq_or_ne other purged with rfl | ne
      · simp only [purge, update_self]
        exact inv.sized other
      · simp only [purge, update_of_ne ne]
        exact inv.sized other
  · intro other uw key entry nonzero found
    have before : uwHashLookup (s.tables other) uw key = some entry ∧ ¬ lm.range.Contains key := by
      rcases eq_or_ne (some other) thread with rfl | ne
      · simp only [purge, update_self] at found
        exact uwHashLookup_deleteRange (inv.sized other) nonzero found
      · rw [purge_other ne] at found
        refine ⟨found, ?_⟩
        intro contains
        rw [forgotten other ne uw key nonzero contains] at found
        cases found
    exact ⟨before.1, fun pair hasModule notNever visible => (each uw).2.1 pair key hasModule notNever before.2 visible⟩

variable {uwis : Nat → Uwi}

lemma writeTree_self (distinct : ∀ a ∈ tree.nodes, ∀ b ∈ tree.nodes, a.place = b.place → a = b) (inTree : uwi ∈ tree.nodes) :
    writeTree tree uwis uwi.place = uwi := by
  unfold writeTree
  cases found : tree.nodes.find? fun other => decide (other.place = uwi.place) with
  | none =>
    have missed := find?_eq_none.mp found uwi inTree
    simp at missed
  | some other =>
    have same : other.place = uwi.place := by simpa using find?_some found
    exact distinct other (mem_of_find?_eq_some found) uwi inTree same

lemma writeTree_other {place : Nat}
    (apart : ∀ new ∈ tree.nodes, place ≠ new.place) : writeTree tree uwis place = uwis place := by
  unfold writeTree
  have missed : (tree.nodes.find? fun other => decide (other.place = place)) = none := by
    apply find?_eq_none.mpr
    intro new inTree
    simpa using (apart new inTree).symm
  rw [missed]
  rfl

variable {bounds : Option (Interval × Nat)}

lemma initPairs_of_ne {uw : Unwinder} {memory place : Nat} (ne : place ≠ memory) :
    s.initPairs uw memory address bounds place = s.pairs place := by
  unfold initPairs
  cases helperFind address (s.maps.get uw) with
  | some found => rfl
  | none =>
    cases bounds with
    | none => rfl
    | some bounds => exact update_of_ne ne _ _

lemma Inv.settled (inv : s.Inv) {thread : Nat} {uw : Unwinder} {memory : Nat}
    {built : Option Bitree} {stored : RecipeList} (allowed : s.Allowed (.lookup thread uw memory address bounds built))
    (looked : lookupPair memory address bounds (s.maps.get uw) = some (some pair, stored)) :
    (s.settled uw memory address bounds built pair stored).Inv ∧
      (address ≠ 0 → (settle built pair).stat = .ready →
        Visible ((s.settled uw memory address bounds built pair stored).maps.get uw) (settle built pair) address) := by
  obtain ⟨known, freshPair, freshTree⟩ := allowed
  obtain ⟨inv', stays, found, members⟩ := (inv.lists uw).lookupPair inv.separate known looked
  obtain ⟨pairThere, visible⟩ := found pair rfl
  have here : settleAt pair.interval.start built pair = settle built pair := if_pos rfl
  have only : ∀ other ∈ stored, other.interval.start = pair.interval.start → other = pair :=
    fun other there same => inv'.keyed.sorted.eq_of_start there pairThere same
  have self : (s.settled uw memory address bounds built pair stored).maps.get uw =
      stored.map (settleAt pair.interval.start built) := RecipeMaps.get_set_self _ _ _
  have others : ∀ other, other ≠ uw →
      (s.settled uw memory address bounds built pair stored).maps.get other = s.maps.get other :=
    fun other ne => RecipeMaps.get_set_other _ _ ne
  have oldTree : ∀ other, ∀ old ∈ s.maps.get other, ∀ uwi ∈ old.btuwi.nodes,
      buildTree built pair s.uwis uwi.place = uwi := by
    intro other old there uwi inTree
    have before := inv.treeMemory other old there uwi inTree
    unfold buildTree
    split_ifs
    · cases built with
      | none => exact before
      | some tree => exact (writeTree_other ((freshTree tree rfl).2 other old there uwi inTree)).trans before
    · exact before
  refine ⟨⟨inv.separate, ?_, ?_, ?_, inv.sized, ?_⟩, ?_⟩
  · intro other
    rcases eq_or_ne other uw with rfl | ne
    · rw [self]
      exact inv'.settleAt
    · rw [others other ne]
      exact inv.lists other
  · intro other changed there hasModule
    rcases eq_or_ne other uw with rfl | ne
    · rw [self] at there
      obtain ⟨old, oldThere, rfl⟩ := mem_map.mp there
      rw [settleAt_lm] at hasModule
      rw [settleAt_place, settleAt_interval, settleAt_lm]
      rcases members old oldThere with before | ⟨missed, function, id, rfl, rfl⟩
      · exact (initPairs_of_ne (freshPair other old before)).trans (inv.pairMemory other old before hasModule)
      · simp only [CacheState.settled, initPairs, missed, pairInit, update_self]
    · rw [others other ne] at there
      exact (initPairs_of_ne (freshPair other changed there)).trans (inv.pairMemory other changed there hasModule)
  · intro other changed there uwi inTree
    rcases eq_or_ne other uw with rfl | ne
    · rw [self] at there
      obtain ⟨old, oldThere, rfl⟩ := mem_map.mp there
      have atPlace : ∀ uwi ∈ old.btuwi.nodes, buildTree built pair s.uwis uwi.place = uwi := by
        rcases members old oldThere with before | ⟨-, function, id, -, rfl⟩
        · exact oldTree other old before
        · intro uwi nothing
          cases nothing
      unfold settleAt settle at inTree
      split_ifs at inTree with starts deferred
      · obtain rfl := only old oldThere starts
        cases built with
        | none => exact atPlace uwi inTree
        | some tree =>
          have written : buildTree (some tree) old s.uwis = writeTree tree s.uwis := if_pos deferred
          simp only [CacheState.settled, written]
          exact writeTree_self (freshTree tree rfl).1 inTree
      · exact atPlace uwi inTree
      · exact atPlace uwi inTree
    · rw [others other ne] at there
      exact oldTree other changed there uwi inTree
  · intro thread other key entry nonzero stored
    obtain ⟨old, seen, ready, place, inTree⟩ := inv.entries thread other key entry nonzero stored
    refine ⟨old, ?_, ready, place, inTree⟩
    rcases eq_or_ne other uw with rfl | ne
    · rw [self]
      have later := (stays old key (inv.lm_ne_none seen.there ready) seen).settleAt pair.interval.start built
      rw [settleAt_of_ne_deferred (by rw [ready]; decide)] at later
      exact later
    · rw [others other ne]
      exact seen
  · intro nonzero ready
    have hasModule : pair.lm ≠ none := by
      intro isPoison
      have never := inv'.poisoned pair pairThere isPoison
      rw [← here, settleAt_of_never never, never] at ready
      cases ready
    rw [self, ← here]
    exact (visible hasModule nonzero).settleAt _ _

lemma Inv.remember (inv : s.Inv) (thread : Nat) {uw : Unwinder}
    (visible : address ≠ 0 → pair.stat = .ready → Visible (s.maps.get uw) pair address) :
    (s.remember thread uw address pair).Inv := by
  unfold CacheState.remember
  split
  · exact inv
  · rename_i info answered
    split_ifs at answered with zero
    obtain ⟨ready, inTree, -, -⟩ := Pair.answer_eq_some_iff.mp answered
    refine ⟨inv.separate, inv.lists, inv.pairMemory, inv.treeMemory, ?_, ?_⟩
    · intro other
      rcases eq_or_ne other thread with rfl | ne
      · simp only [update_self]
        exact inv.sized other
      · simp only [update_of_ne ne]
        exact inv.sized other
    · intro other uw' key entry nonzero found
      rcases eq_or_ne other thread with rfl | ne
      · simp only [update_self] at found
        rcases uwHashLookup_insert found with ⟨rfl, rfl, rfl⟩ | before
        · exact ⟨pair, visible nonzero ready, ready, rfl, info.uwi, inTree, rfl⟩
        · exact inv.entries other uw' key entry nonzero before
      · simp only [update_of_ne ne] at found
        exact inv.entries other uw' key entry nonzero found

lemma Inv.lookup (inv : s.Inv) {thread : Nat} {uw : Unwinder} {memory address : Nat}
    {built : Option Bitree}
    (allowed : s.Allowed (.lookup thread uw memory address bounds built))
    (stepped : s.step (.lookup thread uw memory address bounds built) = some s') : s'.Inv := by
  obtain ⟨⟨info, after⟩, looked, rfl⟩ := Option.map_eq_some_iff.mp stepped
  unfold CacheState.lookup at looked
  split at looked
  · obtain ⟨rfl, rfl⟩ := Prod.mk.inj (Option.some.inj looked)
    exact inv
  · obtain ⟨⟨found, stored⟩, pairs, same⟩ := Option.map_eq_some_iff.mp looked
    cases found with
    | none =>
      obtain ⟨rfl, rfl⟩ := Prod.mk.inj same
      exact inv
    | some pair =>
      obtain ⟨-, rfl⟩ := Prod.mk.inj same
      obtain ⟨inv', visible⟩ := inv.settled allowed pairs
      exact inv'.remember thread visible

variable {event : CacheEvent}

lemma Inv.step (inv : s.Inv) (allowed : s.Allowed event) (forgotten : s.Forgotten event)
    (stepped : s.step event = some s') : s'.Inv := by
  cases event with
  | map lm memory memory' => exact inv.map allowed stepped
  | unmap lm memory thread => exact inv.unmap allowed forgotten stepped
  | lookup thread uw memory address bounds built => exact inv.lookup allowed stepped

lemma Inv.forgotten (inv : s.Inv) (allowed : s.Allowed event)
    (agrees : ∀ s' ∈ s.step event, s'.Agrees) : s.Forgotten event := by
  cases event with
  | map lm memory memory' => trivial
  | lookup thread uw memory address bounds built => trivial
  | unmap lm memory thread =>
    intro other ne uw address nonzero contains
    by_contra remembered
    obtain ⟨entry, found⟩ := Option.ne_none_iff_exists'.mp remembered
    obtain ⟨maps, done, -⟩ := inv.unmap_lists memory allowed
    have agree := agrees _ (by rw [CacheState.step, done]; rfl)
    have answered := agree.same other uw address _ (by
      rw [tableAnswer, if_neg nonzero]
      dsimp only
      rw [purge_other ne, found]
      rfl)
    obtain ⟨owner, there, -, member, inOwner⟩ := agree.current uw address _ answered
    obtain ⟨ownerMapped, differs⟩ := mem_filter.mp there
    apply of_decide_eq_true differs
    exact eq_of_contains inv.separate ownerMapped allowed (LoadModule.contains_of_function member inOwner) contains

lemma uwHashLookup_new {uw : Unwinder} (nonzero : address ≠ 0) : uwHashLookup uwHashNew uw address = none :=
  if_pos (.inl nonzero.symm)

lemma initial_inv (memory : Unwinder → Nat) (pairs : Nat → Interval × Option Nat) (uwis : Nat → Uwi) :
    (initial memory pairs uwis).Inv := by
  have only : ∀ uw, ∀ pair ∈ (initial memory pairs uwis).maps.get uw,
      pair = pairInit (memory uw) .never none 0 uintptrMax := by
    intro uw pair there
    cases uw with
    | dwarf => exact mem_singleton.mp there
    | native => exact mem_singleton.mp there
  refine ⟨List.Pairwise.nil, ?_, ?_, ?_, fun _ => (by decide : 0 < uwHashNew.size), ?_⟩
  · intro uw
    refine ⟨⟨?_, ?_⟩, ?_, ?_, ?_⟩
    · cases uw with
      | dwarf => exact pairwise_singleton _ _
      | native => exact pairwise_singleton _ _
    · intro pair there
      rw [only uw pair there]
      exact (by decide : 0 < uintptrMax)
    · intro pair there _
      rw [only uw pair there]
      rfl
    · intro pair there hasModule
      rw [only uw pair there] at hasModule
      exact absurd rfl hasModule
    · intro pair there hasModule
      rw [only uw pair there] at hasModule
      exact absurd rfl hasModule
  · intro uw pair there hasModule
    rw [only uw pair there] at hasModule
    exact absurd rfl hasModule
  · intro uw pair there uwi inTree
    rw [only uw pair there] at inTree
    cases inTree
  · intro thread uw key entry nonzero found
    rw [show (initial memory pairs uwis).tables thread = uwHashNew from rfl, uwHashLookup_new nonzero] at found
    cases found

instance (s : CacheState) : (event : CacheEvent) → Decidable (s.Allowed event)
  | .map lm _ _ => inferInstanceAs (Decidable (∀ other ∈ s.mapped, Apart lm.range other.range))
  | .unmap lm _ _ => inferInstanceAs (Decidable (lm ∈ s.mapped))
  | .lookup _ _ memory _ bounds built => inferInstanceAs (Decidable
      ((∀ found ∈ bounds, ∃ lm ∈ s.mapped, lm.id = found.2 ∧ found.1 ∈ lm.functions) ∧
      (∀ uw, ∀ pair ∈ s.maps.get uw, pair.place ≠ memory) ∧
      ∀ tree ∈ built, (∀ a ∈ tree.nodes, ∀ b ∈ tree.nodes, a.place = b.place → a = b) ∧
        ∀ uw, ∀ pair ∈ s.maps.get uw, ∀ old ∈ pair.btuwi.nodes, ∀ new ∈ tree.nodes, old.place ≠ new.place))

/-- A module with a function that thread 0 looks up and that a thread unmaps. -/
def shortLife (unmapper : Nat) : List CacheEvent :=
  [.map (RecipeState.smallModule 1 10 (by decide)) (fun _ => 1) (fun _ => 2),
    .lookup 0 .dwarf 3 12 (some (⟨10, 15⟩, 1)) (some (.node ⟨4, ⟨10, 15⟩, 7⟩ .null .null)),
    .unmap (RecipeState.smallModule 1 10 (by decide)) (fun _ => 5) (some unmapper)]

def blank : CacheState :=
  initial (fun _ => 0) (fun _ => (⟨0, 0⟩, none)) (fun _ => ⟨0, ⟨0, 0⟩, 0⟩)

end CacheState

end HpcToolkit.Unwind
