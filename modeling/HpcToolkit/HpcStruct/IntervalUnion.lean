import HpcToolkit.HpcStruct.VMAIntervalSet
import Mathlib.Order.Interval.Set.LinearOrder

/-! # Unions of interval sets

The addresses of a set of intervals. An insertion adds those of its interval, and tells whether there was one that the
set did not have; the gaps of a set have the others of a range.
-/

open List
open Set (Ico mem_Ico mem_union)

namespace HpcToolkit.HpcStruct

open VMAInterval

variable {VMA : Type} [LinearOrder VMA]

def VMAInterval.addresses (x : VMAInterval VMA) : Set VMA := Ico x.mBeg x.mEnd

lemma VMAInterval.mem_addresses {x : VMAInterval VMA} {a : VMA} : a ∈ x.addresses ↔ x.mBeg ≤ a ∧ a < x.mEnd :=
  Iff.rfl

lemma VMAInterval.empty_iff {x : VMAInterval VMA} : x.empty = true ↔ x.addresses = ∅ := by
  rw [addresses, Set.Ico_eq_empty_iff]
  simp [empty]

namespace VMAIntervalSet

/-- The addresses of the intervals of a set. -/
def addresses (set : VMAIntervalSet VMA) : Set VMA := {a | ∃ e ∈ set, a ∈ e.addresses}

variable {set before rest later : VMAIntervalSet VMA} {it x : VMAInterval VMA} {low high a : VMA}

@[simp] lemma addresses_nil : addresses ([] : VMAIntervalSet VMA) = ∅ := by simp [addresses]

@[simp] lemma addresses_cons : addresses (x :: set) = x.addresses ∪ addresses set := by
  ext a
  simp [addresses]

@[simp] lemma addresses_append : addresses (before ++ later) = addresses before ∪ addresses later := by
  ext a
  simp [addresses, or_and_right, exists_or]

lemma addresses_congr (same : ∀ e, e ∈ before ↔ e ∈ later) : addresses before = addresses later := by
  simp [addresses, same]

variable {e : VMAInterval VMA}

lemma eq_of_not_lt (notLess : e.lt x = false) (notGreater : x.lt e = false) : e = x := by
  obtain ⟨b, f⟩ := e
  obtain ⟨b', f'⟩ := x
  simp only [VMAInterval.lt, decide_eq_false_iff_not] at notLess notGreater
  simp only [VMAInterval.mk.injEq]
  grind

lemma not_lt_of_dropWhile (behind : set.dropWhile (·.lt x) = e :: later) : e.lt x = false := by
  have stop := head?_dropWhile_not (·.lt x) set
  rw [behind] at stop
  simpa using stop

lemma mem_setInsert : e ∈ setInsert set x ↔ e = x ∨ e ∈ set := by
  have parts := takeWhile_append_dropWhile (p := (·.lt x)) (l := set)
  have inSet : e ∈ set ↔ e ∈ set.takeWhile (·.lt x) ∨ e ∈ set.dropWhile (·.lt x) := by
    rw [← mem_append, parts]
  rw [setInsert, inSet, mem_append]
  cases behind : set.dropWhile (·.lt x) with
  | nil => simp [or_comm]
  | cons first later =>
    dsimp only
    split
    · simp only [mem_cons]
      tauto
    · rename_i notGreater
      have same := eq_of_not_lt (not_lt_of_dropWhile behind) (by simpa using notGreater)
      simp only [mem_cons, same]
      tauto

lemma setInsertReturn_of_notMem (absent : x ∉ set) : setInsertReturn set x = true := by
  rw [setInsertReturn]
  cases behind : set.dropWhile (·.lt x) with
  | nil => rfl
  | cons first later =>
    have member : first ∈ set := (dropWhile_sublist _).subset (behind ▸ mem_cons_self)
    apply Bool.of_not_eq_false
    intro notGreater
    exact absent (eq_of_not_lt (not_lt_of_dropWhile behind) notGreater ▸ member)

lemma addresses_setInsert : addresses (setInsert set x) = x.addresses ∪ addresses set := by
  rw [← addresses_cons]
  exact addresses_congr fun e => by rw [mem_setInsert, mem_cons]

/-! ## Insertions -/

lemma addresses_extendHigh (ordered : low < high) (behind : ∀ e ∈ set, low ≤ e.mBeg)
    (proper : ∀ e ∈ set, e.mBeg < e.mEnd) :
    Ico low (extendHigh high set).1 ∪ addresses (extendHigh high set).2 = Ico low high ∪ addresses set := by
  induction set generalizing high with
  | nil => rfl
  | cons it rest ih =>
    rw [extendHigh]
    split
    · rename_i touches
      have begins := behind it mem_cons_self
      have joined : Ico low high ∪ it.addresses = Ico low (max high it.mEnd) := by
        ext a
        simp only [VMAInterval.addresses, mem_union, mem_Ico, lt_max_iff]
        grind
      rw [ih (ordered.trans_le (le_max_left ..)) (fun e member => behind e (mem_cons_of_mem it member))
        (fun e member => proper e (mem_cons_of_mem it member)), addresses_cons, ← joined, Set.union_assoc]
    · rfl

lemma mem_extendHigh (member : e ∈ (extendHigh high set).2) : e ∈ set :=
  (extendHigh_sublist high set).subset member

lemma insertAt_spec (separated : Separated (before ++ it :: rest)) (nonempty : low < high)
    (front : ∀ e ∈ before, e.mEnd < low) (behind : ∀ e ∈ rest, low < e.mBeg) :
    addresses (insertAt before it rest low high) = Ico low high ∪ addresses (before ++ it :: rest) ∧
      (insertAtReturn before it rest low high = false ↔ it.mBeg ≤ low ∧ high ≤ it.mEnd) := by
  have proper : ∀ e ∈ it :: rest, e.mBeg < e.mEnd := fun e member =>
    separated.nonempty e (mem_append_right _ member)
  have properRest : ∀ e ∈ rest, e.mBeg < e.mEnd := fun e member => proper e (mem_cons_of_mem it member)
  have front_it : ∀ e ∈ before, e.mBeg < it.mBeg := fun e member =>
    (separated.nonempty e (mem_append_left _ member)).trans
      ((pairwise_append.mp separated.apart).2.2 e member it mem_cons_self)
  have front_low : ∀ e ∈ before, e.mBeg < low := fun e member =>
    (separated.nonempty e (mem_append_left _ member)).trans (front e member)
  rw [insertAt, insertAtReturn]
  split
  · rename_i within
    have covered : Ico low high ⊆ it.addresses := Set.Ico_subset_Ico within.1 within.2
    refine ⟨?_, by simp [within]⟩
    rw [addresses_append, addresses_cons, eq_comm, Set.union_eq_right]
    exact covered.trans (Set.subset_union_left.trans Set.subset_union_right)
  · rename_i notWithin
    have created {set : VMAIntervalSet VMA} {x : VMAInterval VMA} (fresh : ∀ e ∈ set, e.mBeg ≠ x.mBeg) :
        setInsertReturn set x = false ↔ it.mBeg ≤ low ∧ high ≤ it.mEnd := by
      rw [setInsertReturn_of_notMem fun member => fresh x member rfl]
      exact iff_of_false Bool.true_eq_false_eq_False notWithin
    split
    · rename_i begins
      have extended := addresses_extendHigh nonempty (fun e member => (behind e member).le) properRest
      have grown := le_extendHigh high rest
      have later : ∀ e ∈ (extendHigh high rest).2, low < e.mBeg := fun e member => behind e (mem_extendHigh member)
      dsimp only
      generalize extendHigh high rest = result at extended grown later ⊢
      split
      · rename_i touches
        have ends : it.mEnd < high := not_le.mp fun le => notWithin ⟨begins, le⟩
        have joined : Ico it.mBeg result.1 = it.addresses ∪ Ico low result.1 := by
          rw [VMAInterval.addresses, Set.Ico_union_Ico' touches (begins.trans (nonempty.le.trans grown)),
            min_eq_left begins, max_eq_right (ends.le.trans grown)]
        rw [min_eq_right begins]
        refine ⟨?_, created fun e member => ?_⟩
        · rw [addresses_setInsert, VMAInterval.addresses, joined, addresses_append, addresses_append, addresses_cons]
          calc it.addresses ∪ Ico low result.1 ∪ (addresses before ∪ addresses result.2)
              = it.addresses ∪ addresses before ∪ (Ico low result.1 ∪ addresses result.2) := by ac_rfl
            _ = it.addresses ∪ addresses before ∪ (Ico low high ∪ addresses rest) := by rw [extended]
            _ = Ico low high ∪ (addresses before ∪ (it.addresses ∪ addresses rest)) := by ac_rfl
        · rcases mem_append.mp member with member | member
          · exact (front_it e member).ne
          · exact (begins.trans_lt (later e member)).ne'
      · rename_i apart
        refine ⟨?_, created fun e member => ?_⟩
        · rw [addresses_setInsert, VMAInterval.addresses, addresses_append, addresses_append, addresses_cons,
            addresses_cons]
          calc Ico low result.1 ∪ (addresses before ∪ (it.addresses ∪ addresses result.2))
              = addresses before ∪ it.addresses ∪ (Ico low result.1 ∪ addresses result.2) := by ac_rfl
            _ = addresses before ∪ it.addresses ∪ (Ico low high ∪ addresses rest) := by rw [extended]
            _ = Ico low high ∪ (addresses before ∪ (it.addresses ∪ addresses rest)) := by ac_rfl
        · rcases mem_append.mp member with member | member
          · exact (front_low e member).ne
          · rcases mem_cons.mp member with rfl | member
            · exact ((proper e mem_cons_self).trans (not_le.mp apart)).ne
            · exact (later e member).ne'
    · rename_i begins
      have from_low : ∀ e ∈ it :: rest, low < e.mBeg := by
        intro e member
        rcases mem_cons.mp member with rfl | member
        · exact not_le.mp begins
        · exact behind e member
      have extended := addresses_extendHigh nonempty (fun e member => (from_low e member).le) proper
      have later : ∀ e ∈ (extendHigh high (it :: rest)).2, low < e.mBeg := fun e member =>
        from_low e (mem_extendHigh member)
      generalize extendHigh high (it :: rest) = result at extended later ⊢
      refine ⟨?_, created fun e member => ?_⟩
      · dsimp only
        rw [addresses_setInsert, VMAInterval.addresses, addresses_append, addresses_append]
        calc Ico low result.1 ∪ (addresses before ∪ addresses result.2)
            = addresses before ∪ (Ico low result.1 ∪ addresses result.2) := by ac_rfl
          _ = addresses before ∪ (Ico low high ∪ addresses (it :: rest)) := by rw [extended]
          _ = Ico low high ∪ (addresses before ∪ addresses (it :: rest)) := by ac_rfl
      · rcases mem_append.mp member with member | member
        · exact (front_low e member).ne
        · exact (later e member).ne'

lemma mEnd_notMem_addresses (separated : Separated set) (member : it ∈ set) : it.mEnd ∉ addresses set := by
  rintro ⟨e, inside, begins, ends⟩
  have proper := separated.nonempty it member
  rcases eq_or_ne e it with rfl | differ
  · exact ends.false
  · obtain ⟨front, behind, rfl⟩ := append_of_mem member
    obtain ⟨-, from_it, across⟩ := pairwise_append.mp separated.apart
    rcases mem_append.mp inside with inside | inside
    · exact (across e inside it mem_cons_self).not_gt (proper.trans ends)
    · rcases mem_cons.mp inside with same | inside
      · exact differ same
      · exact ((pairwise_cons.mp from_it).1 e inside).not_ge begins

lemma covered_iff (separated : Separated set) (nonempty : low < high) :
    Ico low high ⊆ addresses set ↔ ∃ e ∈ set, e.mBeg ≤ low ∧ high ≤ e.mEnd := by
  constructor
  · intro covered
    obtain ⟨e, member, begins, ends⟩ := covered (Set.left_mem_Ico.mpr nonempty)
    refine ⟨e, member, begins, not_lt.mp fun short => ?_⟩
    exact mEnd_notMem_addresses separated member (covered ⟨ends.le, short⟩)
  · rintro ⟨e, member, begins, ends⟩ a inside
    exact ⟨e, member, begins.trans inside.1, inside.2.trans_le ends⟩

lemma insert_spec (separated : Separated set) (x : VMAInterval VMA) :
    addresses (insert set x) = x.addresses ∪ addresses set ∧
      (insertReturn set x = false ↔ x.addresses ⊆ addresses set) := by
  by_cases none : x.empty
  · have nothing := VMAInterval.empty_iff.mp none
    rw [insert, insertReturn, if_pos none, if_pos none, nothing]
    simp
  · have nonempty : x.mBeg < x.mEnd := by simpa [VMAInterval.empty] using none
    cases set with
    | nil =>
      rw [insert, insertReturn, if_neg none, if_neg none]
      simp [VMAInterval.addresses, Set.Ico_eq_empty_iff, nonempty]
    | cons first set =>
      obtain ⟨before, it, rest, parts, front, behind, here, returned⟩ :=
        insert_cases separated (cons_ne_nil _ _) nonempty
      rw [parts] at separated
      obtain ⟨union, created⟩ := insertAt_spec separated nonempty front behind
      rw [here, returned, created, parts]
      refine ⟨union, ?_⟩
      rw [VMAInterval.addresses, covered_iff separated nonempty]
      constructor
      · intro within
        exact ⟨it, mem_append_right _ mem_cons_self, within⟩
      · rintro ⟨e, member, begins, ends⟩
        rcases mem_append.mp member with member | member
        · exact absurd (front e member) (not_lt.mpr (nonempty.le.trans ends))
        · rcases mem_cons.mp member with rfl | member
          · exact ⟨begins, ends⟩
          · exact absurd (behind e member) (not_lt.mpr begins)

def merge (set x : VMAIntervalSet VMA) : VMAIntervalSet VMA := x.foldl insert set

lemma merge_spec (separated : Separated set) (x : VMAIntervalSet VMA) :
    Separated (merge set x) ∧ addresses (merge set x) = addresses x ∪ addresses set := by
  induction x generalizing set with
  | nil => simpa [merge] using separated
  | cons it x ih =>
    obtain ⟨kept, union⟩ := ih (separated.insert it)
    refine ⟨kept, ?_⟩
    rw [merge, foldl_cons, ← merge, union, (insert_spec separated it).1, addresses_cons]
    ac_rfl

/-! ## Gaps -/

/-- The loop of `computeGaps` from `it` on. -/
def gapsFrom (stop : VMA) : VMA → VMAIntervalSet VMA → VMAIntervalSet VMA → VMAIntervalSet VMA
  | start, gaps, [] => if start < stop then insert gaps ⟨start, stop⟩ else gaps
  | start, gaps, it :: rest =>
    if start < stop then
      if it.mEnd ≤ start then gapsFrom stop start gaps rest
      else if it.mBeg ≤ start then gapsFrom stop it.mEnd gaps rest
      else gapsFrom stop it.mEnd (insert gaps ⟨start, min it.mBeg stop⟩) rest
    else gaps

/-- `computeGaps`; what is in `gaps` before is cleared. -/
def computeGaps (vset _gaps : VMAIntervalSet VMA) (start stop : VMA) : VMAIntervalSet VMA := gapsFrom stop start [] vset

lemma gapsFrom_spec {gaps : VMAIntervalSet VMA} (separated : Separated gaps) (vset : Separated set)
    (start stop : VMA) :
    Separated (gapsFrom stop start gaps set) ∧
      addresses (gapsFrom stop start gaps set) = addresses gaps ∪ (Ico start stop \ addresses set) := by
  induction set generalizing start gaps with
  | nil =>
    rw [gapsFrom]
    split
    · refine ⟨separated.insert _, ?_⟩
      rw [(insert_spec separated _).1, addresses_nil, Set.sdiff_empty, Set.union_comm]
      rfl
    · rename_i past
      rw [Set.Ico_eq_empty past]
      simpa using separated
  | cons it rest ih =>
    have proper := vset.nonempty it mem_cons_self
    have later := vset.sublist (sublist_cons_self it rest)
    have after : ∀ a ∈ addresses rest, it.mEnd < a := by
      rintro a ⟨e, member, begins, -⟩
      exact ((pairwise_cons.mp vset.apart).1 e member).trans_le begins
    rw [gapsFrom, addresses_cons]
    split
    · split
      · rename_i left
        obtain ⟨kept, union⟩ := ih separated later start
        refine ⟨kept, ?_⟩
        rw [union]
        ext a
        simp only [mem_union, Set.mem_sdiff, mem_Ico, mem_addresses]
        grind
      · split
        · obtain ⟨kept, union⟩ := ih separated later it.mEnd
          refine ⟨kept, ?_⟩
          rw [union]
          ext a
          have behind := after a
          simp only [mem_union, Set.mem_sdiff, mem_Ico, mem_addresses]
          grind
        · obtain ⟨kept, union⟩ := ih (separated.insert ⟨start, min it.mBeg stop⟩) later it.mEnd
          refine ⟨kept, ?_⟩
          rw [union, (insert_spec separated _).1]
          ext a
          have behind := after a
          simp only [mem_union, Set.mem_sdiff, mem_Ico, mem_addresses, lt_min_iff]
          grind
    · rename_i past
      rw [Set.Ico_eq_empty past]
      simpa using separated

lemma separated_nil : Separated ([] : VMAIntervalSet VMA) := ⟨fun _ member => absurd member not_mem_nil, .nil⟩

lemma computeGaps_spec (vset : Separated set) (gaps : VMAIntervalSet VMA) (start stop : VMA) :
    Separated (computeGaps set gaps start stop) ∧
      addresses (computeGaps set gaps start stop) = Ico start stop \ addresses set := by
  obtain ⟨kept, union⟩ := gapsFrom_spec separated_nil vset start stop
  exact ⟨kept, by rw [computeGaps, union, addresses_nil, Set.empty_union]⟩

/-! ## Sets that are built by calls -/

/-- A call that adds to a set. -/
inductive Call (VMA : Type) where
  | insert (x : VMAInterval VMA)
  | merge (x : VMAIntervalSet VMA)

/-- The intervals that a call adds. -/
def Call.given : Call VMA → VMAIntervalSet VMA
  | .insert x => [x]
  | .merge x => x

def Call.run (set : VMAIntervalSet VMA) : Call VMA → VMAIntervalSet VMA
  | .insert x => VMAIntervalSet.insert set x
  | .merge x => VMAIntervalSet.merge set x

lemma Call.run_spec (separated : Separated set) (call : Call VMA) :
    Separated (call.run set) ∧ addresses (call.run set) = addresses call.given ∪ addresses set := by
  cases call with
  | insert x =>
    refine ⟨separated.insert x, ?_⟩
    rw [Call.run, (insert_spec separated x).1, Call.given, addresses_cons, addresses_nil, Set.union_empty]
  | merge x => exact merge_spec separated x

lemma run_spec (separated : Separated set) (calls : List (Call VMA)) :
    Separated (calls.foldl Call.run set) ∧
      addresses (calls.foldl Call.run set) = addresses (calls.flatMap Call.given) ∪ addresses set := by
  induction calls generalizing set with
  | nil => simpa using separated
  | cons call calls ih =>
    obtain ⟨kept, union⟩ := call.run_spec separated
    obtain ⟨keptAll, unionAll⟩ := ih kept
    refine ⟨keptAll, ?_⟩
    rw [foldl_cons, unionAll, union, flatMap_cons, addresses_append]
    ac_rfl

/-- A set that is built by calls keeps the addresses that it was given in intervals apart from each other, an insertion
tells whether it has them already, and the gaps are what is missing of a range. -/
theorem holds_what_was_given (calls : List (Call VMA)) :
    let set := calls.foldl Call.run []
    Separated set ∧ addresses set = addresses (calls.flatMap Call.given) ∧
      (∀ x, insertReturn set x = false ↔ x.addresses ⊆ addresses set) ∧
      ∀ gaps start stop, Separated (computeGaps set gaps start stop) ∧
        addresses (computeGaps set gaps start stop) = Ico start stop \ addresses set := by
  obtain ⟨kept, union⟩ := run_spec separated_nil calls
  refine ⟨kept, by simpa using union, fun x => (insert_spec kept x).2, fun gaps start stop => ?_⟩
  exact computeGaps_spec kept gaps start stop

/-! ## One set for each collection of addresses -/

lemma within_of_subset (proper : ∀ e ∈ set, e.mBeg < e.mEnd) (separated : Separated later)
    (sub : addresses set ⊆ addresses later) (member : e ∈ set) : ∃ e' ∈ later, e'.mBeg ≤ e.mBeg ∧ e.mEnd ≤ e'.mEnd := by
  apply (covered_iff separated (proper e member)).mp
  intro a inside
  exact sub ⟨e, member, inside⟩

lemma eq_of_within (separated : Separated set) (first : e ∈ set) (second : x ∈ set) (begins : x.mBeg ≤ e.mBeg)
    (ends : e.mEnd ≤ x.mEnd) : e = x := by
  obtain ⟨front, behind, rfl⟩ := append_of_mem second
  have proper := separated.nonempty e first
  obtain ⟨-, from_x, across⟩ := pairwise_append.mp separated.apart
  rcases mem_append.mp first with first | first
  · exact absurd ((across e first x mem_cons_self).trans_le begins) (not_lt.mpr proper.le)
  · rcases mem_cons.mp first with same | first
    · exact same
    · exact absurd ((proper.trans_le ends).trans ((pairwise_cons.mp from_x).1 e first)) (lt_irrefl _)

/-- A set of intervals apart from each other is the only one with its addresses. -/
lemma eq_of_addresses (separated : Separated set) (apart : Separated later) (same : addresses set = addresses later) :
    set = later := by
  have sub {set later : VMAIntervalSet VMA} (separated : Separated set) (apart : Separated later)
      (same : addresses set = addresses later) : ∀ e ∈ set, e ∈ later := by
    intro e member
    obtain ⟨x, within, begins, ends⟩ := within_of_subset separated.nonempty apart same.subset member
    obtain ⟨y, back, begins', ends'⟩ := within_of_subset apart.nonempty separated same.superset within
    obtain rfl := eq_of_within separated member back (begins'.trans begins) (ends.trans ends')
    have both : e = x := congrArg₂ VMAInterval.mk (le_antisymm begins' begins) (le_antisymm ends ends')
    exact both ▸ within
  have distinct {set : VMAIntervalSet VMA} (separated : Separated set) : set.Nodup := by
    apply separated.apart.imp_of_mem
    rintro e x member - before rfl
    exact before.not_gt (separated.nonempty e member)
  have perm := (perm_ext_iff_of_nodup (distinct separated) (distinct apart)).mpr fun e =>
    ⟨sub separated apart same e, sub apart separated same.symm e⟩
  apply perm.eq_of_pairwise _ separated.apart apart.apart
  intro e x member within before after
  exact absurd (before.trans (apart.nonempty x within)) (after.trans (separated.nonempty e member)).not_gt

/-- Calls build the same set just in case they give the same addresses, in whatever order and pieces. -/
theorem built_eq_iff (calls calls' : List (Call VMA)) : calls.foldl Call.run [] = calls'.foldl Call.run [] ↔
    addresses (calls.flatMap Call.given) = addresses (calls'.flatMap Call.given) := by
  obtain ⟨separated, union⟩ := run_spec separated_nil calls
  obtain ⟨apart, union'⟩ := run_spec separated_nil calls'
  rw [addresses_nil, Set.union_empty] at union union'
  rw [← union, ← union']
  exact ⟨congrArg addresses, eq_of_addresses separated apart⟩

end VMAIntervalSet

end HpcToolkit.HpcStruct
