import Mathlib

/-! # The statement maps of hpcstruct's inline trees

A statement is a range of addresses with one file and line, and the statements of one inline node are kept in a map
ordered by their first address. Inserting a statement joins it to its neighbours where their lines agree. Lengths are
C ints and addresses 64 bit words, so both wrap. As long as the ranges are disjoint and all of them together are
shorter than an int can say, an insertion adds exactly the addresses of the new statement.
-/

open List hiding beq_eq_decide

namespace HpcToolkit.HpcStruct

/-! ## Statements -/

structure StmtInfo where
  vma : ℕ
  len : ℤ
  fileIndex : ℤ
  baseIndex : ℤ
  lineNum : ℤ
  target : ℕ
  isCall : Bool
  isSink : Bool
  device : String
deriving DecidableEq

namespace StmtInfo

/-- `vma + len`, where the length is converted to a 64 bit word. -/
def endVma (s : StmtInfo) : ℕ := ((s.vma + s.len) % 2 ^ 64).toNat

def member (s : StmtInfo) (x : ℕ) : Bool := s.vma ≤ x && x < s.endVma

/-- `len = e - vma`, where the difference is converted to an int. -/
def setEnd (s : StmtInfo) (e : ℕ) : StmtInfo := { s with len := Int.bmod ((e : ℤ) - s.vma) (2 ^ 32) }

/-- Two statements that may be one: the same line of the same file, and neither is a call. -/
def joins (s t : StmtInfo) : Bool :=
  s.baseIndex = t.baseIndex && s.lineNum = t.lineNum && !s.isCall && !t.isCall

end StmtInfo

/-! ## The map -/

/-- A `std::map` from the first address of each statement. -/
structure StmtMap where
  stmts : List StmtInfo
  sorted : stmts.Pairwise fun s t => s.vma < t.vma

namespace StmtMap

def empty : StmtMap := ⟨[], .nil⟩

/-- The last statement that does not start after `vma`. -/
def left (m : StmtMap) (vma : ℕ) : Option StmtInfo := (m.stmts.filter fun s => s.vma ≤ vma).getLast?

/-- The statement at `upper_bound(vma)`. -/
def right (m : StmtMap) (vma : ℕ) : Option StmtInfo := m.stmts.find? fun s => vma < s.vma

def findStmt (m : StmtMap) (vma : ℕ) : Option StmtInfo := (m.left vma).filter fun s => s.member vma

def member (m : StmtMap) (vma : ℕ) : Bool := (m.findStmt vma).isSome

/-- `(*this)[info->vma] = info`. -/
def assign (m : StmtMap) (info : StmtInfo) : StmtMap where
  stmts := (m.stmts.filter fun s => s.vma < info.vma) ++ info :: m.stmts.filter fun s => info.vma < s.vma
  sorted := by
    refine pairwise_append.mpr ⟨m.sorted.filter _, pairwise_cons.mpr ⟨?_, m.sorted.filter _⟩, ?_⟩
    · simp
    · simp only [mem_filter, decide_eq_true_eq, mem_cons]
      rintro s ⟨_, before⟩ t (rfl | ⟨_, after⟩)
      · exact before
      · exact before.trans after

def erase (m : StmtMap) (vma : ℕ) : StmtMap := ⟨m.stmts.filter fun s => s.vma ≠ vma, m.sorted.filter _⟩

/-- What becomes of a new statement with respect to the one to its left, and its end: a statement of its own, an
extension of the left one, or a statement that starts where the left one ends, if there is room. -/
def placeLeft (m : StmtMap) (sinfo : StmtInfo) : Option (StmtInfo × ℕ) :=
  match m.left sinfo.vma with
  | none => some (sinfo.setEnd sinfo.endVma, sinfo.endVma)
  | some left =>
    if left.endVma < sinfo.vma then some (sinfo.setEnd sinfo.endVma, sinfo.endVma)
    else if left.joins sinfo then
      let e := max sinfo.endVma left.endVma
      some (left.setEnd e, e)
    else if left.endVma < sinfo.endVma ∧ (m.right sinfo.vma).all fun r => left.endVma < r.vma then
      some ({ sinfo with vma := left.endVma }.setEnd sinfo.endVma, sinfo.endVma)
    else none

/-- The right neighbour joins `info`, or cuts it off. -/
def joinRight (m : StmtMap) (info : StmtInfo) (e : ℕ) : Option StmtInfo → StmtMap
  | none => m
  | some r =>
    if r.vma ≤ e then
      if r.joins info then (m.erase r.vma).assign (info.setEnd r.endVma)
      else m.assign (info.setEnd r.vma)
    else m

def insert (m : StmtMap) (sinfo : StmtInfo) : StmtMap :=
  match m.placeLeft sinfo with
  | none => m
  | some (info, e) => (m.assign info).joinRight info e (m.right sinfo.vma)

end StmtMap

/-! ## Addresses -/

/-- Disjoint ranges that an int can measure. -/
structure MeasuredByInt (addresses : Multiset ℕ) : Prop where
  nodup : addresses.Nodup
  short : addresses.card < 2 ^ 31

lemma MeasuredByInt.mono {A B : Multiset ℕ} (measurable : MeasuredByInt B) (le : A ≤ B) : MeasuredByInt A :=
  ⟨Multiset.nodup_of_le le measurable.nodup, (Multiset.card_le_card le).trans_lt measurable.short⟩

variable {α β : Type} {l : List α} {f : α → Multiset β}

lemma mem_sum_map {x : β} :
    x ∈ (l.map f).sum ↔ ∃ a ∈ l, x ∈ f a := by
  have bind : (l.map f).sum = Multiset.bind l f := by
    rw [Multiset.bind, Multiset.join, Multiset.map_coe, Multiset.sum_coe]
  rw [bind, Multiset.mem_bind]
  rfl

lemma le_sum_map {a : α} (ha : a ∈ l) : f a ≤ (l.map f).sum :=
  single_le_sum (fun _ _ => Multiset.zero_le _) _ (mem_map_of_mem ha)

namespace StmtInfo

/-- The first address after the statement, when nothing wraps. -/
def stop (s : StmtInfo) : ℕ := s.vma + s.len.toNat

def addresses (s : StmtInfo) : Multiset ℕ := Multiset.Ico s.vma s.stop

/-- The statement has an address, and its end is a word. -/
structure Proper (s : StmtInfo) : Prop where
  nonempty : 0 < s.len
  fits : s.stop < 2 ^ 64

variable {s t : StmtInfo}

lemma Proper.vma_lt (proper : s.Proper) : s.vma < s.stop := by
  have := proper.nonempty
  rw [stop]
  omega

lemma Proper.endVma_eq (proper : s.Proper) : s.endVma = s.stop := by
  have nonempty := proper.nonempty
  have fits := proper.fits
  rw [stop] at fits ⊢
  rw [endVma]
  omega

lemma Proper.member_iff (proper : s.Proper) {x : ℕ} : s.member x = true ↔ x ∈ s.addresses := by
  rw [member, proper.endVma_eq, addresses, Multiset.mem_Ico, Bool.and_eq_true, decide_eq_true_eq, decide_eq_true_eq]

@[simp] lemma setEnd_vma (s : StmtInfo) (e : ℕ) : (s.setEnd e).vma = s.vma := rfl

lemma card_addresses (s : StmtInfo) : s.addresses.card = s.len.toNat := by
  rw [addresses, Multiset.Ico, Finset.card_val, Nat.card_Ico, stop]
  omega

variable {e : ℕ}

lemma setEnd_stop (after : s.vma < e) (short : e - s.vma < 2 ^ 31) : (s.setEnd e).stop = e := by
  have len : (s.setEnd e).len = (e : ℤ) - s.vma := by
    change Int.bmod _ _ = _
    rw [Int.bmod_eq_of_le] <;> omega
  rw [stop, len, setEnd_vma]
  omega

lemma Proper.setEnd_self (proper : s.Proper) (measurable : MeasuredByInt s.addresses) : s.setEnd s.stop = s := by
  have nonempty := proper.nonempty
  have card := measurable.short
  rw [card_addresses] at card
  have len : Int.bmod ((s.stop : ℤ) - s.vma) (2 ^ 32) = s.len := by
    rw [stop, Int.bmod_eq_of_le] <;> omega
  rw [setEnd, len]

lemma setEnd_proper (after : s.vma < e) (short : e - s.vma < 2 ^ 31) (fits : e < 2 ^ 64) :
    (s.setEnd e).Proper := by
  have stop := setEnd_stop after short
  constructor
  · rw [StmtInfo.stop, setEnd_vma] at stop
    omega
  · rwa [stop]

lemma addresses_setEnd (after : s.vma < e) (short : e - s.vma < 2 ^ 31) :
    (s.setEnd e).addresses = Multiset.Ico s.vma e := by
  rw [addresses, setEnd_stop after short, setEnd_vma]

lemma stop_le_of_disjoint (proper : t.Proper) (disjoint : (s.addresses + t.addresses).Nodup)
    (before : s.vma ≤ t.vma) : s.stop ≤ t.vma := by
  by_contra overlap
  have inS : t.vma ∈ s.addresses := Multiset.mem_Ico.mpr ⟨before, not_le.mp overlap⟩
  have inT : t.vma ∈ t.addresses := Multiset.mem_Ico.mpr ⟨le_rfl, proper.vma_lt⟩
  exact Multiset.disjoint_left.mp (Multiset.nodup_add.mp disjoint).2.2 inS inT

lemma addresses_joined (proper : s.Proper) (next : t.Proper) (adjacent : s.stop = t.vma)
    (short : MeasuredByInt (s.addresses + t.addresses)) :
    (s.setEnd t.stop).Proper ∧ (s.setEnd t.stop).stop = t.stop ∧
      (s.setEnd t.stop).addresses = s.addresses + t.addresses := by
  have first := proper.vma_lt
  have second := next.vma_lt
  have card := short.short
  rw [Multiset.card_add, card_addresses, card_addresses] at card
  have length : t.stop - s.vma < 2 ^ 31 := by
    rw [stop] at adjacent ⊢
    omega
  have after : s.vma < t.stop := by omega
  refine ⟨setEnd_proper after length next.fits, setEnd_stop after length, ?_⟩
  rw [addresses_setEnd after length, addresses, addresses, ← adjacent]
  exact (Multiset.Ico_add_Ico_eq_Ico first.le (by omega)).symm

end StmtInfo

namespace StmtMap

def addresses (m : StmtMap) : Multiset ℕ := (m.stmts.map StmtInfo.addresses).sum

def Proper (m : StmtMap) : Prop := ∀ s ∈ m.stmts, s.Proper

variable {m : StmtMap} {s t info : StmtInfo}

lemma keys_nodup (m : StmtMap) : (m.stmts.map StmtInfo.vma).Nodup :=
  pairwise_map.mpr (m.sorted.imp fun h => h.ne)

lemma eq_of_vma_eq (hs : s ∈ m.stmts) (ht : t ∈ m.stmts) (same : s.vma = t.vma) : s = t :=
  inj_on_of_nodup_map m.keys_nodup hs ht same

lemma perm_cons_erase (hs : s ∈ m.stmts) : m.stmts.Perm (s :: (m.erase s.vma).stmts) := by
  have erased : (m.erase s.vma).stmts = m.stmts.erase s := by
    rw [(List.Nodup.of_map _ m.keys_nodup).erase_eq_filter]
    apply filter_congr
    intro t ht
    have key : t.vma = s.vma ↔ t = s := ⟨eq_of_vma_eq ht hs, congrArg _⟩
    simp only [ne_eq, key, decide_not, bne, beq_eq_decide]
  rw [erased]
  exact List.perm_cons_erase hs

lemma assign_perm (m : StmtMap) (info : StmtInfo) :
    (m.assign info).stmts.Perm (info :: (m.erase info.vma).stmts) := by
  apply perm_middle.trans
  apply List.Perm.cons
  have split := filter_append_perm (fun s : StmtInfo => decide (s.vma < info.vma)) (m.erase info.vma).stmts
  refine List.Perm.trans (List.Perm.of_eq ?_) split
  simp only [erase, filter_filter]
  congr 1
  all_goals
    apply filter_congr
    intro s _
    simp only [ne_eq, ← decide_not, ← Bool.decide_and, decide_eq_decide]
    omega

lemma addresses_erase (hs : s ∈ m.stmts) : m.addresses = s.addresses + (m.erase s.vma).addresses := by
  rw [addresses, ((perm_cons_erase hs).map _).sum_eq, map_cons, sum_cons, addresses]

lemma addresses_assign (m : StmtMap) (info : StmtInfo) :
    (m.assign info).addresses = info.addresses + (m.erase info.vma).addresses := by
  rw [addresses, ((m.assign_perm info).map _).sum_eq, map_cons, sum_cons, addresses]

variable {vma : ℕ}

lemma erase_absent (absent : ∀ s ∈ m.stmts, s.vma ≠ vma) : m.erase vma = m := by
  rw [erase, mk.injEq, filter_eq_self]
  intro s hs
  exact decide_eq_true (absent s hs)

lemma mem_assign : t ∈ (m.assign info).stmts ↔ t = info ∨ t ∈ m.stmts ∧ t.vma ≠ info.vma := by
  rw [(m.assign_perm info).mem_iff, mem_cons, erase, mem_filter, decide_eq_true_eq]

lemma Proper.assign (proper : m.Proper) (new : info.Proper) : (m.assign info).Proper := by
  intro t ht
  obtain rfl | ⟨old, _⟩ := mem_assign.mp ht
  · exact new
  · exact proper t old

lemma Proper.erase (proper : m.Proper) (vma : ℕ) : (m.erase vma).Proper := fun s hs =>
  proper s (mem_of_mem_filter hs)

lemma addresses_le (hs : s ∈ m.stmts) : s.addresses ≤ m.addresses := le_sum_map hs

lemma addresses_pair_le (hs : s ∈ m.stmts) (ht : t ∈ m.stmts) (distinct : s.vma ≠ t.vma) :
    s.addresses + t.addresses ≤ m.addresses := by
  have rest : t ∈ (m.erase s.vma).stmts := mem_filter.mpr ⟨ht, decide_eq_true distinct.symm⟩
  rw [addresses_erase hs]
  exact add_le_add_right (addresses_le rest) _

lemma mem_of_left (h : m.left vma = some s) : s ∈ m.stmts ∧ s.vma ≤ vma := by
  simpa using mem_of_getLast? h

lemma mem_of_right (h : m.right vma = some s) : s ∈ m.stmts ∧ vma < s.vma := by
  have found := find?_some (p := fun s : StmtInfo => decide (vma < s.vma)) h
  exact ⟨mem_of_find?_eq_some h, of_decide_eq_true found⟩

/-! ## Insertion -/

section
variable {sinfo : StmtInfo}

lemma disjoint_new (measurable : MeasuredByInt (m.addresses + sinfo.addresses)) (hs : s ∈ m.stmts) :
    MeasuredByInt (s.addresses + sinfo.addresses) :=
  measurable.mono (add_le_add_left (addresses_le hs) _)

variable (proper : m.Proper) (new : sinfo.Proper) (measurable : MeasuredByInt (m.addresses + sinfo.addresses))
include proper new measurable

lemma vma_ne_new (hs : s ∈ m.stmts) : s.vma ≠ sinfo.vma := by
  intro same
  have disjoint := (disjoint_new measurable hs).nodup
  have before := StmtInfo.stop_le_of_disjoint new disjoint same.le
  have nonempty := (proper s hs).vma_lt
  omega

lemma addresses_assign_new : (m.assign sinfo).addresses = m.addresses + sinfo.addresses := by
  rw [addresses_assign, erase_absent fun s hs => vma_ne_new proper new measurable hs, add_comm]

lemma placeLeft_spec : ∃ info, m.placeLeft sinfo = some (info, info.stop) ∧ info.vma ≤ sinfo.vma ∧ info.Proper ∧
    (m.assign info).addresses = m.addresses + sinfo.addresses := by
  have own : sinfo.setEnd sinfo.stop = sinfo := new.setEnd_self (measurable.mono (Multiset.le_add_left _ _))
  have asItIs := addresses_assign_new proper new measurable
  rw [placeLeft, new.endVma_eq, own]
  cases hl : m.left sinfo.vma with
  | none => exact ⟨sinfo, rfl, le_rfl, new, asItIs⟩
  | some l =>
    obtain ⟨member, before⟩ := mem_of_left hl
    have properLeft := proper l member
    have pair := disjoint_new measurable member
    have apart := StmtInfo.stop_le_of_disjoint new pair.nodup before
    simp only [properLeft.endVma_eq]
    split_ifs with gap joins room
    · exact ⟨sinfo, rfl, le_rfl, new, asItIs⟩
    · have adjacent : l.stop = sinfo.vma := by omega
      obtain ⟨joined, stop, addresses⟩ := StmtInfo.addresses_joined properLeft new adjacent pair
      have longest : max sinfo.stop l.stop = sinfo.stop := by
        have := new.vma_lt
        omega
      refine ⟨l.setEnd sinfo.stop, ?_, before, joined, ?_⟩
      · rw [longest, stop]
      · rw [addresses_assign, addresses, StmtInfo.setEnd_vma, addresses_erase member]
        exact add_right_comm _ _ _
    · have adjacent : l.stop = sinfo.vma := by omega
      refine ⟨sinfo, ?_, le_rfl, new, asItIs⟩
      rw [adjacent, own]
    · refine absurd ⟨apart.trans_lt new.vma_lt, ?_⟩ room
      rw [Option.all_eq_true]
      intro r hr
      exact decide_eq_true (apart.trans_lt (mem_of_right hr).2)

end

lemma joinRight_spec (proper : m.Proper) (measurable : MeasuredByInt m.addresses) (member : info ∈ m.stmts)
    {r : Option StmtInfo} (next : ∀ t ∈ r, t ∈ m.stmts ∧ info.vma < t.vma) :
    (m.joinRight info info.stop r).Proper ∧ (m.joinRight info info.stop r).addresses = m.addresses := by
  cases r with
  | none => exact ⟨proper, rfl⟩
  | some t =>
    obtain ⟨memberRight, before⟩ := next t rfl
    have properRight := proper t memberRight
    have pair := measurable.mono (addresses_pair_le member memberRight before.ne)
    have apart := StmtInfo.stop_le_of_disjoint properRight pair.nodup before.le
    rw [joinRight, properRight.endVma_eq]
    split_ifs with touches joins
    · obtain ⟨joined, _, addresses⟩ := StmtInfo.addresses_joined (proper info member) properRight (by omega) pair
      have left : info ∈ (m.erase t.vma).stmts := mem_filter.mpr ⟨member, decide_eq_true before.ne⟩
      refine ⟨(proper.erase t.vma).assign joined, ?_⟩
      rw [addresses_assign, addresses, StmtInfo.setEnd_vma, addresses_erase memberRight, addresses_erase left,
        add_left_comm, add_assoc]
    · have adjacent : t.vma = info.stop := by omega
      have same : info.setEnd t.vma = info := by
        rw [adjacent]
        exact (proper info member).setEnd_self (measurable.mono (addresses_le member))
      rw [same]
      refine ⟨proper.assign (proper info member), ?_⟩
      rw [addresses_assign, ← addresses_erase member]
    · exact ⟨proper, rfl⟩

lemma insert_spec {sinfo : StmtInfo} (proper : m.Proper) (new : sinfo.Proper)
    (measurable : MeasuredByInt (m.addresses + sinfo.addresses)) :
    (m.insert sinfo).Proper ∧ (m.insert sinfo).addresses = m.addresses + sinfo.addresses := by
  obtain ⟨info, placed, before, properInfo, addresses⟩ := placeLeft_spec proper new measurable
  rw [insert, placed, ← addresses]
  apply joinRight_spec (proper.assign properInfo) (addresses ▸ measurable) (mem_assign.mpr (.inl rfl))
  intro t ht
  obtain ⟨old, after⟩ := mem_of_right ht
  have later := before.trans_lt after
  exact ⟨mem_assign.mpr (.inr ⟨old, later.ne'⟩), later⟩

lemma foldl_insert_spec (stmts : List StmtInfo) (proper : m.Proper) (new : ∀ s ∈ stmts, s.Proper)
    (measurable : MeasuredByInt (m.addresses + (stmts.map StmtInfo.addresses).sum)) :
    (stmts.foldl insert m).Proper ∧
      (stmts.foldl insert m).addresses = m.addresses + (stmts.map StmtInfo.addresses).sum := by
  induction stmts generalizing m with
  | nil => exact ⟨proper, (add_zero _).symm⟩
  | cons s rest ih =>
    rw [map_cons, sum_cons, ← add_assoc] at measurable ⊢
    obtain ⟨properNext, addresses⟩ :=
      insert_spec proper (new s mem_cons_self) (measurable.mono (Multiset.le_add_right _ _))
    rw [← addresses] at measurable ⊢
    exact ih properNext (fun t ht => new t (mem_cons_of_mem s ht)) measurable

/-! ## Lookup -/

variable {x : ℕ}

lemma mem_addresses : x ∈ m.addresses ↔ ∃ s ∈ m.stmts, x ∈ s.addresses := mem_sum_map

lemma vma_le_left (found : m.left x = some t) (hs : s ∈ m.stmts) (before : s.vma ≤ x) : s.vma ≤ t.vma := by
  obtain ⟨rest, split⟩ := getLast?_eq_some_iff.mp found
  have sorted := m.sorted.filter fun s => decide (s.vma ≤ x)
  have member : s ∈ m.stmts.filter fun s => decide (s.vma ≤ x) := mem_filter.mpr ⟨hs, decide_eq_true before⟩
  rw [split] at sorted member
  obtain old | last := mem_append.mp member
  · exact ((pairwise_append.mp sorted).2.2 s old t mem_cons_self).le
  · rw [mem_singleton.mp last]

lemma left_isSome (hs : s ∈ m.stmts) (before : s.vma ≤ x) : ∃ t, m.left x = some t := by
  have member : s ∈ m.stmts.filter fun s => decide (s.vma ≤ x) := mem_filter.mpr ⟨hs, decide_eq_true before⟩
  exact ⟨_, getLast?_eq_some_getLast (ne_nil_of_mem member)⟩

lemma member_iff (proper : m.Proper) (measurable : MeasuredByInt m.addresses) :
    m.member x = true ↔ x ∈ m.addresses := by
  rw [member, findStmt, Option.isSome_filter, Option.any_eq_true, mem_addresses]
  constructor
  · rintro ⟨s, found, contains⟩
    have member := (mem_of_left found).1
    exact ⟨s, member, (proper s member).member_iff.mp contains⟩
  · rintro ⟨s, hs, contains⟩
    obtain ⟨low, high⟩ := Multiset.mem_Ico.mp contains
    obtain ⟨t, found⟩ := left_isSome hs low
    obtain ⟨ht, before⟩ := mem_of_left found
    have order := vma_le_left found hs low
    have same : s.vma = t.vma := by
      by_contra distinct
      have pair := measurable.mono (addresses_pair_le hs ht distinct)
      have apart := StmtInfo.stop_le_of_disjoint (proper t ht) pair.nodup order
      omega
    refine ⟨t, found, (proper t ht).member_iff.mpr ?_⟩
    rwa [← eq_of_vma_eq hs ht same]

end StmtMap

end HpcToolkit.HpcStruct
