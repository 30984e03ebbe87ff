import HpcToolkit.HpcStruct.StmtMap

/-! # Statement maps as partitions

The ranges of a statement map stay apart whatever is inserted, touching ranges of one line become one, and an address keeps
the line that it was given first. Ranges without a common address come out the same in any order. What `StmtInfo` cannot say
is left out: empty ranges, ranges up to the last address, and ranges that are too long for an int.
-/

open List

namespace HpcToolkit.HpcStruct

namespace StmtInfo

/-- What touching statements that are not calls must share to be one. -/
def key (s : StmtInfo) : ℤ × ℤ × Bool := (s.baseIndex, s.lineNum, s.isCall)

def Covers (s : StmtInfo) (a : ℕ) : Prop := s.vma ≤ a ∧ a < s.stop

def Inside (s t : StmtInfo) : Prop := t.vma ≤ s.vma ∧ s.stop ≤ t.stop

/-- The statement has an address, its end is a word and its length an int. -/
structure Insertable (s : StmtInfo) : Prop extends s.Proper where
  short : s.len < 2 ^ 31

variable {s t : StmtInfo}

lemma joins_iff : s.joins t = true ↔ s.key = t.key ∧ s.isCall = false := by
  cases first : s.isCall <;> cases second : t.isCall <;> simp [joins, key, first, second]

lemma isCall_eq (same : s.key = t.key) : s.isCall = t.isCall := congrArg (fun k => k.2.2) same

lemma isCall_of_not_joins (apart : ¬ s.joins t = true) (same : s.key = t.key) : t.isCall = true := by
  by_contra noCall
  rw [← isCall_eq same] at noCall
  exact apart (joins_iff.mpr ⟨same, by simpa using noCall⟩)

lemma Proper.member_iff_covers (proper : s.Proper) {a : ℕ} : s.member a = true ↔ s.Covers a := by
  rw [proper.member_iff, addresses, Multiset.mem_Ico]
  rfl

lemma Proper.covers_vma (proper : s.Proper) : s.Covers s.vma := ⟨le_rfl, proper.vma_lt⟩

lemma Inside.covers (inside : s.Inside t) {a : ℕ} (covers : s.Covers a) : t.Covers a :=
  ⟨inside.1.trans covers.1, covers.2.trans_le inside.2⟩

lemma Inside.trans {u : StmtInfo} (first : s.Inside t) (second : t.Inside u) : s.Inside u :=
  ⟨second.1.trans first.1, first.2.trans second.2⟩

lemma Insertable.length (insertable : s.Insertable) : s.stop - s.vma < 2 ^ 31 := by
  have short := insertable.short
  rw [stop]
  omega

lemma Insertable.setEnd_self (insertable : s.Insertable) : s.setEnd s.stop = s := by
  have nonempty := insertable.nonempty
  have short := insertable.short
  have len : Int.bmod ((s.stop : ℤ) - s.vma) (2 ^ 32) = s.len := by
    rw [stop, Int.bmod_eq_of_le] <;> omega
  rw [setEnd, len]

lemma setEnd_insertable {e : ℕ} (after : s.vma < e) (short : e - s.vma < 2 ^ 31) (fits : e < 2 ^ 64) :
    (s.setEnd e).Insertable where
  toProper := setEnd_proper after short fits
  short := by
    have stop := setEnd_stop after short
    rw [StmtInfo.stop, setEnd_vma] at stop
    omega

@[simp] lemma setEnd_setEnd (s : StmtInfo) (e e' : ℕ) : (s.setEnd e).setEnd e' = s.setEnd e' := rfl

@[simp] lemma setEnd_key (s : StmtInfo) (e : ℕ) : (s.setEnd e).key = s.key := rfl

end StmtInfo

namespace StmtMap

open StmtInfo

variable {m : StmtMap} {s t x info : StmtInfo}

/-! ## Maps of ranges that are apart -/

/-- The ranges are apart, and those that touch are not of one line unless they are calls. -/
structure Apart (m : StmtMap) : Prop where
  proper : m.Proper
  apart : ∀ s ∈ m.stmts, ∀ t ∈ m.stmts, s.vma < t.vma → s.stop ≤ t.vma
  maximal : ∀ s ∈ m.stmts, ∀ t ∈ m.stmts, s.stop = t.vma → s.key = t.key → s.isCall = true

variable {a : ℕ}

lemma Apart.eq_of_covers (apart : m.Apart) (hs : s ∈ m.stmts) (ht : t ∈ m.stmts) (inS : s.Covers a)
    (inT : t.Covers a) : s = t := by
  rcases lt_trichotomy s.vma t.vma with before | same | after
  · have := apart.apart s hs t ht before
    have := inS.2
    have := inT.1
    omega
  · exact eq_of_vma_eq hs ht same
  · have := apart.apart t ht s hs after
    have := inT.2
    have := inS.1
    omega

lemma Apart.findStmt_iff (apart : m.Apart) : m.findStmt a = some s ↔ s ∈ m.stmts ∧ s.Covers a := by
  rw [findStmt, Option.filter_eq_some_iff]
  constructor
  · rintro ⟨found, contains⟩
    have member := (mem_of_left found).1
    exact ⟨member, (apart.proper s member).member_iff_covers.mp contains⟩
  · rintro ⟨member, covers⟩
    refine ⟨?_, (apart.proper s member).member_iff_covers.mpr covers⟩
    obtain ⟨t, found⟩ := left_isSome member covers.1
    obtain ⟨ht, before⟩ := mem_of_left found
    rw [found, Option.some_inj]
    refine apart.eq_of_covers ht member ⟨before, ?_⟩ covers
    have order := vma_le_left found member covers.1
    rcases order.lt_or_eq with later | same
    · have := apart.apart s member t ht later
      have := covers.2
      omega
    · rw [eq_of_vma_eq ht member same.symm]
      exact covers.2

variable {vma : ℕ}

lemma right_le (found : m.right vma = some s) (ht : t ∈ m.stmts) (after : vma < t.vma) : s.vma ≤ t.vma := by
  obtain ⟨-, early, late, split, notBefore⟩ := find?_eq_some_iff_append.mp found
  have sorted := m.sorted
  rw [split] at ht sorted
  rcases mem_append.mp ht with inEarly | inLate
  · exact absurd after (by simpa using notBefore t inEarly)
  · rcases mem_cons.mp inLate with rfl | inLate
    · exact le_rfl
    · exact (rel_of_pairwise_cons (pairwise_append.mp sorted).2.1 inLate).le

lemma right_none (absent : m.right vma = none) (ht : t ∈ m.stmts) : t.vma ≤ vma := by
  simpa using find?_eq_none.mp absent t ht

/-! ## What an insertion does -/

/-- The new statement `x` has been placed with respect to those before it. -/
structure Begun (m : StmtMap) (x info : StmtInfo) : Prop where
  insertable : info.Insertable
  key : info.key = x.key
  reaches : x.stop ≤ info.stop
  before : ∀ t ∈ m.stmts, t.vma < info.vma → t.stop ≤ info.vma ∧ (t.stop = info.vma → t.key = x.key → x.isCall = true)
  here : ∀ t ∈ m.stmts, t.vma = info.vma → t.key = x.key ∧ x.isCall = false ∧ t.stop ≤ info.stop
  later : ∀ t ∈ m.stmts, info.vma < t.vma ↔ x.vma < t.vma
  covers : ∀ a, info.Covers a → x.Covers a ∨ ∃ t ∈ m.stmts, t.vma = info.vma ∧ t.Covers a
  origin : info = x.setEnd info.stop ∨ (∃ l ∈ m.stmts, l.vma ≤ x.vma ∧ info = l.setEnd info.stop) ∨
    ∃ l ∈ m.stmts, l.Covers x.vma

/-- The new statement `x` has become a part of `f`, which takes the place of all statements inside it. -/
structure Placed (m : StmtMap) (x f : StmtInfo) (m' : StmtMap) : Prop where
  proper : f.Proper
  key : f.key = x.key
  mem : ∀ t, t ∈ m'.stmts ↔ t = f ∨ t ∈ m.stmts ∧ ¬ t.Inside f
  rest : ∀ t ∈ m.stmts, (t.Inside f ∧ t.key = x.key ∧ x.isCall = false) ∨
    (t.stop ≤ f.vma ∧ (t.stop = f.vma → t.key = x.key → x.isCall = true)) ∨
    (f.stop ≤ t.vma ∧ (f.stop = t.vma → t.key = x.key → x.isCall = true))
  covers : ∀ a, f.Covers a → x.Covers a ∨ ∃ t ∈ m.stmts, t.key = x.key ∧ x.isCall = false ∧ t.Covers a
  whole : (∀ t ∈ m.stmts, ∀ a, t.Covers a → ¬ x.Covers a) → x.Inside f
  origin : f = x.setEnd f.stop ∨ (∃ l ∈ m.stmts, f = l.setEnd f.stop) ∨ ∃ l ∈ m.stmts, l.Covers x.vma

/-- Addresses in a row that are of the line of `x` are few enough for an int. -/
def Fits (m : StmtMap) (x : StmtInfo) : Prop := ∀ lo hi : ℕ,
  (∀ a, lo ≤ a → a < hi → x.Covers a ∨ ∃ t ∈ m.stmts, t.key = x.key ∧ x.isCall = false ∧ t.Covers a) →
    hi - lo < 2 ^ 31

lemma left_none (absent : m.left vma = none) (ht : t ∈ m.stmts) : vma < t.vma := by
  by_contra before
  obtain ⟨s, found⟩ := left_isSome ht (not_lt.mp before)
  rw [absent] at found
  cases found

lemma Apart.left_cases (apart : m.Apart) (found : m.left vma = some s) (ht : t ∈ m.stmts)
    (before : t.vma ≤ vma) : t = s ∨ t.stop ≤ s.vma := by
  have hs := (mem_of_left found).1
  rcases (vma_le_left found ht before).lt_or_eq with earlier | same
  · exact .inr (apart.apart t ht s hs earlier)
  · exact .inl (eq_of_vma_eq ht hs same)

lemma Apart.begun_alone (apart : m.Apart) (new : x.Insertable) (earlier : ∀ t ∈ m.stmts, t.vma ≤ x.vma →
    t.stop ≤ x.vma ∧ (t.stop = x.vma → t.key = x.key → x.isCall = true)) : Begun m x x where
  insertable := new
  key := rfl
  reaches := le_rfl
  before t ht before := earlier t ht before.le
  here t ht same := by
    have := (earlier t ht same.le).1
    have := (apart.proper t ht).vma_lt
    omega
  later _ _ := Iff.rfl
  covers _ covered := .inl covered
  origin := .inl new.setEnd_self.symm

lemma Apart.begun_joined (apart : m.Apart) (new : x.Insertable) (fits : m.Fits x) (found : m.left x.vma = some s)
    (reaches : x.vma ≤ s.stop) (joins : s.joins x = true) :
    (s.setEnd (max x.stop s.stop)).stop = max x.stop s.stop ∧ Begun m x (s.setEnd (max x.stop s.stop)) := by
  obtain ⟨hs, before⟩ := mem_of_left found
  obtain ⟨key, noCall⟩ := joins_iff.mp joins
  have nonempty := (apart.proper s hs).vma_lt
  have after : s.vma < max x.stop s.stop := lt_max_of_lt_right nonempty
  have either (a : ℕ) (low : s.vma ≤ a) (high : a < max x.stop s.stop) : x.Covers a ∨ s.Covers a := by
    rcases lt_or_ge a s.stop with inside | outside
    · exact .inr ⟨low, inside⟩
    · exact .inl ⟨reaches.trans outside, (lt_max_iff.mp high).resolve_right (not_lt.mpr outside)⟩
  have short : max x.stop s.stop - s.vma < 2 ^ 31 := fits _ _ fun a low high =>
    (either a low high).imp_right fun covers => ⟨s, hs, key, (isCall_eq key) ▸ noCall, covers⟩
  have stop := setEnd_stop after short
  refine ⟨stop, setEnd_insertable after short (max_lt new.fits (apart.proper s hs).fits), key, ?_, ?_, ?_, ?_, ?_, ?_⟩
  · rw [stop]
    exact le_max_left ..
  · refine fun t ht earlier => ⟨apart.apart t ht s hs earlier, fun touches same => ?_⟩
    rw [← isCall_eq same]
    exact apart.maximal t ht s hs touches (same.trans key.symm)
  · intro t ht same
    obtain rfl := eq_of_vma_eq ht hs same
    rw [stop]
    exact ⟨key, (isCall_eq key) ▸ noCall, le_max_right ..⟩
  · refine fun t ht => ⟨fun later => ?_, fun later => before.trans_lt later⟩
    by_contra notLater
    rcases apart.left_cases found ht (not_lt.mp notLater) with rfl | earlier
    · exact lt_irrefl _ later
    · exact absurd ((apart.proper t ht).vma_lt.trans_le earlier) (not_lt.mpr (le_of_lt later))
  · intro a covered
    rw [Covers, stop] at covered
    exact (either a covered.1 covered.2).imp_right fun covers => ⟨s, hs, rfl, covers⟩
  · rw [stop]
    exact .inr (.inl ⟨s, hs, before, rfl⟩)

lemma Apart.begun_cut (apart : m.Apart) (new : x.Insertable) (found : m.left x.vma = some s) (reaches : x.vma ≤ s.stop)
    (differs : s.key = x.key → x.isCall = true) (short : s.stop < x.stop)
    (room : ∀ t ∈ m.stmts, x.vma < t.vma → s.stop < t.vma) :
    ({ x with vma := s.stop }.setEnd x.stop).stop = x.stop ∧ Begun m x ({ x with vma := s.stop }.setEnd x.stop) := by
  obtain ⟨hs, before⟩ := mem_of_left found
  have length : x.stop - s.stop < 2 ^ 31 := (Nat.sub_le_sub_left reaches _).trans_lt new.length
  have stop : ({ x with vma := s.stop }.setEnd x.stop).stop = x.stop := setEnd_stop short length
  have nonempty := (apart.proper s hs).vma_lt
  have earlier (t : StmtInfo) (ht : t ∈ m.stmts) (before : t.vma ≤ s.stop) : t = s ∨ t.stop ≤ s.vma :=
    apart.left_cases found ht (not_lt.mp fun later => absurd (room t ht later) (not_lt.mpr before))
  refine ⟨stop, setEnd_insertable short length new.fits, rfl, stop.ge, ?_, ?_, ?_, ?_, ?_⟩
  · intro t ht low
    change t.stop ≤ s.stop ∧ (t.stop = s.stop → _)
    rcases earlier t ht (le_of_lt low) with rfl | before
    · exact ⟨le_rfl, fun _ => differs⟩
    · exact ⟨before.trans nonempty.le, fun same => absurd before (not_le.mpr (same ▸ nonempty))⟩
  · intro t ht same
    change t.vma = s.stop at same
    have := (apart.proper t ht).vma_lt
    rcases earlier t ht same.le with rfl | before <;> omega
  · exact fun t ht => ⟨reaches.trans_lt, room t ht⟩
  · intro a covered
    rw [Covers, stop] at covered
    exact .inl ⟨reaches.trans covered.1, covered.2⟩
  · rcases reaches.lt_or_eq with inside | same
    · exact .inr (.inr ⟨s, hs, before, inside⟩)
    · rw [stop, ← same]
      exact .inl rfl

lemma Apart.placeLeft (apart : m.Apart) (new : x.Insertable) (fits : m.Fits x) :
    (m.placeLeft x = none ∧ ∃ t ∈ m.stmts, t.Covers x.vma) ∨
      ∃ info, m.placeLeft x = some (info, info.stop) ∧ Begun m x info := by
  have ends : x.endVma = x.stop := new.toProper.endVma_eq
  cases found : m.left x.vma with
  | none =>
    refine .inr ⟨x, ?_, apart.begun_alone new fun t ht before => ?_⟩
    · rw [StmtMap.placeLeft, found, ends]
      simp only [new.setEnd_self]
    · exact absurd (left_none found ht) (not_lt.mpr before)
  | some s =>
    obtain ⟨hs, before⟩ := mem_of_left found
    have nonempty := (apart.proper s hs).vma_lt
    rw [StmtMap.placeLeft, found, ends]
    simp only [(apart.proper s hs).endVma_eq, new.setEnd_self]
    split_ifs with gap joins room
    · refine .inr ⟨x, rfl, apart.begun_alone new fun t ht before => ?_⟩
      rcases apart.left_cases found ht before with rfl | earlier <;> omega
    · obtain ⟨stop, begun⟩ := apart.begun_joined new fits found (not_lt.mp gap) joins
      exact .inr ⟨_, by rw [stop], begun⟩
    · have close (t : StmtInfo) (ht : t ∈ m.stmts) (later : x.vma < t.vma) : s.stop < t.vma := by
        cases next : m.right x.vma with
        | none => exact absurd (right_none next ht) (not_le.mpr later)
        | some r =>
          rw [next] at room
          have close : s.stop < r.vma := by simpa using room.2
          exact close.trans_le (right_le next ht later)
      obtain ⟨stop, begun⟩ := apart.begun_cut new found (not_lt.mp gap) (isCall_of_not_joins joins) room.1 close
      exact .inr ⟨_, by rw [stop], begun⟩
    · refine .inl ⟨rfl, s, hs, before, ?_⟩
      by_contra outside
      have adjacent : s.stop = x.vma := by omega
      refine room ⟨adjacent ▸ new.toProper.vma_lt, ?_⟩
      rw [Option.all_eq_true]
      intro r hr
      exact decide_eq_true (adjacent ▸ (mem_of_right hr).2)

lemma Begun.placed (begun : Begun m x info) {f : StmtInfo} {m' : StmtMap}
    (own : f = info.setEnd f.stop) (proper : f.Proper)
    (mem : ∀ t, t ∈ m'.stmts ↔ t = f ∨ t ∈ m.stmts ∧ (t.vma < info.vma ∨ x.vma < t.vma ∧ ¬ t.Inside f))
    (here : ∀ t ∈ m.stmts, t.vma = info.vma → t.stop ≤ f.stop)
    (after : ∀ t ∈ m.stmts, x.vma < t.vma → (t.Inside f ∧ t.key = x.key ∧ x.isCall = false) ∨
      (f.stop ≤ t.vma ∧ (f.stop = t.vma → t.key = x.key → x.isCall = true)))
    (covers : ∀ a, info.stop ≤ a → a < f.stop → ∃ t ∈ m.stmts, t.key = x.key ∧ x.isCall = false ∧ t.Covers a)
    (whole : (∀ t ∈ m.stmts, ∀ a, t.Covers a → ¬ x.Covers a) → x.stop ≤ f.stop) (new : x.Proper) :
    Placed m x f m' := by
  have vma : f.vma = info.vma := by rw [own, setEnd_vma]
  have key : f.key = x.key := by rw [own, setEnd_key, begun.key]
  have notInside (t : StmtInfo) (before : t.vma < info.vma) : ¬ t.Inside f :=
    fun inside => absurd inside.1 (not_le.mpr (vma ▸ before))
  refine ⟨proper, key, fun t => (mem t).trans (or_congr_right (and_congr_right fun ht => ?_)), fun t ht => ?_,
    fun a covered => ?_, fun disjoint => ⟨?_, whole disjoint⟩, ?_⟩
  · rcases lt_trichotomy t.vma info.vma with before | same | later
    · exact iff_of_true (.inl before) (notInside t before)
    · have inside : t.Inside f := ⟨(vma.trans same.symm).le, here t ht same⟩
      refine iff_of_false ?_ (not_not.mpr inside)
      rintro (before | ⟨later, -⟩)
      · exact absurd same before.ne
      · exact absurd same ((begun.later t ht).mpr later).ne'
    · have later := (begun.later t ht).mp later
      refine ⟨fun either => ?_, fun outside => .inr ⟨later, outside⟩⟩
      exact either.elim (notInside t) And.right
  · rcases lt_trichotomy t.vma info.vma with before | same | later
    · rw [vma]
      exact .inr (.inl (begun.before t ht before))
    · obtain ⟨sameKey, noCall, -⟩ := begun.here t ht same
      exact .inl ⟨⟨(vma.trans same.symm).le, here t ht same⟩, sameKey, noCall⟩
    · exact (after t ht ((begun.later t ht).mp later)).imp_right .inr
  · rcases lt_or_ge a info.stop with early | late
    · refine (begun.covers a ⟨vma ▸ covered.1, early⟩).imp_right ?_
      rintro ⟨t, ht, same, covers⟩
      obtain ⟨sameKey, noCall, -⟩ := begun.here t ht same
      exact ⟨t, ht, sameKey, noCall, covers⟩
    · exact .inr (covers a late covered.2)
  · rw [vma]
    rcases begun.origin with same | ⟨l, -, before, same⟩ | ⟨l, hl, overlaps⟩
    · exact (congrArg StmtInfo.vma same).le
    · exact (congrArg StmtInfo.vma same).le.trans before
    · exact absurd new.covers_vma (disjoint l hl _ overlaps)
  · rcases begun.origin with same | ⟨l, hl, -, same⟩ | overlaps
    · exact .inl (own.trans (by rw [same, setEnd_setEnd]))
    · exact .inr (.inl ⟨l, hl, own.trans (by rw [same, setEnd_setEnd])⟩)
    · exact .inr (.inr overlaps)

lemma Begun.mem_assign (begun : Begun m x info) :
    t ∈ (m.assign info).stmts ↔ t = info ∨ t ∈ m.stmts ∧ (t.vma < info.vma ∨ x.vma < t.vma) := by
  rw [StmtMap.mem_assign]
  refine or_congr_right (and_congr_right fun ht => ?_)
  rw [← begun.later t ht, lt_or_lt_iff_ne]

lemma Apart.right_cases (apart : m.Apart) (found : m.right vma = some s) (ht : t ∈ m.stmts)
    (after : vma < t.vma) : t = s ∨ s.stop ≤ t.vma := by
  have hs := (mem_of_right found).1
  rcases (right_le found ht after).lt_or_eq with further | same
  · exact .inr (apart.apart s hs t ht further)
  · exact .inl (eq_of_vma_eq ht hs same.symm)

lemma Begun.placed_free (apart : m.Apart) (new : x.Proper) (begun : Begun m x info)
    (free : ∀ t ∈ m.stmts, x.vma < t.vma → info.stop < t.vma) : Placed m x info (m.assign info) := by
  have outside (t : StmtInfo) (ht : t ∈ m.stmts) (later : x.vma < t.vma) : ¬ t.Inside info := fun inside =>
    absurd ((apart.proper t ht).vma_lt.trans_le inside.2) (not_lt.mpr (free t ht later).le)
  refine begun.placed begun.insertable.setEnd_self.symm begun.insertable.toProper (fun t => ?_)
    (fun t ht same => (begun.here t ht same).2.2) (fun t ht later => ?_)
    (fun a late early => absurd late (not_le.mpr early)) (fun _ => begun.reaches) new
  · rw [begun.mem_assign]
    refine or_congr_right (and_congr_right fun ht => or_congr_right ?_)
    exact ⟨fun later => ⟨later, outside t ht later⟩, And.left⟩
  · exact .inr ⟨(free t ht later).le, fun touches => absurd touches (free t ht later).ne⟩

lemma Begun.placed_cut (apart : m.Apart) (new : x.Proper) (begun : Begun m x info) (next : m.right x.vma = some s)
    (touches : s.vma ≤ info.stop) (differs : s.key = x.key → x.isCall = true) :
    Placed m x (info.setEnd s.vma) ((m.assign info).assign (info.setEnd s.vma)) := by
  obtain ⟨hs, later⟩ := mem_of_right next
  have after : info.vma < s.vma := (begun.later s hs).mpr later
  have short : s.vma - info.vma < 2 ^ 31 := (Nat.sub_le_sub_right touches _).trans_lt begun.insertable.length
  have stop := setEnd_stop after short
  have nextAfter (t : StmtInfo) (ht : t ∈ m.stmts) (later : x.vma < t.vma) : s.vma ≤ t.vma := right_le next ht later
  refine begun.placed (by rw [stop]) (setEnd_proper after short (touches.trans_lt begun.insertable.fits))
    (fun t => ?_) (fun t ht same => ?_) (fun t ht later => ?_) (fun a late early => ?_) (fun disjoint => ?_) new
  · rw [StmtMap.mem_assign, setEnd_vma, begun.mem_assign]
    have outside (ht : t ∈ m.stmts) (later : x.vma < t.vma) : ¬ t.Inside (info.setEnd s.vma) := by
      rintro ⟨-, inside⟩
      rw [stop] at inside
      exact absurd ((apart.proper t ht).vma_lt.trans_le inside) (not_lt.mpr (nextAfter t ht later))
    refine or_congr_right ⟨?_, ?_⟩
    · rintro ⟨rfl | ⟨ht, either⟩, other⟩
      · exact absurd rfl other
      · exact ⟨ht, either.imp_right fun later => ⟨later, outside ht later⟩⟩
    · rintro ⟨ht, either⟩
      have either := either.imp_right And.left
      refine ⟨.inr ⟨ht, either⟩, ?_⟩
      rwa [← begun.later t ht, lt_or_lt_iff_ne] at either
  · rw [stop]
    exact apart.apart t ht s hs (same ▸ after)
  · rw [stop]
    refine .inr ⟨nextAfter t ht later, fun touches => ?_⟩
    rw [← eq_of_vma_eq hs ht touches]
    exact differs
  · exact absurd early (not_lt.mpr (stop.trans_le (touches.trans late)))
  · rw [stop]
    by_contra short
    exact disjoint s hs s.vma (apart.proper s hs).covers_vma ⟨later.le, not_le.mp short⟩

lemma Begun.placed_joined (apart : m.Apart) (new : x.Proper) (fits : m.Fits x) (begun : Begun m x info)
    (next : m.right x.vma = some s) (touches : s.vma ≤ info.stop) (joins : s.joins info = true) :
    Placed m x (info.setEnd s.stop) (((m.assign info).erase s.vma).assign (info.setEnd s.stop)) := by
  obtain ⟨hs, later⟩ := mem_of_right next
  obtain ⟨key, noCall⟩ := joins_iff.mp joins
  have sameKey : s.key = x.key := key.trans begun.key
  have noCall' : x.isCall = false := isCall_eq sameKey ▸ noCall
  have nonempty := (apart.proper s hs).vma_lt
  have nextLater : info.vma < s.vma := (begun.later s hs).mpr later
  have after : info.vma < s.stop := nextLater.trans nonempty
  have short : s.stop - info.vma < 2 ^ 31 := by
    refine fits _ _ fun a low high => ?_
    rcases lt_or_ge a info.stop with early | late
    · refine (begun.covers a ⟨low, early⟩).imp_right ?_
      rintro ⟨t, ht, same, covers⟩
      obtain ⟨key, noCall, -⟩ := begun.here t ht same
      exact ⟨t, ht, key, noCall, covers⟩
    · exact .inr ⟨s, hs, sameKey, noCall', touches.trans late, high⟩
  have stop := setEnd_stop after short
  have outside (t : StmtInfo) (ht : t ∈ m.stmts) (later : x.vma < t.vma) :
      ¬ t.Inside (info.setEnd s.stop) ↔ t.vma ≠ s.vma := by
    rw [Inside, stop, setEnd_vma]
    have tLater := (begun.later t ht).mpr later
    rcases apart.right_cases next ht later with rfl | beyond
    · simp [tLater.le]
    · have := (apart.proper t ht).vma_lt
      exact iff_of_true (fun inside => by omega) (by omega)
  refine begun.placed (by rw [stop]) (setEnd_proper after short (apart.proper s hs).fits)
    (fun t => ?_) (fun t ht same => ?_) (fun t ht later => ?_) (fun a late early => ?_) (fun disjoint => ?_) new
  · rw [StmtMap.mem_assign, setEnd_vma, erase, mem_filter, begun.mem_assign, decide_eq_true_eq]
    refine or_congr_right ⟨?_, ?_⟩
    · rintro ⟨⟨rfl | ⟨ht, either⟩, notNext⟩, other⟩
      · exact absurd rfl other
      · exact ⟨ht, either.imp_right fun later => ⟨later, (outside t ht later).mpr notNext⟩⟩
    · rintro ⟨ht, before | ⟨later, notInside⟩⟩
      · exact ⟨⟨.inr ⟨ht, .inl before⟩, (before.trans nextLater).ne⟩, before.ne⟩
      · exact ⟨⟨.inr ⟨ht, .inr later⟩, (outside t ht later).mp notInside⟩, ((begun.later t ht).mpr later).ne'⟩
  · rw [stop]
    exact (apart.apart t ht s hs (same ▸ nextLater)).trans nonempty.le
  · rcases eq_or_ne t.vma s.vma with same | other
    · obtain rfl := eq_of_vma_eq ht hs same
      exact .inl ⟨⟨nextLater.le, stop.ge⟩, sameKey, noCall'⟩
    · have beyond := (apart.right_cases next ht later).resolve_left fun same => other (same ▸ rfl)
      rw [stop]
      refine .inr ⟨beyond, fun touches key => absurd (apart.maximal s hs t ht touches (sameKey.trans key.symm)) ?_⟩
      simp [noCall]
  · exact ⟨s, hs, sameKey, noCall', touches.trans late, stop ▸ early⟩
  · rw [stop]
    by_contra short
    exact disjoint s hs s.vma (apart.proper s hs).covers_vma ⟨later.le, nonempty.trans (not_le.mp short)⟩

lemma Apart.insert_cases (apart : m.Apart) (new : x.Insertable) (fits : m.Fits x) :
    (m.insert x = m ∧ ∃ t ∈ m.stmts, t.Covers x.vma) ∨ ∃ f, Placed m x f (m.insert x) := by
  rcases apart.placeLeft new fits with ⟨nowhere, covered⟩ | ⟨info, placed, begun⟩
  · exact .inl ⟨by rw [insert, nowhere], covered⟩
  · rw [insert, placed]
    refine .inr ?_
    change ∃ f, Placed m x f ((m.assign info).joinRight info info.stop (m.right x.vma))
    cases next : m.right x.vma with
    | none =>
      exact ⟨info, begun.placed_free apart new.toProper fun t ht later => absurd (right_none next ht) (not_le.mpr later)⟩
    | some s =>
      have hs := (mem_of_right next).1
      rw [joinRight, (apart.proper s hs).endVma_eq]
      split_ifs with touches joins
      · exact ⟨_, begun.placed_joined apart new.toProper fits next touches joins⟩
      · refine ⟨_, begun.placed_cut apart new.toProper next touches fun same => ?_⟩
        rw [← isCall_eq begun.key]
        exact isCall_of_not_joins joins (same.trans begun.key.symm)
      · exact ⟨info, begun.placed_free apart new.toProper fun t ht later =>
          (not_le.mp touches).trans_le (right_le next ht later)⟩

/-! ## Sequences of insertions -/

section
variable {f : StmtInfo} {m' : StmtMap}

lemma Placed.outside (placed : Placed m x f m') (ht : t ∈ m.stmts) (outside : ¬ t.Inside f) :
    (t.stop ≤ f.vma ∧ (t.stop = f.vma → t.key = x.key → x.isCall = true)) ∨
      (f.stop ≤ t.vma ∧ (f.stop = t.vma → t.key = x.key → x.isCall = true)) :=
  (placed.rest t ht).resolve_left fun inside => outside inside.1

lemma Placed.inside (placed : Placed m x f m') (ht : t ∈ m.stmts) (inside : t.Inside f) (covers : t.Covers a) :
    t.key = x.key ∧ x.isCall = false := by
  have low := covers.1
  have high := covers.2
  rcases placed.rest t ht with joined | ⟨before, -⟩ | ⟨after, -⟩
  · exact joined.2
  · have := inside.1
    omega
  · have := inside.2
    omega

lemma Placed.apart (placed : Placed m x f m') (apart : m.Apart) : m'.Apart where
  proper t ht := by
    rcases (placed.mem t).mp ht with rfl | ⟨ht, -⟩
    · exact placed.proper
    · exact apart.proper t ht
  apart s hs t ht before := by
    have nonempty := placed.proper.vma_lt
    rcases (placed.mem s).mp hs with rfl | ⟨hs, outsideS⟩ <;> rcases (placed.mem t).mp ht with rfl | ⟨ht, outsideT⟩
    · exact absurd before (lt_irrefl _)
    · have := (apart.proper t ht).vma_lt
      rcases placed.outside ht outsideT with ⟨earlier, -⟩ | ⟨later, -⟩ <;> omega
    · rcases placed.outside hs outsideS with ⟨earlier, -⟩ | ⟨later, -⟩ <;> omega
    · exact apart.apart s hs t ht before
  maximal s hs t ht touches key := by
    have nonempty := placed.proper.vma_lt
    rcases (placed.mem s).mp hs with rfl | ⟨hs, outsideS⟩ <;> rcases (placed.mem t).mp ht with rfl | ⟨ht, outsideT⟩
    · exact absurd touches nonempty.ne'
    · have := (apart.proper t ht).vma_lt
      rw [isCall_eq placed.key]
      rcases placed.outside ht outsideT with ⟨earlier, -⟩ | ⟨-, call⟩
      · omega
      · exact call touches (key.symm.trans placed.key)
    · have := (apart.proper s hs).vma_lt
      rw [isCall_eq (key.trans placed.key)]
      rcases placed.outside hs outsideS with ⟨-, call⟩ | ⟨later, -⟩
      · exact call touches (key.trans placed.key)
      · omega
    · exact apart.maximal s hs t ht touches key

end

/-- An address keeps its line. -/
def Keeps (m m' : StmtMap) : Prop :=
  ∀ s ∈ m.stmts, ∀ a, s.Covers a → ∃ s' ∈ m'.stmts, s'.Covers a ∧ s'.key = s.key

lemma Keeps.trans {m' m'' : StmtMap} (first : Keeps m m') (second : Keeps m' m'') : Keeps m m'' := by
  intro s hs a covers
  obtain ⟨s', hs', covers', key'⟩ := first s hs a covers
  obtain ⟨s'', hs'', covers'', key''⟩ := second s' hs' a covers'
  exact ⟨s'', hs'', covers'', key''.trans key'⟩

lemma Placed.keeps {f : StmtInfo} {m' : StmtMap} (placed : Placed m x f m') : Keeps m m' := by
  intro s hs a covers
  rcases Classical.em (s.Inside f) with inside | outside
  · have key := (placed.inside hs inside covers).1
    exact ⟨f, (placed.mem f).mpr (.inl rfl), inside.covers covers, placed.key.trans key.symm⟩
  · exact ⟨s, (placed.mem s).mpr (.inr ⟨hs, outside⟩), covers, rfl⟩

/-- The ranges are apart and have only addresses that were inserted for their lines. -/
structure MadeOf (inserted : List StmtInfo) (m : StmtMap) : Prop extends m.Apart where
  covered : ∀ s ∈ m.stmts, ∀ a, s.Covers a → ∃ p ∈ inserted, p.key = s.key ∧ p.Covers a

/-- Addresses in a row that are inserted for one line, but for calls, are few enough for an int. -/
def Measured (inserted : List StmtInfo) : Prop := ∀ (base line : ℤ) (lo hi : ℕ),
  (∀ a, lo ≤ a → a < hi → ∃ p ∈ inserted, p.key = (base, line, false) ∧ p.Covers a) → hi - lo < 2 ^ 31

variable {inserted rest : List StmtInfo}

lemma Measured.mono {more : List StmtInfo} (measured : Measured more) (subset : inserted ⊆ more) : Measured inserted :=
  fun base line lo hi covered => measured base line lo hi fun a low high =>
    (covered a low high).imp fun _ found => ⟨subset found.1, found.2⟩

lemma MadeOf.fits (made : MadeOf inserted m) (new : x.Insertable) (measured : Measured (inserted ++ [x])) : m.Fits x := by
  intro lo hi covered
  cases call : x.isCall with
  | false =>
    refine measured x.baseIndex x.lineNum lo hi fun a low high => ?_
    have key : x.key = (x.baseIndex, x.lineNum, false) := by rw [← call, key]
    rcases covered a low high with own | ⟨t, ht, same, -, covers⟩
    · exact ⟨x, by simp, key, own⟩
    · obtain ⟨p, hp, keyP, coversP⟩ := made.covered t ht a covers
      exact ⟨p, mem_append_left _ hp, keyP.trans (same.trans key), coversP⟩
  | true =>
    have own (a : ℕ) (low : lo ≤ a) (high : a < hi) : x.Covers a := by
      refine (covered a low high).resolve_right ?_
      rintro ⟨t, -, -, noCall, -⟩
      simp [call] at noCall
    rcases lt_or_ge lo hi with some | none
    · have first := (own lo le_rfl some).1
      have last := (own (hi - 1) (by omega) (by omega)).2
      have length := new.length
      omega
    · omega

lemma MadeOf.insert (made : MadeOf inserted m) (new : x.Insertable) (measured : Measured (inserted ++ [x])) :
    MadeOf (inserted ++ [x]) (m.insert x) ∧ Keeps m (m.insert x) := by
  have old (s : StmtInfo) (hs : s ∈ m.stmts) (a : ℕ) (covers : s.Covers a) :
      ∃ p ∈ inserted ++ [x], p.key = s.key ∧ p.Covers a :=
    (made.covered s hs a covers).imp fun _ found => ⟨mem_append_left _ found.1, found.2⟩
  rcases made.toApart.insert_cases new (made.fits new measured) with ⟨same, -⟩ | ⟨f, placed⟩
  · rw [same]
    exact ⟨⟨made.toApart, old⟩, fun s hs a covers => ⟨s, hs, covers, rfl⟩⟩
  · refine ⟨⟨placed.apart made.toApart, fun s hs a covers => ?_⟩, placed.keeps⟩
    rcases (placed.mem s).mp hs with rfl | ⟨hs, -⟩
    · rcases placed.covers a covers with own | ⟨t, ht, key, -, covers⟩
      · exact ⟨x, by simp, placed.key.symm, own⟩
      · obtain ⟨p, hp, keyP, coversP⟩ := old t ht a covers
        exact ⟨p, hp, keyP.trans (key.trans placed.key.symm), coversP⟩
    · exact old s hs a covers

lemma MadeOf.foldl_insert (made : MadeOf inserted m) (new : ∀ p ∈ rest, p.Insertable)
    (measured : Measured (inserted ++ rest)) :
    MadeOf (inserted ++ rest) (rest.foldl StmtMap.insert m) ∧ Keeps m (rest.foldl StmtMap.insert m) := by
  induction rest generalizing m inserted with
  | nil => simpa using ⟨made, fun s hs a covers => ⟨s, hs, covers, rfl⟩⟩
  | cons x rest ih =>
    rw [append_cons] at measured ⊢
    obtain ⟨made, now⟩ := made.insert (new x mem_cons_self) (measured.mono (subset_append_left _ _))
    obtain ⟨made, later⟩ := ih made (fun p hp => new p (mem_cons_of_mem x hp)) measured
    exact ⟨made, now.trans later⟩

/-! ## Ranges without a common address -/

/-- The ranges are the longest that pieces without a common address make. Each has the attributes of its first piece. -/
structure Exact (pieces : List StmtInfo) (m : StmtMap) : Prop extends MadeOf pieces m where
  inside : ∀ p ∈ pieces, ∃ s ∈ m.stmts, s.key = p.key ∧ p.Inside s ∧ (p.vma = s.vma → s = p.setEnd s.stop)
  starts : ∀ s ∈ m.stmts, ∃ p ∈ pieces, p.vma = s.vma
  calls : ∀ p ∈ pieces, p.isCall = true → p ∈ m.stmts

variable {pieces pieces' : List StmtInfo} {m' : StmtMap}

lemma Exact.insert (exact : Exact pieces m) (new : x.Insertable) (measured : Measured (pieces ++ [x]))
    (proper : ∀ p ∈ pieces, p.Proper) (disjoint : ∀ p ∈ pieces, ∀ a, p.Covers a → ¬ x.Covers a) :
    Exact (pieces ++ [x]) (m.insert x) := by
  have apart (t : StmtInfo) (ht : t ∈ m.stmts) (a : ℕ) (covers : t.Covers a) : ¬ x.Covers a := by
    obtain ⟨p, hp, -, coversP⟩ := exact.covered t ht a covers
    exact disjoint p hp a coversP
  obtain ⟨-, t, ht, covers⟩ | ⟨f, placed⟩ := exact.toApart.insert_cases new (exact.fits new measured)
  · exact absurd new.toProper.covers_vma (apart t ht _ covers)
  have whole := placed.whole apart
  have member : f ∈ (m.insert x).stmts := (placed.mem f).mpr (.inl rfl)
  have origin : f = x.setEnd f.stop ∨ ∃ l ∈ m.stmts, f = l.setEnd f.stop := by
    rcases placed.origin with own | joined | ⟨l, hl, covers⟩
    · exact .inl own
    · exact .inr joined
    · exact absurd new.toProper.covers_vma (apart l hl _ covers)
  have sameVma {p : StmtInfo} (own : f = p.setEnd f.stop) : f.vma = p.vma := by rw [own, setEnd_vma]
  refine ⟨(exact.toMadeOf.insert new measured).1, fun p hp => ?_, fun s hs => ?_, fun p hp call => ?_⟩
  · rcases mem_append.mp hp with old | isNew
    · obtain ⟨s, hs, key, within, attributes⟩ := exact.inside p old
      rcases Classical.em (s.Inside f) with inside | outside
      · have sameKey := (placed.inside hs inside (exact.proper s hs).covers_vma).1
        refine ⟨f, member, placed.key.trans (sameKey.symm.trans key), within.trans inside, fun same => ?_⟩
        have start : p.vma = s.vma := le_antisymm (same.le.trans inside.1) within.1
        rcases origin with own | ⟨l, hl, joined⟩
        · have covers : x.Covers p.vma := by
            rw [same, sameVma own]
            exact new.toProper.covers_vma
          exact absurd covers (disjoint p old _ (proper p old).covers_vma)
        · obtain rfl := eq_of_vma_eq hl hs ((sameVma joined).symm.trans (same.symm.trans start))
          calc f = l.setEnd f.stop := joined
            _ = (p.setEnd l.stop).setEnd f.stop := by rw [← attributes start]
            _ = p.setEnd f.stop := setEnd_setEnd ..
      · exact ⟨s, (placed.mem s).mpr (.inr ⟨hs, outside⟩), key, within, attributes⟩
    · obtain rfl := mem_singleton.mp isNew
      refine ⟨f, member, placed.key, whole, fun same => ?_⟩
      rcases origin with own | ⟨l, hl, joined⟩
      · exact own
      · have covers : l.Covers p.vma := by
          rw [same, sameVma joined]
          exact (exact.proper l hl).covers_vma
        exact absurd new.toProper.covers_vma (apart l hl _ covers)
  · rcases (placed.mem s).mp hs with rfl | ⟨hs, -⟩
    · rcases origin with own | ⟨l, hl, joined⟩
      · exact ⟨x, by simp, (sameVma own).symm⟩
      · obtain ⟨p, hp, same⟩ := exact.starts l hl
        exact ⟨p, mem_append_left _ hp, same.trans (sameVma joined).symm⟩
    · obtain ⟨p, hp, same⟩ := exact.starts s hs
      exact ⟨p, mem_append_left _ hp, same⟩
  · rcases mem_append.mp hp with old | isNew
    · have hs := exact.calls p old call
      refine (placed.mem p).mpr (.inr ⟨hs, fun inside => ?_⟩)
      obtain ⟨key, noCall⟩ := placed.inside hs inside (exact.proper p hs).covers_vma
      rw [isCall_eq key, noCall] at call
      cases call
    · obtain rfl := mem_singleton.mp isNew
      have own (a : ℕ) (covers : f.Covers a) : p.Covers a := by
        refine (placed.covers a covers).resolve_right ?_
        rintro ⟨t, -, -, noCall, -⟩
        rw [call] at noCall
        cases noCall
      have nonempty := placed.proper.vma_lt
      have start := (own f.vma placed.proper.covers_vma).1
      have last := (own (f.stop - 1) ⟨by omega, by omega⟩).2
      have stop : f.stop = p.stop := le_antisymm (by omega) whole.2
      rcases origin with same | ⟨l, hl, joined⟩
      · rw [stop, new.setEnd_self] at same
        exact same ▸ member
      · have covers : l.Covers p.vma := by
          rw [le_antisymm start whole.1, sameVma joined]
          exact (exact.proper l hl).covers_vma
        exact absurd new.toProper.covers_vma (apart l hl _ covers)

lemma Exact.keeps (exact : Exact pieces m) (made : MadeOf pieces' m') (subset : pieces' ⊆ pieces) : Keeps m' m := by
  intro s hs a covers
  obtain ⟨p, hp, key, coversP⟩ := made.covered s hs a covers
  obtain ⟨t, ht, key', within, -⟩ := exact.inside p (subset hp)
  exact ⟨t, ht, within.covers coversP, key'.trans key⟩

lemma Exact.call (exact : Exact pieces m) {p : StmtInfo} (hp : p ∈ pieces) (call : p.isCall = true) (proper : p.Proper)
    (hs : s ∈ m.stmts) (covers : s.Covers p.vma) : p = s :=
  exact.eq_of_covers (exact.calls p hp call) hs proper.covers_vma covers

lemma Exact.piece (exact : Exact pieces m) (proper : ∀ p ∈ pieces, p.Proper) (hs : s ∈ m.stmts) :
    ∃ p ∈ pieces, p.vma = s.vma ∧ p.key = s.key ∧ s = p.setEnd s.stop := by
  obtain ⟨p, hp, start⟩ := exact.starts s hs
  obtain ⟨t, ht, key, within, attributes⟩ := exact.inside p hp
  obtain rfl : t = s := by
    refine exact.eq_of_covers ht hs (within.covers (proper p hp).covers_vma) ?_
    rw [start]
    exact (exact.proper s hs).covers_vma
  exact ⟨p, hp, start, key.symm, attributes start⟩

section
variable (exact : Exact pieces m) (exact' : Exact pieces' m') (same : ∀ p, p ∈ pieces ↔ p ∈ pieces')
  (proper : ∀ p ∈ pieces, p.Proper)
include exact exact' same proper

lemma Exact.start_eq (hs : s ∈ m.stmts) : ∃ s' ∈ m'.stmts, s'.vma = s.vma ∧ s'.key = s.key := by
  obtain ⟨p, hp, start, keyP, -⟩ := exact.piece proper hs
  obtain ⟨s', hs', key, within, -⟩ := exact'.inside p ((same p).mp hp)
  refine ⟨s', hs', ?_, key.trans keyP⟩
  have low : s'.vma ≤ s.vma := within.1.trans start.le
  rcases low.lt_or_eq with earlier | equal
  · have nonempty := (proper p hp).vma_lt
    have high := within.2
    obtain ⟨t, ht, coversT, keyT⟩ := exact.keeps exact'.toMadeOf (fun p hp => (same p).mpr hp) s' hs' (s.vma - 1)
      ⟨by omega, by omega⟩
    have lowT := coversT.1
    have highT := coversT.2
    have touches : t.stop = s.vma := le_antisymm (exact.apart t ht s hs (by omega)) (by omega)
    have call := exact.maximal t ht s hs touches (keyT.trans (key.trans keyP))
    rw [isCall_eq (keyT.trans key)] at call
    have isPiece := exact'.call ((same p).mp hp) call (proper p hp) hs' (within.covers (proper p hp).covers_vma)
    rw [← isPiece, start]
  · exact equal

lemma Exact.stop_le {s' : StmtInfo} (hs : s ∈ m.stmts) (hs' : s' ∈ m'.stmts) (start : s'.vma = s.vma) :
    s'.stop ≤ s.stop := by
  by_contra longer
  have nonempty := (exact.proper s hs).vma_lt
  obtain ⟨p, hp, startP, keyP, -⟩ := exact.piece proper hs
  have keeps := exact.keeps exact'.toMadeOf fun p hp => (same p).mpr hp
  obtain ⟨u, hu, coversU, keyU⟩ := keeps s' hs' s'.vma (exact'.proper s' hs').covers_vma
  obtain rfl : u = s := exact.eq_of_covers hu hs coversU (start ▸ (exact.proper s hs).covers_vma)
  obtain ⟨t, ht, coversT, keyT⟩ := keeps s' hs' u.stop ⟨by omega, by omega⟩
  have touches : u.stop = t.vma := by
    have lowT := coversT.1
    rcases lt_trichotomy t.vma u.vma with before | equal | after
    · have := exact.apart t ht u hu before
      have := coversT.2
      omega
    · obtain rfl := eq_of_vma_eq ht hu equal
      exact absurd coversT.2 (lt_irrefl _)
    · exact le_antisymm (exact.apart u hu t ht after) lowT
  have call := exact.maximal u hu t ht touches (keyU.trans keyT.symm)
  rw [← isCall_eq keyP] at call
  have atStart : u = p := (exact.call hp call (proper p hp) hu (startP ▸ (exact.proper u hu).covers_vma)).symm
  have atStart' : s' = p := by
    refine (exact'.call ((same p).mp hp) call (proper p hp) hs' ?_).symm
    rw [startP, ← start]
    exact (exact'.proper s' hs').covers_vma
  exact longer (by rw [atStart, atStart'])

end

lemma Exact.subset (exact : Exact pieces m) (exact' : Exact pieces' m') (same : ∀ p, p ∈ pieces ↔ p ∈ pieces')
    (proper : ∀ p ∈ pieces, p.Proper) (hs : s ∈ m.stmts) : s ∈ m'.stmts := by
  have proper' (p : StmtInfo) (hp : p ∈ pieces') : p.Proper := proper p ((same p).mpr hp)
  obtain ⟨s', hs', start, -⟩ := exact.start_eq exact' same proper hs
  have stop : s'.stop = s.stop := le_antisymm (exact.stop_le exact' same proper hs hs' start)
    (exact'.stop_le exact (fun p => (same p).symm) proper' hs' hs start.symm)
  obtain ⟨p, hp, startP, -, attributes⟩ := exact.piece proper hs
  obtain ⟨t, ht, -, within, attributes'⟩ := exact'.inside p ((same p).mp hp)
  obtain rfl : t = s' := by
    refine exact'.eq_of_covers ht hs' (within.covers (proper p hp).covers_vma) ?_
    rw [startP, ← start]
    exact (exact'.proper s' hs').covers_vma
  have equal : s = t := by rw [attributes, attributes' (startP.trans start.symm), stop]
  exact equal ▸ ht

lemma Exact.unique (exact : Exact pieces m) (exact' : Exact pieces' m') (same : ∀ p, p ∈ pieces ↔ p ∈ pieces')
    (proper : ∀ p ∈ pieces, p.Proper) : m = m' := by
  have proper' (p : StmtInfo) (hp : p ∈ pieces') : p.Proper := proper p ((same p).mpr hp)
  have perm : m.stmts.Perm m'.stmts := by
    refine (perm_ext_iff_of_nodup (.of_map _ m.keys_nodup) (.of_map _ m'.keys_nodup)).mpr fun s => ⟨?_, ?_⟩
    · exact exact.subset exact' same proper
    · exact exact'.subset exact (fun p => (same p).symm) proper'
  have stmts : m.stmts = m'.stmts :=
    perm.eq_of_pairwise (fun s t _ _ before after => absurd before (not_lt.mpr after.le)) m.sorted m'.sorted
  cases m
  cases m'
  cases stmts
  rfl

/-! ## What the map is for -/

/-- The map after all insertions. -/
def insertAll (inserted : List StmtInfo) : StmtMap := inserted.foldl StmtMap.insert empty

/-- No two of the ranges have an address in common. -/
def Disjoint (inserted : List StmtInfo) : Prop := inserted.Pairwise fun p q => ∀ a, ¬ (p.Covers a ∧ q.Covers a)

structure Partition (m : StmtMap) : Prop where
  nonempty : ∀ s ∈ m.stmts, ∃ a, s.member a = true
  disjoint : m.stmts.Pairwise fun s t => ∀ a, ¬ (s.member a = true ∧ t.member a = true)

/-- What is promised of ranges without a common address. -/
structure Determined (inserted : List StmtInfo) : Prop where
  found : ∀ p ∈ inserted, ∀ a, p.Covers a →
    ∃ s, (insertAll inserted).findStmt a = some s ∧ s.baseIndex = p.baseIndex ∧ s.lineNum = p.lineNum
  maximal : ∀ s ∈ (insertAll inserted).stmts, ∀ t ∈ (insertAll inserted).stmts, s.endVma = t.vma →
    s.isCall = false → t.isCall = false → ¬ (s.baseIndex = t.baseIndex ∧ s.lineNum = t.lineNum)
  calls : ∀ s, s.isCall = true → (s ∈ (insertAll inserted).stmts ↔ s ∈ inserted)
  order : ∀ inserted', inserted'.Perm inserted → insertAll inserted' = insertAll inserted

/-- What is promised of all insertions. -/
structure Promised (inserted : List StmtInfo) : Prop where
  partition : (insertAll inserted).Partition
  kept : ∀ before after, inserted = before ++ after → ∀ a s, (insertAll before).findStmt a = some s →
    ∃ s', (insertAll inserted).findStmt a = some s' ∧ s'.baseIndex = s.baseIndex ∧ s'.lineNum = s.lineNum
  determined : Disjoint inserted → Determined inserted

lemma apart_empty : empty.Apart :=
  ⟨fun _ hs => absurd hs not_mem_nil, fun _ hs => absurd hs not_mem_nil, fun _ hs => absurd hs not_mem_nil⟩

lemma madeOf_empty : MadeOf [] empty := ⟨apart_empty, fun _ hs => absurd hs not_mem_nil⟩

lemma exact_empty : Exact [] empty :=
  ⟨madeOf_empty, fun _ hp => absurd hp not_mem_nil, fun _ hs => absurd hs not_mem_nil,
    fun _ hp => absurd hp not_mem_nil⟩

lemma Exact.foldl_insert (exact : Exact inserted m) (new : ∀ p ∈ inserted ++ rest, p.Insertable)
    (measured : Measured (inserted ++ rest)) (disjoint : Disjoint (inserted ++ rest)) :
    Exact (inserted ++ rest) (rest.foldl StmtMap.insert m) := by
  induction rest generalizing m inserted with
  | nil => simpa using exact
  | cons x rest ih =>
    rw [append_cons] at new measured disjoint ⊢
    have soFar : Disjoint (inserted ++ [x]) := List.Pairwise.sublist (sublist_append_left _ _) disjoint
    have apart := (pairwise_append.mp soFar).2.2
    refine ih (exact.insert (new x (by simp)) (measured.mono (subset_append_left _ _)) ?_ ?_) new measured disjoint
    · exact fun p hp => (new p (by simp [hp])).toProper
    · exact fun p hp a covers covers' => apart p hp x mem_cons_self a ⟨covers, covers'⟩

lemma Apart.partition (apart : m.Apart) : m.Partition where
  nonempty s hs := ⟨s.vma, (apart.proper s hs).member_iff_covers.mpr (apart.proper s hs).covers_vma⟩
  disjoint := by
    refine m.sorted.imp_of_mem fun {s t} hs ht before a both => ?_
    rw [(apart.proper s hs).member_iff_covers, (apart.proper t ht).member_iff_covers] at both
    exact absurd (apart.eq_of_covers hs ht both.1 both.2) fun same => absurd before (same ▸ lt_irrefl _)

lemma line_eq (same : s.key = t.key) : s.baseIndex = t.baseIndex ∧ s.lineNum = t.lineNum :=
  ⟨congrArg Prod.fst same, congrArg (fun k => k.2.1) same⟩

lemma Keeps.kept (keeps : Keeps m m') (apart : m.Apart) (apart' : m'.Apart) (found : m.findStmt a = some s) :
    ∃ s', m'.findStmt a = some s' ∧ s'.baseIndex = s.baseIndex ∧ s'.lineNum = s.lineNum := by
  obtain ⟨hs, covers⟩ := apart.findStmt_iff.mp found
  obtain ⟨s', hs', covers', key⟩ := keeps s hs a covers
  exact ⟨s', apart'.findStmt_iff.mpr ⟨hs', covers'⟩, line_eq key⟩

lemma madeOf_insertAll (new : ∀ p ∈ inserted, p.Insertable) (measured : Measured inserted) :
    MadeOf inserted (insertAll inserted) :=
  (madeOf_empty.foldl_insert new measured).1

lemma exact_insertAll (new : ∀ p ∈ inserted, p.Insertable) (measured : Measured inserted)
    (disjoint : Disjoint inserted) : Exact inserted (insertAll inserted) :=
  exact_empty.foldl_insert new measured disjoint

lemma Exact.determined (exact : Exact inserted (insertAll inserted)) (new : ∀ p ∈ inserted, p.Insertable)
    (measured : Measured inserted) (disjoint : Disjoint inserted) : Determined inserted where
  found p hp a covers := by
    obtain ⟨s, hs, key, within, -⟩ := exact.inside p hp
    exact ⟨s, exact.findStmt_iff.mpr ⟨hs, within.covers covers⟩, line_eq key⟩
  maximal s hs t ht touches noCall noCall' same := by
    rw [(exact.proper s hs).endVma_eq] at touches
    have key : s.key = t.key := by rw [StmtInfo.key, StmtInfo.key, same.1, same.2, noCall, noCall']
    rw [exact.maximal s hs t ht touches key] at noCall
    cases noCall
  calls s call := by
    refine ⟨fun hs => ?_, fun hs => exact.calls s hs call⟩
    obtain ⟨p, hp, start, key, -⟩ := exact.piece (fun p hp => (new p hp).toProper) hs
    rw [← isCall_eq key] at call
    rw [← exact.call hp call (new p hp).toProper hs (start ▸ (exact.proper s hs).covers_vma)]
    exact hp
  order inserted' perm := by
    have symmetric : ∀ {p q : StmtInfo}, (∀ a, ¬ (p.Covers a ∧ q.Covers a)) → ∀ a, ¬ (q.Covers a ∧ p.Covers a) :=
      fun apart a both => apart a both.symm
    have exact' := exact_insertAll (fun p hp => new p (perm.mem_iff.mp hp)) (measured.mono perm.subset)
      ((perm.pairwise_iff symmetric).mpr disjoint)
    exact exact'.unique exact (fun p => perm.mem_iff) fun p hp => (new p (perm.mem_iff.mp hp)).toProper

/-- Insertions do what is promised when every range can be said by `StmtInfo` and none becomes too long for it. -/
theorem promised_of_measured (inserted : List StmtInfo) (new : ∀ p ∈ inserted, p.Insertable)
    (measured : Measured inserted) : Promised inserted where
  partition := (madeOf_insertAll new measured).toApart.partition
  kept before after split a s found := by
    subst split
    have early := madeOf_insertAll (fun p hp => new p (mem_append_left _ hp))
      (measured.mono (subset_append_left before after))
    obtain ⟨late, keeps⟩ := early.foldl_insert (fun p hp => new p (mem_append_right before hp)) measured
    rw [insertAll, foldl_append]
    exact keeps.kept early.toApart late.toApart found
  determined disjoint := (exact_insertAll new measured disjoint).determined new measured disjoint

/-- Statements of one file that are not calls. -/
def line (vma : ℕ) (len lineNum : ℤ) : StmtInfo := ⟨vma, len, 0, 0, lineNum, 0, false, false, ""⟩

theorem two_lines_promised : Promised [line 24 4 1, line 16 4 2, line 20 4 1] := by
  refine promised_of_measured _ ?_ fun base lineNum lo hi covered => ?_
  · intro p hp
    simp only [mem_cons, not_mem_nil, or_false] at hp
    rcases hp with rfl | rfl | rfl <;> exact ⟨⟨by decide, by decide⟩, by decide⟩
  · by_contra long
    obtain ⟨p, hp, -, -, below⟩ := covered (hi - 1) (by omega) (by omega)
    have bound : p.stop ≤ 28 := by
      simp only [mem_cons, not_mem_nil, or_false] at hp
      rcases hp with rfl | rfl | rfl <;> decide
    omega

/-- An empty range, one up to the last address, and one that becomes too long for an int. What a range has beyond its right
neighbour is lost, and can be given to another line. -/
theorem wrapped_not_promised :
    ¬ Promised [line 16 0 1] ∧ ¬ Promised [line (2 ^ 64 - 1) 1 1] ∧
      ¬ Promised [line (2 ^ 32) (2 ^ 30) 1, line (2 ^ 32 + 2 ^ 30) (2 ^ 30) 1] ∧
      (insertAll [line 20 10 1, line 10 30 2]).findStmt 35 = none ∧
      ((insertAll [line 20 10 1, line 10 30 2, line 35 1 3]).findStmt 35).map StmtInfo.lineNum = some 3 := by
  refine ⟨fun promised => ?_, fun promised => ?_, fun promised => ?_, by decide, by decide⟩
  · obtain ⟨a, inside⟩ := promised.partition.nonempty (line 16 0 1) (by decide)
    simp only [StmtInfo.member, Bool.and_eq_true, decide_eq_true_eq] at inside
    exact absurd (inside.1.trans_lt inside.2) (by decide)
  · have absent : (insertAll [line (2 ^ 64 - 1) 1 1]).findStmt (2 ^ 64 - 1) = none := by decide
    obtain ⟨s, found, -⟩ := (promised.determined (by simp [Disjoint])).found (line (2 ^ 64 - 1) 1 1) (by simp) (2 ^ 64 - 1)
      ⟨by decide, by decide⟩
    exact absurd (absent.symm.trans found) (by simp)
  · have absent : (insertAll [line (2 ^ 32) (2 ^ 30) 1, line (2 ^ 32 + 2 ^ 30) (2 ^ 30) 1]).findStmt (2 ^ 32) = none := by
      decide
    have touches : (line (2 ^ 32) (2 ^ 30) 1).stop = (line (2 ^ 32 + 2 ^ 30) (2 ^ 30) 1).vma := by decide
    have apart : Disjoint [line (2 ^ 32) (2 ^ 30) 1, line (2 ^ 32 + 2 ^ 30) (2 ^ 30) 1] := by
      refine pairwise_pair.mpr fun a both => ?_
      exact absurd (both.1.2.trans_eq touches) (not_lt.mpr both.2.1)
    obtain ⟨s, found, -⟩ := (promised.determined apart).found (line (2 ^ 32) (2 ^ 30) 1) (by simp) (2 ^ 32)
      ⟨by decide, by decide⟩
    exact absurd (absent.symm.trans found) (by simp)

end StmtMap

end HpcToolkit.HpcStruct
