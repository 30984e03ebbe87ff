import HpcToolkit.Util.Interval

/-! # Functions from the symbol table

Where a module has no debugging information, an address is classified by the symbols of its file. Every symbol with a size
gets an interval, and a multimap with these intervals as keys is asked for the empty interval at the address. The interval
of a symbol ends at its last byte, while the order of intervals takes an end to be one behind the last element.
-/

open List

namespace HpcToolkit.Classify.Symbols

open Util Util.Interval IntervalMap

/-- What is read of an `Elf_Sym`. -/
structure ElfSym where
  stValue : UInt64
  stSize : UInt64
  stName : UInt32
deriving DecidableEq

/-- A `Function` of the module, by its offset. -/
structure Function where
  offset : ℕ
  name : String
deriving DecidableEq

/-- `elf_strptr` on the string table, and `hpctoolkit_demangle`. -/
structure Names where
  elfStrptr : UInt32 → Option String
  demangle : String → Option String

def Names.name (names : Names) (stName : UInt32) : String :=
  match names.elfStrptr stName with
  | none => ""
  | some name => if name = "" then "" else (names.demangle name).getD name

namespace ElfSym

/-- The addresses `value <= a < value + size`. -/
def Covers (s : ElfSym) (a : ℕ) : Prop := s.stValue.toNat ≤ a ∧ a < s.stValue.toNat + s.stSize.toNat

instance (s : ElfSym) (a : ℕ) : Decidable (s.Covers a) := inferInstanceAs (Decidable (_ ∧ _))

def Apart (s t : ElfSym) : Prop :=
  s.stValue.toNat + s.stSize.toNat ≤ t.stValue.toNat ∨ t.stValue.toNat + t.stSize.toNat ≤ s.stValue.toNat

instance (s t : ElfSym) : Decidable (s.Apart t) := inferInstanceAs (Decidable (_ ∨ _))

/-- `range`, for a symbol that has a size. -/
def range (s : ElfSym) : Util.Interval ℕ :=
  .of s.stValue.toNat ((s.stValue.toNat + s.stSize.toNat - 1) % 2 ^ 64)

def function (names : Names) (s : ElfSym) : Function := ⟨s.range.start, names.name s.stName⟩

end ElfSym

/-! ## Multimaps from intervals -/

section Multimap

variable {V : Type} {m : IntervalMap ℕ V} {key : Util.Interval ℕ} {value : V}

/-- `std::multimap::emplace`: behind the last element that is not greater. -/
def emplace (m : IntervalMap ℕ V) (key : Util.Interval ℕ) (value : V) : IntervalMap ℕ V :=
  m.takeWhile (fun e => ¬ key.less e.1) ++ (key, value) :: m.dropWhile fun e => ¬ key.less e.1

def Sorted (m : IntervalMap ℕ V) : Prop := m.Pairwise fun a b => a.1.less b.1

/-- The address is in the interval, or it is where an empty interval is. -/
def Meets (i : Util.Interval ℕ) (a : ℕ) : Prop := i.start ≤ a ∧ (a < i.stop ∨ a = i.start)

variable {a : ℕ} {i : Util.Interval ℕ}

lemma less_point_iff : i.less (.of a a) ↔ i.stop ≤ a ∧ i.start < a := by
  simp [less_iff, of]

lemma point_less_iff : (of a a).less i ↔ a < i.start := by
  simp only [less_iff, of, max_self, min_self]
  omega

lemma meets_iff :
    Meets i a ↔ i.less (.of a a) = false ∧ (of a a).less i = false := by
  rw [Bool.eq_false_iff, Bool.eq_false_iff, ne_eq, ne_eq, less_point_iff, point_less_iff, Meets]
  omega

lemma perm_emplace : (emplace m key value).Perm ((key, value) :: m) := by
  have parts := takeWhile_append_dropWhile (p := fun e : Util.Interval ℕ × V => ¬ key.less e.1) (l := m)
  exact perm_middle.trans (by rw [parts])

lemma less_trans {i j k : Util.Interval ℕ} (first : i.less j) (second : j.less k) : i.less k := by
  rw [less_iff] at first second ⊢
  omega

lemma Sorted.emplace (sorted : Sorted m) (placed : ∀ e ∈ m, e.1.less key ∨ key.less e.1) :
    Sorted (emplace m key value) := by
  have parts := takeWhile_append_dropWhile (p := fun e : Util.Interval ℕ × V => ¬ key.less e.1) (l := m)
  have apart := sorted
  rw [Sorted, ← parts, pairwise_append] at apart
  obtain ⟨low, high, across⟩ := apart
  have front : ∀ e ∈ m.takeWhile fun e => ¬ key.less e.1, e.1.less key := by
    intro e member
    have notLess := mem_takeWhile_imp (p := fun e : Util.Interval ℕ × V => ¬ key.less e.1) member
    have inside : e ∈ m := (takeWhile_sublist _).subset member
    exact (placed e inside).resolve_right (by simpa using notLess)
  have behind : ∀ e ∈ m.dropWhile fun e => ¬ key.less e.1, key.less e.1 := by
    have head := head?_dropWhile_not (fun e : Util.Interval ℕ × V => ¬ key.less e.1) m
    cases rest : m.dropWhile fun e => ¬ key.less e.1 with
    | nil => exact fun _ member => absurd member not_mem_nil
    | cons first later =>
      rw [rest] at head high
      have less : key.less first.1 := by simpa using head
      intro e member
      rcases mem_cons.mp member with rfl | member
      · exact less
      · exact less_trans less ((pairwise_cons.mp high).1 e member)
  refine pairwise_append.mpr ⟨low, pairwise_cons.mpr ⟨behind, high⟩, fun e member f inside => ?_⟩
  rcases mem_cons.mp inside with rfl | inside
  · exact front e member
  · exact across e member f inside

variable {e : Util.Interval ℕ × V}

lemma found_not_less (found : m.find (.of a a) = some e) :
    e ∈ m ∧ e.1.less (.of a a) = false := by
  rw [find] at found
  cases lower : m.fromLowerBound (.of a a) with
  | nil => rw [lower] at found; cases found
  | cons first later =>
    rw [lower] at found
    dsimp only at found
    split at found
    · cases found
    · obtain rfl := Option.some.inj found
      have inside : first ∈ m.fromLowerBound (.of a a) := by rw [lower]; exact mem_cons_self
      refine ⟨(dropWhile_sublist _).subset inside, ?_⟩
      have head := head?_dropWhile_not (fun e : Util.Interval ℕ × V => e.1.less (.of a a)) m
      rw [fromLowerBound] at lower
      rw [lower] at head
      simpa using head

lemma find_iff (sorted : Sorted m) :
    m.find (.of a a) = some e ↔ e ∈ m ∧ Meets e.1 a := by
  induction m with
  | nil => exact iff_of_false (fun found => by cases found) fun both => not_mem_nil both.1
  | cons first rest ih =>
    obtain ⟨before, later⟩ := pairwise_cons.mp sorted
    by_cases less : first.1.less (.of a a)
    · have skipped : find (first :: rest) (.of a a) = find rest (.of a a) := by
        rw [find, fromLowerBound, dropWhile_cons, if_pos less]
        rfl
      rw [skipped, ih later, mem_cons]
      refine ⟨fun both => ⟨.inr both.1, both.2⟩, ?_⟩
      rintro ⟨rfl | member, meets⟩
      · rw [(meets_iff.mp meets).1] at less
        cases less
      · exact ⟨member, meets⟩
    · have here : find (first :: rest) (.of a a) =
          if (of a a).less first.1 then none else some first := by
        rw [find, fromLowerBound, dropWhile_cons, if_neg less]
      rw [here]
      split
      · rename_i greater
        refine iff_of_false (fun found => by cases found) ?_
        rintro ⟨member, meets⟩
        have notGreater := (meets_iff.mp meets).2
        rcases mem_cons.mp member with rfl | member
        · rw [notGreater] at greater
          cases greater
        · rw [less_trans greater (before e member)] at notGreater
          cases notGreater
      · rename_i notGreater
        have meets_first : Meets first.1 a :=
          meets_iff.mpr ⟨Bool.eq_false_iff.mpr less, Bool.eq_false_iff.mpr notGreater⟩
        constructor
        · rintro ⟨⟩
          exact ⟨mem_cons_self, meets_first⟩
        · rintro ⟨member, meets⟩
          rcases mem_cons.mp member with rfl | member
          · rfl
          · have order := less_iff.mp (before e member)
            rw [Meets] at meets meets_first
            omega

end Multimap

/-! ## Loading -/

/-- The walk through the symbol table; a symbol without a size is skipped. -/
def load (names : Names) (syms : List ElfSym) : IntervalMap ℕ Function :=
  syms.foldl (fun symbols sym =>
    if sym.stSize = 0 then symbols else emplace symbols sym.range (sym.function names)) []

variable {names : Names} {syms : List ElfSym} {s t : ElfSym}

lemma mem_load {e : Util.Interval ℕ × Function} :
    e ∈ load names syms ↔ ∃ s ∈ syms, s.stSize ≠ 0 ∧ e = (s.range, s.function names) := by
  suffices general : ∀ symbols : IntervalMap ℕ Function, e ∈ syms.foldl (fun symbols sym =>
      if sym.stSize = 0 then symbols else emplace symbols sym.range (sym.function names)) symbols ↔
      e ∈ symbols ∨ ∃ s ∈ syms, s.stSize ≠ 0 ∧ e = (s.range, s.function names) by
    exact (general []).trans (by simp)
  induction syms with
  | nil => simp
  | cons sym syms ih =>
    intro symbols
    rw [foldl_cons, ih]
    by_cases skipped : sym.stSize = 0
    · simp [skipped]
    · rw [if_neg skipped, perm_emplace.mem_iff, mem_cons]
      simp [skipped]
      tauto

/-- Their intervals have an order. -/
def Placed (s t : ElfSym) : Prop := s.range.less t.range ∨ t.range.less s.range

lemma sorted_load (placed : syms.Pairwise Placed) : Sorted (load names syms) := by
  suffices general : ∀ symbols : IntervalMap ℕ Function, Sorted symbols →
      (∀ e ∈ symbols, ∀ s ∈ syms, e.1.less s.range ∨ s.range.less e.1) →
      Sorted (syms.foldl (fun symbols sym =>
        if sym.stSize = 0 then symbols else emplace symbols sym.range (sym.function names)) symbols) from
    general [] .nil fun _ member => absurd member not_mem_nil
  induction syms with
  | nil => exact fun symbols sorted _ => sorted
  | cons sym syms ih =>
    intro symbols sorted among
    obtain ⟨first, later⟩ := pairwise_cons.mp placed
    rw [foldl_cons]
    split
    · exact ih later symbols sorted fun e member s inside => among e member s (mem_cons_of_mem _ inside)
    · refine ih later _ (sorted.emplace fun e member => among e member sym mem_cons_self) fun e member s inside => ?_
      rcases mem_cons.mp (perm_emplace.mem_iff.mp member) with rfl | member
      · exact first s inside
      · exact among e member s (mem_cons_of_mem _ inside)

/-- The last byte of the symbol has an address. -/
def Within (s : ElfSym) : Prop := s.stValue.toNat + s.stSize.toNat ≤ 2 ^ 64

lemma toNat_pos (sized : s.stSize ≠ 0) : 0 < s.stSize.toNat := by
  refine Nat.pos_of_ne_zero fun zero => sized ?_
  exact UInt64.toNat_inj.mp zero

lemma range_of_within (within : Within s) (sized : s.stSize ≠ 0) :
    s.range = ⟨s.stValue.toNat, s.stValue.toNat + s.stSize.toNat - 1⟩ := by
  have size := toNat_pos sized
  rw [Within] at within
  rw [ElfSym.range, Nat.mod_eq_of_lt (by omega), of, min_eq_left (by omega), max_eq_right (by omega)]

lemma range_of_not_within (wraps : ¬ Within s) :
    s.range = ⟨s.stValue.toNat + s.stSize.toNat - 1 - 2 ^ 64, s.stValue.toNat⟩ := by
  have value := s.stValue.toNat_lt
  have size := s.stSize.toNat_lt
  rw [Within] at wraps
  have last : (s.stValue.toNat + s.stSize.toNat - 1) % 2 ^ 64 = s.stValue.toNat + s.stSize.toNat - 1 - 2 ^ 64 := by
    omega
  rw [ElfSym.range, last, of, min_eq_right (by omega), max_eq_left (by omega)]

/-! ## Classification -/

/-- Where no symbol wraps around, an address is classified into the symbol that it belongs to, but for the last byte of a
symbol of more than one. -/
lemma classify_iff (sized : ∀ s ∈ syms, s.stSize ≠ 0) (within : ∀ s ∈ syms, Within s)
    (apart : syms.Pairwise ElfSym.Apart) {a : ℕ} {f : Function} :
    (load names syms).valueAt a = some f ↔ ∃ s ∈ syms, s.function names = f ∧
      s.stValue.toNat ≤ a ∧ (a + 1 < s.stValue.toNat + s.stSize.toNat ∨ a = s.stValue.toNat) := by
  have placed : syms.Pairwise Placed := by
    refine apart.imp_of_mem fun {s t} inS inT separate => ?_
    have sizeS := toNat_pos (sized s inS)
    have sizeT := toNat_pos (sized t inT)
    rw [Placed, range_of_within (within s inS) (sized s inS), range_of_within (within t inT) (sized t inT),
      less_iff, less_iff]
    rw [ElfSym.Apart] at separate
    dsimp only
    omega
  have meets : ∀ s ∈ syms, (Meets s.range a ↔ s.stValue.toNat ≤ a ∧
      (a + 1 < s.stValue.toNat + s.stSize.toNat ∨ a = s.stValue.toNat)) := by
    intro s inside
    rw [Meets, range_of_within (within s inside) (sized s inside)]
    dsimp only
    omega
  simp only [valueAt, Option.map_eq_some_iff, find_iff (sorted_load placed), mem_load]
  constructor
  · rintro ⟨_, ⟨⟨s, inside, -, rfl⟩, at_a⟩, rfl⟩
    exact ⟨s, inside, rfl, (meets s inside).mp at_a⟩
  · rintro ⟨s, inside, rfl, covers⟩
    exact ⟨_, ⟨⟨s, inside, sized s inside, rfl⟩, (meets s inside).mpr covers⟩, rfl⟩

/-- Every address of a symbol is classified into it, and no other address into any. -/
def EveryByteClassified (names : Names) (syms : List ElfSym) : Prop :=
  (∀ s ∈ syms, ∀ a < 2 ^ 64, s.Covers a → (load names syms).valueAt a = some (s.function names)) ∧
    ∀ a < 2 ^ 64, (∀ s ∈ syms, ¬ s.Covers a) → (load names syms).valueAt a = none

lemma classified_into {a : ℕ} (classified : (load names syms).valueAt a = some (s.function names)) :
    ∃ t ∈ syms, t.range.start = s.range.start ∧ ¬ (t.range.stop ≤ a ∧ t.range.start < a) := by
  rw [valueAt, Option.map_eq_some_iff] at classified
  obtain ⟨e, found, same⟩ := classified
  obtain ⟨member, notLess⟩ := found_not_less found
  obtain ⟨t, inside, -, rfl⟩ := mem_load.mp member
  refine ⟨t, inside, congrArg Function.offset same, ?_⟩
  rw [← less_point_iff]
  exact Bool.eq_false_iff.mp notLess

instance : Std.Symm ElfSym.Apart := ⟨fun _ _ => Or.symm⟩

lemma within_of_classified (apart : syms.Pairwise ElfSym.Apart) (all : EveryByteClassified names syms)
    (sized : ∀ s ∈ syms, s.stSize ≠ 0) (member : s ∈ syms) : Within s := by
  by_contra wraps
  have value := s.stValue.toNat_lt
  have size := s.stSize.toNat_lt
  have positive := toNat_pos (sized s member)
  obtain ⟨t, inside, start, notLess⟩ := classified_into
    (all.1 s member s.stValue.toNat value ⟨le_rfl, Nat.lt_add_of_pos_right positive⟩)
  rw [range_of_not_within wraps] at start
  by_cases same : s = t
  · subst same
    rw [range_of_not_within wraps] at notLess
    dsimp only at notLess
    rw [Within] at wraps
    omega
  · have separate : s.Apart t := apart.forall member inside same
    have value' := t.stValue.toNat_lt
    rw [ElfSym.Apart] at separate
    by_cases within : Within t
    · rw [range_of_within within (sized t inside)] at start notLess
      have positive' := toNat_pos (sized t inside)
      rw [Within] at wraps
      dsimp only at start notLess
      omega
    · rw [Within] at wraps within
      omega

/-- For symbols that do not overlap, every byte is classified just in case no symbol has more than one. -/
theorem every_byte_classified_iff (names : Names) (syms : List ElfSym) (sized : ∀ s ∈ syms, s.stSize ≠ 0)
    (apart : syms.Pairwise ElfSym.Apart) : EveryByteClassified names syms ↔ ∀ s ∈ syms, s.stSize = 1 := by
  constructor
  · intro all s member
    have within : ∀ s ∈ syms, Within s := fun s inside => within_of_classified apart all sized inside
    by_contra more
    have positive := toNat_pos (sized s member)
    have several : s.stSize.toNat ≠ 1 := fun one => more (UInt64.toNat_inj.mp one)
    have bound := within s member
    rw [Within] at bound
    have last : s.Covers (s.stValue.toNat + s.stSize.toNat - 1) := by
      rw [ElfSym.Covers]
      omega
    obtain ⟨t, inside, start, notLess⟩ := classified_into (all.1 s member _ (by omega) last)
    rw [range_of_within (within s member) (sized s member)] at start
    rw [range_of_within (within t inside) (sized t inside)] at start notLess
    dsimp only at start notLess
    by_cases same : s = t
    · subst same
      omega
    · have separate : s.Apart t := apart.forall member inside same
      have positive' := toNat_pos (sized t inside)
      rw [ElfSym.Apart] at separate
      omega
  · intro single
    have one : ∀ s ∈ syms, s.stSize.toNat = 1 := fun s inside => by rw [single s inside]; rfl
    have within : ∀ s ∈ syms, Within s := by
      intro s inside
      have value := s.stValue.toNat_lt
      have size := one s inside
      rw [Within]
      omega
    constructor
    · intro s inside a _ covers
      rw [classify_iff sized within apart]
      have size := one s inside
      rw [ElfSym.Covers] at covers
      exact ⟨s, inside, rfl, by omega, by omega⟩
    · intro a _ outside
      rw [Option.eq_none_iff_forall_ne_some]
      intro f classified
      obtain ⟨s, inside, -, covers⟩ := (classify_iff sized within apart).mp classified
      have size := one s inside
      refine outside s inside ?_
      rw [ElfSym.Covers]
      omega

/-- Symbols of one byte each, at two addresses. -/
theorem single_bytes_classified :
    EveryByteClassified ⟨fun _ => none, fun _ => none⟩ [⟨16, 1, 0⟩, ⟨17, 1, 0⟩] ↔
      ∀ s ∈ [(⟨16, 1, 0⟩ : ElfSym), ⟨17, 1, 0⟩], s.stSize = 1 :=
  every_byte_classified_iff _ _ (by decide) (by decide)

/-- The last of the four bytes of a symbol. -/
theorem last_byte_not_classified : ¬ EveryByteClassified ⟨fun _ => none, fun _ => none⟩ [⟨16, 4, 0⟩] := by
  intro all
  exact absurd (all.1 ⟨16, 4, 0⟩ mem_cons_self 19 (by decide) (by decide)) (by decide)

end HpcToolkit.Classify.Symbols
