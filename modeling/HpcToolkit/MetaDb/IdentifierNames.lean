import HpcToolkit.MetaDb.Layout

/-! # The Identifier Names section

The names of the kinds of identifiers come from an unordered map. They are collected in an array with the kinds as its
indices, the strings are written one after the other, and behind them an array of pointers to the strings.
-/

open List

namespace HpcToolkit.MetaDb

open Lib

/-- The attribute `idtupleNames`, in the order of an iteration over the map. -/
structure IdtupleNames where
  entries : List (UInt16 × List UInt8)
  distinct : (entries.map Prod.fst).Nodup

namespace IdtupleNames

variable (d : IdtupleNames)

/-- One more than the largest kind. -/
def kinds : ℕ := (d.entries.map fun kv => kv.1.toNat + 1).foldr max 0

def name? (k : ℕ) : Option (List UInt8) := (d.entries.find? fun kv => kv.1.toNat = k).map Prod.snd

/-- The names with the kinds as indices, an empty one for a kind that has none. -/
def indexed : List (List UInt8) := (range d.kinds).map fun k => (d.name? k).getD []

end IdtupleNames

/-! ## Writing the section -/

/-- The body of the loop that collects the names. -/
def setName (names : List (Option (List UInt8))) (kv : UInt16 × List UInt8) : List (Option (List UInt8)) :=
  let names :=
    if names.length ≤ kv.1.toNat then names ++ replicate (kv.1.toNat + 1 - names.length) none else names
  names.set kv.1.toNat (some kv.2)

def collectNames (entries : List (UInt16 × List UInt8)) : List (Option (List UInt8)) :=
  entries.foldl setName (replicate entries.length none)

def nullTerminated (v : List UInt8) : List UInt8 := v ++ [0]

/-- The loop over the names, with the pointers to those that it writes. -/
def writeNames : LayoutEngine → List (Option (List UInt8)) → List ℕ × LayoutEngine
  | l, [] => ([], l)
  | l, none :: names => writeNames l names
  | l, some n :: names =>
    let (ptr, l) := l.written (nullTerminated n) 1
    let (ptrs, l) := writeNames l names
    (ptr :: ptrs, l)

/-- The size of `fmt_metadb_idNamesSHdr_t` in the file. -/
def szIdNamesSHdr : ℕ := 0x09

/-- `fmt_metadb_idNamesSHdr_write`, where the number of kinds becomes a byte. -/
def idNamesSHdrWrite (ppNames nKinds : ℕ) : List UInt8 := toLE 8 ppNames ++ toLE 1 nKinds

@[simp] lemma length_idNamesSHdrWrite (ppNames nKinds : ℕ) : (idNamesSHdrWrite ppNames nKinds).length = 9 := by
  rw [idNamesSHdrWrite, length_append, length_toLE, length_toLE]

/-- The place and the size of the section, as the file header has them, and the layout behind it. -/
structure IdNamesSection where
  pIdNames : ℕ
  szIdNames : ℕ
  layout : LayoutEngine

def writeIdNames (l : LayoutEngine) (d : IdtupleNames) : IdNamesSection :=
  let (pIdNames, l) := l.allocate szIdNamesSHdr 8
  let names := collectNames d.entries
  let (_, l) := l.written (nullTerminated []) 1
  let (strs, l) := writeNames l names
  let (ppNames, l) := l.written (serialize 8 (strs.map (toLE 8))) 8
  { pIdNames
    szIdNames := l.cursor - pIdNames
    layout := { l with file := writeat l.file pIdNames (idNamesSHdrWrite ppNames strs.length) } }

/-! ## Reading it back -/

/-- The pointers of the section, as the header describes them. -/
def readIdNames (file : List UInt8) (pIdNames : ℕ) : Option (List ℕ) := do
  let (ppNames, _) ← readLE 8 ⟨file, pIdNames⟩
  let (nKinds, _) ← readLE 1 ⟨file, pIdNames + 8⟩
  let (ptrs, _) ← readMany (readLE 8) nKinds ⟨file, ppNames⟩
  return ptrs

/-- The section lists some names: there are as many as it says, and its pointers lead to them one by one. -/
def ListsNames (file : List UInt8) (pIdNames : ℕ) (names : List (List UInt8)) : Prop :=
  ∃ ptrs, readIdNames file pIdNames = some ptrs ∧ Forall₂ (fun ptr name => At file ptr (nullTerminated name)) ptrs names

/-! ## Collecting the names -/

section Collect

variable {names : List (Option (List UInt8))} {kv : UInt16 × List UInt8} {entries : List (UInt16 × List UInt8)}

lemma length_setName : (setName names kv).length = max names.length (kv.1.toNat + 1) := by
  rw [setName, length_set]
  split
  · rw [length_append, length_replicate]
    omega
  · omega

lemma setName_self : (setName names kv)[kv.1.toNat]?.join = some kv.2 := by
  have inside : kv.1.toNat < (setName names kv).length := by
    rw [length_setName]
    omega
  rw [setName, length_set] at inside
  rw [setName, getElem?_set_self inside]
  rfl

lemma setName_of_ne {k : ℕ} (other : k ≠ kv.1.toNat) : (setName names kv)[k]?.join = names[k]?.join := by
  rw [setName, getElem?_set_ne other.symm]
  split
  · rcases lt_or_ge k names.length with inside | behind
    · rw [getElem?_append_left inside]
    · rw [getElem?_append_right behind, getElem?_eq_none behind, getElem?_replicate]
      split <;> rfl
  · rfl

lemma length_foldl_setName : (entries.foldl setName names).length =
    max names.length ((entries.map fun kv => kv.1.toNat + 1).foldr max 0) := by
  induction entries generalizing names with
  | nil => simp
  | cons kv entries ih => rw [foldl_cons, ih, length_setName, map_cons, foldr_cons, max_assoc]

lemma foldl_setName_of_absent {k : ℕ} (absent : ∀ kv ∈ entries, kv.1.toNat ≠ k) :
    (entries.foldl setName names)[k]?.join = names[k]?.join := by
  induction entries generalizing names with
  | nil => rfl
  | cons kv entries ih =>
    rw [foldl_cons, ih fun kv' member => absent kv' (mem_cons_of_mem kv member),
      setName_of_ne (absent kv mem_cons_self).symm]

lemma foldl_setName_eq (distinct : (entries.map Prod.fst).Nodup) (k : ℕ) (fresh : names[k]?.join = none) :
    (entries.foldl setName names)[k]?.join = (entries.find? fun kv => kv.1.toNat = k).map Prod.snd := by
  induction entries generalizing names with
  | nil => exact fresh
  | cons kv entries ih =>
    obtain ⟨notLater, distinct⟩ := nodup_cons.mp distinct
    rw [foldl_cons]
    rcases eq_or_ne kv.1.toNat k with rfl | other
    · rw [foldl_setName_of_absent, setName_self, find?_cons_of_pos (by simp), Option.map_some]
      exact fun kv' member same => notLater (UInt16.toNat_inj.mp same ▸ mem_map_of_mem member)
    · rw [ih distinct ((setName_of_ne other.symm).trans fresh), find?_cons_of_neg (by simpa using other)]

lemma kind_lt (member : kv ∈ entries) : kv.1.toNat < (entries.map fun kv => kv.1.toNat + 1).foldr max 0 := by
  induction entries with
  | nil => exact absurd member not_mem_nil
  | cons first entries ih =>
    rw [map_cons, foldr_cons]
    rcases mem_cons.mp member with rfl | later
    · omega
    · exact lt_max_of_lt_right (ih later)

end Collect

lemma IdtupleNames.length_le (d : IdtupleNames) : d.entries.length ≤ d.kinds := by
  have within : d.entries.map (fun kv => kv.1.toNat) ⊆ range d.kinds := by
    intro k member
    obtain ⟨kv, isEntry, rfl⟩ := mem_map.mp member
    exact mem_range.mpr (kind_lt isEntry)
  have nodup : (d.entries.map fun kv => kv.1.toNat).Nodup := by
    have numbers := d.distinct.map (f := UInt16.toNat) fun k k' => UInt16.toNat_inj.mp
    rwa [map_map] at numbers
  simpa using (nodup.subperm within).length_le

lemma collectNames_eq (d : IdtupleNames) : collectNames d.entries = (range d.kinds).map d.name? := by
  have length : (collectNames d.entries).length = d.kinds := by
    rw [collectNames, length_foldl_setName, length_replicate]
    exact max_eq_right d.length_le
  refine ext_getElem (by rw [length, length_map, length_range]) fun k inside _ => ?_
  have fresh : (replicate d.entries.length (none : Option (List UInt8)))[k]?.join = none := by
    rw [getElem?_replicate]
    split <;> rfl
  have found := foldl_setName_eq d.distinct k fresh
  rw [← collectNames, getElem?_eq_getElem inside] at found
  rw [getElem_map, getElem_range]
  exact found

/-! ## Where the strings stand -/

/-- Some bytes stand within a part of the file. -/
structure Stands (file : List UInt8) (lo hi ptr : ℕ) (enc : List UInt8) : Prop where
  start : lo ≤ ptr
  stop : ptr + enc.length ≤ hi
  here : At file ptr enc

variable {enc : List UInt8}

lemma Stands.mono {file file' : List UInt8} {lo lo' hi hi' ptr : ℕ}
    (stands : Stands file lo hi ptr enc) (low : lo' ≤ lo) (high : hi ≤ hi') (kept : file <+: file') :
    Stands file' lo' hi' ptr enc :=
  ⟨low.trans stands.start, stands.stop.trans high, stands.here.of_isPrefix kept⟩

lemma LayoutEngine.Wrote.stands {l l' : LayoutEngine} {buf : List UInt8} {p : ℕ} (wrote : l.Wrote buf p l')
    (nonempty : buf ≠ []) : Stands l'.file l.cursor l'.cursor p buf :=
  ⟨wrote.start, wrote.stop, wrote.here nonempty⟩

lemma nullTerminated_ne_nil (v : List UInt8) : nullTerminated v ≠ [] := append_ne_nil_of_right_ne_nil v (by simp)

lemma writeNames_wrote {l : LayoutEngine} (fits : l.Fits) (names : List (Option (List UInt8))) :
    l.Extends (writeNames l names).2 ∧ (writeNames l names).2.Fits ∧
      Forall₂ (fun ptr name => Stands (writeNames l names).2.file l.cursor (writeNames l names).2.cursor ptr
        (nullTerminated name)) (writeNames l names).1 (names.filterMap id) := by
  induction names generalizing l with
  | nil => exact ⟨.refl l, fits, .nil⟩
  | cons name names ih =>
    cases name with
    | none => exact ih fits
    | some n =>
      have wrote := LayoutEngine.written_wrote fits 1 one_pos (nullTerminated n)
      obtain ⟨ext, fits', rest⟩ := ih wrote.fits
      refine ⟨wrote.ext.trans ext, fits', .cons ?_ (rest.imp fun ptr name stands => ?_)⟩
      · exact (wrote.stands (nullTerminated_ne_nil n)).mono le_rfl ext.cursor ext.file
      · exact stands.mono wrote.ext.cursor le_rfl prefix_rfl

/-- What stands in the section: the header, the pointers and the strings. -/
structure SectionHolds (file : List UInt8) (lo hi pIdNames ppNames : ℕ) (strs : List ℕ) (names : List (List UInt8)) :
    Prop where
  header : Stands file lo hi pIdNames (idNamesSHdrWrite ppNames strs.length)
  pointers : ppNames ≤ hi ∧ (strs ≠ [] → Stands file lo hi ppNames (strs.flatMap (toLE 8)))
  strings : Forall₂ (fun ptr name => Stands file lo hi ptr (nullTerminated name)) strs names

variable {lo hi pIdNames ppNames : ℕ} {strs : List ℕ}

lemma SectionHolds.mono {file file' : List UInt8}
    {names : List (List UInt8)} (holds : SectionHolds file lo hi pIdNames ppNames strs names)
    (kept : ∀ off enc, lo ≤ off → off + enc.length ≤ hi → At file off enc → At file' off enc) :
    SectionHolds file' lo hi pIdNames ppNames strs names where
  header := ⟨holds.header.start, holds.header.stop, kept _ _ holds.header.start holds.header.stop holds.header.here⟩
  pointers := ⟨holds.pointers.1, fun nonempty =>
    have stands := holds.pointers.2 nonempty
    ⟨stands.start, stands.stop, kept _ _ stands.start stands.stop stands.here⟩⟩
  strings := holds.strings.imp fun _ _ stands => ⟨stands.start, stands.stop, kept _ _ stands.start stands.stop stands.here⟩

lemma serialize_pointers (strs : List ℕ) : serialize 8 (strs.map (toLE 8)) = strs.flatMap (toLE 8) := by
  rw [serialize_eq (by norm_num), flatMap_def]
  intro element member
  obtain ⟨ptr, -, rfl⟩ := mem_map.mp member
  rw [length_toLE]

/-! ## The parts of the section -/

section Parts

variable (l : LayoutEngine) (d : IdtupleNames)

/-- The layout behind the empty string. -/
def afterHeader : LayoutEngine := ((l.allocate szIdNamesSHdr 8).2.written (nullTerminated []) 1).2

/-- The pointers to the strings, and the layout behind these. -/
def strings : List ℕ × LayoutEngine := writeNames (afterHeader l) (collectNames d.entries)

/-- The pointer to the array of pointers, and the layout behind it. -/
def array : ℕ × LayoutEngine := (strings l d).2.written ((strings l d).1.flatMap (toLE 8)) 8

lemma writeIdNames_eq : writeIdNames l d =
    { pIdNames := align l.cursor 8
      szIdNames := (array l d).2.cursor - align l.cursor 8
      layout := { (array l d).2 with
        file := writeat (array l d).2.file (align l.cursor 8) (idNamesSHdrWrite (array l d).1 (strings l d).1.length) } } := by
  rw [array, ← serialize_pointers]
  rfl

end Parts

lemma writeIdNames_holds {l : LayoutEngine} (fits : l.Fits) (d : IdtupleNames) :
    SectionHolds (writeIdNames l d).layout.file l.cursor (writeIdNames l d).layout.cursor
      (writeIdNames l d).pIdNames (array l d).1 (strings l d).1 ((range d.kinds).filterMap d.name?) := by
  obtain ⟨ext₀, fits₀⟩ := LayoutEngine.allocate_fits fits 8 (by norm_num) szIdNamesSHdr
  have start : (l.allocate szIdNamesSHdr 8).2.cursor = align l.cursor 8 + szIdNamesSHdr := rfl
  have wrote₁ := LayoutEngine.written_wrote fits₀ 1 one_pos (nullTerminated [])
  obtain ⟨ext₂, fits₂, names⟩ := writeNames_wrote wrote₁.fits (collectNames d.entries)
  have wrote₃ := LayoutEngine.written_wrote fits₂ 8 (by norm_num) ((strings l d).1.flatMap (toLE 8))
  change (strings l d).2.Wrote _ (array l d).1 (array l d).2 at wrote₃
  change (afterHeader l).Extends (strings l d).2 at ext₂
  have behind : align l.cursor 8 + szIdNamesSHdr ≤ (afterHeader l).cursor := start ▸ wrote₁.ext.cursor
  have low : l.cursor ≤ align l.cursor 8 := le_align (by norm_num) l.cursor
  have high := ext₂.cursor.trans wrote₃.ext.cursor
  have keeps (file : List UInt8) (enc : List UInt8) (ptr : ℕ)
      (stands : Stands file (afterHeader l).cursor (array l d).2.cursor ptr enc) :
      Stands (writeat file (align l.cursor 8) (idNamesSHdrWrite (array l d).1 (strings l d).1.length)) l.cursor
        (array l d).2.cursor ptr enc := by
    have apart := stands.start
    refine ⟨by omega, stands.stop, at_writeat stands.here (.inr ?_)⟩
    rw [length_idNamesSHdrWrite]
    rw [szIdNamesSHdr] at behind
    omega
  have header : idNamesSHdrWrite (array l d).1 (strings l d).1.length ≠ [] := ne_nil_of_length_pos (by simp)
  rw [writeIdNames_eq]
  refine ⟨⟨low, ?_, at_writeat_self header⟩, ⟨?_, fun nonempty => ?_⟩, ?_⟩
  · rw [length_idNamesSHdrWrite]
    rw [szIdNamesSHdr] at behind
    exact behind.trans high
  · have stop := wrote₃.stop
    dsimp only
    omega
  · refine keeps _ _ _ ((wrote₃.stands ?_).mono ext₂.cursor le_rfl prefix_rfl)
    obtain ⟨first, strs, list⟩ := exists_cons_of_ne_nil nonempty
    rw [list]
    exact append_ne_nil_of_left_ne_nil (ne_nil_of_length_pos (by simp)) _
  · have listed : (collectNames d.entries).filterMap id = (range d.kinds).filterMap d.name? := by
      rw [collectNames_eq, filterMap_map]
      rfl
    rw [listed] at names
    exact names.imp fun ptr name stands => keeps _ _ _ (stands.mono le_rfl wrote₃.ext.cursor wrote₃.ext.file)

/-! ## What is read -/

lemma reads_byte (n : ℕ) : Reads (readLE 1) (toLE 1 n) (n % 256) := by
  have same : UInt8.ofNat n = UInt8.ofNat (n % 256) := UInt8.toNat_inj.mp (by simp)
  have bytes : toLE 1 n = toLE 1 (n % 256) := by simp [toLE, toBE, same]
  rw [bytes]
  exact reads_readLE 1 _ (Nat.mod_lt n (by norm_num))

variable {file : List UInt8}

lemma SectionHolds.pointer_le {names : List (List UInt8)}
    (holds : SectionHolds file lo hi pIdNames ppNames strs names) : ∀ ptr ∈ strs, ptr ≤ hi :=
  ((forall₂_and_left _ _).mp (holds.strings.imp fun _ _ stands =>
    ⟨(Nat.le_add_right _ _).trans stands.stop, stands.here⟩)).1

lemma SectionHolds.readIdNames {names : List (List UInt8)}
    (holds : SectionHolds file lo hi pIdNames ppNames strs names) (bound : hi < 256 ^ 8) :
    readIdNames file pIdNames = some (strs.take (strs.length % 256)) := by
  obtain ⟨first, second⟩ := holds.header.here.append
  rw [length_toLE] at second
  have count : (strs.take (strs.length % 256)).length = strs.length % 256 :=
    length_take_of_le (Nat.mod_le _ _)
  have pointers : readMany (readLE 8) (strs.length % 256) ⟨file, ppNames⟩ =
      some (strs.take (strs.length % 256), ⟨file, ppNames + ((strs.take (strs.length % 256)).flatMap (toLE 8)).length⟩) := by
    have each : ∀ ptr ∈ strs.take (strs.length % 256), Reads (readLE 8) (toLE 8 ptr) ptr := fun ptr member =>
      reads_readLE 8 ptr ((holds.pointer_le ptr (mem_of_mem_take member)).trans_lt bound)
    have reads := reads_readMany each
    rw [count] at reads
    rcases eq_nil_or_concat strs with rfl | ⟨front, last, rfl⟩
    · rfl
    · have here := (holds.pointers.2 (by simp)).here
      rw [← take_append_drop ((front.concat last).length % 256) (front.concat last), flatMap_append] at here
      exact reads _ _ here.append.1
  simp only [MetaDb.readIdNames, reads_readLE 8 ppNames (holds.pointers.1.trans_lt bound) _ _ first,
    reads_byte strs.length _ _ second, pointers, Option.bind_eq_bind, Option.bind_some, Option.pure_def]

/-! ## The whole file -/

/-- The file after the writes that follow the section. -/
def finish (file : List UInt8) (later : List (ℕ × List UInt8)) : List UInt8 :=
  later.foldl (fun file w => writeat file w.1 w.2) file

lemma at_finish {later : List (ℕ × List UInt8)} {lo hi off : ℕ}
    (apart : ∀ w ∈ later, hi ≤ w.1 ∨ w.1 + w.2.length ≤ lo) (low : lo ≤ off) (high : off + enc.length ≤ hi)
    (here : At file off enc) : At (finish file later) off enc := by
  induction later generalizing file with
  | nil => exact here
  | cons w later ih =>
    refine ih (fun w' member => apart w' (mem_cons_of_mem w member)) (at_writeat here ?_)
    exact (apart w mem_cons_self).imp high.trans fun before => before.trans low

/-- The layout comes to the section, the file ends before the largest `off_t`, and what is written later (the sections
behind, the file header in front) is elsewhere. -/
structure IdtupleNames.Ready (d : IdtupleNames) (l : LayoutEngine) (later : List (ℕ × List UInt8)) : Prop where
  fits : l.Fits
  bound : (writeIdNames l d).layout.cursor < 2 ^ 63
  apart : ∀ w ∈ later, (writeIdNames l d).layout.cursor ≤ w.1 ∨ w.1 + w.2.length ≤ l.cursor

namespace IdtupleNames.Ready

variable {d : IdtupleNames} {l : LayoutEngine} {later : List (ℕ × List UInt8)} (ready : d.Ready l later)
include ready

lemma holds : SectionHolds (finish (writeIdNames l d).layout.file later) l.cursor (writeIdNames l d).layout.cursor
    (writeIdNames l d).pIdNames (array l d).1 (strings l d).1 ((range d.kinds).filterMap d.name?) :=
  (writeIdNames_holds ready.fits d).mono fun _ _ low high here => at_finish ready.apart low high here

lemma readIdNames : MetaDb.readIdNames (finish (writeIdNames l d).layout.file later) (writeIdNames l d).pIdNames =
    some ((strings l d).1.take ((strings l d).1.length % 256)) :=
  ready.holds.readIdNames (ready.bound.trans_le (by norm_num))

lemma length_strings : (strings l d).1.length = ((range d.kinds).filterMap d.name?).length :=
  ready.holds.strings.length_eq

end IdtupleNames.Ready

/-- The section lists the names by kind exactly if no kind below the largest one is missing and their number fits in the
byte of the header. -/
theorem listsNames_iff (d : IdtupleNames) {l : LayoutEngine} {later : List (ℕ × List UInt8)} (ready : d.Ready l later) :
    ListsNames (finish (writeIdNames l d).layout.file later) (writeIdNames l d).pIdNames d.indexed ↔
      (∀ k < d.kinds, (d.name? k).isSome) ∧ d.kinds ≤ 255 := by
  have count := ready.length_strings
  have few : ((range d.kinds).filterMap d.name?).length ≤ d.kinds := by
    simpa using length_filterMap_le d.name? (range d.kinds)
  constructor
  · rintro ⟨ptrs, read, lists⟩
    obtain rfl := Option.some.inj (ready.readIdNames.symm.trans read)
    have length := lists.length_eq
    rw [length_take_of_le (Nat.mod_le _ _), IdtupleNames.indexed, length_map, length_range] at length
    have small := Nat.mod_lt (strings l d).1.length (show 256 > 0 by norm_num)
    have whole := Nat.mod_le (strings l d).1.length 256
    have all : ((range d.kinds).filterMap d.name?).length = (range d.kinds).length := by
      rw [length_range]
      omega
    exact ⟨fun k below => filterMap_length_eq_length.mp all k (mem_range.mpr below), by omega⟩
  · rintro ⟨all, small⟩
    have names : (range d.kinds).filterMap d.name? = d.indexed := by
      rw [IdtupleNames.indexed, ← filterMap_eq_map]
      refine filterMap_congr fun k member => ?_
      obtain ⟨name, found⟩ := Option.isSome_iff_exists.mp (all k (mem_range.mp member))
      change d.name? k = some ((d.name? k).getD [])
      rw [found]
      rfl
    have strings := ready.holds.strings
    rw [names] at strings count
    rw [IdtupleNames.indexed, length_map, length_range] at count
    refine ⟨_, ready.readIdNames, ?_⟩
    rw [Nat.mod_eq_of_lt (by omega), take_length]
    exact strings.imp fun _ _ stands => stands.here

/-- The kinds of a run on nodes with ranks, in some order of the map. -/
def ranks : IdtupleNames := ⟨[(2, [82, 65, 78, 75]), (0, [83, 85, 77]), (1, [78, 79, 68, 69])], by decide⟩

theorem ranks_listed : ListsNames (finish (writeIdNames ⟨[], 0x90⟩ ranks).layout.file [(0, replicate 0x90 1)])
    (writeIdNames ⟨[], 0x90⟩ ranks).pIdNames ranks.indexed :=
  (listsNames_iff ranks ⟨Nat.zero_le _, by decide, forall_mem_singleton.mpr (.inr (by simp))⟩).mpr
    (by decide)

/-- The same without the nodes. -/
def gap : IdtupleNames := ⟨[(2, [82, 65, 78, 75]), (0, [83, 85, 77])], by decide⟩

/-- The name of the kind 2 comes to the place of the kind 1, and there is none behind it. -/
theorem gap_not_listed : gap.Ready ⟨[], 0x90⟩ [] ∧
    ¬ListsNames (writeIdNames ⟨[], 0x90⟩ gap).layout.file (writeIdNames ⟨[], 0x90⟩ gap).pIdNames gap.indexed := by
  have ready : gap.Ready ⟨[], 0x90⟩ [] := ⟨Nat.zero_le _, by decide, by decide⟩
  refine ⟨ready, ?_⟩
  rintro ⟨ptrs, read, lists⟩
  obtain rfl := Option.some.inj (ready.readIdNames.symm.trans read)
  exact absurd lists.length_eq (by decide)

end HpcToolkit.MetaDb
