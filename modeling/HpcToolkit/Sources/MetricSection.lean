import HpcToolkit.Fmt.RawSection
import Mathlib.Data.List.TakeWhile

/-! # Reading the metric section of a profile

The loops of `Hpcrun4::realread` over the blocks of the metric section and their entries. An id, the end of a list and
an error come as one `int`. The loops end at any code that is not positive, and only values for contexts or metrics
that are not known make the source return false.
-/

open List

namespace HpcToolkit.Sources

open Fmt

/-- What a node of the calling context tree stands for; the ones below have no metrics. -/
inductive Node (Target : Type) where
  | singleCtx (rel full : Target)
  | reconstructedCtx (ctx : Target)
  | refRange (rel : Target)
  | outlinedRangeSample (sample : Target)
  | refRangeContext
  | outlinedRangeRoot
  | outlinedRangeContext
  | outlinedRange

structure MetricT (Metric : Type) where
  metric : Metric
  factor : UInt64
  isRelation : Bool
  isInt : Bool

/-- The maps that the earlier sections have filled, and `(isInt ? (double)val.i : val.r) * factor`. -/
structure Tables (Target Metric Value : Type) where
  nodes : ℤ → Option (Node Target)
  metrics : ℤ → Option (MetricT Metric)
  value : Bool → UInt64 → UInt64 → Value

/-- Why the loops are left: `return false`, an exception that the function catches, or the fuel of the model. -/
inductive Stop where
  | rejected
  | fuel

/-- A value that is added to an accumulator. -/
structure Delivery (Target Metric Value : Type) where
  target : Target
  metric : Metric
  value : Value

variable {Target Metric Value : Type}

/-- `raccum`: where values of the relation go. -/
def Node.relation : Node Target → Option Target
  | .singleCtx rel _ => some rel
  | .refRange rel => some rel
  | _ => none

/-- `faccum`: where values of the full context go. -/
def Node.full : Node Target → Option Target
  | .singleCtx _ full => some full
  | .reconstructedCtx ctx => some ctx
  | .outlinedRangeSample sample => some sample
  | _ => none

namespace Tables

variable (tables : Tables Target Metric Value)

/-- One round of the inner loop: `metrics.at` throws for a metric that is not known. -/
def deliver (node : Node Target) (mid : ℤ) (bits : UInt64) : Option (Delivery Target Metric Value) := do
  let x ← tables.metrics mid
  let target ← if x.isRelation then node.relation else node.full
  return ⟨target, x.metric, tables.value x.isInt bits x.factor⟩

end Tables

/-- The code that a call returns; the value is left alone if there is none. -/
def blockCode (sf : SparseFile) : ℤ × SparseFile :=
  match Raw.hpcrunSparseNextBlock sf with
  | (none, sf) => (-1, sf)
  | (some none, sf) => (0, sf)
  | (some (some cid), sf) => (cid, sf)

def entryCode (sf : SparseFile) : (ℤ × UInt64) × SparseFile :=
  match Raw.hpcrunSparseNextEntry sf with
  | (none, sf) => ((-1, 0), sf)
  | (some none, sf) => ((0, 0), sf)
  | (some (some entry), sf) => (entry, sf)

section Loops

variable (tables : Tables Target Metric Value)

/-- `while(mid > 0)` -/
def readEntries (node : Node Target) : ℕ → ℤ × UInt64 → SparseFile → List (Delivery Target Metric Value) →
    Except Stop (List (Delivery Target Metric Value) × SparseFile)
  | fuel, (mid, bits), sf, log =>
    if mid ≤ 0 then .ok (log, sf)
    else match fuel with
      | 0 => .error .fuel
      | fuel + 1 => match tables.deliver node mid bits with
        | none => .error .rejected
        | some delivery =>
          let (entry, sf) := entryCode sf
          readEntries node fuel entry sf (log ++ [delivery])

/-- `while((cid = hpcrun_sparse_next_block(file)) > 0)`, with the deliveries of each block. -/
def readBlocks : ℕ → SparseFile → List (ℤ × List (Delivery Target Metric Value)) →
    Except Stop (List (ℤ × List (Delivery Target Metric Value)))
  | fuel, sf, log =>
    let (cid, sf) := blockCode sf
    if cid ≤ 0 then .ok log
    else match fuel with
      | 0 => .error .fuel
      | fuel + 1 =>
        let (entry, sf) := entryCode sf
        if entry.1 = 0 then readBlocks fuel sf (log ++ [(cid, [])])
        else match tables.nodes cid with
          | none => .error .rejected
          | some node => match readEntries tables node fuel entry sf [] with
            | .error stop => .error stop
            | .ok (deliveries, sf) => readBlocks fuel sf (log ++ [(cid, deliveries)])

/-- What `realread` returns after this section; `timepoints` is what it returns if it goes on to the trace. -/
def returned (outcome : Except Stop (List (ℤ × List (Delivery Target Metric Value)))) (timepoints : Bool) : Bool :=
  match outcome with
  | .error _ => false
  | .ok _ => timepoints

end Loops

/-! ## The contents of a section -/

/-- How the entries of a block end: as the index says, with an error code, or with an entry whose metric id is counted
as 0. -/
inductive EntryEnd where
  | finished
  | broken
  | wrapped
deriving DecidableEq

structure BlockContents where
  id : ℤ
  entries : List (ℤ × UInt64)
  finish : EntryEnd
deriving DecidableEq

/-- The blocks of the index, as far as it can be read. -/
structure Contents where
  blocks : List BlockContents
  broken : Bool

inductive EntriesFrom : SparseFile → List (ℤ × UInt64) → EntryEnd → SparseFile → Prop where
  | finished {sf sf' : SparseFile} (next : Raw.hpcrunSparseNextEntry sf = (some none, sf')) :
      EntriesFrom sf [] .finished sf'
  | broken {sf sf' : SparseFile} (next : Raw.hpcrunSparseNextEntry sf = (none, sf')) : EntriesFrom sf [] .broken sf'
  | wrapped {sf sf' : SparseFile} {bits : UInt64} (next : Raw.hpcrunSparseNextEntry sf = (some (some (0, bits)), sf')) :
      EntriesFrom sf [] .wrapped sf'
  | entry {sf sf' last : SparseFile} {mid : ℤ} {bits : UInt64} {entries : List (ℤ × UInt64)} {finish : EntryEnd}
      (next : Raw.hpcrunSparseNextEntry sf = (some (some (mid, bits)), sf')) (positive : 0 < mid)
      (rest : EntriesFrom sf' entries finish last) : EntriesFrom sf ((mid, bits) :: entries) finish last

inductive BlocksFrom : SparseFile → List BlockContents → Bool → Prop where
  | finished {sf sf' : SparseFile} (next : Raw.hpcrunSparseNextBlock sf = (some none, sf')) : BlocksFrom sf [] false
  | broken {sf sf' : SparseFile} (next : Raw.hpcrunSparseNextBlock sf = (none, sf')) : BlocksFrom sf [] true
  | block {sf sf' last : SparseFile} {id : ℤ} {entries : List (ℤ × UInt64)} {finish : EntryEnd}
      {blocks : List BlockContents} {broken : Bool} (next : Raw.hpcrunSparseNextBlock sf = (some (some id), sf'))
      (inside : EntriesFrom sf' entries finish last) (rest : BlocksFrom last blocks broken) :
      BlocksFrom sf (⟨id, entries, finish⟩ :: blocks) broken

/-- What the section of the file holds. -/
def HasContents (sf : SparseFile) (contents : Contents) : Prop :=
  BlocksFrom sf contents.blocks contents.broken

/-- Some call of the readers returns an error code. -/
def Contents.Failed (contents : Contents) : Prop :=
  contents.broken ∨ ∃ b ∈ contents.blocks, b.finish = .broken

/-- The index and all blocks are there as declared. -/
def Contents.Complete (contents : Contents) : Prop :=
  ¬ contents.broken ∧ ∀ b ∈ contents.blocks, b.finish = .finished

/-- Complete, and every node id is positive as an `int`. -/
def Contents.Sound (contents : Contents) : Prop :=
  ¬ contents.broken ∧ ∀ b ∈ contents.blocks, 0 < b.id ∧ b.finish = .finished

/-- The code of the first call of `hpcrun_sparse_next_entry` in the block. -/
def BlockContents.firstCode (b : BlockContents) : ℤ :=
  match b.entries with
  | (mid, _) :: _ => mid
  | [] => if b.finish = .broken then -1 else 0

namespace Tables

variable (tables : Tables Target Metric Value)

/-- The first call in the block does not end it, and its node is not known or does not take one of its entries. -/
def Rejects (b : BlockContents) : Prop :=
  b.firstCode ≠ 0 ∧ ∀ node, tables.nodes b.id = some node → ∃ e ∈ b.entries, tables.deliver node e.1 e.2 = none

/-- A block that the loop reaches is rejected. -/
def RejectsContents (contents : Contents) : Prop :=
  ∃ before b after, contents.blocks = before ++ b :: after ∧ (∀ a ∈ before, 0 < a.id) ∧ 0 < b.id ∧ tables.Rejects b

/-- The values that a block adds. -/
def deliveries (b : BlockContents) : Option (List (Delivery Target Metric Value)) :=
  if b.entries = [] then some []
  else (tables.nodes b.id).bind fun node => b.entries.mapM fun e => tables.deliver node e.1 e.2

/-- The source returns false for a section with an error code, and true only with every block and entry delivered. -/
def Reports (sf : SparseFile) (contents : Contents) : Prop :=
  ∃ bound outcome, (∀ fuel, bound ≤ fuel → readBlocks tables fuel sf [] = outcome) ∧ outcome ≠ .error .fuel ∧
    ∀ timepoints, (contents.Failed → returned outcome timepoints = false) ∧
      (returned outcome timepoints = true → contents.Complete ∧ ∃ log, outcome = .ok log ∧
        contents.blocks.mapM (fun b => (b.id, ·) <$> tables.deliveries b) = some log)

end Tables

/-! ## Every section has contents -/

variable {finish : EntryEnd} {entries : List (ℤ × UInt64)}

lemma EntriesFrom.position {sf last : SparseFile}
    (inside : EntriesFrom sf entries finish last) : ∃ p, last = sf.seek p := by
  induction inside with
  | @finished sf _ next | @broken sf _ next | @wrapped sf _ _ next =>
    have moved := Raw.positions_nextEntry sf
    rwa [next] at moved
  | @entry sf sf' last _ _ _ _ next _ _ ih =>
    obtain ⟨p, same⟩ := Raw.positions_nextEntry sf
    obtain rfl : sf' = sf.seek p := by rwa [next] at same
    obtain ⟨q, rfl⟩ := ih
    exact ⟨q, rfl⟩

lemma exists_entries (sf : SparseFile) : ∃ entries finish last, EntriesFrom sf entries finish last := by
  induction room : sf.file.bytes.length - sf.file.pos using Nat.strong_induction_on generalizing sf with
  | _ n ih =>
    match next : Raw.hpcrunSparseNextEntry sf with
    | (none, sf') => exact ⟨[], .broken, sf', .broken next⟩
    | (some none, sf') => exact ⟨[], .finished, sf', .finished next⟩
    | (some (some (mid, bits)), sf') =>
      obtain ⟨natural, fits, moved⟩ := Raw.nextEntry_moves next
      rcases natural.eq_or_lt with rfl | positive
      · exact ⟨[], .wrapped, sf', .wrapped next⟩
      · have length : sf'.file.bytes.length = sf.file.bytes.length := by rw [moved]; rfl
        have pos : sf'.file.pos = sf.file.pos + 10 := by rw [moved]; rfl
        obtain ⟨entries, finish, last, rest⟩ := ih (sf'.file.bytes.length - sf'.file.pos) (by omega) sf' rfl
        exact ⟨(mid, bits) :: entries, finish, last, .entry next positive rest⟩

lemma exists_blocks_of_started (left : ℕ) (sf : SparseFile) (started : sf.smBlockTouched ≠ 0)
    (within : sf.smBlockTouched.toNat + left = sf.numNzCctNodes.toNat) :
    ∃ blocks broken, BlocksFrom sf blocks broken := by
  induction left generalizing sf with
  | zero =>
    match next : Raw.hpcrunSparseNextBlock sf with
    | (none, sf') => exact ⟨[], true, .broken next⟩
    | (some none, sf') => exact ⟨[], false, .finished next⟩
    | (some (some id), sf') =>
      obtain ⟨-, more, same⟩ := Raw.nextBlock_moves next
      rw [same started] at more
      exact absurd (UInt32.toNat_inj.mp within) more
  | succ left ih =>
    match next : Raw.hpcrunSparseNextBlock sf with
    | (none, sf') => exact ⟨[], true, .broken next⟩
    | (some none, sf') => exact ⟨[], false, .finished next⟩
    | (some (some id), sf') =>
      obtain ⟨touched, -, same⟩ := Raw.nextBlock_moves next
      obtain ⟨entries, finish, last, inside⟩ := exists_entries sf'
      obtain ⟨p, rfl⟩ := inside.position
      have count : (sf.smBlockTouched + 1).toNat = sf.smBlockTouched.toNat + 1 := by
        have bound := sf.numNzCctNodes.toNat_lt
        rw [UInt32.toNat_add, UInt32.toNat_one, Nat.mod_eq_of_lt (by omega)]
      have nonzero : (sf'.seek p).smBlockTouched ≠ 0 := by
        change sf'.smBlockTouched ≠ 0
        rw [touched, ne_eq, ← UInt32.toNat_inj, count]
        exact Nat.succ_ne_zero _
      have rest : (sf'.seek p).smBlockTouched.toNat + left = (sf'.seek p).numNzCctNodes.toNat := by
        change sf'.smBlockTouched.toNat + left = sf'.numNzCctNodes.toNat
        rw [touched, same started, count]
        omega
      obtain ⟨blocks, broken, others⟩ := ih (sf'.seek p) nonzero rest
      exact ⟨⟨id, entries, finish⟩ :: blocks, broken, .block next inside others⟩

lemma exists_contents (sf : SparseFile) (fresh : sf.smBlockTouched = 0) : ∃ contents, HasContents sf contents := by
  match next : Raw.hpcrunSparseNextBlock sf with
  | (none, sf') => exact ⟨⟨[], true⟩, .broken next⟩
  | (some none, sf') => exact ⟨⟨[], false⟩, .finished next⟩
  | (some (some id), sf') =>
    obtain ⟨touched, more, -⟩ := Raw.nextBlock_moves next
    obtain ⟨entries, finish, last, inside⟩ := exists_entries sf'
    obtain ⟨p, rfl⟩ := inside.position
    rw [fresh] at touched more
    have some_left : 1 ≤ sf'.numNzCctNodes.toNat :=
      Nat.one_le_iff_ne_zero.mpr fun none_left => more (UInt32.toNat_inj.mp none_left.symm)
    have rest : (sf'.seek p).smBlockTouched.toNat + (sf'.numNzCctNodes.toNat - 1) = (sf'.seek p).numNzCctNodes.toNat := by
      change sf'.smBlockTouched.toNat + _ = sf'.numNzCctNodes.toNat
      rw [touched]
      exact Nat.add_sub_cancel' some_left
    have started : (sf'.seek p).smBlockTouched ≠ 0 := by
      change sf'.smBlockTouched ≠ 0
      rw [touched]
      decide
    obtain ⟨blocks, broken, others⟩ := exists_blocks_of_started _ (sf'.seek p) started rest
    exact ⟨⟨⟨id, entries, finish⟩ :: blocks, broken⟩, .block next inside others⟩

lemma EntriesFrom.unique {sf last last' : SparseFile} {entries entries' : List (ℤ × UInt64)} {finish finish' : EntryEnd}
    (inside : EntriesFrom sf entries finish last) (other : EntriesFrom sf entries' finish' last') :
    entries' = entries ∧ finish' = finish ∧ last' = last := by
  induction inside generalizing entries' finish' last' with
  | finished next =>
    cases other with
    | finished again =>
      cases next.symm.trans again
      exact ⟨rfl, rfl, rfl⟩
    | broken again | wrapped again | entry again => cases next.symm.trans again
  | broken next =>
    cases other with
    | broken again =>
      cases next.symm.trans again
      exact ⟨rfl, rfl, rfl⟩
    | finished again | wrapped again | entry again => cases next.symm.trans again
  | wrapped next =>
    cases other with
    | wrapped again =>
      cases next.symm.trans again
      exact ⟨rfl, rfl, rfl⟩
    | finished again | broken again => cases next.symm.trans again
    | entry again positive =>
      cases next.symm.trans again
      exact absurd positive (lt_irrefl 0)
  | entry next positive rest ih =>
    cases other with
    | finished again | broken again => cases next.symm.trans again
    | wrapped again =>
      cases next.symm.trans again
      exact absurd positive (lt_irrefl 0)
    | entry again _ rest' =>
      cases next.symm.trans again
      obtain ⟨rfl, rfl, rfl⟩ := ih rest'
      exact ⟨rfl, rfl, rfl⟩

lemma BlocksFrom.unique {sf : SparseFile} {blocks blocks' : List BlockContents} {broken broken' : Bool}
    (index : BlocksFrom sf blocks broken) (other : BlocksFrom sf blocks' broken') :
    blocks' = blocks ∧ broken' = broken := by
  induction index generalizing blocks' broken' with
  | finished next =>
    cases other with
    | finished again => exact ⟨rfl, rfl⟩
    | broken again | block again => cases next.symm.trans again
  | broken next =>
    cases other with
    | broken again => exact ⟨rfl, rfl⟩
    | finished again | block again => cases next.symm.trans again
  | block next inside rest ih =>
    cases other with
    | finished again | broken again => cases next.symm.trans again
    | block again inside' rest' =>
      cases next.symm.trans again
      obtain ⟨rfl, rfl, rfl⟩ := inside.unique inside'
      obtain ⟨rfl, rfl⟩ := ih rest'
      exact ⟨rfl, rfl⟩

lemma contents_unique {sf : SparseFile} {contents contents' : Contents} (has : HasContents sf contents)
    (other : HasContents sf contents') : contents' = contents := by
  obtain ⟨blocks, broken⟩ := BlocksFrom.unique has other
  cases contents
  cases contents'
  cases blocks
  cases broken
  rfl

/-! ## The loops on the contents -/

section Mapping

variable {A B : Type} {f : A → Option B}

variable {l : List A}

lemma mapM_cons_none {x : A} (stop : f x = none) : (x :: l).mapM f = none := by
  rw [mapM_cons, stop]
  rfl

lemma mapM_cons_some {x : A} {y : B} (image : f x = some y) :
    (x :: l).mapM f = (l.mapM f).map (y :: ·) := by
  rw [mapM_cons, image]
  cases l.mapM f <;> rfl

lemma mapM_eq_none : l.mapM f = none ↔ ∃ x ∈ l, f x = none := by
  induction l with
  | nil => simp
  | cons x l ih =>
    cases image : f x with
    | none => exact iff_of_true (mapM_cons_none image) ⟨x, mem_cons_self, image⟩
    | some y =>
      rw [mapM_cons_some image, Option.map_eq_none_iff, ih]
      constructor
      · rintro ⟨z, inside, stop⟩
        exact ⟨z, mem_cons_of_mem _ inside, stop⟩
      · rintro ⟨z, inside, stop⟩
        rcases mem_cons.mp inside with rfl | inside
        · rw [image] at stop
          cases stop
        · exact ⟨z, inside, stop⟩

variable {images : List B}

lemma mapM_length (mapped : l.mapM f = some images) : images.length = l.length := by
  induction l generalizing images with
  | nil =>
    cases mapped
    rfl
  | cons x l ih =>
    cases image : f x with
    | none => cases (mapM_cons_none image).symm.trans mapped
    | some y =>
      rw [mapM_cons_some image, Option.map_eq_some_iff] at mapped
      obtain ⟨rest, mapped, rfl⟩ := mapped
      rw [length_cons, length_cons, ih mapped]

lemma mapM_of_imp {g : A → Option B}
    (same : ∀ x ∈ l, ∀ y, f x = some y → g x = some y) (mapped : l.mapM f = some images) : l.mapM g = some images := by
  induction l generalizing images with
  | nil => exact mapped
  | cons x l ih =>
    cases image : f x with
    | none => cases (mapM_cons_none image).symm.trans mapped
    | some y =>
      rw [mapM_cons_some image, Option.map_eq_some_iff] at mapped
      obtain ⟨rest, mapped, rfl⟩ := mapped
      rw [mapM_cons_some (same x mem_cons_self y image),
        ih (fun z inside => same z (mem_cons_of_mem _ inside)) mapped]
      rfl

end Mapping

section Spec

variable (tables : Tables Target Metric Value) {sf last : SparseFile}

lemma entries_positive (inside : EntriesFrom sf entries finish last) :
    ∀ e ∈ entries, 0 < e.1 := by
  induction inside with
  | finished | broken | wrapped => exact fun _ none_in => absurd none_in not_mem_nil
  | entry next positive rest ih =>
    rintro e (_ | ⟨_, inside⟩)
    · exact positive
    · exact ih e inside

variable {fuel : ℕ}

lemma readEntries_eq (node : Node Target)
    (inside : EntriesFrom sf entries finish last) (enough : entries.length ≤ fuel)
    (log : List (Delivery Target Metric Value)) :
    readEntries tables node fuel (entryCode sf).1 (entryCode sf).2 log =
      match entries.mapM fun e => tables.deliver node e.1 e.2 with
      | none => .error .rejected
      | some deliveries => .ok (log ++ deliveries, last) := by
  induction inside generalizing fuel log with
  | finished next | broken next | wrapped next =>
    rw [entryCode, next]
    cases fuel <;> simp [readEntries]
  | @entry sf sf' last mid bits entries finish next positive rest ih =>
    obtain _ | fuel := fuel
    · cases enough
    rw [entryCode, next]
    cases delivered : tables.deliver node mid bits with
    | none =>
      rw [mapM_cons_none (f := fun e => tables.deliver node e.1 e.2) (x := (mid, bits)) delivered]
      simp [readEntries, positive.not_ge, delivered]
    | some delivery =>
      rw [mapM_cons_some (f := fun e => tables.deliver node e.1 e.2) (x := (mid, bits)) delivered]
      simp only [readEntries, positive.not_ge, if_false, delivered]
      rw [ih (Nat.le_of_succ_le_succ enough)]
      cases entries.mapM fun e => tables.deliver node e.1 e.2 with
      | none => rfl
      | some deliveries => simp

/-- What the body of the outer loop makes of a block. -/
def Tables.processBlock (b : BlockContents) : Option (List (Delivery Target Metric Value)) :=
  if b.firstCode = 0 then some []
  else (tables.nodes b.id).bind fun node => b.entries.mapM fun e => tables.deliver node e.1 e.2

/-- The blocks before the first one whose id is not positive. -/
def reached (blocks : List BlockContents) : List BlockContents := blocks.takeWhile fun b => 0 < b.id

def Tables.process (blocks : List BlockContents) : Option (List (ℤ × List (Delivery Target Metric Value))) :=
  (reached blocks).mapM fun b => (b.id, ·) <$> tables.processBlock b

variable {b : BlockContents} {blocks : List BlockContents}

lemma Tables.process_cons (positive : 0 < b.id) :
    tables.process (b :: blocks) =
      (tables.processBlock b).bind fun deliveries => (tables.process blocks).map ((b.id, deliveries) :: ·) := by
  have reached_cons : reached (b :: blocks) = b :: reached blocks := by simp [reached, positive]
  rw [process, reached_cons]
  cases block : tables.processBlock b with
  | none => exact mapM_cons_none (by rw [block]; rfl)
  | some deliveries => exact mapM_cons_some (y := (b.id, deliveries)) (by rw [block]; rfl)

lemma Tables.process_stop (stop : b.id ≤ 0) :
    tables.process (b :: blocks) = some [] := by
  have reached_nil : reached (b :: blocks) = [] := by simp [reached, stop]
  rw [process, reached_nil]
  rfl

lemma firstCode_entryCode (id : ℤ)
    (inside : EntriesFrom sf entries finish last) : (entryCode sf).1.1 = BlockContents.firstCode ⟨id, entries, finish⟩ := by
  cases inside with
  | finished next | broken next | wrapped next | entry next =>
    rw [entryCode, next]
    rfl

lemma entryCode_of_empty (id : ℤ)
    (inside : EntriesFrom sf entries finish last) (empty : BlockContents.firstCode ⟨id, entries, finish⟩ = 0) :
    (entryCode sf).2 = last := by
  cases inside with
  | finished next | wrapped next => rw [entryCode, next]
  | broken next => cases empty
  | entry next positive => exact absurd empty positive.ne'

variable {broken : Bool}

lemma readBlocks_eq (index : BlocksFrom sf blocks broken)
    (enough : (blocks.map fun b => b.entries.length + 1).sum ≤ fuel)
    (log : List (ℤ × List (Delivery Target Metric Value))) :
    readBlocks tables fuel sf log =
      match tables.process blocks with
      | none => .error .rejected
      | some deliveries => .ok (log ++ deliveries) := by
  induction index generalizing fuel log with
  | finished next | broken next =>
    rw [readBlocks, blockCode, next]
    simp [Tables.process, reached]
  | @block sf sf' last id entries finish blocks broken next inside rest ih =>
    rw [map_cons, sum_cons] at enough
    change entries.length + 1 + _ ≤ fuel at enough
    rw [readBlocks, blockCode, next]
    by_cases positive : 0 < id
    · obtain _ | fuel := fuel
      · omega
      simp only [positive.not_ge, if_false, tables.process_cons (b := ⟨id, entries, finish⟩) positive]
      rw [firstCode_entryCode id inside]
      split
      · rename_i empty
        have block : tables.processBlock ⟨id, entries, finish⟩ = some [] := if_pos empty
        rw [entryCode_of_empty id inside empty, ih (by omega), block]
        cases tables.process blocks with
        | none => rfl
        | some others => simp
      · rename_i more
        have block : tables.processBlock ⟨id, entries, finish⟩ =
            (tables.nodes id).bind fun node => entries.mapM fun e => tables.deliver node e.1 e.2 := if_neg more
        rw [block]
        cases tables.nodes id with
        | none => rfl
        | some node =>
          have room : entries.length ≤ fuel := by omega
          simp only [readEntries_eq tables node inside room, Option.bind_some]
          cases entries.mapM fun e => tables.deliver node e.1 e.2 with
          | none => rfl
          | some deliveries =>
            simp only [nil_append, Option.bind_some]
            rw [ih (by omega)]
            cases tables.process blocks with
            | none => rfl
            | some others => simp
    · rw [tables.process_stop (b := ⟨id, entries, finish⟩) (not_lt.mp positive)]
      simp [not_lt.mp positive]

lemma processBlock_none : tables.processBlock b = none ↔ tables.Rejects b := by
  unfold Tables.processBlock Tables.Rejects
  split
  · rename_i empty
    exact iff_of_false (Option.some_ne_none _) fun rejects => rejects.1 empty
  · rename_i more
    rw [Option.bind_eq_none_iff]
    constructor
    · exact fun none_of => ⟨more, fun node known => mapM_eq_none.mp (none_of node known)⟩
    · exact fun rejects node known => mapM_eq_none.mpr (rejects.2 node known)

lemma mem_reached :
    b ∈ reached blocks ↔ ∃ before after, blocks = before ++ b :: after ∧ (∀ a ∈ before, 0 < a.id) ∧ 0 < b.id := by
  induction blocks with
  | nil => simp [reached]
  | cons first blocks ih =>
    by_cases positive : 0 < first.id
    · have reached_cons : reached (first :: blocks) = first :: reached blocks := by simp [reached, positive]
      rw [reached_cons, mem_cons, ih]
      constructor
      · rintro (rfl | ⟨before, after, rfl, earlier, here⟩)
        · exact ⟨[], blocks, rfl, fun _ none_in => absurd none_in not_mem_nil, positive⟩
        · exact ⟨first :: before, after, rfl, forall_mem_cons.mpr ⟨positive, earlier⟩, here⟩
      · rintro ⟨_ | ⟨_, before⟩, after, same, earlier, here⟩
        · exact .inl (cons.inj same).1.symm
        · obtain ⟨rfl, rfl⟩ := cons.inj same
          exact .inr ⟨before, after, rfl, fun a inside => earlier a (mem_cons_of_mem _ inside), here⟩
    · have reached_nil : reached (first :: blocks) = [] := by simp [reached, not_lt.mp positive]
      rw [reached_nil]
      refine iff_of_false not_mem_nil ?_
      rintro ⟨_ | ⟨_, before⟩, after, same, earlier, here⟩
      · obtain ⟨rfl, rfl⟩ := cons.inj same
        exact positive here
      · obtain ⟨rfl, rfl⟩ := cons.inj same
        exact positive (earlier _ mem_cons_self)

lemma process_none {contents : Contents} :
    tables.process contents.blocks = none ↔ tables.RejectsContents contents := by
  unfold Tables.process Tables.RejectsContents
  rw [mapM_eq_none]
  constructor
  · rintro ⟨b, inside, stop⟩
    obtain ⟨before, after, split, earlier, here⟩ := mem_reached.mp inside
    exact ⟨before, b, after, split, earlier, here, (processBlock_none tables).mp (Option.map_eq_none_iff.mp stop)⟩
  · rintro ⟨before, b, after, split, earlier, here, rejects⟩
    exact ⟨b, mem_reached.mpr ⟨before, after, split, earlier, here⟩,
      Option.map_eq_none_iff.mpr ((processBlock_none tables).mpr rejects)⟩

lemma deliveries_of_processBlock {deliveries : List (Delivery Target Metric Value)}
    (positive : ∀ e ∈ b.entries, 0 < e.1) (block : tables.processBlock b = some deliveries) :
    tables.deliveries b = some deliveries := by
  obtain ⟨id, entries, finish⟩ := b
  unfold Tables.processBlock at block
  unfold Tables.deliveries
  cases entries with
  | nil =>
    split at block
    · exact block
    · obtain ⟨node, -, block⟩ := Option.bind_eq_some_iff.mp block
      exact block
  | cons e entries =>
    have first : BlockContents.firstCode ⟨id, e :: entries, finish⟩ ≠ 0 := (positive e mem_cons_self).ne'
    rw [if_neg first] at block
    exact block

lemma BlocksFrom.entries_positive (index : BlocksFrom sf blocks broken) :
    ∀ b ∈ blocks, ∀ e ∈ b.entries, 0 < e.1 := by
  induction index with
  | finished | broken => exact fun _ none_in => absurd none_in not_mem_nil
  | block next inside rest ih => exact forall_mem_cons.mpr ⟨Sources.entries_positive inside, ih⟩

lemma reached_length :
    (reached blocks).length = blocks.length ↔ ∀ b ∈ blocks, 0 < b.id := by
  constructor
  · intro same
    have all : reached blocks = blocks := ( takeWhile_prefix _).eq_of_length same
    intro b inside
    rw [← all, mem_reached] at inside
    obtain ⟨_, _, _, _, positive⟩ := inside
    exact positive
  · intro positive
    exact congrArg length (takeWhile_eq_self_iff.mpr fun b inside => decide_eq_true (positive b inside))

variable {contents : Contents}

lemma reports_of_rejects (has : HasContents sf contents) (rejects : tables.RejectsContents contents) :
    tables.Reports sf contents := by
  have rejected : ∀ fuel, (contents.blocks.map fun b => b.entries.length + 1).sum ≤ fuel →
      readBlocks tables fuel sf [] = .error .rejected := by
    intro fuel enough
    rw [readBlocks_eq tables has enough, (process_none tables).mpr rejects]
  exact ⟨_, _, rejected, by simp, fun _ => ⟨fun _ => rfl, by simp [returned]⟩⟩

variable {log : List (ℤ × List (Delivery Target Metric Value))}

lemma reports_of_sound (has : HasContents sf contents)
    (process : tables.process contents.blocks = some log) (sound : contents.Sound) : tables.Reports sf contents := by
  have read : ∀ fuel, (contents.blocks.map fun b => b.entries.length + 1).sum ≤ fuel →
      readBlocks tables fuel sf [] = .ok log := by
    intro fuel enough
    rw [readBlocks_eq tables has enough, process]
    rfl
  have all : reached contents.blocks = contents.blocks :=
    ( takeWhile_prefix _).eq_of_length (reached_length.mpr fun b inside => (sound.2 b inside).1)
  have delivered : contents.blocks.mapM (fun b => (b.id, ·) <$> tables.deliveries b) = some log := by
    rw [Tables.process, all] at process
    refine mapM_of_imp (fun b inside y mapped => ?_) process
    obtain ⟨deliveries, block, rfl⟩ := Option.map_eq_some_iff.mp mapped
    exact Option.map_eq_some_iff.mpr
      ⟨deliveries, deliveries_of_processBlock tables (BlocksFrom.entries_positive has b inside) block, rfl⟩
  have no_error : ¬ contents.Failed := by
    rintro (broken | ⟨b, inside, broken⟩)
    · exact sound.1 broken
    · cases (sound.2 b inside).2.symm.trans broken
  exact ⟨_, _, read, by simp, fun _ => ⟨fun failed => absurd failed no_error,
    fun _ => ⟨⟨sound.1, fun b inside => (sound.2 b inside).2⟩, log, rfl, delivered⟩⟩⟩

lemma sound_of_reports (has : HasContents sf contents)
    (process : tables.process contents.blocks = some log) (reports : tables.Reports sf contents) : contents.Sound := by
  obtain ⟨bound, outcome, reads, -, judged⟩ := reports
  have read := reads _ (le_max_left bound (contents.blocks.map fun b => b.entries.length + 1).sum)
  rw [readBlocks_eq tables has (le_max_right _ _), process] at read
  obtain rfl : Except.ok log = outcome := read
  obtain ⟨complete, log', same, delivered⟩ := (judged true).2 rfl
  cases same
  have positive : ∀ b ∈ contents.blocks, 0 < b.id := by
    rw [← reached_length, ← mapM_length process, ← mapM_length delivered]
  exact ⟨complete.1, fun b inside => ⟨positive b inside, complete.2 b inside⟩⟩

/-- The source tells corrupt metric sections from complete ones exactly if the section is sound, or if a block that is
reached is rejected for other reasons. -/
theorem metrics_reported_iff (sf : SparseFile) (fresh : sf.smBlockTouched = 0) :
    ∃ contents, HasContents sf contents ∧ (∀ other, HasContents sf other → other = contents) ∧
      (tables.Reports sf contents ↔ contents.Sound ∨ tables.RejectsContents contents) := by
  obtain ⟨contents, has⟩ := exists_contents sf fresh
  refine ⟨contents, has, fun other => contents_unique has, ?_, ?_⟩
  · intro reports
    cases process : tables.process contents.blocks with
    | none => exact .inr ((process_none tables).mp process)
    | some log => exact .inl (sound_of_reports tables has process reports)
  · rintro (sound | rejects)
    · cases process : tables.process contents.blocks with
      | none => exact reports_of_rejects tables has ((process_none tables).mp process)
      | some log => exact reports_of_sound tables has process sound
    · exact reports_of_rejects tables has rejects

end Spec

/-- A section with an id tuple of one id that promises five values and one block, and ends before the first value. -/
def cutSection : SparseFile where
  file := { bytes := Lib.toBE 2 1 ++ Lib.toBE 2 1 ++ Lib.toBE 8 0 ++ Lib.toBE 8 0 ++ Lib.toBE 8 5 ++ Lib.toBE 4 1, pos := 32 }
  footer := {
    hdrStart := 0
    hdrEnd := 0
    loadmapStart := 0
    loadmapEnd := 0
    cctStart := 0
    cctEnd := 0
    metTblStart := 0
    metTblEnd := 0
    idtplDxnryStart := 0
    idtplDxnryEnd := 0
    smStart := 0
    smEnd := 32
    footerStart := 32 }
  mode := .opened
  curPos := 0
  startPos := 0
  endPos := 32
  numCctNodes := 1
  cctNodesRead := 1
  metricBytesRead := 8
  curMetricId := 1
  lmBytesRead := 2
  smBlockTouched := 0
  curBlockEnd := 0
  curBlockStart := 0
  numNzval := 0
  numNzCctNodes := 0
  cctNodeIdIdxOffset := 0
  valMidOffset := 0

/-- One node and one metric. -/
def oneMetric : Tables Bool Unit UInt64 where
  nodes := fun id => if id = 2 then some (.singleCtx false true) else none
  metrics := fun mid => if mid = 1 then some ⟨(), 1, false, true⟩ else none
  value := fun _ bits factor => bits * factor

theorem cutSection_reported_iff : ∃ contents, HasContents cutSection contents ∧
    (∀ other, HasContents cutSection other → other = contents) ∧
    (oneMetric.Reports cutSection contents ↔ contents.Sound ∨ oneMetric.RejectsContents contents) :=
  metrics_reported_iff oneMetric cutSection rfl

lemma cutSection_contents : HasContents cutSection ⟨[], true⟩ := by
  have stop : (Raw.hpcrunSparseNextBlock cutSection).1 = none := by decide
  exact .broken (Prod.ext stop rfl)

theorem cutSection_not_reported : ¬ oneMetric.Reports cutSection ⟨[], true⟩ :=
  fun reports => (sound_of_reports oneMetric cutSection_contents (show _ = some [] from rfl) reports).1 rfl

end HpcToolkit.Sources
