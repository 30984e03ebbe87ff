import HpcToolkit.Lib.Tiles
import HpcToolkit.Packed.Attributes
import HpcToolkit.Prof.Accumulators

/-! # Dense identifiers

The finalizer gives every entity the next number of a counter of its kind. A metric takes up as many numbers as it has
scopes and partials for. Each call adds to one atomic counter once, so calls on several threads come one after the other
in some order. A partial is named by `m_idx`, its index among those of the metric.
-/

open List
open UInt32 (toNat_ofNat' toUInt16)

namespace HpcToolkit.Prof.DenseIds

open Lib.IdSpaces Packed

/-- A frozen metric: the bits of its scopes, and its partials. -/
structure Metric where
  scopes : BitVec 4
  partials : List StatisticPartial

/-- `static_cast<int>(ms)`. -/
def scopeNumber : MetricScope → ℕ
  | .point => 0
  | .function => 1
  | .lexAware => 2
  | .execution => 3

/-- `MetricScopeSet::size()`, which is that of the bitset. -/
def scopesSize : ℕ := 4

/-- The scopes that an iteration over the set gives. -/
def Metric.scopeList (m : Metric) : List MetricScope :=
  [.point, .function, .lexAware, .execution].filter fun ms => m.scopes.getLsbD (scopeNumber ms)

structure Identifier where
  metric : Metric
  value : UInt32

namespace Identifier

def getFor (id : Identifier) (ms : MetricScope) : UInt32 := id.value + UInt32.ofNat (scopeNumber ms)

/-- `getFor(part, ms)`, which is added up in 64 bits. -/
def getForPartial (id : Identifier) (part : ℕ) (ms : MetricScope) : UInt32 :=
  (id.value.toUInt64 + UInt64.ofNat part * UInt64.ofNat scopesSize + UInt64.ofNat (scopeNumber ms)).toUInt32

end Identifier

/-- The counters of the finalizer. -/
structure Counters where
  modId : UInt32
  fileId : UInt32
  metId : UInt32
  ctxId : UInt32
  tId : UInt32

def Counters.initial : Counters := ⟨0, 0, 0, 1, 0⟩

/-- What is identified; for a context, whether it has a direct parent. -/
inductive Entity where
  | module
  | file
  | metric (m : Metric)
  | context (directParent : Bool)
  | thread

inductive Identity where
  | id (value : UInt32)
  | metric (identifier : Identifier)

/-- `std::max<size_t>(m.partials().size(), 1) * m.scopes().size()` -/
def Metric.inc (m : Metric) : ℕ := max m.partials.length 1 * scopesSize

def identify (counters : Counters) : Entity → Identity × Counters
  | .module => (.id counters.modId, { counters with modId := counters.modId + 1 })
  | .file => (.id counters.fileId, { counters with fileId := counters.fileId + 1 })
  | .metric m => (.metric ⟨m, counters.metId⟩, { counters with metId := counters.metId + (UInt64.ofNat m.inc).toUInt32 })
  | .context directParent =>
    if !directParent then (.id 0, counters) else (.id counters.ctxId, { counters with ctxId := counters.ctxId + 1 })
  | .thread => (.id counters.tId, { counters with tId := counters.tId + 1 })

/-- The identifiers of the metrics among the entities, which are identified one after the other. -/
def identifiers (counters : Counters) : List Entity → List Identifier
  | [] => []
  | entity :: entities =>
    match identify counters entity with
    | (.id _, counters) => identifiers counters entities
    | (.metric identifier, counters) => identifier :: identifiers counters entities

/-- The ids of all scopes of some metrics. -/
def scopeIds (identifiers : List Identifier) : List UInt32 :=
  identifiers.flatMap fun id => id.metric.scopeList.map id.getFor

/-- The ids of all scopes of all partials of some metrics. -/
def partialIds (identifiers : List Identifier) : List UInt32 :=
  identifiers.flatMap fun id =>
    (range id.metric.partials.length).flatMap fun part => id.metric.scopeList.map (id.getForPartial part)

/-- The metrics among the entities. -/
def metrics (entities : List Entity) : List Metric :=
  entities.filterMap fun
    | .metric m => some m
    | _ => none

/-- The numbers that the ids take up. -/
def idSpace (entities : List Entity) : ℕ := space Metric.inc (metrics entities)

/-! ## Offsets of the ids -/

def Metric.scopeOffsets (m : Metric) : List ℕ := m.scopeList.map scopeNumber

def Metric.partialOffsets (m : Metric) : List ℕ :=
  (range m.partials.length).flatMap fun part => m.scopeList.map fun ms => part * scopesSize + scopeNumber ms

lemma scopeNumber_lt (ms : MetricScope) : scopeNumber ms < scopesSize := by cases ms <;> decide

lemma scopeNumber_injective : Function.Injective scopeNumber := by
  intro ms ms' same
  cases ms <;> cases ms' <;> first | rfl | cases same

section
variable (m : Metric)

lemma Metric.nodup_scopeList : m.scopeList.Nodup := List.Nodup.filter _ (by decide)

lemma Metric.nodup_scopeOffsets : m.scopeOffsets.Nodup := m.nodup_scopeList.map scopeNumber_injective

lemma Metric.scopeOffsets_lt : ∀ o ∈ m.scopeOffsets, o < m.inc := by
  intro o member
  obtain ⟨ms, -, rfl⟩ := mem_map.mp member
  have below := scopeNumber_lt ms
  have inc : 1 * scopesSize ≤ m.inc := Nat.mul_le_mul_right scopesSize (Nat.le_max_right _ _)
  omega

lemma Metric.nodup_partialOffsets : m.partialOffsets.Nodup := by
  refine nodup_flatMap.mpr ⟨fun part _ => ?_, ?_⟩
  · exact m.nodup_scopeList.map fun ms ms' same => scopeNumber_injective (Nat.add_left_cancel same)
  · refine nodup_range.imp fun {part part'} differ => ?_
    intro o member member'
    obtain ⟨ms, -, rfl⟩ := mem_map.mp member
    obtain ⟨ms', -, same⟩ := mem_map.mp member'
    have below := scopeNumber_lt ms
    have below' := scopeNumber_lt ms'
    rw [scopesSize] at below below' same
    omega

lemma Metric.partialOffsets_lt : ∀ o ∈ m.partialOffsets, o < m.inc := by
  intro o member
  obtain ⟨part, inRange, member⟩ := mem_flatMap.mp member
  obtain ⟨ms, -, rfl⟩ := mem_map.mp member
  have below := scopeNumber_lt ms
  have index := mem_range.mp inRange
  have inc : (part + 1) * scopesSize ≤ m.inc :=
    Nat.mul_le_mul_right scopesSize ((Nat.succ_le_of_lt index).trans (Nat.le_max_left _ _))
  rw [Nat.add_mul] at inc
  omega

/-! ## The ids as numbers -/

lemma getFor_ofNat (base : ℕ) (ms : MetricScope) :
    Identifier.getFor ⟨m, UInt32.ofNat base⟩ ms = UInt32.ofNat (base + scopeNumber ms) :=
  (UInt32.ofNat_add base (scopeNumber ms)).symm

lemma getForPartial_ofNat (base part : ℕ) (ms : MetricScope) :
    Identifier.getForPartial ⟨m, UInt32.ofNat base⟩ part ms =
      UInt32.ofNat (base + (part * scopesSize + scopeNumber ms)) := by
  apply UInt32.toNat_inj.mp
  simp only [Identifier.getForPartial, scopesSize, UInt64.toNat_toUInt32, UInt64.toNat_add, UInt64.toNat_mul,
    UInt32.toNat_toUInt64, toNat_ofNat', UInt64.toNat_ofNat']
  omega

end

lemma metId_ofNat (base inc : ℕ) : UInt32.ofNat base + (UInt64.ofNat inc).toUInt32 = UInt32.ofNat (base + inc) := by
  apply UInt32.toNat_inj.mp
  simp only [UInt32.toNat_add, UInt64.toNat_toUInt32, toNat_ofNat', UInt64.toNat_ofNat']
  omega

/-- The identifiers of some metrics, from a base on. -/
def based : ℕ → List Metric → List Identifier
  | _, [] => []
  | base, m :: ms => ⟨m, UInt32.ofNat base⟩ :: based (base + m.inc) ms

lemma identifiers_eq_based {counters : Counters} {base : ℕ} (start : counters.metId = UInt32.ofNat base)
    (entities : List Entity) : identifiers counters entities = based base (metrics entities) := by
  induction entities generalizing counters base with
  | nil => rfl
  | cons entity entities ih =>
    cases entity with
    | metric m =>
      have next : counters.metId + (UInt64.ofNat m.inc).toUInt32 = UInt32.ofNat (base + m.inc) := by
        rw [start]
        exact metId_ofNat base m.inc
      have rest := ih (show Counters.metId { counters with metId := counters.metId + _ } = _ from next)
      change ⟨m, counters.metId⟩ :: identifiers _ entities = ⟨m, UInt32.ofNat base⟩ :: based (base + m.inc) (metrics entities)
      rw [start, ← rest, start]
    | module => exact ih start
    | file => exact ih start
    | context directParent => cases directParent <;> exact ih start
    | thread => exact ih start

variable {offsets : Metric → List ℕ}

lemma flatMap_based {idsOf : Identifier → List UInt32}
    (own : ∀ m base, idsOf ⟨m, UInt32.ofNat base⟩ = (offsets m).map fun o => UInt32.ofNat (base + o)) (base : ℕ)
    (ms : List Metric) : (based base ms).flatMap idsOf = (ids Metric.inc offsets base ms).map UInt32.ofNat := by
  induction ms generalizing base with
  | nil => rfl
  | cons m ms ih => rw [based, flatMap_cons, ih, own, ids, map_append, map_map]; rfl

lemma scopeIds_eq (entities : List Entity) :
    scopeIds (identifiers .initial entities) =
      (ids Metric.inc Metric.scopeOffsets 0 (metrics entities)).map UInt32.ofNat := by
  rw [identifiers_eq_based (show Counters.initial.metId = UInt32.ofNat 0 from rfl), scopeIds]
  refine flatMap_based (fun m base => ?_) 0 _
  rw [Metric.scopeOffsets, map_map]
  exact map_congr_left fun ms _ => getFor_ofNat m base ms

lemma partialIds_eq (entities : List Entity) :
    partialIds (identifiers .initial entities) =
      (ids Metric.inc Metric.partialOffsets 0 (metrics entities)).map UInt32.ofNat := by
  rw [identifiers_eq_based (show Counters.initial.metId = UInt32.ofNat 0 from rfl), partialIds]
  refine flatMap_based (fun m base => ?_) 0 _
  rw [Metric.partialOffsets, map_flatMap]
  refine flatMap_congr fun part _ => ?_
  rw [map_map]
  exact map_congr_left fun ms _ => getForPartial_ofNat m base part ms

lemma nodup_map_ofNat (within : ∀ m, ∀ o ∈ offsets m, o < m.inc)
    (distinct : ∀ m, (offsets m).Nodup) {ms : List Metric} (fits : space Metric.inc ms ≤ 2 ^ 32) :
    ((ids Metric.inc offsets 0 ms).map UInt32.ofNat).Nodup ∧ (space Metric.inc ms ≤ 2 ^ 16 →
      (((ids Metric.inc offsets 0 ms).map UInt32.ofNat).map toUInt16).Nodup) := by
  have below : ∀ id ∈ ids Metric.inc offsets 0 ms, id < space Metric.inc ms := fun id member => by
    simpa using (mem_ids within member).2
  have nodup : (ids Metric.inc offsets 0 ms).Nodup := nodup_ids within distinct
  refine ⟨nodup.map_on fun id member id' member' same => ?_, fun fits' => ?_⟩
  · have number := congrArg UInt32.toNat same
    rwa [UInt32.toNat_ofNat_of_lt' ((below id member).trans_le fits),
      UInt32.toNat_ofNat_of_lt' ((below id' member').trans_le fits)] at number
  · rw [map_map]
    refine nodup.map_on fun id member id' member' same => ?_
    have number := congrArg UInt16.toNat same
    simp only [Function.comp, UInt32.toNat_toUInt16, toNat_ofNat'] at number
    have bound := below id member
    have bound' := below id' member'
    omega

/-- The ids of all metrics are distinct, in whatever order the entities are identified. -/
theorem ids_distinct (entities : List Entity) (fits : idSpace entities ≤ 2 ^ 32) :
    (scopeIds (identifiers .initial entities)).Nodup ∧ (partialIds (identifiers .initial entities)).Nodup ∧
      (idSpace entities ≤ 2 ^ 16 →
        ((scopeIds (identifiers .initial entities)).map toUInt16).Nodup ∧
          ((partialIds (identifiers .initial entities)).map toUInt16).Nodup) := by
  rw [scopeIds_eq, partialIds_eq]
  have scopes := nodup_map_ofNat Metric.scopeOffsets_lt Metric.nodup_scopeOffsets fits
  have partials := nodup_map_ofNat Metric.partialOffsets_lt Metric.nodup_partialOffsets fits
  exact ⟨scopes.1, partials.1, fun narrow => ⟨scopes.2 narrow, partials.2 narrow⟩⟩

/-- A metric of which the sum is presented. -/
def cycles : Metric := ⟨0xF, freeze { sum := true } false⟩

/-- Two metrics of different scopes, between entities of other kinds. -/
theorem two_metrics_distinct :
    (scopeIds (identifiers .initial [.module, .metric ⟨0x9, freeze { mean := true } false⟩, .thread, .metric cycles])).Nodup :=
  (ids_distinct _ (by decide)).1

lemma wrapped_collide {n : ℕ} (full : n * 4 = 2 ^ 32) :
    ¬((ids Metric.inc Metric.scopeOffsets 0 (replicate (n + 1) cycles)).map UInt32.ofNat).Nodup := by
  intro nodup
  have own : 0 ∈ cycles.scopeOffsets := by decide
  have first : 0 ∈ ids Metric.inc Metric.scopeOffsets 0 (replicate (n + 1) cycles) := by
    rw [replicate_succ, ids]
    exact mem_append_left _ (mem_map.mpr ⟨0, own, rfl⟩)
  have last : 2 ^ 32 ∈ ids Metric.inc Metric.scopeOffsets 0 (replicate (n + 1) cycles) := by
    have whole : n * cycles.inc = 2 ^ 32 := full
    rw [replicate_succ', ids_append, space_replicate, whole, ids]
    exact mem_append_right _ (mem_append_left _ (mem_map.mpr ⟨0, own, rfl⟩))
  exact absurd (inj_on_of_nodup_map nodup first last (by decide)) (by decide)

/-- More metrics than there are ids. -/
def tooMany : List Entity := replicate (2 ^ 30 + 1) (.metric cycles)

theorem tooMany_collide : ¬(scopeIds (identifiers .initial tooMany)).Nodup := by
  rw [scopeIds_eq, metrics, tooMany, filterMap_replicate]
  exact wrapped_collide (by decide)

end HpcToolkit.Prof.DenseIds
