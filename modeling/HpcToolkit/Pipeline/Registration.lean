import Mathlib.Data.Finset.Union
import Mathlib.Logic.Function.Basic
import Mathlib.Tactic.Common

/-! # Binding sinks to a pipeline

The constructor of the pipeline binds its sinks one after another. While it is bound, a sink may register for
ordered wavefronts and for ordered writes. Each chain has a pointer to the sink that registered last, and the
chain of wavefronts also has the classes of all sinks in it.
-/

open Function List

namespace HpcToolkit.Pipeline

/-- The classes of data that a `DataClass` is a set of. -/
inductive Data where
  | attributes
  | threads
  | references
  | metrics
  | contexts
  | ctxTimepoints
  | metricTimepoints
deriving DecidableEq

abbrev DataClass := Finset Data

/-- A call of `registerOrderedWavefront` or `registerOrderedWrite`. -/
inductive Registration where
  | wavefront
  | write
deriving DecidableEq

/-! ## Settings -/

/-- What a sink answers, and what it registers for in `notifyPipeline`. -/
structure SinkSetup where
  accepts : DataClass
  wavefronts : DataClass
  registers : List Registration

/-- `Settings::operator<<` for a sink: some classes come with others. -/
def SinkSetup.dataLimit (s : SinkSetup) : DataClass :=
  let acc := s.accepts
  let acc := if .metrics ∈ acc then acc ∪ {.attributes, .threads} else acc
  let acc := if .contexts ∈ acc then acc ∪ {.references} else acc
  let acc := if .ctxTimepoints ∈ acc then acc ∪ {.contexts, .threads} else acc
  if .metricTimepoints ∈ acc then acc ∪ {.attributes, .threads} else acc

def SinkSetup.waveLimit (s : SinkSetup) : DataClass := s.dataLimit ∩ s.wavefronts

/-- The sinks, and the classes that each source provides. -/
structure Setup where
  sinks : List SinkSetup
  sources : List DataClass

namespace Setup
variable (setup : Setup)

def waveLimit (i : ℕ) : DataClass := (setup.sinks[i]?.map SinkSetup.waveLimit).getD ∅

def registers (i : ℕ) : List Registration := (setup.sinks[i]?.map SinkSetup.registers).getD []

def allRequested : DataClass := setup.sinks.foldl (fun all s => all ∪ s.dataLimit) ∅

/-- The waves that some sink requests. -/
def requestedWaves : DataClass := (Finset.range setup.sinks.length).biUnion setup.waveLimit

def scheduled : DataClass := setup.sources.foldl (· ∪ ·) ∅ ∩ setup.allRequested

def unscheduledWaves : DataClass := setup.requestedWaves \ setup.scheduled

def scheduledWaves : DataClass := setup.requestedWaves ∩ setup.scheduled

end Setup

/-! ## Registration -/

/-- What `SinkEntry` has for the wavefronts. -/
structure SinkEntry where
  waveLimit : DataClass
  wavefrontPriorDelay : DataClass := ∅

/-- `Sink`; a chain pointer that is `size_t`'s maximum is `none`. -/
structure Sink where
  orderedWavefront : Bool := false
  priorWavefrontDepOnce : Option ℕ := none
  orderedWrite : Bool := false
  priorWriteDepOnce : Option ℕ := none

/-- `ProfilePipeline`, as far as the chains go. -/
structure Pipe where
  entries : ℕ → SinkEntry
  sinks : ℕ → Sink
  sinkWavefrontDepChain : Option ℕ := none
  sinkWavefrontDepClasses : DataClass := ∅
  sinkWriteDepChain : Option ℕ := none

def registerOrderedWavefront (pipe : Pipe) (idx : ℕ) : Pipe :=
  if (pipe.sinks idx).orderedWavefront then pipe else
    { pipe with
      sinks := update pipe.sinks idx { pipe.sinks idx with
        orderedWavefront := true
        priorWavefrontDepOnce := pipe.sinkWavefrontDepChain }
      entries := update pipe.entries idx { pipe.entries idx with
        wavefrontPriorDelay := pipe.sinkWavefrontDepClasses }
      sinkWavefrontDepClasses := pipe.sinkWavefrontDepClasses ∪ (pipe.entries idx).waveLimit
      sinkWavefrontDepChain := some idx }

def registerOrderedWrite (pipe : Pipe) (idx : ℕ) : Pipe :=
  if (pipe.sinks idx).orderedWrite then pipe else
    { pipe with
      sinks := update pipe.sinks idx { pipe.sinks idx with orderedWrite := true }
      sinkWriteDepChain := some idx }

def register (idx : ℕ) (pipe : Pipe) : Registration → Pipe
  | .wavefront => registerOrderedWavefront pipe idx
  | .write => registerOrderedWrite pipe idx

/-- The loop of the constructor that binds the sinks. -/
def Setup.bind (setup : Setup) : ℕ → Pipe
  | 0 => ⟨fun i => ⟨setup.waveLimit i, ∅⟩, fun _ => {}, none, ∅, none⟩
  | idx + 1 => (setup.registers idx).foldl (register idx) (setup.bind idx)

def Setup.pipe (setup : Setup) : Pipe := setup.bind setup.sinks.length

/-! ## The chains -/

/-- A sink has registered when the first `idx` sinks are bound and the next one has made some calls. -/
def Setup.Registered (setup : Setup) (idx : ℕ) (calls : List Registration) (call : Registration) (i : ℕ) : Prop :=
  i < idx ∧ call ∈ setup.registers i ∨ i = idx ∧ call ∈ calls

/-- The classes of the sinks that registered for ordered wavefronts before a sink. -/
def Setup.delayed (setup : Setup) (i : ℕ) : DataClass :=
  ((Finset.range i).filter fun j => .wavefront ∈ setup.registers j).biUnion setup.waveLimit

/-- The chains, when some sinks are bound and the next one has made some calls. -/
structure Setup.Chains (setup : Setup) (idx : ℕ) (calls : List Registration) (pipe : Pipe) : Prop where
  waveLimit : ∀ i, (pipe.entries i).waveLimit = setup.waveLimit i
  wavefront : ∀ i, (pipe.sinks i).orderedWavefront = true ↔ setup.Registered idx calls .wavefront i
  classes : pipe.sinkWavefrontDepClasses = setup.delayed idx ∪ if .wavefront ∈ calls then setup.waveLimit idx else ∅
  delay : ∀ i, setup.Registered idx calls .wavefront i → (pipe.entries i).wavefrontPriorDelay = setup.delayed i
  noDelay : ∀ i, ¬ setup.Registered idx calls .wavefront i → (pipe.entries i).wavefrontPriorDelay = ∅
  write : ∀ i, (pipe.sinks i).orderedWrite = true ↔ setup.Registered idx calls .write i
  priorWrite : ∀ i, (pipe.sinks i).priorWriteDepOnce = none

section
variable {setup : Setup} {idx : ℕ} {calls : List Registration} {pipe : Pipe}

variable {call : Registration} {i : ℕ}

lemma Setup.registered_append_self :
    setup.Registered idx (calls ++ [call]) call i ↔ setup.Registered idx calls call i ∨ i = idx := by
  simp only [Registered, mem_append, mem_singleton]
  tauto

lemma Setup.registered_append_of_ne {call other : Registration} (different : other ≠ call) :
    setup.Registered idx (calls ++ [call]) other i ↔ setup.Registered idx calls other i := by
  simp [Registered, different]

lemma Setup.Chains.again (chains : setup.Chains idx calls pipe) (made : call ∈ calls) :
    setup.Chains idx (calls ++ [call]) pipe := by
  have same : ∀ c, c ∈ calls ++ [call] ↔ c ∈ calls := by
    intro c
    simp only [mem_append, mem_singleton, or_iff_left_iff_imp]
    rintro rfl
    exact made
  obtain ⟨waveLimit, wavefront, classes, delay, noDelay, write, priorWrite⟩ := chains
  simp only [Registered] at wavefront delay noDelay write
  constructor <;> simpa only [Registered, same]

lemma Setup.Registered.of_self (registered : setup.Registered idx calls call idx) :
    call ∈ calls := by
  rcases registered with ⟨absurdly, -⟩ | ⟨-, made⟩
  · exact absurd absurdly (Nat.lt_irrefl idx)
  · exact made

section
variable (chains : setup.Chains idx calls pipe)
include chains

lemma Setup.Chains.registerOrderedWrite :
    setup.Chains idx (calls ++ [.write]) (registerOrderedWrite pipe idx) := by
  rw [Pipeline.registerOrderedWrite]
  split
  · rename_i ordered
    exact chains.again ((chains.write idx).mp ordered).of_self
  · have wavefronts : ∀ i, setup.Registered idx (calls ++ [.write]) .wavefront i ↔
        setup.Registered idx calls .wavefront i := fun i => registered_append_of_ne (by decide)
    refine ⟨chains.waveLimit, fun i => ?_, ?_, fun i => ?_, fun i => ?_, fun i => ?_, fun i => ?_⟩
    · rw [wavefronts, ← chains.wavefront]
      by_cases same : i = idx
      · subst same
        simp
      · simp [same]
    · simpa using chains.classes
    · rw [wavefronts]
      exact chains.delay i
    · rw [wavefronts]
      exact chains.noDelay i
    · rw [registered_append_self, ← chains.write]
      by_cases same : i = idx
      · subst same
        simp
      · simp [same]
    · by_cases same : i = idx
      · subst same
        simp [chains.priorWrite]
      · simp [same, chains.priorWrite]

lemma Setup.Chains.registerOrderedWavefront :
    setup.Chains idx (calls ++ [.wavefront]) (registerOrderedWavefront pipe idx) := by
  rw [Pipeline.registerOrderedWavefront]
  split
  · rename_i ordered
    exact chains.again ((chains.wavefront idx).mp ordered).of_self
  · rename_i unordered
    have first : .wavefront ∉ calls := fun made => unordered ((chains.wavefront idx).mpr (.inr ⟨rfl, made⟩))
    have classes := chains.classes
    rw [if_neg first, Finset.union_empty] at classes
    refine ⟨fun i => ?_, fun i => ?_, ?_, fun i => ?_, fun i => ?_, fun i => ?_, fun i => ?_⟩
    · by_cases same : i = idx
      · subst same
        simp [chains.waveLimit]
      · simp [same, chains.waveLimit]
    · rw [registered_append_self, ← chains.wavefront]
      by_cases same : i = idx
      · subst same
        simp
      · simp [same]
    · simp [classes, chains.waveLimit]
    · rw [registered_append_self]
      by_cases same : i = idx
      · subst same
        simp [classes]
      · simpa [same] using chains.delay i
    · rw [registered_append_self]
      by_cases same : i = idx
      · simp [same]
      · simpa [same] using chains.noDelay i
    · rw [registered_append_of_ne (by decide), ← chains.write]
      by_cases same : i = idx
      · subst same
        simp
      · simp [same]
    · by_cases same : i = idx
      · subst same
        simp [chains.priorWrite]
      · simp [same, chains.priorWrite]

lemma Setup.Chains.register (call : Registration) :
    setup.Chains idx (calls ++ [call]) (register idx pipe call) := by
  cases call with
  | wavefront => exact chains.registerOrderedWavefront
  | write => exact chains.registerOrderedWrite

lemma Setup.Chains.foldl (more : List Registration) :
    setup.Chains idx (calls ++ more) (more.foldl (Pipeline.register idx) pipe) := by
  induction more generalizing calls pipe with
  | nil => simpa using chains
  | cons call more hypothesis =>
    have later := hypothesis (chains.register call)
    rwa [append_assoc] at later

end

lemma Setup.registered_succ :
    setup.Registered idx (setup.registers idx) call i ↔ setup.Registered (idx + 1) [] call i := by
  simp only [Registered, Nat.lt_succ_iff_lt_or_eq, not_mem_nil, and_false, or_false]
  constructor
  · rintro (⟨earlier, made⟩ | ⟨rfl, made⟩)
    · exact ⟨.inl earlier, made⟩
    · exact ⟨.inr rfl, made⟩
  · rintro ⟨earlier | rfl, made⟩
    · exact .inl ⟨earlier, made⟩
    · exact .inr ⟨rfl, made⟩

lemma Setup.delayed_succ : setup.delayed (idx + 1) =
    setup.delayed idx ∪ if .wavefront ∈ setup.registers idx then setup.waveLimit idx else ∅ := by
  rw [delayed, Finset.range_add_one, Finset.filter_insert]
  split
  · rw [Finset.biUnion_insert, Finset.union_comm, delayed]
  · rw [Finset.union_empty, delayed]

lemma Setup.Chains.next (chains : setup.Chains idx (setup.registers idx) pipe) :
    setup.Chains (idx + 1) [] pipe where
  waveLimit := chains.waveLimit
  wavefront i := (chains.wavefront i).trans registered_succ
  classes := by rw [chains.classes, delayed_succ, if_neg not_mem_nil, Finset.union_empty]
  delay i registered := chains.delay i (registered_succ.mpr registered)
  noDelay i unregistered := chains.noDelay i fun registered => unregistered (registered_succ.mp registered)
  write i := (chains.write i).trans registered_succ
  priorWrite := chains.priorWrite

lemma Setup.chains_bind (setup : Setup) (idx : ℕ) : setup.Chains idx [] (setup.bind idx) := by
  induction idx with
  | zero => constructor <;> simp [Setup.bind, Registered, delayed]
  | succ idx hypothesis =>
    have calls := hypothesis.foldl (setup.registers idx)
    rw [nil_append] at calls
    exact calls.next

lemma Setup.registered_iff :
    setup.Registered setup.sinks.length [] call i ↔ call ∈ setup.registers i := by
  simp only [Registered, not_mem_nil, and_false, or_false, and_iff_right_iff_imp]
  intro made
  by_contra outside
  rw [registers, getElem?_eq_none (not_lt.mp outside)] at made
  cases made

end

lemma Setup.priorWriteDepOnce_eq (setup : Setup) (i : ℕ) : (setup.pipe.sinks i).priorWriteDepOnce = none :=
  (setup.chains_bind _).priorWrite i

lemma Setup.orderedWrite_iff (setup : Setup) (i : ℕ) :
    (setup.pipe.sinks i).orderedWrite = true ↔ .write ∈ setup.registers i :=
  ((setup.chains_bind _).write i).trans registered_iff

lemma Setup.waveLimit_pipe (setup : Setup) (i : ℕ) : (setup.pipe.entries i).waveLimit = setup.waveLimit i :=
  (setup.chains_bind _).waveLimit i

lemma Setup.wavefrontPriorDelay_eq (setup : Setup) (i : ℕ) : (setup.pipe.entries i).wavefrontPriorDelay =
    if .wavefront ∈ setup.registers i then setup.delayed i else ∅ := by
  split
  · rename_i made
    exact (setup.chains_bind _).delay i (registered_iff.mpr made)
  · rename_i unmade
    exact (setup.chains_bind _).noDelay i fun registered => unmade (registered_iff.mp registered)

end HpcToolkit.Pipeline
