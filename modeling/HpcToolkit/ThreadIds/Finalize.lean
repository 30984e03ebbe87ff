import HpcToolkit.Lib.Reachable

/-! # Numbering thread identifiers

An id of a thread's tuple carries its kind, an interpretation of its indices, and a physical and a logical
index. Where the interpretation asks for it, the logical index is generated from a table that hands out the
next number to each physical index it has not seen. There is one table for each kind, and for locally
numbered ids one for each kind below each prefix of kinds and physical indices, found by a key of
16-bit words.
-/

open Function List
open Prod (fst snd)

namespace HpcToolkit.ThreadIds

structure PmsId where
  kind : UInt16
  physicalIndex : UInt64
  logicalIndex : UInt64
deriving DecidableEq

def idtupleInvalid : UInt16 := 65535

def bothValid : UInt16 := 0

def logicLocal : UInt16 := 1

def logicGlobal : UInt16 := 2

def getInterpret (kind : UInt16) : UInt16 := (kind >>> 14) &&& 3

def getKind (kind : UInt16) : UInt16 := kind &&& (((1 : UInt16) <<< (14 : UInt16)) - 1)

def compose (kind intr : UInt16) : UInt16 := (intr <<< 14) ||| kind

@[simp] lemma getKind_getKind (kind : UInt16) : getKind (getKind kind) = getKind kind := by
  rw [getKind, getKind, UInt16.and_assoc, UInt16.and_self]

@[simp] lemma compose_bothValid (kind : UInt16) : compose kind bothValid = kind := by
  rw [compose, bothValid, UInt16.zero_shiftLeft, UInt16.zero_or]

lemma getKind_ne_idtupleInvalid (kind : UInt16) : getKind kind ≠ idtupleInvalid := by
  intro same
  have bound : (getKind kind).toNat ≤ 16383 := by
    rw [getKind, UInt16.toNat_and]
    exact Nat.and_le_right
  rw [same] at bound
  revert bound
  decide

/-! ## Keys -/

/-- The words a physical index contributes, most significant first. -/
def indexWords (p : UInt64) : List UInt16 :=
  [((p >>> 48) &&& 0xffff).toUInt16, ((p >>> 32) &&& 0xffff).toUInt16, ((p >>> 16) &&& 0xffff).toUInt16,
    (p &&& 0xffff).toUInt16]

/-- The key of a locally numbered id: the ids before it, then its kind. -/
def localKey (before : List PmsId) (kind : UInt16) : List UInt16 :=
  before.flatMap (fun id => getKind id.kind :: indexWords id.physicalIndex) ++ [kind]

lemma toNat_word (p : UInt64) (shift : UInt64) (small : shift.toNat < 64) :
    ((p >>> shift) &&& 0xffff).toUInt16.toNat = p.toNat / 2 ^ shift.toNat % 2 ^ 16 := by
  have mask : (0xffff : UInt64).toNat = 2 ^ 16 - 1 := rfl
  rw [UInt64.toNat_toUInt16, UInt64.toNat_and, UInt64.toNat_shiftRight, mask, Nat.and_two_pow_sub_one_eq_mod,
    Nat.mod_mod, Nat.mod_eq_of_lt small, Nat.shiftRight_eq_div_pow]

lemma toNat_of_words (p : UInt64) : p.toNat = p.toNat / 2 ^ 48 % 2 ^ 16 * 2 ^ 48 + p.toNat / 2 ^ 32 % 2 ^ 16 * 2 ^ 32 +
    p.toNat / 2 ^ 16 % 2 ^ 16 * 2 ^ 16 + p.toNat / 2 ^ 0 % 2 ^ 16 := by
  have bound := p.toNat_lt
  omega

lemma indexWords_injective : Injective indexWords := by
  intro p q same
  have low := toNat_word p 0 (by decide)
  have low' := toNat_word q 0 (by decide)
  rw [UInt64.shiftRight_zero] at low low'
  simp only [indexWords, cons.injEq, and_true, ← UInt16.toNat_inj, toNat_word _ 48 (by decide),
    toNat_word _ 32 (by decide), toNat_word _ 16 (by decide), low, low', UInt64.reduceToNat] at same
  obtain ⟨high, third, second, low⟩ := same
  refine UInt64.toNat_inj.mp ?_
  rw [toNat_of_words p, toNat_of_words q, high, third, second, low]

/-- What a key is about: the kinds and physical indices of the ids before. -/
def prefixOf (before : List PmsId) : List (UInt16 × UInt64) :=
  before.map fun id => (getKind id.kind, id.physicalIndex)

lemma localKey_inj {before before' : List PmsId} {kind kind' : UInt16} :
    localKey before kind = localKey before' kind' ↔ prefixOf before = prefixOf before' ∧ kind = kind' := by
  induction before generalizing before' with
  | nil =>
    cases before' with
    | nil => simp [localKey, prefixOf]
    | cons id' rest' => simp [localKey, prefixOf, indexWords]
  | cons id rest ih =>
    cases before' with
    | nil => simp [localKey, prefixOf, indexWords]
    | cons id' rest' =>
      have unfold : ∀ (id : PmsId) rest kind, localKey (id :: rest) kind =
          (getKind id.kind :: indexWords id.physicalIndex) ++ localKey rest kind := by
        intro id rest kind
        rw [localKey, flatMap_cons, append_assoc, localKey]
      have words : (getKind id.kind :: indexWords id.physicalIndex).length =
          (getKind id'.kind :: indexWords id'.physicalIndex).length := rfl
      rw [unfold, unfold, prefixOf, prefixOf, map_cons, map_cons]
      constructor
      · intro same
        obtain ⟨head, tail⟩ := append_inj same words
        obtain ⟨kindEq, indexEq⟩ := cons.inj head
        obtain ⟨restEq, last⟩ := ih.mp tail
        exact ⟨by rw [kindEq, indexWords_injective indexEq]; exact congrArg _ restEq, last⟩
      · rintro ⟨same, last⟩
        obtain ⟨head, tail⟩ := cons.inj same
        obtain ⟨kindEq, indexEq⟩ := Prod.mk.inj head
        rw [kindEq, indexEq, ih.mpr ⟨tail, last⟩]

/-! ## Tables -/

/-- `CountingLookupMap`: the pairs of the map in the order of their insertion. Each value is the size of the
map when its key was inserted. -/
structure CountingLookupMap where
  entries : List (UInt64 × UInt64)
  distinct : (entries.map fst).Nodup
  counted : entries.map snd = (range entries.length).map UInt64.ofNat

namespace CountingLookupMap

def empty : CountingLookupMap := ⟨[], nodup_nil, rfl⟩

def find (m : CountingLookupMap) (k : UInt64) : Option UInt64 :=
  (m.entries.find? fun entry => entry.1 == k).map snd

lemma find_eq_none {m : CountingLookupMap} {k : UInt64} : m.find k = none ↔ ∀ v, (k, v) ∉ m.entries := by
  simp only [find, Option.map_eq_none_iff, find?_eq_none, beq_iff_eq]
  constructor
  · exact fun absent v member => absent (k, v) member rfl
  · rintro absent ⟨k', v⟩ member rfl
    exact absent v member

/-- `map.insert({k, map.size()})` for a new key. -/
def insert (m : CountingLookupMap) (k : UInt64) (absent : m.find k = none) : CountingLookupMap where
  entries := m.entries ++ [(k, .ofNat m.entries.length)]
  distinct := by
    rw [map_append, nodup_append]
    refine ⟨m.distinct, nodup_singleton _, ?_⟩
    rintro k' member last inLast rfl
    obtain ⟨⟨k', v⟩, inMap, rfl⟩ := mem_map.mp member
    cases mem_singleton.mp inLast
    exact find_eq_none.mp absent v inMap
  counted := by
    rw [map_append, m.counted, length_append, length_singleton, range_succ, map_append]
    rfl

def get (m : CountingLookupMap) (k : UInt64) : CountingLookupMap × UInt64 :=
  match found : m.find k with
  | some v => (m, v)
  | none => (m.insert k found, .ofNat m.entries.length)

variable {m : CountingLookupMap} {k k' v v' : UInt64}

variable {pair : UInt64 × UInt64}

lemma mem_get :
    pair ∈ (m.get k).1.entries ↔ pair ∈ m.entries ∨ pair = (k, (m.get k).2) := by
  unfold get
  split
  · next v found =>
    refine ⟨.inl, Or.rec id ?_⟩
    rintro rfl
    obtain ⟨⟨k', v'⟩, inMap, rfl⟩ := Option.map_eq_some_iff.mp found
    have same : k' = k := by simpa using find?_some inMap
    exact same ▸ mem_of_find?_eq_some inMap
  · simp [insert]

lemma mem_get_of_mem (member : pair ∈ m.entries) : pair ∈ (m.get k).1.entries :=
  mem_get.mpr (.inl member)

lemma get_mem : (k, (m.get k).2) ∈ (m.get k).1.entries := mem_get.mpr (.inr rfl)

lemma length_le (m : CountingLookupMap) : m.entries.length ≤ 2 ^ 64 := by
  have words : ((m.entries.map fst).map UInt64.toNat).Nodup :=
    m.distinct.map fun p q same => UInt64.toNat_inj.mp same
  have below : (m.entries.map fst).map UInt64.toNat ⊆ range (2 ^ 64) := by
    intro n member
    obtain ⟨p, -, rfl⟩ := mem_map.mp member
    exact mem_range.mpr p.toNat_lt
  have le := (subperm_of_subset words below).length_le
  rwa [length_map, length_map, length_range] at le

lemma values_nodup : (m.entries.map snd).Nodup := by
  rw [m.counted]
  refine (nodup_map_iff_inj_on nodup_range).mpr fun i memI j memJ same => ?_
  have boundI := (mem_range.mp memI).trans_le m.length_le
  have boundJ := (mem_range.mp memJ).trans_le m.length_le
  rw [← UInt64.toNat_inj, UInt64.toNat_ofNat_of_lt' boundI, UInt64.toNat_ofNat_of_lt' boundJ] at same
  exact same

lemma key_eq_iff (here : (k, v) ∈ m.entries) (there : (k', v') ∈ m.entries) : k = k' ↔ v = v' := by
  constructor
  · intro same
    have entry := inj_on_of_nodup_map m.distinct here there same
    exact (Prod.mk.inj entry).2
  · intro same
    have entry := inj_on_of_nodup_map values_nodup here there same
    exact (Prod.mk.inj entry).1

lemma mem_values {n : ℕ} : (∃ p v, (p, v) ∈ m.entries ∧ v.toNat = n) ↔ n < m.entries.length := by
  have values : (∃ p v, (p, v) ∈ m.entries ∧ v.toNat = n) ↔ ∃ v ∈ m.entries.map snd, v.toNat = n := by
    simp only [mem_map, Prod.exists]
    exact ⟨fun ⟨p, v, member, same⟩ => ⟨v, ⟨p, v, member, rfl⟩, same⟩,
      fun ⟨v, ⟨p, v', member, eq⟩, same⟩ => ⟨p, v', member, eq ▸ same⟩⟩
  rw [values, m.counted]
  simp only [mem_map, mem_range]
  constructor
  · rintro ⟨v, ⟨i, below, rfl⟩, same⟩
    rw [UInt64.toNat_ofNat_of_lt' (below.trans_le m.length_le)] at same
    exact same ▸ below
  · intro below
    exact ⟨.ofNat n, ⟨n, below, rfl⟩, UInt64.toNat_ofNat_of_lt' (below.trans_le m.length_le)⟩

end CountingLookupMap

end HpcToolkit.ThreadIds

/-! # Finalizing thread attributes over all ranks

Each `ThreadAttributes::finalize` call walks over the ids of its tuple. The tables are on rank 0. A call there uses
them directly. A call on another rank holds the lock of its rank while it sends its query, one message after the
other, and waits for the number; the server thread of rank 0 receives a first message from any rank and the
rest from the same one. Messages between two ranks arrive in order.
-/

namespace HpcToolkit.ThreadIds

open Lib

inductive MapKey where
  | globalIdx (kind : UInt16)
  | localIdx (key : List UInt16)
deriving DecidableEq

/-- The table that numbers the `i`-th id of a tuple, unless its logical index is given. -/
def keyOf (ids : List PmsId) (i : ℕ) : Option MapKey :=
  match ids[i]? with
  | none => none
  | some id =>
    if getInterpret id.kind = logicGlobal then some (.globalIdx (getKind id.kind))
    else if getInterpret id.kind = logicLocal then some (.localIdx (localKey (ids.take i) (getKind id.kind)))
    else none

/-- One `mpi::send` with the tag of the query; a vector is sent as its size and its words. -/
inductive Message where
  | kind (k : UInt16)
  | size (n : ℕ)
  | words (key : List UInt16)
  | index (p : UInt64)
deriving DecidableEq

/-- The messages of a query, in order. -/
def query (key : MapKey) (p : UInt64) : List Message :=
  match key with
  | .globalIdx kind => [.kind kind, .index p]
  | .localIdx key => [.kind idtupleInvalid, .size key.length, .words key, .index p]

/-- Where a call is: at the head of its loop, or inside a query with messages still to send. After the last
message it waits for the reply. -/
inductive Pc where
  | scan
  | sending (rest : List Message)
deriving DecidableEq

/-- A `finalize` call: the tuple it works on, and the position of its loop. -/
structure Call where
  ids : List PmsId
  pos : ℕ
  pc : Pc

/-- The server thread, between two receives or before its reply. -/
inductive Server where
  | idle
  | wantSize (src : ℕ)
  | wantWords (src n : ℕ)
  | wantIndex (src : ℕ) (key : MapKey)
  | reply (src : ℕ) (v : UInt64)

/-- The rank that is being served. -/
def Server.src : Server → Option ℕ
  | idle => none
  | wantSize src => some src
  | wantWords src _ => some src
  | wantIndex src _ => some src
  | reply src _ => some src

variable {τ : Type} [DecidableEq τ]

/-- The calls of all threads, the tables, and for each rank its lock and its messages to and from rank 0. -/
structure State (τ : Type) where
  calls : τ → Call
  tables : MapKey → CountingLookupMap
  mpilock : ℕ → Option τ
  toServer : ℕ → List Message
  fromServer : ℕ → List UInt64
  server : Server

inductive Act (τ : Type) where
  | thread (t : τ)
  | server (src : ℕ)

/-- `id.logical_index = v; id.kind = IDTUPLE_COMPOSE(kind, IDTUPLE_IDS_BOTH_VALID)`, and on to the next id. -/
def Call.assign (call : Call) (v : UInt64) : Call where
  ids := call.ids.modify call.pos fun id => { id with kind := compose (getKind id.kind) bothValid, logicalIndex := v }
  pos := call.pos + 1
  pc := .scan

def State.setCall (s : State τ) (t : τ) (call : Call) : State τ :=
  { s with calls := update s.calls t call }

/-- One step of the call of thread `t` on rank `rank`. -/
def threadStep (rank : ℕ) (s : State τ) (t : τ) : Option (State τ) :=
  let call := s.calls t
  match call.pc with
  | .scan =>
    match call.ids[call.pos]? with
    | none => none
    | some id =>
      match keyOf call.ids call.pos with
      | none => some (s.setCall t { call with pos := call.pos + 1 })
      | some key =>
        if rank = 0 then
          let (table, v) := (s.tables key).get id.physicalIndex
          some { s.setCall t (call.assign v) with tables := update s.tables key table }
        else
          match s.mpilock rank with
          | some _ => none
          | none =>
            some { s.setCall t { call with pc := .sending (query key id.physicalIndex) } with
              mpilock := update s.mpilock rank (some t) }
  | .sending (m :: rest) =>
    some { s.setCall t { call with pc := .sending rest } with
      toServer := update s.toServer rank (s.toServer rank ++ [m]) }
  | .sending [] =>
    match s.fromServer rank with
    | [] => none
    | v :: more =>
      some { s.setCall t (call.assign v) with
        fromServer := update s.fromServer rank more
        mpilock := update s.mpilock rank none }

/-- One step of the server; when idle it may receive from any rank with a message. -/
def serverStep (s : State τ) (src : ℕ) : Option (State τ) :=
  match s.server with
  | .idle =>
    match s.toServer src with
    | .kind k :: more =>
      some { s with
        toServer := update s.toServer src more
        server := if k = idtupleInvalid then .wantSize src else .wantIndex src (.globalIdx k) }
    | _ => none
  | .wantSize src =>
    match s.toServer src with
    | .size n :: more =>
      some { s with toServer := update s.toServer src more, server := .wantWords src n }
    | _ => none
  | .wantWords src n =>
    match s.toServer src with
    | .words key :: more =>
      if key.length = n then
        some { s with toServer := update s.toServer src more, server := .wantIndex src (.localIdx key) }
      else none
    | _ => none
  | .wantIndex src key =>
    match s.toServer src with
    | .index p :: more =>
      let (table, v) := (s.tables key).get p
      some { s with
        toServer := update s.toServer src more
        tables := update s.tables key table
        server := .reply src v }
    | _ => none
  | .reply src v =>
    some { s with fromServer := update s.fromServer src (s.fromServer src ++ [v]), server := .idle }

/-- One step of any party; `ranks` places the threads. -/
def step (ranks : τ → ℕ) (s : State τ) : Act τ → Option (State τ)
  | .thread t => threadStep (ranks t) s t
  | .server src => serverStep s src

/-- Before any call: the tuples as they were read, empty tables, no messages. -/
def initial (tuples : τ → List PmsId) : State τ where
  calls t := ⟨tuples t, 0, .scan⟩
  tables _ := .empty
  mpilock _ := none
  toServer _ := []
  fromServer _ := []
  server := .idle

/-- All calls have returned. -/
def State.Finished (s : State τ) : Prop := ∀ t, (s.calls t).pc = .scan ∧ (s.calls t).ids.length ≤ (s.calls t).pos

/-! ## Positions and keys -/

lemma keyOf_congr {ids ids' : List PmsId} {i : ℕ} (here : ids[i]? = ids'[i]?)
    (before : prefixOf (ids.take i) = prefixOf (ids'.take i)) : keyOf ids i = keyOf ids' i := by
  rw [keyOf, keyOf, here]
  cases ids'[i]? with
  | none => rfl
  | some id => simp only [localKey_inj.mpr ⟨before, rfl⟩]

lemma kind_ne_of_keyOf {ids : List PmsId} {i : ℕ} {kind : UInt16} (keyed : keyOf ids i = some (.globalIdx kind)) :
    kind ≠ idtupleInvalid := by
  unfold keyOf at keyed
  split at keyed
  · cases keyed
  · next id _ =>
    split at keyed
    · cases keyed
      exact getKind_ne_idtupleInvalid id.kind
    · split at keyed
      · cases keyed
      · cases keyed

end HpcToolkit.ThreadIds
