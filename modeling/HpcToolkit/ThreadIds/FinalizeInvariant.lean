import HpcToolkit.ThreadIds.Finalize

/-! # What holds while attributes are finalized

The ids before a call's position are numbered by entries of the tables, the others are as they were read. A
thread inside a query holds the lock of its rank, and what it has still to send, what is under way, and what the
server has received make up the messages of its query. Every entry of a table was asked for by some call.
-/

open Function
open List hiding getElem?_eq_some_iff

namespace HpcToolkit.ThreadIds

open Lib

variable {τ : Type} [DecidableEq τ]

/-! ## One call -/

/-- What becomes of an id: a generated index is one that the table has for its physical index. -/
def Numbered (tables : MapKey → CountingLookupMap) (key : Option MapKey) (before after : PmsId) : Prop :=
  match key with
  | none => after = before
  | some key => after.kind = compose (getKind before.kind) bothValid ∧ after.physicalIndex = before.physicalIndex ∧
      (before.physicalIndex, after.logicalIndex) ∈ (tables key).entries

/-- The tuple of a call in progress, compared with the tuple it started from. -/
structure CallOk (tables : MapKey → CountingLookupMap) (original : List PmsId) (call : Call) : Prop where
  length : call.ids.length = original.length
  done : ∀ i < call.pos, ∀ before, original[i]? = some before →
    ∃ after, call.ids[i]? = some after ∧ Numbered tables (keyOf original i) before after
  rest : ∀ i, call.pos ≤ i → call.ids[i]? = original[i]?

/-- Tables only grow. -/
def Grows (tables tables' : MapKey → CountingLookupMap) : Prop :=
  ∀ key pair, pair ∈ (tables key).entries → pair ∈ (tables' key).entries

section
variable {tables tables' : MapKey → CountingLookupMap} {original : List PmsId} {call : Call}

lemma grows_get (key : MapKey) (p : UInt64) :
    Grows tables (update tables key ((tables key).get p).1) := by
  intro key' pair member
  rcases eq_or_ne key' key with rfl | other
  · rw [update_self]
    exact CountingLookupMap.mem_get_of_mem member
  · rwa [update_of_ne other]

lemma mem_update_get {key key' : MapKey} {p : UInt64} {pair : UInt64 × UInt64}
    (member : pair ∈ (update tables key ((tables key).get p).1 key').entries) :
    pair ∈ (tables key').entries ∨ key' = key ∧ pair.1 = p := by
  rcases eq_or_ne key' key with rfl | other
  · rw [update_self] at member
    exact (CountingLookupMap.mem_get.mp member).imp id fun same => ⟨rfl, by rw [same]⟩
  · rw [update_of_ne other] at member
    exact .inl member

lemma Grows.refl : Grows tables tables := fun _ _ member => member

variable {before after : PmsId}

lemma Numbered.grows (grows : Grows tables tables') {key : Option MapKey}
    (numbered : Numbered tables key before after) : Numbered tables' key before after := by
  cases key with
  | none => exact numbered
  | some key => exact ⟨numbered.1, numbered.2.1, grows _ _ numbered.2.2⟩

lemma CallOk.grows (ok : CallOk tables original call) (grows : Grows tables tables') : CallOk tables' original call where
  length := ok.length
  done i below before found :=
    let ⟨after, here, numbered⟩ := ok.done i below before found
    ⟨after, here, numbered.grows grows⟩
  rest := ok.rest

lemma Numbered.kept {key : Option MapKey} (numbered : Numbered tables key before after) :
    getKind after.kind = getKind before.kind ∧ after.physicalIndex = before.physicalIndex := by
  cases key with
  | none =>
    obtain rfl : after = before := numbered
    exact ⟨rfl, rfl⟩
  | some key =>
    obtain ⟨kind, index, -⟩ := numbered
    exact ⟨by rw [kind, compose_bothValid, getKind_getKind], index⟩

lemma CallOk.prefixOf_take (ok : CallOk tables original call) :
    prefixOf (call.ids.take call.pos) = prefixOf (original.take call.pos) := by
  refine ext_getElem? fun i => ?_
  simp only [prefixOf, getElem?_map, getElem?_take]
  split
  · next below =>
    cases found : original[i]? with
    | none =>
      have outside := getElem?_eq_none_iff.mp found
      rw [getElem?_eq_none_iff.mpr (ok.length.trans_le outside)]
    | some before =>
      obtain ⟨after, here, numbered⟩ := ok.done i below before found
      rw [here, Option.map_some, Option.map_some, numbered.kept.1, numbered.kept.2]
  · rfl

lemma CallOk.keyOf_pos (ok : CallOk tables original call) : keyOf call.ids call.pos = keyOf original call.pos :=
  keyOf_congr (ok.rest _ le_rfl) ok.prefixOf_take

lemma CallOk.skip (ok : CallOk tables original call) (given : keyOf original call.pos = none) (pc : Pc) :
    CallOk tables original ⟨call.ids, call.pos + 1, pc⟩ where
  length := ok.length
  done i below before found := by
    rcases Nat.lt_succ_iff_lt_or_eq.mp below with earlier | rfl
    · exact ok.done i earlier before found
    · refine ⟨before, (ok.rest _ le_rfl).trans found, ?_⟩
      rw [given]
      rfl
  rest i later := ok.rest i (Nat.le_of_succ_le later)

lemma Call.getElem?_assign_of_ne (v : UInt64) {i : ℕ} (differ : i ≠ call.pos) :
    (call.assign v).ids[i]? = call.ids[i]? := by
  simp only [Call.assign, getElem?_modify, if_neg differ.symm]
  cases call.ids[i]? <;> rfl

lemma Call.getElem?_assign_pos (call : Call) (v : UInt64) : (call.assign v).ids[call.pos]? =
    call.ids[call.pos]?.map fun id =>
      { id with kind := compose (getKind id.kind) bothValid, logicalIndex := v } := by
  simp only [Call.assign, getElem?_modify, if_true]
  rfl

lemma CallOk.assign (ok : CallOk tables original call) {id : PmsId} {key : MapKey} {v : UInt64}
    (here : original[call.pos]? = some id) (keyed : keyOf original call.pos = some key)
    (entry : (id.physicalIndex, v) ∈ (tables key).entries) : CallOk tables original (call.assign v) where
  length := by rw [Call.assign, length_modify, ok.length]
  done i below before found := by
    rcases Nat.lt_succ_iff_lt_or_eq.mp below with earlier | rfl
    · obtain ⟨after, there, numbered⟩ := ok.done i earlier before found
      rw [Call.getElem?_assign_of_ne v earlier.ne, there]
      exact ⟨after, rfl, numbered⟩
    · obtain rfl := Option.some.inj (here.symm.trans found)
      rw [Call.getElem?_assign_pos, ok.rest _ le_rfl, here, keyed]
      exact ⟨_, rfl, rfl, rfl, entry⟩
  rest i later := by
    rw [Call.getElem?_assign_of_ne v (Nat.lt_of_succ_le later).ne', ok.rest i (Nat.le_of_succ_le later)]

end

/-! ## One query -/

/-- The state of a query for `p` in the table `key` from rank `src`: the messages under way in both directions and
those still to be sent. -/
inductive Query (tables : MapKey → CountingLookupMap) (server : Server) (src : ℕ) (key : MapKey) (p : UInt64) :
    List Message → List UInt64 → List Message → Prop
  | unseen {sent rest : List Message} (elsewhere : server.src ≠ some src) (messages : query key p = sent ++ rest) :
    Query tables server src key p sent [] rest
  | sized {sent rest : List Message} {words : List UInt16} (serving : server = .wantSize src)
    (isLocal : key = .localIdx words)
    (messages : [.size words.length, .words words, .index p] = sent ++ rest) : Query tables server src key p sent [] rest
  | worded {sent rest : List Message} {words : List UInt16} (serving : server = .wantWords src words.length)
    (isLocal : key = .localIdx words)
    (messages : [.words words, .index p] = sent ++ rest) : Query tables server src key p sent [] rest
  | keyed {sent rest : List Message} (serving : server = .wantIndex src key) (messages : [.index p] = sent ++ rest) :
    Query tables server src key p sent [] rest
  | found {v : UInt64} (serving : server = .reply src v) (entry : (p, v) ∈ (tables key).entries) :
    Query tables server src key p [] [] []
  | replied {v : UInt64} (elsewhere : server.src ≠ some src) (entry : (p, v) ∈ (tables key).entries) :
    Query tables server src key p [] [v] []

section
variable {tables tables' : MapKey → CountingLookupMap} {server server' : Server} {src : ℕ} {key : MapKey} {p : UInt64}
  {sent rest : List Message} {replies : List UInt64}

lemma Query.grows (ongoing : Query tables server src key p sent replies rest) (grows : Grows tables tables') :
    Query tables' server src key p sent replies rest := by
  cases ongoing with
  | unseen elsewhere messages => exact .unseen elsewhere messages
  | sized serving isLocal messages => exact .sized serving isLocal messages
  | worded serving isLocal messages => exact .worded serving isLocal messages
  | keyed serving messages => exact .keyed serving messages
  | found serving entry => exact .found serving (grows _ _ entry)
  | replied elsewhere entry => exact .replied elsewhere (grows _ _ entry)

lemma Query.frame (ongoing : Query tables server src key p sent replies rest) (elsewhere : server.src ≠ some src)
    (elsewhere' : server'.src ≠ some src) : Query tables server' src key p sent replies rest := by
  cases ongoing with
  | unseen _ messages => exact .unseen elsewhere' messages
  | sized serving => exact absurd (serving ▸ rfl) elsewhere
  | worded serving => exact absurd (serving ▸ rfl) elsewhere
  | keyed serving => exact absurd (serving ▸ rfl) elsewhere
  | found serving => exact absurd (serving ▸ rfl) elsewhere
  | replied _ entry => exact .replied elsewhere' entry

lemma Query.send {m : Message} (ongoing : Query tables server src key p sent replies (m :: rest)) :
    Query tables server src key p (sent ++ [m]) replies rest := by
  have shift : sent ++ m :: rest = (sent ++ [m]) ++ rest := (append_cons sent m rest)
  cases ongoing with
  | unseen elsewhere messages => exact .unseen elsewhere (messages.trans shift)
  | sized serving isLocal messages => exact .sized serving isLocal (messages.trans shift)
  | worded serving isLocal messages => exact .worded serving isLocal (messages.trans shift)
  | keyed serving messages => exact .keyed serving (messages.trans shift)

lemma Query.receive {v : UInt64} {more : List UInt64}
    (ongoing : Query tables server src key p sent (v :: more) rest) :
    sent = [] ∧ more = [] ∧ server.src ≠ some src ∧ (p, v) ∈ (tables key).entries := by
  cases ongoing with
  | replied elsewhere entry => exact ⟨rfl, rfl, elsewhere, entry⟩

end

/-! ## The whole system -/

/-- The invariant: `tuples` are the tuples as they were read, `ranks` the places of the threads. -/
structure Inv (ranks : τ → ℕ) (tuples : τ → List PmsId) (s : State τ) : Prop where
  calls : ∀ t, CallOk s.tables (tuples t) (s.calls t)
  locked : ∀ r t, s.mpilock r = some t ↔ ranks t = r ∧ (s.calls t).pc ≠ .scan
  quiet : ∀ r, s.mpilock r = none → s.toServer r = [] ∧ s.fromServer r = [] ∧ s.server.src ≠ some r
  querying : ∀ t rest, (s.calls t).pc = .sending rest → ∃ id key, (tuples t)[(s.calls t).pos]? = some id ∧
    keyOf (tuples t) (s.calls t).pos = some key ∧
    Query s.tables s.server (ranks t) key id.physicalIndex (s.toServer (ranks t)) (s.fromServer (ranks t)) rest
  asked : ∀ key p v, (p, v) ∈ (s.tables key).entries → ∃ t i id, (tuples t)[i]? = some id ∧
    keyOf (tuples t) i = some key ∧ id.physicalIndex = p ∧
    (i < (s.calls t).pos ∨ i = (s.calls t).pos ∧ (s.calls t).pc ≠ .scan)

namespace Inv
variable {ranks : τ → ℕ} {tuples : τ → List PmsId} {s : State τ}

omit [DecidableEq τ] in
lemma unique (inv : Inv ranks tuples s) {t t' : τ} (here : (s.calls t).pc ≠ .scan) (there : (s.calls t').pc ≠ .scan)
    (same : ranks t = ranks t') : t = t' := by
  have lock := (inv.locked (ranks t) t).mpr ⟨rfl, here⟩
  have lock' := (inv.locked (ranks t) t').mpr ⟨same.symm, there⟩
  exact Option.some.inj (lock.symm.trans lock')

omit [DecidableEq τ] in
lemma exists_querying (inv : Inv ranks tuples s) {r : ℕ} (active : s.toServer r ≠ [] ∨ s.server.src = some r) :
    ∃ t rest, ranks t = r ∧ (s.calls t).pc = .sending rest := by
  cases lock : s.mpilock r with
  | none =>
    obtain ⟨empty, -, elsewhere⟩ := inv.quiet r lock
    exact absurd active (not_or.mpr ⟨not_not.mpr empty, elsewhere⟩)
  | some t =>
    obtain ⟨place, busy⟩ := (inv.locked r t).mp lock
    cases pc : (s.calls t).pc with
    | scan => exact absurd pc busy
    | sending rest => exact ⟨t, rest, place, pc⟩

variable {t : τ} {s' : State τ}

section
omit [DecidableEq τ]

lemma serve (inv : Inv ranks tuples s) {rest : List Message} (pc : (s.calls t).pc = .sending rest)
    (calls : s'.calls = s.calls) (locks : s'.mpilock = s.mpilock) (grows : Grows s.tables s'.tables)
    (elsewhere : ∀ r ≠ ranks t, s'.toServer r = s.toServer r ∧ s'.fromServer r = s.fromServer r ∧
      s.server.src ≠ some r ∧ s'.server.src ≠ some r)
    (ongoing : ∀ id key, (tuples t)[(s.calls t).pos]? = some id → keyOf (tuples t) (s.calls t).pos = some key →
      Query s.tables s.server (ranks t) key id.physicalIndex (s.toServer (ranks t)) (s.fromServer (ranks t)) rest →
      Query s'.tables s'.server (ranks t) key id.physicalIndex (s'.toServer (ranks t)) (s'.fromServer (ranks t)) rest ∧
        ∀ key' p v, (p, v) ∈ (s'.tables key').entries → (p, v) ∈ (s.tables key').entries ∨
          key' = key ∧ p = id.physicalIndex) :
    Inv ranks tuples s' := by
  have busy : (s.calls t).pc ≠ .scan := by rw [pc]; exact nofun
  obtain ⟨id, key, here, keyed, query⟩ := inv.querying t rest pc
  obtain ⟨served, entries⟩ := ongoing id key here keyed query
  refine ⟨fun u => ?_, fun r u => ?_, fun r free => ?_, fun u restU pcU => ?_, fun key' p v member => ?_⟩
  · rw [calls]
    exact (inv.calls u).grows grows
  · rw [calls, locks]
    exact inv.locked r u
  · rw [locks] at free
    have other : r ≠ ranks t := by
      rintro rfl
      rw [(inv.locked (ranks t) t).mpr ⟨rfl, busy⟩] at free
      cases free
    obtain ⟨there, back, -, after⟩ := elsewhere r other
    rw [there, back]
    exact ⟨(inv.quiet r free).1, (inv.quiet r free).2.1, after⟩
  · rw [calls] at pcU ⊢
    rcases eq_or_ne u t with rfl | differ
    · obtain rfl : rest = restU := Pc.sending.inj (pc.symm.trans pcU)
      exact ⟨id, key, here, keyed, served⟩
    · have other : ranks u ≠ ranks t := fun same => differ (inv.unique (by rw [pcU]; exact nofun) busy same)
      obtain ⟨there, back, before, after⟩ := elsewhere _ other
      obtain ⟨idU, keyU, hereU, keyedU, queryU⟩ := inv.querying u restU pcU
      rw [there, back]
      exact ⟨idU, keyU, hereU, keyedU, (queryU.frame before after).grows grows⟩
  · rw [calls]
    rcases entries key' p v member with old | ⟨rfl, rfl⟩
    · exact inv.asked key' p v old
    · exact ⟨t, _, id, here, keyed, rfl, .inr ⟨rfl, busy⟩⟩

lemma serve_message (inv : Inv ranks tuples s) {src : ℕ} {m : Message} {more : List Message} {server' : Server}
    (received : s.toServer src = m :: more) (before : s.server.src = none ∨ s.server.src = some src)
    (after : server'.src = some src)
    (ongoing : ∀ ids i key p replies rest, keyOf ids i = some key →
      Query s.tables s.server src key p (m :: more) replies rest →
      Query s.tables server' src key p more replies rest) :
    Inv ranks tuples { s with toServer := update s.toServer src more, server := server' } := by
  obtain ⟨t, rest, rfl, pc⟩ := inv.exists_querying (.inl (by rw [received]; exact cons_ne_nil _ _))
  refine inv.serve pc rfl rfl Grows.refl (fun r other => ?_) fun id key here keyed query => ⟨?_, fun _ _ _ => .inl⟩
  · refine ⟨update_of_ne other _ _, rfl, ?_, ?_⟩
    · rcases before with none | same
      · rw [none]
        exact nofun
      · rw [same]
        exact fun eq => other (Option.some.inj eq).symm
    · rw [after]
      exact fun eq => other (Option.some.inj eq).symm
  · rw [received] at query
    simp only [update_self]
    exact ongoing _ _ key _ _ rest keyed query

lemma serverStep_inv (inv : Inv ranks tuples s) {src : ℕ} (stepped : serverStep s src = some s') :
    Inv ranks tuples s' := by
  unfold serverStep at stepped
  cases serving : s.server with
  | idle =>
    simp only [serving] at stepped
    split at stepped
    · next k more received =>
      cases stepped
      refine inv.serve_message received (.inl (by rw [serving]; rfl)) (by split <;> rfl)
        fun ids i key p replies rest keyed query => ?_
      cases query with
      | unseen elsewhere messages =>
        cases key with
        | globalIdx kind =>
          obtain ⟨same, tail⟩ := cons.inj messages
          obtain rfl := Message.kind.inj same
          rw [if_neg (kind_ne_of_keyOf keyed)]
          exact .keyed rfl tail
        | localIdx words =>
          obtain ⟨same, tail⟩ := cons.inj messages
          obtain rfl := Message.kind.inj same
          rw [if_pos rfl]
          exact .sized rfl rfl tail
      | sized there => exact absurd (serving.symm.trans there) nofun
      | worded there => exact absurd (serving.symm.trans there) nofun
      | keyed there => exact absurd (serving.symm.trans there) nofun
    · cases stepped
  | wantSize r =>
    simp only [serving] at stepped
    split at stepped
    · next n more received =>
      cases stepped
      refine inv.serve_message received (.inr (by rw [serving]; rfl)) rfl fun ids i key p replies rest keyed query => ?_
      cases query with
      | unseen elsewhere => exact absurd (by rw [serving]; rfl) elsewhere
      | sized there isLocal messages =>
        obtain ⟨same, tail⟩ := cons.inj messages
        obtain rfl := Message.size.inj same
        exact .worded rfl isLocal tail
      | worded there => exact absurd (serving.symm.trans there) nofun
      | keyed there => exact absurd (serving.symm.trans there) nofun
    · cases stepped
  | wantWords r n =>
    simp only [serving] at stepped
    split at stepped
    · next words more received =>
      split at stepped
      · cases stepped
        refine inv.serve_message received (.inr (by rw [serving]; rfl)) rfl fun ids i key p replies rest keyed query => ?_
        cases query with
        | unseen elsewhere => exact absurd (by rw [serving]; rfl) elsewhere
        | sized there => exact absurd (serving.symm.trans there) nofun
        | worded there isLocal messages =>
          obtain ⟨same, tail⟩ := cons.inj messages
          obtain rfl := Message.words.inj same
          subst isLocal
          exact .keyed rfl tail
        | keyed there => exact absurd (serving.symm.trans there) nofun
      · cases stepped
    · cases stepped
  | wantIndex r key =>
    simp only [serving] at stepped
    split at stepped
    · next p more received =>
      cases stepped
      obtain ⟨t, rest, rfl, pc⟩ := inv.exists_querying (.inl (by rw [received]; exact cons_ne_nil _ _))
      refine inv.serve pc rfl rfl (grows_get key p) (fun r other => ?_) fun id key' here keyed query => ?_
      · refine ⟨update_of_ne other _ _, rfl, ?_, fun eq => other (Option.some.inj eq).symm⟩
        rw [serving]
        exact fun eq => other (Option.some.inj eq).symm
      · rw [received] at query
        simp only [update_self]
        generalize s.fromServer (ranks t) = replies at query ⊢
        cases query with
        | unseen elsewhere => exact absurd (by rw [serving]; rfl) elsewhere
        | sized there => exact absurd (serving.symm.trans there) nofun
        | worded there => exact absurd (serving.symm.trans there) nofun
        | keyed there messages =>
          obtain ⟨-, rfl⟩ := Server.wantIndex.inj (serving.symm.trans there)
          obtain ⟨same, tail⟩ := cons.inj messages
          obtain rfl := Message.index.inj same
          obtain ⟨rfl, rfl⟩ := nil_eq_append_iff.mp tail
          refine ⟨.found rfl ?_, fun key' q v member => mem_update_get member⟩
          rw [update_self]
          exact CountingLookupMap.get_mem
    · cases stepped
  | reply r v =>
    simp only [serving] at stepped
    cases stepped
    obtain ⟨t, rest, rfl, pc⟩ := inv.exists_querying (r := r) (.inr (by rw [serving]; rfl))
    refine inv.serve pc rfl rfl Grows.refl (fun r other => ?_) fun id key here keyed query => ⟨?_, fun _ _ _ => .inl⟩
    · refine ⟨rfl, update_of_ne other _ _, ?_, nofun⟩
      rw [serving]
      exact fun eq => other (Option.some.inj eq).symm
    · simp only [update_self]
      generalize s.fromServer (ranks t) = replies at query ⊢
      generalize s.toServer (ranks t) = sent at query ⊢
      cases query with
      | unseen elsewhere => exact absurd (by rw [serving]; rfl) elsewhere
      | sized there => exact absurd (serving.symm.trans there) nofun
      | worded there => exact absurd (serving.symm.trans there) nofun
      | keyed there => exact absurd (serving.symm.trans there) nofun
      | found there entry =>
        obtain ⟨-, rfl⟩ := Server.reply.inj (serving.symm.trans there)
        exact .replied nofun entry
      | replied elsewhere => exact absurd (by rw [serving]; rfl) elsewhere

end

section
variable (inv : Inv ranks tuples s)
include inv

lemma outside {call : Call} {tables : MapKey → CountingLookupMap}
    (scanning : (s.calls t).pc = .scan) (stays : call.pc = .scan) (advances : call.pos = (s.calls t).pos + 1)
    (grows : Grows s.tables tables) (ok : CallOk tables (tuples t) call)
    (entries : ∀ key p v, (p, v) ∈ (tables key).entries → (p, v) ∈ (s.tables key).entries ∨
      ∃ id, (tuples t)[(s.calls t).pos]? = some id ∧ keyOf (tuples t) (s.calls t).pos = some key ∧
        id.physicalIndex = p) :
    Inv ranks tuples { s.setCall t call with tables := tables } := by
  have pcs : ∀ u, (update s.calls t call u).pc = (s.calls u).pc := by
    intro u
    rcases eq_or_ne u t with rfl | other
    · rw [update_self, stays, scanning]
    · rw [update_of_ne other]
  refine ⟨fun u => ?_, fun r u => ?_, inv.quiet, fun u rest pcU => ?_, fun key p v member => ?_⟩
  · simp only [State.setCall]
    rcases eq_or_ne u t with rfl | other
    · rwa [update_self]
    · rw [update_of_ne other]
      exact (inv.calls u).grows grows
  · simp only [State.setCall, pcs]
    exact inv.locked r u
  · simp only [State.setCall] at pcU ⊢
    have other : u ≠ t := by
      rintro rfl
      rw [pcs, scanning] at pcU
      cases pcU
    rw [update_of_ne other] at pcU ⊢
    obtain ⟨id, key, here, keyed, query⟩ := inv.querying u rest pcU
    exact ⟨id, key, here, keyed, query.grows grows⟩
  · simp only [State.setCall]
    rcases entries key p v member with old | ⟨id, here, keyed, same⟩
    · obtain ⟨u, i, id, here, keyed, same, reached⟩ := inv.asked key p v old
      refine ⟨u, i, id, here, keyed, same, ?_⟩
      rcases eq_or_ne u t with rfl | other
      · rw [update_self, advances]
        rcases reached with earlier | ⟨-, busy⟩
        · exact .inl (Nat.lt_succ_of_lt earlier)
        · exact absurd scanning busy
      · rwa [update_of_ne other]
    · refine ⟨t, _, id, here, keyed, same, .inl ?_⟩
      rw [update_self, advances]
      exact Nat.lt_succ_self _

lemma inside {call : Call}
    (alone : ∀ u, (s.calls u).pc ≠ .scan → ranks u = ranks t → u = t)
    (calls : s'.calls = update s.calls t call) (tables : s'.tables = s.tables) (server : s'.server = s.server)
    (elsewhere : ∀ r ≠ ranks t, s'.mpilock r = s.mpilock r ∧ s'.toServer r = s.toServer r ∧
      s'.fromServer r = s.fromServer r)
    (lock : ∀ u, s'.mpilock (ranks t) = some u ↔ u = t ∧ call.pc ≠ .scan)
    (quiet : call.pc = .scan → s'.toServer (ranks t) = [] ∧ s'.fromServer (ranks t) = [] ∧
      s.server.src ≠ some (ranks t))
    (own : ∀ rest, call.pc = .sending rest → ∃ id key, (tuples t)[call.pos]? = some id ∧
      keyOf (tuples t) call.pos = some key ∧ Query s.tables s.server (ranks t) key id.physicalIndex
        (s'.toServer (ranks t)) (s'.fromServer (ranks t)) rest)
    (ok : CallOk s.tables (tuples t) call)
    (progress : (s.calls t).pos < call.pos ∨ (s.calls t).pos = call.pos ∧ call.pc ≠ .scan) :
    Inv ranks tuples s' := by
  have atT : s'.calls t = call := by rw [calls, update_self]
  have others : ∀ u, u ≠ t → s'.calls u = s.calls u := fun u other => by rw [calls, update_of_ne other]
  refine ⟨fun u => ?_, fun r u => ?_, fun r free => ?_, fun u rest pcU => ?_, fun key p v member => ?_⟩
  · rw [tables]
    rcases eq_or_ne u t with rfl | other
    · rwa [atT]
    · rw [others u other]
      exact inv.calls u
  · rcases eq_or_ne r (ranks t) with rfl | away
    · rw [lock]
      constructor
      · rintro ⟨rfl, busy⟩
        rw [atT]
        exact ⟨rfl, busy⟩
      · rintro ⟨same, busy⟩
        rcases eq_or_ne u t with rfl | other
        · rw [atT] at busy
          exact ⟨rfl, busy⟩
        · rw [others u other] at busy
          exact absurd (alone u busy same) other
    · rw [(elsewhere r away).1, inv.locked]
      rcases eq_or_ne u t with rfl | other
      · exact iff_of_false (fun both => away both.1.symm) fun both => away both.1.symm
      · rw [others u other]
  · rw [server]
    rcases eq_or_ne r (ranks t) with rfl | away
    · refine quiet ?_
      by_contra busy
      rw [(lock t).mpr ⟨rfl, busy⟩] at free
      cases free
    · obtain ⟨same, there, back⟩ := elsewhere r away
      rw [there, back]
      exact inv.quiet r (same ▸ free)
  · rw [tables, server]
    rcases eq_or_ne u t with rfl | other
    · rw [atT] at pcU ⊢
      exact own rest pcU
    · rw [others u other] at pcU ⊢
      have away : ranks u ≠ ranks t := fun same => other (alone u (by rw [pcU]; exact nofun) same)
      rw [(elsewhere _ away).2.1, (elsewhere _ away).2.2]
      exact inv.querying u rest pcU
  · rw [tables] at member
    obtain ⟨u, i, id, here, keyed, same, reached⟩ := inv.asked key p v member
    refine ⟨u, i, id, here, keyed, same, ?_⟩
    rcases eq_or_ne u t with rfl | other
    · rw [atT]
      rcases reached with earlier | ⟨rfl, -⟩
      · exact .inl (progress.elim earlier.trans fun both => both.1 ▸ earlier)
      · exact progress
    · rwa [others u other]

lemma threadStep_inv (stepped : threadStep (ranks t) s t = some s') :
    Inv ranks tuples s' := by
  have ok := inv.calls t
  unfold threadStep at stepped
  cases pc : (s.calls t).pc with
  | scan =>
    simp only [pc] at stepped
    split at stepped
    · cases stepped
    · next id atPos =>
      have here : (tuples t)[(s.calls t).pos]? = some id := (ok.rest _ le_rfl).symm.trans atPos
      split at stepped
      · next given =>
        cases stepped
        rw [ok.keyOf_pos] at given
        exact inv.outside pc rfl rfl Grows.refl (ok.skip given _) fun _ _ _ => .inl
      · next key keyed =>
        rw [ok.keyOf_pos] at keyed
        split at stepped
        · cases stepped
          refine inv.outside pc rfl rfl (grows_get key id.physicalIndex)
            ((ok.grows (grows_get key id.physicalIndex)).assign here keyed ?_) fun key' p v member => ?_
          · rw [update_self]
            exact CountingLookupMap.get_mem
          · refine (mem_update_get member).imp_right fun both => ?_
            exact ⟨id, here, both.1 ▸ keyed, both.2.symm⟩
        · split at stepped
          · cases stepped
          · next free =>
            cases stepped
            obtain ⟨empty, noReply, elsewhere⟩ := inv.quiet _ free
            refine inv.inside (t := t) (fun u busy same => ?_) rfl rfl rfl (fun r away => ?_) (fun u => ?_) (by rintro ⟨⟩)
              (fun rest sending => ⟨id, key, here, keyed, ?_⟩) ⟨ok.length, ok.done, ok.rest⟩ (.inr ⟨rfl, (by rintro ⟨⟩)⟩)
            · rw [(inv.locked (ranks t) u).mpr ⟨same, busy⟩] at free
              cases free
            · exact ⟨update_of_ne away _ _, rfl, rfl⟩
            · simp [eq_comm]
            · obtain rfl := Pc.sending.inj sending
              simp only [State.setCall]
              rw [empty, noReply]
              exact .unseen elsewhere rfl
  | sending rest =>
    have busy : (s.calls t).pc ≠ .scan := by rw [pc]; rintro ⟨⟩
    have lock := (inv.locked (ranks t) t).mpr ⟨rfl, busy⟩
    obtain ⟨id, key, here, keyed, query⟩ := inv.querying t rest pc
    have alone : ∀ u, (s.calls u).pc ≠ .scan → ranks u = ranks t → u = t := fun u busyU same =>
      inv.unique busyU busy same
    cases rest with
    | cons m rest =>
      simp only [pc] at stepped
      cases stepped
      refine inv.inside alone rfl rfl rfl (fun r away => ?_) (fun u => ?_) (by rintro ⟨⟩)
        (fun rest' sending => ⟨id, key, here, keyed, ?_⟩) ⟨ok.length, ok.done, ok.rest⟩ (.inr ⟨rfl, (by rintro ⟨⟩)⟩)
      · exact ⟨rfl, update_of_ne away _ _, rfl⟩
      · simp [lock, eq_comm, State.setCall]
      · obtain rfl := Pc.sending.inj sending
        simp only [State.setCall, update_self]
        exact query.send
    | nil =>
      simp only [pc] at stepped
      split at stepped
      · cases stepped
      · next v more received =>
        cases stepped
        rw [received] at query
        obtain ⟨noneSent, noneLeft, elsewhere, entry⟩ := query.receive
        refine inv.inside alone rfl rfl rfl (fun r away => ?_) (fun u => ?_) (fun _ => ⟨?_, ?_, elsewhere⟩) (by rintro _ ⟨⟩)
          (ok.assign here keyed entry) (.inl (Nat.lt_succ_self _))
        · exact ⟨update_of_ne away _ _, rfl, update_of_ne away _ _⟩
        · simp [Call.assign]
        · exact noneSent
        · simp only [update_self]
          exact noneLeft

lemma step_inv {act : Act τ} (stepped : step ranks s act = some s') :
    Inv ranks tuples s' := by
  cases act with
  | thread t => exact inv.threadStep_inv stepped
  | server src => exact inv.serverStep_inv stepped

end

end Inv

omit [DecidableEq τ] in
lemma initial_inv (ranks : τ → ℕ) (tuples : τ → List PmsId) : Inv ranks tuples (initial tuples) where
  calls t := ⟨rfl, fun i below => absurd below (Nat.not_lt_zero i), fun _ _ => rfl⟩
  locked r t := ⟨nofun, fun both => absurd rfl both.2⟩
  quiet r _ := ⟨rfl, rfl, nofun⟩
  querying t rest pc := by cases pc
  asked key p v member := by cases member

/-! ## No call waits forever for want of a step -/

section
variable {ranks : τ → ℕ} {tuples : τ → List PmsId} {s : State τ}

variable {t : τ}

omit [DecidableEq τ] in
lemma Query.server_can_step {key : MapKey} {p : UInt64}
    (query : Query s.tables s.server (ranks t) key p (s.toServer (ranks t)) (s.fromServer (ranks t)) [])
    (serving : s.server.src = some (ranks t)) : ∃ s', serverStep s (ranks t) = some s' := by
  generalize received : s.toServer (ranks t) = sent at query
  generalize s.fromServer (ranks t) = replies at query
  cases query with
  | unseen elsewhere => exact absurd serving elsewhere
  | sized there isLocal messages =>
    rw [append_nil] at messages
    simp only [serverStep, there, received, ← messages]
    exact ⟨_, rfl⟩
  | worded there isLocal messages =>
    rw [append_nil] at messages
    simp only [serverStep, there, received, ← messages, if_true]
    exact ⟨_, rfl⟩
  | keyed there messages =>
    rw [append_nil] at messages
    simp only [serverStep, there, received, ← messages]
    exact ⟨_, rfl⟩
  | found there =>
    simp only [serverStep, there]
    exact ⟨_, rfl⟩
  | replied elsewhere => exact absurd serving elsewhere

lemma can_send {m : Message} {rest : List Message} (pc : (s.calls t).pc = .sending (m :: rest)) :
    ∃ s', step ranks s (.thread t) = some s' := by
  simp only [step, threadStep, pc]
  exact ⟨_, rfl⟩

lemma Inv.step_of_querying (inv : Inv ranks tuples s) {rest : List Message}
    (pc : (s.calls t).pc = .sending rest) : ∃ act s', step ranks s act = some s' := by
  cases rest with
  | cons m rest => exact ⟨_, can_send pc⟩
  | nil =>
    obtain ⟨id, key, -, -, query⟩ := inv.querying t [] pc
    cases serving : s.server.src with
    | some r =>
      obtain ⟨u, rest, rfl, pcU⟩ := inv.exists_querying (.inr serving)
      cases rest with
      | cons m rest => exact ⟨_, can_send pcU⟩
      | nil =>
        obtain ⟨idU, keyU, -, -, queryU⟩ := inv.querying u [] pcU
        exact ⟨.server (ranks u), queryU.server_can_step serving⟩
    | none =>
      have idle : s.server = .idle := by
        cases shape : s.server with
        | idle => rfl
        | _ => simp [shape, Server.src] at serving
      generalize received : s.toServer (ranks t) = sent at query
      generalize replied : s.fromServer (ranks t) = replies at query
      cases query with
      | unseen elsewhere messages =>
        rw [append_nil] at messages
        refine ⟨.server (ranks t), ?_⟩
        simp only [step, serverStep, idle, received, ← messages]
        cases key <;> exact ⟨_, rfl⟩
      | sized there => exact absurd (idle.symm.trans there) nofun
      | worded there => exact absurd (idle.symm.trans there) nofun
      | keyed there => exact absurd (idle.symm.trans there) nofun
      | found there => exact absurd (idle.symm.trans there) nofun
      | replied elsewhere entry =>
        refine ⟨.thread t, ?_⟩
        simp only [step, threadStep, pc, replied]
        exact ⟨_, rfl⟩

lemma Inv.exists_step (inv : Inv ranks tuples s) (unfinished : ¬s.Finished) :
    ∃ act s', step ranks s act = some s' := by
  rcases em (∃ t rest, (s.calls t).pc = .sending rest) with ⟨t, rest, pc⟩ | scanning
  · exact inv.step_of_querying pc
  · have pcs : ∀ t, (s.calls t).pc = .scan := by
      intro t
      cases pc : (s.calls t).pc with
      | scan => rfl
      | sending rest => exact absurd ⟨t, rest, pc⟩ scanning
    obtain ⟨t, open_⟩ := not_forall.mp unfinished
    have below : (s.calls t).pos < (s.calls t).ids.length := not_le.mp fun le => open_ ⟨pcs t, le⟩
    refine ⟨.thread t, ?_⟩
    simp only [step, threadStep, pcs t, getElem?_eq_getElem below]
    split
    · exact ⟨_, rfl⟩
    · split
      · exact ⟨_, rfl⟩
      · split
        · next u locked => exact absurd (pcs u) ((inv.locked _ u).mp locked).2
        · exact ⟨_, rfl⟩

end

end HpcToolkit.ThreadIds

/-! # The numbers of a finished run

When all calls have returned, every generated index is the number of the id's physical index in its table. Ids of
one table are told apart by their physical indices alone, and since every entry was asked for, the numbers in use
are an initial segment.
-/

namespace HpcToolkit.ThreadIds

open Lib

variable {τ : Type}

/-- The `i`-th id of thread `t`, as it was read and as it came out. -/
structure IdAt (tuples results : τ → List PmsId) (t : τ) (i : ℕ) (id out : PmsId) : Prop where
  read : (tuples t)[i]? = some id
  result : (results t)[i]? = some out

/-- The logical index of the id is to be generated for the threads of all ranks together. -/
def GlobalIn (kind : UInt16) (id : PmsId) : Prop := getInterpret id.kind = logicGlobal ∧ getKind id.kind = kind

/-- The logical index of the id is to be generated below the ids before it. -/
def LocalIn (before : List (UInt16 × UInt64)) (kind : UInt16) (ids : List PmsId) (i : ℕ) (id : PmsId) : Prop :=
  getInterpret id.kind = logicLocal ∧ getKind id.kind = kind ∧ prefixOf (ids.take i) = before

/-- Consistent numbering: within a kind, and for local ids within a prefix, equal physical indices are the same as equal
logical ones; the numbers handed out are `0, …, n - 1`; and nothing else is changed. -/
structure Consistent (tuples results : τ → List PmsId) : Prop where
  sameGlobal : ∀ kind t i id out t' i' id' out', IdAt tuples results t i id out → IdAt tuples results t' i' id' out' →
    GlobalIn kind id → GlobalIn kind id' → (id.physicalIndex = id'.physicalIndex ↔ out.logicalIndex = out'.logicalIndex)
  sameLocal : ∀ before kind t i id out t' i' id' out', IdAt tuples results t i id out →
    IdAt tuples results t' i' id' out' → LocalIn before kind (tuples t) i id → LocalIn before kind (tuples t') i' id' →
    (id.physicalIndex = id'.physicalIndex ↔ out.logicalIndex = out'.logicalIndex)
  denseGlobal : ∀ kind, ∃ n, ∀ number, number < n ↔ ∃ t i id out, IdAt tuples results t i id out ∧ GlobalIn kind id ∧
    out.logicalIndex.toNat = number
  denseLocal : ∀ before kind, ∃ n, ∀ number, number < n ↔ ∃ t i id out, IdAt tuples results t i id out ∧
    LocalIn before kind (tuples t) i id ∧ out.logicalIndex.toNat = number
  unchanged : ∀ t, (results t).length = (tuples t).length ∧ ∀ i id out, IdAt tuples results t i id out →
    out.physicalIndex = id.physicalIndex ∧
    if getInterpret id.kind = logicGlobal ∨ getInterpret id.kind = logicLocal
    then out.kind = compose (getKind id.kind) bothValid
    else out = id

section
variable {tuples results : τ → List PmsId} {tables : MapKey → CountingLookupMap}

variable {i : ℕ} {id : PmsId} {kind : UInt16} {ids : List PmsId}

section
variable (read : ids[i]? = some id)
include read

lemma keyOf_of_global
    (isGlobal : GlobalIn kind id) : keyOf ids i = some (.globalIdx kind) := by
  simp only [keyOf, read, isGlobal.1, if_true, isGlobal.2]

lemma keyOf_of_local {before : List (UInt16 × UInt64)}
    (isLocal : LocalIn before kind ids i id) :
    keyOf ids i = some (.localIdx (localKey (ids.take i) kind)) := by
  have differ : logicLocal ≠ logicGlobal := by decide
  simp only [keyOf, read, isLocal.1, if_neg differ, if_true, isLocal.2.1]

lemma keyOf_eq_global
    (keyed : keyOf ids i = some (.globalIdx kind)) : GlobalIn kind id := by
  simp only [keyOf, read] at keyed
  split at keyed
  · next isGlobal =>
    cases keyed
    exact ⟨isGlobal, rfl⟩
  · split at keyed <;> cases keyed

lemma keyOf_eq_local {before : List PmsId}
    (keyed : keyOf ids i = some (.localIdx (localKey before kind))) :
    LocalIn (prefixOf before) kind ids i id := by
  simp only [keyOf, read] at keyed
  split at keyed
  · cases keyed
  · split at keyed
    · next isLocal =>
      obtain ⟨same, kinds⟩ := localKey_inj.mp (MapKey.localIdx.inj (Option.some.inj keyed))
      exact ⟨isLocal, kinds, same⟩
    · cases keyed

end

/-- What a finished run leaves: every id numbered from the tables, and no entry that no id asked for. -/
structure Settled (tables : MapKey → CountingLookupMap) (tuples results : τ → List PmsId) : Prop where
  length : ∀ t, (results t).length = (tuples t).length
  numbered : ∀ t i id out, IdAt tuples results t i id out → Numbered tables (keyOf (tuples t) i) id out
  asked : ∀ key p v, (p, v) ∈ (tables key).entries → ∃ t i id, (tuples t)[i]? = some id ∧
    keyOf (tuples t) i = some key ∧ id.physicalIndex = p

namespace Settled
variable (settled : Settled tables tuples results)
include settled

lemma exists_result {t : τ} (read : (tuples t)[i]? = some id) :
    ∃ out, IdAt tuples results t i id out := by
  have below : i < (results t).length := by
    rw [settled.length]
    exact (List.getElem?_eq_some_iff.mp read).1
  exact ⟨_, read, getElem?_eq_getElem below⟩

lemma same_of_key {key : MapKey} {t t' : τ} {i i' : ℕ} {id id' out out' : PmsId}
    (here : IdAt tuples results t i id out) (there : IdAt tuples results t' i' id' out')
    (keyed : keyOf (tuples t) i = some key) (keyed' : keyOf (tuples t') i' = some key) :
    id.physicalIndex = id'.physicalIndex ↔ out.logicalIndex = out'.logicalIndex := by
  have entry := settled.numbered t i id out here
  have entry' := settled.numbered t' i' id' out' there
  rw [keyed] at entry
  rw [keyed'] at entry'
  exact CountingLookupMap.key_eq_iff entry.2.2 entry'.2.2

lemma dense_of_key (key : MapKey) (number : ℕ) : number < (tables key).entries.length ↔
    ∃ t i id out, IdAt tuples results t i id out ∧ keyOf (tuples t) i = some key ∧ out.logicalIndex.toNat = number := by
  rw [← CountingLookupMap.mem_values]
  constructor
  · rintro ⟨p, v, entry, same⟩
    obtain ⟨t, i, id, read, keyed, rfl⟩ := settled.asked key p v entry
    obtain ⟨out, here⟩ := settled.exists_result read
    have numbered := settled.numbered t i id out here
    rw [keyed] at numbered
    have value := (CountingLookupMap.key_eq_iff entry numbered.2.2).mp rfl
    exact ⟨t, i, id, out, here, keyed, value ▸ same⟩
  · rintro ⟨t, i, id, out, here, keyed, same⟩
    have numbered := settled.numbered t i id out here
    rw [keyed] at numbered
    exact ⟨_, _, numbered.2.2, same⟩

lemma consistent : Consistent tuples results where
  sameGlobal kind t i id out t' i' id' out' here there isGlobal isGlobal' :=
    settled.same_of_key here there (keyOf_of_global here.read isGlobal) (keyOf_of_global there.read isGlobal')
  sameLocal before kind t i id out t' i' id' out' here there isLocal isLocal' := by
    refine settled.same_of_key here there (keyOf_of_local here.read isLocal) ?_
    rw [keyOf_of_local there.read isLocal',
      localKey_inj.mpr ⟨isLocal'.2.2.trans isLocal.2.2.symm, rfl⟩]
  denseGlobal kind := by
    refine ⟨_, fun number => (settled.dense_of_key (.globalIdx kind) number).trans ?_⟩
    constructor
    · rintro ⟨t, i, id, out, here, keyed, same⟩
      exact ⟨t, i, id, out, here, keyOf_eq_global here.read keyed, same⟩
    · rintro ⟨t, i, id, out, here, isGlobal, same⟩
      exact ⟨t, i, id, out, here, keyOf_of_global here.read isGlobal, same⟩
  denseLocal before kind := by
    rcases em (∃ t i id, (tuples t)[i]? = some id ∧ LocalIn before kind (tuples t) i id) with
      ⟨t₀, i₀, id₀, read₀, isLocal₀⟩ | nobody
    · obtain ⟨-, -, rfl⟩ := isLocal₀
      refine ⟨_, fun number => (settled.dense_of_key (.localIdx (localKey ((tuples t₀).take i₀) kind)) number).trans ?_⟩
      constructor
      · rintro ⟨t, i, id, out, here, keyed, same⟩
        exact ⟨t, i, id, out, here, keyOf_eq_local here.read keyed, same⟩
      · rintro ⟨t, i, id, out, here, isLocal, same⟩
        refine ⟨t, i, id, out, here, ?_, same⟩
        rw [keyOf_of_local here.read isLocal, localKey_inj.mpr ⟨isLocal.2.2, rfl⟩]
    · refine ⟨0, fun number => iff_of_false (Nat.not_lt_zero number) ?_⟩
      rintro ⟨t, i, id, out, here, isLocal, -⟩
      exact nobody ⟨t, i, id, here.read, isLocal⟩
  unchanged t := by
    refine ⟨settled.length t, fun i id out here => ?_⟩
    have numbered := settled.numbered t i id out here
    refine ⟨numbered.kept.2, ?_⟩
    simp only [keyOf, here.read] at numbered
    split
    · next generated =>
      rcases generated with isGlobal | isLocal
      · rw [if_pos isGlobal] at numbered
        exact numbered.1
      · have differ : logicLocal ≠ logicGlobal := by decide
        rw [isLocal, if_neg differ, if_pos rfl] at numbered
        exact numbered.1
    · next given =>
      obtain ⟨notGlobal, notLocal⟩ := not_or.mp given
      rw [if_neg notGlobal, if_neg notLocal] at numbered
      exact numbered

end Settled

lemma Inv.settled {ranks : τ → ℕ} {s : State τ} (inv : Inv ranks tuples s) (finished : s.Finished) :
    Settled s.tables tuples fun t => (s.calls t).ids where
  length t := (inv.calls t).length
  numbered t i id out here := by
    have below : i < (s.calls t).pos := (List.getElem?_eq_some_iff.mp here.result).1.trans_le (finished t).2
    obtain ⟨after, there, numbered⟩ := (inv.calls t).done i below id here.read
    obtain rfl := Option.some.inj (there.symm.trans here.result)
    exact numbered
  asked key p v entry := by
    obtain ⟨t, i, id, read, keyed, same, -⟩ := inv.asked key p v entry
    exact ⟨t, i, id, read, keyed, same⟩

end

/-- Whatever the tuples, the ranks of the threads and the order of steps: until all calls have returned a step is possible,
and then they have numbered consistently. -/
theorem finalize_consistent [DecidableEq τ] (ranks : τ → ℕ) (tuples : τ → List PmsId) (s : State τ)
    (reached : Reachable (step ranks) (initial tuples) s) :
    (¬s.Finished → ∃ act s', step ranks s act = some s') ∧
      (s.Finished → Consistent tuples fun t => (s.calls t).ids) := by
  have inv : Inv ranks tuples s :=
    reached.invariant (initial_inv ranks tuples) fun _ _ _ inv stepped => inv.step_inv stepped
  exact ⟨inv.exists_step, fun finished => (inv.settled finished).consistent⟩

/-- A thread on each of two ranks, with a rank, a local thread number and a global stream number. -/
def twoTuples (onServer : Bool) : List PmsId :=
  if onServer then [⟨2, 0, 0⟩, ⟨16387, 900, 0⟩, ⟨32774, 5, 0⟩] else [⟨2, 1, 1⟩, ⟨16387, 700, 0⟩, ⟨32774, 5, 0⟩]

def twoRanks (onServer : Bool) : ℕ := if onServer then 0 else 1

/-- The queries of rank 1 around the lookups of rank 0. -/
def twoSchedule : List (Act Bool) :=
  [.thread false, .thread true, .thread false, .thread false, .thread false, .server 1, .thread false, .thread true,
    .thread false, .server 1, .server 1, .server 1, .server 1, .thread false, .thread false, .thread false,
    .server 1, .thread false, .server 1, .thread true, .server 1, .thread false]

theorem two_ranks_consistent : ∃ s, Reachable (step twoRanks) (initial twoTuples) s ∧
    Consistent twoTuples fun t => (s.calls t).ids := by
  have ends : (twoSchedule.foldlM (step twoRanks) (initial twoTuples)).map
      (fun s => decide (∀ t, (s.calls t).pc = .scan ∧ (s.calls t).ids.length ≤ (s.calls t).pos)) = some true := by
    decide
  obtain ⟨s, ran, finished⟩ := Option.map_eq_some_iff.mp ends
  have reached : Reachable (step twoRanks) (initial twoTuples) s := Reachable.start.run ran
  have returned := of_decide_eq_true finished
  exact ⟨s, reached, (finalize_consistent twoRanks twoTuples s reached).2 returned⟩

end HpcToolkit.ThreadIds
