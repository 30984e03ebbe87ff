import HpcToolkit.Lib.Reachable

/-! # The map of directed blame

Threads add blame for an object to an entry of a table and take it from there. An entry is one word with the id of the
object that owns it and its blame, so each change is one compare-and-exchange; a thread that meets an entry of another
object drops its blame. Loads and exchanges of the threads interleave in any order.
-/

namespace HpcToolkit.BlameShift

open Lib Function

/-- `blame_parts_t`, the two halves of an entry's word. -/
structure BlameParts where
  objId : UInt32
  blame : UInt32
deriving DecidableEq

/-- `N` entries -/
def tableSize : ℕ := 128 * 1024

def indexMask : UInt32 := 128 * 1024 - 1

def blameMapObjId (obj : UInt64) : UInt32 := obj.toUInt32 >>> 2

def blameMapHash (obj : UInt64) : UInt32 := blameMapObjId obj &&& indexMask

def blameMapEntry (obj : UInt64) (metricValue : UInt32) : BlameParts := ⟨blameMapObjId obj, metricValue⟩

/-- What a thread has yet to do; the loops carry the value of the entry that was read last. -/
inductive Pc where
  | idle
  | addLoad (obj : UInt64) (metricValue : UInt32)
  | addSwap (obj : UInt64) (metricValue : UInt32) (oldval : BlameParts)
  | getLoad (obj : UInt64)
  | getSwap (obj : UInt64) (oldval : BlameParts)
deriving DecidableEq

/-- The table and the threads, with the blame that was added, reported as leaked and returned for each id so far. -/
structure State (Thread : Type) where
  table : UInt32 → BlameParts
  pc : Thread → Pc
  added : UInt32 → ℕ
  leaked : UInt32 → ℕ
  returned : UInt32 → ℕ

inductive Act (Thread : Type) where
  | addBlame (t : Thread) (obj : UInt64) (metricValue : UInt32)
  | getBlame (t : Thread) (obj : UInt64)
  | run (t : Thread)

/-- Counts an amount for an id. -/
def count (f : UInt32 → ℕ) (id : UInt32) (amount : ℕ) : UInt32 → ℕ := update f id (f id + amount)

variable {Thread : Type} [DecidableEq Thread]

def State.move (s : State Thread) (t : Thread) (pc : Pc) : State Thread := { s with pc := update s.pc t pc }

/-- One turn of the loop in `blame_map_add_blame`, up to its exchange. -/
def addSwap (s : State Thread) (t : Thread) (obj : UInt64) (metricValue : UInt32) (oldval : BlameParts) : State Thread :=
  let id := blameMapObjId obj
  let index := blameMapHash obj
  let exchange (newval : BlameParts) : State Thread :=
    if s.table index = oldval then
      { s.move t .idle with table := update s.table index newval, added := count s.added id metricValue.toNat }
    else s.move t (.addSwap obj metricValue (s.table index))
  if oldval.objId = id then exchange { oldval with blame := oldval.blame + metricValue }
  else if oldval.objId = 0 then exchange (blameMapEntry obj metricValue)
  else
    { s.move t .idle with
      added := count s.added id metricValue.toNat, leaked := count s.leaked id metricValue.toNat }

/-- The exchange of `blame_map_get_blame`, which starts again when it fails. -/
def getSwap (s : State Thread) (t : Thread) (obj : UInt64) (oldval : BlameParts) : State Thread :=
  let index := blameMapHash obj
  if s.table index = oldval then
    { s.move t .idle with
      table := update s.table index ⟨0, 0⟩, returned := count s.returned (blameMapObjId obj) oldval.blame.toNat }
  else s.move t (.getLoad obj)

def step (s : State Thread) : Act Thread → Option (State Thread)
  | .addBlame t obj metricValue => if s.pc t = .idle then some (s.move t (.addLoad obj metricValue)) else none
  | .getBlame t obj => if s.pc t = .idle then some (s.move t (.getLoad obj)) else none
  | .run t =>
    match s.pc t with
    | .idle => none
    | .addLoad obj metricValue => some (s.move t (.addSwap obj metricValue (s.table (blameMapHash obj))))
    | .addSwap obj metricValue oldval => some (addSwap s t obj metricValue oldval)
    | .getLoad obj =>
      let oldval := s.table (blameMapHash obj)
      some (s.move t (if oldval.objId = blameMapObjId obj then .getSwap obj oldval else .idle))
    | .getSwap obj oldval => some (getSwap s t obj oldval)

/-- `blame_map_init` -/
def start : State Thread := ⟨fun _ => ⟨0, 0⟩, fun _ => .idle, fun _ => 0, fun _ => 0, fun _ => 0⟩

/-- The blame of an entry if the id owns it. -/
def BlameParts.blameOf (entry : BlameParts) (id : UInt32) : ℕ := if entry.objId = id then entry.blame.toNat else 0

/-- What the table holds for an id. -/
def State.held (s : State Thread) (id : UInt32) : ℕ :=
  ∑ i ∈ Finset.range tableSize, (s.table (.ofNat i)).blameOf id

/-- Objects have non-zero ids, and an entry's total stays below `2 ^ 32`. -/
def Fits (s : State Thread) : Act Thread → Prop
  | .addBlame _ obj _ | .getBlame _ obj => blameMapObjId obj ≠ 0
  | .run t =>
    match s.pc t with
    | .addSwap obj metricValue oldval => oldval.objId = blameMapObjId obj → oldval.blame.toNat + metricValue.toNat < 2 ^ 32
    | _ => True

instance (s : State Thread) (act : Act Thread) : Decidable (Fits s act) := by
  cases act with
  | addBlame t obj metricValue | getBlame t obj => exact inferInstanceAs (Decidable (_ ≠ _))
  | run t =>
    rw [Fits]
    split <;> infer_instance

/-! ## What every run keeps -/

/-- The id for which a thread works, and the index of its entry. -/
def Pc.obj : Pc → Option UInt64
  | .idle => none
  | .addLoad obj _ | .addSwap obj _ _ | .getLoad obj | .getSwap obj _ => some obj

structure Inv (s : State Thread) : Prop where
  named : ∀ t obj, (s.pc t).obj = some obj → blameMapObjId obj ≠ 0
  taking : ∀ t obj oldval, s.pc t = .getSwap obj oldval → oldval.objId = blameMapObjId obj
  placed : ∀ i, (s.table i).objId ≠ 0 → (s.table i).objId &&& indexMask = i
  conserved : ∀ id, id ≠ 0 →
    s.returned id + (s.table (id &&& indexMask)).blameOf id + s.leaked id = s.added id

variable {s s' : State Thread} {t : Thread}

lemma index_lt (id : UInt32) : (id &&& indexMask).toNat < tableSize := by
  rw [UInt32.toNat_and]
  exact lt_of_le_of_lt Nat.and_le_right (by decide)

omit [DecidableEq Thread] in
lemma Inv.held_eq (inv : Inv s) {id : UInt32} (nonzero : id ≠ 0) :
    s.held id = (s.table (id &&& indexMask)).blameOf id := by
  have only : ∀ i ∈ Finset.range tableSize, i ≠ (id &&& indexMask).toNat → (s.table (.ofNat i)).blameOf id = 0 := by
    intro i inside other
    refine if_neg fun owned => other ?_
    have place := inv.placed (.ofNat i) (by rwa [owned])
    rw [owned] at place
    rw [place]
    exact (UInt32.toNat_ofNat_of_lt' (lt_trans (Finset.mem_range.mp inside) (by decide))).symm
  rw [State.held, Finset.sum_eq_single _ only, UInt32.ofNat_toNat]
  exact fun outside => absurd (Finset.mem_range.mpr (index_lt id)) outside

omit [DecidableEq Thread] in
lemma inv_start : Inv (start : State Thread) where
  named _ _ none := nomatch none
  taking _ _ _ none := nomatch none
  placed _ free := absurd rfl free
  conserved id nonzero := by simp [start, BlameParts.blameOf, nonzero.symm]

lemma pc_move (s : State Thread) (t : Thread) (pc : Pc) : (s.move t pc).pc = update s.pc t pc := rfl

section
variable (inv : Inv s)
include inv

lemma Inv.move (t : Thread) {pc : Pc} (named : ∀ obj, pc.obj = some obj → blameMapObjId obj ≠ 0)
    (taking : ∀ obj oldval, pc = .getSwap obj oldval → oldval.objId = blameMapObjId obj) : Inv (s.move t pc) where
  named u obj working := by
    rcases eq_or_ne u t with rfl | other
    · exact named obj (by rwa [pc_move, update_self] at working)
    · exact inv.named u obj (by rwa [pc_move, update_of_ne other] at working)
  taking u obj oldval reading := by
    rcases eq_or_ne u t with rfl | other
    · exact taking obj oldval (by rwa [pc_move, update_self] at reading)
    · exact inv.taking u obj oldval (by rwa [pc_move, update_of_ne other] at reading)
  placed := inv.placed
  conserved := inv.conserved

lemma Inv.idle (t : Thread) : Inv (s.move t .idle) := inv.move t nofun nofun

omit [DecidableEq Thread] in
lemma Inv.exchange {obj : UInt64} {entry : BlameParts} {added returned : UInt32 → ℕ}
    (mine : entry.objId = 0 ∨ entry.objId = blameMapObjId obj)
    (before : (s.table (blameMapHash obj)).objId = 0 ∨ (s.table (blameMapHash obj)).objId = blameMapObjId obj)
    (others : ∀ id, id ≠ blameMapObjId obj → added id = s.added id ∧ returned id = s.returned id)
    (balance : returned (blameMapObjId obj) + entry.blameOf (blameMapObjId obj) + s.leaked (blameMapObjId obj) =
      added (blameMapObjId obj)) :
    Inv { s with table := update s.table (blameMapHash obj) entry, added := added, returned := returned } where
  named := inv.named
  taking := inv.taking
  placed i owned := by
    dsimp only at owned ⊢
    rcases eq_or_ne i (blameMapHash obj) with rfl | other
    · rw [update_self] at owned ⊢
      rw [mine.resolve_left owned]
      rfl
    · rw [update_of_ne other] at owned ⊢
      exact inv.placed i owned
  conserved id nonzero := by
    dsimp only
    rcases eq_or_ne id (blameMapObjId obj) with rfl | other
    · rw [← balance]
      exact congrArg (fun e : BlameParts => _ + e.blameOf _ + _) (update_self _ _ _)
    have old := inv.conserved id nonzero
    obtain ⟨sameAdded, sameReturned⟩ := others id other
    rw [sameAdded, sameReturned, ← old]
    rcases eq_or_ne (id &&& indexMask) (blameMapHash obj) with same | apart
    · have none (e : BlameParts) (owner : e.objId = 0 ∨ e.objId = blameMapObjId obj) : e.blameOf id = 0 := by
        refine if_neg ?_
        rcases owner with owner | owner <;> rw [owner]
        · exact nonzero.symm
        · exact other.symm
      rw [same, update_self, none entry mine, none _ before]
    · rw [update_of_ne apart]

lemma Inv.addSwap {obj : UInt64} {metricValue : UInt32} {oldval : BlameParts}
    (nonzero : blameMapObjId obj ≠ 0)
    (fits : oldval.objId = blameMapObjId obj → oldval.blame.toNat + metricValue.toNat < 2 ^ 32) :
    Inv (BlameShift.addSwap s t obj metricValue oldval) := by
  have now := inv.conserved _ nonzero
  change _ + (s.table (blameMapHash obj)).blameOf _ + _ = _ at now
  have retry : Inv (s.move t (.addSwap obj metricValue (s.table (blameMapHash obj)))) := by
    refine inv.move t ?_ nofun
    intro other same
    cases same
    exact nonzero
  have others : ∀ id, id ≠ blameMapObjId obj →
      count s.added (blameMapObjId obj) metricValue.toNat id = s.added id ∧ s.returned id = s.returned id :=
    fun id other => ⟨update_of_ne other _ _, rfl⟩
  unfold BlameShift.addSwap
  dsimp only
  split_ifs with owned found free found
  · subst found
    refine (inv.idle t).exchange (.inr owned) (.inr owned) others ?_
    have sum : ((s.table (blameMapHash obj)).blame + metricValue).toNat =
        (s.table (blameMapHash obj)).blame.toNat + metricValue.toNat := by
      rw [UInt32.toNat_add, Nat.mod_eq_of_lt (fits owned)]
    rw [count, update_self, ← now, BlameParts.blameOf, BlameParts.blameOf, if_pos owned, if_pos owned, sum]
    change s.returned _ + _ + s.leaked _ = _
    omega
  · exact retry
  · subst found
    refine (inv.idle t).exchange (.inr rfl) (.inl free) others ?_
    rw [BlameParts.blameOf, if_neg (by rw [free]; exact nonzero.symm)] at now
    have whole : (blameMapEntry obj metricValue).blameOf (blameMapObjId obj) = metricValue.toNat := if_pos rfl
    rw [count, update_self, ← now, whole]
    change s.returned _ + metricValue.toNat + s.leaked _ = _
    omega
  · exact retry
  · have idle := inv.idle t
    refine ⟨idle.named, idle.taking, idle.placed, ?_⟩
    intro id nonzero
    have old := inv.conserved id nonzero
    change s.returned id + (s.table (id &&& indexMask)).blameOf id + count s.leaked _ _ id = count s.added _ _ id
    rcases eq_or_ne id (blameMapObjId obj) with rfl | other
    · simp only [count, update_self]
      omega
    · simpa only [count, update_of_ne other] using old

lemma Inv.getSwap {obj : UInt64} {oldval : BlameParts} (taking : s.pc t = .getSwap obj oldval) :
    Inv (BlameShift.getSwap s t obj oldval) := by
  have nonzero := inv.named t obj (by rw [taking]; rfl)
  have owned := inv.taking t obj oldval taking
  have now := inv.conserved _ nonzero
  change _ + (s.table (blameMapHash obj)).blameOf _ + _ = _ at now
  unfold BlameShift.getSwap
  dsimp only
  split_ifs with found
  · subst found
    refine (inv.idle t).exchange (.inl rfl) (.inr owned) (fun id other => ⟨rfl, update_of_ne other _ _⟩) ?_
    rw [BlameParts.blameOf, if_pos owned] at now
    rw [count, update_self, BlameParts.blameOf, if_neg nonzero.symm]
    exact now
  · refine inv.move t ?_ nofun
    intro other same
    cases same
    exact nonzero

lemma Inv.step {act : Act Thread} (fits : Fits s act) (stepped : BlameShift.step s act = some s') :
    Inv s' := by
  cases act with
  | addBlame t obj metricValue | getBlame t obj =>
    obtain ⟨-, same⟩ := Option.ite_none_right_eq_some.mp stepped
    cases same
    refine inv.move t ?_ nofun
    intro other same
    cases same
    exact fits
  | run t =>
    cases now : s.pc t with
    | idle => simp [BlameShift.step, now] at stepped
    | addLoad obj metricValue =>
      simp only [BlameShift.step, now, Option.some.injEq] at stepped
      subst stepped
      refine inv.move t ?_ nofun
      intro other same
      cases same
      exact inv.named t obj (by rw [now]; rfl)
    | addSwap obj metricValue oldval =>
      simp only [BlameShift.step, now, Option.some.injEq] at stepped
      subst stepped
      simp only [Fits, now] at fits
      exact inv.addSwap (inv.named t obj (by rw [now]; rfl)) fits
    | getLoad obj =>
      simp only [BlameShift.step, now, Option.some.injEq] at stepped
      subst stepped
      split_ifs with owned
      · refine inv.move t ?_ ?_
        · intro other same
          cases same
          exact inv.named t obj (by rw [now]; rfl)
        · intro other oldval same
          cases same
          exact owned
      · exact inv.idle t
    | getSwap obj oldval =>
      simp only [BlameShift.step, now, Option.some.injEq] at stepped
      subst stepped
      exact inv.getSwap now

end

/-- In every run what was returned for an id, what the table holds for it and what leaked are what was added for it. -/
theorem blame_conserved (acts : List (Act Thread)) (fits : EveryStep step Fits start acts)
    (ran : acts.foldlM step start = some s) (id : UInt32) (nonzero : id ≠ 0) :
    s.returned id + s.held id + s.leaked id = s.added id := by
  have inv := fits.invariant (fun _ _ _ inv fits stepped => inv.step fits stepped) inv_start ran
  rw [inv.held_eq nonzero]
  exact inv.conserved id nonzero

/-- Another thread takes the blame between a load and its exchange, which fails and is tried again. -/
def contended : List (Act Bool) :=
  [.addBlame false 8 5, .run false, .run false, .addBlame false 8 7, .run false, .getBlame true 8, .run true, .run true,
    .run false, .run false]

theorem contended_conserved : ∃ s, contended.foldlM step start = some s ∧
    s.returned 2 + s.held 2 + s.leaked 2 = s.added 2 :=
  ⟨_, rfl, blame_conserved contended (by decide) rfl 2 (by decide)⟩

end HpcToolkit.BlameShift
