import HpcToolkit.Lib.Heap

/-! # Timepoints

A source sends the timepoints of a thread one by one. They go through a bounded buffer that sorts them, and
from there in batches to the sinks. A timepoint that comes too late for the buffer makes the source start
over, with a larger buffer or with none; then all timepoints are kept and sorted at the end.
-/

open List hiding getElem?_eq_some_iff

namespace HpcToolkit.Pipeline.Timepoints

open Lib Timepoints

/-- The algorithms of the standard library for heaps with the smallest key first, and `std::sort`, as far as
they are documented. -/
structure StdSort {T κ : Type} [LinearOrder κ] (key : T → κ) where
  popHeap : Array T → Array T
  popHeap_spec : ∀ {heap : Array T} {root : T}, IsHeap key heap → heap[0]? = some root →
    ∃ rest, popHeap heap = rest.push root ∧ IsHeap key rest ∧ (rest.push root).Perm heap
  sortHeap : Array T → Array T
  sortHeap_spec : ∀ {heap : Array T}, IsHeap key heap →
    (sortHeap heap).Perm heap ∧ (sortHeap heap).toList.Pairwise fun a b => key b ≤ key a
  sort : List T → List T
  sort_spec : ∀ xs, (sort xs).Perm xs ∧ (sort xs).Pairwise fun a b => key a ≤ key b

/-- What a sink is told: to start over, or some timepoints. -/
inductive Event (T : Type) where
  | rewind
  | points (tps : List T)

structure TimepointsData (T : Type) where
  unboundedDisorder : Bool := false
  heap : Array T := #[]
  bound : ℕ := 0
  staging : List T := []

inductive TimepointStatus where
  | next
  | rewindStart

section
variable {T κ : Type} [LinearOrder κ] {key : T → κ} (std : StdSort key)

/-- `em_replace`: the smallest element, the buffer with the new element in its place, and whether that is the
smallest now. The buffer must not be empty. -/
def replace (heap : Array T) (tp : T) : Option (T × Array T × Bool) := do
  let popped := std.popHeap heap
  let res ← popped.back?
  let (heap, isOver) := pushed key popped.pop tp
  return (res, heap, isOver)

def sorted (heap : Array T) : List T := (std.sortHeap heap).toList.reverse

/-- `tpd.staging.push_back`, and the sinks get at it when it is full enough. -/
def stage (d : TimepointsData T) (tp : T) : TimepointsData T × List (Event T) :=
  let staging := d.staging ++ [tp]
  if 4096 ≤ staging.length then ({ d with staging := [] }, [.points staging])
  else ({ d with staging := staging }, [])

/-- `Source::timepoint`, with what the sinks are told. -/
def timepoint (d : TimepointsData T) (tp : T) : Option (TimepointStatus × TimepointsData T × List (Event T)) :=
  if d.unboundedDisorder then some (.next, { d with staging := d.staging ++ [tp] }, [])
  else if 0 < d.bound then
    if d.heap.size < d.bound then some (.next, { d with heap := (pushed key d.heap tp).1 }, [])
    else do
      let (elem, heap, isOver) ← replace std d.heap tp
      if isOver then
        let d := { d with heap := #[], staging := [] }
        let d := if d.bound < 800 then { d with bound := 1023 } else { d with unboundedDisorder := true }
        return (.rewindStart, d, [.rewind])
      else
        let (d, log) := stage { d with heap := heap } elem
        return (.next, d, log)
  else
    let (d, log) := stage d tp
    some (.next, d, log)

/-- The source sends timepoints until there are no more or it has to start over. -/
def sendUntil (d : TimepointsData T) : List T → Option (TimepointStatus × TimepointsData T × List (Event T))
  | [] => some (.next, d, [])
  | tp :: rest => do
    let (status, d, log) ← timepoint std d tp
    match status with
    | .rewindStart => return (.rewindStart, d, log)
    | .next =>
      let (status, d, log') ← sendUntil d rest
      return (status, d, log ++ log')

/-- The source sends all timepoints, and starts over as often as it has to, but not more than `passes` times. -/
def send : ℕ → TimepointsData T → List T → Option (TimepointsData T × List (Event T))
  | 0, _, _ => none
  | passes + 1, d, tps => do
    let (status, d, log) ← sendUntil std d tps
    match status with
    | .next => return (d, log)
    | .rewindStart =>
      let (d, log') ← send passes d tps
      return (d, log ++ log')

def drain (d : TimepointsData T) : List (Event T) :=
  let staging := if d.unboundedDisorder then std.sort d.staging else d.staging
  (if d.staging.isEmpty then [] else [Event.points staging]) ++
    if d.heap.isEmpty then [] else [Event.points (sorted std d.heap)]

/-- `Source::setup`: the buffer for a declared disorder, which is an `unsigned int`. -/
def setup (disorder : UInt32) : TimepointsData T :=
  if 0 < disorder then { bound := (disorder + 2).toNat } else {}

/-- What the sinks are told of the timepoints of a thread. There are three buffers to try. -/
def timepoints (disorder : UInt32) (tps : List T) : Option (List (Event T)) := do
  let (d, log) ← send std 3 (setup disorder) tps
  return log ++ drain std d

end

/-- The timepoints that a sink has since it was last told to start over. -/
def receive {T : Type} (got : List T) (log : List (Event T)) : List T :=
  log.foldl (fun got e => match e with
    | .rewind => []
    | .points tps => got ++ tps) got

end HpcToolkit.Pipeline.Timepoints

/-! # Timepoints reach the sinks in order

What has left the buffer is in order and not later than what is in the buffer. A timepoint that does not become
the smallest of the buffer is later than the one that it replaces, so that the order is kept; any other one
starts the source over. There are at most three passes, and the last one sorts everything at once.
-/

namespace HpcToolkit.Pipeline.Timepoints

open Lib
open scoped List

section
variable {T κ : Type} [LinearOrder κ] {key : T → κ} {std : StdSort key} {d : TimepointsData T} {got sent : List T}

@[simp] lemma receive_nil (got : List T) : receive got [] = got := rfl

lemma receive_append (got : List T) (log log' : List (Event T)) :
    receive got (log ++ log') = receive (receive got log) log' :=
  foldl_append

lemma receive_stage (got : List T) (d : TimepointsData T) (tp : T) :
    receive got (stage d tp).2 ++ (stage d tp).1.staging = got ++ d.staging ++ [tp] ∧
      (stage d tp).1 = { d with staging := (stage d tp).1.staging } := by
  rw [stage]
  split
  · exact ⟨by simp [receive], rfl⟩
  · exact ⟨by simp [receive], rfl⟩

/-! ## The bounded buffer -/

/-- Some timepoints were sent since the last start, and the sinks have got some of them. -/
structure Buffered (key : T → κ) (d : TimepointsData T) (got sent : List T) : Prop where
  mode : d.unboundedDisorder = false
  positive : 0 < d.bound
  isHeap : IsHeap key d.heap
  filling : d.heap.size < d.bound → got ++ d.staging = []
  all : (got ++ d.staging ++ d.heap.toList).Perm sent
  order : (got ++ d.staging).Pairwise fun a b => key a ≤ key b
  below : ∀ a ∈ got ++ d.staging, ∀ b ∈ d.heap, key a ≤ key b

/-- The buffer that is tried next. -/
def restart (d : TimepointsData T) : TimepointsData T :=
  if d.bound < 800 then { bound := 1023 } else { unboundedDisorder := true, bound := d.bound }

variable {heap : Array T}

lemma replace_spec (std : StdSort key) (isHeap : IsHeap key heap) (some : 0 < heap.size) (tp : T) :
    ∃ root rest, heap[0]? = .some root ∧ IsHeap key rest ∧ (rest.push root).Perm heap ∧
      replace std heap tp = .some (root, (pushed key rest tp).1, (pushed key rest tp).2) := by
  have first : heap[0]? = .some heap[0] := Array.getElem?_eq_getElem some
  obtain ⟨rest, popped, isRest, order⟩ := std.popHeap_spec isHeap first
  refine ⟨_, rest, first, isRest, order, ?_⟩
  simp [replace, popped]

lemma Buffered.push (buffered : Buffered key d got sent) (room : d.heap.size < d.bound) (tp : T) :
    Buffered key { d with heap := (pushed key d.heap tp).1 } got (sent ++ [tp]) := by
  have nothing := buffered.filling room
  have content : ((pushed key d.heap tp).1.toList).Perm (d.heap.toList ++ [tp]) := by
    simpa using (perm_pushed tp).toList
  refine ⟨buffered.mode, buffered.positive, isHeap_pushed buffered.isHeap tp, fun _ => nothing, ?_, buffered.order, ?_⟩
  · have all := buffered.all
    rw [nothing, nil_append] at all ⊢
    exact content.trans (all.append_right [tp])
  · rw [nothing]
    exact fun a member => absurd member not_mem_nil

lemma Buffered.replace (buffered : Buffered key d got sent) (full : d.bound ≤ d.heap.size) {root : T}
    {rest : Array T} (first : d.heap[0]? = some root) (isRest : IsHeap key rest) (order : (rest.push root).Perm d.heap)
    {tp : T} (stopped : (pushed key rest tp).2 = false) :
    Buffered key (stage { d with heap := (pushed key rest tp).1 } root).1
      (receive got (stage { d with heap := (pushed key rest tp).1 } root).2) (sent ++ [tp]) := by
  obtain ⟨staged, frame⟩ := receive_stage got { d with heap := (pushed key rest tp).1 } root
  have least : ∀ x ∈ d.heap, key root ≤ key x := by
    intro x member
    obtain ⟨i, inside, rfl⟩ := Array.mem_iff_getElem.mp member
    exact buffered.isHeap.root_le first (Array.getElem?_eq_getElem inside)
  have content : ((pushed key rest tp).1.toList).Perm (rest.toList ++ [tp]) := by
    simpa using (perm_pushed tp).toList
  have before : (rest.toList ++ [root]).Perm d.heap.toList := by
    simpa using order.toList
  have isRoot : root ∈ d.heap := order.mem_iff.mp Array.mem_push_self
  have others : ∀ x ∈ rest, key root ≤ key x := fun x member =>
    least x (order.mem_iff.mp (Array.mem_push.mpr (.inl member)))
  rw [frame]
  refine ⟨buffered.mode, buffered.positive, isHeap_pushed isRest tp, fun room => ?_, ?_, ?_, ?_⟩
  · have size := order.size_eq
    have grown : (pushed key rest tp).1.size = rest.size + 1 := size_pushed tp
    rw [Array.size_push] at size
    exact absurd room (by dsimp only; omega)
  · dsimp only
    rw [staged]
    dsimp only
    calc got ++ d.staging ++ [root] ++ (pushed key rest tp).1.toList
      _ ~ got ++ d.staging ++ [root] ++ (rest.toList ++ [tp]) := content.append_left _
      _ = got ++ d.staging ++ (root :: rest.toList) ++ [tp] := by simp
      _ ~ got ++ d.staging ++ (rest.toList ++ [root]) ++ [tp] :=
        ((perm_append_singleton root rest.toList).symm.append_left _).append_right _
      _ ~ got ++ d.staging ++ d.heap.toList ++ [tp] := (before.append_left _).append_right _
      _ ~ sent ++ [tp] := buffered.all.append_right _
  · dsimp only
    rw [staged]
    dsimp only
    rw [pairwise_append]
    refine ⟨buffered.order, pairwise_singleton _ _, fun a old b new => ?_⟩
    rw [mem_singleton.mp new]
    exact buffered.below a old root isRoot
  · dsimp only
    rw [staged]
    dsimp only
    intro a old b inside
    have early : key a ≤ key root := by
      rcases mem_append.mp old with older | this
      · exact buffered.below a older root isRoot
      · rw [mem_singleton.mp this]
    refine early.trans ?_
    rcases Array.mem_push.mp ((perm_pushed tp).mem_iff.mp inside) with kept | rfl
    · exact others b kept
    · obtain ⟨y, isRest, less⟩ := exists_lt_of_pushed stopped
      exact (others y isRest).trans less.le

lemma Buffered.timepoint (buffered : Buffered key d got sent) (std : StdSort key) (tp : T) :
    (∃ d' log, timepoint std d tp = some (.next, d', log) ∧ d'.bound = d.bound ∧
      Buffered key d' (receive got log) (sent ++ [tp])) ∨
    timepoint std d tp = some (.rewindStart, restart d, [.rewind]) := by
  have positive := buffered.positive
  rw [Timepoints.timepoint, if_neg (by simp [buffered.mode]), if_pos positive]
  by_cases room : d.heap.size < d.bound
  · rw [if_pos room]
    exact .inl ⟨_, _, rfl, rfl, buffered.push room tp⟩
  · rw [if_neg room]
    obtain ⟨root, rest, first, isRest, order, replaced⟩ := replace_spec std buffered.isHeap (by omega) tp
    simp only [replaced, Option.bind_eq_bind, Option.bind_some]
    cases isOver : (pushed key rest tp).2 with
    | true =>
      refine .inr ?_
      simp only [if_true, restart, buffered.mode]
      split <;> rfl
    | false =>
      refine .inl ⟨_, _, rfl, ?_, buffered.replace (by omega) first isRest order isOver⟩
      rw [(receive_stage got _ root).2]

lemma restart_eq_of_bound {d' : TimepointsData T} (same : d'.bound = d.bound) : restart d' = restart d := by
  rw [restart, restart, same]

lemma Buffered.sendUntil (buffered : Buffered key d got sent) (std : StdSort key) (tps : List T) :
    (∃ d' log, sendUntil std d tps = some (.next, d', log) ∧ Buffered key d' (receive got log) (sent ++ tps)) ∨
    ∃ log, sendUntil std d tps = some (.rewindStart, restart d, log) ∧ receive got log = [] := by
  induction tps generalizing d got sent with
  | nil => exact .inl ⟨d, [], rfl, by simpa using buffered⟩
  | cons tp rest hypothesis =>
    rcases buffered.timepoint std tp with ⟨d', log, sentFirst, bound, later⟩ | rewound
    · rcases hypothesis later with ⟨d'', log', sentRest, finished⟩ | ⟨log', sentRest, nothing⟩
      · refine .inl ⟨d'', log ++ log', ?_, ?_⟩
        · simp [sendUntil, sentFirst, sentRest]
        · rwa [receive_append, append_cons]
      · refine .inr ⟨log ++ log', ?_, by rw [receive_append, nothing]⟩
        rw [restart_eq_of_bound bound] at sentRest
        simp [sendUntil, sentFirst, sentRest]
    · exact .inr ⟨[.rewind], by simp [sendUntil, rewound], rfl⟩

/-! ## Without a bound -/

lemma sendUntil_unbounded (mode : d.unboundedDisorder = true) (tps : List T) :
    sendUntil std d tps = some (.next, { d with staging := d.staging ++ tps }, []) := by
  induction tps generalizing d with
  | nil => simp [sendUntil]
  | cons tp rest hypothesis =>
    have later := hypothesis (d := { d with staging := d.staging ++ [tp] }) mode
    simp only [mode] at later
    simp [sendUntil, timepoint, mode, later]

/-! ## Without a buffer -/

lemma sendUntil_unbuffered (std : StdSort key) (mode : d.unboundedDisorder = false) (bound : d.bound = 0)
    (got tps : List T) :
    ∃ d' log, sendUntil std d tps = some (.next, d', log) ∧ d'.unboundedDisorder = false ∧ d'.heap = d.heap ∧
      receive got log ++ d'.staging = got ++ d.staging ++ tps := by
  induction tps generalizing d got with
  | nil => exact ⟨d, [], rfl, mode, rfl, by simp [receive]⟩
  | cons tp rest hypothesis =>
    obtain ⟨staged, frame⟩ := receive_stage got d tp
    obtain ⟨d', log, sentRest, mode', heap, content⟩ := hypothesis (d := (stage d tp).1) (by rw [frame]; exact mode)
      (by rw [frame]; exact bound) (receive got (stage d tp).2)
    refine ⟨d', (stage d tp).2 ++ log, ?_, mode', by rw [heap, frame], ?_⟩
    · simp [sendUntil, timepoint, mode, bound, sentRest]
    · rw [receive_append, content, staged, append_assoc _ [tp], singleton_append]

/-! ## All passes -/

/-- The sinks get all timepoints in order. -/
def InOrder (key : T → κ) (tps got : List T) : Prop := got ~ tps ∧ got.Pairwise fun a b => key a ≤ key b

lemma isHeap_empty : IsHeap key (#[] : Array T) := by
  intro i x y _ parent
  cases parent

lemma sorted_spec (std : StdSort key) (isHeap : IsHeap key heap) :
    sorted std heap ~ heap.toList ∧ (sorted std heap).Pairwise fun a b => key a ≤ key b := by
  obtain ⟨order, descending⟩ := std.sortHeap_spec isHeap
  exact ⟨(reverse_perm _).trans order.toList, pairwise_reverse.mpr descending⟩

lemma receive_drain_of_bounded (mode : d.unboundedDisorder = false) (isHeap : IsHeap key d.heap) :
    receive got (drain std d) = got ++ d.staging ++ sorted std d.heap := by
  have staged : receive got (if d.staging.isEmpty then [] else [.points d.staging]) = got ++ d.staging := by
    split
    · rename_i nothing
      simp [isEmpty_iff.mp nothing]
    · rfl
  have rest : ∀ before, receive before (if d.heap.isEmpty then [] else [.points (sorted std d.heap)]) =
      before ++ sorted std d.heap := by
    intro before
    split
    · rename_i nothing
      have content := (sorted_spec std isHeap).1
      rw [Array.isEmpty_iff.mp nothing] at content ⊢
      rw [content.eq_nil, receive_nil, append_nil]
    · rfl
  simp only [drain, mode, Bool.false_eq_true, if_false, receive_append, staged, rest]

lemma Buffered.drain (buffered : Buffered key d got sent) (std : StdSort key) :
    InOrder key sent (receive got (drain std d)) := by
  rw [receive_drain_of_bounded buffered.mode buffered.isHeap]
  obtain ⟨content, ascending⟩ := sorted_spec std buffered.isHeap
  refine ⟨(content.append_left _).trans buffered.all, ?_⟩
  refine pairwise_append.mpr ⟨buffered.order, ascending, fun a before b after => ?_⟩
  exact buffered.below a before b (Array.mem_toList_iff.mp (content.mem_iff.mp after))

lemma receive_drain_of_unbounded (mode : d.unboundedDisorder = true) (heap : d.heap = #[]) (std : StdSort key) :
    receive [] (drain std d) = std.sort d.staging := by
  simp only [drain, mode, heap, if_true, Array.isEmpty_empty, append_nil]
  split
  · rename_i nothing
    rw [isEmpty_iff.mp nothing, (std.sort_spec []).1.eq_nil, receive_nil]
  · rfl

lemma send_unbounded (mode : d.unboundedDisorder = true) (heap : d.heap = #[]) (staging : d.staging = [])
    (std : StdSort key) (passes : ℕ) (tps : List T) :
    ∃ d' log, send std (passes + 1) d tps = some (d', log) ∧ InOrder key tps (receive [] (log ++ drain std d')) := by
  refine ⟨{ d with staging := d.staging ++ tps }, [], by simp [send, sendUntil_unbounded mode], ?_⟩
  have drained := receive_drain_of_unbounded (d := { d with staging := d.staging ++ tps }) mode heap std
  rw [nil_append, drained, staging, nil_append]
  exact std.sort_spec tps

lemma Buffered.send (buffered : Buffered key d [] []) (std : StdSort key) {passes : ℕ} {tps : List T}
    (again : ∃ d' log, send std passes (restart d) tps = some (d', log) ∧
      InOrder key tps (receive [] (log ++ Timepoints.drain std d'))) :
    ∃ d' log, send std (passes + 1) d tps = some (d', log) ∧
      InOrder key tps (receive [] (log ++ Timepoints.drain std d')) := by
  rcases buffered.sendUntil std tps with ⟨d', log, sent, finished⟩ | ⟨log, sent, nothing⟩
  · refine ⟨d', log, by simp [Timepoints.send, sent], ?_⟩
    rw [receive_append]
    exact finished.drain std
  · obtain ⟨d', log', resent, inOrder⟩ := again
    refine ⟨d', log ++ log', by simp [Timepoints.send, sent, resent], ?_⟩
    rwa [append_assoc, receive_append, nothing]

variable {bound : ℕ}

lemma buffered_start (positive : 0 < bound) :
    Buffered key ({ bound := bound } : TimepointsData T) [] [] where
  mode := rfl
  positive := positive
  isHeap := isHeap_empty
  filling _ := rfl
  all := .nil
  order := .nil
  below _ member := absurd member not_mem_nil

lemma exists_send_of_bound (std : StdSort key) (positive : 0 < bound) (tps : List T) :
    ∃ d log, send std 3 { bound := bound } tps = some (d, log) ∧ InOrder key tps (receive [] (log ++ drain std d)) := by
  have unbounded : ∀ passes large, ∃ d log,
      send std (passes + 1) { unboundedDisorder := true, bound := large } tps = some (d, log) ∧
      InOrder key tps (receive [] (log ++ drain std d)) := fun passes large => send_unbounded rfl rfl rfl std passes tps
  refine (buffered_start positive).send std ?_
  rw [restart]
  split
  · refine (buffered_start (by decide)).send std ?_
    exact unbounded 0 1023
  · exact unbounded 1 bound

lemma timepoints_of_wraps (std : StdSort key) {disorder : UInt32} (declared : 0 < disorder)
    (wraps : disorder + 2 = 0) (tps : List T) : ∃ log, timepoints std disorder tps = some log ∧ receive [] log = tps := by
  have start : (setup disorder : TimepointsData T) = {} := by
    simp [setup, declared, wraps]
  obtain ⟨d, log, sent, mode, heap, content⟩ := sendUntil_unbuffered (d := ({} : TimepointsData T)) std rfl rfl [] tps
  have isHeap : IsHeap key d.heap := heap ▸ isHeap_empty
  have nothing : sorted std d.heap = [] := by
    have perm := (sorted_spec std isHeap).1
    rw [heap] at perm ⊢
    exact perm.eq_nil
  refine ⟨log ++ drain std d, by simp [timepoints, start, send, sent], ?_⟩
  rw [receive_append, receive_drain_of_bounded mode isHeap, content, nothing]
  simp

/-- The timepoints reach the sinks in order if and only if there is a buffer for them, or they were sent in order. -/
theorem timepoints_inOrder_iff (std : StdSort key) {disorder : UInt32} (declared : 0 < disorder) (tps : List T) :
    (∃ log, timepoints std disorder tps = some log ∧ InOrder key tps (receive [] log)) ↔
      disorder + 2 ≠ 0 ∨ tps.Pairwise fun a b => key a ≤ key b := by
  by_cases wraps : disorder + 2 = 0
  · obtain ⟨log, told, received⟩ := timepoints_of_wraps std declared wraps tps
    constructor
    · rintro ⟨log', told', -, ascending⟩
      rw [told, Option.some_inj] at told'
      rw [← told', received] at ascending
      exact .inr ascending
    · intro condition
      have ascending := condition.resolve_left fun room => room wraps
      exact ⟨log, told, by rw [received], by rwa [received]⟩
  · have bound : 0 < (disorder + 2).toNat := Nat.pos_of_ne_zero fun zero => wraps (UInt32.toNat_inj.mp zero)
    obtain ⟨d, log, sent, inOrder⟩ := exists_send_of_bound std bound tps
    refine iff_of_true ⟨log ++ drain std d, ?_, inOrder⟩ (.inl wraps)
    rw [timepoints, setup, if_pos declared, sent]
    rfl

/-! ## A library -/

lemma pairwise_mergeSort_key (key : T → κ) (xs : List T) :
    (xs.mergeSort fun a b => key a ≤ key b).Pairwise fun a b => key a ≤ key b := by
  have ascending := @pairwise_mergeSort _ (fun a b : T => decide (key a ≤ key b))
    (fun a b c first second => by simpa using (of_decide_eq_true first).trans (of_decide_eq_true second))
    (fun a b => by simpa using le_total (key a) (key b)) xs
  exact ascending.imp of_decide_eq_true

lemma isHeap_of_pairwise {xs : List T} (ascending : xs.Pairwise fun a b => key a ≤ key b) :
    IsHeap key xs.toArray := by
  intro i x y positive parent child
  rw [getElem?_toArray] at parent child
  obtain ⟨first, rfl⟩ := List.getElem?_eq_some_iff.mp parent
  obtain ⟨second, rfl⟩ := getElem?_eq_some_iff.mp child
  exact pairwise_iff_getElem.mp ascending _ _ first second (by omega)

/-- A library that keeps its heaps in order. -/
def sortingLibrary (key : T → κ) : StdSort key where
  popHeap heap := match heap.toList with
    | [] => #[]
    | root :: rest => (rest.mergeSort fun a b => key a ≤ key b).toArray.push root
  popHeap_spec := by
    rintro ⟨content⟩ root _ first
    cases content with
    | nil => cases first
    | cons root rest =>
      cases first
      refine ⟨_, rfl, isHeap_of_pairwise (pairwise_mergeSort_key key rest), ?_⟩
      have order := (mergeSort_perm rest fun a b => key a ≤ key b).append_right [root]
      refine Array.perm_iff_toList_perm.mpr ?_
      simpa using order.trans (perm_append_singleton root rest)
  sortHeap heap := (heap.toList.mergeSort fun a b => key a ≤ key b).reverse.toArray
  sortHeap_spec := by
    intro heap _
    refine ⟨Array.perm_iff_toList_perm.mpr ?_, pairwise_reverse.mpr (pairwise_mergeSort_key key _)⟩
    exact (reverse_perm _).trans (mergeSort_perm _ _)
  sort xs := xs.mergeSort fun a b => key a ≤ key b
  sort_spec xs := ⟨mergeSort_perm _ _, pairwise_mergeSort_key key xs⟩

end

/-- Two timepoints in the wrong order, with the greatest disorder for which there is a buffer of that size. -/
theorem two_timepoints_inOrder :
    ∃ log, timepoints (sortingLibrary fun tp : ℤ × ℕ => tp.1) 4294967293 [(5, 0), (3, 1)] = some log ∧
      InOrder (fun tp : ℤ × ℕ => tp.1) [(5, 0), (3, 1)] (receive [] log) :=
  (timepoints_inOrder_iff _ (by decide) _).mpr (.inl (by decide))

/-- The same timepoints with the next disorder reach the sinks in the wrong order. -/
theorem two_timepoints_unordered :
    ¬ ∃ log, timepoints (sortingLibrary fun tp : ℤ × ℕ => tp.1) 4294967294 [(5, 0), (3, 1)] = some log ∧
      InOrder (fun tp : ℤ × ℕ => tp.1) [(5, 0), (3, 1)] (receive [] log) := by
  rintro ⟨log, told, -, ascending⟩
  obtain ⟨log', told', received⟩ := timepoints_of_wraps
    (sortingLibrary fun tp : ℤ × ℕ => tp.1) (by decide : (0 : UInt32) < 4294967294) (by decide) [(5, 0), (3, 1)]
  rw [told, Option.some_inj] at told'
  rw [told', received] at ascending
  exact absurd ascending (by decide)

end HpcToolkit.Pipeline.Timepoints

/-! # How much disorder the buffer takes

The buffer for a disorder of `k` has room for `k + 2` timepoints. When it is full it holds the latest timepoints so far,
and a new timepoint is too late for it if none of those that stay is earlier. One that is as late as another counts
as too late as well.
-/

namespace HpcToolkit.Pipeline.Timepoints

open Lib
open scoped List

variable {T κ : Type} [LinearOrder κ] {key : T → κ} {d : TimepointsData T} {got sent : List T}

/-- Every timepoint has at most `k` timepoints with a later time before it. -/
def DisorderAtMost (key : T → κ) (k : ℕ) (tps : List T) : Prop :=
  ∀ before tp after, tps = before ++ tp :: after → before.countP (fun a => key tp < key a) ≤ k

/-- The pass goes through to the last timepoint. -/
def NoRewind (std : StdSort key) (d : TimepointsData T) (tps : List T) : Prop :=
  ∃ d' log, sendUntil std d tps = some (.next, d', log)

/-- How many of the timepoints before it are not earlier than a timepoint. -/
def notEarlier (key : T → κ) (before : List T) (tp : T) : ℕ := before.countP fun a => key tp ≤ key a

/-- Every timepoint that comes when `bound` others are there is later than most of them. -/
def Fits (key : T → κ) (bound : ℕ) (sent tps : List T) : Prop :=
  ∀ before tp after, tps = before ++ tp :: after → bound ≤ sent.length + before.length →
    notEarlier key (sent ++ before) tp + 1 < bound

lemma Buffered.isOver_iff (buffered : Buffered key d got sent) (full : d.heap.size = d.bound) {root : T}
    {rest : Array T} (first : d.heap[0]? = some root) (isRest : IsHeap key rest) (order : (rest.push root).Perm d.heap)
    (tp : T) : (pushed key rest tp).2 = true ↔ d.bound ≤ notEarlier key sent tp + 1 := by
  have size : rest.toList.length + 1 = d.bound := by
    rw [← full, ← order.size_eq, Array.size_push, Array.length_toList]
  have content : (got ++ d.staging ++ [root] ++ rest.toList).Perm sent := by
    have before : (rest.toList ++ [root]).Perm d.heap.toList := by simpa using order.toList
    have turned : ([root] ++ rest.toList).Perm (rest.toList ++ [root]) := perm_append_comm
    rw [append_assoc]
    exact ((turned.trans before).append_left _).trans buffered.all
  have count : notEarlier key sent tp =
      notEarlier key (got ++ d.staging ++ [root]) tp + notEarlier key rest.toList tp := by
    rw [notEarlier, ← content.countP_eq, countP_append, notEarlier, notEarlier]
  rw [pushed_isRoot_iff isRest, count]
  constructor
  · intro least
    have all : notEarlier key rest.toList tp = rest.toList.length := by
      rw [notEarlier, countP_eq_length]
      exact fun a member => decide_eq_true (least a (Array.mem_toList_iff.mp member))
    omega
  · intro enough
    by_contra later
    push Not at later
    obtain ⟨y, member, less⟩ := later
    have out : ∀ a ∈ got ++ d.staging ++ [root], key a ≤ key y := by
      have inside : y ∈ d.heap := order.mem_iff.mp (Array.mem_push.mpr (.inl member))
      intro a old
      rcases mem_append.mp old with old | old
      · exact buffered.below a old y inside
      · obtain ⟨i, within, rfl⟩ := Array.mem_iff_getElem.mp inside
        rw [mem_singleton.mp old]
        exact buffered.isHeap.root_le first (Array.getElem?_eq_getElem within)
    have none_out : notEarlier key (got ++ d.staging ++ [root]) tp = 0 := by
      rw [notEarlier, countP_eq_zero]
      intro a old
      simpa using (out a old).trans_lt less
    have not_all : notEarlier key rest.toList tp ≠ rest.toList.length := by
      rw [notEarlier, ne_eq, countP_eq_length]
      intro all
      exact absurd less (not_lt.mpr (of_decide_eq_true (all y (Array.mem_toList_iff.mpr member))))
    have bounded : notEarlier key rest.toList tp ≤ rest.toList.length := countP_le_length
    omega

lemma Buffered.size_eq (buffered : Buffered key d got sent) (within : d.heap.size ≤ d.bound) :
    d.heap.size = min d.bound sent.length := by
  have length := buffered.all.length_eq
  have heap : d.heap.toList.length = d.heap.size := Array.length_toList
  rw [length_append] at length
  rcases Nat.lt_or_ge d.heap.size d.bound with room | full
  · rw [buffered.filling room, length_nil] at length
    omega
  · omega

lemma Buffered.timepoint_iff (buffered : Buffered key d got sent) (within : d.heap.size ≤ d.bound)
    (std : StdSort key) (tp : T) :
    (∃ d' log, Timepoints.timepoint std d tp = some (.next, d', log) ∧ d'.bound = d.bound ∧
      d'.heap.size ≤ d'.bound ∧ Buffered key d' (receive got log) (sent ++ [tp])) ∧
      (d.bound ≤ sent.length → notEarlier key sent tp + 1 < d.bound) ∨
    Timepoints.timepoint std d tp = some (.rewindStart, restart d, [.rewind]) ∧ d.bound ≤ sent.length ∧
      d.bound ≤ notEarlier key sent tp + 1 := by
  have positive := buffered.positive
  have size := buffered.size_eq within
  rw [Timepoints.timepoint, if_neg (by simp [buffered.mode]), if_pos positive]
  by_cases room : d.heap.size < d.bound
  · rw [if_pos room]
    refine .inl ⟨⟨_, _, rfl, rfl, ?_, buffered.push room tp⟩, fun full => ?_⟩
    · rw [size_pushed]
      exact room
    · omega
  · rw [if_neg room]
    obtain ⟨root, rest, first, isRest, order, replaced⟩ := replace_spec std buffered.isHeap (by omega) tp
    have isOver_iff := buffered.isOver_iff (by omega) first isRest order tp
    simp only [replaced, Option.bind_eq_bind, Option.bind_some]
    cases isOver : (pushed key rest tp).2 with
    | true =>
      refine .inr ⟨?_, by omega, isOver_iff.mp isOver⟩
      simp only [if_true, restart, buffered.mode]
      split <;> rfl
    | false =>
      have late : ¬ d.bound ≤ notEarlier key sent tp + 1 := by
        rw [← isOver_iff, isOver]
        exact Bool.false_ne_true
      have same := (receive_stage got { d with heap := (pushed key rest tp).1 } root).2
      refine .inl ⟨⟨_, _, rfl, ?_, ?_, buffered.replace (by omega) first isRest order isOver⟩, fun _ => by omega⟩
      · rw [same]
      · have size_rest := order.size_eq
        rw [Array.size_push] at size_rest
        rw [same]
        dsimp only
        rw [size_pushed]
        omega

variable {bound : ℕ}

lemma fits_nil : Fits key bound sent [] := by
  intro before tp after shape
  cases before <;> cases shape

lemma fits_cons {tp : T} {tps : List T} : Fits key bound sent (tp :: tps) ↔
    (bound ≤ sent.length → notEarlier key sent tp + 1 < bound) ∧ Fits key bound (sent ++ [tp]) tps := by
  constructor
  · intro fits
    refine ⟨fun full => ?_, fun before next after shape full => ?_⟩
    · simpa using fits [] tp tps rfl (by simpa using full)
    · have later := fits (tp :: before) next after (by rw [shape]; rfl)
      rw [append_cons] at later
      apply later
      simp only [length_append, length_cons, length_nil] at full ⊢
      omega
  · rintro ⟨first, later⟩ before next after shape full
    cases before with
    | nil =>
      obtain ⟨rfl, rfl⟩ := cons.inj shape
      simpa using first (by simpa using full)
    | cons tp' before =>
      obtain ⟨rfl, rfl⟩ := cons.inj shape
      rw [append_cons]
      apply later before next after rfl
      simp only [length_append, length_cons, length_nil] at full ⊢
      omega

lemma Buffered.noRewind_iff (buffered : Buffered key d got sent) (within : d.heap.size ≤ d.bound)
    (std : StdSort key) (tps : List T) : NoRewind std d tps ↔ Fits key d.bound sent tps := by
  induction tps generalizing d got sent with
  | nil => exact iff_of_true ⟨d, [], rfl⟩ fits_nil
  | cons tp rest hypothesis =>
    rw [fits_cons]
    rcases buffered.timepoint_iff within std tp with
      ⟨⟨d', log, sentFirst, bound, within', later⟩, late⟩ | ⟨rewound, full, tooLate⟩
    · rw [and_iff_right late, ← bound, ← hypothesis later within']
      constructor
      · rintro ⟨d'', log', through⟩
        rw [Timepoints.sendUntil, sentFirst] at through
        simp only [Option.bind_eq_bind, Option.bind_some, Option.bind_eq_some_iff] at through
        obtain ⟨⟨status, last, log''⟩, sentRest, same⟩ := through
        cases same
        exact ⟨_, _, sentRest⟩
      · rintro ⟨d'', log', sentRest⟩
        exact ⟨d'', log ++ log', by simp [Timepoints.sendUntil, sentFirst, sentRest]⟩
    · refine iff_of_false ?_ fun both => absurd (both.1 full) (by omega)
      rintro ⟨d', log, through⟩
      simp [Timepoints.sendUntil, rewound] at through

lemma noRewind_setup_iff (std : StdSort key) {disorder : UInt32} (declared : 0 < disorder) (tps : List T) :
    NoRewind std (setup disorder) tps ↔ disorder + 2 = 0 ∨ Fits key (disorder + 2).toNat [] tps := by
  rw [setup, if_pos declared]
  by_cases wraps : disorder + 2 = 0
  · obtain ⟨d, log, sent, -⟩ := sendUntil_unbuffered (d := ({ bound := (disorder + 2).toNat } : TimepointsData T)) std
      rfl (by rw [wraps]; rfl) [] tps
    exact iff_of_true ⟨d, log, sent⟩ (.inl wraps)
  · have positive : 0 < (disorder + 2).toNat := Nat.pos_of_ne_zero fun zero => wraps (UInt32.toNat_inj.mp zero)
    rw [(buffered_start positive).noRewind_iff (Nat.zero_le _) std tps]
    exact (or_iff_right wraps).symm

/-- A declared disorder that holds is enough if and only if no timepoint that comes to a full buffer has more than so
many timepoints before it that are not earlier, or the size of the buffer has wrapped around to zero. -/
theorem declared_disorder_iff (std : StdSort key) {disorder : UInt32} (declared : 0 < disorder) (tps : List T) :
    (DisorderAtMost key disorder.toNat tps → NoRewind std (setup disorder) tps) ↔
      (DisorderAtMost key disorder.toNat tps → disorder + 2 = 0 ∨ Fits key (disorder + 2).toNat [] tps) := by
  rw [noRewind_setup_iff std declared]

/-- Timepoints with growing times. -/
theorem growing_disorder :
    (DisorderAtMost id (1 : UInt32).toNat ([1, 2] : List ℤ) →
      NoRewind (sortingLibrary id) (setup 1) ([1, 2] : List ℤ)) ↔
      (DisorderAtMost id (1 : UInt32).toNat ([1, 2] : List ℤ) →
        (1 : UInt32) + 2 = 0 ∨ Fits id ((1 : UInt32) + 2).toNat [] ([1, 2] : List ℤ)) :=
  declared_disorder_iff (sortingLibrary id) (by decide) [1, 2]

/-- Four timepoints with the same time are in order, but the last one is taken for too late. -/
theorem equal_times_rewind : DisorderAtMost id 1 ([0, 0, 0, 0] : List ℤ) ∧
    ¬ NoRewind (sortingLibrary (id : ℤ → ℤ)) (setup 1) [0, 0, 0, 0] := by
  constructor
  · intro before tp after shape
    have zero : ∀ a ∈ ([0, 0, 0, 0] : List ℤ), a = 0 := by decide
    rw [shape] at zero
    have none_later : before.countP (fun a => id tp < id a) = 0 := by
      rw [countP_eq_zero]
      intro a member
      simp [zero a (mem_append_left _ member), zero tp (mem_append_right _ mem_cons_self)]
    exact none_later.le.trans (Nat.zero_le 1)
  · rw [noRewind_setup_iff _ (by decide)]
    rintro (wraps | fits)
    · exact absurd wraps (by decide)
    · exact absurd (fits [0, 0, 0] 0 [] rfl (by decide)) (by decide)

end HpcToolkit.Pipeline.Timepoints
