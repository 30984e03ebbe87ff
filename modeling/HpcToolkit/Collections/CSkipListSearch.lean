import HpcToolkit.Collections.CSkipList

/-! # Searching the skip list

The nodes between the sentinels, in order, with their items and heights, are all there is to a skip list: the nodes of a
layer are those that are high enough, followed by the right sentinel. A search for a key that grades the items leaves in
every layer the last node before the key and the first one that is not.
-/

open Option hiding map_map or_assoc
open Function List

namespace HpcToolkit.Collections.CSkipList

open Lib

variable {N V K A : Type}

/-- A node with its item and its height. -/
structure Entry (N V : Type) where
  node : N
  val : V
  height : ℕ

/-! ## Places in a list of items -/

section Places

variable (cmpfn : V → K → ℤ) (key : K)

/-- First come items before the key, then at most one match, then items behind it. -/
def Graded (l : List (Entry N V)) : Prop := l.Pairwise fun a b => cmpfn a.val key < 0 ∨ 0 < cmpfn b.val key

def before (l : List (Entry N V)) : List (Entry N V) := l.filter fun e => cmpfn e.val key < 0
def rest (l : List (Entry N V)) : List (Entry N V) := l.filter fun e => 0 ≤ cmpfn e.val key
def behind (l : List (Entry N V)) : List (Entry N V) := l.filter fun e => 0 < cmpfn e.val key

variable {cmpfn key} {l : List (Entry N V)} {e : Entry N V}

@[simp] lemma mem_before : e ∈ before cmpfn key l ↔ e ∈ l ∧ cmpfn e.val key < 0 := by simp [before]

@[simp] lemma mem_rest : e ∈ rest cmpfn key l ↔ e ∈ l ∧ 0 ≤ cmpfn e.val key := by simp [rest]

@[simp] lemma mem_behind : e ∈ behind cmpfn key l ↔ e ∈ l ∧ 0 < cmpfn e.val key := by simp [behind]

lemma filter_append_filter_not {p : Entry N V → Prop} [DecidablePred p] (first : l.Pairwise fun a b => p b → p a) :
    l.filter (fun e => p e) ++ l.filter (fun e => ¬ p e) = l := by
  induction l with
  | nil => rfl
  | cons e l ih =>
    obtain ⟨later, first⟩ := pairwise_cons.mp first
    by_cases here : p e
    · simpa [here] using ih first
    · have none : ∀ a ∈ l, ¬ p a := fun a member there => here (later a member there)
      have empty : l.filter (fun e => p e) = [] := filter_eq_nil_iff.mpr fun a member => by simpa using none a member
      have all : l.filter (fun e => ¬ p e) = l := filter_eq_self.mpr fun a member => by simpa using none a member
      simp only [filter_cons, here, decide_false, not_false_eq_true, decide_true, if_true, Bool.false_eq_true,
        if_false, empty, all, nil_append]

namespace Graded

lemma before_append_rest (graded : Graded cmpfn key l) : before cmpfn key l ++ rest cmpfn key l = l := by
  have split := filter_append_filter_not (p := fun e => cmpfn e.val key < 0)
    (graded.imp fun {a b} side below => side.resolve_right below.not_gt)
  simpa only [before, rest, not_lt] using split

lemma upTo_append_behind (graded : Graded cmpfn key l) :
    l.filter (fun e => cmpfn e.val key ≤ 0) ++ behind cmpfn key l = l := by
  have split := filter_append_filter_not (p := fun e => cmpfn e.val key ≤ 0)
    (graded.imp fun {a b} side below => (side.resolve_right below.not_gt).le)
  simpa only [behind, not_le] using split

lemma rest_of_match (graded : Graded cmpfn key l) (member : e ∈ l) («matches» : cmpfn e.val key = 0) :
    rest cmpfn key l = e :: behind cmpfn key l := by
  induction l with
  | nil => cases member
  | cons a l ih =>
    obtain ⟨later, graded⟩ := pairwise_cons.mp graded
    rcases mem_cons.mp member with rfl | member
    · have after : ∀ b ∈ l, 0 < cmpfn b.val key := fun b there => (later b there).resolve_left («matches».symm ▸ by simp)
      have same : rest cmpfn key l = behind cmpfn key l := by
        refine filter_congr fun b there => ?_
        simp [after b there, (after b there).le]
      rw [rest, filter_cons_of_pos (by simp [«matches»]), behind, filter_cons_of_neg (by simp [«matches»])]
      exact congrArg (e :: ·) same
    · have isBefore : cmpfn a.val key < 0 := (later e member).resolve_right («matches».symm ▸ by simp)
      rw [rest, filter_cons_of_neg (by simp [isBefore]), behind,
        filter_cons_of_neg (by simp [isBefore.le])]
      exact ih graded member

lemma rest_of_no_match (missed : ∀ e ∈ l, cmpfn e.val key ≠ 0) : rest cmpfn key l = behind cmpfn key l := by
  refine filter_congr fun e member => ?_
  have := missed e member
  simp only [decide_eq_decide]
  omega

end Graded

end Places

/-! ## What is in memory -/

/-- The layer of a list of entries. -/
def level (es : List (Entry N V)) (layer : ℕ) : List (Entry N V) := es.filter fun e => layer < e.height

lemma level_append {l l' : List (Entry N V)} {layer : ℕ} : level (l ++ l') layer = level l layer ++ level l' layer :=
  filter_append ..

section
variable {cmpfn : V → K → ℤ} {key : K} {l : List (Entry N V)} {layer : ℕ}

lemma before_level : before cmpfn key (level l layer) = level (before cmpfn key l) layer := filter_comm ..
lemma rest_level : rest cmpfn key (level l layer) = level (rest cmpfn key l) layer := filter_comm ..
lemma behind_level : behind cmpfn key (level l layer) = level (behind cmpfn key l) layer := filter_comm ..

end

/-- The last of a list of nodes behind another node. -/
def endOf (n : N) (l : List (Entry N V)) : N := l.foldl (fun _ e => e.node) n

lemma endOf_mem (n : N) (l : List (Entry N V)) : endOf n l ∈ n :: l.map Entry.node := by
  induction l generalizing n with
  | nil => exact mem_cons_self
  | cons e l ih => exact mem_cons_of_mem n (ih e.node)

/-- A node with an item and a height that nobody has marked. -/
def Stored (s : CSkl N V) (n : N) (val : V) (height : ℕ) (fullyLinked : Bool) : Prop :=
  ∃ nexts, s.heap n = some ⟨val, height, fullyLinked, false, nexts⟩

namespace CSkl

variable (s : CSkl N V) (last : V) (es : List (Entry N V))

/-- The right sentinel. -/
def sentinel : Entry N V := ⟨s.rightSentinel, last, 0⟩

/-- The nodes of a layer behind the left sentinel. -/
def row (layer : ℕ) : List (Entry N V) := level es layer ++ [s.sentinel last]

end CSkl

/-- The list has the entries between its sentinels. -/
structure Rep (last : V) (s : CSkl N V) (es : List (Entry N V)) : Prop where
  positive : 0 < s.maxHeight
  left : ∃ val fullyLinked, Stored s s.leftSentinel val s.maxHeight fullyLinked
  right : Stored s s.rightSentinel last 0 false
  entries : ∀ e ∈ es, Stored s e.node e.val e.height true
  heights : ∀ e ∈ es, 0 < e.height ∧ e.height ≤ s.maxHeight
  distinct : (s.leftSentinel :: (es ++ [s.sentinel last]).map Entry.node).Nodup
  linked : ∀ layer < s.maxHeight,
    Chain (s.next layer) ((s.row last es layer).map Entry.node) (s.next layer s.leftSentinel) none

section
variable {s : CSkl N V} {last : V} {es : List (Entry N V)} {layer : ℕ} {e : Entry N V}

lemma Stored.val {n : N} {val : V} {height : ℕ} {linked : Bool} (stored : Stored s n val height linked) :
    s.val n = some val := by
  obtain ⟨nexts, node⟩ := stored
  rw [CSkl.val, node]
  rfl

lemma level_zero (linked : ∀ e ∈ es, 0 < e.height) : level es 0 = es :=
  filter_eq_self.mpr fun e member => decide_eq_true (linked e member)

lemma mem_row : e ∈ s.row last es layer ↔ (e ∈ es ∧ layer < e.height) ∨ e = s.sentinel last := by
  simp [CSkl.row, level]

lemma row_sublist (layer : ℕ) : (s.row last es layer).Sublist (es ++ [s.sentinel last]) :=
  filter_sublist.append (List.Sublist.refl _)

lemma row_subset {lower : ℕ} (below : lower ≤ layer) : s.row last es layer ⊆ s.row last es lower := by
  intro e member
  rw [mem_row] at member ⊢
  exact member.imp_left fun ⟨there, high⟩ => ⟨there, below.trans_lt high⟩

namespace Rep

variable (rep : Rep last s es)
include rep

lemma row_zero : s.row last es 0 = es ++ [s.sentinel last] := by
  rw [CSkl.row, level_zero fun e member => (rep.heights e member).1]

lemma val_row (member : e ∈ s.row last es layer) : s.val e.node = some e.val := by
  rcases mem_row.mp member with ⟨member, -⟩ | rfl
  · exact (rep.entries e member).val
  · exact rep.right.val

lemma distinct_row (layer : ℕ) : (s.leftSentinel :: (s.row last es layer).map Entry.node).Nodup :=
  rep.distinct.sublist (((row_sublist layer).map _).cons_cons _)

end Rep

end

/-! ## A search -/

lemma walk_eq {cmpfn : V → K → ℤ} {key : K} {s : CSkl N V} {layer fuel : ℕ} {pred stop : N} {val : V}
    {l : List (Entry N V)} (chain : Chain (s.next layer) (l.map Entry.node) (s.next layer pred) (some stop))
    (vals : ∀ e ∈ l, s.val e.node = some e.val) (early : ∀ e ∈ l, cmpfn e.val key < 0) (stopVal : s.val stop = some val)
    (stops : 0 ≤ cmpfn val key) (enough : l.length < fuel) :
    walk cmpfn key s layer fuel pred = some (endOf pred l, stop) := by
  induction l generalizing pred fuel with
  | nil =>
    obtain ⟨fuel, rfl⟩ := Nat.exists_eq_succ_of_ne_zero (Nat.ne_zero_of_lt enough)
    have here : s.next layer pred = some stop := chain
    simp [walk, here, stopVal, stops.not_gt, endOf]
  | cons e l ih =>
    obtain ⟨fuel, rfl⟩ := Nat.exists_eq_succ_of_ne_zero (Nat.ne_zero_of_lt enough)
    obtain ⟨here, chain⟩ := chain
    have goesOn : cmpfn e.val key < 0 := early e mem_cons_self
    have value : s.val e.node = some e.val := vals e mem_cons_self
    simp only [walk, here, value, bind_eq_bind, bind_some, if_pos goesOn]
    exact ih chain (fun a member => vals a (mem_cons_of_mem e member))
      (fun a member => early a (mem_cons_of_mem e member)) (by simpa using enough)

section
variable (cmpfn : V → K → ℤ) (key : K) (s : CSkl N V) (last : V) (es : List (Entry N V))

/-- The node before the key in a layer. -/
def predAt (layer : ℕ) : N := endOf s.leftSentinel (before cmpfn key (s.row last es layer))

/-- The first node of a layer that is not before the key. -/
def stopAt (layer : ℕ) : Entry N V := (rest cmpfn key (s.row last es layer)).headD (s.sentinel last)

/-- The first match from the top among the layers below a number. -/
def topMatch : ℕ → Option ℕ
  | 0 => none
  | layer + 1 => if cmpfn (stopAt cmpfn key s last es layer).val key = 0 then some layer else topMatch layer

end

section
variable {cmpfn : V → K → ℤ} {key : K} {s : CSkl N V} {last : V} {es : List (Entry N V)} {layer layers fuel : ℕ}

lemma chain_start {next : N → Option N} {p : Option N} {l : List (Entry N V)} {e : Entry N V}
    (chain : Chain next ((l ++ [e]).map Entry.node) p none) : p = some ((l ++ [e]).headD e).node := by
  cases l with
  | nil => exact chain.1
  | cons a l => exact chain.1

lemma chain_from {next : N → Option N} {p q : N} {m : Option N} {l : List (Entry N V)}
    (chain : Chain next (l.map Entry.node) (next p) m) (member : q ∈ p :: l.map Entry.node) :
    ∃ l', l' <:+ l ∧ Chain next (l'.map Entry.node) (next q) m ∧ endOf q l' = endOf p l := by
  induction l generalizing p with
  | nil =>
    obtain rfl : q = p := by simpa using member
    exact ⟨[], suffix_rfl, chain, rfl⟩
  | cons e l ih =>
    rcases mem_cons.mp member with rfl | later
    · exact ⟨e :: l, suffix_rfl, chain, rfl⟩
    · obtain ⟨l', suffix, chain, same⟩ := ih chain.2 later
      exact ⟨l', suffix.trans (suffix_cons e l), chain, same⟩

lemma mem_of_headD {l : List (Entry N V)} {e : Entry N V} : (l ++ [e]).headD e ∈ l ++ [e] := by
  cases l <;> simp

lemma rest_row (sentinel : 0 ≤ cmpfn last key) :
    rest cmpfn key (s.row last es layer) = rest cmpfn key (level es layer) ++ [s.sentinel last] := by
  rw [CSkl.row, rest, filter_append, rest]
  simp [CSkl.sentinel, sentinel]

lemma before_row (sentinel : 0 ≤ cmpfn last key) :
    before cmpfn key (s.row last es layer) = before cmpfn key (level es layer) := by
  rw [CSkl.row, before, filter_append, before]
  simp [CSkl.sentinel, sentinel]

lemma stopAt_mem (s : CSkl N V) (es : List (Entry N V)) (layer : ℕ) (sentinel : 0 ≤ cmpfn last key) :
    stopAt cmpfn key s last es layer ∈ rest cmpfn key (s.row last es layer) := by
  rw [stopAt, rest_row sentinel]
  exact mem_of_headD

lemma topMatch_none (none : topMatch cmpfn key s last es layers = none) :
    ∀ layer < layers, cmpfn (stopAt cmpfn key s last es layer).val key ≠ 0 := by
  induction layers with
  | zero => simp
  | succ top ih =>
    rw [topMatch] at none
    split at none
    · cases none
    · next missed =>
      intro layer below
      rcases Nat.lt_succ_iff_lt_or_eq.mp below with lower | rfl
      · exact ih none layer lower
      · exact missed

lemma topMatch_of_missed (missed : ∀ layer < layers, cmpfn (stopAt cmpfn key s last es layer).val key ≠ 0) :
    topMatch cmpfn key s last es layers = none := by
  induction layers with
  | zero => rfl
  | succ layer ih =>
    rw [topMatch, if_neg (missed layer (Nat.lt_succ_self _))]
    exact ih fun lower below => missed lower (Nat.lt_succ_of_lt below)

lemma topMatch_some {top : ℕ} (found : topMatch cmpfn key s last es layers = some top) :
    top < layers ∧ cmpfn (stopAt cmpfn key s last es top).val key = 0 ∧
      ∀ layer, top < layer → layer < layers → cmpfn (stopAt cmpfn key s last es layer).val key ≠ 0 := by
  induction layers with
  | zero => cases found
  | succ layers ih =>
    rw [topMatch] at found
    split at found
    · next «matches» =>
      cases found
      exact ⟨Nat.lt_succ_self _, «matches», fun layer above below => by omega⟩
    · next missed =>
      obtain ⟨below, «matches», others⟩ := ih found
      refine ⟨by omega, «matches», fun layer above bound => ?_⟩
      rcases Nat.lt_succ_iff_lt_or_eq.mp bound with lower | rfl
      · exact others layer above lower
      · exact missed

section
variable (graded : Graded cmpfn key (es ++ [s.sentinel last]))
include graded

lemma graded_row (layer : ℕ) : Graded cmpfn key (s.row last es layer) :=
  List.Pairwise.sublist (row_sublist layer) graded

lemma stopAt_of_match {e : Entry N V} (member : e ∈ s.row last es layer) («matches» : cmpfn e.val key = 0) :
    stopAt cmpfn key s last es layer = e := by
  rw [stopAt, (graded_row graded layer).rest_of_match member «matches»]
  rfl

lemma stopAt_below (sentinel : 0 ≤ cmpfn last key) {lower : ℕ} (below : lower ≤ layer)
    («matches» : cmpfn (stopAt cmpfn key s last es layer).val key = 0) :
    stopAt cmpfn key s last es lower = stopAt cmpfn key s last es layer :=
  stopAt_of_match graded (row_subset below (mem_rest.mp (stopAt_mem s es layer sentinel)).1) «matches»

end

lemma early_below {lower : ℕ} (below : lower ≤ layer) :
    predAt cmpfn key s last es layer ∈ s.leftSentinel :: (before cmpfn key (s.row last es lower)).map Entry.node := by
  refine cons_subset_cons _ (map_subset _ fun e member => ?_) (endOf_mem _ _)
  rw [mem_before] at member ⊢
  exact ⟨row_subset below member.1, member.2⟩

namespace Rep

variable (rep : Rep last s es) (graded : Graded cmpfn key (es ++ [s.sentinel last])) (sentinel : 0 ≤ cmpfn last key)
include rep graded sentinel

lemma split_row (below : layer < s.maxHeight) :
    Chain (s.next layer) ((before cmpfn key (s.row last es layer)).map Entry.node) (s.next layer s.leftSentinel)
        (some (stopAt cmpfn key s last es layer).node) ∧
      Chain (s.next layer) ((rest cmpfn key (s.row last es layer)).map Entry.node)
        (some (stopAt cmpfn key s last es layer).node) none := by
  have gradedRow : Graded cmpfn key (s.row last es layer) := graded_row graded layer
  have linked := rep.linked layer below
  rw [← gradedRow.before_append_rest, map_append] at linked
  obtain ⟨m, front, back⟩ := Chain.append.mp linked
  have start := back
  rw [rest_row sentinel] at start
  obtain rfl := chain_start start
  rw [← rest_row sentinel] at front back
  exact ⟨front, back⟩

variable {pred : N}

lemma walk_row (below : layer < s.maxHeight)
    (early : pred ∈ s.leftSentinel :: (before cmpfn key (s.row last es layer)).map Entry.node)
    (enough : es.length < fuel) :
    walk cmpfn key s layer fuel pred =
      some (predAt cmpfn key s last es layer, (stopAt cmpfn key s last es layer).node) := by
  have gradedRow : Graded cmpfn key (s.row last es layer) := graded_row graded layer
  have front := (rep.split_row graded sentinel below).1
  have stopMem := mem_rest.mp (stopAt_mem s es layer sentinel)
  obtain ⟨l, suffix, chain, same⟩ := chain_from front early
  have shorter : l.length ≤ es.length := by
    refine suffix.length_le.trans ?_
    have short : (before cmpfn key (s.row last es layer)).length < (s.row last es layer).length := by
      conv_rhs => rw [← gradedRow.before_append_rest, length_append, rest_row sentinel, length_append]
      simp
    have wide : (s.row last es layer).length ≤ (es ++ [s.sentinel last]).length := (row_sublist layer).length_le
    rw [length_append, length_singleton] at wide
    omega
  rw [predAt, ← same]
  refine walk_eq chain ?_ ?_ (rep.val_row stopMem.1) stopMem.2 (shorter.trans_lt enough)
  · exact fun e member => rep.val_row (mem_before.mp (suffix.mem member)).1
  · exact fun e member => (mem_before.mp (suffix.mem member)).2

lemma findHelper_full (found : Found N) (high : layers ≤ s.maxHeight)
    (early : ∀ layer < layers, pred ∈ s.leftSentinel :: (before cmpfn key (s.row last es layer)).map Entry.node)
    (enough : es.length < fuel) :
    ∃ found', findHelper cmpfn key s fuel .full layers pred found = some found' ∧
      found'.foundLayer = found.foundLayer.or (topMatch cmpfn key s last es layers) ∧
      (∀ layer < layers, found'.preds layer = some (predAt cmpfn key s last es layer) ∧
        found'.succs layer = some (stopAt cmpfn key s last es layer).node) ∧
      ∀ layer, layers ≤ layer → found'.preds layer = found.preds layer ∧ found'.succs layer = found.succs layer := by
  induction layers generalizing pred found with
  | zero => exact ⟨found, rfl, by simp [topMatch], by simp, fun _ _ => ⟨rfl, rfl⟩⟩
  | succ layer ih =>
    have walked := rep.walk_row graded sentinel high (early layer (Nat.lt_succ_self _)) enough
    have value := rep.val_row (mem_rest.mp (stopAt_mem s es layer sentinel)).1
    have goesOn : findHelper cmpfn key s fuel .full (layer + 1) pred found =
        findHelper cmpfn key s fuel .full layer (predAt cmpfn key s last es layer)
          ⟨found.foundLayer.or (if cmpfn (stopAt cmpfn key s last es layer).val key = 0 then some layer else none),
            update found.preds layer (some (predAt cmpfn key s last es layer)),
            update found.succs layer (some (stopAt cmpfn key s last es layer).node)⟩ := by
      simp only [findHelper, walked, value, bind_eq_bind, bind_some]
      cases found.foundLayer with
      | none => by_cases met : cmpfn (stopAt cmpfn key s last es layer).val key = 0 <;> simp [met]
      | some top => simp
    obtain ⟨found', searched, top, filled, kept⟩ :=
      ih _ (Nat.le_of_succ_le high) fun lower below => early_below (Nat.le_of_lt below)
    refine ⟨found', goesOn.trans searched, ?_, ?_, ?_⟩
    · rw [top, Option.or_assoc, topMatch]
      split <;> simp
    · intro lower below
      rcases Nat.lt_succ_iff_lt_or_eq.mp below with lower | rfl
      · exact filled _ lower
      · simpa using kept lower le_rfl
    · intro upper above
      have other : upper ≠ layer := by omega
      simpa [other] using kept upper (by omega)

lemma findHelper_earlyExit (found : Found N) (high : layers ≤ s.maxHeight) (none : found.foundLayer = none)
    (early : ∀ layer < layers, pred ∈ s.leftSentinel :: (before cmpfn key (s.row last es layer)).map Entry.node)
    (enough : es.length < fuel) :
    ∃ found', findHelper cmpfn key s fuel .earlyExit layers pred found = some found' ∧
      found'.foundLayer = topMatch cmpfn key s last es layers ∧
      ∀ top ∈ found'.foundLayer, found'.succs top = some (stopAt cmpfn key s last es top).node := by
  induction layers generalizing pred found with
  | zero => exact ⟨found, rfl, none, by simp [none]⟩
  | succ layer ih =>
    have walked := rep.walk_row graded sentinel high (early layer (Nat.lt_succ_self _)) enough
    have value := rep.val_row (mem_rest.mp (stopAt_mem s es layer sentinel)).1
    simp only [findHelper, walked, value, bind_eq_bind, bind_some, none, true_and, topMatch]
    split
    · exact ⟨_, rfl, rfl, by simp⟩
    · exact ih _ (Nat.le_of_succ_le high) rfl fun lower below => early_below (Nat.le_of_lt below)

lemma cskiplistFind_eq (enough : es.length < fuel) :
    ∃ result, cskiplistFind cmpfn key s fuel = some result ∧
      ∀ w, result = some w ↔ ∃ e ∈ es, e.val = w ∧ cmpfn w key = 0 := by
  obtain ⟨found, searched, top, succs⟩ := rep.findHelper_earlyExit graded sentinel Found.nothing le_rfl rfl
    (fun layer _ => mem_cons_self) enough
  have bottom : ∀ e ∈ es, e ∈ s.row last es 0 := fun e member => by
    rw [rep.row_zero]
    exact mem_append_left _ member
  cases «match» : found.foundLayer with
  | none =>
    refine ⟨none, by simp [cskiplistFind, searched, «match»], fun w => ⟨(nomatch ·), ?_⟩⟩
    rintro ⟨e, member, rfl, «matches»⟩
    have missed := topMatch_none (top.symm.trans «match») 0 rep.positive
    rw [stopAt_of_match graded (bottom e member) «matches»] at missed
    exact absurd «matches» missed
  | some layer =>
    obtain ⟨-, «matches», -⟩ := topMatch_some (top.symm.trans «match»)
    have here := (stopAt_below graded sentinel (Nat.zero_le layer) «matches»).symm
    have only : ∀ e ∈ es, cmpfn e.val key = 0 → e = stopAt cmpfn key s last es layer := fun e member equal =>
      (here.trans (stopAt_of_match graded (bottom e member) equal)).symm
    rcases mem_row.mp (mem_rest.mp (stopAt_mem s es layer sentinel)).1 with ⟨member, -⟩ | last
    · obtain ⟨nexts, stored⟩ := rep.entries _ member
      refine ⟨some (stopAt cmpfn key s last es layer).val, ?_, fun w => ?_⟩
      · simp [cskiplistFind, searched, «match», succs layer «match», stored]
      · constructor
        · rintro ⟨⟩
          exact ⟨_, member, rfl, «matches»⟩
        · rintro ⟨e, there, rfl, equal⟩
          rw [only e there equal]
    · obtain ⟨nexts, stored⟩ := rep.right
      refine ⟨none, ?_, fun w => ⟨(nomatch ·), ?_⟩⟩
      · simp [cskiplistFind, searched, «match», succs layer «match», last, CSkl.sentinel, stored]
      · rintro ⟨e, member, rfl, equal⟩
        have linked := (rep.heights e member).1
        rw [only e member equal, last] at linked
        exact absurd linked (lt_irrefl 0)

end Rep

end

end HpcToolkit.Collections.CSkipList

/-! # Links of the skip list that change

Insertion and deletion change one layer after another, and what they do in a layer depends on that layer alone. So the
links that a loop over layers leaves can be given at once, and a layer whose last link before a place is redirected is
the list before that place and what the link leads to now.
-/

namespace HpcToolkit.Collections.CSkipList

open Lib

variable {N V K A : Type}

/-! ## Lists of nodes -/

section
variable {next next' : N → Option N} {p : N} {m m' : Option N} {l : List (Entry N V)}

lemma chain_end (chain : Chain next (l.map Entry.node) (next p) m) : next (endOf p l) = m := by
  induction l generalizing p with
  | nil => exact chain
  | cons e l ih => exact ih chain.2

lemma chain_redirect (chain : Chain next (l.map Entry.node) (next p) m) (distinct : (p :: l.map Entry.node).Nodup)
    (redirected : next' (endOf p l) = m') (same : ∀ n ∈ p :: l.map Entry.node, n ≠ endOf p l → next' n = next n) :
    Chain next' (l.map Entry.node) (next' p) m' := by
  induction l generalizing p with
  | nil => exact redirected
  | cons e l ih =>
    obtain ⟨outside, distinct⟩ := nodup_cons.mp distinct
    have other : p ≠ endOf p (e :: l) := fun here => outside (here ▸ endOf_mem e.node l)
    rw [same p mem_cons_self other]
    exact ⟨chain.1, ih chain.2 distinct redirected fun n member => same n (mem_cons_of_mem p member)⟩

end

/-! ## Changed links -/

namespace CSkl

variable (s : CSkl N V)

/-- The list with some links replaced. -/
def relink (links : ℕ → N → Option N) : CSkl N V :=
  { s with
    heap := fun n => (s.heap n).map fun node => { node with nexts := fun layer => (links layer n).or (node.nexts layer) } }

/-- The node is in use and has a link for the layer. -/
def Tall (layer : ℕ) (n : N) : Prop := ∃ node, s.heap n = some node ∧ layer < node.height

variable {s} {links : ℕ → N → Option N} {layer : ℕ} {n target : N}

lemma relink_none : s.relink (fun _ _ => none) = s := by
  cases s
  simp [relink]

lemma Tall.relink (tall : s.Tall layer n) : (s.relink links).Tall layer n := by
  obtain ⟨node, stored, high⟩ := tall
  exact ⟨{ node with nexts := fun layer => (links layer n).or (node.nexts layer) }, by simp [CSkl.relink, stored], high⟩

lemma next_relink (tall : s.Tall layer n) : (s.relink links).next layer n = (links layer n).or (s.next layer n) := by
  obtain ⟨node, stored, high⟩ := tall
  simp [next, CSkl.relink, stored, high]

lemma next_relink_of_none (same : links layer n = none) : (s.relink links).next layer n = s.next layer n := by
  cases stored : s.heap n <;> simp [next, CSkl.relink, stored, same]

lemma relink_relink {more : ℕ → N → Option N} :
    (s.relink links).relink more = s.relink fun layer n => (more layer n).or (links layer n) := by
  simp only [relink, Option.map_map, CSkl.mk.injEq, true_and]
  funext n
  congr 1
  funext node
  simp [Option.or_assoc]

lemma setNext_eq [DecidableEq N] (tall : s.Tall layer n) :
    s.setNext n layer target = some (s.relink fun l m => if l = layer ∧ m = n then some target else none) := by
  obtain ⟨node, stored, high⟩ := tall
  simp only [setNext, stored, bind_eq_bind, bind_some, if_pos high, store, relink, Option.some.injEq,
    CSkl.mk.injEq, true_and]
  funext m
  rcases eq_or_ne m n with rfl | other
  · simp only [update_self, stored, map_some, Option.some.injEq, Node.mk.injEq, true_and, and_true]
    funext l
    rcases eq_or_ne l layer with rfl | different
    · simp
    · simp [different]
  · cases there : s.heap m <;> simp [other, there]

lemma foldlM_relink {f : CSkl N V → ℕ → Option (CSkl N V)} (links changed : ℕ → N → Option N) {layers : List ℕ}
    (distinct : layers.Nodup)
    (step : ∀ links, ∀ layer ∈ layers, (∀ n, links layer n = none) →
      f (s.relink links) layer = some (s.relink fun l n => if l = layer then changed l n else links l n))
    (untouched : ∀ layer ∈ layers, ∀ n, links layer n = none) :
    layers.foldlM f (s.relink links) = some (s.relink fun l n => if l ∈ layers then changed l n else links l n) := by
  induction layers generalizing links with
  | nil => simp
  | cons layer layers ih =>
    obtain ⟨outside, distinct⟩ := nodup_cons.mp distinct
    rw [foldlM_cons, step links layer mem_cons_self (untouched layer mem_cons_self)]
    have others : ∀ l ∈ layers, l ≠ layer := fun l member same => outside (same ▸ member)
    have later := ih (fun l n => if l = layer then changed l n else links l n) distinct
      (fun links l member => step links l (mem_cons_of_mem layer member)) fun l member n => by
        rw [if_neg (others l member)]
        exact untouched l (mem_cons_of_mem layer member) n
    refine later.trans (congrArg (fun links => some (s.relink links)) ?_)
    funext l n
    rcases eq_or_ne l layer with rfl | other
    · simp
    · simp [other]

end CSkl

/-! ## Memory that is not in use -/

section
variable [DecidableEq N] {s : CSkl N V} {last : V} {es : List (Entry N V)} {n m : N} {node : Option (Node N V)} {layer : ℕ}

lemma store_heap_ne (other : n ≠ m) : (s.store m node).heap n = s.heap n := update_of_ne other ..

lemma next_store_ne (other : n ≠ m) : (s.store m node).next layer n = s.next layer n := by
  rw [CSkl.next, store_heap_ne other, CSkl.next]

variable {height : ℕ}

lemma Stored.store {val : V} {linked : Bool} (stored : Stored s n val height linked) (other : n ≠ m) :
    Stored (s.store m node) n val height linked := by
  obtain ⟨nexts, here⟩ := stored
  exact ⟨nexts, (store_heap_ne other).trans here⟩

lemma free_malloc {value : V} (fresh : s.heap m = none) : (s.malloc m height value).free m = s := by
  cases s
  simp_all [CSkl.malloc, CSkl.free, CSkl.store]

omit [DecidableEq N] in
lemma mem_nodes_of_row (member : n ∈ s.leftSentinel :: (s.row last es layer).map Entry.node) :
    n ∈ s.leftSentinel :: (es ++ [s.sentinel last]).map Entry.node :=
  cons_subset_cons _ (map_subset _ (row_sublist layer).subset) member

namespace Rep

variable (rep : Rep last s es)
include rep

section
omit [DecidableEq N]

lemma stored (member : n ∈ s.leftSentinel :: (es ++ [s.sentinel last]).map Entry.node) :
    ∃ val height linked, Stored s n val height linked := by
  rcases mem_cons.mp member with rfl | member
  · obtain ⟨val, linked, stored⟩ := rep.left
    exact ⟨val, _, linked, stored⟩
  obtain ⟨e, there, rfl⟩ := mem_map.mp member
  rcases mem_append.mp there with there | there
  · exact ⟨_, _, _, rep.entries e there⟩
  · obtain rfl := mem_singleton.mp there
    exact ⟨_, _, _, rep.right⟩

lemma tall (below : layer < s.maxHeight) (member : n ∈ s.leftSentinel :: (level es layer).map Entry.node) :
    s.Tall layer n := by
  rcases mem_cons.mp member with rfl | member
  · obtain ⟨val, linked, nexts, stored⟩ := rep.left
    exact ⟨_, stored, below⟩
  · obtain ⟨e, there, rfl⟩ := mem_map.mp member
    obtain ⟨there, high⟩ := mem_filter.mp there
    obtain ⟨nexts, stored⟩ := rep.entries e there
    exact ⟨_, stored, of_decide_eq_true high⟩

lemma fresh_ne (fresh : s.heap m = none) (member : n ∈ s.leftSentinel :: (es ++ [s.sentinel last]).map Entry.node) :
    n ≠ m :=
  fun same => by
    obtain ⟨val, height, linked, nexts, stored⟩ := rep.stored member
    rw [same, fresh] at stored
    cases stored

end

lemma store (node : Option (Node N V)) (fresh : s.heap m = none) : Rep last (s.store m node) es where
  positive := rep.positive
  left := by
    obtain ⟨val, linked, stored⟩ := rep.left
    exact ⟨val, linked, stored.store (rep.fresh_ne fresh mem_cons_self)⟩
  right := rep.right.store (rep.fresh_ne fresh (by simp [CSkl.sentinel]))
  entries e member := (rep.entries e member).store (rep.fresh_ne fresh (by simp; exact .inr (.inl ⟨e, member, rfl⟩)))
  heights := rep.heights
  distinct := rep.distinct
  linked layer below := by
    have apart (n : N) (member : n ∈ s.leftSentinel :: (s.row last es layer).map Entry.node) : n ≠ m :=
      rep.fresh_ne fresh (mem_nodes_of_row member)
    have start : (s.store m node).next layer s.leftSentinel = s.next layer s.leftSentinel :=
      next_store_ne (apart _ mem_cons_self)
    refine (start ▸ rep.linked layer below : Chain (s.next layer) _ _ _).congr fun n member => ?_
    exact next_store_ne (apart n (mem_cons_of_mem _ member))

end Rep

end

section
variable {cmpfn : V → K → ℤ} {key : K} {s : CSkl N V} {last : V} {es : List (Entry N V)} {layer : ℕ} (rep : Rep last s es)
  (sentinel : 0 ≤ cmpfn last key) (below : layer < s.maxHeight)
include rep sentinel below

lemma Rep.tall_pred : s.Tall layer (predAt cmpfn key s last es layer) := by
  refine rep.tall below (cons_subset_cons _ (map_subset _ ?_) (endOf_mem _ _))
  rw [before_row sentinel]
  exact filter_subset_self _

lemma Rep.next_pred (graded : Graded cmpfn key (es ++ [s.sentinel last])) :
    s.next layer (predAt cmpfn key s last es layer) = some (stopAt cmpfn key s last es layer).node :=
  chain_end (rep.split_row graded sentinel below).1

end

end HpcToolkit.Collections.CSkipList
