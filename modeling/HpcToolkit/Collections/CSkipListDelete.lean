import HpcToolkit.Collections.CSkipListSearch

/-! # Deletion of a range from the skip list

Two searches give the nodes before the lower and before the upper bound in each layer. The link of the former is set to
the first node behind the upper bound, which is the second but one after the latter if that is followed by a match.
-/

open List

namespace HpcToolkit.Collections.CSkipList

open Lib CSkl

variable {N V K A : Type}

section
variable (cmpfn : V → K → ℤ) (lo hi : K)

/-- The item is neither before the lower nor behind the upper bound. -/
def inRange (val : V) : Bool := decide (0 ≤ cmpfn val lo) && decide (cmpfn val hi ≤ 0)

/-- The bounds are in order for the items of a list. -/
def Bounds (l : List (Entry N V)) : Prop := ∀ e ∈ l, cmpfn e.val lo < 0 → cmpfn e.val hi < 0

def middle (l : List (Entry N V)) : List (Entry N V) := l.filter fun e => inRange cmpfn lo hi e.val

end

section
variable {cmpfn : V → K → ℤ} {lo hi : K} {l : List (Entry N V)}

lemma rest_upTo : rest cmpfn lo (l.filter fun e => cmpfn e.val hi ≤ 0) = middle cmpfn lo hi l := by
  rw [rest, filter_filter, middle]
  refine filter_congr fun e _ => ?_
  rfl

lemma rest_behind (bounds : Bounds cmpfn lo hi l) : rest cmpfn lo (behind cmpfn hi l) = behind cmpfn hi l := by
  refine filter_eq_self.mpr fun e member => ?_
  obtain ⟨there, after⟩ := mem_behind.mp member
  by_contra low
  have := bounds e there (by simpa using low)
  omega

lemma rest_eq_middle_append_behind (graded : Graded cmpfn hi l) (bounds : Bounds cmpfn lo hi l) :
    rest cmpfn lo l = middle cmpfn lo hi l ++ behind cmpfn hi l := by
  conv_lhs => rw [← graded.upTo_append_behind, rest, filter_append]
  exact congrArg₂ (· ++ ·) rest_upTo (rest_behind bounds)

lemma filter_not_inRange (gradedLo : Graded cmpfn lo l) (gradedHi : Graded cmpfn hi l) (bounds : Bounds cmpfn lo hi l) :
    (l.filter fun e => !inRange cmpfn lo hi e.val) = before cmpfn lo l ++ behind cmpfn hi l := by
  have split := gradedLo.before_append_rest
  rw [rest_eq_middle_append_behind gradedHi bounds] at split
  conv_lhs => rw [← split, filter_append, filter_append]
  have front : ((before cmpfn lo l).filter fun e => !inRange cmpfn lo hi e.val) = before cmpfn lo l := by
    refine filter_eq_self.mpr fun e member => ?_
    simpa [inRange] using .inl (mem_before.mp member).2
  have none : ((middle cmpfn lo hi l).filter fun e => !inRange cmpfn lo hi e.val) = [] := by
    refine filter_eq_nil_iff.mpr fun e member => ?_
    simpa using (mem_filter.mp member).2
  have back : ((behind cmpfn hi l).filter fun e => !inRange cmpfn lo hi e.val) = behind cmpfn hi l := by
    refine filter_eq_self.mpr fun e member => ?_
    simpa [inRange] using .inr (mem_behind.mp member).2
  rw [front, none, back, nil_append]

end

/-! ## The links behind the range -/

section
variable {cmpfn : V → K → ℤ} {lo hi : K} {s : CSkl N V} {last : V} {es : List (Entry N V)} {layer : ℕ}

/-- The first node of a layer behind the upper bound. -/
def targetAt (cmpfn : V → K → ℤ) (hi : K) (s : CSkl N V) (last : V) (es : List (Entry N V)) (layer : ℕ) : Entry N V :=
  (behind cmpfn hi (s.row last es layer)).headD (s.sentinel last)

lemma behind_row (sentinel : 0 < cmpfn last hi) :
    behind cmpfn hi (s.row last es layer) = behind cmpfn hi (level es layer) ++ [s.sentinel last] := by
  rw [CSkl.row, behind, filter_append, behind]
  simp [CSkl.sentinel, sentinel]

lemma targetAt_mem (sentinel : 0 < cmpfn last hi) :
    targetAt cmpfn hi s last es layer ∈ behind cmpfn hi (s.row last es layer) := by
  rw [targetAt, behind_row sentinel]
  exact mem_of_headD

lemma targetAt_of_missed (graded : Graded cmpfn hi (es ++ [s.sentinel last]))
    (missed : cmpfn (stopAt cmpfn hi s last es layer).val hi ≠ 0) :
    targetAt cmpfn hi s last es layer = stopAt cmpfn hi s last es layer := by
  have none : ∀ e ∈ s.row last es layer, cmpfn e.val hi ≠ 0 := fun e member equal =>
    missed (stopAt_of_match graded member equal ▸ equal)
  rw [targetAt, stopAt, Graded.rest_of_no_match none]

namespace Rep

variable (rep : Rep last s es) (graded : Graded cmpfn hi (es ++ [s.sentinel last])) (sentinel : 0 < cmpfn last hi)
  (below : layer < s.maxHeight)
include rep graded sentinel below

lemma next_match («matches» : cmpfn (stopAt cmpfn hi s last es layer).val hi = 0) :
    s.next layer (stopAt cmpfn hi s last es layer).node = some (targetAt cmpfn hi s last es layer).node ∧
      s.Tall layer (stopAt cmpfn hi s last es layer).node := by
  have member := (mem_rest.mp (stopAt_mem s es layer sentinel.le)).1
  have back := (rep.split_row graded sentinel.le below).2
  rw [(graded_row graded layer).rest_of_match member «matches», behind_row sentinel] at back
  refine ⟨chain_start back.2 |>.trans ?_, ?_⟩
  · rw [targetAt, behind_row sentinel]
  · rcases mem_row.mp member with inList | isSentinel
    · refine rep.tall below (mem_cons_of_mem _ (mem_map_of_mem (mem_filter.mpr ?_)))
      exact ⟨inList.1, decide_eq_true inList.2⟩
    · have equal : cmpfn last hi = 0 := by simpa [isSentinel, CSkl.sentinel] using «matches»
      omega

end Rep

end

/-! ## Splicing -/

/-- What splicing out a range changes: in each layer the last node before it leads to the first one behind it. -/
structure Spliced (cmpfn : V → K → ℤ) (lo hi : K) (s s' : CSkl N V) (last : V) (es : List (Entry N V)) : Prop where
  left : s'.leftSentinel = s.leftSentinel
  right : s'.rightSentinel = s.rightSentinel
  maxHeight : s'.maxHeight = s.maxHeight
  stored {n : N} {val : V} {height : ℕ} {linked : Bool} : Stored s n val height linked → Stored s' n val height linked
  nextPred : ∀ layer < s.maxHeight,
    s'.next layer (predAt cmpfn lo s last es layer) = some (targetAt cmpfn hi s last es layer).node
  nextOther : ∀ layer n, n ≠ predAt cmpfn lo s last es layer → s'.next layer n = s.next layer n

section
variable {cmpfn : V → K → ℤ} {lo hi : K} {s : CSkl N V} {last : V} {es : List (Entry N V)}

/-- Links of the nodes before the range, in some of the layers. -/
def spliceLinks [DecidableEq N] (cmpfn : V → K → ℤ) (lo hi : K) (s : CSkl N V) (last : V) (es : List (Entry N V))
    (layers : ℕ → Prop) [DecidablePred layers] (layer : ℕ) (n : N) : Option N :=
  if layers layer then
    if n = predAt cmpfn lo s last es layer then some (targetAt cmpfn hi s last es layer).node else none
  else none

lemma spliced_relink [DecidableEq N] {layers : ℕ → Prop} [DecidablePred layers] (rep : Rep last s es)
    (sentinel : 0 ≤ cmpfn last lo)
    (unset : ∀ layer < s.maxHeight, ¬ layers layer →
      s.next layer (predAt cmpfn lo s last es layer) = some (targetAt cmpfn hi s last es layer).node) :
    Spliced cmpfn lo hi s (s.relink (spliceLinks cmpfn lo hi s last es layers)) last es where
  left := rfl
  right := rfl
  maxHeight := rfl
  stored := by
    rintro n val height linked ⟨nexts, stored⟩
    exact ⟨fun layer => (spliceLinks cmpfn lo hi s last es layers layer n).or (nexts layer), by simp [relink, stored]⟩
  nextPred layer below := by
    by_cases set : layers layer
    · rw [next_relink (rep.tall_pred sentinel below), spliceLinks, if_pos set, if_pos rfl, Option.some_or]
    · rw [next_relink_of_none (by rw [spliceLinks, if_neg set])]
      exact unset layer below set
  nextOther layer n other := next_relink_of_none (by simp [spliceLinks, other])

variable [DecidableEq N] {layers : ℕ → Prop} [DecidablePred layers]

lemma foldlM_splice {f : CSkl N V → ℕ → Option (CSkl N V)} {ls : List ℕ} (distinct : ls.Nodup)
    (untouched : ∀ layer ∈ ls, ¬ layers layer) (tall : ∀ layer ∈ ls, s.Tall layer (predAt cmpfn lo s last es layer))
    (step : ∀ links, ∀ layer ∈ ls, (∀ n, links layer n = none) → f (s.relink links) layer =
      (s.relink links).setNext (predAt cmpfn lo s last es layer) layer (targetAt cmpfn hi s last es layer).node) :
    ls.foldlM f (s.relink (spliceLinks cmpfn lo hi s last es layers)) =
      some (s.relink (spliceLinks cmpfn lo hi s last es fun layer => layer ∈ ls ∨ layers layer)) := by
  have ran := foldlM_relink (s := s) (f := f) (spliceLinks cmpfn lo hi s last es layers)
    (spliceLinks cmpfn lo hi s last es fun _ => True) distinct ?_ fun layer member n => by
      rw [spliceLinks, if_neg (untouched layer member)]
  · rw [ran]
    refine congrArg (fun links => some (s.relink links)) ?_
    funext layer n
    by_cases inLoop : layer ∈ ls <;> simp [spliceLinks, inLoop]
  · intro links layer member none
    rw [step links layer member none, setNext_eq (tall layer member).relink, relink_relink]
    refine congrArg (fun links => some (s.relink links)) ?_
    funext l n
    rcases eq_or_ne l layer with rfl | other
    · by_cases here : n = predAt cmpfn lo s last es l <;> simp [spliceLinks, here, none]
    · simp [other]

omit [DecidableEq N] in
lemma spliceLinks_nowhere [DecidableEq N] : spliceLinks cmpfn lo hi s last es (fun _ => False) = fun _ _ => none := by
  funext layer n
  exact if_neg not_false

variable {links : ℕ → N → Option N}

lemma spliceBetween_eq {lpreds succs : ℕ → Option N} {layer : ℕ} {lpred succ target : N}
    (lower : lpreds layer = some lpred) (upper : succs layer = some succ) (next : s.next layer succ = some target)
    (none : ∀ n, links layer n = none) :
    spliceBetween lpreds succs (s.relink links) layer = (s.relink links).setNext lpred layer target := by
  simp [spliceBetween, lower, upper, next_relink_of_none (none _), next]

lemma spliceFound_eq {lpreds succs : ℕ → Option N} {layer : ℕ} {lpred succ found target : N}
    (lower : lpreds layer = some lpred) (upper : succs layer = some succ) (next : s.next layer succ = some found)
    (after : s.next layer found = some target) (none : ∀ n, links layer n = none) :
    spliceFound lpreds succs (s.relink links) layer = (s.relink links).setNext lpred layer target := by
  simp [spliceFound, lower, upper, next_relink_of_none (none _), next, after]

section
omit [DecidableEq N]

lemma mem_downFrom {bound layer : ℕ} : layer ∈ downFrom bound ↔ layer < bound := by simp [downFrom]

lemma nodup_downFrom (bound : ℕ) : (downFrom bound).Nodup := nodup_reverse.mpr nodup_range

lemma layersUpTo_topMatch (graded : Graded cmpfn hi (es ++ [s.sentinel last])) (sentinel : 0 ≤ cmpfn last hi)
    (top : ℕ) :
    layersUpTo (topMatch cmpfn hi s last es top) ≤ top ∧
      (∀ layer < layersUpTo (topMatch cmpfn hi s last es top), cmpfn (stopAt cmpfn hi s last es layer).val hi = 0) ∧
      ∀ layer < top, layersUpTo (topMatch cmpfn hi s last es top) ≤ layer →
        cmpfn (stopAt cmpfn hi s last es layer).val hi ≠ 0 := by
  cases found : topMatch cmpfn hi s last es top with
  | none =>
    have missed := topMatch_none found
    exact ⟨Nat.zero_le _, fun layer below => absurd below (Nat.not_lt_zero _), fun layer below _ => missed layer below⟩
  | some layer =>
    obtain ⟨below, «matches», others⟩ := topMatch_some found
    refine ⟨below, fun lower under => ?_, fun upper under above => others upper above under⟩
    rw [stopAt_below graded sentinel (Nat.le_of_lt_succ under) «matches»]
    exact «matches»

end

section
variable {lpreds : ℕ → Option N} (rep : Rep last s es) (gradedLo : Graded cmpfn lo (es ++ [s.sentinel last]))
  (sentinelLo : 0 ≤ cmpfn last lo) (lower : ∀ layer < s.maxHeight, lpreds layer = some (predAt cmpfn lo s last es layer))
include rep gradedLo sentinelLo lower

lemma splices_match (sentinel : 0 < cmpfn last lo) :
    ∃ s', Spliced cmpfn lo lo s s' last es ∧
      (downFrom (layersUpTo (topMatch cmpfn lo s last es s.maxHeight))).foldlM (spliceFound lpreds lpreds) s = some s' := by
  obtain ⟨high, matched, missed⟩ := layersUpTo_topMatch gradedLo sentinelLo s.maxHeight
  generalize layersUpTo (topMatch cmpfn lo s last es s.maxHeight) = bound at high matched missed
  have spliced : (downFrom bound).foldlM (spliceFound lpreds lpreds)
      (s.relink (spliceLinks cmpfn lo lo s last es fun _ => False)) =
        some (s.relink (spliceLinks cmpfn lo lo s last es fun layer => layer ∈ downFrom bound ∨ False)) := by
    refine foldlM_splice (nodup_downFrom bound) (fun _ _ => not_false) ?_ ?_
    · exact fun layer member => rep.tall_pred sentinelLo ((mem_downFrom.mp member).trans_le high)
    · intro links layer member none
      have under := mem_downFrom.mp member
      have below := under.trans_le high
      exact spliceFound_eq (lower layer below) (lower layer below) (rep.next_pred sentinelLo below gradedLo)
        (rep.next_match gradedLo sentinel below (matched layer under)).1 none
  rw [spliceLinks_nowhere, relink_none] at spliced
  refine ⟨_, spliced_relink rep sentinelLo fun layer below unset => ?_, spliced⟩
  rw [mem_downFrom, or_false, not_lt] at unset
  rw [targetAt_of_missed gradedLo (missed layer below unset)]
  exact rep.next_pred sentinelLo below gradedLo

omit gradedLo in
lemma splices_range {hpreds : ℕ → Option N} (gradedHi : Graded cmpfn hi (es ++ [s.sentinel last]))
    (sentinelHi : 0 < cmpfn last hi)
    (upper : ∀ layer < s.maxHeight, hpreds layer = some (predAt cmpfn hi s last es layer)) :
    ∃ s₁ s', Spliced cmpfn lo hi s s' last es ∧
      ((downFrom s.maxHeight).filter (layersUpTo (topMatch cmpfn hi s last es s.maxHeight) ≤ ·)).foldlM
        (spliceBetween lpreds hpreds) s = some s₁ ∧
      (downFrom (layersUpTo (topMatch cmpfn hi s last es s.maxHeight))).foldlM (spliceFound lpreds hpreds) s₁ =
        some s' := by
  obtain ⟨high, matched, missed⟩ := layersUpTo_topMatch gradedHi sentinelHi.le s.maxHeight
  generalize layersUpTo (topMatch cmpfn hi s last es s.maxHeight) = bound at high matched missed
  have above {layer : ℕ} (member : layer ∈ (downFrom s.maxHeight).filter (bound ≤ ·)) :
      layer < s.maxHeight ∧ bound ≤ layer := by
    obtain ⟨below, reached⟩ := mem_filter.mp member
    exact ⟨mem_downFrom.mp below, of_decide_eq_true reached⟩
  have first : ((downFrom s.maxHeight).filter (bound ≤ ·)).foldlM (spliceBetween lpreds hpreds)
      (s.relink (spliceLinks cmpfn lo hi s last es fun _ => False)) =
        some (s.relink (spliceLinks cmpfn lo hi s last es
          fun layer => layer ∈ (downFrom s.maxHeight).filter (bound ≤ ·) ∨ False)) := by
    refine foldlM_splice ((nodup_downFrom _).filter _) (fun _ _ => not_false) ?_ ?_
    · exact fun layer member => rep.tall_pred sentinelLo (above member).1
    · intro links layer member none
      obtain ⟨below, reached⟩ := above member
      refine spliceBetween_eq (lower layer below) (upper layer below) ?_ none
      rw [targetAt_of_missed gradedHi (missed layer below reached)]
      exact rep.next_pred sentinelHi.le below gradedHi
  have second : (downFrom bound).foldlM (spliceFound lpreds hpreds) (s.relink (spliceLinks cmpfn lo hi s last es
      fun layer => layer ∈ (downFrom s.maxHeight).filter (bound ≤ ·) ∨ False)) =
        some (s.relink (spliceLinks cmpfn lo hi s last es fun layer =>
          layer ∈ downFrom bound ∨ layer ∈ (downFrom s.maxHeight).filter (bound ≤ ·) ∨ False)) := by
    refine foldlM_splice (nodup_downFrom bound) ?_ ?_ ?_
    · intro layer member set
      exact absurd (mem_downFrom.mp member) (above (set.resolve_right not_false)).2.not_gt
    · exact fun layer member => rep.tall_pred sentinelLo ((mem_downFrom.mp member).trans_le high)
    · intro links layer member none
      have under := mem_downFrom.mp member
      have below := under.trans_le high
      exact spliceFound_eq (lower layer below) (upper layer below) (rep.next_pred sentinelHi.le below gradedHi)
        (rep.next_match gradedHi sentinelHi below (matched layer under)).1 none
  rw [spliceLinks_nowhere, relink_none] at first
  refine ⟨_, _, spliced_relink rep sentinelLo fun layer below unset => ?_, first, second⟩
  exfalso
  simp only [mem_downFrom, mem_filter, decide_eq_true_eq, or_false, not_or, not_and, not_le, not_lt] at unset
  exact absurd (unset.2 below) unset.1.not_gt

end

lemma delBulk_eq [DecidableEq K] {fuel : ℕ} (rep : Rep last s es)
    (gradedLo : Graded cmpfn lo (es ++ [s.sentinel last])) (gradedHi : Graded cmpfn hi (es ++ [s.sentinel last]))
    (sentinelLo : 0 ≤ cmpfn last lo) (sentinelHi : 0 < cmpfn last hi) (bounds : Bounds cmpfn lo hi es)
    (enough : es.length < fuel) :
    ∃ s', Spliced cmpfn lo hi s s' last es ∧ delBulk cmpfn fuel s lo hi =
      (freeUntil (targetAt cmpfn hi s last es 0).node fuel (stopAt cmpfn lo s last es 0).node s').map
        fun left => (decide ((stopAt cmpfn lo s last es 0).node ≠ (targetAt cmpfn hi s last es 0).node), left) := by
  obtain ⟨low, searchedLo, topLo, filledLo, -⟩ := rep.findHelper_full gradedLo sentinelLo Found.nothing le_rfl
    (fun _ _ => mem_cons_self) enough
  have lower := fun layer below => (filledLo layer below).1
  have first := rep.next_pred sentinelLo rep.positive gradedLo
  rcases eq_or_ne lo hi with rfl | different
  · obtain ⟨s', spliced, ran⟩ := splices_match rep gradedLo sentinelLo lower sentinelHi
    have top : low.foundLayer = topMatch cmpfn lo s last es s.maxHeight := topLo
    refine ⟨s', spliced, ?_⟩
    simp only [delBulk, searchedLo, lower 0 rep.positive, first, top, ran, spliced.nextPred 0 rep.positive, if_true,
      Option.bind_eq_bind, Option.bind_some]
    cases freeUntil _ fuel _ s' <;> rfl
  · have early (layer : ℕ) (below : layer < s.maxHeight) : predAt cmpfn lo s last es (s.maxHeight - 1) ∈
        s.leftSentinel :: (before cmpfn hi (s.row last es layer)).map Entry.node := by
      have there : predAt cmpfn lo s last es (s.maxHeight - 1) ∈
          s.leftSentinel :: (before cmpfn lo (s.row last es layer)).map Entry.node :=
        early_below (Nat.le_sub_one_of_lt below)
      refine cons_subset_cons _ (map_subset _ fun e member => ?_) there
      rw [before_row sentinelLo, mem_before] at member
      rw [before_row sentinelHi.le, mem_before]
      exact ⟨member.1, bounds e (mem_filter.mp member.1).1 member.2⟩
    obtain ⟨high, searchedHi, topHi, filledHi, -⟩ := rep.findHelper_full gradedHi sentinelHi.le Found.nothing le_rfl
      early enough
    have upper := fun layer below => (filledHi layer below).1
    obtain ⟨s₁, s', spliced, ran, ran'⟩ := splices_range rep sentinelLo lower gradedHi sentinelHi upper
    have top : high.foundLayer = topMatch cmpfn hi s last es s.maxHeight := topHi
    refine ⟨s', spliced, ?_⟩
    simp only [delBulk, searchedLo, lower 0 rep.positive, first, if_neg different,
      lower (s.maxHeight - 1) (Nat.sub_lt rep.positive Nat.zero_lt_one), searchedHi, top, ran, ran',
      spliced.nextPred 0 rep.positive, Option.bind_eq_bind, Option.bind_some]
    cases freeUntil _ fuel _ s' <;> rfl

end

/-! ## The list without the range -/

section
variable {cmpfn : V → K → ℤ} {lo hi : K} {s s' : CSkl N V} {last : V} {es : List (Entry N V)} {layer : ℕ}

lemma bounds_row (bounds : Bounds cmpfn lo hi es) (sentinelLo : 0 ≤ cmpfn last lo) :
    Bounds cmpfn lo hi (s.row last es layer) := by
  intro e member
  rcases mem_row.mp member with ⟨there, -⟩ | rfl
  · exact bounds e there
  · exact fun low => absurd low sentinelLo.not_gt

section
variable (rep : Rep last s es) (gradedLo : Graded cmpfn lo (es ++ [s.sentinel last]))
  (gradedHi : Graded cmpfn hi (es ++ [s.sentinel last])) (sentinelLo : 0 ≤ cmpfn last lo) (sentinelHi : 0 < cmpfn last hi)
  (bounds : Bounds cmpfn lo hi es)
include rep gradedLo gradedHi sentinelLo sentinelHi bounds

lemma Rep.split_range (below : layer < s.maxHeight) :
    Chain (s.next layer) ((before cmpfn lo (s.row last es layer)).map Entry.node) (s.next layer s.leftSentinel)
        (some (stopAt cmpfn lo s last es layer).node) ∧
      Chain (s.next layer) ((middle cmpfn lo hi (s.row last es layer)).map Entry.node)
        (some (stopAt cmpfn lo s last es layer).node) (some (targetAt cmpfn hi s last es layer).node) ∧
      Chain (s.next layer) ((behind cmpfn hi (s.row last es layer)).map Entry.node)
        (some (targetAt cmpfn hi s last es layer).node) none := by
  obtain ⟨front, back⟩ := rep.split_row gradedLo sentinelLo below
  rw [rest_eq_middle_append_behind (graded_row gradedHi layer) (bounds_row bounds sentinelLo), map_append] at back
  obtain ⟨m, inside, after⟩ := Chain.append.mp back
  have start := after
  rw [behind_row sentinelHi] at start
  obtain rfl := chain_start start
  rw [← behind_row sentinelHi] at inside after
  exact ⟨front, inside, after⟩

lemma Spliced.represents (spliced : Spliced cmpfn lo hi s s' last es) :
    Rep last s' (before cmpfn lo es ++ behind cmpfn hi es) := by
  have sublist : (before cmpfn lo es ++ behind cmpfn hi es).Sublist es := by
    have kept := filter_not_inRange (gradedLo.sublist (sublist_append_left _ _))
      (gradedHi.sublist (sublist_append_left _ _)) bounds
    exact kept ▸ filter_sublist
  have sameSentinel : s'.sentinel last = s.sentinel last := by rw [sentinel, spliced.right, sentinel]
  constructor
  case positive => rw [spliced.maxHeight]; exact rep.positive
  case left =>
    obtain ⟨val, linked, stored⟩ := rep.left
    rw [spliced.left, spliced.maxHeight]
    exact ⟨val, linked, spliced.stored stored⟩
  case right =>
    rw [spliced.right]
    exact spliced.stored rep.right
  case entries => exact fun e member => spliced.stored (rep.entries e (sublist.mem member))
  case heights =>
    rw [spliced.maxHeight]
    exact fun e member => rep.heights e (sublist.mem member)
  case distinct =>
    rw [spliced.left, sameSentinel]
    exact rep.distinct.sublist (((sublist.append (List.Sublist.refl _)).map _).cons_cons _)
  case linked =>
    intro layer below
    rw [spliced.maxHeight] at below
    have whole : s'.row last (before cmpfn lo es ++ behind cmpfn hi es) layer =
        before cmpfn lo (s.row last es layer) ++ behind cmpfn hi (s.row last es layer) := by
      rw [row, sameSentinel, level_append, ← before_level, ← behind_level, before_row sentinelLo,
        behind_row sentinelHi, append_assoc]
    have distinct := rep.distinct_row layer
    rw [← (graded_row gradedLo layer).before_append_rest,
      rest_eq_middle_append_behind (graded_row gradedHi layer) (bounds_row bounds sentinelLo), map_append,
      ← cons_append] at distinct
    obtain ⟨front, -, back⟩ := rep.split_range gradedLo gradedHi sentinelLo sentinelHi bounds below
    rw [whole, spliced.left, map_append]
    refine Chain.append.mpr ⟨some (targetAt cmpfn hi s last es layer).node, ?_, ?_⟩
    · exact chain_redirect front (List.Nodup.of_append_left distinct) (spliced.nextPred layer below)
        fun n _ other => spliced.nextOther layer n other
    · refine back.congr fun n member => spliced.nextOther layer n fun same => ?_
      rw [same] at member
      refine disjoint_of_nodup_append distinct (endOf_mem _ _) ?_
      rw [map_append]
      exact mem_append_right _ member

end

end

/-! ## Freeing the nodes -/

section
variable [DecidableEq N] {s : CSkl N V} {last : V} {es : List (Entry N V)}

/-- The list after some nodes have been freed. -/
def CSkl.freeAll (s : CSkl N V) (nodes : List N) : CSkl N V :=
  { s with heap := fun n => if n ∈ nodes then none else s.heap n }

lemma freeAll_free (n : N) (nodes : List N) : (s.free n).freeAll nodes = s.freeAll (n :: nodes) := by
  simp only [freeAll, free, store, CSkl.mk.injEq, true_and]
  funext m
  by_cases later : m ∈ nodes <;> by_cases here : m = n <;> simp [later, here]

variable {nodes : List N}

omit [DecidableEq N] in
lemma chain_head {next : N → Option N} {p : Option N} {q : N} (chain : Chain next nodes p (some q)) :
    ∃ n, p = some n := by
  cases nodes with
  | nil => exact ⟨q, chain⟩
  | cons n nodes => exact ⟨n, chain.1⟩

lemma freeUntil_eq {first last : N} {fuel : ℕ}
    (chain : Chain (s.next 0) nodes (some first) (some last)) (distinct : nodes.Nodup) (outside : last ∉ nodes)
    (enough : nodes.length ≤ fuel) : freeUntil last fuel first s = some (s.freeAll nodes) := by
  induction nodes generalizing first s fuel with
  | nil =>
    obtain rfl : first = last := Option.some.inj chain
    have same : s.freeAll [] = s := by simp [freeAll]
    rw [same]
    cases fuel <;> simp [freeUntil]
  | cons n nodes ih =>
    obtain ⟨here, chain⟩ := chain
    obtain rfl : first = n := Option.some.inj here
    obtain ⟨fuel, rfl⟩ := Nat.exists_eq_succ_of_ne_zero (Nat.ne_zero_of_lt (Nat.lt_of_lt_of_le Nat.zero_lt_one
      ((Nat.le_add_left 1 nodes.length).trans enough)))
    obtain ⟨fresh, distinct⟩ := nodup_cons.mp distinct
    obtain ⟨notHere, outside⟩ : last ≠ first ∧ last ∉ nodes := by simpa using outside
    obtain ⟨following, next⟩ := chain_head chain
    rw [next] at chain
    have kept : Chain ((s.free first).next 0) nodes (some following) (some last) :=
      chain.congr fun n member => next_store_ne fun same => fresh (same ▸ member)
    simp only [freeUntil, if_neg (Ne.symm notHere), next, Option.bind_eq_bind, Option.bind_some]
    rw [ih kept distinct outside (by simpa using enough), freeAll_free]

lemma Rep.freeAll (rep : Rep last s es)
    (apart : ∀ n ∈ s.leftSentinel :: (es ++ [s.sentinel last]).map Entry.node, n ∉ nodes) :
    Rep last (s.freeAll nodes) es := by
  have heap {n : N} (member : n ∈ s.leftSentinel :: (es ++ [s.sentinel last]).map Entry.node) :
      (s.freeAll nodes).heap n = s.heap n := if_neg (apart n member)
  have stored {n : N} {val : V} {height : ℕ} {linked : Bool}
      (member : n ∈ s.leftSentinel :: (es ++ [s.sentinel last]).map Entry.node) :
      Stored s n val height linked → Stored (s.freeAll nodes) n val height linked := by
    rintro ⟨nexts, here⟩
    exact ⟨nexts, (heap member).trans here⟩
  constructor
  case positive => exact rep.positive
  case left =>
    obtain ⟨val, linked, here⟩ := rep.left
    exact ⟨val, linked, stored mem_cons_self here⟩
  case right => exact stored (n := s.rightSentinel) (by simp [sentinel]) rep.right
  case entries =>
    intro e member
    refine stored ?_ (rep.entries e member)
    exact mem_cons_of_mem _ (mem_map_of_mem (mem_append_left _ member))
  case heights => exact rep.heights
  case distinct => exact rep.distinct
  case linked =>
    intro layer below
    have next {n : N} (member : n ∈ s.leftSentinel :: (s.row last es layer).map Entry.node) :
        (s.freeAll nodes).next layer n = s.next layer n := by
      rw [CSkl.next, heap (mem_nodes_of_row member), CSkl.next]
    have start := next mem_cons_self
    refine (start ▸ rep.linked layer below : Chain (s.next layer) _ _ _).congr fun n member => ?_
    exact next (mem_cons_of_mem _ member)

end

lemma delBulk_range [DecidableEq N] [DecidableEq K] {cmpfn : V → K → ℤ} {lo hi : K} {s : CSkl N V} {last : V}
    {es : List (Entry N V)} {fuel : ℕ} (rep : Rep last s es) (gradedLo : Graded cmpfn lo (es ++ [s.sentinel last]))
    (gradedHi : Graded cmpfn hi (es ++ [s.sentinel last])) (sentinelLo : 0 ≤ cmpfn last lo) (sentinelHi : 0 < cmpfn last hi)
    (bounds : Bounds cmpfn lo hi es) (enough : es.length < fuel) :
    ∃ s', delBulk cmpfn fuel s lo hi = some (es.any fun e => inRange cmpfn lo hi e.val, s') ∧
      Rep last s' (es.filter fun e => !inRange cmpfn lo hi e.val) ∧
      ∀ e ∈ middle cmpfn lo hi es, s'.heap e.node = none := by
  obtain ⟨s₁, spliced, ran⟩ := delBulk_eq rep gradedLo gradedHi sentinelLo sentinelHi bounds enough
  have whole : s.row last es 0 = es ++ [s.sentinel last] := rep.row_zero
  have inside : middle cmpfn lo hi (s.row last es 0) = middle cmpfn lo hi es := by
    have outside : inRange cmpfn lo hi last = false := by simp [inRange, sentinelHi]
    rw [whole, middle, filter_append, middle]
    simp [sentinel, outside]
  obtain ⟨-, chain, -⟩ := rep.split_range gradedLo gradedHi sentinelLo sentinelHi bounds rep.positive
  have distinct := rep.distinct_row 0
  rw [← (graded_row gradedLo 0).before_append_rest,
    rest_eq_middle_append_behind (graded_row gradedHi 0) (bounds_row bounds sentinelLo), map_append, map_append,
    ← cons_append, inside] at distinct
  obtain ⟨-, distinctRest, apart⟩ := nodup_append'.mp distinct
  obtain ⟨distinctMiddle, -, apartRest⟩ := nodup_append'.mp distinctRest
  rw [inside] at chain
  have target : (targetAt cmpfn hi s last es 0).node ∉ (middle cmpfn lo hi es).map Entry.node := fun member =>
    apartRest member (mem_map_of_mem (targetAt_mem sentinelHi))
  have chain' : Chain (s₁.next 0) ((middle cmpfn lo hi es).map Entry.node) (some (stopAt cmpfn lo s last es 0).node)
      (some (targetAt cmpfn hi s last es 0).node) := by
    refine chain.congr fun n member => spliced.nextOther 0 n fun same => ?_
    rw [same] at member
    exact apart (endOf_mem _ _) (mem_append_left _ member)
  have freed := freeUntil_eq chain' distinctMiddle target
    ((length_map _).trans_le ((length_filter_le _ _).trans enough.le))
  have kept := filter_not_inRange (gradedLo.sublist (sublist_append_left _ _))
    (gradedHi.sublist (sublist_append_left _ _)) bounds
  rw [freed] at ran
  refine ⟨_, ran.trans (congrArg (fun any => some (any, _)) ?_), ?_, ?_⟩
  · rw [Bool.eq_iff_iff, decide_eq_true_iff, any_eq_true]
    constructor
    · intro different
      cases parts : middle cmpfn lo hi es with
      | nil =>
        rw [parts] at chain
        exact absurd (Option.some.inj chain) different
      | cons e l =>
        have member : e ∈ middle cmpfn lo hi es := parts ▸ mem_cons_self
        exact ⟨e, mem_filter.mp member⟩
    · rintro ⟨e, member, here⟩ same
      have there : e ∈ middle cmpfn lo hi es := mem_filter.mpr ⟨member, here⟩
      cases parts : middle cmpfn lo hi es with
      | nil => rw [parts] at there; cases there
      | cons a l =>
        rw [parts] at chain target
        rw [← same, Option.some.inj chain.1] at target
        exact target mem_cons_self
  · rw [kept]
    refine (spliced.represents rep gradedLo gradedHi sentinelLo sentinelHi bounds).freeAll ?_
    have sameSentinel : s₁.sentinel last = s.sentinel last := by rw [sentinel, spliced.right, sentinel]
    rw [spliced.left, sameSentinel]
    intro n member freedNode
    rcases mem_cons.mp member with rfl | member
    · exact apart mem_cons_self (mem_append_left _ freedNode)
    obtain ⟨e, there, rfl⟩ := mem_map.mp member
    rw [append_assoc] at there
    rcases mem_append.mp there with early | late
    · refine apart (mem_cons_of_mem _ (mem_map_of_mem ?_)) (mem_append_left _ freedNode)
      rw [mem_before, whole] at *
      exact ⟨mem_append_left _ early.1, early.2⟩
    · refine apartRest freedNode (mem_map_of_mem ?_)
      rw [mem_behind, whole]
      rcases mem_append.mp late with late | late
      · exact ⟨mem_append_left _ (mem_behind.mp late).1, (mem_behind.mp late).2⟩
      · obtain rfl := mem_singleton.mp late
        exact ⟨by simp, sentinelHi⟩
  · exact fun e member => if_pos (mem_map_of_mem member)

end HpcToolkit.Collections.CSkipList
