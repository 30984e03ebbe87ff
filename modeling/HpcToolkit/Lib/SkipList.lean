import Mathlib

/-! # Sorted lists searched through a comparator

A search compares each value with what is sought: the values before it, at most one that matches, and the values after it.
The layers of a skip list are shortcuts through such a list and do not change what a search finds.
-/

open List

namespace HpcToolkit.Lib

variable {α : Type} (cmp lo hi : α → Ordering)

/-- Along the list come the values before the sought one, then at most one match, then the values after it. -/
def Graded (values : List α) : Prop :=
  values.Pairwise fun a b => cmp a = .lt ∨ cmp b = .gt

/-- The first value that is not before the sought one, if it matches. -/
def seek (values : List α) : Option α :=
  (values.dropWhile fun v => cmp v = .lt).head?.filter fun v => cmp v = .eq

/-- Links a value behind those before it. -/
def place (value : α) (values : List α) : List α :=
  (values.takeWhile fun v => cmp v = .lt) ++ value :: values.dropWhile fun v => cmp v = .lt

/-- What lies behind the sought value. -/
def past (values : List α) : List α :=
  match values.dropWhile fun v => cmp v = .lt with
  | [] => []
  | v :: after => if cmp v = .eq then after else v :: after

/-- Splices out what follows the values before `lo`, up to the match of `hi` if there is one. -/
def splice (values : List α) : List α :=
  (values.takeWhile fun v => lo v = .lt) ++ past hi (values.dropWhile fun v => lo v = .lt)

variable {cmp lo hi} {value v : α} {values front : List α}

lemma Graded.tail (graded : Graded cmp (v :: values)) : Graded cmp values :=
  (pairwise_cons.mp graded).2

lemma Graded.right (graded : Graded cmp (front ++ values)) : Graded cmp values :=
  (pairwise_append.mp graded).2.1

@[simp] lemma seek_nil : seek cmp [] = none := rfl

lemma seek_cons : seek cmp (v :: values) =
    match cmp v with
    | .lt => seek cmp values
    | .eq => some v
    | .gt => none := by
  cases compared : cmp v <;> simp [seek, compared]

lemma seek_append (before : ∀ w ∈ front, cmp w = .lt) : seek cmp (front ++ values) = seek cmp values := by
  induction front with
  | nil => rfl
  | cons w front ih =>
    rw [cons_append, seek_cons, before w mem_cons_self]
    exact ih fun u later => before u (mem_cons_of_mem w later)

lemma seek_sound (found : seek cmp values = some v) : v ∈ values ∧ cmp v = .eq := by
  obtain ⟨head, «matches»⟩ := Option.filter_eq_some_iff.mp found
  refine ⟨?_, of_decide_eq_true «matches»⟩
  apply (dropWhile_sublist _).mem
  exact mem_of_head? head

lemma seek_of_mem (graded : Graded cmp values) (stored : v ∈ values) (matched : cmp v = .eq) :
    seek cmp values = some v := by
  induction values with
  | nil => cases stored
  | cons w values ih =>
    rw [seek_cons]
    rcases mem_cons.mp stored with rfl | later
    · rw [matched]
    · have earlier : cmp w = .lt := by
        rcases (pairwise_cons.mp graded).1 v later with before | after
        · exact before
        · rw [matched] at after
          cases after
      rw [earlier]
      exact ih graded.tail later

lemma seek_eq_some_iff (graded : Graded cmp values) : seek cmp values = some v ↔ v ∈ values ∧ cmp v = .eq :=
  ⟨seek_sound, fun ⟨stored, matched⟩ => seek_of_mem graded stored matched⟩

lemma place_perm : (place cmp value values).Perm (value :: values) := by
  have split := takeWhile_append_dropWhile (p := fun v => decide (cmp v = .lt)) (l := values)
  nth_rewrite 2 [← split]
  exact perm_middle

lemma mem_place : v ∈ place cmp value values ↔ v = value ∨ v ∈ values := by
  rw [place_perm.mem_iff, mem_cons]

lemma pairwise_place {R : α → α → Prop} (sorted : values.Pairwise R)
    (behind : ∀ v ∈ values, cmp v = .lt → R v value)
    (front : ∀ v ∈ values.dropWhile (fun v => decide (cmp v = .lt)), R value v) :
    (place cmp value values).Pairwise R := by
  have split := takeWhile_append_dropWhile (p := fun v => decide (cmp v = .lt)) (l := values)
  have parts := sorted
  rw [← split] at parts
  obtain ⟨left, right, across⟩ := pairwise_append.mp parts
  refine pairwise_append.mpr ⟨left, pairwise_cons.mpr ⟨front, right⟩, ?_⟩
  intro a onLeft b onRight
  rcases mem_cons.mp onRight with rfl | later
  · apply behind a ((takeWhile_sublist _).mem onLeft)
    simpa using mem_takeWhile_imp onLeft
  · exact across a onLeft b later

lemma split_of_graded (graded : Graded cmp values) :
    values.takeWhile (fun v => decide (cmp v = .lt)) = values.filter (fun v => decide (cmp v = .lt)) ∧
      values.dropWhile (fun v => decide (cmp v = .lt)) = values.filter (fun v => decide (cmp v ≠ .lt)) := by
  induction values with
  | nil => exact ⟨rfl, rfl⟩
  | cons w values ih =>
    by_cases before : cmp w = .lt
    · obtain ⟨front, behind⟩ := ih graded.tail
      simp [before, front, behind]
    · have after : ∀ v ∈ values, cmp v ≠ .lt := by
        intro v later same
        have behind := ((pairwise_cons.mp graded).1 v later).resolve_left before
        cases same.symm.trans behind
      have none : values.filter (fun v => decide (cmp v = .lt)) = [] :=
        filter_eq_nil_iff.mpr fun v later => by simpa using after v later
      have all : values.filter (fun v => decide (cmp v ≠ .lt)) = values :=
        filter_eq_self.mpr fun v later => decide_eq_true (after v later)
      constructor
      · rw [takeWhile_cons_of_neg (by simp [before]), filter_cons_of_neg (by simp [before]), none]
      · rw [dropWhile_cons_of_neg (by simp [before]), filter_cons_of_pos (by simp [before]), all]

lemma mem_dropWhile_of_graded (graded : Graded cmp values) :
    v ∈ values.dropWhile (fun v => decide (cmp v = .lt)) ↔ v ∈ values ∧ cmp v ≠ .lt := by
  rw [(split_of_graded graded).2, mem_filter, decide_eq_true_eq]

lemma mem_takeWhile_of_graded (graded : Graded cmp values) :
    v ∈ values.takeWhile (fun v => decide (cmp v = .lt)) ↔ v ∈ values ∧ cmp v = .lt := by
  rw [(split_of_graded graded).1, mem_filter, decide_eq_true_eq]

lemma past_sublist : (past cmp values).Sublist values := by
  have rest := dropWhile_sublist (fun v => decide (cmp v = .lt)) (l := values)
  rw [past]
  split
  · exact nil_sublist _
  · rename_i w after dropped
    rw [dropped] at rest
    split_ifs
    · exact (sublist_cons_self w after).trans rest
    · exact rest

lemma past_append (before : ∀ w ∈ front, cmp w = .lt) : past cmp (front ++ values) = past cmp values := by
  rw [past, past, dropWhile_append_of_pos]
  intro w there
  exact decide_eq_true (before w there)

lemma past_cons_sublist (notAfter : cmp v ≠ .gt) : (past cmp (v :: values)).Sublist values := by
  cases compared : cmp v with
  | lt =>
    have dropped : past cmp ([v] ++ values) = past cmp values := past_append (by simpa using compared)
    rw [← singleton_append, dropped]
    exact past_sublist
  | eq => simp [past, compared]
  | gt => exact absurd compared notAfter

lemma mem_past_of_gt (stored : v ∈ values) (after : cmp v = .gt) : v ∈ past cmp values := by
  have kept : v ∈ values.dropWhile fun v => decide (cmp v = .lt) := by
    have split := takeWhile_append_dropWhile (p := fun v => decide (cmp v = .lt)) (l := values)
    rw [← split] at stored
    rcases mem_append.mp stored with inFront | behind
    · have before := mem_takeWhile_imp inFront
      rw [after] at before
      cases before
    · exact behind
  rw [past]
  split
  · rename_i dropped
    rw [dropped] at kept
    exact kept
  · rename_i w later dropped
    rw [dropped] at kept
    split_ifs with matched
    · rcases mem_cons.mp kept with rfl | behind
      · rw [after] at matched
        cases matched
      · exact behind
    · exact kept

lemma mem_past (graded : Graded cmp values) : v ∈ past cmp values ↔ v ∈ values ∧ cmp v = .gt := by
  have inRest := fun w => mem_dropWhile_of_graded graded (v := w)
  have gradedRest : Graded cmp (values.dropWhile fun v => decide (cmp v = .lt)) :=
    List.Pairwise.sublist (dropWhile_sublist _) graded
  have present : v ∈ values → cmp v = .gt → v ∈ values.dropWhile (fun v => decide (cmp v = .lt)) := by
    intro stored isAfter
    exact (inRest v).mpr ⟨stored, by rw [isAfter]; decide⟩
  rw [past]
  split
  · rename_i dropped
    rw [dropped] at present
    constructor
    · intro stored
      cases stored
    · rintro ⟨stored, isAfter⟩
      cases present stored isAfter
  · rename_i w after dropped
    rw [dropped] at inRest gradedRest present
    have notBefore : cmp w ≠ .lt := ((inRest w).mp mem_cons_self).2
    have behind : ∀ u ∈ after, cmp u = .gt := fun u later =>
      ((pairwise_cons.mp gradedRest).1 u later).resolve_left notBefore
    split_ifs with matched
    · constructor
      · intro later
        exact ⟨((inRest v).mp (mem_cons_of_mem w later)).1, behind v later⟩
      · rintro ⟨stored, isAfter⟩
        rcases mem_cons.mp (present stored isAfter) with rfl | later
        · rw [isAfter] at matched
          cases matched
        · exact later
    · have isAfter : cmp w = .gt := by
        cases compared : cmp w with
        | lt => exact absurd compared notBefore
        | eq => exact absurd compared matched
        | gt => rfl
      constructor
      · intro there
        refine ⟨((inRest v).mp there).1, ?_⟩
        rcases mem_cons.mp there with rfl | later
        · exact isAfter
        · exact behind v later
      · rintro ⟨stored, isAfter⟩
        exact present stored isAfter

lemma splice_sublist : (splice lo hi values).Sublist values := by
  have split := takeWhile_append_dropWhile (p := fun v => decide (lo v = .lt)) (l := values)
  nth_rewrite 2 [← split]
  exact (List.Sublist.refl _).append past_sublist

lemma mem_splice_of_gt (stored : v ∈ values) (after : hi v = .gt) : v ∈ splice lo hi values := by
  have split := takeWhile_append_dropWhile (p := fun v => decide (lo v = .lt)) (l := values)
  rw [← split] at stored
  rcases mem_append.mp stored with inFront | behind
  · exact mem_append_left _ inFront
  · exact mem_append_right _ (mem_past_of_gt behind after)

lemma mem_splice (lower : Graded lo values) (upper : Graded hi values) :
    v ∈ splice lo hi values ↔ v ∈ values ∧ (lo v = .lt ∨ lo v ≠ .lt ∧ hi v = .gt) := by
  have upperRest : Graded hi (values.dropWhile fun v => decide (lo v = .lt)) :=
    List.Pairwise.sublist (dropWhile_sublist _) upper
  rw [splice, mem_append, mem_takeWhile_of_graded lower, mem_past upperRest, mem_dropWhile_of_graded lower]
  tauto

section Layers

/-- A value with the number of layers it is linked in. -/
structure Tower (α : Type) where
  value : α
  height : Nat

/-- The first node of a layer behind a place in the bottom layer, with what follows it. -/
def nextAt (layer : Nat) (rest : List (Tower α)) : List (Tower α) :=
  rest.dropWhile fun tower => tower.height ≤ layer

lemma length_nextAt (layer : Nat) (rest : List (Tower α)) : (nextAt layer rest).length ≤ rest.length :=
  (dropWhile_sublist _).length_le

/-- Walks along a layer while its next node is before the sought value. -/
def walkLayer (cmp : α → Ordering) (layer : Nat) (rest : List (Tower α)) : List (Tower α) :=
  match _linked : nextAt layer rest with
  | [] => rest
  | tower :: after => if cmp tower.value = .lt then walkLayer cmp layer after else rest
termination_by rest.length
decreasing_by
  have short := length_nextAt layer rest
  rw [_linked] at short
  exact short

/-- The search from the top layer down that ends at the first layer with a match. -/
def seekLayers (cmp : α → Ordering) : Nat → List (Tower α) → Option α
  | 0, _ => none
  | layer + 1, rest =>
    let behind := walkLayer cmp layer rest
    match (nextAt layer behind).head?.filter fun tower => cmp tower.value = .eq with
    | some tower => some tower.value
    | none => seekLayers cmp layer behind

lemma nextAt_split (layer : Nat) (rest : List (Tower α)) :
    ∃ skipped, rest = skipped ++ nextAt layer rest :=
  ⟨_, (takeWhile_append_dropWhile (p := fun tower : Tower α => decide (tower.height ≤ layer))).symm⟩

lemma walkLayer_split (layer : Nat) (rest : List (Tower α)) (graded : Graded cmp (rest.map Tower.value)) :
    ∃ passed, rest = passed ++ walkLayer cmp layer rest ∧ ∀ tower ∈ passed, cmp tower.value = .lt := by
  fun_induction walkLayer cmp layer rest with
  | case1 rest linked => exact ⟨[], rfl, fun tower none => by cases none⟩
  | case2 rest tower after linked before ih =>
    obtain ⟨skipped, whole⟩ := nextAt_split layer rest
    rw [linked] at whole
    rw [whole, map_append, map_cons] at graded
    obtain ⟨passed, later, allBefore⟩ := ih (graded.right.tail)
    have skippedBefore : ∀ other ∈ skipped, cmp other.value = .lt := by
      intro other there
      have across := (pairwise_append.mp graded).2.2 other.value (mem_map_of_mem there)
        tower.value mem_cons_self
      rcases across with isBefore | isAfter
      · exact isBefore
      · rw [before] at isAfter
        cases isAfter
    refine ⟨skipped ++ tower :: passed, ?_, ?_⟩
    · rw [append_assoc, cons_append, ← later]
      exact whole
    · intro other there
      rcases mem_append.mp there with there | there
      · exact skippedBefore other there
      rcases mem_cons.mp there with rfl | there
      · exact before
      · exact allBefore other there
  | case3 rest tower after linked other => exact ⟨[], rfl, fun tower none => by cases none⟩

lemma walkLayer_stops (cmp : α → Ordering) (layer : Nat) (rest : List (Tower α)) :
    ∀ tower ∈ (nextAt layer (walkLayer cmp layer rest)).head?, cmp tower.value ≠ .lt := by
  fun_induction walkLayer cmp layer rest with
  | case1 rest linked => simp [linked]
  | case2 rest tower after linked before ih => exact ih
  | case3 rest tower after linked other => simpa [linked] using other

variable {rest : List (Tower α)}

lemma seek_walkLayer (layer : Nat) (graded : Graded cmp (rest.map Tower.value)) :
    seek cmp ((walkLayer cmp layer rest).map Tower.value) = seek cmp (rest.map Tower.value) := by
  obtain ⟨passed, whole, before⟩ := walkLayer_split layer rest graded
  nth_rewrite 2 [whole]
  rw [map_append, seek_append]
  intro w there
  obtain ⟨tower, inFront, rfl⟩ := mem_map.mp there
  exact before tower inFront

lemma Graded.walkLayer (layer : Nat) (graded : Graded cmp (rest.map Tower.value)) :
    Graded cmp ((walkLayer cmp layer rest).map Tower.value) := by
  obtain ⟨passed, whole, -⟩ := walkLayer_split layer rest graded
  rw [whole, map_append] at graded
  exact graded.right

lemma seekLayers_eq {layers : Nat} (some_layer : 0 < layers)
    (linked : ∀ tower ∈ rest, 0 < tower.height) (graded : Graded cmp (rest.map Tower.value)) :
    seekLayers cmp layers rest = seek cmp (rest.map Tower.value) := by
  induction layers generalizing rest with
  | zero => cases some_layer
  | succ layer ih =>
    have gradedBehind := graded.walkLayer layer
    rw [seekLayers, ← seek_walkLayer layer graded]
    obtain ⟨passed, whole, -⟩ := walkLayer_split layer rest graded
    have linkedBehind : ∀ tower ∈ walkLayer cmp layer rest, 0 < tower.height := by
      intro tower there
      apply linked tower
      rw [whole]
      exact mem_append_right passed there
    split
    · rename_i tower found
      obtain ⟨head, matched⟩ := Option.filter_eq_some_iff.mp found
      symm
      apply seek_of_mem gradedBehind _ (of_decide_eq_true matched)
      exact mem_map_of_mem ((dropWhile_sublist _).mem (mem_of_head? head))
    · rename_i missed
      rcases Nat.eq_zero_or_pos layer with rfl | lower
      · have bottom : nextAt 0 (walkLayer cmp 0 rest) = walkLayer cmp 0 rest := by
          apply dropWhile_eq_self_iff.mpr
          intro nonempty
          have positive := linkedBehind _ (getElem_mem nonempty)
          simpa using positive.ne'
        have stops := walkLayer_stops cmp 0 rest
        rw [bottom] at missed stops
        rw [seekLayers]
        cases walked : walkLayer cmp 0 rest with
        | nil => rfl
        | cons tower after =>
          rw [walked] at missed stops
          have notBefore := stops tower rfl
          have notMatch : cmp tower.value ≠ .eq := by simpa using missed
          rw [map_cons, seek_cons]
          cases compared : cmp tower.value with
          | lt => exact absurd compared notBefore
          | eq => exact absurd compared notMatch
          | gt => rfl
      · exact ih lower linkedBehind gradedBehind

end Layers

end HpcToolkit.Lib
