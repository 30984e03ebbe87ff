import HpcToolkit.FlowGraph.Interior

/-! # Groups of templates with a common suffix

The parts of a range are its runs of possible templates with one caller. In the sorted templates these runs are the
classes: a template that is possible and has the suffix of another one is in its part.
-/

open List

namespace HpcToolkit.FlowGraph

/-! ## The parts of a range -/

def members (possible : ℕ → Bool) (part : ℕ × ℕ) : List ℕ :=
  (range' part.1 (part.2 - part.1)).filter possible

section Parts

variable {Scope : Type} [LinearOrder Scope] {caller : ℕ → Option Scope} {possible : ℕ → Bool}

lemma mem_members {part : ℕ × ℕ} {j : ℕ} : j ∈ members possible part ↔ part.1 ≤ j ∧ j < part.2 ∧ possible j := by
  rw [members, mem_filter, mem_range'_1]
  constructor
  · rintro ⟨⟨above, below⟩, here⟩
    exact ⟨above, by omega, here⟩
  · rintro ⟨above, below, here⟩
    exact ⟨⟨above, by omega⟩, here⟩

lemma members_nodup (part : ℕ × ℕ) : (members possible part).Nodup :=
  List.Nodup.filter _ nodup_range'

lemma members_singleton {a : ℕ} (here : possible a) : members possible (a, a + 1) = [a] := by
  simp [members, here]

variable {first ilast a : ℕ}

lemma members_grow (ordered : first ≤ ilast) (before : ilast < a)
    (gap : ∀ j, ilast < j → j < a → ¬ possible j) (here : possible a) :
    members possible (first, a + 1) = members possible (first, ilast + 1) ++ [a] := by
  have sizes : a + 1 - first = (ilast + 1 - first) + ((a - (ilast + 1)) + 1) := by omega
  have middle : (range' (ilast + 1) (a - (ilast + 1))).filter possible = [] := by
    apply filter_eq_nil_iff.mpr
    intro j member
    rw [mem_range'_1] at member
    exact gap j (by omega) (by omega)
  have left : first + (ilast + 1 - first) = ilast + 1 := by omega
  have right : ilast + 1 + (a - (ilast + 1)) = a := by omega
  rw [members, members, sizes, ← range'_append_1, filter_append, left, ← range'_append_1,
    filter_append, middle, right, nil_append]
  simp [here]

variable (possible) in
/-- What the cursor stands for when the template `a` comes next. -/
def CursorAt (caller : ℕ → Option Scope) (a : ℕ) : Option (ℕ × ℕ) → Prop
  | none => True
  | some (first, ilast) => first ≤ ilast ∧ ilast < a ∧ possible first ∧ possible ilast ∧
      (∀ j, ilast < j → j < a → ¬ possible j) ∧
      ∀ j ∈ members possible (first, ilast + 1), caller j = caller first

variable (possible) in
def cursorMembers : Option (ℕ × ℕ) → List ℕ
  | none => []
  | some (first, ilast) => members possible (first, ilast + 1)

section
omit [LinearOrder Scope]

lemma cursorAt_singleton {a : ℕ} (here : possible a) : CursorAt possible caller (a + 1) (some (a, a)) := by
  refine ⟨le_rfl, Nat.lt_succ_self a, here, here, fun j above below => ?_, fun j member => ?_⟩
  · omega
  · rw [members_singleton here, mem_singleton] at member
    rw [member]

lemma cursorAt_grow (cursor : CursorAt possible caller a (some (first, ilast)))
    (here : possible a) (same : caller first = caller a) : CursorAt possible caller (a + 1) (some (first, a)) := by
  obtain ⟨ordered, before, start, -, gap, one⟩ := cursor
  refine ⟨by omega, Nat.lt_succ_self a, start, here, fun j above below => ?_, fun j member => ?_⟩
  · omega
  · rw [members_grow ordered before gap here, mem_append, mem_singleton] at member
    rcases member with old | rfl
    · exact one j old
    · exact same.symm

lemma cursorAt_skip {a : ℕ} {cursor : Option (ℕ × ℕ)} (current : CursorAt possible caller a cursor)
    (absent : ¬ possible a) : CursorAt possible caller (a + 1) cursor := by
  cases cursor with
  | none => trivial
  | some range =>
    obtain ⟨ordered, before, start, stop, gap, one⟩ := current
    refine ⟨ordered, by omega, start, stop, fun j above below => ?_, one⟩
    rcases Nat.lt_succ_iff_lt_or_eq.mp below with earlier | rfl
    · exact gap j above earlier
    · exact absent

end

/-- A part starts and ends with possible templates, and all of them have its caller. -/
structure IsPart (caller : ℕ → Option Scope) (possible : ℕ → Bool) (part : ℕ × ℕ) : Prop where
  nonempty : part.1 < part.2
  first : possible part.1
  last : possible (part.2 - 1)
  one : ∀ j ∈ members possible part, caller j = caller part.1

omit [LinearOrder Scope] in
lemma isPart_of_cursor (cursor : CursorAt possible caller a (some (first, ilast))) :
    IsPart caller possible (first, ilast + 1) := by
  obtain ⟨ordered, -, start, stop, -, one⟩ := cursor
  exact ⟨Nat.lt_succ_of_le ordered, start, by simpa using stop, one⟩

variable (caller possible) in
lemma subGroups_spec (size : ℕ) : ∀ a cursor, CursorAt possible caller a cursor →
    (subGroups caller possible cursor (range' a size)).flatMap (members possible) =
        cursorMembers possible cursor ++ (range' a size).filter possible ∧
      ∀ part ∈ subGroups caller possible cursor (range' a size), IsPart caller possible part := by
  induction size with
  | zero =>
    intro a cursor current
    cases cursor with
    | none => simp [subGroups, cursorMembers]
    | some range => simpa [subGroups, cursorMembers] using isPart_of_cursor current
  | succ size ih =>
    intro a cursor current
    rw [range'_succ]
    by_cases here : possible a
    · rw [filter_cons_of_pos here]
      cases cursor with
      | none =>
        obtain ⟨flat, parts⟩ := ih (a + 1) _ (cursorAt_singleton here)
        rw [subGroups, if_pos here]
        refine ⟨?_, parts⟩
        rw [flat, cursorMembers, cursorMembers, members_singleton here]
        rfl
      | some range =>
        obtain ⟨first, ilast⟩ := range
        rw [subGroups, if_pos here]
        by_cases same : caller first = caller a
        · obtain ⟨flat, parts⟩ := ih (a + 1) _ (cursorAt_grow current here same)
          obtain ⟨ordered, before, -, -, gap, -⟩ := current
          rw [if_pos same]
          refine ⟨?_, parts⟩
          rw [flat, cursorMembers, cursorMembers, members_grow ordered before gap here, append_assoc]
          rfl
        · obtain ⟨flat, parts⟩ := ih (a + 1) _ (cursorAt_singleton here)
          rw [if_neg same]
          refine ⟨?_, fun part member => ?_⟩
          · rw [flatMap_cons, flat, cursorMembers, cursorMembers, members_singleton here]
            rfl
          · rcases mem_cons.mp member with rfl | member
            · exact isPart_of_cursor current
            · exact parts part member
    · rw [filter_cons_of_neg here]
      have next := ih (a + 1) cursor (cursorAt_skip current here)
      cases cursor with
      | none =>
        rw [subGroups, if_neg here]
        exact next
      | some range =>
        rw [subGroups, if_neg here]
        exact next

variable (caller possible) in
lemma subGroups_distinct (low high : ℕ)
    (convex : ∀ i j l, low ≤ i → i ≤ j → j ≤ l → l < high → possible i → possible j → possible l →
      caller i = caller l → caller i = caller j) (size : ℕ) :
    ∀ a cursor, low ≤ a → a + size ≤ high → CursorAt possible caller a cursor →
      (∀ first ilast, cursor = some (first, ilast) → low ≤ first) →
      (∀ part ∈ subGroups caller possible cursor (range' a size),
        (∃ ilast, cursor = some (part.1, ilast)) ∨ a ≤ part.1 ∧ part.1 < a + size ∧ possible part.1) ∧
      (subGroups caller possible cursor (range' a size)).Pairwise fun p q => caller p.1 ≠ caller q.1 := by
  induction size with
  | zero =>
    intro a cursor _ _ _ _
    cases cursor with
    | none => simp [subGroups]
    | some range =>
      obtain ⟨first, ilast⟩ := range
      simp [subGroups]
  | succ size ih =>
    intro a cursor above within current start
    rw [range'_succ]
    by_cases here : possible a
    · have single := ih (a + 1) (some (a, a)) (by omega) (by omega) (cursorAt_singleton here)
        (by rintro first ilast ⟨⟩; exact above)
      have later : ∀ part ∈ subGroups caller possible (some (a, a)) (range' (a + 1) size),
          a ≤ part.1 ∧ part.1 < a + (size + 1) ∧ possible part.1 := by
        intro part member
        rcases single.1 part member with ⟨ilast, same⟩ | ⟨lower, upper, positive⟩
        · obtain ⟨rfl, -⟩ := Prod.mk.inj (Option.some.inj same)
          exact ⟨le_rfl, by omega, here⟩
        · exact ⟨by omega, by omega, positive⟩
      cases cursor with
      | none =>
        rw [subGroups, if_pos here]
        exact ⟨fun part member => Or.inr (later part member), single.2⟩
      | some range =>
        obtain ⟨first, ilast⟩ := range
        rw [subGroups, if_pos here]
        by_cases same : caller first = caller a
        · rw [if_pos same]
          obtain ⟨starts, distinct⟩ := ih (a + 1) (some (first, a)) (by omega) (by omega)
            (cursorAt_grow current here same) (by rintro _ _ ⟨⟩; exact start first ilast rfl)
          refine ⟨fun part member => ?_, distinct⟩
          rcases starts part member with ⟨other, same⟩ | ⟨lower, upper, positive⟩
          · obtain ⟨rfl, -⟩ := Prod.mk.inj (Option.some.inj same)
            exact Or.inl ⟨ilast, rfl⟩
          · exact Or.inr ⟨by omega, by omega, positive⟩
        · rw [if_neg same]
          refine ⟨fun part member => ?_, pairwise_cons.mpr ⟨fun part member equal => ?_, single.2⟩⟩
          · rcases mem_cons.mp member with rfl | member
            · exact Or.inl ⟨ilast, rfl⟩
            · exact Or.inr (later part member)
          · obtain ⟨lower, upper, positive⟩ := later part member
            obtain ⟨ordered, before, begins, -⟩ := current
            exact same (convex first a part.1 (start first ilast rfl) (by omega) lower (by omega) begins here
              positive equal)
    · have next := ih (a + 1) cursor (by omega) (by omega) (cursorAt_skip current here) start
      have shape : subGroups caller possible cursor (a :: range' (a + 1) size) =
          subGroups caller possible cursor (range' (a + 1) size) := by
        cases cursor <;> rw [subGroups, if_neg here]
      rw [shape]
      refine ⟨fun part member => ?_, next.2⟩
      exact (next.1 part member).imp id fun bounds => ⟨by omega, by omega, bounds.2.2⟩

end Parts

lemma filter_flatMap_of_distinct {A K P : Type} [DecidableEq K] {parts : List P} {contents : P → List A}
    {key : P → K} {keyOf : A → K} (own : ∀ p ∈ parts, ∀ a ∈ contents p, keyOf a = key p)
    (distinct : parts.Pairwise fun p q => key p ≠ key q) :
    ∀ p ∈ parts, (parts.flatMap contents).filter (fun a => keyOf a = key p) = contents p := by
  induction parts with
  | nil => exact fun p absent => absurd absent not_mem_nil
  | cons q parts ih =>
    intro p member
    obtain ⟨others, distinct⟩ := pairwise_cons.mp distinct
    have rest := ih (fun p member => own p (mem_cons_of_mem _ member)) distinct
    rw [flatMap_cons, filter_append]
    rcases mem_cons.mp member with rfl | member
    · have whole : (contents p).filter (fun a => keyOf a = key p) = contents p :=
        filter_eq_self.mpr fun a here => by simpa using own p mem_cons_self a here
      have none : (parts.flatMap contents).filter (fun a => keyOf a = key p) = [] := by
        apply filter_eq_nil_iff.mpr
        intro a here
        obtain ⟨r, listed, inside⟩ := mem_flatMap.mp here
        rw [own r (mem_cons_of_mem _ listed) a inside]
        simpa using (others r listed).symm
      rw [whole, none, append_nil]
    · have none : (contents q).filter (fun a => keyOf a = key p) = [] := by
        apply filter_eq_nil_iff.mpr
        intro a here
        rw [own q mem_cons_self a here]
        simpa using others p member
      rw [none, nil_append, rest p member]

/-! ## Classes of templates -/

section Classes

variable {Scope Metric Sibling Key : Type} [LinearOrder Scope] {g : ContextFlowGraph Scope Metric Sibling}
  {hasEC : List Bool} {i j k : ℕ}

lemma rpathAt_eq (inside : i < g.templates.length) : g.rpathAt i = g.templates[i].rpath := by
  rw [ContextFlowGraph.rpathAt, getElem?_eq_getElem inside]
  rfl

lemma eq_of_rpath_begins (left : i < g.templates.length) (right : j < g.templates.length)
    (initial : g.rpathAt i <+: g.rpathAt j) : i = j := by
  rw [rpathAt_eq left, rpathAt_eq right] at initial
  exact (g.rpath_prefix_iff (getElem?_eq_getElem left) (getElem?_eq_getElem right)).mp initial

lemma longer_of_common (left : i < g.templates.length) (right : j < g.templates.length) (differ : i ≠ j)
    (common : (g.rpathAt i).take k = (g.rpathAt j).take k) : k < (g.rpathAt i).length := by
  by_contra short
  rw [take_of_length_le (Nat.not_lt.mp short)] at common
  exact differ (eq_of_rpath_begins left right (common ▸ take_prefix k (g.rpathAt j)))

lemma rAtIdx_mem_siblings {s : Scope} (caller : g.rAtIdx k i = some s) : s ∈ g.siblings.map Prod.fst := by
  have inside : i < g.templates.length := by
    by_contra outside
    rw [ContextFlowGraph.rAtIdx, ContextFlowGraph.rpathAt, getElem?_eq_none (Nat.not_lt.mp outside)] at caller
    simp at caller
  rw [ContextFlowGraph.rAtIdx, rpathAt_eq inside] at caller
  apply (g.mem_siblings s).mpr
  exact ⟨g.templates[i], getElem_mem inside, mem_reverse.mp (mem_of_getElem? caller)⟩

variable (g hasEC) in
/-- The possible templates with the last callers of another one. -/
def alike (k i : ℕ) : List ℕ :=
  ((range g.templates.length).filter (possible hasEC)).filter fun j =>
    (g.rpathAt j).take k = (g.rpathAt i).take k

lemma mem_alike : j ∈ alike g hasEC k i ↔
    j < g.templates.length ∧ possible hasEC j ∧ (g.rpathAt j).take k = (g.rpathAt i).take k := by
  rw [alike, mem_filter, mem_filter, mem_range, decide_eq_true_iff, and_assoc]

lemma alike_congr (member : j ∈ alike g hasEC k i) : alike g hasEC k j = alike g hasEC k i := by
  rw [alike, alike, (mem_alike.mp member).2.2]

lemma take_succ_eq_iff {A : Type} {a b : List A} :
    a.take (k + 1) = b.take (k + 1) ↔ a.take k = b.take k ∧ a[k]? = b[k]? := by
  induction k generalizing a b with
  | zero => cases a <;> cases b <;> simp
  | succ k ih =>
    cases a with
    | nil => cases b <;> simp
    | cons x a =>
      cases b with
      | nil => simp
      | cons y b => simp only [take_succ_cons, cons.injEq, ih, getElem?_cons_succ, and_assoc]

lemma alike_succ : alike g hasEC (k + 1) i = (alike g hasEC k i).filter fun j => g.rAtIdx k j = g.rAtIdx k i := by
  have both : ∀ j, ((g.rpathAt j).take (k + 1) = (g.rpathAt i).take (k + 1)) ↔
      g.rAtIdx k j = g.rAtIdx k i ∧ (g.rpathAt j).take k = (g.rpathAt i).take k :=
    fun j => take_succ_eq_iff.trans and_comm
  simp only [alike, both, Bool.decide_and, filter_filter, Bool.and_assoc]

lemma caller_convex {c l : ℕ} (first : i ∈ alike g hasEC k c) (middle : j ∈ alike g hasEC k c)
    (last : l ∈ alike g hasEC k c) (callers : ∀ m ∈ alike g hasEC k c, (g.rAtIdx k m).isSome) (lower : i ≤ j)
    (upper : j ≤ l) (same : g.rAtIdx k i = g.rAtIdx k l) : g.rAtIdx k i = g.rAtIdx k j := by
  have letters : ∀ a b x y, a ∈ alike g hasEC k c → b ∈ alike g hasEC k c → a ≤ b → g.rAtIdx k a = some x →
      g.rAtIdx k b = some y → x ≤ y := by
    intro a b x y left right ordered atLeft atRight
    obtain ⟨insideLeft, -, commonLeft⟩ := mem_alike.mp left
    obtain ⟨insideRight, -, commonRight⟩ := mem_alike.mp right
    refine Lib.letter_le_of_le ?_ (commonLeft.trans commonRight.symm) atLeft atRight
    rw [rpathAt_eq insideLeft, rpathAt_eq insideRight]
    rcases Nat.eq_or_lt_of_le ordered with rfl | before
    · exact le_rfl
    · exact pairwise_iff_getElem.mp g.sorted a b insideLeft insideRight before
  obtain ⟨x, atFirst⟩ := Option.isSome_iff_exists.mp (callers i first)
  obtain ⟨y, atMiddle⟩ := Option.isSome_iff_exists.mp (callers j middle)
  have below := letters i j x y first middle lower atFirst atMiddle
  have above := letters j l y x middle last upper atMiddle (same ▸ atFirst)
  rw [atFirst, atMiddle, le_antisymm below above]

lemma parts_spec (range : ℕ × ℕ) (whole : members (possible hasEC) range = alike g hasEC k i)
    (callers : ∀ m ∈ alike g hasEC k i, (g.rAtIdx k m).isSome) :
    let parts := subGroups (g.rAtIdx k) (possible hasEC) none (range' range.1 (range.2 - range.1))
    parts.flatMap (members (possible hasEC)) = alike g hasEC k i ∧
      ∀ part ∈ parts, IsPart (g.rAtIdx k) (possible hasEC) part ∧
        members (possible hasEC) part = alike g hasEC (k + 1) part.1 ∧ part.1 ∈ alike g hasEC k i := by
  intro parts
  obtain ⟨flat, isPart⟩ := subGroups_spec (g.rAtIdx k) (possible hasEC) (range.2 - range.1) range.1 none trivial
  have flat : parts.flatMap (members (possible hasEC)) = alike g hasEC k i := flat.trans whole
  have inside : ∀ j, range.1 ≤ j → j < range.1 + (range.2 - range.1) → possible hasEC j → j ∈ alike g hasEC k i := by
    intro j lower upper here
    rw [← whole]
    exact mem_members.mpr ⟨lower, by omega, here⟩
  have distinct := (subGroups_distinct (g.rAtIdx k) (possible hasEC) range.1 (range.1 + (range.2 - range.1))
    (fun i j l low first second high here there last same =>
      caller_convex (inside i low (by omega) here) (inside j (by omega) (by omega) there) (inside l (by omega) high last)
        callers first second same)
    (range.2 - range.1) range.1 none le_rfl le_rfl trivial (by rintro first ilast ⟨⟩)).2
  refine ⟨flat, fun part member => ?_⟩
  have own := isPart part member
  have start : part.1 ∈ alike g hasEC k i := by
    rw [← flat]
    exact mem_flatMap.mpr ⟨part, member, mem_members.mpr ⟨le_rfl, own.nonempty, own.first⟩⟩
  refine ⟨own, ?_, start⟩
  rw [← filter_flatMap_of_distinct (fun part member => (isPart part member).one) distinct part member, alike_succ,
    alike_congr start]
  exact congrArg _ flat

end Classes

end HpcToolkit.FlowGraph
