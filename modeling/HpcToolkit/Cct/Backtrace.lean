import HpcToolkit.Cct.ChildSetRuns

/-! # Inserting a backtrace

A backtrace goes into a calling context tree from its outermost frame inwards. Frames in the middle of a recursion are
left out, which are told by the functions of the frame in front and of the one behind. The mark that the path ends at
the last node is not read by anything here and is left out.
-/

open List

namespace HpcToolkit.Cct.InPlace

open Lib

/-- `frame_t`: the address of the frame and its function. -/
structure Frame where
  ipNorm : CctAddr
  theFunction : CctAddr

def ipNormalizedNULL : CctAddr := ⟨0, 0⟩

/-- What `hpcrun_normalize_ip` gives for an address that is in no load module. -/
def unnormalizable : CctAddr := ⟨0, 0x2A556E6E6F726D20⟩

/-- The function is none of the two that stand for no function. -/
def Known (function : CctAddr) : Prop := function ≠ ipNormalizedNULL ∧ function ≠ unnormalizable

instance (function : CctAddr) : Decidable (Known function) := inferInstanceAs (Decidable (_ ∧ _))

/-- The function is that of the frame and of the next inner one. -/
def Recurs (function : CctAddr) (frame : Frame) (inner : List Frame) : Prop :=
  frame.theFunction = function ∧ some function = inner.head?.map Frame.theFunction

instance (function : CctAddr) (frame : Frame) (inner : List Frame) : Decidable (Recurs function frame inner) :=
  inferInstanceAs (Decidable (_ ∧ _))

namespace Heap

/-- The loop over the frames, of which the outermost comes first. -/
def insertFrames (retainRecursion : Bool) : Heap → Option ℕ → CctAddr → List Frame → Option (Option ℕ × Heap)
  | h, cct, _, [] => some (cct, h)
  | h, cct, parentRoutine, frame :: inner =>
    if ¬retainRecursion ∧ Recurs parentRoutine frame inner then
      insertFrames retainRecursion h cct frame.theFunction inner
    else do
      let (cct, h) ← h.hpcrunCctInsertAddr cct frame.ipNorm true
      insertFrames retainRecursion h cct frame.theFunction inner

def cctInsertRawBacktrace (retainRecursion : Bool) (h : Heap) (cct : Option ℕ) (frames : List Frame) :
    Option (Option ℕ × Heap) :=
  match cct with
  | none => some (none, h)
  | some cct => insertFrames retainRecursion h (some cct) ipNormalizedNULL frames

/-- The nodes from `leaf` up to the one below `n` have these addresses, the uppermost first. -/
def CallPath (h : Heap) (n leaf : ℕ) (addrs : List CctAddr) : Prop :=
  ∃ nodes, Chain h.parent nodes (some leaf) (some n) ∧ (nodes.map h.addr).reverse = addrs

end Heap

/-! ## Which frames are left out -/

/-- The frames that the loop inserts. -/
def inserted (parentRoutine : CctAddr) : List Frame → List Frame
  | [] => []
  | frame :: inner =>
    if Recurs parentRoutine frame inner then inserted frame.theFunction inner
    else frame :: inserted frame.theFunction inner

/-- The frames without those in the middle of a recursion, whose function is known and is that of the next outer and of
the next inner frame. -/
def withoutRecursion (outer : Option CctAddr) : List Frame → List Frame
  | [] => []
  | frame :: inner =>
    if Known frame.theFunction ∧ ∃ function ∈ outer, Recurs function frame inner then
      withoutRecursion (some frame.theFunction) inner
    else frame :: withoutRecursion (some frame.theFunction) inner

/-- No frame whose function is not known has the same function as the next outer and the next inner frame. -/
def KnownRecursion (outer : CctAddr) : List Frame → Prop
  | [] => True
  | frame :: inner => (Recurs outer frame inner → Known frame.theFunction) ∧ KnownRecursion frame.theFunction inner

instance decidableKnownRecursion : (outer : CctAddr) → (frames : List Frame) → Decidable (KnownRecursion outer frames)
  | _, [] => inferInstanceAs (Decidable True)
  | _, frame :: inner =>
    have := decidableKnownRecursion frame.theFunction inner
    inferInstanceAs (Decidable (_ ∧ _))

section Frames

lemma withoutRecursion_sublist (outer : Option CctAddr) (frames : List Frame) :
    (withoutRecursion outer frames).Sublist frames := by
  induction frames generalizing outer with
  | nil => exact List.Sublist.slnil
  | cons frame inner ih =>
    rw [withoutRecursion]
    split
    · exact (ih _).cons frame
    · exact (ih _).cons_cons frame

lemma head?_withoutRecursion (frames : List Frame) : (withoutRecursion none frames).head? = frames.head? := by
  cases frames with
  | nil => rfl
  | cons frame inner => simp [withoutRecursion]

lemma getLast?_withoutRecursion (outer : Option CctAddr) (frames : List Frame) :
    (withoutRecursion outer frames).getLast? = frames.getLast? := by
  induction frames generalizing outer with
  | nil => rfl
  | cons frame inner ih =>
    rw [withoutRecursion]
    cases inner with
    | nil => simp [Recurs, withoutRecursion]
    | cons next inner =>
      split
      · rw [ih, getLast?_cons_cons]
      · rw [getLast?_cons, ih, getLast?_cons_cons, getLast?_cons]
        rfl

lemma inserted_sublist_and_eq_iff (outer : Option CctAddr) (parentRoutine : CctAddr) (frames : List Frame)
    (front : ∀ f, Known f → (f = parentRoutine ↔ outer = some f)) :
    (inserted parentRoutine frames).Sublist (withoutRecursion outer frames) ∧
      (inserted parentRoutine frames = withoutRecursion outer frames ↔ KnownRecursion parentRoutine frames) := by
  induction frames generalizing outer parentRoutine with
  | nil => exact ⟨List.Sublist.slnil, iff_of_true rfl trivial⟩
  | cons frame inner ih =>
    obtain ⟨sublist, same⟩ := ih (some frame.theFunction) frame.theFunction fun f _ => by
      rw [Option.some_inj, eq_comm]
    rw [inserted, withoutRecursion, KnownRecursion]
    rcases em (Recurs parentRoutine frame inner) with recurs | not
    · rcases em (Known frame.theFunction) with known | unknown
      · have also : Known frame.theFunction ∧ ∃ function ∈ outer, Recurs function frame inner :=
          ⟨known, _, (front _ known).mp recurs.1, rfl, recurs.1 ▸ recurs.2⟩
        rw [if_pos recurs, if_pos also]
        exact ⟨sublist, same.trans (by simp [known])⟩
      · rw [if_pos recurs, if_neg fun also => unknown also.1]
        refine ⟨sublist.cons frame, iff_of_false (fun equal => ?_) fun all => unknown (all.1 recurs)⟩
        have shorter := sublist.length_le
        rw [equal, length_cons] at shorter
        omega
    · have keeps : ¬(Known frame.theFunction ∧ ∃ function ∈ outer, Recurs function frame inner) := by
        rintro ⟨known, function, isOuter, recurs⟩
        rw [← recurs.1, Option.mem_def, ← front _ known] at isOuter
        exact not ⟨isOuter, isOuter ▸ recurs.1 ▸ recurs.2⟩
      rw [if_neg not, if_neg keeps, cons_inj_right, same]
      exact ⟨sublist.cons_cons frame, by simp [not]⟩

lemma map_inserted_eq_iff (frames : List Frame) : (inserted ipNormalizedNULL frames).map Frame.ipNorm =
    (withoutRecursion none frames).map Frame.ipNorm ↔ KnownRecursion ipNormalizedNULL frames := by
  obtain ⟨sublist, same⟩ := inserted_sublist_and_eq_iff none ipNormalizedNULL frames fun f known =>
    iff_of_false known.1 (by simp)
  refine ⟨fun equal => same.mp (sublist.eq_of_length ?_), fun all => by rw [same.mpr all]⟩
  simpa using congrArg length equal

end Frames

namespace Heap

variable {h h' : Heap} {F F' : ℕ → STree ℕ} {n : ℕ}

/-! ## The path in the tree -/

lemma Inv.hpcrunCctInsertAddr_parent (inv : h.Inv F) (used : n ∈ h.live) {frm : CctAddr} {unwound : Bool}
    {child : Option ℕ} (run : h.hpcrunCctInsertAddr (some n) frm unwound = some (child, h')) {m : ℕ}
    (usedM : m ∈ h.live) : h'.parent m = h.parent m := by
  obtain ⟨links, splayed, tree, off⟩ := inv.splay used frm
  have inv₁ := inv.splayed used tree off
  have created := inv₁.area.creates inv₁.allocated frm unwound (some n)
  have kept := created.parent m usedM
  rw [Heap.hpcrunCctInsertAddr, splayed] at run
  simp only [Option.bind_eq_bind, Option.bind_some, Option.pure_def] at run
  cases root : (STree.splay h.addr frm (F n)).root? with
  | none =>
    rw [root] at run kept
    simp only at run
    obtain ⟨-, rfl⟩ := Prod.ext_iff.mp (Option.some.inj run)
    exact kept
  | some found =>
    rw [root] at run kept
    simp only at run
    split at run
    · obtain ⟨-, rfl⟩ := Prod.ext_iff.mp (Option.some.inj run)
      rfl
    · obtain ⟨-, rfl⟩ := Prod.ext_iff.mp (Option.some.inj run)
      exact kept

variable {leaf : ℕ}

lemma Inv.callPath_of_descend (inv : h.Inv F) (used : n ∈ h.live) {addrs : List CctAddr}
    (led : descend h.addr F addrs n = some leaf) : h.CallPath n leaf addrs := by
  induction addrs generalizing n with
  | nil => exact ⟨[], congrArg some (Option.some.inj led).symm, rfl⟩
  | cons a addrs ih =>
    rw [descend, foldlM_cons] at led
    obtain ⟨c, found, led⟩ := Option.bind_eq_some_iff.mp led
    obtain ⟨nodes, chain, same⟩ := ih (inv.find?_inUse used found) led
    have parent : h.parent c = some n := inv.parent n used c (STree.mem_of_find? h.addr found)
    refine ⟨nodes ++ [c], Chain.append.mpr ⟨some c, chain, rfl, parent⟩, ?_⟩
    rw [map_append, reverse_append, same, map_singleton, STree.key_of_find? h.addr found]
    rfl

variable {above : List ℕ}

lemma CallPath.unique {addrs addrs' : List CctAddr}
    (rooted : Chain h.parent above (some n) none) (path : h.CallPath n leaf addrs) (path' : h.CallPath n leaf addrs') :
    addrs = addrs' := by
  obtain ⟨nodes, chain, rfl⟩ := path
  obtain ⟨nodes', chain', rfl⟩ := path'
  have whole := Chain.append.mpr ⟨_, chain, rooted⟩
  have whole' := Chain.append.mpr ⟨_, chain', rooted⟩
  rw [append_cancel_right (whole.unique whole')]

/-- The tree after some insertions. -/
structure Extends (h : Heap) (F : ℕ → STree ℕ) (h' : Heap) (F' : ℕ → STree ℕ) : Prop where
  grows : Grows h F h' F'
  parent : ∀ m ∈ h.live, h'.parent m = h.parent m

lemma Inv.insertFrames (inv : h.Inv F) (used : n ∈ h.live) (parentRoutine : CctAddr) (frames : List Frame) :
    ∃ leaf h' F', Heap.insertFrames false h (some n) parentRoutine frames = some (some leaf, h') ∧ h'.Inv F' ∧
      Extends h F h' F' ∧
      descend h'.addr F' ((inserted parentRoutine frames).map Frame.ipNorm) n = some leaf := by
  induction frames generalizing h F n parentRoutine with
  | nil => exact ⟨n, h, F, rfl, inv, ⟨.refl h F, fun _ _ => rfl⟩, rfl⟩
  | cons frame inner ih =>
    rw [Heap.insertFrames, inserted]
    rcases em (Recurs parentRoutine frame inner) with recurs | not
    · rw [if_pos recurs, if_pos ⟨Bool.false_ne_true, recurs⟩]
      exact ih inv used frame.theFunction
    · obtain ⟨c, h₁, F₁, run, inv₁, grows₁, found⟩ := inv.hpcrunCctInsertAddr used frame.ipNorm true
      have usedC := inv₁.find?_inUse (grows₁.live used) found
      obtain ⟨leaf, h₂, F₂, rest, inv₂, ⟨grows₂, parent₂⟩, led⟩ := ih inv₁ usedC frame.theFunction
      rw [if_neg not, if_neg fun both => not both.2, run]
      refine ⟨leaf, h₂, F₂, rest, inv₂, ⟨grows₁.trans grows₂, fun m usedM => ?_⟩, ?_⟩
      · exact (parent₂ m (grows₁.live usedM)).trans (inv.hpcrunCctInsertAddr_parent used run usedM)
      · rw [map_cons, descend, foldlM_cons, grows₂.find? inv₁ inv₂ (grows₁.live used) found]
        exact led

/-- The path from `n` to the node is the backtrace without the frames in the middle of a recursion. The ends of the
backtrace are kept, and its order. -/
structure Compressed (h : Heap) (n leaf : ℕ) (frames : List Frame) : Prop where
  path : ∀ addrs, h.CallPath n leaf addrs ↔ addrs = (withoutRecursion none frames).map Frame.ipNorm
  outermost : (withoutRecursion none frames).head? = frames.head?
  innermost : (withoutRecursion none frames).getLast? = frames.getLast?
  order : (withoutRecursion none frames).Sublist frames

lemma Path.extends (rooted : h.Path (some n) above) (extended : Extends h F h' F') :
    h'.Path (some n) above :=
  ⟨rooted.chain.congr fun m member => extended.parent m (rooted.live m member),
    fun m member => extended.grows.live (rooted.live m member)⟩

lemma Inv.compressed_iff_knownRecursion (inv : h.Inv F) (used : n ∈ h.live)
    {frames : List Frame} (rooted : h.Path (some n) above)
    (led : descend h.addr F ((inserted ipNormalizedNULL frames).map Frame.ipNorm) n = some leaf) :
    h.Compressed n leaf frames ↔ KnownRecursion ipNormalizedNULL frames := by
  have path := inv.callPath_of_descend used led
  rw [← map_inserted_eq_iff]
  constructor
  · exact fun compressed => (compressed.path _).mp path
  · intro same
    rw [same] at path
    refine ⟨fun addrs => ⟨fun other => other.unique rooted.chain path, ?_⟩, head?_withoutRecursion frames,
      getLast?_withoutRecursion none frames, withoutRecursion_sublist none frames⟩
    rintro rfl
    exact path

/-- Two backtraces that are inserted below one node. -/
theorem compressed_iff (inv : h.Inv F) (used : n ∈ h.live) {above : List ℕ} (rooted : h.Path (some n) above)
    (frames frames' : List Frame) :
    ∃ leaf h' leaf' h'', h.cctInsertRawBacktrace false (some n) frames = some (some leaf, h') ∧
      h'.cctInsertRawBacktrace false (some n) frames' = some (some leaf', h'') ∧
      (h'.Compressed n leaf frames ↔ KnownRecursion ipNormalizedNULL frames) ∧
      (KnownRecursion ipNormalizedNULL frames → KnownRecursion ipNormalizedNULL frames' → (leaf = leaf' ↔
        (withoutRecursion none frames).map Frame.ipNorm = (withoutRecursion none frames').map Frame.ipNorm)) := by
  obtain ⟨leaf, h', F', run, inv', extended, led⟩ := inv.insertFrames used ipNormalizedNULL frames
  have used' := extended.grows.live used
  have rooted' := rooted.extends extended
  obtain ⟨leaf', h'', F'', run', inv'', extended', led'⟩ := inv'.insertFrames used' ipNormalizedNULL frames'
  refine ⟨leaf, h', leaf', h'', run, run', inv'.compressed_iff_knownRecursion used' rooted' led, fun known known' => ?_⟩
  have still := (extended'.grows.descend inv' inv'' used' led).1
  rw [map_inserted_eq_iff frames |>.mpr known] at still
  rw [map_inserted_eq_iff frames' |>.mpr known'] at led'
  have used'' := extended'.grows.live used'
  constructor
  · rintro rfl
    exact (inv''.callPath_of_descend used'' still).unique (rooted'.extends extended').chain
      (inv''.callPath_of_descend used'' led')
  · intro same
    rw [same, led'] at still
    exact (Option.some.inj still).symm

/-- A tree of which there is the root only. -/
def rootOnly : Heap := (fresh.cctNodeCreate (at? 0) false none).2

lemma rootOnly_inv : rootOnly.Inv (Function.update (fun _ => .nil) 0 .nil) := by
  have inv := Unused.inv (show fresh.Unused from ⟨rfl, rfl, rfl⟩)
  exact (inv.creates (inv.area.creates inv.allocated (at? 0) false none)).1

lemma rootOnly_path : rootOnly.Path (some 0) [0] :=
  ⟨⟨rfl, rfl⟩, fun _ member => .inl (mem_singleton.mp member)⟩

/-- A sort that calls itself, as in a program that sorts. -/
def sorting : List Frame := [⟨at? 0x10, at? 0x10⟩, ⟨at? 0x28, at? 0x20⟩, ⟨at? 0x29, at? 0x20⟩, ⟨at? 0x2a, at? 0x20⟩]

theorem sorting_compressed :
    ∃ leaf h' leaf' h'', rootOnly.cctInsertRawBacktrace false (some 0) sorting = some (some leaf, h') ∧
      h'.cctInsertRawBacktrace false (some 0) sorting.dropLast = some (some leaf', h'') ∧
      h'.Compressed 0 leaf sorting ∧ leaf ≠ leaf' := by
  obtain ⟨leaf, h', leaf', h'', run, run', compressed, apart⟩ :=
    compressed_iff rootOnly_inv (.inl rfl) rootOnly_path sorting sorting.dropLast
  have known : KnownRecursion ipNormalizedNULL sorting := by decide
  exact ⟨leaf, h', leaf', h'', run, run', compressed.mpr known, (apart known (by decide)).not.mpr (by decide)⟩

/-- Three frames in code of no load module. -/
def outside : List Frame := replicate 3 ⟨unnormalizable, unnormalizable⟩

theorem outside_not_compressed :
    ∃ leaf h', rootOnly.cctInsertRawBacktrace false (some 0) outside = some (some leaf, h') ∧
      ¬h'.Compressed 0 leaf outside := by
  obtain ⟨leaf, h', F', run, inv, extended, led⟩ := rootOnly_inv.insertFrames (.inl rfl) ipNormalizedNULL outside
  refine ⟨leaf, h', run, fun compressed => ?_⟩
  have used : 0 ∈ h'.live := extended.grows.live (.inl rfl)
  have known := (inv.compressed_iff_knownRecursion used (rootOnly_path.extends extended) led).mp compressed
  exact absurd known (by decide)

end Heap

end HpcToolkit.Cct.InPlace
