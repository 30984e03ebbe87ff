import HpcToolkit.MetaDb.Layout

/-! # Blobs on their way to a file

A blob is laid out in a buffer at an offset relative to the buffer. A buffer that is flushed gets its place in the
file, is written there, and the offsets recorded for its blobs become offsets in the file. Here the buffers take these
steps in any order, each buffer one after the other; who takes them is left open. The file has a byte where one was
written.
-/

open Function List

namespace HpcToolkit.ProfileDb

open MetaDb

/-! ## Bytes at an offset -/

abbrev Bytes := ℕ → Option UInt8

/-- The bytes of a buffer in memory. -/
def bytesOf (buf : List UInt8) : Bytes := fun i => buf[i]?

def writeat (file : Bytes) (offset : ℕ) (buf : List UInt8) : Bytes := fun i =>
  if offset ≤ i ∧ i < offset + buf.length then buf[i - offset]? else file i

/-- The bytes from the offset on are those of the blob. -/
def Stands (bytes : Bytes) (offset : ℕ) (blob : List UInt8) : Prop := ∀ i < blob.length, bytes (offset + i) = blob[i]?

section Stands

variable {bytes file : Bytes} {offset place : ℕ} {blob buf more : List UInt8}

lemma stands_writeat (file : Bytes) (offset : ℕ) (buf : List UInt8) :
    Stands (writeat file offset buf) offset buf := by
  intro i bound
  rw [writeat, if_pos ⟨Nat.le_add_right _ _, by omega⟩, Nat.add_sub_cancel_left]

lemma Stands.writeat_apart (stands : Stands file place blob)
    (apart : place + blob.length ≤ offset ∨ offset + buf.length ≤ place) :
    Stands (writeat file offset buf) place blob := by
  intro i bound
  rw [writeat, if_neg (by omega), stands i bound]

lemma Stands.trans (outer : Stands bytes offset buf) (inner : Stands (bytesOf buf) place blob)
    (room : place + blob.length ≤ buf.length) : Stands bytes (offset + place) blob := by
  intro i bound
  rw [Nat.add_assoc, outer (place + i) (by omega)]
  exact inner i bound

lemma Stands.append (stands : Stands (bytesOf buf) place blob) (room : place + blob.length ≤ buf.length) :
    Stands (bytesOf (buf ++ more)) place blob := by
  intro i bound
  rw [bytesOf, getElem?_append_left (by omega)]
  exact stands i bound

lemma stands_append (buf blob : List UInt8) : Stands (bytesOf (buf ++ blob)) buf.length blob := by
  intro i _
  rw [bytesOf, getElem?_append_right (Nat.le_add_right _ _), Nat.add_sub_cancel_left]

end Stands

/-! ## Profiles at their offsets -/

/-- The two offsets that are recorded for a profile. -/
inductive Field where
  | pValues
  | pCtxIndices
deriving DecidableEq

variable {Profile : Type}

abbrev Offsets (Profile : Type) := Profile × Field → ℕ

/-- The blobs of the profiles. -/
structure Blobs (Profile : Type) where
  mv : Profile → List UInt8
  ci : Profile → List UInt8

variable (blobs : Blobs Profile)

namespace Offsets

variable (o : Offsets Profile) (p q : Profile)

/-- The end of the region of a profile, which starts with its values. -/
def fin : ℕ := o (p, .pCtxIndices) + (blobs.ci p).length

def Apart : Prop := o.fin blobs p ≤ o (q, .pValues) ∨ o.fin blobs q ≤ o (p, .pValues)

/-- The blobs of the profile stand where its offsets say, which are aligned as the format wants them. -/
structure Lies (bytes : Bytes) : Prop where
  values : Stands bytes (o (p, .pValues)) (blobs.mv p)
  indices : Stands bytes (o (p, .pCtxIndices)) (blobs.ci p)
  valuesAligned : 2 ∣ o (p, .pValues)
  indicesAligned : 4 ∣ o (p, .pCtxIndices)
  ordered : o (p, .pValues) + (blobs.mv p).length ≤ o (p, .pCtxIndices)

/-- The buffer holds the profiles one after the other. -/
structure Packed (blob : List UInt8) (ps : List Profile) : Prop where
  lies : ∀ p ∈ ps, o.Lies blobs p (bytesOf blob) ∧ o.fin blobs p ≤ blob.length
  apart : ps.Pairwise (o.Apart blobs)

end Offsets

namespace Offsets

variable {blobs} {o o' : Offsets Profile} {p q : Profile} {bytes : Bytes} {blob : List UInt8} {ps : List Profile}

lemma Apart.symm (apart : o.Apart blobs p q) : o.Apart blobs q p := Or.symm apart

instance : Std.Symm (o.Apart blobs) := ⟨fun _ _ => Apart.symm⟩

lemma Packed.nil : o.Packed blobs [] [] := ⟨fun _ member => absurd member not_mem_nil, .nil⟩

section Same

variable (same : ∀ field, o' (p, field) = o (p, field))

include same

lemma fin_congr : o'.fin blobs p = o.fin blobs p := by rw [fin, fin, same]

lemma Lies.congr (lies : o.Lies blobs p bytes) : o'.Lies blobs p bytes := by
  obtain ⟨values, indices, valuesAligned, indicesAligned, ordered⟩ := lies
  constructor <;> simpa only [same]

lemma Apart.congr (sameQ : ∀ field, o' (q, field) = o (q, field)) (apart : o.Apart blobs p q) :
    o'.Apart blobs p q := by
  rw [Apart, fin_congr same, fin_congr sameQ, same, sameQ]
  exact apart

end Same

lemma Packed.congr (packed : o.Packed blobs blob ps) (same : ∀ p ∈ ps, ∀ field, o' (p, field) = o (p, field)) :
    o'.Packed blobs blob ps where
  lies p member := by
    rw [fin_congr (same p member)]
    exact ⟨(packed.lies p member).1.congr (same p member), (packed.lies p member).2⟩
  apart := packed.apart.imp_of_mem fun memberP memberQ apart => apart.congr (same _ memberP) (same _ memberQ)

end Offsets

/-- `std::vector::resize` with the fill 0. -/
def resize (blob : List UInt8) (n : ℕ) : List UInt8 := blob.take n ++ replicate (n - blob.length) 0

/-- The buffer with the blobs of a profile appended at their offsets. -/
def appendBlobs (o : Offsets Profile) (p : Profile) (blob : List UInt8) : List UInt8 :=
  resize (resize blob (o (p, .pValues)) ++ blobs.mv p) (o (p, .pCtxIndices)) ++ blobs.ci p

/-- The offsets of a profile that goes behind the first `n` bytes of a buffer. -/
def Offsets.Behind (o : Offsets Profile) (p : Profile) (n : ℕ) : Prop :=
  o (p, .pValues) = align n 2 ∧ o (p, .pCtxIndices) = align (o (p, .pValues) + (blobs.mv p).length) 4

section Append

variable {blobs} {o : Offsets Profile} {p : Profile} {blob : List UInt8} {ps : List Profile}

lemma resize_eq {n : ℕ} (room : blob.length ≤ n) : resize blob n = blob ++ replicate (n - blob.length) 0 := by
  rw [resize, take_of_length_le room]

lemma length_resize {n : ℕ} (room : blob.length ≤ n) : (resize blob n).length = n := by
  rw [resize_eq room, length_append, length_replicate, Nat.add_sub_cancel' room]

lemma align_dvd (v a : ℕ) : a ∣ align v a := Dvd.intro_left _ rfl

lemma packed_appendBlobs (packed : o.Packed blobs blob ps) (behind : o.Behind blobs p blob.length) :
    o.Packed blobs (appendBlobs blobs o p blob) (ps ++ [p]) := by
  have first : blob.length ≤ o (p, .pValues) := behind.1 ▸ le_align (by decide) _
  have second : o (p, .pValues) + (blobs.mv p).length ≤ o (p, .pCtxIndices) := behind.2 ▸ le_align (by decide) _
  have values : (resize blob (o (p, .pValues)) ++ blobs.mv p).length = o (p, .pValues) + (blobs.mv p).length := by
    rw [length_append, length_resize first]
  have indices : (resize (resize blob (o (p, .pValues)) ++ blobs.mv p) (o (p, .pCtxIndices))).length =
      o (p, .pCtxIndices) := length_resize (values ▸ second)
  have whole : (appendBlobs blobs o p blob).length = o.fin blobs p := by
    rw [appendBlobs, length_append, indices, Offsets.fin]
  have later : ∃ more, appendBlobs blobs o p blob = blob ++ more := by
    rw [appendBlobs, resize_eq (values ▸ second), resize_eq first]
    simp only [append_assoc]
    exact ⟨_, rfl⟩
  refine ⟨fun q member => ?_, ?_⟩
  · rcases mem_append.mp member with old | new
    · obtain ⟨lies, room⟩ := packed.lies q old
      obtain ⟨more, appended⟩ := later
      have ordered := lies.ordered
      rw [Offsets.fin] at room
      refine ⟨⟨?_, ?_, lies.valuesAligned, lies.indicesAligned, ordered⟩, ?_⟩
      · exact appended ▸ lies.values.append (by omega)
      · exact appended ▸ lies.indices.append room
      · rw [appended, length_append, Offsets.fin]
        omega
    · obtain rfl := mem_singleton.mp new
      refine ⟨⟨?_, ?_, behind.1 ▸ align_dvd _ _, behind.2 ▸ align_dvd _ _, second⟩, whole.ge⟩
      · have stands := stands_append (resize blob (o (q, .pValues))) (blobs.mv q)
        rw [length_resize first] at stands
        rw [appendBlobs, resize_eq (values ▸ second), append_assoc]
        exact stands.append values.ge
      · have stands := stands_append (resize (resize blob (o (q, .pValues)) ++ blobs.mv q) (o (q, .pCtxIndices)))
          (blobs.ci q)
        rwa [indices] at stands
  · refine pairwise_append.mpr ⟨packed.apart, pairwise_singleton _ _, fun q member r new => ?_⟩
    obtain rfl := mem_singleton.mp new
    exact .inl ((packed.lies q member).2.trans first)

end Append

/-! ## The steps of the buffers -/

inductive Stage (Profile : Type) where
  | packed
  /-- The profile has its offsets in the buffer, where its bytes are still missing. -/
  | laid (p : Profile)
  /-- The buffer has its place in the file, where its bytes may be still missing. -/
  | placed (offset : ℕ) (written : Bool)
  /-- The offsets are final, and the buffer still has its old bytes. -/
  | updated

/-- `pend` are the profiles whose offsets are relative to a buffer; those in `stored` have final ones. -/
structure Buffers (B Profile : Type) where
  pos : ℕ
  file : Bytes
  offsets : Offsets Profile
  stage : B → Stage Profile
  blob : B → List UInt8
  pend : B → List Profile
  stored : List Profile

namespace Buffers

variable {B : Type} [DecidableEq B] (d : Buffers B Profile) (b : B)

def layOut [DecidableEq Profile] (p : Profile) : Buffers B Profile :=
  let mvOffset := align (d.blob b).length 2
  let ciOffset := align (mvOffset + (blobs.mv p).length) 4
  { d with
    offsets := update (update d.offsets (p, .pValues) mvOffset) (p, .pCtxIndices) ciOffset
    pend := update d.pend b (d.pend b ++ [p])
    stage := update d.stage b (.laid p) }

def append (p : Profile) : Buffers B Profile :=
  { d with
    blob := update d.blob b (appendBlobs blobs d.offsets p (d.blob b))
    stage := update d.stage b .packed }

def allocate : Buffers B Profile :=
  { d with
    pos := d.pos + align (d.blob b).length 4
    stage := update d.stage b (.placed d.pos false) }

def write (offset : ℕ) : Buffers B Profile :=
  { d with
    file := writeat d.file offset (d.blob b)
    stage := update d.stage b (.placed offset true) }

/-- The offsets of the profiles in the buffer become offsets in the file. -/
def settle [DecidableEq Profile] (offset : ℕ) : Buffers B Profile :=
  { d with
    offsets := fun target => if target.1 ∈ d.pend b then d.offsets target + offset else d.offsets target
    stored := d.pend b ++ d.stored
    pend := update d.pend b []
    stage := update d.stage b .updated }

def clear : Buffers B Profile :=
  { d with
    blob := update d.blob b []
    stage := update d.stage b .packed }

/-- What holds of one buffer. -/
def StageOk : Prop :=
  match d.stage b with
  | .packed => d.offsets.Packed blobs (d.blob b) (d.pend b)
  | .laid p => ∃ ps, d.pend b = ps ++ [p] ∧ d.offsets.Packed blobs (d.blob b) ps ∧
      d.offsets.Behind blobs p (d.blob b).length
  | .placed offset written => d.offsets.Packed blobs (d.blob b) (d.pend b) ∧ 4 ∣ offset ∧
      offset + (d.blob b).length ≤ d.pos ∧ (written = true → Stands d.file offset (d.blob b))
  | .updated => d.pend b = []

/-- The profiles are each in one place, and the places in the file are apart. -/
structure Inv : Prop where
  pos : 4 ∣ d.pos
  stages : ∀ b, d.StageOk blobs b
  nodup : ∀ b, (d.pend b).Nodup
  once : ∀ b b' p, p ∈ d.pend b → p ∈ d.pend b' → b = b'
  unstored : ∀ b, ∀ p ∈ d.pend b, p ∉ d.stored
  stored : ∀ p ∈ d.stored, d.offsets.Lies blobs p d.file ∧ d.offsets.fin blobs p ≤ d.pos
  apart : ∀ p ∈ d.stored, ∀ q ∈ d.stored, p ≠ q → d.offsets.Apart blobs p q
  placedApart : ∀ b b' offset offset' w w', b ≠ b' → d.stage b = .placed offset w → d.stage b' = .placed offset' w' →
    offset + (d.blob b).length ≤ offset' ∨ offset' + (d.blob b').length ≤ offset
  placedStored : ∀ b offset w, d.stage b = .placed offset w → ∀ p ∈ d.stored,
    d.offsets.fin blobs p ≤ offset ∨ offset + (d.blob b).length ≤ d.offsets (p, .pValues)

section Steps

variable {blobs} {d : Buffers B Profile} {b b' : B} {d' : Buffers B Profile} {p : Profile} {offset : ℕ}

section
omit [DecidableEq B]

lemma StageOk.other (ok : d.StageOk blobs b) (stage : d'.stage b = d.stage b) (blob : d'.blob b = d.blob b)
    (pend : d'.pend b = d.pend b) (same : ∀ p ∈ d.pend b, ∀ field, d'.offsets (p, field) = d.offsets (p, field))
    (pos : d.pos ≤ d'.pos) (file : ∀ offset, d.stage b = .placed offset true → Stands d.file offset (d.blob b) →
      Stands d'.file offset (d.blob b)) : d'.StageOk blobs b := by
  rw [StageOk, stage, blob, pend]
  rw [StageOk] at ok
  cases now : d.stage b with
  | packed =>
    simp only [now] at ok ⊢
    exact ok.congr same
  | laid p =>
    simp only [now] at ok ⊢
    obtain ⟨ps, split, packed, values, indices⟩ := ok
    have mine := same p (by simp [split])
    refine ⟨ps, split, packed.congr fun q member => same q (by simp [split, member]), ?_, ?_⟩
    · rw [mine, values]
    · rw [mine, mine, indices]
  | placed offset written =>
    simp only [now] at ok ⊢
    obtain ⟨packed, aligned, room, stands⟩ := ok
    refine ⟨packed.congr same, aligned, room.trans pos, fun isWritten => ?_⟩
    subst isWritten
    exact file offset now (stands rfl)
  | updated =>
    simp only [now] at ok ⊢
    exact ok

lemma Inv.packed (inv : d.Inv blobs) (stage : d.stage b = .packed) :
    d.offsets.Packed blobs (d.blob b) (d.pend b) := by
  have ok := inv.stages b
  simpa only [StageOk, stage] using ok

lemma Inv.placed (inv : d.Inv blobs) {w : Bool} (stage : d.stage b = .placed offset w) :
    d.offsets.Packed blobs (d.blob b) (d.pend b) ∧ 4 ∣ offset ∧ offset + (d.blob b).length ≤ d.pos ∧
      (w = true → Stands d.file offset (d.blob b)) := by
  have ok := inv.stages b
  simpa only [StageOk, stage] using ok

lemma Inv.restage (inv : d.Inv blobs) (offsets : d'.offsets = d.offsets) (pend : d'.pend = d.pend)
    (stored : d'.stored = d.stored) (pos : d.pos ≤ d'.pos) (aligned : 4 ∣ d'.pos) (own : d'.StageOk blobs b)
    (others : ∀ b', b' ≠ b → d'.stage b' = d.stage b' ∧ d'.blob b' = d.blob b')
    (file : ∀ place enc, (∀ offset w, d.stage b = .placed offset w →
      place + enc.length ≤ offset ∨ offset + (d.blob b).length ≤ place) → Stands d.file place enc →
      Stands d'.file place enc)
    (mine : ∀ offset w, d'.stage b = .placed offset w → d'.blob b = d.blob b ∧
      (offset = d.pos ∨ ∃ w', d.stage b = .placed offset w')) : d'.Inv blobs := by
  have fromB : ∀ offset w, d'.stage b = .placed offset w → ∀ b' offset' w', b' ≠ b → d'.stage b' = .placed offset' w' →
      offset + (d'.blob b).length ≤ offset' ∨ offset' + (d'.blob b').length ≤ offset := by
    intro offset w here b' offset' w' other there
    rw [(others b' other).1] at there
    rw [(mine offset w here).1, (others b' other).2]
    rcases (mine offset w here).2 with rfl | ⟨w'', before⟩
    · exact .inr (inv.placed there).2.2.1
    · exact inv.placedApart b b' offset offset' w'' w' other.symm before there
  refine ⟨aligned, fun b' => ?_, pend ▸ inv.nodup, pend ▸ inv.once, pend ▸ stored ▸ inv.unstored, ?_,
    stored ▸ offsets ▸ inv.apart, ?_, ?_⟩
  · by_cases here : b' = b
    · exact here ▸ own
    · refine (inv.stages b').other (others b' here).1 (others b' here).2 (by rw [pend])
        (fun p _ field => by rw [offsets]) pos fun offset' there => file offset' _ fun offset w placed => ?_
      exact inv.placedApart b' b offset' offset _ w here there placed
  · rw [stored, offsets]
    intro p member
    obtain ⟨lies, room⟩ := inv.stored p member
    have ordered := lies.ordered
    refine ⟨⟨file _ _ (fun offset w placed => ?_) lies.values, file _ _ (fun offset w placed => ?_) lies.indices,
      lies.valuesAligned, lies.indicesAligned, ordered⟩, room.trans pos⟩
    all_goals
      have apart := inv.placedStored b offset w placed p member
      rw [Offsets.fin] at apart
      omega
  · intro b₁ b₂ offset offset' w w' differ first second
    by_cases here : b₁ = b
    · subst here
      exact fromB offset w first b₂ offset' w' differ.symm second
    · by_cases there : b₂ = b
      · subst there
        exact (fromB offset' w' second b₁ offset w differ first).symm
      · rw [(others b₁ here).1] at first
        rw [(others b₂ there).1] at second
        rw [(others b₁ here).2, (others b₂ there).2]
        exact inv.placedApart b₁ b₂ offset offset' w w' differ first second
  · rw [stored, offsets]
    intro b' offset w placed p member
    by_cases here : b' = b
    · subst here
      rw [(mine offset w placed).1]
      rcases (mine offset w placed).2 with rfl | ⟨w', before⟩
      · exact .inl (inv.stored p member).2
      · exact inv.placedStored b' offset w' before p member
    · rw [(others b' here).1] at placed
      rw [(others b' here).2]
      exact inv.placedStored b' offset w placed p member

end

lemma Inv.append (inv : d.Inv blobs) (stage : d.stage b = .laid p) : (d.append blobs b p).Inv blobs := by
  have ok := inv.stages b
  simp only [StageOk, stage] at ok
  obtain ⟨ps, split, packed, behind⟩ := ok
  refine inv.restage (b := b) rfl rfl rfl le_rfl inv.pos ?_ (fun b' other => ?_) (fun place enc apart stands => stands)
    fun offset w placed => ?_
  · simp only [StageOk, Buffers.append, update_self]
    exact split ▸ packed_appendBlobs packed behind
  · simp only [Buffers.append, update_of_ne other, and_self]
  · simp [Buffers.append] at placed

lemma Inv.allocate (inv : d.Inv blobs) (stage : d.stage b = .packed) : (d.allocate b).Inv blobs := by
  have room := le_align (show 0 < 4 by decide) (d.blob b).length
  refine inv.restage (b := b) rfl rfl rfl (Nat.le_add_right _ _) (dvd_add inv.pos (align_dvd _ _)) ?_
    (fun b' other => ?_) (fun place enc apart stands => stands) fun offset w placed => ⟨rfl, .inl ?_⟩
  · simp only [StageOk, Buffers.allocate, update_self]
    exact ⟨inv.packed stage, inv.pos, Nat.add_le_add_left room _, fun written => absurd written Bool.false_ne_true⟩
  · simp only [Buffers.allocate, update_of_ne other, and_self]
  · simp only [Buffers.allocate, update_self, Stage.placed.injEq] at placed
    exact placed.1.symm

lemma Inv.write (inv : d.Inv blobs) (stage : d.stage b = .placed offset false) :
    (d.write b offset).Inv blobs := by
  obtain ⟨packed, aligned, room, -⟩ := inv.placed stage
  refine inv.restage (b := b) rfl rfl rfl le_rfl inv.pos ?_ (fun b' other => ?_)
    (fun place enc apart stands => stands.writeat_apart (apart offset false stage)) fun offset' w placed =>
    ⟨rfl, .inr ⟨false, ?_⟩⟩
  · simp only [StageOk, Buffers.write, update_self]
    exact ⟨packed, aligned, room, fun _ => stands_writeat _ _ _⟩
  · simp only [Buffers.write, update_of_ne other, and_self]
  · simp only [Buffers.write, update_self, Stage.placed.injEq] at placed
    exact placed.1 ▸ stage

lemma Inv.clear (inv : d.Inv blobs) (stage : d.stage b = .updated) : (d.clear b).Inv blobs := by
  have empty := inv.stages b
  simp only [StageOk, stage] at empty
  refine inv.restage (b := b) rfl rfl rfl le_rfl inv.pos ?_ (fun b' other => ?_) (fun place enc apart stands => stands)
    fun offset w placed => ?_
  · simp only [StageOk, Buffers.clear, update_self, empty]
    exact .nil
  · simp only [Buffers.clear, update_of_ne other, and_self]
  · simp [Buffers.clear] at placed

variable [DecidableEq Profile]

lemma Inv.layOut (inv : d.Inv blobs) (stage : d.stage b = .packed) (unlisted : ∀ b, p ∉ d.pend b)
    (unstored : p ∉ d.stored) : (d.layOut blobs b p).Inv blobs := by
  have same : ∀ q, q ≠ p → ∀ field, (d.layOut blobs b p).offsets (q, field) = d.offsets (q, field) := by
    intro q other field
    simp only [Buffers.layOut]
    rw [update_of_ne (by simp [other]), update_of_ne (by simp [other])]
  have differs : ∀ {b' q}, q ∈ d.pend b' → q ≠ p := fun member equal => unlisted _ (equal ▸ member)
  have differs' : ∀ {q}, q ∈ d.stored → q ≠ p := fun member equal => unstored (equal ▸ member)
  have listed : ∀ b' q, q ∈ (d.layOut blobs b p).pend b' ↔ q ∈ d.pend b' ∨ b' = b ∧ q = p := by
    intro b' q
    simp only [Buffers.layOut]
    by_cases here : b' = b
    · subst here
      simp
    · simp [here]
  have stays : ∀ {b' offset w}, (d.layOut blobs b p).stage b' = .placed offset w → d.stage b' = .placed offset w := by
    intro b' offset w placed
    by_cases here : b' = b
    · simp [Buffers.layOut, here] at placed
    · simpa only [Buffers.layOut, update_of_ne here] using placed
  refine ⟨inv.pos, fun b' => ?_, fun b' => ?_, fun b₁ b₂ q first second => ?_, fun b' q member => ?_,
    fun q member => ?_, fun q member r memberR differ => ?_, fun b₁ b₂ offset offset' w w' differ first second => ?_,
    fun b' offset w placed q member => ?_⟩
  · by_cases here : b' = b
    · subst here
      simp only [StageOk, Buffers.layOut, update_self]
      refine ⟨d.pend b', rfl, (inv.packed stage).congr fun q member => same q (differs member), ?_, ?_⟩
      · rw [update_of_ne (by simp), update_self]
      · rw [update_self, update_of_ne (by simp), update_self]
    · refine (inv.stages b').other ?_ rfl ?_ (fun q member => same q (differs member)) le_rfl fun _ _ stands => stands
      all_goals simp only [Buffers.layOut, update_of_ne here]
  · by_cases here : b' = b
    · subst here
      simp only [Buffers.layOut, update_self]
      exact nodup_append.mpr ⟨inv.nodup b', nodup_singleton p, fun q member r new equal =>
        differs member (equal.trans (mem_singleton.mp new))⟩
    · simpa only [Buffers.layOut, update_of_ne here] using inv.nodup b'
  · rcases (listed b₁ q).mp first with old | ⟨rfl, rfl⟩ <;> rcases (listed b₂ q).mp second with old' | ⟨rfl, new⟩
    · exact inv.once b₁ b₂ q old old'
    · exact absurd new (differs old)
    · exact absurd old' (unlisted b₂)
    · rfl
  · rcases (listed b' q).mp member with old | ⟨-, rfl⟩
    · exact inv.unstored b' q old
    · exact unstored
  · obtain ⟨lies, room⟩ := inv.stored q member
    exact ⟨lies.congr (same q (differs' member)), Offsets.fin_congr (same q (differs' member)) ▸ room⟩
  · exact (inv.apart q member r memberR differ).congr (same q (differs' member)) (same r (differs' memberR))
  · exact inv.placedApart b₁ b₂ offset offset' w w' differ (stays first) (stays second)
  · rw [Offsets.fin_congr (same q (differs' member)), same q (differs' member)]
    exact inv.placedStored b' offset w (stays placed) q member

lemma Inv.settle (inv : d.Inv blobs) (stage : d.stage b = .placed offset true) : (d.settle b offset).Inv blobs := by
  obtain ⟨packed, aligned, room, stands⟩ := inv.placed stage
  have moved : ∀ q ∈ d.pend b, ∀ field, (d.settle b offset).offsets (q, field) = d.offsets (q, field) + offset :=
    fun q member field => if_pos member
  have same : ∀ q, q ∉ d.pend b → ∀ field, (d.settle b offset).offsets (q, field) = d.offsets (q, field) :=
    fun q other field => if_neg other
  have sameStored : ∀ q ∈ d.stored, ∀ field, (d.settle b offset).offsets (q, field) = d.offsets (q, field) :=
    fun q member => same q fun listed => inv.unstored b q listed member
  have fins : ∀ q ∈ d.pend b, (d.settle b offset).offsets.fin blobs q = d.offsets.fin blobs q + offset := by
    intro q member
    rw [Offsets.fin, Offsets.fin, moved q member]
    omega
  have listed : ∀ b' q, q ∈ (d.settle b offset).pend b' → b' ≠ b ∧ q ∈ d.pend b' := by
    intro b' q member
    simp only [Buffers.settle] at member
    by_cases here : b' = b
    · simp [here] at member
    · exact ⟨here, by simpa only [update_of_ne here] using member⟩
  have stays : ∀ {b' place w}, (d.settle b offset).stage b' = .placed place w →
      b' ≠ b ∧ d.stage b' = .placed place w := by
    intro b' place w placed
    by_cases here : b' = b
    · simp [Buffers.settle, here] at placed
    · exact ⟨here, by simpa only [Buffers.settle, update_of_ne here] using placed⟩
  have apartOld : ∀ q ∈ d.pend b, ∀ r ∈ d.stored, (d.settle b offset).offsets.Apart blobs q r := by
    intro q member r memberR
    have inside := (packed.lies q member).2
    rw [Offsets.Apart, fins q member, moved q member, Offsets.fin_congr (sameStored r memberR), sameStored r memberR]
    rcases inv.placedStored b offset true stage r memberR with before | behind
    · exact .inr (before.trans (Nat.le_add_left _ _))
    · exact .inl (by omega)
  refine ⟨inv.pos, fun b' => ?_, fun b' => ?_, fun b₁ b₂ q first second => ?_, fun b' q member => ?_,
    fun q member => ?_, fun q member r memberR differ => ?_, fun b₁ b₂ place place' w w' differ first second => ?_,
    fun b' place w placed q member => ?_⟩
  · by_cases here : b' = b
    · subst here
      simp only [StageOk, Buffers.settle, update_self]
    · refine (inv.stages b').other ?_ rfl ?_
        (fun q member => same q fun there => here (inv.once b' b q member there)) le_rfl fun _ _ stands => stands
      all_goals simp only [Buffers.settle, update_of_ne here]
  · by_cases here : b' = b
    · simp [Buffers.settle, here]
    · simpa only [Buffers.settle, update_of_ne here] using inv.nodup b'
  · exact inv.once b₁ b₂ q (listed b₁ q first).2 (listed b₂ q second).2
  · obtain ⟨other, old⟩ := listed b' q member
    refine fun stored => (mem_append.mp stored).elim (fun there => other (inv.once b' b q old there)) ?_
    exact inv.unstored b' q old
  · rcases mem_append.mp member with new | old
    · obtain ⟨lies, inside⟩ := packed.lies q new
      have ordered := lies.ordered
      rw [fins q new]
      rw [Offsets.fin] at inside ⊢
      refine ⟨⟨?_, ?_, ?_, ?_, ?_⟩, ?_⟩
      · rw [moved q new, Nat.add_comm]
        exact (stands rfl).trans lies.values (by omega)
      · rw [moved q new, Nat.add_comm]
        exact (stands rfl).trans lies.indices inside
      · rw [moved q new]
        exact dvd_add lies.valuesAligned (Dvd.dvd.trans (by decide) aligned)
      · rw [moved q new]
        exact dvd_add lies.indicesAligned aligned
      · rw [moved q new, moved q new]
        omega
      · change _ ≤ d.pos
        omega
    · obtain ⟨lies, below⟩ := inv.stored q old
      exact ⟨lies.congr (sameStored q old), Offsets.fin_congr (sameStored q old) ▸ below⟩
  · rcases mem_append.mp member with new | old <;> rcases mem_append.mp memberR with newR | oldR
    · have apart := packed.apart.forall new newR differ
      rw [Offsets.Apart] at apart
      rw [Offsets.Apart, fins q new, fins r newR, moved q new, moved r newR]
      exact apart.imp (Nat.add_le_add_right · offset) (Nat.add_le_add_right · offset)
    · exact apartOld q new r oldR
    · exact (apartOld r newR q old).symm
    · exact (inv.apart q old r oldR differ).congr (sameStored q old) (sameStored r oldR)
  · exact inv.placedApart b₁ b₂ place place' w w' differ (stays first).2 (stays second).2
  · obtain ⟨other, there⟩ := stays placed
    rcases mem_append.mp member with new | old
    · have inside := (packed.lies q new).2
      rw [fins q new, moved q new]
      rcases inv.placedApart b' b place offset w true other there stage with before | behind
      · exact .inr (before.trans (Nat.le_add_left _ _))
      · exact .inl (by omega)
    · rw [Offsets.fin_congr (sameStored q old), sameStored q old]
      exact inv.placedStored b' place w there q old

end Steps

end Buffers

end HpcToolkit.ProfileDb
