import HpcToolkit.MetaDb.Records

/-! # The context tree of a written file

Following the pointers of a file that `MetaDB::write` has written gives the context tree without the elided contexts:
every other context is visited once, below its nearest ancestor that is not elided, with its own identifier, relation,
lexical type, function, file and module. Only the line of a context is cut to the 32 bits of its field.
-/

open List

namespace HpcToolkit.MetaDb

open Lib

variable {M F Fn : Type} [DecidableEq M] [DecidableEq F] [DecidableEq Fn]

/-! ## What a record says -/

/-- The item at a place of the table. -/
def Table.find {α : Type} [DecidableEq α] (table : Table α) (p : ℕ) : Option α := table.items.find? fun x => table.ptr x = p

/-- What the record of a context says, with its pointers followed. -/
structure Shown (M F Fn : Type) where
  identifier : ℕ
  relation : ℕ
  lexicalType : ℕ
  function : Option (Fn ⊕ UInt64)
  line : Option (F × ℕ)
  point : Option (M × ℕ)

def FmtContext.shown (tables : Tables M F Fn) (ctx : FmtContext) : Shown M F Fn where
  identifier := ctx.ctxId
  relation := ctx.relation
  lexicalType := ctx.lexicalType
  function := tables.functions.find ctx.pFunction
  line := (tables.files.find ctx.pFile).map (·, ctx.line)
  point := (tables.modules.find ctx.pModule).map (·, ctx.offset)

/-- The function or placeholder of a scope. -/
def Scope.function? : Scope M F Fn → Option (Fn ⊕ UInt64)
  | .function func => some (.inl func)
  | .placeholder value => some (.inr value)
  | _ => none

def Scope.line? : Scope M F Fn → Option (F × UInt64)
  | .line file number | .lexicalLoop file number | .binaryLoop _ _ file number => some (file, number)
  | _ => none

def Scope.point? : Scope M F Fn → Option (M × UInt64)
  | .point module offset | .binaryLoop module offset _ _ => some (module, offset)
  | _ => none

/-- What is to be said about a context, with the number that stands for a line. -/
def Context.shown (lineOf : UInt64 → ℕ) (c : Context M F Fn) : Shown M F Fn where
  identifier := c.identifier.toNat
  relation := c.relation.fmt
  lexicalType := c.scope.lexicalType
  function := c.scope.function?
  line := c.scope.line?.map fun (file, line) => (file, lineOf line)
  point := c.scope.point?.map fun (module, offset) => (module, offset.toNat)

namespace Table

variable {α : Type} [DecidableEq α] {table : Table α} {hi : ℕ} {x y : α}

lemma Laid.ptr_lt (laid : table.Laid hi) (mem : x ∈ table.items) : 0x90 ≤ table.ptr x ∧ table.ptr x < hi := by
  have index := idxOf_lt_length_of_mem mem
  have le : (table.items.idxOf x + 1) * table.stride ≤ table.items.length * table.stride :=
    Nat.mul_le_mul_right _ index
  have start := laid.offset
  have stop := laid.stop
  have stride := laid.stride
  rw [Nat.add_mul, Nat.one_mul] at le
  rw [ptr]
  omega

lemma Laid.find_ptr (laid : table.Laid hi) (mem : x ∈ table.items) : table.find (table.ptr x) = some x := by
  have found : (table.items.find? fun y => table.ptr y = table.ptr x).isSome := by
    rw [find?_isSome]
    exact ⟨x, mem, by simp⟩
  obtain ⟨y, here⟩ := Option.isSome_iff_exists.mp found
  have same : table.ptr y = table.ptr x := by simpa using find?_some here
  have index : table.items.idxOf y = table.items.idxOf x := by
    apply Nat.eq_of_mul_eq_mul_right laid.stride
    exact Nat.add_left_cancel same
  rw [find, here, (idxOf_inj (mem_of_find?_eq_some here)).mp index]

lemma Laid.find_zero (laid : table.Laid hi) : table.find 0 = none := by
  rw [find, find?_eq_none]
  intro x _
  have start := laid.offset
  have ptr : table.ptr x ≠ 0 := by
    rw [Table.ptr]
    omega
  simpa using ptr

end Table

/-- The tables are in the file. -/
structure Tables.Laid (tables : Tables M F Fn) (hi : ℕ) : Prop where
  modules : tables.modules.Laid hi
  files : tables.files.Laid hi
  functions : tables.functions.Laid hi

variable {tables : Tables M F Fn} {lo hi : ℕ} {c : Context M F Fn} {ud : UdContext}

@[simp] lemma compose_szChildren : (compose tables c ud).szChildren = ud.szChildren := by
  cases scope : c.scope <;> simp [compose, scope]

@[simp] lemma compose_pChildren : (compose tables c ud).pChildren = ud.pChildren := by
  cases scope : c.scope <;> simp [compose, scope]

@[simp] lemma compose_ctxId : (compose tables c ud).ctxId = c.identifier.toNat := by
  cases scope : c.scope <;> simp [compose, scope]

@[simp] lemma compose_relation : (compose tables c ud).relation = c.relation.fmt := by
  cases scope : c.scope <;> simp [compose, scope]

@[simp] lemma compose_lexicalType : (compose tables c ud).lexicalType = c.scope.lexicalType := by
  cases scope : c.scope <;> simp [compose, scope]

@[simp] lemma compose_propagation : (compose tables c ud).propagation = c.relation.propagation := by
  cases scope : c.scope <;> simp [compose, scope]

lemma shown_compose (laid : tables.Laid hi) (listed : c.scope.Listed tables) :
    (compose tables c ud).shown tables = c.shown fun line => line.toNat % 2 ^ 32 := by
  have noFunction := laid.functions.find_zero
  have noFile := laid.files.find_zero
  have noModule := laid.modules.find_zero
  cases scope : c.scope with
  | unknown => simp [compose, FmtContext.shown, Context.shown, scope, noFunction, noFile, noModule, Scope.function?,
      Scope.line?, Scope.point?]
  | point module offset =>
    rw [scope] at listed
    simp [compose, FmtContext.shown, Context.shown, scope, noFunction, noFile, laid.modules.find_ptr listed,
      Scope.function?, Scope.line?, Scope.point?]
  | function func =>
    rw [scope] at listed
    simp [compose, FmtContext.shown, Context.shown, scope, laid.functions.find_ptr listed, noFile, noModule,
      Scope.function?, Scope.line?, Scope.point?]
  | placeholder value =>
    rw [scope] at listed
    simp [compose, FmtContext.shown, Context.shown, scope, laid.functions.find_ptr listed, noFile, noModule,
      Scope.function?, Scope.line?, Scope.point?]
  | lexicalLoop file line | line file line =>
    rw [scope] at listed
    simp [compose, FmtContext.shown, Context.shown, scope, noFunction, laid.files.find_ptr listed, noModule,
      Scope.function?, Scope.line?, Scope.point?]
  | binaryLoop module offset file line =>
    rw [scope] at listed
    simp [compose, FmtContext.shown, Context.shown, scope, noFunction, laid.files.find_ptr listed.2,
      laid.modules.find_ptr listed.1, Scope.function?, Scope.line?, Scope.point?]

lemma relation_fmt_lt (relation : Relation) : relation.fmt < 256 ^ 1 := by cases relation <;> decide

lemma propagation_lt (relation : Relation) : relation.propagation < 256 ^ 2 := by cases relation <;> decide

omit [DecidableEq M] [DecidableEq F] [DecidableEq Fn] in
lemma lexicalType_lt (scope : Scope M F Fn) : scope.lexicalType < 256 ^ 1 := by cases scope <;> simp [Scope.lexicalType]

lemma compose_valid (laid : tables.Laid hi) (small : hi < 2 ^ 63) (listed : c.scope.Listed tables)
    (stop : ud.pChildren + ud.szChildren ≤ 2 ^ 63) : (compose tables c ud).Valid := by
  have small : hi < 256 ^ 8 := by omega
  constructor
  case szChildren =>
    rw [compose_szChildren]
    omega
  case pChildren =>
    rw [compose_pChildren]
    omega
  case ctxId =>
    rw [compose_ctxId]
    exact c.identifier.toNat_lt
  case relation =>
    rw [compose_relation]
    exact relation_fmt_lt c.relation
  case lexicalType =>
    rw [compose_lexicalType]
    exact lexicalType_lt c.scope
  case propagation =>
    rw [compose_propagation]
    exact propagation_lt c.relation
  case pFunction =>
    cases scope : c.scope <;> simp only [scope, Scope.Listed] at listed <;> simp only [compose, scope]
    case function func => exact (laid.functions.ptr_lt listed).2.trans small
    case placeholder value => exact (laid.functions.ptr_lt listed).2.trans small
    all_goals norm_num
  case pFile =>
    cases scope : c.scope <;> simp only [scope, Scope.Listed] at listed <;> simp only [compose, scope]
    case line file number => exact (laid.files.ptr_lt listed).2.trans small
    case lexicalLoop file number => exact (laid.files.ptr_lt listed).2.trans small
    case binaryLoop module offset file number => exact (laid.files.ptr_lt listed.2).2.trans small
    all_goals norm_num
  case line =>
    cases scope : c.scope <;> simp only [compose, scope]
    all_goals omega
  case pModule =>
    cases scope : c.scope <;> simp only [scope, Scope.Listed] at listed <;> simp only [compose, scope]
    case point module offset => exact (laid.modules.ptr_lt listed).2.trans small
    case binaryLoop module offset file number => exact (laid.modules.ptr_lt listed.1).2.trans small
    all_goals norm_num
  case offset =>
    cases scope : c.scope <;> simp only [compose, scope]
    case point module offset => exact offset.toNat_lt
    case binaryLoop module offset file number => exact offset.toNat_lt
    all_goals norm_num
  case noLine =>
    cases scope : c.scope <;> simp only [scope, Scope.Listed] at listed <;> simp only [compose, scope] <;> intro zero
    case line file number =>
      have ptr := (laid.files.ptr_lt listed).1
      omega
    case lexicalLoop file number =>
      have ptr := (laid.files.ptr_lt listed).1
      omega
    case binaryLoop module offset file number =>
      have ptr := (laid.files.ptr_lt listed.2).1
      omega
    all_goals trivial
  case noOffset =>
    cases scope : c.scope <;> simp only [scope, Scope.Listed] at listed <;> simp only [compose, scope] <;> intro zero
    case point module offset =>
      have ptr := (laid.modules.ptr_lt listed).1
      omega
    case binaryLoop module offset file number =>
      have ptr := (laid.modules.ptr_lt listed.1).1
      omega
    all_goals trivial

/-! ## Following the pointers -/

lemma mapM_map_eq {α β γ : Type} {f : β → Option γ} {g : α → β} {h : α → γ} (items : List α)
    (each : ∀ item ∈ items, f (g item) = some (h item)) : (items.map g).mapM f = some (items.map h) := by
  induction items with
  | nil => rfl
  | cons item items ih =>
    have first := each item mem_cons_self
    have rest := ih fun item mem => each item (mem_cons_of_mem _ mem)
    simp [first, rest]

lemma length_le_flatMap_write (ctxs : List FmtContext) : ctxs.length ≤ (ctxs.flatMap FmtContext.write).length := by
  induction ctxs with
  | nil => exact le_rfl
  | cons ctx ctxs ih =>
    rw [flatMap_cons, length_append, ctx.length_write, length_cons]
    omega

variable {file : List UInt8}

omit [DecidableEq M] [DecidableEq F] [DecidableEq Fn] in
lemma Holds.read {records : List FmtContext} (holds : Holds file lo hi ud records)
    (valid : ∀ ctx ∈ records, ctx.Valid) :
    ∃ position, readArray ud.szChildren ud.szChildren ⟨file, ud.pChildren⟩ = some (records, position) := by
  have count := length_le_flatMap_write records
  rw [← holds.size] at count
  by_cases empty : ud.szChildren = 0
  · have none : records = [] := by
      apply eq_nil_of_length_eq_zero
      omega
    rw [empty, none, readArray.eq_def]
    exact ⟨_, rfl⟩
  · have read := reads_array records valid ud.szChildren count file ud.pChildren (holds.inside empty).2
    rw [← holds.size] at read
    exact ⟨_, read⟩

lemma follow_placed (laid : tables.Laid hi) (small : hi < 2 ^ 63) (fuel : ℕ)
    (t : Rose (Context M F Fn × UdContext)) (placed : Placed tables file lo hi t) (separate : t.Separate hiddenVisit)
    (shown : hiddenVisit t.label = false) (listed : ∀ v ∈ t.children.flatMap Rose.labels, v.1.scope.Listed tables)
    (enough : t.height ≤ fuel) :
    follow file fuel t.label.2.pChildren t.label.2.szChildren =
      some ((t.children.flatMap (Rose.prune hiddenVisit)).map (Rose.map (record tables))) := by
  induction fuel generalizing t with
  | zero =>
    cases t with
    | node label children => exact absurd enough (by simp [Rose.height])
  | succ fuel ih =>
    have below : ∀ kid ∈ Rose.adopted hiddenVisit t.children, kid.Separate hiddenVisit ∧ hiddenVisit kid.label = false :=
      fun kid mem => Rose.separate_of_mem_adopted (fun child mem => separate.child mem) mem
    have labels : ∀ kid ∈ Rose.adopted hiddenVisit t.children, ∀ v ∈ kid.labels, v.1.scope.Listed tables :=
      fun kid mem v here => listed v (Rose.labels_subset_of_mem_adopted mem here)
    have valid : ∀ ctx ∈ childRecords tables t.children, ctx.Valid := by
      intro ctx mem
      rw [childRecords_eq] at mem
      obtain ⟨kid, memKid, rfl⟩ := mem_map.mp mem
      apply compose_valid laid small (labels kid memKid kid.label (Rose.label_mem_labels kid))
      exact ((placed.adopted memKid).array (below kid memKid).2).stop.trans small.le
    obtain ⟨position, read⟩ := (placed.array shown).read valid
    have kids : ∀ kid ∈ Rose.adopted hiddenVisit t.children,
        (do
          let children ← follow file fuel (record tables kid.label).pChildren (record tables kid.label).szChildren
          return Rose.node (record tables kid.label) children) =
        some ((Rose.node kid.label (kid.children.flatMap (Rose.prune hiddenVisit))).map (record tables)) := by
      intro kid mem
      have lower := Rose.height_lt_of_mem_adopted mem
      have tail := ih kid (placed.adopted mem) (below kid mem).1 (below kid mem).2
        (fun v here => labels kid mem v (Rose.flatMap_labels_subset kid here)) (by omega)
      rw [record, compose_pChildren, compose_szChildren, tail, Rose.map_node]
      rfl
    have trees := mapM_map_eq (g := fun kid : Rose (Context M F Fn × UdContext) => record tables kid.label)
      (h := fun kid : Rose (Context M F Fn × UdContext) =>
        (Rose.node kid.label (kid.children.flatMap (Rose.prune hiddenVisit))).map (record tables))
      (f := fun ctx => do
        let children ← follow file fuel ctx.pChildren ctx.szChildren
        return Rose.node ctx children) _ kids
    rw [follow, read, Option.bind_eq_bind, Option.bind_some, childRecords_eq]
    rw [Rose.flatMap_prune_eq (fun child mem => separate.child mem), map_map]
    exact trees

end HpcToolkit.MetaDb
