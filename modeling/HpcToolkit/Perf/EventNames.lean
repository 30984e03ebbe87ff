import Mathlib

/-! # Parsing of event specifications

An event or a group of events in braces, with a period or a frequency behind an `@`, is split at the commas. The array of
names has one place more than there are commas, while `strtok` passes over empty parts, so places may be left unset.
-/

open List

namespace HpcToolkit.Perf.EventName

/-- The characters of a C string before its NUL. -/
abbrev Text := List Char

/-- `perf_event_name_t`: a field is `none` until it is set, and a pointer that was set may be `NULL`. -/
structure PerfEventName where
  numEvents : Option ℕ
  eventNames : Option (List (Option (Option Text)))
  howOften : Option (Option Text)
  skid : Option (Option Text)

def unset : PerfEventName := ⟨none, none, none, none⟩

/-- `strchr`, which returns what starts at the first such character. -/
def strchr (s : Text) (c : Char) : Text := s.dropWhile (· ≠ c)

/-- `strtok` for the delimiter `,`: the next token and what is left for the next call. -/
def strtok (s : Text) : Option (Text × Text) :=
  match s.dropWhile (· = ',') with
  | [] => none
  | c :: rest => some (c :: rest.takeWhile (· ≠ ','), (rest.dropWhile (· ≠ ',')).tail)

/-- The loop that fills the places of `event_names`, with the number of names; `noMemory` says which `strdup` fails. -/
def fillNames (noMemory : ℕ → Bool) : ℕ → ℕ → Text → List (Option (Option Text)) × ℕ
  | 0, count, _ => ([], count)
  | room + 1, count, s =>
    match strtok s with
    | none => (replicate (room + 1) none, count)
    | some (token, rest) =>
      if noMemory count then (some none :: replicate room none, count)
      else
        let (names, total) := fillNames noMemory room (count + 1) rest
        (some (some token) :: names, total)

/-- The part of `perf_util_parse_eventname` behind the search for the `@`. -/
def splitNames (noMemory : ℕ → Bool) (pureEventName : Text) (howOften : Option Text) : ℤ × PerfEventName :=
  let numEvents := 1 + pureEventName.count ','
  let (names, count) := fillNames noMemory numEvents 0 pureEventName
  (count, ⟨some numEvents, some names, some howOften, some none⟩)

def perfUtilParseEventname (noMemory : ℕ → Bool) (event : Text) : ℤ × PerfEventName :=
  match strchr event '{' with
  | _ :: start =>
    match strchr start '}' with
    | [] => (-1, unset)
    | _ :: property => splitNames noMemory (start.takeWhile (· ≠ '}')) (strchr property '@').tail?
  | [] => splitNames noMemory (event.takeWhile (· ≠ '@')) (strchr event '@').tail?

/-- What `free` is called with: the copy of a name, the array, or the copy of the text behind the `@`. -/
inductive Block where
  | name (i : ℕ)
  | names
  | howOften

def freeNames : ℕ → List (Option (Option Text)) → Option (List Block)
  | _, [] => some []
  | _, none :: _ => none
  | i, some name :: rest => (freeNames (i + 1) rest).map fun freed => (name.map fun _ => Block.name i).toList ++ freed

/-- `perf_util_free_eventname`: the blocks that are freed, or `none` where it reads what was not set. -/
def perfUtilFreeEventname (eventName : PerfEventName) : Option (List Block) := do
  let names ← eventName.eventNames
  let numEvents ← eventName.numEvents
  let freed ← freeNames 0 (names.take numEvents)
  let howOften ← eventName.howOften
  return freed ++ [Block.names] ++ (howOften.map fun _ => Block.howOften).toList

/-- The blocks that a result owns. -/
def PerfEventName.Owns (eventName : PerfEventName) : Block → Prop
  | .name i => ∃ names token, eventName.eventNames = some names ∧ names[i]? = some (some (some token))
  | .names => eventName.eventNames ≠ none
  | .howOften => ∃ text, eventName.howOften = some (some text)

/-- The parts between commas. -/
def commaParts : Text → List Text
  | [] => [[]]
  | c :: s =>
    if c = ',' then [] :: commaParts s
    else match commaParts s with
      | [] => [[c]]
      | part :: rest => (c :: part) :: rest

def parts (s : Text) : List Text := (commaParts s).filter (· ≠ [])

/-- The text inside the braces, or before the `@`. -/
def inside (event : Text) : Text :=
  match strchr event '{' with
  | _ :: start => start.takeWhile (· ≠ '}')
  | [] => event.takeWhile (· ≠ '@')

/-- The text behind the first `@` that follows. -/
def howOften (event : Text) : Option Text :=
  match strchr event '{' with
  | _ :: start => (strchr (strchr start '}').tail '@').tail?
  | [] => (strchr event '@').tail?

/-- The braces are closed. -/
def Closed (event : Text) : Prop := strchr event '{' = [] ∨ '}' ∈ (strchr event '{').tail

/-- Parsing fails or gives all non-empty parts, and its result can be freed. -/
def WellFormed (noMemory : ℕ → Bool) (event : Text) : Prop :=
  let (result, eventName) := perfUtilParseEventname noMemory event
  (result < 0 ∨ result = (parts (inside event)).length ∧ eventName =
      ⟨some (parts (inside event)).length, some ((parts (inside event)).map fun part => some (some part)),
        some (howOften event), some none⟩) ∧
    ∃ freed, perfUtilFreeEventname eventName = some freed ∧ freed.Nodup ∧ ∀ block ∈ freed, eventName.Owns block

/-! ## Tokens and parts -/

variable {noMemory : ℕ → Bool} {s token rest event : Text}

lemma commaParts_eq (s : Text) : commaParts s = s.takeWhile (· ≠ ',') ::
    (match s.dropWhile (· ≠ ',') with
      | [] => []
      | _ :: rest => commaParts rest) := by
  induction s with
  | nil => rfl
  | cons c s ih =>
    by_cases comma : c = ','
    · simp [commaParts, comma]
    · rw [commaParts, if_neg comma, ih]
      simp [comma]

lemma length_commaParts (s : Text) : (commaParts s).length = 1 + s.count ',' := by
  induction s with
  | nil => rfl
  | cons c s ih =>
    by_cases comma : c = ','
    · simp [commaParts, comma, ih, Nat.add_comm]
    · rw [commaParts, if_neg comma, count_cons_of_ne comma, ← ih]
      cases found : commaParts s with
      | nil =>
        rw [found, length_nil] at ih
        omega
      | cons part rest => rfl

lemma strtok_cons_comma (s : Text) : strtok (',' :: s) = strtok s := by simp [strtok]

lemma parts_of_strtok_eq_none (finished : strtok s = none) : parts s = [] := by
  induction s with
  | nil => rfl
  | cons c s ih =>
    by_cases comma : c = ','
    · subst comma
      rw [strtok_cons_comma] at finished
      simpa [parts, commaParts] using ih finished
    · simp [strtok, comma] at finished

lemma parts_of_strtok_eq_some (next : strtok s = some (token, rest)) : parts s = token :: parts rest := by
  induction s with
  | nil => cases next
  | cons c s ih =>
    by_cases comma : c = ','
    · subst comma
      rw [strtok_cons_comma] at next
      simpa [parts, commaParts] using ih next
    · simp only [strtok, dropWhile_cons, comma, decide_false, Bool.false_eq_true, if_false, Option.some.injEq,
        Prod.mk.injEq] at next
      obtain ⟨rfl, rfl⟩ := next
      rw [parts, commaParts, if_neg comma, commaParts_eq s]
      cases left : s.dropWhile (· ≠ ',') with
      | nil => rfl
      | cons comma after => simp [parts]

lemma length_parts_eq_iff (s : Text) : (parts s).length = 1 + s.count ',' ↔ ∀ part ∈ commaParts s, part ≠ [] := by
  rw [← length_commaParts, parts, length_filter_eq_length_iff]
  simp

lemma fillNames_eq (room count : ℕ) (s : Text) (enough : (parts s).length ≤ room)
    (copied : ∀ k < (parts s).length, noMemory (count + k) = false) :
    fillNames noMemory room count s =
      ((parts s).map (fun part => some (some part)) ++ replicate (room - (parts s).length) none,
        count + (parts s).length) := by
  induction room generalizing count s with
  | zero =>
    rw [eq_nil_of_length_eq_zero (Nat.le_zero.mp enough)]
    rfl
  | succ room ih =>
    rw [fillNames]
    cases next : strtok s with
    | none =>
      rw [parts_of_strtok_eq_none next]
      rfl
    | some found =>
      obtain ⟨token, rest⟩ := found
      rw [parts_of_strtok_eq_some next, length_cons] at enough copied ⊢
      have later := ih (count + 1) rest (Nat.le_of_succ_le_succ enough) fun k below => by
        rw [Nat.add_right_comm]
        exact copied (k + 1) (Nat.succ_lt_succ below)
      have first : noMemory count = false := copied 0 (Nat.succ_pos _)
      simp [first, later, Nat.add_assoc, Nat.add_comm 1]

lemma fillNames_lt (room count : ℕ) (s : Text) (failed : ∃ k < (parts s).length, noMemory (count + k) = true) :
    (fillNames noMemory room count s).2 < count + (parts s).length := by
  induction room generalizing count s with
  | zero =>
    obtain ⟨k, below, -⟩ := failed
    exact Nat.lt_add_of_pos_right (Nat.zero_lt_of_lt below)
  | succ room ih =>
    rw [fillNames]
    cases next : strtok s with
    | none =>
      obtain ⟨k, below, -⟩ := failed
      exact Nat.lt_add_of_pos_right (Nat.zero_lt_of_lt below)
    | some found =>
      obtain ⟨token, rest⟩ := found
      rw [parts_of_strtok_eq_some next, length_cons] at failed ⊢
      dsimp only
      split_ifs with now
      · exact Nat.lt_add_of_pos_right (Nat.succ_pos _)
      · obtain ⟨k, below, fails⟩ := failed
        cases k with
        | zero => exact absurd fails now
        | succ k =>
          have later := ih (count + 1) rest ⟨k, Nat.lt_of_succ_lt_succ below, by rwa [Nat.add_right_comm]⟩
          exact lt_of_lt_of_eq later (by rw [Nat.add_right_comm, Nat.add_assoc])

/-! ## Results -/

lemma freeNames_map (i : ℕ) (names : List Text) : freeNames i (names.map fun name => some (some name)) =
    some ((range' i names.length).map Block.name) := by
  induction names generalizing i with
  | nil => rfl
  | cons name rest ih => simp [freeNames, ih, range'_succ]

lemma free_of_names (names : List Text) (text : Option Text) :
    let eventName : PerfEventName := ⟨some names.length, some (names.map fun name => some (some name)), some text, some none⟩
    ∃ freed, perfUtilFreeEventname eventName = some freed ∧ freed.Nodup ∧ ∀ block ∈ freed, eventName.Owns block := by
  refine ⟨(range' 0 names.length).map Block.name ++ [Block.names] ++ (text.map fun _ => Block.howOften).toList, ?_, ?_, ?_⟩
  · have whole : (names.map fun name => some (some name)).take names.length = names.map fun name => some (some name) :=
      take_of_length_le (by rw [length_map])
    simp [perfUtilFreeEventname, whole, freeNames_map]
  · have distinct : ((range' 0 names.length).map Block.name).Nodup :=
      (nodup_range').map fun i j same => by injection same
    cases text <;> simp [nodup_append, distinct]
  · intro block member
    cases block with
    | name i =>
      have inside : i < names.length := by cases text <;> simpa using member
      exact ⟨_, names[i], rfl, by simp [inside]⟩
    | names => exact nofun
    | howOften =>
      cases text with
      | none => simp at member
      | some text => exact ⟨text, rfl⟩

lemma parse_eq (closed : Closed event) :
    perfUtilParseEventname noMemory event = splitNames noMemory (inside event) (howOften event) := by
  unfold perfUtilParseEventname inside howOften
  cases found : strchr event '{' with
  | nil => rfl
  | cons brace start =>
    have ends : '}' ∈ start := by
      rcases closed with none | ends
      · rw [none] at found
        cases found
      · rwa [found] at ends
    dsimp only
    cases found : strchr start '}' with
    | nil => exact absurd (dropWhile_eq_nil_iff.mp found _ ends) (by simp)
    | cons brace property => rfl

lemma not_wellFormed_of_open (unclosed : ¬ Closed event) : ¬ WellFormed noMemory event := by
  have parsed : perfUtilParseEventname noMemory event = (-1, unset) := by
    unfold perfUtilParseEventname
    rw [Closed, not_or] at unclosed
    cases found : strchr event '{' with
    | nil => exact absurd found unclosed.1
    | cons brace start =>
      have none : strchr start '}' = [] := by
        refine dropWhile_eq_nil_iff.mpr fun c member => decide_eq_true fun same => unclosed.2 ?_
        rw [found]
        rwa [← same]
      dsimp only
      rw [none]
  rw [WellFormed, parsed]
  rintro ⟨-, freed, ran, -⟩
  cases ran

/-- Parsing is as it should be exactly for closed braces without an empty part, as long as there is memory. -/
theorem parse_wellFormed_iff (noMemory : ℕ → Bool) (event : Text) : WellFormed noMemory event ↔
    Closed event ∧ (∀ part ∈ commaParts (inside event), part ≠ []) ∧
      ∀ k < (parts (inside event)).length, noMemory k = false := by
  by_cases closed : Closed event
  swap
  · exact iff_of_false (not_wellFormed_of_open closed) fun all => closed all.1
  rw [WellFormed, parse_eq closed, ← length_parts_eq_iff]
  constructor
  · rintro ⟨negative | ⟨result, fields⟩, -⟩
    · exact absurd negative (not_lt.mpr (Int.natCast_nonneg _))
    · have places : 1 + (inside event).count ',' = (parts (inside event)).length :=
        Option.some.inj (congrArg PerfEventName.numEvents fields)
      refine ⟨closed, places.symm, fun k below => Bool.eq_false_iff.mpr fun failed => ?_⟩
      have some : ∃ k < (parts (inside event)).length, noMemory (0 + k) = true := ⟨k, below, by rwa [Nat.zero_add]⟩
      have fewer := fillNames_lt (1 + (inside event).count ',') 0 (inside event) some
      rw [Nat.zero_add] at fewer
      exact absurd (Int.ofNat.inj result) fewer.ne
  · rintro ⟨-, places, copied⟩
    have all : ∀ k < (parts (inside event)).length, noMemory (0 + k) = false := fun k below => by
      rw [Nat.zero_add]
      exact copied k below
    have filled := fillNames_eq (1 + (inside event).count ',') 0 (inside event) places.le all
    rw [← places, Nat.sub_self, replicate_zero, append_nil, Nat.zero_add] at filled
    rw [splitNames, ← places]
    dsimp only
    rw [filled]
    exact ⟨.inr ⟨rfl, rfl⟩, free_of_names _ _⟩

/-- Braces that are not closed leave a result that is freed without having been set. -/
theorem open_brace_not_wellFormed : ¬ WellFormed (fun _ => false) ['{', 'a'] :=
  not_wellFormed_of_open (by simp [Closed, strchr])

/-! ## Specifications that are written -/

/-- A name without the characters that separate the parts of a specification. -/
def Plain (name : Text) : Prop := name ≠ [] ∧ ∀ c ∈ [',', '{', '}', '@'], c ∉ name

/-- An event or a group of events, with a period or a frequency behind it. -/
def spec (braces : Bool) (names : List Text) (howOften : Option Text) : Text :=
  let joined := [','].intercalate names
  (if braces then '{' :: joined ++ ['}'] else joined) ++ howOften.elim [] ('@' :: ·)

section
variable {c : Char} {l : Text} (free : c ∉ l) (r : Text)
include free

lemma takeWhile_append : (l ++ r).takeWhile (· ≠ c) = l ++ r.takeWhile (· ≠ c) :=
  takeWhile_append_of_pos fun _ member => decide_eq_true fun same => free (same ▸ member)

lemma strchr_append : strchr (l ++ r) c = strchr r c :=
  dropWhile_append_of_pos fun _ member => decide_eq_true fun same => free (same ▸ member)

end

lemma commaParts_intercalate {names : List Text} (some_name : names ≠ []) (plain : ∀ name ∈ names, Plain name) :
    commaParts ([','].intercalate names) = names := by
  induction names with
  | nil => exact absurd rfl some_name
  | cons name names ih =>
    have free : ',' ∉ name := (plain name mem_cons_self).2 ',' mem_cons_self
    rw [commaParts_eq]
    cases names with
    | nil =>
      have first := takeWhile_append free []
      have behind := strchr_append free []
      rw [append_nil] at first behind
      simp only [intercalate_singleton, first, ← strchr.eq_1, behind]
      simp [strchr]
    | cons second names =>
      rw [intercalate_cons_cons, append_assoc, takeWhile_append free, ← strchr.eq_1, strchr_append free]
      simpa [strchr] using ih (cons_ne_nil _ _) fun name member => plain name (mem_cons_of_mem _ member)

lemma notMem_intercalate {c : Char} {names : List Text} (other : c ≠ ',') (free : ∀ name ∈ names, c ∉ name) :
    c ∉ [','].intercalate names := by
  induction names with
  | nil => exact not_mem_nil
  | cons name names ih =>
    cases names with
    | nil => simpa using free
    | cons second names => simp_all [intercalate_cons_cons]

/-- The result for some names and the text behind them. -/
def named (names : List Text) (howOften : Option Text) : ℤ × PerfEventName :=
  (names.length, ⟨some names.length, some (names.map fun name => some (some name)), some howOften, some none⟩)

lemma splitNames_intercalate {names : List Text} (some_name : names ≠ []) (plain : ∀ name ∈ names, Plain name)
    (copied : ∀ k < names.length, noMemory k = false) (howOften : Option Text) :
    splitNames noMemory ([','].intercalate names) howOften = named names howOften := by
  have split := commaParts_intercalate some_name plain
  have places := length_commaParts ([','].intercalate names)
  have all : parts ([','].intercalate names) = names := by
    rw [parts, split]
    exact filter_eq_self.mpr fun name member => decide_eq_true (plain name member).1
  rw [split] at places
  have each : ∀ k < (parts ([','].intercalate names)).length, noMemory (0 + k) = false := by simpa [all] using copied
  have filled := fillNames_eq names.length 0 ([','].intercalate names) (by rw [all]) each
  simp [splitNames, ← places, filled, all, named]

/-- A specification that is written from names without separators is parsed to these names and what was behind them. -/
theorem parse_spec {names : List Text} (some_name : names ≠ []) (plain : ∀ name ∈ names, Plain name) (braces : Bool)
    (howOften : Option Text) (marked : braces = true ∨ ∀ text ∈ howOften, '{' ∉ text)
    (copied : ∀ k < names.length, noMemory k = false) :
    perfUtilParseEventname noMemory (spec braces names howOften) = named names howOften := by
  have free (c : Char) (separates : c ∈ ['{', '}', '@']) : c ∉ [','].intercalate names :=
    notMem_intercalate (by rintro rfl; simp at separates) fun name member =>
      (plain name member).2 c (mem_cons_of_mem _ separates)
  rw [← splitNames_intercalate some_name plain copied howOften]
  unfold perfUtilParseEventname spec
  generalize [','].intercalate names = joined at *
  have past : (howOften.elim [] ('@' :: ·)).takeWhile (· ≠ '@') = [] := by cases howOften <;> simp
  have marks : (strchr (howOften.elim [] ('@' :: ·)) '@').tail? = howOften := by
    cases howOften <;> simp [strchr]
  have unopened : braces = false → strchr (howOften.elim [] ('@' :: ·)) '{' = [] := by
    intro single
    cases howOften with
    | none => rfl
    | some text =>
      have absent := marked.resolve_left (by simp [single]) text rfl
      have none : ∀ c ∈ text, c ≠ '{' := fun c member same => absent (same ▸ member)
      simpa [strchr] using none
  generalize howOften.elim [] ('@' :: ·) = suffix at *
  cases braces with
  | true =>
    have opening : strchr ('{' :: joined ++ ['}'] ++ suffix) '{' = '{' :: (joined ++ '}' :: suffix) := by simp [strchr]
    have closing : strchr (joined ++ '}' :: suffix) '}' = '}' :: suffix := by
      rw [strchr_append (free '}' (by decide))]
      simp [strchr]
    have pure : (joined ++ '}' :: suffix).takeWhile (· ≠ '}') = joined := by
      rw [takeWhile_append (free '}' (by decide))]
      simp
    simp only [if_true, opening, closing, pure, marks]
  | false =>
    have opening := strchr_append (free '{' (by decide)) suffix
    have marked := strchr_append (free '@' (by decide)) suffix
    have pure := takeWhile_append (free '@' (by decide)) suffix
    rw [unopened rfl] at opening
    rw [past, append_nil] at pure
    simp only [Bool.false_eq_true, if_false, opening, pure, marked, marks]

/-- `{a,b}@f` -/
theorem group_parsed : perfUtilParseEventname (fun _ => false) (spec true [['a'], ['b']] (some ['f'])) =
    named [['a'], ['b']] (some ['f']) :=
  parse_spec (by decide) (by simp [Plain]) true _ (.inl rfl) fun _ _ => rfl

end HpcToolkit.Perf.EventName
