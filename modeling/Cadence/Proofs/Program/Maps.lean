import Cadence.Proofs.Program.Keys
import Mathlib.Data.List.Find
import Mathlib.Data.List.Induction

/-!
# Maps in the order of their keys

As long as "not a number" stands in none of them, keys fall into classes of keys that are the same
(`Argument.sameKey_equivalence`). A map that entries are put into one after another shows the first spelling of each
class, in the order in which the classes came (`Entries.keys_ofList`), and under it the last value that was put under a
key of the class (`Entries.get?_ofList_eq`). What is put under a key leaves the entries of all other keys where they
are (`Entries.getElem?_insert`).
-/

namespace Cadence

/-! ## Classes of keys -/

mutual

/-- "Not a number" stands nowhere in an argument. -/
def Argument.NanFree : Argument → Prop
  | .literal l => l ≠ .number (.float .nan)
  | .list items => Arguments.NanFree items
  | .map entries => Entries.NanFree entries
  | .call _ arguments => Arguments.NanFree arguments
termination_by structural a => a

def Arguments.NanFree : List Argument → Prop
  | [] => True
  | a :: rest => a.NanFree ∧ Arguments.NanFree rest
termination_by structural a => a

def Entries.NanFree : Entries → Prop
  | [] => True
  | (k, v) :: rest => (k.NanFree ∧ v.NanFree) ∧ Entries.NanFree rest
termination_by structural a => a

end

/-- "Not a number" is the only number that does not equal itself. -/
theorem Binary64.equals_self_iff {x : Binary64} : x.equals x = true ↔ x ≠ nan := by
  rw [equals_iff]
  rcases x with _ | ⟨_ | _, m⟩ <;> simp [position]

theorem Literal.equals_self_iff {l : Literal} : l.equals l = true ↔ l ≠ .number (.float .nan) := by
  cases l with
  | number n =>
    cases n with
    | int i => simp [Literal.equals, Number.equals]
    | float x => simp [Literal.equals, Number.equals, Binary64.equals_self_iff]
  | string s => simp [Literal.equals]
  | boolean b => simp [Literal.equals]

mutual

theorem Argument.equals_self_iff : (a : Argument) → (a.equals a = true ↔ a.NanFree)
  | .literal l => Literal.equals_self_iff
  | .list items => Arguments.equals_self_iff items
  | .map entries => Entries.equals_self_iff entries
  | .call f arguments => by
    rw [Argument.equals, Argument.NanFree, beq_self_eq_true, Bool.true_and]
    exact Arguments.equals_self_iff arguments
termination_by structural a => a

theorem Arguments.equals_self_iff : (a : List Argument) → (Arguments.equals a a = true ↔ Arguments.NanFree a)
  | [] => iff_of_true rfl trivial
  | a :: rest => by
    rw [Arguments.equals, Arguments.NanFree, Bool.and_eq_true, Argument.equals_self_iff a,
      Arguments.equals_self_iff rest]
termination_by structural a => a

theorem Entries.equals_self_iff : (a : Entries) → (Entries.equals a a = true ↔ Entries.NanFree a)
  | [] => iff_of_true rfl trivial
  | (k, v) :: rest => by
    rw [Entries.equals, Entries.NanFree, Bool.and_eq_true, Bool.and_eq_true, Argument.equals_self_iff k,
      Argument.equals_self_iff v, Entries.equals_self_iff rest]
termination_by structural a => a

end

/-- A key is the same as itself exactly if "not a number" stands nowhere in it. -/
theorem Argument.sameKey_self_iff {key : Argument} : key.sameKey key = true ↔ key.NanFree := by
  by_cases hnumber : ∃ n, key = .literal (.number n)
  · obtain ⟨n, rfl⟩ := hnumber
    cases n with
    | int i =>
      refine iff_of_true ?_ ?_
      · exact Binary64.equals_self_iff.2 (by simp [Number.toBinary64, Binary64.ofInt, Binary64.ofUnits])
      · simp [NanFree]
    | float x =>
      rw [sameKey, Number.toBinary64, Binary64.equals_self_iff]
      simp [NanFree]
  · rw [sameKey_of_not_number fun n hn => hnumber ⟨n, hn⟩]
    exact Argument.equals_self_iff key

/-- Among the keys without "not a number", to be the same is an equivalence. -/
theorem Argument.sameKey_equivalence :
    Equivalence fun a b : {key : Argument // key.NanFree} => a.1.sameKey b.1 = true where
  refl a := sameKey_self_iff.2 a.2
  symm := fun {a b} h => sameKey_comm a.1 b.1 ▸ h
  trans := sameKey_trans

namespace Entries

/-! ## Values -/

/-- Of some entries, the last value under a key of a kind. -/
def lastValue? (isKey : Argument → Prop) [DecidablePred isKey] (added : List (Argument × Argument)) :
    Option Argument :=
  (added.reverse.find? fun e => isKey e.1).map (·.2)

theorem lastValue?_append (isKey : Argument → Prop) [DecidablePred isKey] (added : List (Argument × Argument))
    (e : Argument × Argument) :
    lastValue? isKey (added ++ [e]) = if isKey e.1 then some e.2 else lastValue? isKey added := by
  rw [lastValue?, List.reverse_append, List.reverse_singleton, List.singleton_append, List.find?_cons]
  by_cases hkey : isKey e.1
  · rw [if_pos hkey, decide_eq_true hkey]
    rfl
  · rw [if_neg hkey, decide_eq_false hkey]
    rfl

theorem lastValue?_congr {isKey isKey' : Argument → Prop} [DecidablePred isKey] [DecidablePred isKey']
    {added : List (Argument × Argument)} (h : ∀ e ∈ added, isKey e.1 ↔ isKey' e.1) :
    lastValue? isKey added = lastValue? isKey' added := by
  rw [lastValue?, lastValue?]
  refine congrArg _ (List.find?_congr fun e he => decide_eq_decide.2 ?_)
  exact h e (List.mem_reverse.1 he)

theorem lastValue?_eq_none_iff {isKey : Argument → Prop} [DecidablePred isKey]
    {added : List (Argument × Argument)} : lastValue? isKey added = none ↔ ∀ e ∈ added, ¬ isKey e.1 := by
  simp [lastValue?]

/-- Whatever is put under a key is found under every key that is the same; what is found under other keys stays. -/
theorem get?_insert (key value other : Argument) (entries : Entries) :
    get? other (insert key value entries).2
      = if key.sameKey other = true then some value else get? other entries := by
  induction entries with
  | nil => rfl
  | cons e rest ih =>
    obtain ⟨k, v⟩ := e
    rw [insert]
    by_cases hsame : k.sameKey key = true
    · -- the first entry is under the key, so it is found under the keys that are the same as that
      rw [if_pos hsame, get?, get?, Argument.sameKey_congr hsame other]
      by_cases hother : key.sameKey other = true
      · rw [if_pos hother, if_pos hother]
      · rw [if_neg hother, if_neg hother, if_neg hother]
    · rw [if_neg hsame, get?, get?, ih]
      by_cases hother : k.sameKey other = true
      · have hkey : ¬ key.sameKey other = true := fun hkey =>
          hsame (Argument.sameKey_trans hother (Argument.sameKey_comm key other ▸ hkey))
        rw [if_pos hother, if_pos hother, if_neg hkey]
      · rw [if_neg hother, if_neg hother]

theorem ofList_append (added : List (Argument × Argument)) (e : Argument × Argument) :
    ofList (added ++ [e]) = (insert e.1 e.2 (ofList added)).2 :=
  List.foldl_append

/-- Under a key stands the last value that was put under a key that is the same. -/
theorem get?_ofList_eq (key : Argument) (added : List (Argument × Argument)) :
    get? key (ofList added) = lastValue? (fun other => other.sameKey key = true) added := by
  induction added using List.reverseRecOn with
  | nil => rfl
  | append_singleton added e ih => rw [ofList_append, get?_insert, ih, lastValue?_append]

theorem get?_eq_none_iff {key : Argument} {entries : Entries} :
    get? key entries = none ↔ ∀ e ∈ entries, e.1.sameKey key = false := by
  induction entries with
  | nil => simp [get?]
  | cons e rest ih =>
    obtain ⟨k, v⟩ := e
    by_cases hsame : k.sameKey key = true <;> simp [get?, hsame, ih]

/-- Where the keys are different, an entry shows what is found under its key. -/
theorem get?_of_mem {entries : Entries} (h : entries.Pairwise fun e f => e.1.sameKey f.1 = false)
    {e : Argument × Argument} (he : e ∈ entries) (hself : e.1.NanFree) : get? e.1 entries = some e.2 := by
  induction entries with
  | nil => exact absurd he List.not_mem_nil
  | cons f rest ih =>
    obtain ⟨hfirst, hrest⟩ := List.pairwise_cons.1 h
    rw [get?]
    rcases List.mem_cons.1 he with rfl | he
    · rw [if_pos (Argument.sameKey_self_iff.2 hself)]
    · rw [if_neg (Bool.eq_false_iff.1 (hfirst e he)), ih hrest he]

/-! ## Places -/

/-- Of a row of keys, those that no key before them is the same as. -/
def firstSpellings : List Argument → List Argument
  | [] => []
  | key :: rest => key :: (firstSpellings rest).filter fun other => !key.sameKey other

theorem firstSpellings_sublist (keys : List Argument) : (firstSpellings keys).Sublist keys := by
  induction keys with
  | nil => exact List.Sublist.slnil
  | cons key rest ih => exact (List.filter_sublist.trans ih).cons_cons key

/-- A further key is a first spelling if it is different from all before it. -/
theorem firstSpellings_append (keys : List Argument) (key : Argument) :
    firstSpellings (keys ++ [key])
      = firstSpellings keys ++ if ∀ other ∈ keys, other.sameKey key = false then [key] else [] := by
  induction keys with
  | nil => simp [firstSpellings]
  | cons first rest ih =>
    simp only [List.cons_append, firstSpellings, ih, List.filter_append, List.forall_mem_cons]
    by_cases hfirst : first.sameKey key = false
    · by_cases hrest : ∀ other ∈ rest, other.sameKey key = false
      · simp [hfirst, if_pos hrest]
      · simp [hfirst, if_neg hrest]
    · have hsame : first.sameKey key = true := by simpa using hfirst
      by_cases hrest : ∀ other ∈ rest, other.sameKey key = false
      · simp [hsame, if_pos hrest]
      · simp [hsame, if_neg hrest]

/-- A key is different from all keys of a map if it is different from all that were put into it. -/
theorem forall_different_ofList {key : Argument} {added : List (Argument × Argument)} :
    (∀ e ∈ ofList added, e.1.sameKey key = false) ↔ ∀ other ∈ added.map (·.1), other.sameKey key = false := by
  rw [← get?_eq_none_iff, get?_ofList_eq, lastValue?_eq_none_iff, List.forall_mem_map]
  simp only [Bool.not_eq_true]

theorem keys_insert_eq (key value : Argument) (entries : Entries) :
    (insert key value entries).2.map (·.1)
      = entries.map (·.1) ++ if ∀ e ∈ entries, e.1.sameKey key = false then [key] else [] := by
  rcases keys_insert key value entries with hsame | ⟨hnew, hmore⟩
  · -- the map did not grow, so something was found under the key
    have hfound : ¬ ∀ e ∈ entries, e.1.sameKey key = false := by
      intro hall
      have hlength := congrArg List.length hsame
      rw [List.length_map, List.length_map, length_insert, get?_eq_none_iff.2 hall] at hlength
      simp at hlength
    rw [hsame, if_neg hfound, List.append_nil]
  · rw [hmore, if_pos hnew]

/-- The keys of a map are the first spellings of the keys that were put into it, in the order in which they came. -/
theorem keys_ofList (added : List (Argument × Argument)) :
    (ofList added).map (·.1) = firstSpellings (added.map (·.1)) := by
  induction added using List.reverseRecOn with
  | nil => rfl
  | append_singleton added e ih =>
    rw [ofList_append, keys_insert_eq, ih, List.map_append, List.map_singleton, firstSpellings_append]
    exact congrArg _ (if_congr forall_different_ofList rfl rfl)

/-- What is put under a key replaces the value of the entry under that key, and leaves all other entries as they are.
Each entry keeps its place. -/
theorem getElem?_insert {entries : Entries} (h : entries.Pairwise fun e f => e.1.sameKey f.1 = false) {i : Nat}
    {e : Argument × Argument} (he : entries[i]? = some e) (key value : Argument) :
    (insert key value entries).2[i]? = some (if e.1.sameKey key = true then (e.1, value) else e) := by
  induction entries generalizing i with
  | nil => simp at he
  | cons f rest ih =>
    obtain ⟨k, v⟩ := f
    obtain ⟨hfirst, hrest⟩ := List.pairwise_cons.1 h
    rw [insert]
    by_cases hsame : k.sameKey key = true
    · rw [if_pos hsame]
      cases i with
      | zero =>
        obtain rfl : (k, v) = e := Option.some.inj he
        simp [hsame]
      | succ i =>
        -- the keys of the other entries are different from the first, and so from `key`
        have hother : k.sameKey e.1 = false := hfirst e (List.mem_of_getElem? he)
        rw [Argument.sameKey_congr hsame, Argument.sameKey_comm] at hother
        simpa [hother] using he
    · rw [if_neg hsame]
      cases i with
      | zero =>
        obtain rfl : (k, v) = e := Option.some.inj he
        simp [hsame]
      | succ i => exact ih hrest he

/-! ## The map of some entries -/

/-- What a map shows into which some entries were put one after another. -/
structure Records (entries : Entries) (added : List (Argument × Argument)) : Prop where
  different : entries.Pairwise fun e f => e.1.sameKey f.1 = false
  keys_eq : entries.map (·.1) = firstSpellings (added.map (·.1))
  value_eq : ∀ e ∈ entries, lastValue? (fun key => key.sameKey e.1 = true) added = some e.2
  get?_eq : ∀ key : Argument, get? key entries = lastValue? (fun other => other.sameKey key = true) added
  get?_eq_none : ∀ key : Argument, get? key entries = none ↔ ∀ e ∈ added, e.1.sameKey key = false

/-- What comes of putting a value under a key of a map: the value that was there before, if any, and the new map. -/
structure Puts (key value : Argument) (before : Entries) (put : Option Argument × Entries) : Prop where
  replaced : put.1 = get? key before
  length_eq : put.2.length = before.length + if get? key before = none then 1 else 0
  entry_eq : ∀ (i : Nat) (e : Argument × Argument), before[i]? = some e →
    put.2[i]? = some (if e.1.sameKey key = true then (e.1, value) else e)

theorem records_ofList {added : List (Argument × Argument)} (h : ∀ e ∈ added, e.1.NanFree) :
    (ofList added).Records added where
  different := pairwise_ofList added
  keys_eq := keys_ofList added
  value_eq e he := by
    have hkey : e.1 ∈ added.map (·.1) := by
      refine (firstSpellings_sublist _).subset ?_
      rw [← keys_ofList]
      exact List.mem_map_of_mem he
    obtain ⟨f, hf, hfe⟩ := List.mem_map.1 hkey
    rw [← get?_ofList_eq]
    exact get?_of_mem (pairwise_ofList added) he (hfe ▸ h f hf)
  get?_eq key := get?_ofList_eq key added
  get?_eq_none key := by
    rw [get?_ofList_eq, lastValue?_eq_none_iff]
    simp only [Bool.not_eq_true]

theorem puts_insert {before : Entries} (h : before.Pairwise fun e f => e.1.sameKey f.1 = false)
    (key value : Argument) : Puts key value before (insert key value before) where
  replaced := insert_fst key value before
  length_eq := by
    rw [length_insert]
    cases get? key before <;> simp
  entry_eq _ _ he := getElem?_insert h he key value

/-- Keys without "not a number" fall into classes. A map into which entries under such keys are put one after another
has one entry for each class, in the order in which the classes came, with its first spelling and its last value; and
putting in one more changes what is under its key, and nothing else. -/
theorem ofList_isOrdered {added : List (Argument × Argument)} (h : ∀ e ∈ added, e.1.NanFree) :
    (Equivalence fun a b : {key : Argument // key.NanFree} => a.1.sameKey b.1 = true) ∧
      (ofList added).Records added ∧
      ∀ key value : Argument, Puts key value (ofList added) (insert key value (ofList added)) ∧
        (insert key value (ofList added)).2 = ofList (added ++ [(key, value)]) := by
  refine ⟨Argument.sameKey_equivalence, records_ofList h, fun key value => ⟨?_, ?_⟩⟩
  · exact puts_insert (pairwise_ofList added) key value
  · exact (ofList_append added (key, value)).symm

end Entries

namespace Sample

/-- One and the same key in two spellings, -/
def one : Argument := .literal (.number (.int 1))

def onePointZero : Argument := .literal (.number (.float (.ofInt 1)))

/-- and another key. -/
def word : Argument := .literal (.string "one")

def spellings : List (Argument × Argument) :=
  [(one, .literal (.boolean true)), (word, .literal (.boolean true)), (onePointZero, .literal (.boolean false))]

end Sample

/-- The map shows the first spelling and the last value. -/
theorem Entries.ofList_isOrdered_spellings :
    (∀ e ∈ Sample.spellings, e.1.NanFree) ∧ (ofList Sample.spellings).map (·.1) = [Sample.one, Sample.word] ∧
      get? Sample.one (ofList Sample.spellings) = some (.literal (.boolean false)) := by
  have hfree : ∀ e ∈ Sample.spellings, e.1.NanFree := by
    simp [Sample.spellings, Sample.one, Sample.word, Sample.onePointZero, Argument.NanFree, Binary64.ofInt,
      Binary64.ofUnits]
  have hone : Sample.one.sameKey Sample.onePointZero = true := by decide +kernel
  have hother : Sample.one.sameKey Sample.word = false := rfl
  have hword : Sample.word.sameKey Sample.onePointZero = false := rfl
  obtain ⟨_, hrecords, _⟩ := ofList_isOrdered hfree
  refine ⟨hfree, hrecords.keys_eq.trans ?_, (hrecords.get?_eq _).trans ?_⟩
  · simp [Sample.spellings, firstSpellings, hone, hother, hword]
  · simp [Sample.spellings, lastValue?, Argument.sameKey_comm Sample.onePointZero, hone]

end Cadence
