import Cadence.Proofs.Program.Maps
import Cadence.Proofs.Program.Soundness
import Cadence.Proofs.Program.Worth

/-!
# Numbers as keys

A map compares the numbers among its keys as binary64 numbers. So what counts of an integer are its first 53 binary
digits, rounded, and zeros behind them (`Number.kept`): numbers of which the same is kept are one key
(`Argument.sameKey_iff_kept?`), with one value, the last that was put under any of them (`Entries.get?_ofList`). A map
tells two numbers apart unless the same is kept of both although they are worth different amounts (`Number.Merges`); one
of them then is an integer of more than 53 binary digits (`Number.not_merges_of_keepsDigits`).
-/

namespace Cadence

/-! ## One key or two -/

/-- A number as a key. -/
abbrev Number.toKey (n : Number) : Argument :=
  .literal (.number n)

namespace Argument

/-- The number that a key is. -/
def number? : Argument → Option Number
  | literal (.number n) => if n.toBinary64 = .nan then none else some n
  | _ => none

/-- What is kept of a key that is a number. -/
def kept? (key : Argument) : Option Int :=
  key.number?.map Number.kept

/-- What a key is worth that is a number. -/
def worth? (key : Argument) : Option Int :=
  key.number?.map Number.worth

theorem number?_toKey {n : Number} (h : n.toBinary64 ≠ .nan) : n.toKey.number? = some n :=
  if_neg h

theorem number?_eq_some_iff {key : Argument} {n : Number} :
    key.number? = some n ↔ key = n.toKey ∧ n.toBinary64 ≠ .nan := by
  constructor
  · intro h
    unfold number? at h
    split at h
    · split at h
      · cases h
      · next hnan =>
        cases h
        exact ⟨rfl, hnan⟩
    · cases h
  · rintro ⟨rfl, hnan⟩
    exact number?_toKey hnan

theorem kept?_toKey {n : Number} (h : n.toBinary64 ≠ .nan) : n.toKey.kept? = some n.kept :=
  congrArg _ (number?_toKey h)

theorem exists_of_kept? {key : Argument} {k : Int} (h : key.kept? = some k) :
    ∃ n : Number, key = n.toKey ∧ n.toBinary64 ≠ .nan ∧ n.kept = k := by
  obtain ⟨n, hn, hk⟩ := Option.map_eq_some_iff.1 h
  obtain ⟨hkey, hnan⟩ := number?_eq_some_iff.1 hn
  exact ⟨n, hkey, hnan, hk⟩

/-- A key is the same as a number if it is a number of which the same is kept. -/
theorem sameKey_iff_kept? {key other : Argument} {k : Int} (h : other.kept? = some k) :
    key.sameKey other = true ↔ key.kept? = some k := by
  obtain ⟨n, rfl, hnan, rfl⟩ := exists_of_kept? h
  by_cases hnumber : ∃ m : Number, key = m.toKey
  · obtain ⟨m, rfl⟩ := hnumber
    by_cases hm : m.toBinary64 = .nan
    · -- not a number is no key again
      rw [kept?, number?, if_pos hm, sameKey, hm]
      exact iff_of_false Bool.false_ne_true (Option.some_ne_none _).symm
    · rw [kept?_toKey hm, sameKey, Binary64.equals_iff_units hm hnan, Number.units_toBinary64,
        Number.units_toBinary64, Option.some_inj]
  · refine iff_of_false ?_ ?_
    · cases key with
      | literal l =>
        cases l with
        | number m => exact absurd ⟨m, rfl⟩ hnumber
        | string _ => exact Bool.false_ne_true
        | boolean _ => exact Bool.false_ne_true
      | list _ => exact Bool.false_ne_true
      | map _ => exact Bool.false_ne_true
      | call _ _ => exact Bool.false_ne_true
    · intro hkey
      obtain ⟨m, hm, _⟩ := exists_of_kept? hkey
      exact hnumber ⟨m, hm⟩

end Argument

namespace Entries

/-- What is kept of the numbers among the keys of a map. -/
def numbersKept (entries : Entries) : List Int :=
  entries.filterMap fun e => e.1.kept?

/-- Two keys belong to one entry. -/
def Share (entries : Entries) (a b : Argument) : Prop :=
  ∃ e ∈ entries, e.1.sameKey a = true ∧ e.1.sameKey b = true

variable {k : Int} {number : Argument} {entries : Entries}

theorem mem_numbersKept : k ∈ entries.numbersKept ↔ ∃ e ∈ entries, e.1.kept? = some k :=
  List.mem_filterMap

/-- A number has a value exactly if the same is kept of one of the keys. -/
theorem isSome_get?_iff (h : number.kept? = some k) :
    (get? number entries).isSome = true ↔ k ∈ entries.numbersKept := by
  rw [mem_numbersKept]
  induction entries with
  | nil => exact iff_of_false Bool.false_ne_true fun ⟨_, he, _⟩ => absurd he List.not_mem_nil
  | cons e rest ih =>
    obtain ⟨l, v⟩ := e
    simp only [List.mem_cons, or_and_right, exists_or, exists_eq_left]
    rw [get?, ← Argument.sameKey_iff_kept? h]
    split
    · next hsame => exact iff_of_true rfl (.inl hsame)
    · next hother => rw [ih, or_iff_right hother]

/-- Under a number stands the last value that was put under a number of which the same is kept. -/
theorem get?_ofList (h : number.kept? = some k) (added : List (Argument × Argument)) :
    get? number (ofList added) = lastValue? (fun key => key.kept? = some k) added := by
  rw [get?_ofList_eq]
  exact lastValue?_congr fun e _ => Argument.sameKey_iff_kept? h

/-- A map keeps what is kept of the numbers that were put into it, -/
theorem mem_numbersKept_ofList {added : List (Argument × Argument)} :
    k ∈ (ofList added).numbersKept ↔ ∃ e ∈ added, e.1.kept? = some k := by
  have hfound : ∀ {number : Argument}, number.kept? = some k →
      (k ∈ (ofList added).numbersKept ↔ ∃ e ∈ added, e.1.kept? = some k) := by
    intro number h
    rw [← isSome_get?_iff h, get?_ofList h, lastValue?, Option.isSome_map, List.find?_isSome]
    simp only [List.mem_reverse, decide_eq_true_eq]
  refine ⟨fun h => ?_, fun h => ?_⟩
  · obtain ⟨e, _, he⟩ := mem_numbersKept.1 h
    exact (hfound he).1 h
  · obtain ⟨e, hmem, he⟩ := h
    exact (hfound he).2 ⟨e, hmem, he⟩

/-- and everything that is kept once. -/
theorem nodup_numbersKept_ofList (added : List (Argument × Argument)) : (ofList added).numbersKept.Nodup := by
  refine List.Pairwise.filterMap _ ?_ (pairwise_ofList added)
  rintro e f hdifferent j hj k hk rfl
  rw [(Argument.sameKey_iff_kept? hk).2 hj] at hdifferent
  exact Bool.false_ne_true hdifferent.symm

end Entries

/-! ## Numbers in maps -/

/-- The entries of a map that is read are put into it in the order in which they are written. -/
theorem argument_map {levels : Nat} {s : List Char} {found : Reading Argument s.length} {entries : Entries}
    (h : argument levels s = .ok found) (hmap : found.value = .map entries) :
    ∃ written left r t, levels = left + 1 ∧ s = '\x7b' :: r ∧ Derives (.row .entry '\x7d') left r written t ∧
      Blanks t found.rest ∧ entries = Entries.ofList written := by
  obtain ⟨t, hderives, hblanks⟩ := argument_sound levels s found h
  have hrow : ∀ {c : Category} {levels : Nat} {s t : List Char} {value : c.Value}, Derives c levels s value t →
      c = .element .argument → HEq value (Argument.map entries) →
      ∃ written left r, levels = left + 1 ∧ s = '\x7b' :: r ∧ Derives (.row .entry '\x7d') left r written t ∧
        entries = Entries.ofList written := by
    intro c levels s t value hderives hc hvalue
    cases hderives <;> cases hc
    case map written r hrow =>
      cases hvalue
      exact ⟨written, _, r, rfl, rfl, hrow, rfl⟩
    all_goals cases hvalue
  obtain ⟨written, left, r, hlevels, hs, hrow, hentries⟩ := hrow hderives rfl (heq_of_eq hmap)
  exact ⟨written, left, r, t, hlevels, hs, hrow, hblanks, hentries⟩

namespace Entries

/-- Keys that are numbers have an entry in common exactly if the same is kept of them. -/
theorem share_iff_kept {added : List (Argument × Argument)} {a b : Number} (ha : a.IsFinite) (hb : b.IsFinite)
    (hmem : a.toKey ∈ added.map (·.1)) : (ofList added).Share a.toKey b.toKey ↔ a.kept = b.kept := by
  have hkepta := Argument.kept?_toKey ha.ne_nan
  have hkeptb := Argument.kept?_toKey hb.ne_nan
  simp only [Share, Argument.sameKey_iff_kept? hkepta, Argument.sameKey_iff_kept? hkeptb]
  constructor
  · rintro ⟨e, _, hea, heb⟩
    exact Option.some.inj (hea.symm.trans heb)
  · intro hkept
    obtain ⟨e, he, hkey⟩ := List.mem_map.1 hmem
    obtain ⟨f, hf, hsame⟩ := mem_numbersKept.1 (mem_numbersKept_ofList.2 ⟨e, he, (congrArg _ hkey).trans hkepta⟩)
    exact ⟨f, hf, hsame, hkept ▸ hsame⟩

/-- If no other number is taken for a number, under it stands the last value that was put under that number. -/
theorem get?_ofList_of_not_merges {added : List (Argument × Argument)} {a : Number} (ha : a.IsFinite)
    (h : ∀ c : Number, c.toKey ∈ added.map (·.1) → ¬ a.Merges c) :
    get? a.toKey (ofList added) = lastValue? (fun key => key.worth? = some a.worth) added := by
  rw [get?_ofList (Argument.kept?_toKey ha.ne_nan)]
  refine lastValue?_congr fun e he => ?_
  rw [Argument.kept?, Argument.worth?, Option.map_eq_some_iff, Option.map_eq_some_iff]
  refine exists_congr fun n => and_congr_right fun hn => ?_
  have hkey := (Argument.number?_eq_some_iff.1 hn).1
  have hdifferent : ¬ a.Merges n := h n (List.mem_map.2 ⟨e, he, hkey⟩)
  constructor
  · intro hn
    exact Classical.byContradiction fun hne => hdifferent ⟨fun hworth => hne hworth.symm, hn.symm⟩
  · exact Number.kept_eq_of_worth_eq

/-- How a map into which some entries were put stands to two numbers, of which the first is among their keys. -/
structure KeepsNumbers (entries : Entries) (added : List (Argument × Argument)) (a b : Number) : Prop where
  nodup : entries.numbersKept.Nodup
  share_iff : entries.Share a.toKey b.toKey ↔ a.kept = b.kept
  unless_merges : (entries.Share a.toKey b.toKey ↔ a.worth = b.worth) ↔ ¬ a.Merges b
  of_keepsDigits : a.KeepsDigits → b.KeepsDigits → (entries.Share a.toKey b.toKey ↔ a.worth = b.worth)
  get?_eq : get? a.toKey entries = lastValue? (fun key => key.kept? = some a.kept) added
  get?_unless_merges : (∀ c : Number, c.toKey ∈ added.map (·.1) → ¬ a.Merges c) →
    get? a.toKey entries = lastValue? (fun key => key.worth? = some a.worth) added

theorem keepsNumbers_ofList {added : List (Argument × Argument)} {a b : Number} (ha : a.IsFinite) (hb : b.IsFinite)
    (hmem : a.toKey ∈ added.map (·.1)) : (ofList added).KeepsNumbers added a b := by
  have hshare := share_iff_kept ha hb hmem
  have hexact : ((ofList added).Share a.toKey b.toKey ↔ a.worth = b.worth) ↔ ¬ a.Merges b := by
    rw [hshare, Number.Merges, not_and, ne_eq, not_imp_not]
    exact ⟨Iff.mp, fun hsame => ⟨hsame, Number.kept_eq_of_worth_eq⟩⟩
  exact {
    nodup := nodup_numbersKept_ofList added
    share_iff := hshare
    unless_merges := hexact
    of_keepsDigits := fun hdigits hdigits' => hexact.2 (Number.not_merges_of_keepsDigits hdigits hdigits')
    get?_eq := get?_ofList (Argument.kept?_toKey ha.ne_nan) added
    get?_unless_merges := get?_ofList_of_not_merges ha }

/-- Of the numbers that are put into a map, one by one or by a text that is read, those share an entry of which the
same is kept, and under each of them stands the last value that was put under one of them. So a map tells two numbers
apart unless one is taken for the other. -/
theorem share_iff_unless_merges {a b : Number} (ha : a.IsFinite) (hb : b.IsFinite) (entries : Entries) :
    (∀ added : List (Argument × Argument), entries = ofList added → a.toKey ∈ added.map (·.1) →
      entries.KeepsNumbers added a b) ∧
    ∀ (levels : Nat) (s : List Char) (found : Reading Argument s.length), argument levels s = .ok found →
      found.value = .map entries →
      ∃ written left r t, levels = left + 1 ∧ s = '\x7b' :: r ∧ Derives (.row .entry '\x7d') left r written t ∧
        Blanks t found.rest ∧ (a.toKey ∈ written.map (·.1) → entries.KeepsNumbers written a b) := by
  constructor
  · rintro added rfl hmem
    exact keepsNumbers_ofList ha hb hmem
  · intro levels s found hread hmap
    obtain ⟨written, left, r, t, hlevels, hs, hrow, hblanks, rfl⟩ := argument_map hread hmap
    exact ⟨written, left, r, t, hlevels, hs, hrow, hblanks, keepsNumbers_ofList ha hb⟩

end Entries

/-- Two integers of 54 binary digits, of which the second does not end in a zero, and a value under each. -/
def Sample.neighbours : List (Argument × Argument) :=
  [((Number.int 9007199254740992).toKey, .literal (.boolean false))] ++
    [((Number.int 9007199254740993).toKey, .literal (.boolean true))]

/-- The value under the one is lost, and what is found is the value under the other. -/
theorem Entries.share_iff_unless_merges_neighbours :
    (ofList Sample.neighbours).Share (Number.int 9007199254740992).toKey (Number.int 9007199254740993).toKey ∧
      get? (Number.int 9007199254740992).toKey (ofList Sample.neighbours) = some (.literal (.boolean true)) := by
  have hfirst : (Number.int 9007199254740992).IsFinite := trivial
  have hsecond : (Number.int 9007199254740993).IsFinite := trivial
  have hkeeps := (share_iff_unless_merges hfirst hsecond _).1 Sample.neighbours rfl List.mem_cons_self
  have hlast : (Number.int 9007199254740993).toKey.kept? = some (Number.int 9007199254740992).kept := by decide +kernel
  refine ⟨hkeeps.share_iff.2 (by decide +kernel), hkeeps.get?_eq.trans ?_⟩
  rw [Sample.neighbours, lastValue?_append, if_pos hlast]

/-- Maps do not tell all numbers apart. -/
theorem Entries.not_share_iff_worth :
    ¬ ∀ (added : List (Argument × Argument)) (a b : Number), a.IsFinite → b.IsFinite →
      a.toKey ∈ added.map (·.1) → b.toKey ∈ added.map (·.1) →
      ((ofList added).Share a.toKey b.toKey ↔ a.worth = b.worth) := by
  intro hall
  have hone := hall Sample.neighbours (.int 9007199254740992) (.int 9007199254740993) trivial trivial
    List.mem_cons_self (List.mem_cons_of_mem _ List.mem_cons_self)
  have hkept : (Number.int 9007199254740992).kept = (Number.int 9007199254740993).kept := by decide +kernel
  have hworth : (Number.int 9007199254740992).worth ≠ (Number.int 9007199254740993).worth := by decide +kernel
  exact hworth (hone.1 ((share_iff_kept (a := .int _) (b := .int _) trivial trivial List.mem_cons_self).2 hkept))

end Cadence
