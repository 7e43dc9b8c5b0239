import EntityFlow.Proofs.Symbols
import Mathlib.Order.Bounds.Basic

/-!
# The least free suffix

`Finds` is the search for a free candidate without any limit on its steps.  It stops, since a
candidate that is passed over is one of finitely many names to avoid, and it stops at the least
suffix that makes a free name.
-/

namespace EntityFlow.SymbolTable

variable {t : SymbolTable} {base name name' : String} {i k : ℕ}

def Withholds (t : SymbolTable) (name : String) : Prop := name ∈ t.taken ∨ name ∈ Text.reservedWords

instance : DecidablePred t.Withholds := fun _ => inferInstanceAs (Decidable (_ ∨ _))

/-- Looking at one candidate after the other, from suffix `k` on, ends with a name. -/
inductive Finds (t : SymbolTable) (base : String) : ℕ → String → Prop
  | stop {k : ℕ} (h : ¬t.Withholds (candidate base k)) : Finds t base k (candidate base k)
  | next {k : ℕ} {name : String} (h : t.Withholds (candidate base k))
      (hnext : Finds t base (k + 1) name) : Finds t base k name

def freeSuffixes (t : SymbolTable) (base : String) : Set ℕ :=
  {k | 1 ≤ k ∧ ¬t.Withholds (candidate base k)}

/-- A name is free exactly if nothing withholds it. -/
theorem isFree_iff_not_withholds : t.isFree name = true ↔ ¬t.Withholds name := by
  rw [isFree_iff, Withholds, not_or]

/-- Every suffix below the least free one is withheld. -/
theorem withholds_of_lt (h : IsLeast (t.freeSuffixes base) k) (hone : 1 ≤ i) (hlt : i < k) :
    t.Withholds (candidate base i) := by
  by_contra hfree
  exact absurd (h.2 ⟨hone, hfree⟩) (Nat.not_le.2 hlt)

/-- The least free suffix is bounded by the number of names to avoid. -/
theorem le_of_isLeast_freeSuffixes (h : IsLeast (t.freeSuffixes base) k) :
    k ≤ t.taken.toFinset.card + Text.reservedWords.length + 1 := by
  have hpassed : ∀ i < k - 1, t.isFree (candidate base (1 + i)) = false := by
    intro i hi
    rw [← Bool.not_eq_true, isFree_iff_not_withholds, not_not]
    exact withholds_of_lt h (Nat.le_add_right 1 i) (by omega)
  have hle := le_of_not_isFree_candidate hpassed
  omega

/-- The search ends at the least free suffix. -/
theorem exists_isLeast_search (t : SymbolTable) (base : String) :
    ∃ k, IsLeast (t.freeSuffixes base) k ∧
      t.search base (t.taken.length + Text.reservedWords.length) 1 = candidate base k := by
  have hfree := isFree_search t base 1
  obtain ⟨j, heq, -, hbefore, -⟩ :=
    search_eq t base (t.taken.length + Text.reservedWords.length) 1
  rw [heq, isFree_iff_not_withholds] at hfree
  refine ⟨1 + j, ⟨⟨Nat.le_add_right 1 j, hfree⟩, ?_⟩, heq⟩
  rintro i ⟨hone, hi⟩
  by_contra hlt
  obtain ⟨d, rfl⟩ : ∃ d, i = 1 + d := ⟨i - 1, by omega⟩
  have htaken := hbefore d (by omega)
  rw [isFree_iff_not_withholds.2 hi] at htaken
  cases htaken

/-- The search from any suffix up to the least free one ends there. -/
theorem finds_of_isLeast (h : IsLeast (t.freeSuffixes base) k) (hone : 1 ≤ i) (hle : i ≤ k) :
    t.Finds base i (candidate base k) := by
  -- down from `k`, where the search stops, to where it starts
  induction hle using Nat.decreasingInduction with
  | self => exact .stop h.1.2
  | of_succ i hlt ih => exact .next (withholds_of_lt h hone hlt) (ih (Nat.le_succ_of_le hone))

/-- A search ends at one name. -/
theorem Finds.unique (h : t.Finds base k name) (h' : t.Finds base k name') : name = name' := by
  induction h with
  | stop hfree =>
    cases h' with
    | stop => rfl
    | next hheld _ => exact absurd hheld hfree
  | next hheld _ ih =>
    cases h' with
    | stop hfree => exact absurd hheld hfree
    | next _ hnext => exact ih hnext

/-- A call makes the identifier of its hint, if that is free, and else puts the least suffix after
it that makes a free name.  The suffix is at most one more than there are names to avoid, so the
search needs no limit to end with it.  Afterwards one name more is taken, and the same keys are
bound. -/
theorem fresh_takesLeast (t : SymbolTable) (hint : String) :
    (¬t.Withholds (Text.sanitize hint) → (t.fresh hint).1 = Text.sanitize hint) ∧
    (t.Withholds (Text.sanitize hint) → ∃ k,
      IsLeast {k | 1 ≤ k ∧ ¬t.Withholds (Text.sanitize hint ++ toString k)} k ∧
      k ≤ t.taken.toFinset.card + Text.reservedWords.length + 1 ∧
      (t.fresh hint).1 = Text.sanitize hint ++ toString k ∧
      ∀ name, t.Finds (Text.sanitize hint) 1 name ↔ name = (t.fresh hint).1) ∧
    (t.fresh hint).1 ∉ t.taken ∧
    (t.fresh hint).2.taken = t.taken ++ [(t.fresh hint).1] ∧
    (t.fresh hint).2.bound = t.bound := by
  refine ⟨fun hfree => if_pos (isFree_iff_not_withholds.2 hfree), fun hheld => ?_,
    (isFree_iff.1 (isFree_freshName t hint)).1, rfl, rfl⟩
  obtain ⟨k, hleast, hsearch⟩ := exists_isLeast_search t (Text.sanitize hint)
  have hname : (t.fresh hint).1 = candidate (Text.sanitize hint) k := by
    rw [fresh_fst, freshName, if_neg fun hfree => isFree_iff_not_withholds.1 hfree hheld, hsearch]
  refine ⟨k, hleast, le_of_isLeast_freeSuffixes hleast, hname, fun name => ?_⟩
  rw [hname]
  have hfinds := finds_of_isLeast hleast le_rfl hleast.1.1
  exact ⟨fun h => h.unique hfinds, fun heq => heq ▸ hfinds⟩

/-- The identifier `x` is taken, and so is `x1`. -/
theorem fresh_takesLeast_x :
    let t : SymbolTable := ⟨[], ["x", "x1"]⟩
    (¬t.Withholds "y" ∧ (t.fresh "y").1 = "y") ∧
    t.Withholds "x" ∧ ∃ k, IsLeast {k | 1 ≤ k ∧ ¬t.Withholds ("x" ++ toString k)} k ∧
      (t.fresh "x").1 = "x" ++ toString k := by
  have hy : Text.sanitize "y" = "y" := by decide
  have hx : Text.sanitize "x" = "x" := by decide
  have hfree := (fresh_takesLeast ⟨[], ["x", "x1"]⟩ "y").1
  have htaken := (fresh_takesLeast ⟨[], ["x", "x1"]⟩ "x").2.1
  rw [hy] at hfree
  rw [hx] at htaken
  obtain ⟨k, hleast, -, hname, -⟩ := htaken (by decide)
  exact ⟨⟨by decide, hfree (by decide)⟩, by decide, k, hleast, hname⟩

end EntityFlow.SymbolTable
