import EntityFlow.Proofs.Text.Identifier
import EntityFlow.Symbol
import Mathlib.Data.Finset.Card
import Mathlib.Data.List.Nodup

/-!
# Names are given out once

The search for a free name looks at one candidate more than there are names to avoid.  Different
suffixes make different candidates, so one of them is free, and the search stops at the first.  A
table is therefore read through the list of taken names: a call that makes a name finds one outside
of the list and puts it in, and no call takes a name out or binds a key again.
-/

namespace EntityFlow.SymbolTable

variable {t : SymbolTable} {key key' : SymbolKey} {name name' hint base : String}

theorem isTaken_iff : t.isTaken name = true ↔ name ∈ t.taken := by
  simp [isTaken]

/-- A name is free if it is neither taken nor reserved. -/
theorem isFree_iff : t.isFree name = true ↔ name ∉ t.taken ∧ name ∉ Text.reservedWords := by
  simp [isFree, isTaken]

/-! ## The search for a free name -/

theorem candidate_injective {j k : Nat} (h : candidate base j = candidate base k) : j = k := by
  have hdigits : Nat.toDigits 10 j = Nat.toDigits 10 k := by
    have hrepr : Nat.repr j = Nat.repr k := (String.append_right_inj base).1 h
    simpa only [Nat.repr_eq_ofList_toDigits, String.ofList_inj] using hrepr
  rw [← Nat.ofDigitChars_ten_toDigits (n := j), hdigits, Nat.ofDigitChars_ten_toDigits]

/-- The search passes over candidates that are not free, and stops at a free one unless it has used
up its fuel. -/
theorem search_eq (t : SymbolTable) (base : String) (fuel k : Nat) :
    ∃ j, t.search base fuel k = candidate base (k + j) ∧ j ≤ fuel ∧
      (∀ i < j, t.isFree (candidate base (k + i)) = false) ∧
      (j < fuel → t.isFree (candidate base (k + j)) = true) := by
  induction fuel generalizing k with
  | zero => exact ⟨0, rfl, Nat.le_refl 0, nofun, nofun⟩
  | succ fuel ih =>
    rw [search]
    split
    · rename_i hfree
      exact ⟨0, rfl, Nat.zero_le _, nofun, fun _ => hfree⟩
    · rename_i htaken
      obtain ⟨j, heq, hle, hbefore, hstop⟩ := ih (k + 1)
      have hshift : ∀ i, k + 1 + i = k + (i + 1) := fun i => by omega
      simp only [hshift] at heq hbefore hstop
      refine ⟨j + 1, heq, Nat.succ_le_succ hle, fun i hi => ?_, fun hj => hstop (by omega)⟩
      cases i with
      | zero => simpa using htaken
      | succ i => exact hbefore i (by omega)

/-- Different suffixes make different candidates, so no more of them can be passed over than there
are names to avoid. -/
theorem le_of_not_isFree_candidate {n k : Nat}
    (h : ∀ i < n, t.isFree (candidate base (k + i)) = false) :
    n ≤ t.taken.toFinset.card + Text.reservedWords.length := by
  let passed := (Finset.range n).image fun i => candidate base (k + i)
  have hinj : Function.Injective fun i => candidate base (k + i) :=
    fun i j hij => Nat.add_left_cancel (candidate_injective hij)
  have hsub : passed ⊆ t.taken.toFinset ∪ Text.reservedWords.toFinset := by
    intro name hname
    obtain ⟨i, hi, rfl⟩ := Finset.mem_image.1 hname
    have hpassed := h i (Finset.mem_range.1 hi)
    rw [← Bool.not_eq_true, isFree_iff, ← not_or, not_not] at hpassed
    simpa using hpassed
  calc
    n = passed.card := by rw [Finset.card_image_of_injective _ hinj, Finset.card_range]
    _ ≤ (t.taken.toFinset ∪ Text.reservedWords.toFinset).card := Finset.card_le_card hsub
    _ ≤ t.taken.toFinset.card + Text.reservedWords.toFinset.card := Finset.card_union_le _ _
    _ ≤ t.taken.toFinset.card + Text.reservedWords.length :=
      Nat.add_le_add_left (List.toFinset_card_le _) _

/-- Among more candidates than there are names to avoid, one is free. -/
theorem exists_isFree_candidate (t : SymbolTable) (base : String) (k : Nat) :
    ∃ i ≤ t.taken.length + Text.reservedWords.length,
      t.isFree (candidate base (k + i)) = true := by
  by_contra! hnone
  have hpassed := le_of_not_isFree_candidate
    (t := t) (n := t.taken.length + Text.reservedWords.length + 1) fun i hi =>
      Bool.eq_false_of_not_eq_true (hnone i (Nat.le_of_lt_succ hi))
  have hcard := List.toFinset_card_le t.taken
  omega

/-- With as many tries as there are names to avoid, the search ends at a free name. -/
theorem isFree_search (t : SymbolTable) (base : String) (k : Nat) :
    t.isFree (t.search base (t.taken.length + Text.reservedWords.length) k) = true := by
  obtain ⟨j, heq, hle, hbefore, hstop⟩ :=
    search_eq t base (t.taken.length + Text.reservedWords.length) k
  obtain ⟨i, hi, hfree⟩ := exists_isFree_candidate t base k
  have hji : j ≤ i := by
    by_contra hlt
    exact absurd hfree (by simp [hbefore i (by omega)])
  rw [heq]
  rcases Nat.lt_or_eq_of_le hle with hlt | rfl
  · exact hstop hlt
  · obtain rfl : i = _ := Nat.le_antisymm hi hji
    exact hfree

/-! ## Fresh names -/

/-- A fresh name is free. -/
theorem isFree_freshName (t : SymbolTable) (hint : String) :
    t.isFree (t.freshName hint) = true := by
  rw [freshName]
  split
  · rename_i hfree
    exact hfree
  · exact isFree_search t _ 1

/-- A suffix makes an identifier out of an identifier. -/
theorem isIdentifier_candidate (h : Text.IsIdentifier base.toList) (k : Nat) :
    Text.IsIdentifier (candidate base k).toList := by
  rw [candidate, String.toList_append, Nat.toString_eq_ofList_toDigits, String.toList_ofList]
  refine h.append fun c hc => Text.isWordChar_of_isDigit ?_
  exact Nat.isDigit_of_mem_toDigits (by decide) (by decide) hc

/-- A fresh name is an identifier. -/
theorem isIdentifier_freshName (t : SymbolTable) (hint : String) :
    Text.IsIdentifier (t.freshName hint).toList := by
  rw [freshName]
  split
  · exact Text.isIdentifier_sanitize hint
  · obtain ⟨j, heq, -⟩ := search_eq t (Text.sanitize hint)
      (t.taken.length + Text.reservedWords.length) 1
    rw [heq]
    exact isIdentifier_candidate (Text.isIdentifier_sanitize hint) _

@[simp] theorem fresh_fst : (t.fresh hint).1 = t.freshName hint := rfl

@[simp] theorem taken_fresh : (t.fresh hint).2.taken = t.taken ++ [t.freshName hint] := rfl

@[simp] theorem bound_fresh : (t.fresh hint).2.bound = t.bound := rfl

/-! ## Registration -/

/-- A key that is bound keeps its name. -/
theorem register_of_get? (h : t.get? key = some name) : t.register key hint = (name, t) := by
  simp [register, h]

/-- A key that is not bound gets a fresh name. -/
theorem register_of_get?_eq_none (h : t.get? key = none) : t.register key hint =
    (t.freshName hint,
      { bound := t.bound ++ [(key, t.freshName hint)]
        taken := t.taken ++ [t.freshName hint] }) := by
  simp [register, h, fresh]

@[simp] theorem bound_reserve : (t.reserve name).bound = t.bound := by
  rw [reserve]
  split <;> rfl

theorem mem_taken_reserve : name' ∈ (t.reserve name).taken ↔ name' ∈ t.taken ∨ name' = name := by
  rw [reserve]
  split
  · rename_i htaken
    have hmem := isTaken_iff.1 htaken
    constructor
    · exact .inl
    · rintro (h | rfl)
      · exact h
      · exact hmem
  · simp

theorem mem_bound_of_get? (h : t.get? key = some name) : (key, name) ∈ t.bound := by
  obtain ⟨l₁, l₂, hl, -⟩ := List.lookup_eq_some_iff.1 h
  rw [hl]
  simp

/-- Bindings that were made first count, so a longer list keeps what a shorter one says. -/
theorem get?_of_bound_append {t' : SymbolTable} {more : List (SymbolKey × String)}
    (hb : t'.bound = t.bound ++ more) (h : t.get? key = some name) : t'.get? key = some name := by
  rw [get?] at h ⊢
  rw [hb, List.lookup_append, h]
  rfl

/-! ## Names stay -/

section Keeps

variable {t' t'' : SymbolTable}

/-- Every name that is bound stays. -/
def Keeps (t t' : SymbolTable) : Prop :=
  ∀ key name, t.get? key = some name → t'.get? key = some name

theorem Keeps.refl (t : SymbolTable) : t.Keeps t := fun _ _ h => h

theorem Keeps.trans (h : t.Keeps t') (h' : t'.Keeps t'') : t.Keeps t'' :=
  fun key name hname => h' key name (h key name hname)

theorem keeps_fresh (t : SymbolTable) (hint : String) : t.Keeps (t.fresh hint).2 :=
  fun _ _ h => h

/-- Registering keeps all names. -/
theorem keeps_register (t : SymbolTable) (key : SymbolKey) (hint : String) :
    t.Keeps (t.register key hint).2 := by
  cases hkey : t.get? key with
  | some name =>
    rw [register_of_get? hkey]
    exact .refl t
  | none =>
    rw [register_of_get?_eq_none hkey]
    exact fun _ _ hname => get?_of_bound_append rfl hname

/-- A key that is registered is bound. -/
theorem get?_register (t : SymbolTable) (key : SymbolKey) (hint : String) :
    (t.register key hint).2.get? key = some (t.register key hint).1 := by
  cases hkey : t.get? key with
  | some name => rw [register_of_get? hkey, hkey]
  | none =>
    rw [register_of_get?_eq_none hkey]
    rw [get?] at hkey
    simp [get?, List.lookup_append, hkey]

theorem keeps_foldl {α : Type} {step : SymbolTable → α → SymbolTable} (xs : List α)
    (hstep : ∀ (t : SymbolTable) x, t.Keeps (step t x)) : t.Keeps (xs.foldl step t) := by
  induction xs generalizing t with
  | nil => exact .refl t
  | cons x xs ih => exact (hstep t x).trans ih

end Keeps

/-! ## Sequences of calls -/

inductive Call where
  | register (key : SymbolKey) (hint : String)
  | fresh (hint : String)
  | reserve (name : String)
deriving DecidableEq, Repr

def step (t : SymbolTable) : Call → SymbolTable
  | .register key hint => (t.register key hint).2
  | .fresh hint => (t.fresh hint).2
  | .reserve name => t.reserve name

/-- The name that a call makes: none if it reserves one, or registers a key that is bound. -/
def minted? (t : SymbolTable) : Call → Option String
  | .register key hint => if t.contains key then none else some (t.register key hint).1
  | .fresh hint => some (t.fresh hint).1
  | .reserve _ => none

def run (t : SymbolTable) (calls : List Call) : SymbolTable := calls.foldl step t

/-- The names that a sequence of calls makes, in order. -/
def minted (t : SymbolTable) : List Call → List String
  | [] => []
  | c :: rest => (t.minted? c).toList ++ minted (t.step c) rest

def reserved (calls : List Call) : List String :=
  calls.filterMap fun c =>
    match c with
    | .reserve name => some name
    | _ => none

variable {c : Call} {calls : List Call}

/-- All that one call does: it binds nothing, or a new key to the name that it makes; it takes the
name that it makes or reserves; and what it makes is a fresh name. -/
theorem step_cases (t : SymbolTable) (c : Call) :
    ((t.step c).bound = t.bound ∨ ∃ key name, t.minted? c = some name ∧
      (t.step c).bound = t.bound ++ [(key, name)]) ∧
    (∀ name, name ∈ (t.step c).taken ↔ name ∈ t.taken ∨ t.minted? c = some name ∨
      c = .reserve name) ∧
    ∀ name, t.minted? c = some name → ∃ hint, t.freshName hint = name := by
  cases c with
  | register key hint =>
    cases hkey : t.get? key with
    | some name => simp [step, minted?, register_of_get? hkey, contains, hkey]
    | none =>
      simp only [step, minted?, register_of_get?_eq_none hkey, contains, hkey, Option.isSome_none,
        Bool.false_eq_true, if_false, reduceCtorEq, or_false, List.mem_append, List.mem_singleton,
        Option.some.injEq]
      exact ⟨.inr ⟨key, _, rfl, rfl⟩, fun name => or_congr_right eq_comm, fun name h => ⟨hint, h⟩⟩
  | fresh hint =>
    simp only [step, minted?, bound_fresh, taken_fresh, fresh_fst, List.mem_append,
      List.mem_singleton, Option.some.injEq, reduceCtorEq, or_false, true_or, true_and]
    exact ⟨fun name => or_congr_right eq_comm, fun name h => ⟨hint, h⟩⟩
  | reserve name =>
    simp only [step, minted?, bound_reserve, mem_taken_reserve, reduceCtorEq, false_or,
      Call.reserve.injEq, false_imp_iff, implies_true, and_true, true_or, true_and]
    exact fun name' => or_congr_right eq_comm

/-- A name that a call makes is an identifier that nobody has. -/
theorem isFree_of_minted? (h : t.minted? c = some name) :
    t.isFree name = true ∧ Text.IsIdentifier name.toList := by
  obtain ⟨hint, rfl⟩ := (step_cases t c).2.2 name h
  exact ⟨isFree_freshName t hint, isIdentifier_freshName t hint⟩

theorem run_append (t : SymbolTable) (before after : List Call) :
    t.run (before ++ after) = (t.run before).run after := List.foldl_append

/-- The taken names are those that were made or reserved. -/
theorem mem_taken_run (t : SymbolTable) (calls : List Call) : name ∈ (t.run calls).taken ↔
    name ∈ t.taken ∨ name ∈ t.minted calls ∨ name ∈ reserved calls := by
  induction calls generalizing t with
  | nil => simp [run, minted, reserved]
  | cons c rest ih =>
    have hreserved : name ∈ reserved (c :: rest) ↔ c = .reserve name ∨ name ∈ reserved rest := by
      cases c <;> simp [reserved, eq_comm]
    have hminted : name ∈ t.minted (c :: rest) ↔
        t.minted? c = some name ∨ name ∈ (t.step c).minted rest := by
      simp [minted]
    rw [run, List.foldl_cons, ← run, ih, (step_cases t c).2.1, hreserved, hminted]
    tauto

/-- Calls add to what is bound, at the end. -/
theorem bound_run (t : SymbolTable) (calls : List Call) :
    ∃ more, (t.run calls).bound = t.bound ++ more := by
  induction calls generalizing t with
  | nil => exact ⟨[], by simp [run]⟩
  | cons c rest ih =>
    obtain ⟨more, hmore⟩ := ih (t.step c)
    rw [run, List.foldl_cons, ← run]
    rcases (step_cases t c).1 with hsame | ⟨key, name, -, hnew⟩
    · exact ⟨more, by rw [hmore, hsame]⟩
    · exact ⟨(key, name) :: more, by rw [hmore, hnew, List.append_assoc]; rfl⟩

/-- Bound names are taken, and no name is bound twice. -/
structure Injective (t : SymbolTable) : Prop where
  taken : ∀ b ∈ t.bound, b.2 ∈ t.taken
  nodup : (t.bound.map Prod.snd).Nodup

/-- Every call keeps names apart. -/
theorem Injective.step (h : t.Injective) (c : Call) : (t.step c).Injective := by
  obtain ⟨hbound, htaken, -⟩ := step_cases t c
  have hold : ∀ b ∈ t.bound, b.2 ∈ (t.step c).taken :=
    fun b hb => (htaken b.2).2 (.inl (h.taken b hb))
  rcases hbound with hsame | ⟨key, name, hname, hnew⟩
  · exact ⟨by rwa [hsame], by rw [hsame]; exact h.nodup⟩
  · have hfresh := (isFree_iff.1 (isFree_of_minted? hname).1).1
    refine ⟨fun b hb => ?_, ?_⟩
    · rw [hnew] at hb
      rcases List.mem_append.1 hb with hb | hb
      · exact hold b hb
      · rw [List.mem_singleton.1 hb]
        exact (htaken name).2 (.inr (.inl hname))
    · rw [hnew, List.map_append, List.map_singleton]
      refine List.nodup_append.2 ⟨h.nodup, List.nodup_singleton _, ?_⟩
      rintro _ hx _ hy rfl
      obtain ⟨b, hb, rfl⟩ := List.mem_map.1 hx
      have hsame : b.2 = name := List.mem_singleton.1 hy
      exact hfresh (hsame ▸ h.taken b hb)

/-- Any sequence of calls keeps names apart. -/
theorem Injective.run (h : t.Injective) (calls : List Call) : (t.run calls).Injective := by
  induction calls generalizing t with
  | nil => exact h
  | cons c rest ih => exact ih (h.step c)

theorem injective_empty : Injective .empty := ⟨nofun, List.nodup_nil⟩

/-- A name has one key at most. -/
theorem Injective.key_eq (h : t.Injective) (hkey : t.get? key = some name)
    (hkey' : t.get? key' = some name) : key = key' := by
  have hpair :=
    List.inj_on_of_nodup_map h.nodup (mem_bound_of_get? hkey) (mem_bound_of_get? hkey') rfl
  exact congrArg Prod.fst hpair

/-- The table after any sequence of calls.  No two keys have the same name.  If the next call makes
a name, it was not made or reserved before, it is no reserved word, and it is an identifier.
Registering a key binds it to the name that is given for it.  A key that is bound keeps its name
whatever calls follow, and registering it again gives that name and changes nothing. -/
theorem run_allocates (calls : List Call) :
    (∀ key key' name, (run .empty calls).get? key = some name →
      (run .empty calls).get? key' = some name → key = key') ∧
    (∀ c name, (run .empty calls).minted? c = some name →
      name ∉ minted .empty calls ∧ name ∉ reserved calls ∧ name ∉ Text.reservedWords ∧
        Text.IsIdentifier name.toList) ∧
    (∀ key hint, ((run .empty calls).register key hint).2.get? key =
      some ((run .empty calls).register key hint).1) ∧
    ∀ key name, (run .empty calls).get? key = some name → ∀ more hint,
      (run .empty (calls ++ more)).get? key = some name ∧
        (run .empty (calls ++ more)).register key hint = (name, run .empty (calls ++ more)) := by
  refine ⟨fun key key' name => (injective_empty.run calls).key_eq, ?_, get?_register _, ?_⟩
  · intro c name hname
    obtain ⟨hfree, hident⟩ := isFree_of_minted? hname
    obtain ⟨htaken, hword⟩ := isFree_iff.1 hfree
    rw [mem_taken_run, not_or, not_or] at htaken
    exact ⟨htaken.2.1, htaken.2.2, hword, hident⟩
  · intro key name hkey more hint
    obtain ⟨new, hnew⟩ := bound_run (run .empty calls) more
    have hkept : (run .empty (calls ++ more)).get? key = some name := by
      rw [run_append]
      exact get?_of_bound_append hnew hkey
    exact ⟨hkept, register_of_get? hkept⟩

end EntityFlow.SymbolTable
