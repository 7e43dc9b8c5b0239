import EntityFlow.Compile.Unit
import Mathlib.Data.List.Sort
import Mathlib.Data.Prod.Lex

/-!
# Methods and the order of their code

Code is added to a method with a priority, in calls that come from all over the unit.  The body has
the code of every call that brings some, sorted by priority and, for equal priorities, by the place
of the call.  Calls of different priorities can therefore be made in any order: a body depends on
the calls of each priority among themselves and on nothing else.
-/

namespace EntityFlow

open Declaration (Method Part)

/-! ## Adding code -/

namespace Declaration.Method

/-- A call changes the parts only, and adds none without code. -/
theorem addCode_eq (m : Method) (priority : Int) (code : String) : m.addCode priority code =
    { m with parts := m.parts ++ [⟨priority, code⟩].filter fun part => !part.code.isEmpty } := by
  rw [addCode]
  by_cases hcode : code.isEmpty = true
  · simp [hcode]
  · simp [hcode]

theorem name_addCode (m : Method) (priority : Int) (code : String) :
    (m.addCode priority code).name = m.name := by
  rw [addCode_eq]

theorem params_addCode (m : Method) (priority : Int) (code : String) :
    (m.addCode priority code).params = m.params := by
  rw [addCode_eq]

end Declaration.Method

namespace Assembly

/-- Adding parts appends those that have code. -/
theorem addParts_eq (m : Method) (parts : List Part) : addParts m parts =
    { m with parts := m.parts ++ parts.filter fun part => !part.code.isEmpty } := by
  unfold addParts
  induction parts generalizing m with
  | nil => simp
  | cons part rest ih =>
    rw [List.foldl_cons, ih, Method.addCode_eq, List.append_assoc, ← List.filter_append]
    rfl

@[simp] theorem name_addParts (m : Method) (parts : List Part) :
    (addParts m parts).name = m.name := by
  rw [addParts_eq]

@[simp] theorem params_addParts (m : Method) (parts : List Part) :
    (addParts m parts).params = m.params := by
  rw [addParts_eq]

/-- A method has the parts that it had and those added with code. -/
theorem mem_parts_addParts {m : Method} {parts : List Part} {x : Part} :
    x ∈ (addParts m parts).parts ↔ x ∈ m.parts ∨ x ∈ parts ∧ x.code.isEmpty = false := by
  simp [addParts_eq]

end Assembly

namespace Declaration

variable {m : Method} {xs ys : List Part}

/-! ## Code in order -/

/-- Two lists by priority are the same if they have the same parts of each priority, in the same
order. -/
theorem eq_of_filter_eq (hx : xs.Pairwise fun x y => x.priority ≤ y.priority)
    (hy : ys.Pairwise fun x y => x.priority ≤ y.priority)
    (h : ∀ p : Int, xs.filter (fun x => x.priority = p) = ys.filter fun x => x.priority = p) :
    xs = ys := by
  have hmem : ∀ {x : Part} {l : List Part}, x ∈ l ↔
      x ∈ l.filter fun y => y.priority = x.priority := by
    intro x l
    simp
  induction xs generalizing ys with
  | nil =>
    refine (List.eq_nil_iff_forall_not_mem.2 fun y hy => ?_).symm
    rw [hmem, ← h] at hy
    exact List.not_mem_nil hy
  | cons x xs ih =>
    have hxmem : x ∈ ys := by
      rw [hmem, ← h, ← hmem]
      exact List.mem_cons_self
    cases ys with
    | nil => exact absurd hxmem List.not_mem_nil
    | cons y ys =>
      have hymem : y ∈ x :: xs := by
        rw [hmem, h, ← hmem]
        exact List.mem_cons_self
      -- each head comes first in the other list as well
      have hle : y.priority ≤ x.priority := by
        rcases List.mem_cons.1 hxmem with rfl | hlater
        · exact le_rfl
        · exact List.rel_of_pairwise_cons hy hlater
      have hge : x.priority ≤ y.priority := by
        rcases List.mem_cons.1 hymem with rfl | hlater
        · exact le_rfl
        · exact List.rel_of_pairwise_cons hx hlater
      have heq : y.priority = x.priority := le_antisymm hle hge
      obtain rfl : x = y := by
        have hheads := h x.priority
        rw [List.filter_cons_of_pos (by simp),
          List.filter_cons_of_pos (by simpa using heq)] at hheads
        exact (List.cons.inj hheads).1
      refine congrArg (x :: ·) (ih hx.tail hy.tail fun p => ?_)
      have hfilters := h p
      rw [List.filter_cons, List.filter_cons] at hfilters
      split at hfilters
      · exact (List.cons.inj hfilters).2
      · exact hfilters

theorem priority_trans (x y z : Part) (hxy : decide (x.priority ≤ y.priority) = true)
    (hyz : decide (y.priority ≤ z.priority) = true) : decide (x.priority ≤ z.priority) = true :=
  decide_eq_true (le_trans (of_decide_eq_true hxy) (of_decide_eq_true hyz))

theorem priority_total (x y : Part) :
    (decide (x.priority ≤ y.priority) || decide (y.priority ≤ x.priority)) = true := by
  simpa using le_total x.priority y.priority

/-- The parts of a body are sorted by priority. -/
theorem pairwise_ordered (m : Method) : m.ordered.Pairwise fun x y => x.priority ≤ y.priority :=
  (List.pairwise_mergeSort priority_trans priority_total m.parts).imp fun h => of_decide_eq_true h

theorem pairwise_of_priority_eq {p : Int} (h : ∀ x ∈ xs, x.priority = p) :
    xs.Pairwise fun x y => x.priority ≤ y.priority :=
  List.pairwise_of_forall_mem_list fun x hx y hy => ((h x hx).trans (h y hy).symm).le

/-- Parts of one priority stay in the order they were added in. -/
theorem filter_ordered (m : Method) (p : Int) :
    m.ordered.filter (fun x => x.priority = p) = m.parts.filter fun x => x.priority = p := by
  have hsame : (m.parts.filter fun x => x.priority = p).Pairwise
      fun x y => x.priority ≤ y.priority :=
    pairwise_of_priority_eq fun x hx => of_decide_eq_true (List.mem_filter.1 hx).2
  have hsub : (m.parts.filter fun x => x.priority = p).Sublist m.ordered :=
    List.sublist_mergeSort priority_trans priority_total (hsame.imp fun h => decide_eq_true h)
      List.filter_sublist
  have hfiltered := hsub.filter fun x => x.priority = p
  simp only [List.filter_filter, Bool.and_self] at hfiltered
  have hperm : m.ordered.Perm m.parts := List.mergeSort_perm _ _
  exact (hfiltered.eq_of_length (hperm.filter _).length_eq.symm).symm

/-- The order of a method is given by its parts of each priority, and gives them. -/
theorem ordered_eq_ordered_iff {m' : Method} : m.ordered = m'.ordered ↔
    ∀ p : Int, m.parts.filter (fun x => x.priority = p) =
      m'.parts.filter fun x => x.priority = p := by
  constructor
  · intro h p
    rw [← filter_ordered, h, filter_ordered]
  · intro h
    refine eq_of_filter_eq (pairwise_ordered m) (pairwise_ordered m') fun p => ?_
    rw [filter_ordered, filter_ordered, h]

/-- What comes after all the rest, and is in order, is left where it is. -/
theorem exists_ordered_eq_append (hparts : m.parts = xs ++ ys)
    (hlt : ∀ x ∈ xs, ∀ y ∈ ys, x.priority < y.priority)
    (hys : ys.Pairwise fun x y => x.priority ≤ y.priority) :
    ∃ zs, zs.Perm xs ∧ m.ordered = zs ++ ys := by
  refine ⟨({ m with parts := xs } : Method).ordered, List.mergeSort_perm _ _, ?_⟩
  refine eq_of_filter_eq (pairwise_ordered m)
    (List.pairwise_append.2 ⟨pairwise_ordered _, hys, fun x hx y hy => ?_⟩) fun p => ?_
  · have hmem : x ∈ xs := (List.mergeSort_perm _ _).mem_iff.1 hx
    exact (hlt x hmem y hy).le
  · rw [filter_ordered, List.filter_append, filter_ordered, hparts, List.filter_append]

/-- Of parts that are grouped by priority, those of one priority are its group. -/
theorem filter_flatMap_filter {ps : List Int} (hps : ps.Nodup) (p : Int) :
    (ps.flatMap fun p' => xs.filter fun x => x.priority = p').filter (fun x => x.priority = p) =
      if p ∈ ps then xs.filter (fun x => x.priority = p) else [] := by
  induction ps with
  | nil => rfl
  | cons p' ps ih =>
    obtain ⟨hnew, hps⟩ := List.nodup_cons.1 hps
    rw [List.flatMap_cons, List.filter_append, ih hps, List.filter_filter]
    by_cases hp : p = p'
    · subst hp
      simp [hnew]
    · have hnone : xs.filter (fun x => decide (x.priority = p) && decide (x.priority = p')) =
          [] := by
        refine List.filter_eq_nil_iff.2 fun x _ hboth => ?_
        simp only [Bool.and_eq_true, decide_eq_true_eq] at hboth
        exact hp (hboth.1.symm.trans hboth.2)
      simp [hnone, hp]

theorem filter_eq_nil {p : Int} (h : ∀ x ∈ xs, x.priority ≠ p) :
    xs.filter (fun x => x.priority = p) = [] :=
  List.filter_eq_nil_iff.2 fun x hx heq => h x hx (of_decide_eq_true heq)

theorem filter_eq_self {p : Int} (h : ∀ x ∈ xs, x.priority = p) :
    xs.filter (fun x => x.priority = p) = xs :=
  List.filter_eq_self.2 fun x hx => decide_eq_true (h x hx)

/-- Parts in order are those of the least priority, then those of the next, and so on. -/
theorem ordered_eq_flatMap {ps : List Int} (hps : ps.Pairwise (· < ·))
    (hall : ∀ x ∈ m.parts, x.priority ∈ ps) :
    m.ordered = ps.flatMap fun p => m.parts.filter fun x => x.priority = p := by
  refine eq_of_filter_eq (pairwise_ordered m) ?_ fun p => ?_
  · refine List.pairwise_flatMap.2 ⟨fun p _ => ?_, hps.imp fun {p p'} hlt x hx y hy => ?_⟩
    · exact pairwise_of_priority_eq fun x hx => of_decide_eq_true (List.mem_filter.1 hx).2
    · rw [of_decide_eq_true (List.mem_filter.1 hx).2, of_decide_eq_true (List.mem_filter.1 hy).2]
      exact hlt.le
  · rw [filter_ordered, filter_flatMap_filter (hps.imp fun hlt => hlt.ne)]
    split
    · rfl
    · rename_i hp
      refine List.filter_eq_nil_iff.2 fun x hx heq => hp ?_
      rw [← of_decide_eq_true heq]
      exact hall x hx

/-! ## Calls in order -/

section Calls

open Assembly (addParts addParts_eq)

variable {calls : List Part} {order order' : List (Fin calls.length)}

/-- What calls are sorted by: the priority and then the place of the call. -/
def rank (calls : List Part) (i : Fin calls.length) : Int ×ₗ Fin calls.length :=
  toLex ((calls.get i).priority, i)

/-- No two calls have the same rank. -/
theorem rank_injective (calls : List Part) : Function.Injective (rank calls) :=
  fun _ _ h => (Prod.ext_iff.1 (toLex.injective h)).2

/-- A call comes before another by its priority and then by its place. -/
theorem rank_lt_rank {i j : Fin calls.length} : rank calls i < rank calls j ↔
    (calls.get i).priority < (calls.get j).priority ∨
      (calls.get i).priority = (calls.get j).priority ∧ i < j :=
  Prod.Lex.toLex_lt_toLex

/-- The places of the calls with code, from the first call to the last. -/
def coded (calls : List Part) : List (Fin calls.length) :=
  (List.finRange calls.length).filter fun i => !(calls.get i).code.isEmpty

theorem mem_coded {i : Fin calls.length} : i ∈ coded calls ↔ (calls.get i).code ≠ "" := by
  simp [coded]

/-- The calls with code are listed by place. -/
theorem pairwise_coded (calls : List Part) : (coded calls).Pairwise (· < ·) :=
  (List.pairwise_lt_finRange _).filter _

/-- The calls with code are the parts that are kept. -/
theorem map_get_coded (calls : List Part) :
    (coded calls).map calls.get = calls.filter fun c => !c.code.isEmpty := by
  conv_rhs => rw [← List.map_get_finRange calls, List.filter_map]
  rfl

/-- The places of the calls with code, each once, in the order in which their code is to stand. -/
structure CodeOrder (calls : List Part) (order : List (Fin calls.length)) : Prop where
  mem_iff : ∀ i, i ∈ order ↔ (calls.get i).code ≠ ""
  ascending : order.Pairwise fun i j => rank calls i < rank calls j

/-- The calls with code can be put in the order of their ranks. -/
theorem exists_codeOrder (calls : List Part) : ∃ order, CodeOrder calls order := by
  refine ⟨(coded calls).mergeSort fun i j => rank calls i ≤ rank calls j, fun i => ?_, ?_⟩
  · rw [List.mem_mergeSort, mem_coded]
  · -- no two calls have the same rank
    have hdistinct :=
      ((coded calls).mergeSort_perm fun i j => rank calls i ≤ rank calls j).nodup_iff.2
      (pairwise_coded calls).nodup
    refine (List.pairwise_mergeSort (fun i j k hij hjk => ?_) (fun i j => ?_) (coded calls)).imp₂
      (fun i j hle hne => (of_decide_eq_true hle).lt_of_ne ((rank_injective calls).ne hne))
      hdistinct
    · exact decide_eq_true ((of_decide_eq_true hij).trans (of_decide_eq_true hjk))
    · simpa using le_total (rank calls i) (rank calls j)

namespace CodeOrder

/-- There is one order by rank. -/
theorem unique (h : CodeOrder calls order) (h' : CodeOrder calls order') : order = order' := by
  refine (rank_injective calls).list_map ?_
  refine (List.pairwise_map.2 h.ascending).eq_of_mem_iff
    (List.pairwise_map.2 h'.ascending) fun r => ?_
  simp only [List.mem_map, h.mem_iff, h'.mem_iff]

/-- In the order of ranks, priorities do not descend. -/
theorem pairwise_map_get (h : CodeOrder calls order) :
    (order.map calls.get).Pairwise fun x y => x.priority ≤ y.priority :=
  List.pairwise_map.2 (h.ascending.imp fun hlt => Prod.Lex.monotone_fst_ofLex hlt.le)

/-- Among calls of one priority only the place counts. -/
theorem filter_priority (h : CodeOrder calls order) (p : Int) :
    order.filter (fun i => (calls.get i).priority = p) =
      (coded calls).filter fun i => (calls.get i).priority = p := by
  have hplaces : (order.filter fun i => (calls.get i).priority = p).Pairwise (· < ·) := by
    refine (h.ascending.filter _).imp_of_mem fun {i j} hi hj hlt => ?_
    have hi := of_decide_eq_true (List.mem_filter.1 hi).2
    have hj := of_decide_eq_true (List.mem_filter.1 hj).2
    rcases rank_lt_rank.1 hlt with hpriority | ⟨-, hplace⟩
    · rw [hi, hj] at hpriority
      exact absurd hpriority (lt_irrefl p)
    · exact hplace
  refine hplaces.eq_of_mem_iff ((pairwise_coded calls).filter _) fun i => ?_
  rw [List.mem_filter, List.mem_filter, h.mem_iff, mem_coded]

/-- In the order of ranks, the parts are those of the body. -/
theorem map_get_eq_ordered (h : CodeOrder calls order) (hm : m.parts = []) :
    order.map calls.get = (addParts m calls).ordered := by
  refine eq_of_filter_eq h.pairwise_map_get (pairwise_ordered _) fun p => ?_
  calc (order.map calls.get).filter (fun c => c.priority = p)
      = (order.filter fun i => (calls.get i).priority = p).map calls.get := List.filter_map
    _ = ((coded calls).filter fun i => (calls.get i).priority = p).map calls.get := by
      rw [h.filter_priority]
    _ = ((coded calls).map calls.get).filter fun c => c.priority = p := by
      rw [List.filter_map]
      rfl
    _ = (addParts m calls).ordered.filter fun c => c.priority = p := by
      rw [map_get_coded, filter_ordered, addParts_eq, hm, List.nil_append]

end CodeOrder

/-- The body is the code of all calls that bring some, one after the other by priority and then by
place.  Two sequences of calls that agree on each priority give the same body. -/
theorem body_addParts_merges (m : Method) (hm : m.parts = []) (calls : List Part) :
    (∃! order, CodeOrder calls order) ∧
    (∀ order, CodeOrder calls order →
      (addParts m calls).body = "\n".intercalate (order.map fun i => (calls.get i).code)) ∧
    ∀ calls' : List Part,
      (∀ p : Int, calls.filter (fun c => c.priority = p) = calls'.filter fun c => c.priority = p) →
      (addParts m calls).body = (addParts m calls').body := by
  refine ⟨?_, fun order h => ?_, fun calls' h => ?_⟩
  · obtain ⟨order, h⟩ := exists_codeOrder calls
    exact ⟨order, h, fun _ h' => h'.unique h⟩
  · rw [Method.body, ← h.map_get_eq_ordered hm, List.map_map]
    rfl
  · have hordered : (addParts m calls).ordered = (addParts m calls').ordered := by
      refine ordered_eq_ordered_iff.2 fun p => ?_
      rw [addParts_eq, addParts_eq, List.filter_append, List.filter_append, List.filter_comm, h,
        List.filter_comm]
    rw [Method.body, hordered, Method.body]

namespace Shuffled

def head : Method := { name := "OnUpdate", modifiers := "public", returns := "void" }

/-- The code of events, with the declaration of a handle in between. -/
def late : List Part := [⟨0, "b();"⟩, ⟨-1000, "var ecb = x;"⟩, ⟨0, "c();"⟩, ⟨-1000, ""⟩]

/-- The same calls, the declaration first. -/
def early : List Part := [⟨-1000, "var ecb = x;"⟩, ⟨0, "b();"⟩, ⟨-1000, ""⟩, ⟨0, "c();"⟩]

theorem filter_late_eq_filter_early (p : Int) :
    late.filter (fun c => c.priority = p) = early.filter fun c => c.priority = p := by
  by_cases hevent : 0 = p
  · subst hevent
    decide
  · by_cases hhandle : -1000 = p
    · subst hhandle
      decide
    · simp [late, early, hevent, hhandle]

/-- Two sequences of calls that differ across priorities only, and the one body of both. -/
theorem body_addParts_shuffled : head.parts = [] ∧
    (addParts head late).body = "var ecb = x;\nb();\nc();" ∧
    (addParts head early).body = "var ecb = x;\nb();\nc();" := by
  obtain ⟨-, hbody, hsame⟩ := body_addParts_merges head rfl late
  have horder : CodeOrder late [⟨1, by decide⟩, ⟨0, by decide⟩, ⟨2, by decide⟩] :=
    ⟨by decide, by decide⟩
  have hlate := hbody _ horder
  exact ⟨rfl, hlate, (hsame early filter_late_eq_filter_early).symm.trans hlate⟩

end Shuffled

end Calls

end Declaration

end EntityFlow
